import JarText.Json.Reader
import Mathlib.Data.List.Basic

/-!
# JSON that is read back

Reading takes from the front of a text what was written there, and leaves what follows. A string is
followed through its escapes, a list and an object item by item; what comes after a number must not go
on with it.
-/

set_option autoImplicit false

namespace JarText

namespace JsonReader

variable {α β : Type} {text more rest : List Char}

/-- The reader takes a text from the front, wherever it stands, and gives a result. -/
def Reads (reader : JsonReader α) (text rest : List Char) (result : α) : Prop :=
  ∀ offset, ∃ offset', reader ⟨offset, text ++ rest⟩ = .ok (result, ⟨offset', rest⟩)

theorem reads_pure (result : α) : Reads (pure result) [] rest result :=
  fun offset => ⟨offset, rfl⟩

theorem Reads.bind {reader : JsonReader α} {next : α → JsonReader β} {result : α} {last : β}
    (h : Reads reader text (more ++ rest) result) (hnext : Reads (next result) more rest last) :
    Reads (reader >>= next) (text ++ more) rest last := by
  intro offset
  obtain ⟨middle, hfirst⟩ := h offset
  obtain ⟨offset', hlast⟩ := hnext middle
  refine ⟨offset', ?_⟩
  rw [← hlast, List.append_assoc]
  change (reader ⟨offset, text ++ (more ++ rest)⟩ >>= fun found => next found.1 found.2) = _
  rw [hfirst]
  rfl

theorem reads_peek : Reads peek [] rest rest.head? :=
  fun offset => ⟨offset, rfl⟩

theorem Reads.peek_bind {next : Option Char → JsonReader β} {last : β}
    (h : Reads (next (text ++ rest).head?) text rest last) :
    Reads (peek >>= next) text rest last := fun offset => h offset

theorem Reads.advance_bind {next : Unit → JsonReader β} {last : β} (c : Char)
    (h : Reads (next ()) text rest last) : Reads (advance >>= next) (c :: text) rest last :=
  fun offset => h (offset + c.utf8Size)

theorem spanFrom_append {test : Char → Bool} (htext : ∀ c ∈ text, test c = true)
    (hrest : ∀ c ∈ rest.head?, test c = false) (offset : Nat) (done : List Char) :
    ∃ offset', spanFrom test offset done (text ++ rest) =
      (text.reverse ++ done, ⟨offset', rest⟩) := by
  induction text generalizing offset done with
  | nil =>
    refine ⟨offset, ?_⟩
    cases rest with
    | nil => rfl
    | cons c rest =>
      rw [List.nil_append, spanFrom, hrest c rfl]
      rfl
  | cons c text ih =>
    obtain ⟨hc, htext⟩ := List.forall_mem_cons.mp htext
    obtain ⟨offset', hspan⟩ := ih htext (offset + c.utf8Size) (c :: done)
    refine ⟨offset', ?_⟩
    rw [List.cons_append, spanFrom, if_pos hc, hspan, List.reverse_cons, List.append_assoc]
    rfl

theorem reads_takeWhile {test : Char → Bool} (htext : ∀ c ∈ text, test c = true)
    (hrest : ∀ c ∈ rest.head?, test c = false) : Reads (takeWhile test) text rest text := by
  intro offset
  obtain ⟨offset', hspan⟩ := spanFrom_append htext hrest offset []
  refine ⟨offset', ?_⟩
  rw [takeWhile, hspan, List.append_nil]
  dsimp only
  rw [List.reverse_reverse]

/-- Characters that are passed over before a value. -/
def AllBlank (text : List Char) : Prop := ∀ c ∈ text, isBlank c = true

theorem reads_peekSolid (htext : AllBlank text) (hrest : ∀ c ∈ rest.head?, isBlank c = false) :
    Reads peekSolid text rest rest.head? := by
  have hblanks : Reads (discard (takeWhile isBlank)) text ([] ++ rest) () := by
    intro offset
    obtain ⟨offset', htake⟩ := reads_takeWhile htext hrest offset
    refine ⟨offset', ?_⟩
    change (takeWhile isBlank ⟨offset, text ++ rest⟩ >>= fun found => pure ((), found.2)) = _
    rw [htake]
    rfl
  rw [← List.append_nil text]
  exact hblanks.bind reads_peek

theorem reads_peekSolid_of_head {c : Char} (htext : AllBlank text) (hhead : rest.head? = some c)
    (hc : isBlank c = false) : Reads peekSolid text rest (some c) := by
  rw [← hhead]
  apply reads_peekSolid htext
  intro next hnext
  rw [hhead] at hnext
  obtain rfl := Option.some.inj hnext
  exact hc

theorem Reads.peekSolid_bind {next : Option Char → JsonReader β} {last : β} {c : Char}
    (hhead : (text ++ rest).head? = some c) (hc : isBlank c = false)
    (h : Reads (next (some c)) text rest last) : Reads (peekSolid >>= next) text rest last := by
  have hpeek : Reads peekSolid [] (text ++ rest) (some c) :=
    reads_peekSolid_of_head (List.forall_mem_nil _) hhead hc
  rw [← List.nil_append text]
  exact hpeek.bind h

theorem Reads.blanks_bind {next : Option Char → JsonReader β} {last : β} {c : Char}
    (htext : AllBlank text) (hhead : rest.head? = some c) (hc : isBlank c = false)
    (h : Reads (next (some c)) [] rest last) : Reads (peekSolid >>= next) text rest last := by
  have hpeek : Reads peekSolid text ([] ++ rest) (some c) := reads_peekSolid_of_head htext hhead hc
  rw [← List.append_nil text]
  exact hpeek.bind h

/-! ## Strings -/

theorem hexValue?_digitChar : ∀ n < 16, hexValue? n.digitChar = some n := by decide

theorem utf8Size_digitChar : ∀ n < 16, n.digitChar.utf8Size = 1 := by decide

theorem hex_controlCharacter : ∀ n < 0x20,
    (Text.hex 4 n).toList = ['0', '0', (n / 16).digitChar, (n % 16).digitChar] := by
  decide

theorem reads_fourDigits {n : Nat} (hn : n < 0x20) :
    Reads fourDigits (Text.hex 4 n).toList rest n := by
  intro offset
  have hzero : hexValue? '0' = some 0 := by decide
  have hsize : '0'.utf8Size = 1 := by decide
  have hhigh := hexValue?_digitChar (n / 16) (by omega)
  have hlow := hexValue?_digitChar (n % 16) (by omega)
  have hsum : n / 16 * 16 + n % 16 = n := Nat.div_add_mod' n 16
  refine ⟨offset + 4, ?_⟩
  rw [hex_controlCharacter n hn]
  simp [fourDigits, utf8Size_digitChar (n / 16) (by omega), utf8Size_digitChar (n % 16) (by omega),
    hhigh, hlow, hzero, hsize, hsum]

theorem reads_numberedChar {c : Char} (hc : c.toNat < 0x20) :
    Reads numberedChar (Text.hex 4 c.toNat).toList rest c := by
  have hdigits : Reads fourDigits (Text.hex 4 c.toNat).toList ([] ++ rest) c.toNat :=
    reads_fourDigits hc
  rw [← List.append_nil (Text.hex 4 c.toNat).toList]
  refine hdigits.bind ?_
  rw [if_neg (by omega), if_neg (by omega), Char.ofNat_toNat]
  exact reads_pure c

theorem reads_escaped {c : Char} {tail : List Char} (h : Json.escapeChar c = '\\' :: tail) :
    Reads escaped tail rest c := by
  unfold Json.escapeChar at h
  split at h
  all_goals try
    obtain rfl := (List.cons.inj h).2
    exact fun offset => ⟨_, rfl⟩
  rename_i hslash _ _ _ _ _
  split at h
  · rename_i hc
    have hnumber : Reads numberedChar (Text.hex 4 c.toNat).toList rest c := reads_numberedChar hc
    generalize (Text.hex 4 c.toNat).toList = digits at h hnumber
    obtain rfl := (List.cons.inj h).2
    intro offset
    obtain ⟨offset', hchar⟩ := hnumber (offset + 1)
    exact ⟨offset', hchar⟩
  · exact absurd (List.cons.inj h).1 hslash

theorem escapeChar_cases (c : Char) : (∃ tail, Json.escapeChar c = '\\' :: tail) ∨
    (Json.escapeChar c = [c] ∧ c ≠ '"' ∧ c ≠ '\\' ∧ ¬c.toNat < 0x20) := by
  unfold Json.escapeChar
  split
  all_goals try exact .inl ⟨_, rfl⟩
  rename_i hquote hslash _ _ _ _ _
  split
  · exact .inl ⟨_, rfl⟩
  · rename_i hc
    exact .inr ⟨rfl, hquote, hslash, hc⟩

theorem stringFrom_escaped (limit : Nat) (done : List Char) (offset : Nat) :
    stringFrom (limit + 1) done ⟨offset, '\\' :: text⟩ =
      match escaped ⟨offset + 1, text⟩ with
      | .error stop => .error stop
      | .ok (c, cursor) => stringFrom limit (c :: done) cursor := rfl

theorem stringFrom_plain (limit : Nat) (done : List Char) (offset : Nat) {c : Char}
    (hquote : c ≠ '"') (hslash : c ≠ '\\') (hc : ¬c.toNat < 0x20) :
    stringFrom (limit + 1) done ⟨offset, c :: text⟩ =
      stringFrom limit (c :: done) ⟨offset + c.utf8Size, text⟩ := by
  rw [stringFrom]
  dsimp only
  split
  · rename_i hnil
    cases hnil
  · rename_i hcons
    exact absurd (List.cons.inj hcons).1 hquote
  · rename_i hcons
    exact absurd (List.cons.inj hcons).1 hslash
  · rename_i hcons
    obtain ⟨rfl, rfl⟩ := List.cons.inj hcons
    rw [if_neg hc]

theorem reads_stringFrom {limit : Nat} {chars done : List Char} (hlimit : chars.length < limit) :
    Reads (stringFrom limit done) (chars.flatMap Json.escapeChar ++ ['"']) rest
      (String.ofList (done.reverse ++ chars)) := by
  induction chars generalizing limit done with
  | nil =>
    obtain ⟨limit, rfl⟩ := Nat.exists_eq_succ_of_ne_zero (Nat.ne_zero_of_lt hlimit)
    intro offset
    rw [List.append_nil]
    exact ⟨offset + 1, rfl⟩
  | cons c chars ih =>
    obtain ⟨limit, rfl⟩ := Nat.exists_eq_succ_of_ne_zero (Nat.ne_zero_of_lt hlimit)
    have htail : Reads (stringFrom limit (c :: done)) (chars.flatMap Json.escapeChar ++ ['"']) rest
        (String.ofList ((c :: done).reverse ++ chars)) := ih (Nat.lt_of_succ_lt_succ hlimit)
    rw [List.reverse_cons, List.append_assoc, List.singleton_append] at htail
    rw [List.flatMap_cons, List.append_assoc]
    generalize chars.flatMap Json.escapeChar ++ ['"'] = more at htail ⊢
    intro offset
    rw [List.append_assoc]
    rcases escapeChar_cases c with ⟨tail, hescape⟩ | ⟨hescape, hquote, hslash, hc⟩
    · have hescaped : Reads escaped tail (more ++ rest) c := reads_escaped hescape
      obtain ⟨middle, hchar⟩ := hescaped (offset + 1)
      rw [hescape, List.cons_append, Nat.succ_eq_add_one, stringFrom_escaped, hchar]
      exact htail middle
    · rw [hescape, List.singleton_append, Nat.succ_eq_add_one,
        stringFrom_plain limit done offset hquote hslash hc]
      exact htail _

/-! ## Natural numbers -/

def valueFrom (n : Nat) (digits : List Char) : Nat :=
  digits.foldl (fun n digit => n * 10 + digitValue digit) n

theorem le_valueFrom (n : Nat) (digits : List Char) : n ≤ valueFrom n digits := by
  induction digits generalizing n with
  | nil => exact Nat.le_refl n
  | cons digit digits ih => exact Nat.le_trans (by omega) (ih (n * 10 + digitValue digit))

theorem whole_eq {digits : List Char} {n : Nat} (h : valueFrom n digits ≤ maxSignificand) :
    Magnitude.whole digits ⟨n, 0⟩ = ⟨valueFrom n digits, 0⟩ := by
  induction digits generalizing n with
  | nil => rfl
  | cons digit digits ih =>
    have hle := le_valueFrom (n * 10 + digitValue digit) digits
    have hlonger : ¬maxSignificand < n * 10 + digitValue digit := Nat.not_lt.mpr (Nat.le_trans hle h)
    rw [Magnitude.whole]
    dsimp only
    rw [if_neg hlonger]
    exact ih h

theorem valueFrom_toDigits (n : Nat) : valueFrom 0 (Nat.toDigits 10 n) = n := by
  induction n using Nat.strongRecOn with
  | ind n ih =>
    have hdigit : digitValue (n % 10).digitChar = n % 10 :=
      Nat.toNat_digitChar_sub_48_of_lt_ten (Nat.mod_lt n (by decide))
    by_cases hn : n < 10
    · rw [Nat.toDigits_of_lt_base hn, valueFrom, List.foldl_cons, List.foldl_nil]
      rw [Nat.mod_eq_of_lt hn] at hdigit
      omega
    · have hfront := ih (n / 10) (by omega)
      rw [valueFrom] at hfront
      rw [Nat.toDigits_of_base_le (by decide) (Nat.le_of_not_lt hn), valueFrom, List.foldl_append,
        hfront, List.foldl_cons, List.foldl_nil, hdigit]
      omega

theorem head?_toDigits {n : Nat} (hn : n ≠ 0) : (Nat.toDigits 10 n).head? ≠ some '0' := by
  induction n using Nat.strongRecOn with
  | ind n ih =>
    by_cases hlt : n < 10
    · rw [Nat.toDigits_of_lt_base hlt, List.head?_cons]
      intro hhead
      exact hn (Nat.digitChar_eq_zero.mp (Option.some.inj hhead))
    · rw [Nat.toDigits_of_base_le (by decide) (Nat.le_of_not_lt hlt),
        List.head?_append_of_ne_nil _ Nat.toDigits_ne_nil]
      exact ih (n / 10) (by omega) (by omega)

theorem round53_le (n : Nat) (hn : n ≠ 0) : Magnitude.round53 n ≤ 2 * n := by
  have hunit : Nat.pow 2 (n.log2 + 1 - 53) ≤ n :=
    Nat.le_trans (Nat.pow_le_pow_right (by decide) (by omega)) (Nat.log2_self_le hn)
  have hquotient : n / Nat.pow 2 (n.log2 + 1 - 53) * Nat.pow 2 (n.log2 + 1 - 53) ≤ n :=
    Nat.div_mul_le_self n _
  unfold Magnitude.round53
  dsimp only
  split
  · rw [Nat.add_mul, Nat.one_mul]
    omega
  · omega

theorem isTooLarge_of_le {n : Nat} (h : n ≤ maxSignificand) :
    Magnitude.isTooLarge ⟨n, 0⟩ = false := by
  by_cases hn : n = 0
  · rw [hn]
    rfl
  · have hround := round53_le n hn
    have hone : Magnitude.round53 1 = 1 := by decide
    have hmax : 2 * maxSignificand < Magnitude.beyondRange := by decide +kernel
    have hlt : ¬Magnitude.beyondRange ≤ Magnitude.round53 n := by omega
    simp [Magnitude.isTooLarge, hone, hlt]

/-- What follows does not go on with a number. -/
def EndsNumber (rest : List Char) : Prop :=
  ∀ c ∈ rest.head?, c.isDigit = false ∧ c ≠ '.' ∧ c ≠ 'e' ∧ c ≠ 'E'

theorem reads_afterWhole {n : Nat} (h : n ≤ maxSignificand) (hrest : EndsNumber rest) :
    Reads (afterWhole ⟨n, 0⟩) [] rest false := by
  have hrange : Reads (checkRange ⟨n, 0⟩ >>= fun _ => pure false) [] rest false := by
    rw [checkRange, isTooLarge_of_le h]
    exact reads_pure false
  unfold afterWhole
  apply Reads.peek_bind
  rw [List.nil_append]
  split
  · rename_i hhead
    exact absurd rfl (hrest _ hhead).2.1
  · rename_i hhead
    exact absurd rfl (hrest _ hhead).2.2.1
  · rename_i hhead
    exact absurd rfl (hrest _ hhead).2.2.2
  · exact hrange

theorem reads_magnitude {n : Nat} (h : n ≤ maxSignificand) (hrest : EndsNumber rest)
    {digits : List Char} (hdigits : valueFrom 0 digits = n) :
    Reads (do
      let isLong ← afterWhole (Magnitude.whole digits ⟨0, 0⟩)
      return (Magnitude.whole digits ⟨0, 0⟩,
        !isLong && (Magnitude.whole digits ⟨0, 0⟩).exponent == 0)) [] rest (⟨n, 0⟩, true) := by
  rw [whole_eq (hdigits ▸ h), hdigits]
  have hafter : Reads (afterWhole ⟨n, 0⟩) [] ([] ++ rest) false := reads_afterWhole h hrest
  exact hafter.bind (reads_pure _)

theorem reads_unsigned {n : Nat} (h : n ≤ maxSignificand) (hrest : EndsNumber rest) :
    Reads unsigned (Nat.toDigits 10 n) rest (⟨n, 0⟩, true) := by
  have hmagnitude := reads_magnitude h hrest (valueFrom_toDigits n)
  unfold unsigned
  apply Reads.peek_bind
  by_cases hn : n = 0
  · subst hn
    have hdigits : Nat.toDigits 10 0 = ['0'] := rfl
    rw [hdigits] at hmagnitude ⊢
    dsimp only [List.cons_append, List.head?_cons]
    rw [if_neg (by decide)]
    simp only [if_true, pure_bind]
    apply Reads.advance_bind
    apply Reads.peek_bind
    rw [List.nil_append]
    split
    · rename_i next hnext
      rw [(hrest next hnext).1, if_neg Bool.false_ne_true]
      exact hmagnitude
    · exact hmagnitude
  · have hhead := head?_toDigits hn
    have hall : ∀ c ∈ Nat.toDigits 10 n, c.isDigit = true :=
      fun c hc => Nat.isDigit_of_mem_toDigits (by decide) (by decide) hc
    have hnil : Nat.toDigits 10 n ≠ [] := Nat.toDigits_ne_nil
    generalize Nat.toDigits 10 n = digits at hhead hall hnil hmagnitude ⊢
    obtain ⟨c, digits, rfl⟩ := List.exists_cons_of_ne_nil hnil
    have hc : c ≠ '0' := fun heq => hhead (congrArg some heq)
    dsimp only [List.cons_append, List.head?_cons]
    rw [hall c List.mem_cons_self]
    simp only [hc, if_false]
    rw [if_neg (by decide), ← List.append_nil (c :: digits)]
    have htake : Reads (takeWhile Char.isDigit) (c :: digits) ([] ++ rest) (c :: digits) :=
      reads_takeWhile hall fun next hnext => (hrest next hnext).1
    exact htake.bind hmagnitude

theorem head?_toDigits_append (n : Nat) (rest : List Char) :
    ∃ c, (Nat.toDigits 10 n ++ rest).head? = some c ∧ c.isDigit = true := by
  obtain ⟨c, digits, hdigits⟩ := List.exists_cons_of_ne_nil (Nat.toDigits_ne_nil (n := n) (b := 10))
  refine ⟨c, by rw [hdigits]; rfl, ?_⟩
  exact Nat.isDigit_of_mem_toDigits (by decide) (by decide) (hdigits ▸ List.mem_cons_self)

theorem reads_number {n : Nat} (h : n ≤ maxSignificand) (hrest : EndsNumber rest) :
    Reads number (Nat.toDigits 10 n) rest (.natural n) := by
  intro offset
  obtain ⟨offset', hunsigned⟩ := reads_unsigned h hrest offset
  obtain ⟨c, hhead, hc⟩ := head?_toDigits_append n rest
  have hminus : ¬(Nat.toDigits 10 n ++ rest).head? = some '-' := by
    rw [hhead]
    intro heq
    obtain rfl := Option.some.inj heq
    cases hc
  refine ⟨offset', ?_⟩
  unfold number
  simp only [bind, StateT.bind, Except.bind, get, getThe, MonadStateOf.get, StateT.get, pure,
    Except.pure, hminus]
  rw [if_neg id]
  change Except.bind (unsigned ⟨offset, Nat.toDigits 10 n ++ rest⟩) _ = _
  rw [hunsigned]
  rfl

/-! ## Values -/

theorem allBlank_newLine (level : Nat) : AllBlank (Json.newLine level) := by
  intro c hc
  rcases List.mem_cons.mp hc with rfl | hc
  · rfl
  · rw [List.eq_of_mem_replicate hc]
    rfl

/-- A value is read from its written form, which may stand after blanks, if `depth` levels are
left. -/
structure ReadsBack (depth : Nat) (json : Json) : Prop where
  starts : ∀ level, ∃ c tail, json.renderAt level = c :: tail ∧ isBlank c = false ∧ c ≠ ']'
  reads : ∀ {level limit fuel levels : Nat} {blanks rest : List Char},
    (json.renderAt level).length ≤ limit → 2 * (json.renderAt level).length ≤ fuel →
    depth ≤ levels → AllBlank blanks → EndsNumber rest →
    Reads (value limit fuel levels) (blanks ++ json.renderAt level) rest json

theorem ReadsBack.reads_bare {depth level limit fuel levels : Nat} {json : Json}
    (h : ReadsBack depth json) (hlimit : (json.renderAt level).length ≤ limit)
    (hfuel : 2 * (json.renderAt level).length ≤ fuel) (hlevels : depth ≤ levels)
    (hrest : EndsNumber rest) : Reads (value limit fuel levels) (json.renderAt level) rest json := by
  rw [← List.nil_append (json.renderAt level)]
  exact h.reads hlimit hfuel hlevels (List.forall_mem_nil _) hrest

theorem length_le_flatMap_escapeChar (chars : List Char) :
    chars.length ≤ (chars.flatMap Json.escapeChar).length := by
  induction chars with
  | nil => exact Nat.le_refl 0
  | cons c chars ih =>
    have hc : 1 ≤ (Json.escapeChar c).length := by
      rcases escapeChar_cases c with ⟨tail, hescape⟩ | ⟨hescape, _⟩
      · rw [hescape]
        exact Nat.succ_pos _
      · rw [hescape]
        exact Nat.le_refl 1
    rw [List.flatMap_cons, List.length_append, List.length_cons]
    omega

theorem reads_string {limit : Nat} {text : String}
    (hlimit : (Json.renderString text).length ≤ limit) :
    Reads (stringFrom limit []) (Json.renderString text).tail rest text := by
  have hlength := length_le_flatMap_escapeChar text.toList
  have hshort : text.toList.length < limit := by
    rw [Json.renderString] at hlimit
    simp only [List.length_cons, List.length_append] at hlimit
    omega
  have hstring : Reads (stringFrom limit []) (text.toList.flatMap Json.escapeChar ++ ['"']) rest
      (String.ofList ([].reverse ++ text.toList)) := reads_stringFrom hshort
  rwa [List.reverse_nil, List.nil_append, String.ofList_toList] at hstring

theorem readsBack_string (text : String) : ReadsBack 0 (.string text) where
  starts level := ⟨'"', _, rfl, by decide, by decide⟩
  reads := by
    intro level limit fuel levels blanks rest hlimit hfuel _ hblanks _
    obtain ⟨fuel, rfl⟩ : ∃ before, fuel = before + 1 :=
      Nat.exists_eq_succ_of_ne_zero (by simp [Json.renderAt, Json.renderString] at hfuel; omega)
    rw [value.eq_def]
    dsimp only
    refine (reads_peekSolid_of_head hblanks rfl rfl).bind ?_
    change Reads (advance >>= fun _ => stringFrom limit [] >>= fun text => pure (Json.string text))
      ('"' :: (Json.renderString text).tail) rest (Json.string text)
    apply Reads.advance_bind
    rw [← List.append_nil (Json.renderString text).tail]
    have hstring : Reads (stringFrom limit []) (Json.renderString text).tail ([] ++ rest) text :=
      reads_string hlimit
    exact hstring.bind (reads_pure _)

theorem renderAt_natural (n level : Nat) : (Json.natural n).renderAt level = Nat.toDigits 10 n := by
  rw [Json.renderAt]
  exact Nat.toList_repr

theorem isBlank_of_isDigit {c : Char} (hc : c.isDigit = true) : isBlank c = false := by
  rw [← Bool.not_eq_true]
  intro hblank
  simp only [isBlank, Bool.or_eq_true, decide_eq_true_eq] at hblank
  rcases hblank with ((rfl | rfl) | rfl) | rfl <;> cases hc

theorem readsBack_natural {n : Nat} (h : n ≤ maxSignificand) : ReadsBack 0 (.natural n) where
  starts level := by
    obtain ⟨c, hhead, hc⟩ := head?_toDigits_append n []
    rw [List.append_nil] at hhead
    obtain ⟨tail, htail⟩ := List.head?_eq_some_iff.mp hhead
    refine ⟨c, tail, (renderAt_natural n level).trans htail, isBlank_of_isDigit hc, ?_⟩
    rintro rfl
    cases hc
  reads := by
    intro level limit fuel levels blanks rest _ hfuel _ hblanks hrest
    rw [renderAt_natural] at *
    obtain ⟨c, hhead, hc⟩ := head?_toDigits_append n rest
    obtain ⟨fuel, rfl⟩ : ∃ before, fuel = before + 1 :=
      Nat.exists_eq_succ_of_ne_zero (by
        have hpos := Nat.length_toDigits_pos (b := 10) (n := n)
        omega)
    rw [value.eq_def]
    dsimp only
    refine (reads_peekSolid_of_head hblanks hhead (isBlank_of_isDigit hc)).bind ?_
    split
    · rename_i hnone
      cases hnone
    all_goals try
      rename_i heq
      cases heq
      cases hc
    rename_i found _ _ _ _ _ _ heq
    obtain rfl := Option.some.inj heq
    rw [hc, Bool.or_true, if_pos rfl]
    exact reads_number h hrest

/-! ## Lists -/

theorem ReadsBack.head?_append {depth : Nat} {json : Json} (h : ReadsBack depth json) (level : Nat)
    (rest : List Char) :
    ∃ c, (json.renderAt level ++ rest).head? = some c ∧ isBlank c = false ∧ c ≠ ']' := by
  obtain ⟨c, tail, hrender, hblank, hc⟩ := h.starts level
  refine ⟨c, ?_, hblank, hc⟩
  rw [hrender]
  rfl

theorem reads_hasItem_end (first : Bool) (htext : AllBlank text) :
    Reads (hasItem first) text (']' :: rest) false :=
  Reads.blanks_bind htext rfl rfl (reads_pure false)

theorem ReadsBack.reads_hasItem_first {depth level : Nat} {json : Json} (h : ReadsBack depth json)
    (htext : AllBlank text) : Reads (hasItem true) text (json.renderAt level ++ rest) true := by
  obtain ⟨c, hhead, hblank, hc⟩ := h.head?_append level rest
  refine Reads.blanks_bind htext hhead hblank ?_
  split
  · rename_i hnone
    cases hnone
  · rename_i heq
    exact absurd (Option.some.inj heq) hc
  · exact reads_pure true

theorem ReadsBack.reads_hasItem_next {depth level : Nat} {json : Json} (h : ReadsBack depth json)
    (htext : AllBlank text) :
    Reads (hasItem false) (',' :: text) (json.renderAt level ++ rest) true := by
  obtain ⟨c, hhead, hblank, hc⟩ := h.head?_append level rest
  refine Reads.peekSolid_bind rfl rfl ?_
  apply Reads.advance_bind
  refine Reads.blanks_bind htext hhead hblank ?_
  split
  · rename_i heq
    exact absurd (Option.some.inj heq) hc
  · exact reads_pure true
  · rename_i hnone
    cases hnone

section Items

variable {limit levels fuel : Nat} {done : List Json}

theorem reads_items_end (h : Reads (hasItem done.isEmpty) text (']' :: rest) false) :
    Reads (items limit (fuel + 1) levels done) (text ++ [']']) rest (.array done.reverse) := by
  intro offset
  obtain ⟨offset', hitem⟩ := h offset
  refine ⟨offset' + 1, ?_⟩
  rw [List.append_assoc, List.singleton_append, items]
  dsimp only
  rw [hitem]
  rfl

theorem reads_items_next {item tail : List Char} {json last : Json}
    (h : Reads (hasItem done.isEmpty) text (item ++ (tail ++ rest)) true)
    (hvalue : Reads (value limit fuel levels) item (tail ++ rest) json)
    (htail : Reads (items limit fuel levels (json :: done)) tail rest last) :
    Reads (items limit (fuel + 1) levels done) (text ++ item ++ tail) rest last := by
  intro offset
  obtain ⟨first, hfirst⟩ := h offset
  obtain ⟨second, hsecond⟩ := hvalue first
  obtain ⟨offset', hthird⟩ := htail second
  refine ⟨offset', ?_⟩
  rw [List.append_assoc, List.append_assoc, items]
  dsimp only
  rw [hfirst]
  dsimp only
  rw [hsecond]
  exact hthird

/-- One item of a list, and what follows it. -/
theorem reads_item {depth level : Nat} {item last : Json} {tail : List Char}
    (hitem : ReadsBack depth item) (hlevels : depth ≤ levels)
    (hlimit : (item.renderAt level).length ≤ limit)
    (hfuel : 2 * (item.renderAt level).length ≤ fuel) (hends : EndsNumber (tail ++ rest))
    (h : Reads (hasItem done.isEmpty) text (item.renderAt level ++ (tail ++ rest)) true)
    (htail : Reads (items limit fuel levels (item :: done)) tail rest last) :
    Reads (items limit (fuel + 1) levels done) (text ++ item.renderAt level ++ tail) rest last :=
  reads_items_next h (hitem.reads_bare hlimit hfuel hlevels hends) htail

end Items

theorem endsNumber_cons {c : Char} (hc : c = ',' ∨ c = '\n') : EndsNumber (c :: rest) := by
  intro next hnext
  obtain rfl := Option.some.inj hnext
  rcases hc with rfl | rfl <;> decide

/-- What stands in brackets after the first text, and the bracket at the end. -/
def enclosedTail (closing : Char) (level : Nat) (texts : List (List Char)) : List Char :=
  texts.flatMap (fun text => ',' :: Json.newLine (level + 1) ++ text) ++ Json.newLine level
    ++ [closing]

theorem endsNumber_enclosedTail (closing : Char) (level : Nat) (texts : List (List Char)) :
    EndsNumber (enclosedTail closing level texts ++ rest) := by
  cases texts with
  | nil => exact endsNumber_cons (.inr rfl)
  | cons text texts => exact endsNumber_cons (.inl rfl)

theorem enclosedTail_cons (closing : Char) (level : Nat) (text : List Char)
    (texts : List (List Char)) : enclosedTail closing level (text :: texts) =
      ',' :: Json.newLine (level + 1) ++ text ++ enclosedTail closing level texts := by
  rw [enclosedTail, List.flatMap_cons, enclosedTail]
  simp only [List.append_assoc]

theorem enclose_cons (opening closing : Char) (level : Nat) (text : List Char)
    (texts : List (List Char)) : Json.enclose opening closing level (text :: texts) =
      opening :: (Json.newLine (level + 1) ++ text ++ enclosedTail closing level texts) := by
  rw [Json.enclose, enclosedTail]
  simp only [List.cons_append, List.append_assoc]

theorem reads_enclosedItems {depth level limit levels fuel : Nat} {items done : List Json}
    (hitems : ∀ item ∈ items, ReadsBack depth item) (hlevels : depth ≤ levels)
    (hlimit : (enclosedTail ']' level (Json.renderItems (level + 1) items)).length ≤ limit)
    (hfuel : 2 * (enclosedTail ']' level (Json.renderItems (level + 1) items)).length ≤ fuel)
    (hdone : done ≠ []) :
    Reads (JsonReader.items limit fuel levels done)
      (enclosedTail ']' level (Json.renderItems (level + 1) items)) rest
      (.array (done.reverse ++ items)) := by
  induction items generalizing done fuel with
  | nil =>
    obtain ⟨fuel, rfl⟩ : ∃ before, fuel = before + 1 :=
      Nat.exists_eq_succ_of_ne_zero (by
        simp only [Json.renderItems, enclosedTail, List.length_append, List.length_singleton]
          at hfuel
        omega)
    rw [List.append_nil]
    exact reads_items_end (reads_hasItem_end _ (allBlank_newLine level))
  | cons item items ih =>
    obtain ⟨hitem, hitems⟩ := List.forall_mem_cons.mp hitems
    rw [Json.renderItems, enclosedTail_cons] at *
    simp only [List.length_append, List.length_cons] at hlimit hfuel
    obtain ⟨fuel, rfl⟩ : ∃ before, fuel = before + 1 := Nat.exists_eq_succ_of_ne_zero (by omega)
    have htail : Reads (JsonReader.items limit fuel levels (item :: done))
        (enclosedTail ']' level (Json.renderItems (level + 1) items)) rest
        (.array ((item :: done).reverse ++ items)) :=
      ih hitems (by omega) (by omega) (List.cons_ne_nil _ _)
    rw [List.reverse_cons, List.append_assoc, List.singleton_append] at htail
    refine reads_item hitem hlevels (by omega) (by omega) (endsNumber_enclosedTail ']' level _) ?_
      htail
    rw [List.isEmpty_eq_false_iff.mpr hdone]
    exact hitem.reads_hasItem_next (allBlank_newLine _)

theorem renderAt_array_cons (level : Nat) (item : Json) (items : List Json) :
    (Json.array (item :: items)).renderAt level = '[' :: (Json.newLine (level + 1) ++
      item.renderAt (level + 1) ++ enclosedTail ']' level (Json.renderItems (level + 1) items)) := by
  rw [Json.renderAt, Json.renderItems, enclose_cons]

theorem reads_value_list {limit fuel levels : Nat} {blanks : List Char} {last : Json}
    (hblanks : AllBlank blanks) (h : Reads (items limit fuel levels []) text rest last) :
    Reads (value limit (fuel + 1) (levels + 1)) (blanks ++ '[' :: text) rest last := by
  rw [value.eq_def]
  dsimp only
  refine (reads_peekSolid_of_head hblanks rfl rfl).bind ?_
  exact Reads.advance_bind '[' h

theorem readsBack_array {depth : Nat} {items : List Json}
    (hitems : ∀ item ∈ items, ReadsBack depth item) : ReadsBack (depth + 1) (.array items) where
  starts level := by
    cases items with
    | nil => exact ⟨'[', _, rfl, by decide, by decide⟩
    | cons item items => exact ⟨'[', _, renderAt_array_cons level item items, by decide, by decide⟩
  reads := by
    intro level limit fuel levels blanks rest hlimit hfuel hlevels hblanks _
    obtain ⟨levels, rfl⟩ := Nat.exists_eq_succ_of_ne_zero (Nat.ne_zero_of_lt hlevels)
    cases items with
    | nil =>
      obtain ⟨fuel, rfl⟩ := Nat.exists_eq_add_of_le hfuel
      rw [Nat.add_comm]
      exact reads_value_list hblanks
        (reads_items_end (reads_hasItem_end _ (List.forall_mem_nil _)))
    | cons item items =>
      obtain ⟨hitem, hitems⟩ := List.forall_mem_cons.mp hitems
      rw [renderAt_array_cons] at *
      simp only [List.length_append, List.length_cons] at hlimit hfuel
      obtain ⟨fuel, rfl⟩ : ∃ before, fuel = before + 2 := ⟨fuel - 2, by omega⟩
      have htail : Reads (JsonReader.items limit fuel levels [item])
          (enclosedTail ']' level (Json.renderItems (level + 1) items)) rest
          (.array (item :: items)) :=
        reads_enclosedItems hitems (Nat.le_of_succ_le_succ hlevels) (by omega) (by omega)
          (List.cons_ne_nil _ _)
      exact reads_value_list hblanks
        (reads_item hitem (Nat.le_of_succ_le_succ hlevels) (by omega) (by omega)
          (endsNumber_enclosedTail ']' level _)
          (hitem.reads_hasItem_first (allBlank_newLine _)) htail)

/-! ## Objects -/

theorem reads_hasField_end (first : Bool) (htext : AllBlank text) :
    Reads (hasField first) text ('\x7d' :: rest) false :=
  Reads.blanks_bind htext rfl rfl (reads_pure false)

theorem reads_hasField_first (htext : AllBlank text) (hhead : rest.head? = some '"') :
    Reads (hasField true) text rest true :=
  Reads.blanks_bind htext hhead rfl (reads_pure true)

theorem reads_hasField_next (htext : AllBlank text) (hhead : rest.head? = some '"') :
    Reads (hasField false) (',' :: text) rest true := by
  refine Reads.peekSolid_bind rfl rfl ?_
  apply Reads.advance_bind
  exact Reads.blanks_bind htext hhead rfl (reads_pure true)

theorem reads_fieldName {limit : Nat} {name : String}
    (hlimit : (Json.renderString name).length ≤ limit) :
    Reads (fieldName limit) (Json.renderString name ++ [':']) rest name := by
  have hname : Reads (stringFrom limit []) (Json.renderString name).tail (':' :: rest) name :=
    reads_string hlimit
  refine Reads.advance_bind '"' (hname.bind ?_)
  refine Reads.peekSolid_bind rfl rfl ?_
  exact Reads.advance_bind ':' (reads_pure name)

section Fields

variable {limit levels fuel : Nat} {done : List (String × Json)}

theorem reads_fields_end (h : Reads (hasField done.isEmpty) text ('\x7d' :: rest) false) :
    Reads (fields limit (fuel + 1) levels done) (text ++ ['\x7d']) rest (.object done.reverse) := by
  intro offset
  obtain ⟨offset', hfield⟩ := h offset
  refine ⟨offset' + 1, ?_⟩
  rw [List.append_assoc, List.singleton_append, fields]
  dsimp only
  rw [hfield]
  rfl

theorem reads_fields_next {key item tail : List Char} {name : String} {json last : Json}
    (h : Reads (hasField done.isEmpty) text (key ++ (item ++ (tail ++ rest))) true)
    (hname : Reads (fieldName limit) key (item ++ (tail ++ rest)) name)
    (hvalue : Reads (value limit fuel levels) item (tail ++ rest) json)
    (htail : Reads (fields limit fuel levels ((name, json) :: done)) tail rest last) :
    Reads (fields limit (fuel + 1) levels done) (text ++ key ++ item ++ tail) rest last := by
  intro offset
  obtain ⟨first, hfirst⟩ := h offset
  obtain ⟨second, hsecond⟩ := hname first
  obtain ⟨third, hthird⟩ := hvalue second
  obtain ⟨offset', hfourth⟩ := htail third
  refine ⟨offset', ?_⟩
  rw [List.append_assoc, List.append_assoc, List.append_assoc, fields]
  dsimp only
  rw [hfirst]
  dsimp only
  rw [hsecond]
  dsimp only
  rw [hthird]
  exact hfourth

end Fields

theorem renderFields_cons (level : Nat) (name : String) (item : Json)
    (fields : List (String × Json)) : Json.renderFields level ((name, item) :: fields) =
      (Json.renderString name ++ [':'] ++ ' ' :: item.renderAt level) ::
        Json.renderFields level fields := by
  rw [Json.renderFields]
  simp only [List.append_assoc, List.cons_append, List.nil_append]

section Field

variable {depth level limit levels fuel : Nat} {name : String} {item last : Json}
  {done : List (String × Json)} {tail : List Char}

/-- One field of an object, and what follows it. -/
theorem reads_field (hitem : ReadsBack depth item) (hlevels : depth ≤ levels)
    (hlimit : (Json.renderString name ++ [':'] ++ ' ' :: item.renderAt level).length ≤ limit)
    (hfuel : 2 * (Json.renderString name ++ [':'] ++ ' ' :: item.renderAt level).length ≤ fuel)
    (hends : EndsNumber (tail ++ rest))
    (h : Reads (hasField done.isEmpty) text
      (Json.renderString name ++ [':'] ++ (' ' :: item.renderAt level ++ (tail ++ rest))) true)
    (htail : Reads (fields limit fuel levels ((name, item) :: done)) tail rest last) :
    Reads (fields limit (fuel + 1) levels done)
      (text ++ (Json.renderString name ++ [':'] ++ ' ' :: item.renderAt level) ++ tail) rest
      last := by
  simp only [List.length_append, List.length_cons] at hlimit hfuel
  have hblank : AllBlank [' '] := List.forall_mem_singleton.mpr rfl
  have hvalue : Reads (value limit fuel levels) ([' '] ++ item.renderAt level) (tail ++ rest) item :=
    hitem.reads (by omega) (by omega) hlevels hblank hends
  rw [← List.append_assoc text]
  exact reads_fields_next h (reads_fieldName (by omega)) hvalue htail

end Field

theorem reads_enclosedFields {depth level limit levels fuel : Nat}
    {fields done : List (String × Json)} (hfields : ∀ field ∈ fields, ReadsBack depth field.2)
    (hlevels : depth ≤ levels)
    (hlimit : (enclosedTail '\x7d' level (Json.renderFields (level + 1) fields)).length ≤ limit)
    (hfuel : 2 * (enclosedTail '\x7d' level (Json.renderFields (level + 1) fields)).length ≤ fuel)
    (hdone : done ≠ []) :
    Reads (JsonReader.fields limit fuel levels done)
      (enclosedTail '\x7d' level (Json.renderFields (level + 1) fields)) rest
      (.object (done.reverse ++ fields)) := by
  induction fields generalizing done fuel with
  | nil =>
    obtain ⟨fuel, rfl⟩ : ∃ before, fuel = before + 1 :=
      Nat.exists_eq_succ_of_ne_zero (by
        simp only [Json.renderFields, enclosedTail, List.length_append, List.length_singleton]
          at hfuel
        omega)
    rw [List.append_nil]
    exact reads_fields_end (reads_hasField_end _ (allBlank_newLine level))
  | cons field fields ih =>
    obtain ⟨name, item⟩ := field
    obtain ⟨hitem, hfields⟩ := List.forall_mem_cons.mp hfields
    rw [renderFields_cons, enclosedTail_cons] at *
    rw [List.length_append, List.length_append, List.length_cons] at hlimit hfuel
    obtain ⟨fuel, rfl⟩ : ∃ before, fuel = before + 1 := Nat.exists_eq_succ_of_ne_zero (by omega)
    have htail : Reads (JsonReader.fields limit fuel levels ((name, item) :: done))
        (enclosedTail '\x7d' level (Json.renderFields (level + 1) fields)) rest
        (.object (((name, item) :: done).reverse ++ fields)) :=
      ih hfields (by omega) (by omega) (List.cons_ne_nil _ _)
    rw [List.reverse_cons, List.append_assoc, List.singleton_append] at htail
    refine reads_field hitem hlevels (by omega) (by omega) (endsNumber_enclosedTail '\x7d' level _) ?_
      htail
    rw [List.isEmpty_eq_false_iff.mpr hdone]
    exact reads_hasField_next (allBlank_newLine _) rfl

theorem reads_value_object {limit fuel levels : Nat} {blanks : List Char} {last : Json}
    (hblanks : AllBlank blanks) (h : Reads (fields limit fuel levels []) text rest last) :
    Reads (value limit (fuel + 1) (levels + 1)) (blanks ++ '\x7b' :: text) rest last := by
  rw [value.eq_def]
  dsimp only
  refine (reads_peekSolid_of_head hblanks rfl rfl).bind ?_
  exact Reads.advance_bind '\x7b' h

theorem renderAt_object_cons (level : Nat) (name : String) (item : Json)
    (fields : List (String × Json)) :
    (Json.object ((name, item) :: fields)).renderAt level = '\x7b' :: (Json.newLine (level + 1) ++
      (Json.renderString name ++ [':'] ++ ' ' :: item.renderAt (level + 1)) ++
        enclosedTail '\x7d' level (Json.renderFields (level + 1) fields)) := by
  rw [Json.renderAt, renderFields_cons, enclose_cons]

theorem readsBack_object {depth : Nat} {fields : List (String × Json)}
    (hfields : ∀ field ∈ fields, ReadsBack depth field.2) :
    ReadsBack (depth + 1) (.object fields) where
  starts level := by
    rcases fields with _ | ⟨⟨name, item⟩, fields⟩
    · exact ⟨'\x7b', _, rfl, by decide, by decide⟩
    · exact ⟨'\x7b', _, renderAt_object_cons level name item fields, by decide, by decide⟩
  reads := by
    intro level limit fuel levels blanks rest hlimit hfuel hlevels hblanks _
    obtain ⟨levels, rfl⟩ := Nat.exists_eq_succ_of_ne_zero (Nat.ne_zero_of_lt hlevels)
    rcases fields with _ | ⟨⟨name, item⟩, fields⟩
    · obtain ⟨fuel, rfl⟩ := Nat.exists_eq_add_of_le hfuel
      rw [Nat.add_comm]
      exact reads_value_object hblanks
        (reads_fields_end (reads_hasField_end _ (List.forall_mem_nil _)))
    · obtain ⟨hitem, hfields⟩ := List.forall_mem_cons.mp hfields
      rw [renderAt_object_cons] at *
      rw [List.length_cons, List.length_append, List.length_append] at hlimit hfuel
      obtain ⟨fuel, rfl⟩ : ∃ before, fuel = before + 2 := ⟨fuel - 2, by omega⟩
      have htail : Reads (JsonReader.fields limit fuel levels [(name, item)])
          (enclosedTail '\x7d' level (Json.renderFields (level + 1) fields)) rest
          (.object ((name, item) :: fields)) :=
        reads_enclosedFields hfields (Nat.le_of_succ_le_succ hlevels) (by omega) (by omega)
          (List.cons_ne_nil _ _)
      exact reads_value_object hblanks
        (reads_field hitem (Nat.le_of_succ_le_succ hlevels) (by omega) (by omega)
          (endsNumber_enclosedTail '\x7d' level _)
          (reads_hasField_first (allBlank_newLine _) rfl) htail)

theorem ReadsBack.mono {depth depth' : Nat} {json : Json} (h : ReadsBack depth json)
    (hle : depth ≤ depth') : ReadsBack depth' json where
  starts := h.starts
  reads hlimit hfuel hlevels := h.reads hlimit hfuel (Nat.le_trans hle hlevels)

end JsonReader

namespace Json

/-- A value that is written is read again, and nothing is left. -/
theorem readValue_render {depth : Nat} {json : Json} (h : JsonReader.ReadsBack depth json)
    (hdepth : depth ≤ maxLevels) :
    ∃ cursor, readValue json.render = .ok (json, cursor) ∧ checkEnd cursor = .ok () := by
  have hlength : json.render.length = (json.renderAt 0).length := by
    rw [render, String.length_ofList]
  have hread : JsonReader.Reads
      (JsonReader.value (json.render.length + 1) (2 * json.render.length + 2) maxLevels)
      (json.renderAt 0) [] json :=
    h.reads_bare (by omega) (by omega) hdepth (by intro c hc; cases hc)
  obtain ⟨offset, hvalue⟩ := hread 0
  rw [List.append_nil] at hvalue
  refine ⟨⟨offset, []⟩, ?_, rfl⟩
  rw [readValue, TextCursor.start, ← hvalue]
  congr 2
  exact String.toList_ofList

end Json

end JarText
