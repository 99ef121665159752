import JarText.Proofs.BitRows

/-!
# Words of prefix codes

The word of a symbol is the way to it through the tree, so that it reads as the symbol
(`PrefixCode.exists_spells`). Lengths give a tree if they leave no room and take none twice; it is a
complete one (`PrefixCode.exists_complete`). A code that a block states may also have one word of
one bit, or none (`Admitted`).
-/

set_option autoImplicit false

namespace JarText.Zip

namespace PrefixCode

variable {code zero one : PrefixCode} {bits front : List Bool} {value count : Nat}
  {trees : List PrefixCode} {words : List (Nat × Nat)} {lengths : List Nat}

/-! ## Ways through a tree -/

/-- These bits lead to a symbol. -/
inductive Leads : PrefixCode → List Bool → Nat → Prop where
  | here (value : Nat) : Leads (symbol value) [] value
  | zero {zero one : PrefixCode} {bits : List Bool} {value : Nat} (h : Leads zero bits value) :
      Leads (branch zero one) (false :: bits) value
  | one {zero one : PrefixCode} {bits : List Bool} {value : Nat} (h : Leads one bits value) :
      Leads (branch zero one) (true :: bits) value

theorem Leads.reads (h : Leads code bits value) : ReadsBits code.read bits value := by
  induction h with
  | here value => exact readsBits_pure value
  | zero _ ih | one _ ih =>
    intro source rest hsource
    obtain ⟨source₁, hnext, h₁⟩ := hsource.next?
    obtain ⟨source₂, hread, h₂⟩ := ih source₁ rest h₁
    refine ⟨source₂, ?_, h₂⟩
    rw [read, hnext]
    exact hread

theorem mem_wordsFrom_iff {word : Word} :
    (value, word) ∈ code.wordsFrom (.ofList front) ↔
      ∃ bits, word = .ofList (front ++ bits) ∧ Leads code bits value := by
  have hzero (front : List Bool) : Word.ofList (front ++ [false]) =
      { Word.ofList front with size := 2 * (Word.ofList front).size } := by
    simp only [Word.ofList, ofBits_append, ofBits, List.length_append, List.length_singleton,
      Nat.pow_succ, Nat.mul_comm 2]
    simp
  have hone (front : List Bool) : Word.ofList (front ++ [true]) =
      ⟨2 * (Word.ofList front).size, (Word.ofList front).value + (Word.ofList front).size⟩ := by
    simp only [Word.ofList, ofBits_append, ofBits, List.length_append, List.length_singleton,
      Nat.pow_succ, Nat.mul_comm 2]
    simp
  induction code generalizing front with
  | unused =>
    constructor
    · intro h
      cases h
    · rintro ⟨bits, _, h⟩
      cases h
  | symbol found =>
    rw [wordsFrom, List.mem_singleton, Prod.mk.injEq]
    constructor
    · rintro ⟨rfl, rfl⟩
      exact ⟨[], by rw [List.append_nil], .here value⟩
    · rintro ⟨bits, rfl, h⟩
      cases h
      exact ⟨rfl, by rw [List.append_nil]⟩
  | branch zero one ihzero ihone =>
    rw [wordsFrom, List.mem_append, ← hzero, ← hone]
    constructor
    · rintro (h | h)
      · obtain ⟨bits, rfl, hleads⟩ := ihzero.mp h
        exact ⟨false :: bits, by rw [List.append_assoc]; rfl, .zero hleads⟩
      · obtain ⟨bits, rfl, hleads⟩ := ihone.mp h
        exact ⟨true :: bits, by rw [List.append_assoc]; rfl, .one hleads⟩
    · rintro ⟨bits, rfl, h⟩
      cases h with
      | zero h => exact .inl (ihzero.mpr ⟨_, by rw [List.append_assoc]; rfl, h⟩)
      | one h => exact .inr (ihone.mpr ⟨_, by rw [List.append_assoc]; rfl, h⟩)

theorem size_foldl_setIfInBounds {α : Type} (items : List (Nat × α)) (table : Array α) :
    (items.foldl (fun table item => table.setIfInBounds item.1 item.2) table).size =
      table.size := by
  induction items generalizing table with
  | nil => rfl
  | cons item items ih => rw [List.foldl_cons, ih, Array.size_setIfInBounds]

theorem getElem?_foldl_setIfInBounds {α : Type} {items : List (Nat × α)} (table : Array α)
    {place : Nat} (hplace : place < table.size) (hmem : place ∈ items.map (·.1)) :
    ∃ found, (place, found) ∈ items ∧
      (items.foldl (fun table item => table.setIfInBounds item.1 item.2) table)[place]? =
        some found := by
  -- the last item for a place decides
  induction items using List.reverseRecOn with
  | nil => cases hmem
  | append_singleton items item ih =>
    rw [List.foldl_append, List.foldl_cons, List.foldl_nil, Array.getElem?_setIfInBounds]
    by_cases hitem : item.1 = place
    · rw [if_pos hitem, hitem, size_foldl_setIfInBounds, if_pos hplace]
      exact ⟨item.2, List.mem_append_right _ (by rw [List.mem_singleton, ← hitem]), rfl⟩
    · rw [List.map_append, List.mem_append, List.map_singleton, List.mem_singleton] at hmem
      obtain ⟨found, hfound, hget⟩ := ih (hmem.resolve_right fun h => hitem h.symm)
      rw [if_neg hitem]
      exact ⟨found, List.mem_append_left _ hfound, hget⟩

/-- A symbol has a word of some bits, which reads as the symbol. -/
structure Spells (words : Array Word) (code : PrefixCode) (value : Nat) (bits : List Bool) :
    Prop where
  word_eq : words.getD value .nothing = .ofList bits
  ne_nil : bits ≠ []
  reads : ReadsBits code.read bits value

theorem exists_spells_of_leads (h : Leads (branch zero one) bits value) (hcount : value < count) :
    ∃ bits, Spells ((branch zero one).words count) (branch zero one) value bits := by
  have hstart : Word.nothing = .ofList [] := rfl
  have hmem : (value, Word.ofList bits) ∈ (branch zero one).wordsFrom .nothing :=
    hstart ▸ mem_wordsFrom_iff.mpr ⟨bits, rfl, h⟩
  obtain ⟨word, hword, hget⟩ := getElem?_foldl_setIfInBounds
    (Array.replicate count Word.nothing) (by rwa [Array.size_replicate])
    (List.mem_map_of_mem (f := Prod.fst) hmem)
  obtain ⟨found, rfl, hfound⟩ := mem_wordsFrom_iff.mp (hstart ▸ hword)
  refine ⟨found, ?_, ?_, hfound.reads⟩
  · rw [Array.getD_eq_getD_getElem?, words, hget]
    rfl
  · rintro rfl
    cases hfound

/-! ## Symbols of a code -/

/-- A symbol stands in a tree. -/
def Has (code : PrefixCode) (value : Nat) : Prop := ∃ bits, Leads code bits value

theorem has_of_mem_pairs {tree : PrefixCode} (h : tree ∈ trees) (hhas : tree.Has value) :
    ∃ pair ∈ pairs trees, pair.Has value := by
  obtain ⟨bits, hbits⟩ := hhas
  induction trees using pairs.induct with
  | case1 => cases h
  | case2 last =>
    obtain rfl := List.mem_singleton.mp h
    exact ⟨_, List.mem_singleton.mpr rfl, _, .zero hbits⟩
  | case3 zero one rest ih =>
    rw [pairs]
    rcases List.mem_cons.mp h with rfl | h
    · exact ⟨_, List.mem_cons_self, _, .zero hbits⟩
    rcases List.mem_cons.mp h with rfl | h
    · exact ⟨_, List.mem_cons_self, _, .one hbits⟩
    · obtain ⟨pair, hpair, hhas⟩ := ih h
      exact ⟨pair, List.mem_cons_of_mem _ hpair, hhas⟩

theorem has_of_mem_words (levels : Nat) {length : Nat} (h : (length, value) ∈ words)
    (hlow : maxLength - levels < length) (hhigh : length ≤ maxLength) :
    ∃ tree ∈ forest words levels, tree.Has value := by
  induction levels with
  | zero => omega
  | succ levels ih =>
    rw [forest]
    by_cases hlength : length = maxLength - levels
    · refine ⟨symbol value, List.mem_append_left _ ?_, [], .here value⟩
      exact List.mem_filterMap.mpr ⟨_, h, if_pos hlength⟩
    · obtain ⟨tree, htree, hhas⟩ := ih (by omega)
      obtain ⟨pair, hpair, hhas⟩ := has_of_mem_pairs htree hhas
      exact ⟨pair, List.mem_append_right _ hpair, hhas⟩

theorem exists_branch_of_mem_pairs {tree : PrefixCode} (h : tree ∈ pairs trees) :
    ∃ zero one, tree = branch zero one := by
  induction trees using pairs.induct with
  | case1 => cases h
  | case2 last => exact ⟨_, _, List.mem_singleton.mp h⟩
  | case3 zero one rest ih =>
    rcases List.mem_cons.mp h with rfl | h
    · exact ⟨_, _, rfl⟩
    · exact ih h

/-- The lengths that are stated, with their symbols. -/
def statedWords (lengths : List Nat) : List (Nat × Nat) := lengths.zipIdx.filter (·.1 ≠ 0)

theorem exists_spells (hcode : ofLengths? lengths = some code) (hcount : value < count)
    (hused : lengths[value]?.getD 0 ≠ 0) (hshort : ∀ length ∈ lengths, length ≤ maxLength) :
    ∃ bits, Spells (code.words count) code value bits := by
  obtain ⟨length, hlength⟩ : ∃ length, lengths[value]? = some length :=
    Option.ne_none_iff_exists'.mp fun h => hused (by rw [h]; rfl)
  rw [hlength, Option.getD_some] at hused
  have hword : (length, value) ∈ statedWords lengths :=
    List.mem_filter.mpr ⟨List.mem_zipIdx_iff_getElem?.mpr hlength, by simpa using hused⟩
  have hle := hshort length (List.mem_of_getElem? hlength)
  obtain ⟨tree, htree, hhas⟩ := has_of_mem_words maxLength hword (by omega) hle
  obtain ⟨pair, hpair, bits, hleads⟩ := has_of_mem_pairs htree hhas
  rw [ofLengths?] at hcode
  split at hcode
  · rename_i hnone
    rw [statedWords, hnone] at hpair
    cases hpair
  · rename_i tree hone
    obtain rfl := Option.some.inj hcode
    rw [statedWords, hone, List.mem_singleton] at hpair
    obtain rfl := hpair
    obtain ⟨zero, one, rfl⟩ := exists_branch_of_mem_pairs (hone ▸ List.mem_singleton.mpr rfl)
    exact exists_spells_of_leads hleads hcount
  · cases hcode

/-! ## Room -/

/-- The part of all words of the greatest length that begin with a word of a length. -/
def share (length : Nat) : Nat := if length = 0 then 0 else 2 ^ (maxLength - length)

/-- The room that words of some lengths take. -/
def roomOf (lengths : List Nat) : Nat := (lengths.map share).sum

theorem share_of_pos {length : Nat} (h : length ≠ 0) : share length = 2 ^ (maxLength - length) :=
  if_neg h

@[simp] theorem roomOf_cons (length : Nat) (lengths : List Nat) :
    roomOf (length :: lengths) = share length + roomOf lengths :=
  List.sum_cons

theorem roomOf_append (lengths more : List Nat) :
    roomOf (lengths ++ more) = roomOf lengths + roomOf more := by
  rw [roomOf, List.map_append, List.sum_append, ← roomOf, ← roomOf]

theorem roomOf_replicate (count length : Nat) :
    roomOf (List.replicate count length) = count * share length := by
  rw [roomOf, List.map_replicate, List.sum_replicate, smul_eq_mul]

theorem roomOf_filter_ne_zero (lengths : List Nat) :
    roomOf (lengths.filter (· ≠ 0)) = roomOf lengths := by
  induction lengths with
  | nil => rfl
  | cons length lengths ih =>
    by_cases hzero : length = 0
    · subst hzero
      simpa [share] using ih
    · rw [List.filter_cons_of_pos (by simpa using hzero), roomOf_cons, roomOf_cons, ih]

theorem map_fst_statedWords (lengths : List Nat) :
    (statedWords lengths).map (·.1) = lengths.filter (· ≠ 0) := by
  have hmap := List.filter_map (f := Prod.fst) (p := (· ≠ 0)) (l := lengths.zipIdx)
  rw [List.zipIdx_map_fst] at hmap
  exact hmap.symm

theorem length_pairs (trees : List PrefixCode) :
    (pairs trees).length = (trees.length + 1) / 2 := by
  induction trees using pairs.induct with
  | case1 => rfl
  | case2 => simp [pairs]
  | case3 zero one rest ih =>
    rw [pairs, List.length_cons, ih, List.length_cons, List.length_cons]
    omega

/-- An even number of complete trees is joined to complete trees. -/
theorem isComplete_of_mem_pairs (heven : 2 ∣ trees.length)
    (h : ∀ tree ∈ trees, tree.isComplete = true) : ∀ pair ∈ pairs trees, pair.isComplete = true := by
  induction trees using pairs.induct with
  | case1 => exact List.forall_mem_nil _
  | case2 last =>
    rw [List.length_singleton] at heven
    omega
  | case3 zero one rest ih =>
    rw [List.length_cons, List.length_cons] at heven
    obtain ⟨hzero, hrest⟩ := List.forall_mem_cons.mp h
    obtain ⟨hone, hrest⟩ := List.forall_mem_cons.mp hrest
    rw [pairs, List.forall_mem_cons]
    exact ⟨by rw [isComplete, hzero, hone]; rfl, ih (by omega) hrest⟩

/-- The room of the words that end in the lowest levels. -/
def roomBelow (levels : Nat) (lengths : List Nat) : Nat :=
  roomOf (lengths.filter (maxLength - levels < ·))

theorem roomBelow_succ {levels : Nat} (h : levels < maxLength) (words : List (Nat × Nat)) :
    roomBelow (levels + 1) (words.map (·.1)) = roomBelow levels (words.map (·.1))
      + (symbolsOfLength words (maxLength - levels)).length * 2 ^ levels := by
  induction words with
  | nil => simp [roomBelow, symbolsOfLength, roomOf]
  | cons word words ih =>
    obtain ⟨length, value⟩ := word
    rw [roomBelow, roomBelow, symbolsOfLength] at ih ⊢
    rw [List.map_cons, List.filter_cons, List.filter_cons, List.filterMap_cons]
    dsimp only
    rcases Nat.lt_trichotomy length (maxLength - levels) with hlt | rfl | hgt
    · rw [if_neg (by simp; omega), if_neg (by simp; omega), if_neg (Nat.ne_of_lt hlt)]
      exact ih
    · have hshare : share (maxLength - levels) = 2 ^ levels := by
        rw [share_of_pos (by omega), Nat.sub_sub_self (Nat.le_of_lt h)]
      rw [if_pos (by simp; omega), if_neg (by simp), if_pos rfl, roomOf_cons, hshare, ih,
        List.length_cons]
      ring
    · rw [if_pos (by simp; omega), if_pos (by simpa using hgt), if_neg (Nat.ne_of_gt hgt),
        roomOf_cons, roomOf_cons, ih]
      ring

/-- The shorter words take room in larger parts. -/
theorem pow_dvd_roomOf_sub {levels : Nat} (h : levels ≤ maxLength) (lengths : List Nat) :
    ∃ rest, roomOf lengths = roomBelow levels lengths + 2 ^ levels * rest := by
  induction lengths with
  | nil => exact ⟨0, rfl⟩
  | cons length lengths ih =>
    obtain ⟨rest, hrest⟩ := ih
    rw [roomBelow] at hrest ⊢
    rw [List.filter_cons]
    split
    · exact ⟨rest, by rw [roomOf_cons, roomOf_cons, hrest, Nat.add_assoc]⟩
    · rename_i hle
      obtain ⟨part, hpart⟩ : 2 ^ levels ∣ share length := by
        rw [share]
        split
        · exact Nat.dvd_zero _
        · exact Nat.pow_dvd_pow 2 (by simp at hle; omega)
      exact ⟨part + rest, by rw [roomOf_cons, hrest, hpart]; ring⟩

/-- Where no room is left, each level has as many trees as its words fill, and all of them can be
joined. -/
theorem forest_of_full {levels : Nat} (h : levels ≤ maxLength)
    (hshort : ∀ word ∈ words, word.1 ≤ maxLength)
    (hfull : roomOf (words.map (·.1)) = 2 ^ maxLength) :
    2 * roomBelow levels (words.map (·.1)) = (forest words levels).length * 2 ^ levels ∧
      2 ∣ (forest words levels).length ∧ ∀ tree ∈ forest words levels, tree.isComplete = true := by
  -- what the shorter words take is a multiple of two trees of this level, and so is the whole
  have heven {levels : Nat} (h : levels ≤ maxLength) {count : Nat}
      (hcount : 2 * roomBelow levels (words.map (·.1)) = count * 2 ^ levels) : 2 ∣ count := by
    obtain ⟨rest, hrest⟩ := pow_dvd_roomOf_sub h (words.map (·.1))
    obtain ⟨part, hpart⟩ : 2 ^ levels ∣ roomBelow levels (words.map (·.1)) := by
      rw [Nat.dvd_add_iff_left (Nat.dvd_mul_right _ rest), ← hrest, hfull]
      exact Nat.pow_dvd_pow 2 h
    refine ⟨part, Nat.eq_of_mul_eq_mul_right (Nat.two_pow_pos levels) ?_⟩
    rw [← hcount, hpart]
    ring
  induction levels with
  | zero =>
    have hnone : (words.map (·.1)).filter (maxLength - 0 < ·) = [] := by
      rw [List.filter_eq_nil_iff]
      intro length hlength
      obtain ⟨word, hword, rfl⟩ := List.mem_map.mp hlength
      simpa using hshort word hword
    refine ⟨?_, Nat.dvd_zero 2, List.forall_mem_nil _⟩
    rw [roomBelow, hnone]
    rfl
  | succ levels ih =>
    obtain ⟨hroom, ⟨half, hhalf⟩, hcomplete⟩ := ih (by omega)
    have hlength : (forest words (levels + 1)).length =
        (symbolsOfLength words (maxLength - levels)).length + half := by
      rw [forest, List.length_append, length_pairs, hhalf]
      omega
    have hcount : 2 * roomBelow (levels + 1) (words.map (·.1)) =
        (forest words (levels + 1)).length * 2 ^ (levels + 1) := by
      rw [roomBelow_succ (by omega), Nat.mul_add, hroom, hhalf, hlength, Nat.pow_succ]
      ring
    refine ⟨hcount, heven h hcount, ?_⟩
    intro tree htree
    rw [forest] at htree
    rcases List.mem_append.mp htree with hsymbol | hpair
    · obtain ⟨word, _, hword⟩ := List.mem_filterMap.mp hsymbol
      split at hword
      · obtain rfl := Option.some.inj hword
        rfl
      · cases hword
    · exact isComplete_of_mem_pairs ⟨half, hhalf⟩ hcomplete tree hpair

/-- Lengths that leave no room give a complete code. -/
theorem exists_complete (hshort : ∀ length ∈ lengths, length ≤ maxLength)
    (hfull : roomOf lengths = 2 ^ maxLength) :
    ∃ code, ofLengths? lengths = some code ∧ code.isComplete = true := by
  have hroom : roomOf ((statedWords lengths).map (·.1)) = 2 ^ maxLength := by
    rw [map_fst_statedWords, roomOf_filter_ne_zero, hfull]
  have hwords : ∀ word ∈ statedWords lengths, word.1 ≤ maxLength := by
    intro word hword
    apply hshort
    rw [statedWords, List.mem_filter] at hword
    exact List.fst_mem_of_mem_zipIdx hword.1
  obtain ⟨hcount, heven, hcomplete⟩ := forest_of_full (Nat.le_refl maxLength) hwords hroom
  have hall : ((statedWords lengths).map (·.1)).filter (maxLength - maxLength < ·) =
      (statedWords lengths).map (·.1) := by
    rw [List.filter_eq_self]
    intro length hlength
    rw [map_fst_statedWords, List.mem_filter] at hlength
    simpa [Nat.pos_iff_ne_zero] using hlength.2
  have hlength : (forest (statedWords lengths) maxLength).length = 2 := by
    rw [roomBelow, hall, hroom] at hcount
    exact (Nat.eq_of_mul_eq_mul_right (Nat.two_pow_pos maxLength) hcount).symm
  obtain ⟨tree, htree⟩ : ∃ tree, pairs (forest (statedWords lengths) maxLength) = [tree] := by
    rw [← List.length_eq_one_iff, length_pairs, hlength]
  refine ⟨tree, ?_, ?_⟩
  · rw [statedWords] at htree
    rw [ofLengths?, htree]
  · exact isComplete_of_mem_pairs heven hcomplete tree (htree ▸ List.mem_singleton.mpr rfl)

/-! ## Codes that a block may state -/

/-- The lengths of a code that a block may state: they leave no room, or there is one of one bit, or
none. -/
inductive Admitted (lengths : List Nat) : Prop where
  | full (short : ∀ length ∈ lengths, length ≤ maxLength) (full : roomOf lengths = 2 ^ maxLength)
  | single (single : lengths.filter (· ≠ 0) = [1])
  | wordless (wordless : lengths.filter (· ≠ 0) = [])

theorem Admitted.short (h : Admitted lengths) : ∀ length ∈ lengths, length ≤ maxLength := by
  intro length hmem
  by_cases hzero : length = 0
  · rw [hzero]
    exact Nat.zero_le _
  · have hused : length ∈ lengths.filter (· ≠ 0) :=
      List.mem_filter.mpr ⟨hmem, by simpa using hzero⟩
    cases h with
    | full short full => exact short length hmem
    | single single =>
      rw [single, List.mem_singleton] at hused
      rw [hused]
      decide
    | wordless wordless =>
      rw [wordless] at hused
      cases hused

/-- Below the level of a lone word of one bit there is nothing. -/
theorem forest_single {levels : Nat} (h : levels < maxLength) :
    forest [(1, value)] levels = [] := by
  induction levels with
  | zero => rfl
  | succ levels ih =>
    have hlength : (1 : Nat) ≠ maxLength - levels := by
      rw [maxLength] at h ⊢
      omega
    rw [forest, ih (by omega), symbolsOfLength, List.filterMap_cons, if_neg hlength]
    rfl

theorem Admitted.exists_code (h : Admitted lengths) :
    ∃ code, ofLengths? lengths = some code ∧ BlockCodes.ofLengths lengths = .ok code := by
  have hstated (code : PrefixCode) (hcode : ofLengths? lengths = some code)
      (hadmitted : code.isComplete = true ∨ lengths.filter (· ≠ 0) = [] ∨
        lengths.filter (· ≠ 0) = [1]) :
      ∃ code, ofLengths? lengths = some code ∧ BlockCodes.ofLengths lengths = .ok code := by
    refine ⟨code, hcode, ?_⟩
    rw [BlockCodes.ofLengths, hcode]
    dsimp only
    rw [if_pos]
    simpa only [Bool.or_eq_true, decide_eq_true_eq, or_assoc] using hadmitted
  have hwords := map_fst_statedWords lengths
  cases h with
  | full short full =>
    obtain ⟨code, hcode, hcomplete⟩ := exists_complete short full
    exact hstated code hcode (.inl hcomplete)
  | single single =>
    rw [single] at hwords
    obtain ⟨⟨length, value⟩, hword, hone⟩ := List.map_eq_singleton_iff.mp hwords
    obtain rfl : length = 1 := hone
    rw [statedWords] at hword
    refine hstated (branch (symbol value) unused) ?_ (.inr (.inr single))
    have hlast : maxLength = 14 + 1 := rfl
    rw [ofLengths?, hword, hlast, forest, forest_single (by decide)]
    rfl
  | wordless wordless =>
    rw [wordless] at hwords
    have hnone := List.map_eq_nil_iff.mp hwords
    rw [statedWords] at hnone
    refine hstated (branch unused unused) ?_ (.inr (.inl wordless))
    rw [ofLengths?, hnone]
    rfl

end PrefixCode

end JarText.Zip
