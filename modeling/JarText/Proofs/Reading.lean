import JarText.Bytes.Lemmas
import JarText.Reader

/-!
# Reading as the inverse of writing

A reader belongs to a writer when it accepts exactly the bytes that are written for a value that
fits, whatever follows them, and stops right after them. Such readers compose: `bind_eq_ok_iff`
takes a reading in steps apart, and `Cursor.passes_append_iff` puts the steps together again.
-/

set_option autoImplicit false

namespace JarText

theorem except_bind_eq_ok_iff {ε α β : Type} {outcome : Except ε α} {step : α → Except ε β}
    {b : β} :
    (outcome >>= step) = .ok b ↔ ∃ a, outcome = .ok a ∧ step a = .ok b := by
  cases outcome with
  | error fault => simp [bind, Except.bind]
  | ok a => simp [bind, Except.bind]

theorem except_bind_eq_error_iff {ε α β : Type} {outcome : Except ε α} {step : α → Except ε β}
    {fault : ε} :
    (outcome >>= step) = .error fault ↔
      outcome = .error fault ∨ ∃ a, outcome = .ok a ∧ step a = .error fault := by
  cases outcome with
  | error found => simp [bind, Except.bind]
  | ok a => simp [bind, Except.bind]

theorem exists_bind_and_iff {ε α β : Type} {outcome : Except ε α} {step : α → Except ε β}
    {P : β → Prop} :
    (∃ b, (outcome >>= step) = .ok b ∧ P b) ↔
      ∃ a, outcome = .ok a ∧ ∃ b, step a = .ok b ∧ P b := by
  simp only [except_bind_eq_ok_iff]
  exact ⟨fun ⟨b, ⟨a, ha, hb⟩, h⟩ => ⟨a, ha, b, hb, h⟩,
    fun ⟨a, ha, b, hb, h⟩ => ⟨b, ⟨a, ha, hb⟩, h⟩⟩

theorem exists_bind_eq_ok_iff {ε α β : Type} {outcome : Except ε α} {step : α → Except ε β} :
    (∃ b, (outcome >>= step) = .ok b) ↔ ∃ a, outcome = .ok a ∧ ∃ b, step a = .ok b := by
  simpa using @exists_bind_and_iff _ _ _ outcome step (fun _ => True)

namespace Cursor

/-- The bytes that lie between two places of one byte string. -/
def Passes (cursor : Cursor) (bytes : Bytes) (next : Cursor) : Prop :=
  cursor.rest = bytes ++ next.rest ∧ next.offset = cursor.offset + bytes.length

variable {cursor next next' : Cursor} {bytes front back : Bytes}

theorem passes_nil_iff : cursor.Passes [] next ↔ next = cursor := by
  obtain ⟨offset, rest⟩ := cursor
  obtain ⟨offset', rest'⟩ := next
  simp only [Passes, List.nil_append, List.length_nil, Nat.add_zero, Cursor.mk.injEq]
  exact ⟨fun ⟨hrest, hoffset⟩ => ⟨hoffset, hrest.symm⟩,
    fun ⟨hoffset, hrest⟩ => ⟨hrest.symm, hoffset⟩⟩

theorem passes_append_iff :
    cursor.Passes (front ++ back) next ↔
      ∃ middle, cursor.Passes front middle ∧ middle.Passes back next := by
  constructor
  · rintro ⟨hrest, hoffset⟩
    refine ⟨⟨cursor.offset + front.length, back ++ next.rest⟩, ⟨?_, rfl⟩, rfl, ?_⟩
    · rw [hrest, List.append_assoc]
    · rw [hoffset, List.length_append, Nat.add_assoc]
  · rintro ⟨middle, ⟨hrest, hoffset⟩, hrest', hoffset'⟩
    refine ⟨?_, ?_⟩
    · rw [hrest, hrest', List.append_assoc]
    · rw [hoffset', hoffset, List.length_append, Nat.add_assoc]

theorem passes_cons_iff {byte : UInt8} :
    cursor.Passes (byte :: back) next ↔
      ∃ middle, cursor.Passes [byte] middle ∧ middle.Passes back next :=
  @passes_append_iff _ _ [byte] _

theorem start_passes_iff : (start bytes).Passes front next ↔
    bytes = front ++ next.rest ∧ next.offset = front.length := by
  simp [start, Passes]

end Cursor

namespace Reader

variable {α β : Type}

/-- The reader accepts exactly what is written for the values that fit. -/
def Reads (read : Reader α) (write : α → Bytes) (Fits : α → Prop) : Prop :=
  ∀ cursor a next, read cursor = .ok (a, next) ↔ Fits a ∧ cursor.Passes (write a) next

/-! ## Steps -/

theorem bind_eq_ok_iff {read : Reader α} {step : α → Reader β} {cursor last : Cursor} {b : β} :
    (read >>= step) cursor = .ok (b, last) ↔
      ∃ a next, read cursor = .ok (a, next) ∧ step a next = .ok (b, last) := by
  change (read cursor >>= fun found => step found.1 found.2) = _ ↔ _
  rw [except_bind_eq_ok_iff, Prod.exists]

theorem pure_eq_ok_iff {a b : α} {cursor next : Cursor} :
    (pure a : Reader α) cursor = .ok (b, next) ↔ b = a ∧ next = cursor := by
  change Except.ok (a, cursor) = _ ↔ _
  simp [eq_comm]

theorem map_eq_ok_iff {read : Reader α} {f : α → β} {cursor next : Cursor} {b : β} :
    (f <$> read) cursor = .ok (b, next) ↔ ∃ a, f a = b ∧ read cursor = .ok (a, next) := by
  change (read cursor >>= fun found => pure (f found.1, found.2)) = _ ↔ _
  rw [except_bind_eq_ok_iff, Prod.exists]
  constructor
  · rintro ⟨a, _, hread, hpure⟩
    cases hpure
    exact ⟨a, rfl, hread⟩
  · rintro ⟨a, rfl, hread⟩
    exact ⟨a, next, hread, rfl⟩

/-! ## Fields -/

theorem take_eq_ok_iff {count : Nat} {part : String} {cursor next : Cursor} {chunk : Bytes} :
    take count part cursor = .ok (chunk, next) ↔
      chunk.length = count ∧ cursor.Passes chunk next := by
  obtain ⟨offset, rest⟩ := cursor
  obtain ⟨offset', rest'⟩ := next
  simp only [take, Cursor.Passes, List.length_take]
  by_cases hlt : min count rest.length < count
  · simp only [if_pos hlt, reduceCtorEq, false_iff, not_and]
    rintro hlen rfl
    simp only [List.length_append] at hlt
    omega
  · have hle : count ≤ rest.length := by omega
    simp only [if_neg hlt, Except.ok.injEq, Prod.mk.injEq, Cursor.mk.injEq]
    constructor
    · rintro ⟨rfl, rfl, rfl⟩
      simp [hle]
    · rintro ⟨rfl, rfl, rfl⟩
      simp

theorem number_eq_ok_iff {width : Nat} {part : String} {ofNat : Nat → α} {write : α → Bytes}
    (hlength : ∀ n, (write n).length = width)
    (hwrite : ∀ bytes, bytes.length = width → write (ofNat (Bytes.value bytes)) = bytes)
    (hread : ∀ n, ofNat (Bytes.value (write n)) = n) (cursor : Cursor) (n : α) (next : Cursor) :
    ((fun bytes => ofNat (Bytes.value bytes)) <$> take width part) cursor = .ok (n, next) ↔
      cursor.Passes (write n) next := by
  rw [map_eq_ok_iff]
  simp only [take_eq_ok_iff]
  constructor
  · rintro ⟨bytes, rfl, hbytes, hpass⟩
    rwa [hwrite bytes hbytes]
  · exact fun hpass => ⟨write n, hread n, hlength n, hpass⟩

theorem uint8_eq_ok_iff {part : String} {cursor next : Cursor} {n : UInt8} :
    uint8 part cursor = .ok (n, next) ↔ cursor.Passes [n] next := by
  refine @number_eq_ok_iff _ 1 part UInt8.ofNat (fun n => [n]) (fun _ => rfl) ?_ ?_ cursor n next
  · intro bytes hbytes
    obtain ⟨byte, rfl⟩ := List.length_eq_one_iff.mp hbytes
    simp [Bytes.value, Bytes.littleEndianValue]
  · intro n
    simp [Bytes.value, Bytes.littleEndianValue]

theorem uint16_eq_ok_iff {part : String} {cursor next : Cursor} {n : UInt16} :
    uint16 part cursor = .ok (n, next) ↔ cursor.Passes (Bytes.ofUInt16 n) next := by
  refine number_eq_ok_iff Bytes.length_ofUInt16 ?_ (by simp) cursor n next
  intro bytes hbytes
  have hlt := Bytes.value_lt bytes
  have hwrite := Bytes.bigEndian_value bytes
  rw [hbytes] at hlt hwrite
  rw [Bytes.ofUInt16, UInt16.toNat_ofNat_of_lt' hlt, hwrite]

theorem uint32_eq_ok_iff {part : String} {cursor next : Cursor} {n : UInt32} :
    uint32 part cursor = .ok (n, next) ↔ cursor.Passes (Bytes.ofUInt32 n) next := by
  refine number_eq_ok_iff Bytes.length_ofUInt32 ?_ (by simp) cursor n next
  intro bytes hbytes
  have hlt := Bytes.value_lt bytes
  have hwrite := Bytes.bigEndian_value bytes
  rw [hbytes] at hlt hwrite
  rw [Bytes.ofUInt32, UInt32.toNat_ofNat_of_lt' hlt, hwrite]

theorem uint64_eq_ok_iff {part : String} {cursor next : Cursor} {n : UInt64} :
    uint64 part cursor = .ok (n, next) ↔ cursor.Passes (Bytes.ofUInt64 n) next := by
  refine number_eq_ok_iff Bytes.length_ofUInt64 ?_ (by simp) cursor n next
  intro bytes hbytes
  have hlt := Bytes.value_lt bytes
  have hwrite := Bytes.bigEndian_value bytes
  rw [hbytes] at hlt hwrite
  rw [Bytes.ofUInt64, UInt64.toNat_ofNat_of_lt' hlt, hwrite]

/-- A number before its data: a count that fits is read back as it is. -/
theorem ofUInt16_eq_bigEndian_iff {count : UInt16} {n : Nat} (hn : n < 65536) :
    n = count.toNat ↔ Bytes.ofUInt16 count = Bytes.bigEndian 2 n := by
  constructor
  · rintro rfl
    rfl
  · intro h
    have hvalue := congrArg Bytes.value h
    rw [Bytes.value_ofUInt16, Bytes.value_bigEndian] at hvalue
    omega

/-! ## Rows of items -/

section Many

variable {read : Reader α} {write : α → Bytes} {Fits : α → Prop}

theorem manyFrom_eq_ok_iff (h : Reads read write Fits) {count : Nat} {done items : List α}
    {cursor next : Cursor} :
    manyFrom read count done cursor = .ok (items, next) ↔
      ∃ more, items = done.reverse ++ more ∧ more.length = count ∧ (∀ a ∈ more, Fits a) ∧
        cursor.Passes (more.flatMap write) next := by
  induction count generalizing done cursor with
  | zero =>
    simp only [manyFrom, Except.ok.injEq, Prod.mk.injEq, List.length_eq_zero_iff]
    constructor
    · rintro ⟨rfl, rfl⟩
      exact ⟨[], by simp, rfl, by simp, Cursor.passes_nil_iff.mpr rfl⟩
    · rintro ⟨_, rfl, rfl, _, hpass⟩
      exact ⟨by simp, (Cursor.passes_nil_iff.mp hpass).symm⟩
  | succ count ih =>
    simp only [manyFrom]
    constructor
    · intro hread
      split at hread
      · cases hread
      · rename_i item middle hitem
        obtain ⟨hfits, hpass⟩ := (h _ _ _).mp hitem
        obtain ⟨more, rfl, hlength, hmore, hpasses⟩ := ih.mp hread
        refine ⟨item :: more, by simp, by simp [hlength], ?_, ?_⟩
        · exact List.forall_mem_cons.mpr ⟨hfits, hmore⟩
        · exact Cursor.passes_append_iff.mpr ⟨middle, hpass, hpasses⟩
    · rintro ⟨more, rfl, hlength, hmore, hpasses⟩
      obtain ⟨item, more, rfl⟩ := List.exists_cons_of_length_eq_add_one hlength
      obtain ⟨hfits, hmore⟩ := List.forall_mem_cons.mp hmore
      obtain ⟨middle, hpass, hpasses⟩ := Cursor.passes_append_iff.mp hpasses
      rw [(h _ _ _).mpr ⟨hfits, hpass⟩]
      exact ih.mpr ⟨more, by simp, Nat.succ.inj hlength, hmore, hpasses⟩

theorem many_eq_ok_iff (h : Reads read write Fits) {count : Nat} {items : List α}
    {cursor next : Cursor} :
    many count read cursor = .ok (items, next) ↔
      items.length = count ∧ (∀ a ∈ items, Fits a) ∧
        cursor.Passes (items.flatMap write) next := by
  rw [many, manyFrom_eq_ok_iff h]
  simp

/-- A counted row is written as its length and its items. -/
theorem reads_counted (h : Reads read write Fits) (part : String) :
    Reads (counted part read)
      (fun items => Bytes.bigEndian 2 items.length ++ items.flatMap write)
      (fun items => items.length < 65536 ∧ ∀ a ∈ items, Fits a) := by
  intro cursor items next
  simp only [counted, bind_eq_ok_iff, uint16_eq_ok_iff, many_eq_ok_iff h]
  constructor
  · rintro ⟨count, middle, hcount, hlength, hfits, hpass⟩
    have hlt : items.length < 65536 := hlength ▸ count.toNat_lt
    rw [(ofUInt16_eq_bigEndian_iff hlt).mp hlength] at hcount
    exact ⟨⟨hlt, hfits⟩, Cursor.passes_append_iff.mpr ⟨middle, hcount, hpass⟩⟩
  · rintro ⟨⟨hlt, hfits⟩, hpasses⟩
    obtain ⟨middle, hcount, hpass⟩ := Cursor.passes_append_iff.mp hpasses
    have hlength : items.length = (UInt16.ofNat items.length).toNat :=
      (UInt16.toNat_ofNat_of_lt' hlt).symm
    rw [← (ofUInt16_eq_bigEndian_iff hlt).mp hlength] at hcount
    exact ⟨_, middle, hcount, hlength, hfits, hpass⟩

end Many

end Reader

end JarText
