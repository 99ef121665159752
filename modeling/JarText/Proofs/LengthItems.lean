import JarText.Proofs.BlockPieces

/-!
# Items of lengths

A run of one length becomes items, each of which adds a length to those before it (`Gives`); the
items of a row lead to the row (`LengthItem.givesAll_ofLengths`). Written in a code that has a word
for each of their symbols, they read as the row (`exists_bits_of_items`).
-/

set_option autoImplicit false

namespace JarText.Zip

open PrefixCode (Spells)

/-! ## What items give -/

/-- Read after some lengths, the last of them first, an item adds a length so many times. -/
inductive Gives (done : List Nat) : LengthItem → (length times : Nat) → Prop where
  | once {length : Nat} (h : length < 16) : Gives done { symbol := length } length 1
  | again {last extra : Nat} (hlast : done.head? = some last) (h : extra < 2 ^ 2) :
      Gives done { symbol := 16, width := 2, extra } last (extra + 3)
  | fewZeros {extra : Nat} (h : extra < 2 ^ 3) :
      Gives done { symbol := 17, width := 3, extra } 0 (extra + 3)
  | manyZeros {extra : Nat} (h : extra < 2 ^ 7) :
      Gives done { symbol := 18, width := 7, extra } 0 (extra + 11)

/-- Items in a row lead from some lengths to others, the last of them first. -/
inductive GivesAll : (done : List Nat) → List LengthItem → (after : List Nat) → Prop where
  | nil {done : List Nat} : GivesAll done [] done
  | cons {done after : List Nat} {item : LengthItem} {items : List LengthItem} {length times : Nat}
      (h : Gives done item length times)
      (hrest : GivesAll (List.replicate times length ++ done) items after) :
      GivesAll done (item :: items) after

section Gives

variable {done after : List Nat} {item : LengthItem} {items : List LengthItem} {length times : Nat}

theorem Gives.times_pos (h : Gives done item length times) : 0 < times := by
  cases h <;> exact Nat.succ_pos _

theorem Gives.symbol_lt (h : Gives done item length times) : item.symbol < 19 := by
  cases h with
  | once h => exact Nat.lt_trans h (by decide)
  | again | fewZeros | manyZeros => simp

theorem GivesAll.append {mid : List Nat} {more : List LengthItem} (h : GivesAll done items mid)
    (hmore : GivesAll mid more after) : GivesAll done (items ++ more) after := by
  induction h with
  | nil => exact hmore
  | cons h _ ih => exact .cons h (ih hmore)

/-- Each item adds a length at least. -/
theorem GivesAll.length_add_le (h : GivesAll done items after) :
    items.length + done.length ≤ after.length := by
  induction h with
  | nil => rw [List.length_nil, Nat.zero_add]
  | cons h _ ih =>
    have hpos := h.times_pos
    rw [List.length_append, List.length_replicate] at ih
    rw [List.length_cons]
    omega

theorem GivesAll.symbol_lt (h : GivesAll done items after) : ∀ item ∈ items, item.symbol < 19 := by
  induction h with
  | nil => exact List.forall_mem_nil _
  | cons h _ ih => exact List.forall_mem_cons.mpr ⟨h.symbol_lt, ih⟩

theorem givesAll_replicate (done : List Nat) (length times : Nat)
    (h : ∀ count, Gives (List.replicate count length ++ done) item length times) (count : Nat) :
    GivesAll done (List.replicate count item) (List.replicate (count * times) length ++ done) := by
  induction count generalizing done with
  | zero =>
    rw [Nat.zero_mul]
    exact .nil
  | succ count ih =>
    have hrest := ih (List.replicate times length ++ done) (by
      intro more
      rw [← List.append_assoc, List.replicate_append_replicate]
      exact h (more + times))
    rw [← List.append_assoc, List.replicate_append_replicate, ← Nat.succ_mul] at hrest
    exact .cons (h 0) hrest

/-- The zeros in groups of the most that one item gives, and what is left of them. -/
theorem givesAll_zeros (done : List Nat) (count : Nat) :
    GivesAll done (LengthItem.zeros count) (List.replicate count 0 ++ done) := by
  have hmost : GivesAll done (List.replicate (count / 138) { symbol := 18, width := 7, extra := 127 })
      (List.replicate (count / 138 * 138) 0 ++ done) :=
    givesAll_replicate done 0 138 (fun _ => .manyZeros (by decide)) _
  have hcount : count % 138 + count / 138 * 138 = count := by
    rw [Nat.mul_comm]
    exact Nat.mod_add_div count 138
  have hrest : GivesAll (List.replicate (count / 138 * 138) 0 ++ done)
      (if count % 138 < 3 then List.replicate (count % 138) { symbol := 0 }
        else if count % 138 ≤ 10 then [{ symbol := 17, width := 3, extra := count % 138 - 3 }]
        else [{ symbol := 18, width := 7, extra := count % 138 - 11 }])
      (List.replicate (count % 138) 0 ++ (List.replicate (count / 138 * 138) 0 ++ done)) := by
    have hlt := Nat.mod_lt count (by decide : 0 < 138)
    split
    · have hfew := givesAll_replicate (List.replicate (count / 138 * 138) 0 ++ done) 0 1
        (fun _ => .once (by decide)) (count % 138)
      rwa [Nat.mul_one] at hfew
    split
    · have hitem : Gives (List.replicate (count / 138 * 138) 0 ++ done)
          { symbol := 17, width := 3, extra := count % 138 - 3 } 0 (count % 138 - 3 + 3) :=
        .fewZeros (by omega)
      rw [Nat.sub_add_cancel (by omega)] at hitem
      exact .cons hitem .nil
    · have hitem : Gives (List.replicate (count / 138 * 138) 0 ++ done)
          { symbol := 18, width := 7, extra := count % 138 - 11 } 0 (count % 138 - 11 + 11) :=
        .manyZeros (by omega)
      rw [Nat.sub_add_cancel (by omega)] at hitem
      exact .cons hitem .nil
  rw [← List.append_assoc, List.replicate_append_replicate, hcount] at hrest
  exact hmost.append hrest

theorem givesAll_again (hlength : length < 16) (hlast : done.head? = some length) (count : Nat) :
    GivesAll done (LengthItem.again length count) (List.replicate count length ++ done) := by
  have hhead (more : Nat) : (List.replicate more length ++ done).head? = some length := by
    cases more with
    | zero => exact hlast
    | succ more => rfl
  have hmost : GivesAll done (List.replicate (count / 6) { symbol := 16, width := 2, extra := 3 })
      (List.replicate (count / 6 * 6) length ++ done) :=
    givesAll_replicate done length 6 (fun more => .again (hhead more) (by decide)) _
  have hcount : count % 6 + count / 6 * 6 = count := by
    rw [Nat.mul_comm]
    exact Nat.mod_add_div count 6
  have hrest : GivesAll (List.replicate (count / 6 * 6) length ++ done)
      (if count % 6 < 3 then List.replicate (count % 6) { symbol := length }
        else [{ symbol := 16, width := 2, extra := count % 6 - 3 }])
      (List.replicate (count % 6) length ++ (List.replicate (count / 6 * 6) length ++ done)) := by
    split
    · have hfew := givesAll_replicate (List.replicate (count / 6 * 6) length ++ done) length 1
        (fun _ => .once hlength) (count % 6)
      rwa [Nat.mul_one] at hfew
    · have hlt := Nat.mod_lt count (by decide : 0 < 6)
      have hitem : Gives (List.replicate (count / 6 * 6) length ++ done)
          { symbol := 16, width := 2, extra := count % 6 - 3 } length (count % 6 - 3 + 3) :=
        .again (hhead _) (by omega)
      rw [Nat.sub_add_cancel (by omega)] at hitem
      exact .cons hitem .nil
  rw [← List.append_assoc, List.replicate_append_replicate, hcount] at hrest
  exact hmost.append hrest

theorem givesAll_ofRun (hlength : length < 16) (done : List Nat) (count : Nat) :
    GivesAll done (LengthItem.ofRun (List.replicate count length))
      (List.replicate count length ++ done) := by
  cases count with
  | zero => exact .nil
  | succ count =>
    rw [List.replicate_succ]
    cases length with
    | zero =>
      rw [LengthItem.ofRun, List.length_replicate]
      exact givesAll_zeros done (count + 1)
    | succ length =>
      rw [LengthItem.ofRun, List.length_replicate]
      · refine .cons (.once hlength) ?_
        have hlast : ((length + 1) :: done).head? = some (length + 1) := rfl
        have hrest := givesAll_again hlength hlast count
        rwa [← List.singleton_append (l := done), ← List.append_assoc, ← List.replicate_succ']
          at hrest
      · exact Nat.succ_ne_zero length

end Gives

theorem exists_replicate_of_mem_splitBy {run lengths : List Nat}
    (h : run ∈ lengths.splitBy (· == ·)) :
    ∃ count length, run = List.replicate count length ∧ length ∈ lengths := by
  have hchain := List.isChain_of_mem_splitBy h
  have hsub : ∀ length ∈ run, length ∈ lengths := by
    intro length hlength
    rw [← List.flatten_splitBy (r := (· == ·)) (l := lengths)]
    exact List.mem_flatten.mpr ⟨run, h, hlength⟩
  cases run with
  | nil => exact absurd h (List.nil_notMem_splitBy _ _)
  | cons first run =>
    refine ⟨run.length + 1, first, ?_, hsub first List.mem_cons_self⟩
    have hall : ∀ length ∈ run, length = first := by
      have hequal : (first :: run).IsChain (· = ·) := hchain.imp fun _ _ h => eq_of_beq h
      rw [List.isChain_iff_pairwise] at hequal
      intro length hlength
      exact (List.rel_of_pairwise_cons hequal hlength).symm
    rw [List.replicate_succ, ← List.eq_replicate_of_mem hall]

/-- The items of lengths read as these lengths. -/
theorem LengthItem.givesAll_ofLengths {lengths : List Nat} (h : ∀ length ∈ lengths, length < 16) :
    GivesAll [] (ofLengths lengths) lengths.reverse := by
  have hruns (runs : List (List Nat)) (hrun : ∀ run ∈ runs, ∃ count length,
      run = List.replicate count length ∧ length < 16) (done : List Nat) :
      GivesAll done (runs.flatMap ofRun) (runs.flatten.reverse ++ done) := by
    induction runs generalizing done with
    | nil => exact .nil
    | cons run runs ih =>
      obtain ⟨⟨count, length, rfl, hlength⟩, hrest⟩ := List.forall_mem_cons.mp hrun
      have hmore := ih hrest (List.replicate count length ++ done)
      rw [List.flatMap_cons, List.flatten_cons, List.reverse_append, List.reverse_replicate,
        List.append_assoc]
      exact (givesAll_ofRun hlength done count).append hmore
  have hall := hruns (lengths.splitBy (· == ·)) (by
    intro run hrun
    obtain ⟨count, length, hrun, hlength⟩ := exists_replicate_of_mem_splitBy hrun
    exact ⟨count, length, hrun, h length hlength⟩) []
  rwa [List.flatten_splitBy, List.append_nil] at hall

/-! ## Writing and reading -/

section Items

variable {done after : List Nat} {item : LengthItem} {items : List LengthItem} {length times : Nat}
  {words : Array Word} {code : PrefixCode}

/-- An item is written as bits that read as a length and as how often it is added. -/
def ReadsItem (words : Array Word) (code : PrefixCode) (done : List Nat) (item : LengthItem)
    (length times : Nat) : Prop :=
  ∃ bits, (∀ sink front, BitSink.Holds sink front →
      (BitSink.putItem words sink item).Holds (front ++ bits)) ∧
    ∀ source rest, BitSource.At source (bits ++ rest) → ∃ source₁ source₂,
      code.read source = .ok (item.symbol, source₁) ∧
      BlockCodes.repeated item.symbol done source₁ = .ok (length, times, source₂) ∧
      source₂.At rest

theorem readsItem_once (hlength : length < 16)
    (hspells : ∃ bits, Spells words code length bits) :
    ReadsItem words code done { symbol := length } length 1 := by
  obtain ⟨bits, hbits⟩ := hspells
  refine ⟨bits, fun sink front hsink => holds_putSymbol hbits hsink, ?_⟩
  intro source rest hsource
  obtain ⟨source', hread, h'⟩ := hbits.reads source _ hsource
  refine ⟨source', source', hread, ?_, h'⟩
  change BlockCodes.repeated length done source' = _
  unfold BlockCodes.repeated
  split
  · omega
  · omega
  · omega
  · rfl

/-- A symbol that is followed by a number adds a length as often as the number and `least` say. -/
theorem readsItem_counted {symbol width extra least : Nat} (hextra : extra < 2 ^ width)
    (hwidth : width ≠ 0) (hspells : ∃ bits, Spells words code symbol bits)
    (hrepeated : ∀ source, BlockCodes.repeated symbol done source =
      takeBits width source >>= fun taken => .ok (length, taken.1 + least, taken.2)) :
    ReadsItem words code done { symbol, width, extra } length (extra + least) := by
  obtain ⟨first, hfirst⟩ := hspells
  refine ⟨first ++ bitsOf width extra, ?_, ?_⟩
  · intro sink front hsink
    rw [BitSink.putItem]
    dsimp only
    rw [if_neg hwidth, ← List.append_assoc]
    exact (holds_putSymbol hfirst hsink).putBits hextra
  · intro source rest hsource
    rw [List.append_assoc] at hsource
    obtain ⟨source₁, hread, h₁⟩ := hfirst.reads source _ hsource
    obtain ⟨source₂, htake, h₂⟩ := readsBits_takeBits hextra source₁ rest h₁
    refine ⟨source₁, source₂, hread, ?_, h₂⟩
    rw [hrepeated, htake]
    rfl

theorem Gives.readsItem (h : Gives done item length times)
    (hspells : ∃ bits, Spells words code item.symbol bits) :
    ReadsItem words code done item length times := by
  cases h with
  | once hlength => exact readsItem_once hlength hspells
  | again hlast hextra =>
    refine readsItem_counted hextra (by decide) hspells fun source => ?_
    cases done with
    | nil => cases hlast
    | cons last done =>
      obtain rfl := Option.some.inj hlast
      rfl
  | fewZeros hextra =>
    exact readsItem_counted hextra (by decide) hspells fun source => rfl
  | manyZeros hextra =>
    exact readsItem_counted hextra (by decide) hspells fun source => rfl

/-- Items are written as bits that read as the lengths to which they lead. -/
theorem exists_bits_of_items (h : GivesAll done items after)
    (hspells : ∀ item ∈ items, ∃ bits, Spells words code item.symbol bits) :
    ∃ bits, (∀ sink front, BitSink.Holds sink front →
        (items.foldl (BitSink.putItem words) sink).Holds (front ++ bits)) ∧
      ∀ fuel, items.length ≤ fuel →
        ReadsBits (BlockCodes.codeLengths code after.length fuel done) bits after.reverse := by
  induction h with
  | nil =>
    refine ⟨[], fun sink front hsink => by rwa [List.append_nil], ?_⟩
    intro fuel _ source rest hsource
    refine ⟨source, ?_, hsource⟩
    cases fuel with
    | zero => rw [BlockCodes.codeLengths]
    | succ fuel => rw [BlockCodes.codeLengths, if_pos rfl]
  | cons h hrest ih =>
    rename_i done after item items length times
    obtain ⟨hitem, hitems⟩ := List.forall_mem_cons.mp hspells
    obtain ⟨first, hputItem, hreadItem⟩ := h.readsItem hitem
    obtain ⟨bits, hput, hread⟩ := ih hitems
    have hpos := h.times_pos
    have hle := hrest.length_add_le
    rw [List.length_append, List.length_replicate] at hle
    refine ⟨first ++ bits, ?_, ?_⟩
    · intro sink front hsink
      rw [← List.append_assoc]
      exact hput _ _ (hputItem sink front hsink)
    · intro fuel hfuel source rest hsource
      obtain ⟨fuel, rfl⟩ := Nat.exists_eq_add_one.mpr (Nat.zero_lt_of_lt hfuel)
      rw [List.append_assoc] at hsource
      obtain ⟨source₁, source₂, hsymbol, hrepeated, h₂⟩ := hreadItem source _ hsource
      obtain ⟨source₃, hloop, h₃⟩ := hread fuel (Nat.le_of_succ_le_succ hfuel) source₂ rest h₂
      refine ⟨source₃, ?_, h₃⟩
      rw [BlockCodes.codeLengths, if_neg (by omega)]
      simp only [bind, Except.bind, hsymbol, hrepeated]
      rw [if_neg (by rw [List.length_append, List.length_replicate]; omega)]
      exact hloop

/-- A length that is added and is not zero is the symbol of an item. -/
theorem GivesAll.exists_symbol_eq (h : GivesAll done items after) (hmem : length ∈ after)
    (hdone : length ∉ done) (hne : length ≠ 0) : ∃ item ∈ items, item.symbol = length := by
  induction h with
  | nil => exact absurd hmem hdone
  | cons h hrest ih =>
    rename_i added times
    by_cases hadded : length = added
    · subst hadded
      cases h with
      | once _ => exact ⟨_, List.mem_cons_self, rfl⟩
      | again hlast _ => exact absurd (List.mem_of_mem_head? hlast) hdone
      | fewZeros _ => exact absurd rfl hne
      | manyZeros _ => exact absurd rfl hne
    · obtain ⟨item, hitem, hsymbol⟩ := ih hmem (by
        rw [List.mem_append, not_or]
        exact ⟨fun h => hadded (List.eq_of_mem_replicate h), hdone⟩)
      exact ⟨item, List.mem_cons_of_mem _ hitem, hsymbol⟩

/-- Items with the same length for a symbol add nothing else. -/
theorem GivesAll.eq_replicate (h : GivesAll done items after) (hlength : length < 16)
    (hall : ∀ item ∈ items, item.symbol = length) :
    ∃ count, after = List.replicate count length ++ done := by
  induction h with
  | nil => exact ⟨0, rfl⟩
  | cons h _ ih =>
    obtain ⟨hitem, hitems⟩ := List.forall_mem_cons.mp hall
    obtain ⟨count, hafter⟩ := ih hitems
    cases h with
    | once _ =>
      obtain rfl : _ = length := hitem
      exact ⟨count + 1, by rw [hafter, ← List.append_assoc, List.replicate_append_replicate]⟩
    | again _ _ | fewZeros _ | manyZeros _ =>
      dsimp only at hitem
      omega

end Items

end JarText.Zip
