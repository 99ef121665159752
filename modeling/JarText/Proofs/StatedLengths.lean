import JarText.Proofs.ChosenLengths
import JarText.Proofs.LengthItems

/-!
# Lengths that a block states

The lengths of a block's codes are stated without the zeros at their end, which do not change the
codes. Their items have two symbols at least, since words of a single length would leave room; so
the code that the items are written in is complete (`exists_code_for_lengths`), and what a block
states reads as its codes (`exists_bits_of_lengths`). In the codes that are made for a row of pieces
every symbol of the pieces has a word (`BlockLengths.exists_codes_ofPieces`).
-/

set_option autoImplicit false

namespace JarText.Zip

open PrefixCode (Spells roomOf share)

/-! ## Zeros at the end -/

theorem exists_trimmed (least : Nat) (lengths : List Nat) :
    ∃ count, lengths = BlockLengths.trimmed least lengths ++ List.replicate count 0 := by
  have hzeros : ∀ length ∈ (lengths.drop least).reverse.takeWhile (· = 0), length = 0 := by
    intro length hlength
    simpa using List.mem_takeWhile_imp hlength
  refine ⟨((lengths.drop least).reverse.takeWhile (· = 0)).length, ?_⟩
  rw [BlockLengths.trimmed, ← List.eq_replicate_of_mem hzeros, List.append_assoc]
  have hreplicate := List.eq_replicate_of_mem hzeros
  have hsplit := congrArg List.reverse
    (List.takeWhile_append_dropWhile (p := (· = 0)) (l := (lengths.drop least).reverse))
  rw [List.reverse_append, List.reverse_reverse, hreplicate, List.reverse_replicate] at hsplit
  rw [hreplicate, hsplit, List.take_append_drop]

theorem length_trimmed_le (least : Nat) (lengths : List Nat) :
    (BlockLengths.trimmed least lengths).length ≤ lengths.length := by
  obtain ⟨count, hcount⟩ := exists_trimmed least lengths
  have hlength := congrArg List.length hcount
  rw [List.length_append] at hlength
  omega

theorem mem_of_mem_trimmed {least length : Nat} {lengths : List Nat}
    (h : length ∈ BlockLengths.trimmed least lengths) : length ∈ lengths := by
  obtain ⟨count, hcount⟩ := exists_trimmed least lengths
  rw [hcount]
  exact List.mem_append_left _ h

theorem le_length_trimmed {least : Nat} {lengths : List Nat} (h : least ≤ lengths.length) :
    least ≤ (BlockLengths.trimmed least lengths).length := by
  rw [BlockLengths.trimmed, List.length_append, List.length_take]
  omega

namespace PrefixCode

variable (lengths : List Nat) (count : Nat)

theorem statedWords_append_zeros :
    statedWords (lengths ++ List.replicate count 0) = statedWords lengths := by
  have hnone : ((List.replicate count 0).zipIdx lengths.length).filter (·.1 ≠ 0) = [] := by
    rw [List.filter_eq_nil_iff]
    intro word hword
    have hzero := List.eq_of_mem_replicate (List.fst_mem_of_mem_zipIdx hword)
    simpa using hzero
  rw [statedWords, List.zipIdx_append, List.filter_append, Nat.zero_add, hnone, List.append_nil,
    statedWords]

theorem ofLengths?_append_zeros :
    ofLengths? (lengths ++ List.replicate count 0) = ofLengths? lengths := by
  have hwords := statedWords_append_zeros lengths count
  rw [statedWords, statedWords] at hwords
  rw [ofLengths?, hwords, ofLengths?]

theorem filter_append_zeros :
    (lengths ++ List.replicate count 0).filter (· ≠ 0) = lengths.filter (· ≠ 0) := by
  rw [List.filter_append, List.filter_replicate_of_neg (by simp), List.append_nil]

end PrefixCode

theorem ofLengths_trimmed (least : Nat) (lengths : List Nat) :
    BlockCodes.ofLengths (BlockLengths.trimmed least lengths) = BlockCodes.ofLengths lengths := by
  obtain ⟨count, hcount⟩ := exists_trimmed least lengths
  have hcode := PrefixCode.ofLengths?_append_zeros (BlockLengths.trimmed least lengths) count
  have hused := PrefixCode.filter_append_zeros (BlockLengths.trimmed least lengths) count
  rw [← hcount] at hcode hused
  rw [BlockCodes.ofLengths, BlockCodes.ofLengths, hcode, hused]

theorem roomOf_trimmed (least : Nat) (lengths : List Nat) :
    roomOf (BlockLengths.trimmed least lengths) = roomOf lengths := by
  obtain ⟨count, hcount⟩ := exists_trimmed least lengths
  have hroom := congrArg roomOf hcount
  rw [PrefixCode.roomOf_append, PrefixCode.roomOf_replicate] at hroom
  exact hroom.symm

/-! ## The lengths of the code for lengths -/

theorem readsBits_takeLengths {lengths : List Nat} (h : ∀ length ∈ lengths, length < 8)
    (done : List Nat) : ReadsBits (BlockCodes.takeLengths lengths.length done)
      (lengths.flatMap (bitsOf 3)) (done.reverse ++ lengths) := by
  induction lengths generalizing done with
  | nil =>
    rw [List.append_nil]
    exact readsBits_pure done.reverse
  | cons length lengths ih =>
    obtain ⟨hlength, hlengths⟩ := List.forall_mem_cons.mp h
    have hrest := ih hlengths (length :: done)
    rw [List.reverse_cons, List.append_assoc] at hrest
    let next (length : Nat) : BitSource → Except ZipFault (List Nat × BitSource) :=
      BlockCodes.takeLengths lengths.length (length :: done)
    have hnext : ReadsBits (next length) (lengths.flatMap (bitsOf 3))
      (done.reverse ++ length :: lengths) := hrest
    exact (readsBits_takeBits hlength).bind hnext

theorem holds_foldl_putBits {lengths : List Nat} (h : ∀ length ∈ lengths, length < 8)
    {sink : BitSink} {bits : List Bool} (hsink : sink.Holds bits) :
    (lengths.foldl (fun sink length => sink.putBits 3 length) sink).Holds
      (bits ++ lengths.flatMap (bitsOf 3)) := by
  induction lengths generalizing sink bits with
  | nil => rwa [List.flatMap_nil, List.append_nil]
  | cons length lengths ih =>
    obtain ⟨hlength, hlengths⟩ := List.forall_mem_cons.mp h
    have hfirst : (sink.putBits 3 length).Holds (bits ++ bitsOf 3 length) := hsink.putBits hlength
    have hheld := ih hlengths hfirst
    rwa [List.append_assoc, ← List.flatMap_cons] at hheld

/-- In whatever order values are stated, those that are left out at the end being zero. -/
theorem lookup_zip_of_stated {order stated : List Nat} {value : Nat → Nat} {count symbol : Nat}
    (h : order.map value = stated ++ List.replicate count 0) (hmem : symbol ∈ order) :
    ((order.zip stated).lookup symbol).getD 0 = value symbol := by
  induction order generalizing stated with
  | nil => cases hmem
  | cons first order ih =>
    cases stated with
    | nil =>
      have hzero := List.eq_of_mem_replicate
        (h ▸ List.mem_map_of_mem (f := value) hmem : value symbol ∈ [] ++ List.replicate count 0)
      rw [hzero]
      rfl
    | cons length stated =>
      obtain ⟨rfl, hrest⟩ := List.cons.inj h
      rw [List.zip_cons_cons, List.lookup_cons]
      by_cases hfirst : symbol = first
      · rw [hfirst, beq_self_eq_true]
        rfl
      · rw [beq_eq_false_iff_ne.mpr hfirst]
        exact ih hrest ((List.mem_cons.mp hmem).resolve_left hfirst)

theorem inSymbolOrder_stated {lengths : List Nat} (h : lengths.length = 19) :
    BlockCodes.inSymbolOrder (BlockLengths.trimmed 4
      (BlockCodes.lengthOrder.map fun symbol => lengths[symbol]?.getD 0)) = lengths := by
  obtain ⟨count, hcount⟩ := exists_trimmed 4
    (BlockCodes.lengthOrder.map fun symbol => lengths[symbol]?.getD 0)
  have horder : ∀ symbol ∈ List.range 19, symbol ∈ BlockCodes.lengthOrder := by decide
  calc BlockCodes.inSymbolOrder _
      = (List.range 19).map fun symbol => lengths[symbol]?.getD 0 :=
        List.map_congr_left fun symbol hsymbol => lookup_zip_of_stated hcount (horder symbol hsymbol)
    _ = lengths := by
        apply List.ext_getElem
        · rw [List.length_map, List.length_range, h]
        · intro symbol _ hsymbol
          rw [List.getElem_map, List.getElem_range, List.getElem?_eq_getElem hsymbol,
            Option.getD_some]

/-! ## Counting symbols -/

section Counts

variable {counts : Array Nat} {symbols : List Nat}

/-- A table of counts after some symbols. -/
def countAll (symbols : List Nat) (counts : Array Nat) : Array Nat :=
  symbols.foldl (fun counts symbol => counts.modify symbol (· + 1)) counts

theorem size_countAll (symbols : List Nat) (counts : Array Nat) :
    (countAll symbols counts).size = counts.size := by
  induction symbols generalizing counts with
  | nil => rfl
  | cons symbol symbols ih => exact (ih _).trans Array.size_modify

theorem countAll_pos {place : Nat} (hplace : place < counts.size)
    (h : place ∈ symbols ∨ 0 < counts[place]?.getD 0) :
    0 < (countAll symbols counts)[place]?.getD 0 := by
  induction symbols generalizing counts with
  | nil => exact h.resolve_left List.not_mem_nil
  | cons symbol symbols ih =>
    refine ih (by rwa [Array.size_modify]) ?_
    rw [Array.getElem?_modify]
    by_cases hsymbol : symbol = place
    · rw [if_pos hsymbol, Array.getElem?_eq_getElem hplace]
      exact .inr (Nat.succ_pos _)
    · rw [if_neg hsymbol]
      exact h.imp_left fun h => (List.mem_cons.mp h).resolve_left fun h => hsymbol h.symm

/-- The lengths chosen for counts are those of a code that a block may state, and in it each symbol
that occurs has a word. -/
theorem CodeLengths.exists_code {limit : Nat} {counts : List Nat} (hlimit : 0 < limit)
    (hcount : counts.length ≤ 2 ^ limit) (hmax : limit ≤ PrefixCode.maxLength) :
    ∃ code, PrefixCode.ofLengths? (ofCounts limit counts) = some code ∧
      BlockCodes.ofLengths (ofCounts limit counts) = .ok code ∧
      ∀ symbol, 0 < counts[symbol]?.getD 0 →
        ∃ bits, Spells (code.words counts.length) code symbol bits := by
  have hadmitted := admitted_ofCounts hlimit hcount hmax
  obtain ⟨code, hcode, hstated⟩ := hadmitted.exists_code
  refine ⟨code, hcode, hstated, fun symbol hsymbol => ?_⟩
  have hlt : symbol < counts.length := by
    by_contra hbeyond
    rw [List.getElem?_eq_none (Nat.not_lt.mp hbeyond)] at hsymbol
    cases hsymbol
  exact PrefixCode.exists_spells hcode hlt (ofCounts_ne_zero hlimit hcount hsymbol) hadmitted.short

theorem LengthItem.codeLengths_eq (items : List LengthItem) :
    codeLengths items = CodeLengths.ofCounts maxLength
      (countAll (items.map (·.symbol)) (Array.replicate 19 0)).toList := by
  rw [countAll, List.foldl_map]
  rfl

theorem LengthItem.length_codeLengths (items : List LengthItem) : (codeLengths items).length = 19 := by
  rw [codeLengths_eq, CodeLengths.length_ofCounts, Array.length_toList, size_countAll,
    Array.size_replicate]

theorem LengthItem.codeLengths_lt (items : List LengthItem) :
    ∀ length ∈ codeLengths items, length < 8 := by
  intro length hlength
  rw [codeLengths_eq] at hlength
  refine Nat.lt_succ_of_le (CodeLengths.le_limit_of_mem_ofCounts (by decide) ?_ hlength)
  rw [Array.length_toList, size_countAll, Array.size_replicate]
  decide

theorem BlockLengths.countPieces_eq (pieces : List Piece) (literal distance : Array Nat) :
    countPieces pieces literal distance =
      (countAll (pieces.map (·.literalSymbol)) literal,
        countAll (pieces.flatMap (·.distanceSymbols)) distance) := by
  induction pieces generalizing literal distance with
  | nil => rfl
  | cons piece pieces ih => cases piece <;> exact ih _ _

end Counts

/-! ## The code for lengths -/

/-- The items of lengths that leave no room have two symbols, if there are so many lengths that words
of a single length would not do. -/
theorem exists_two_symbols {lengths more : List Nat} {items : List LengthItem}
    (h : GivesAll [] items (lengths ++ more).reverse) (hshort : ∀ length ∈ lengths, length < 16)
    (hfull : roomOf lengths = 2 ^ PrefixCode.maxLength) (hleast : 257 ≤ lengths.length)
    (hmost : lengths.length ≤ 286) :
    ∃ item ∈ items, ∃ other ∈ items, item.symbol ≠ other.symbol := by
  obtain ⟨length, hlength, hne⟩ : ∃ length ∈ lengths, length ≠ 0 := by
    by_contra hnone
    push Not at hnone
    rw [List.eq_replicate_of_mem hnone, PrefixCode.roomOf_replicate] at hfull
    exact absurd hfull (by simp [share, PrefixCode.maxLength])
  obtain ⟨item, hitem, hsymbol⟩ := h.exists_symbol_eq
    (List.mem_reverse.mpr (List.mem_append_left _ hlength)) List.not_mem_nil hne
  refine ⟨item, hitem, ?_⟩
  by_contra hnone
  push Not at hnone
  -- otherwise all lengths are one length, and the room is its share so many times
  obtain ⟨count, hall⟩ := h.eq_replicate (hshort length hlength)
    fun other hother => (hnone other hother).symm.trans hsymbol
  have hsame : lengths = List.replicate lengths.length length := by
    apply List.eq_replicate_of_mem
    intro found hfound
    apply List.eq_of_mem_replicate
    rw [← List.append_nil (List.replicate count length), ← hall]
    exact List.mem_reverse.mpr (List.mem_append_left _ hfound)
  have hlt := hshort length hlength
  have hmax : PrefixCode.maxLength = 15 := rfl
  rw [hsame, PrefixCode.roomOf_replicate, PrefixCode.share_of_pos hne, hmax] at hfull
  interval_cases length <;> omega

theorem exists_code_for_lengths {items : List LengthItem}
    (hlt : ∀ item ∈ items, item.symbol < 19)
    (htwo : ∃ item ∈ items, ∃ other ∈ items, item.symbol ≠ other.symbol) :
    ∃ code, PrefixCode.ofLengths? (LengthItem.codeLengths items) = some code ∧
      code.isComplete = true ∧
      ∀ item ∈ items, ∃ bits, Spells (code.words 19) code item.symbol bits := by
  have hlimit : 0 < LengthItem.maxLength := by decide
  have hmax : LengthItem.maxLength ≤ PrefixCode.maxLength := by decide
  have hshort := LengthItem.codeLengths_lt items
  rw [LengthItem.codeLengths_eq] at hshort ⊢
  generalize hcounts : (countAll (items.map (·.symbol)) (Array.replicate 19 0)).toList = counts
    at hshort ⊢
  have hlength : counts.length = 19 := by
    rw [← hcounts, Array.length_toList, size_countAll, Array.size_replicate]
  have hcount : counts.length ≤ 2 ^ LengthItem.maxLength := by
    rw [hlength]
    decide
  have hused : ∀ item ∈ items, 0 < counts[item.symbol]?.getD 0 := by
    intro item hitem
    rw [← hcounts, Array.getElem?_toList]
    exact countAll_pos (by rw [Array.size_replicate]; exact hlt item hitem)
      (.inl (List.mem_map_of_mem hitem))
  obtain ⟨item, hitem, other, hother, hne⟩ := htwo
  have hfull := CodeLengths.roomOf_ofCounts_of_two hlimit hcount hmax (hused item hitem)
    (hused other hother) hne
  obtain ⟨code, hcode, hcomplete⟩ := PrefixCode.exists_complete
    (fun length hlength => Nat.le_trans (Nat.le_of_lt (hshort length hlength)) (by decide)) hfull
  obtain ⟨code', hcode', _, hspells⟩ := CodeLengths.exists_code hlimit hcount hmax
  obtain rfl := Option.some.inj (hcode.symm.trans hcode')
  rw [hlength] at hspells
  exact ⟨code, hcode, hcomplete, fun item hitem => hspells _ (hused item hitem)⟩

/-! ## What a block states -/

/-- The lengths of the code for lengths are written as bits that read as these lengths. -/
theorem exists_bits_of_stated {lengths stated : List Nat} (hlength : lengths.length = 19)
    (hshort : ∀ length ∈ lengths, length < 8)
    (hstated : stated = BlockLengths.trimmed 4
      (BlockCodes.lengthOrder.map fun symbol => lengths[symbol]?.getD 0)) :
    4 ≤ stated.length ∧ stated.length ≤ 19 ∧ BlockCodes.inSymbolOrder stated = lengths ∧
      (∀ sink front, BitSink.Holds sink front →
        (stated.foldl (fun sink length => sink.putBits 3 length) sink).Holds
          (front ++ stated.flatMap (bitsOf 3))) ∧
      ReadsBits (BlockCodes.takeLengths stated.length []) (stated.flatMap (bitsOf 3)) stated := by
  have hall : ∀ length ∈ stated, length < 8 := by
    intro length hmem
    rw [hstated] at hmem
    obtain ⟨symbol, _, rfl⟩ := List.mem_map.mp (mem_of_mem_trimmed hmem)
    cases hget : lengths[symbol]? with
    | none => exact Nat.succ_pos 7
    | some length => exact hshort length (List.mem_of_getElem? hget)
  refine ⟨?_, ?_, ?_, fun sink front hsink => holds_foldl_putBits hall hsink,
    readsBits_takeLengths hall []⟩
  · rw [hstated]
    exact le_length_trimmed (by rw [List.length_map]; decide)
  · rw [hstated]
    exact (length_trimmed_le _ _).trans (by rw [List.length_map]; decide)
  · rw [hstated]
    exact inSymbolOrder_stated hlength

/-- A row of lengths that leaves no room is written as bits that read as the row. -/
theorem exists_bits_of_row {lengths more : List Nat} {items : List LengthItem}
    (hitems : items = LengthItem.ofLengths (lengths ++ more))
    (hshort : ∀ length ∈ lengths ++ more, length < 16)
    (hfull : roomOf lengths = 2 ^ PrefixCode.maxLength) (hleast : 257 ≤ lengths.length)
    (hmost : lengths.length ≤ 286) :
    ∃ code, PrefixCode.ofLengths? (LengthItem.codeLengths items) = some code ∧
      code.isComplete = true ∧ ∃ bits,
        (∀ sink front, BitSink.Holds sink front →
          (items.foldl (BitSink.putItem (code.words 19)) sink).Holds (front ++ bits)) ∧
        ReadsBits (BlockCodes.codeLengths code (lengths.length + more.length)
          (lengths.length + more.length) []) bits (lengths ++ more) := by
  have hgives : GivesAll [] items (lengths ++ more).reverse := by
    rw [hitems]
    exact LengthItem.givesAll_ofLengths hshort
  have htwo := exists_two_symbols hgives
    (fun length hlength => hshort length (List.mem_append_left _ hlength)) hfull hleast hmost
  obtain ⟨code, hcode, hcomplete, hspells⟩ := exists_code_for_lengths hgives.symbol_lt htwo
  obtain ⟨bits, hput, hread⟩ := exists_bits_of_items hgives hspells
  have hcount := hgives.length_add_le
  rw [List.length_nil, Nat.add_zero, List.length_reverse, List.length_append] at hcount
  have hrow := hread (lengths.length + more.length) hcount
  rw [List.length_reverse, List.length_append, List.reverse_reverse] at hrow
  exact ⟨code, hcode, hcomplete, bits, hput, hrow⟩

/-- Two rows of lengths and the lengths of the code that they are written in, as a block may state
them: they are those of its codes, and their numbers fit. -/
structure StatesCodes (literal distance stated : List Nat) (code : PrefixCode) (codes : BlockCodes) :
    Prop where
  least : 257 ≤ literal.length
  most : literal.length ≤ 286
  distance_pos : 1 ≤ distance.length
  distance_le : distance.length ≤ 30
  stated_least : 4 ≤ stated.length
  stated_most : stated.length ≤ 19
  code_eq : PrefixCode.ofLengths? (BlockCodes.inSymbolOrder stated) = some code
  complete : code.isComplete = true
  literal_eq : BlockCodes.ofLengths literal = .ok codes.literal
  distance_eq : BlockCodes.ofLengths distance = .ok codes.distance

theorem StatesCodes.readsBits_read {literal distance stated : List Nat} {code : PrefixCode}
    {codes : BlockCodes} (h : StatesCodes literal distance stated code codes)
    {statedBits row : List Bool}
    (hstated : ReadsBits (BlockCodes.takeLengths stated.length []) statedBits stated)
    (hrow : ReadsBits (BlockCodes.codeLengths code (literal.length + distance.length)
      (literal.length + distance.length) []) row (literal ++ distance)) :
    ReadsBits BlockCodes.read (bitsOf 5 (literal.length - 257) ++ (bitsOf 5 (distance.length - 1)
      ++ (bitsOf 4 (stated.length - 4) ++ (statedBits ++ row)))) codes := by
  obtain ⟨hleast, hmost, hpos, hmax, hfour, hnineteen, hcode, hcomplete, hliteral, hdistance⟩ := h
  intro source rest hsource
  simp only [List.append_assoc] at hsource
  obtain ⟨source₁, hread₁, h₁⟩ :=
    readsBits_takeBits (by omega : literal.length - 257 < 2 ^ 5) source _ hsource
  obtain ⟨source₂, hread₂, h₂⟩ :=
    readsBits_takeBits (by omega : distance.length - 1 < 2 ^ 5) source₁ _ h₁
  obtain ⟨source₃, hread₃, h₃⟩ :=
    readsBits_takeBits (by omega : stated.length - 4 < 2 ^ 4) source₂ _ h₂
  obtain ⟨source₄, hread₄, h₄⟩ := hstated source₃ _ h₃
  obtain ⟨source₅, hread₅, h₅⟩ := hrow source₄ _ h₄
  refine ⟨source₅, ?_, h₅⟩
  have hbounds : (decide (286 < literal.length) || decide (30 < distance.length)) = false := by
    rw [decide_eq_false (by omega), decide_eq_false (by omega)]
    rfl
  unfold BlockCodes.read
  simp only [bind, Except.bind, hread₁, hread₂, hread₃, Nat.sub_add_cancel hleast,
    Nat.sub_add_cancel hpos, Nat.sub_add_cancel hfour, hbounds, hread₄, hcode, hcomplete]
  rw [if_neg Bool.false_ne_true, if_pos trivial]
  simp only [pure, Except.pure, hread₅, List.take_left, List.drop_left, hliteral, hdistance]

/-- The lengths of two codes are written as bits that read as the codes. -/
theorem exists_bits_of_lengths {lengths : BlockLengths} {codes : BlockCodes}
    (hliteral : BlockCodes.ofLengths lengths.literal = .ok codes.literal)
    (hdistance : BlockCodes.ofLengths lengths.distance = .ok codes.distance)
    (hshort : ∀ length ∈ lengths.literal ++ lengths.distance, length < 16)
    (hfull : roomOf lengths.literal = 2 ^ PrefixCode.maxLength)
    (hliterals : lengths.literal.length = 286) (hdistances : lengths.distance.length = 30) :
    ∃ bits, (∀ sink front, BitSink.Holds sink front →
        (sink.putLengths lengths).Holds (front ++ bits)) ∧
      ReadsBits BlockCodes.read bits codes := by
  obtain ⟨literal, hliteralEq⟩ : ∃ literal,
      literal = BlockLengths.trimmed firstLengthSymbol lengths.literal := ⟨_, rfl⟩
  obtain ⟨distance, hdistanceEq⟩ : ∃ distance,
      distance = BlockLengths.trimmed 1 lengths.distance := ⟨_, rfl⟩
  obtain ⟨items, hitemsEq⟩ : ∃ items, items = LengthItem.ofLengths (literal ++ distance) :=
    ⟨_, rfl⟩
  obtain ⟨stated, hstated⟩ : ∃ stated, stated = BlockLengths.trimmed 4
      (BlockCodes.lengthOrder.map fun symbol => (LengthItem.codeLengths items)[symbol]?.getD 0) :=
    ⟨_, rfl⟩
  have hfirst : firstLengthSymbol = 257 := rfl
  have hliteralTrimmed := hliterals ▸ length_trimmed_le firstLengthSymbol lengths.literal
  have hdistanceTrimmed := hdistances ▸ length_trimmed_le 1 lengths.distance
  have hleast : 257 ≤ literal.length := by
    rw [hliteralEq]
    exact le_length_trimmed (by rw [hliterals]; decide)
  have hpos : 1 ≤ distance.length := by
    rw [hdistanceEq]
    exact le_length_trimmed (by rw [hdistances]; decide)
  rw [← hliteralEq] at hliteralTrimmed
  rw [← hdistanceEq] at hdistanceTrimmed
  have hrow : ∀ length ∈ literal ++ distance, length < 16 := by
    intro length hlength
    apply hshort
    rw [List.mem_append] at hlength ⊢
    rw [hliteralEq, hdistanceEq] at hlength
    exact hlength.imp mem_of_mem_trimmed mem_of_mem_trimmed
  obtain ⟨code, hcode, hcomplete, row, hputRow, hreadRow⟩ := exists_bits_of_row hitemsEq hrow
    (by rw [hliteralEq, roomOf_trimmed, hfull]) hleast hliteralTrimmed
  obtain ⟨hfour, hnineteen, horder, hputStated, hreadStated⟩ :=
    exists_bits_of_stated (LengthItem.length_codeLengths items) (LengthItem.codeLengths_lt items)
      hstated
  have hstates : StatesCodes literal distance stated code codes :=
    ⟨hleast, hliteralTrimmed, hpos, hdistanceTrimmed, hfour, hnineteen, by rw [horder, hcode],
      hcomplete, by rw [hliteralEq, ofLengths_trimmed, hliteral],
      by rw [hdistanceEq, ofLengths_trimmed, hdistance]⟩
  refine ⟨_, ?_, hstates.readsBits_read hreadStated hreadRow⟩
  intro sink front hsink
  have hheld := hputRow _ _ (hputStated _ _ (((hsink.putBits
    (by omega : literal.length - 257 < 2 ^ 5)).putBits
    (by omega : distance.length - 1 < 2 ^ 5)).putBits (by omega : stated.length - 4 < 2 ^ 4)))
  rw [BitSink.putLengths, ← hliteralEq, ← hdistanceEq, ← hitemsEq, ← hstated]
  simp only [hcode, hfirst]
  simpa only [List.append_assoc] using hheld

/-! ## Codes made for pieces -/

namespace BlockLengths

/-- The counts of the symbols in the first code, one of which is the end of the block. -/
def literalCounts (pieces : List Piece) : List Nat :=
  (countAll (pieces.map (·.literalSymbol))
    ((Array.replicate 286 0).modify endSymbol (· + 1))).toList

def distanceCounts (pieces : List Piece) : List Nat :=
  (countAll (pieces.flatMap (·.distanceSymbols)) (Array.replicate 30 0)).toList

variable (pieces : List Piece)

theorem ofPieces_eq : ofPieces pieces = ⟨CodeLengths.ofCounts maxLength (literalCounts pieces),
    CodeLengths.ofCounts maxLength (distanceCounts pieces)⟩ := by
  rw [ofPieces, countPieces_eq]
  rfl

@[simp] theorem length_literalCounts : (literalCounts pieces).length = 286 := by
  rw [literalCounts, Array.length_toList, size_countAll, Array.size_modify, Array.size_replicate]

@[simp] theorem length_distanceCounts : (distanceCounts pieces).length = 30 := by
  rw [distanceCounts, Array.length_toList, size_countAll, Array.size_replicate]

theorem length_literal_ofPieces : (ofPieces pieces).literal.length = 286 := by
  rw [ofPieces_eq, CodeLengths.length_ofCounts, length_literalCounts]

theorem length_distance_ofPieces : (ofPieces pieces).distance.length = 30 := by
  rw [ofPieces_eq, CodeLengths.length_ofCounts, length_distanceCounts]

theorem length_counts_le :
    (literalCounts pieces).length ≤ 2 ^ maxLength ∧ (distanceCounts pieces).length ≤ 2 ^ maxLength := by
  rw [length_literalCounts, length_distanceCounts]
  decide

theorem lt_of_mem_ofPieces :
    ∀ length ∈ (ofPieces pieces).literal ++ (ofPieces pieces).distance, length < 16 := by
  obtain ⟨hliteral, hdistance⟩ := length_counts_le pieces
  intro length hlength
  rw [ofPieces_eq, List.mem_append] at hlength
  refine Nat.lt_succ_of_le ?_
  rcases hlength with hlength | hlength
  · exact CodeLengths.le_limit_of_mem_ofCounts (by decide) hliteral hlength
  · exact CodeLengths.le_limit_of_mem_ofCounts (by decide) hdistance hlength

variable {pieces : List Piece}

theorem literalCounts_endSymbol_pos : 0 < (literalCounts pieces)[endSymbol]?.getD 0 := by
  rw [literalCounts, Array.getElem?_toList]
  refine countAll_pos (by rw [Array.size_modify, Array.size_replicate]; decide) (.inr ?_)
  rw [Array.getElem?_modify, if_pos rfl, Array.getElem?_replicate]
  decide

theorem literalCounts_pos (hfits : ∀ piece ∈ pieces, piece.Fits) :
    ∀ piece ∈ pieces, 0 < (literalCounts pieces)[piece.literalSymbol]?.getD 0 := by
  intro piece hpiece
  rw [literalCounts, Array.getElem?_toList]
  refine countAll_pos ?_ (.inl (List.mem_map_of_mem hpiece))
  rw [Array.size_modify, Array.size_replicate]
  exact (hfits piece hpiece).literalSymbol_lt

theorem distanceCounts_pos (hfits : ∀ piece ∈ pieces, piece.Fits) :
    ∀ piece ∈ pieces, ∀ symbol ∈ piece.distanceSymbols,
      0 < (distanceCounts pieces)[symbol]?.getD 0 := by
  intro piece hpiece symbol hsymbol
  rw [distanceCounts, Array.getElem?_toList]
  refine countAll_pos ?_ (.inl (List.mem_flatMap.mpr ⟨piece, hpiece, hsymbol⟩))
  rw [Array.size_replicate]
  exact (hfits piece hpiece).distanceSymbol_lt symbol hsymbol

/-- A piece and the end of the block have two symbols, so the words of the first code leave no
room. -/
theorem roomOf_ofPieces (hfits : ∀ piece ∈ pieces, piece.Fits) (hne : pieces ≠ []) :
    roomOf (ofPieces pieces).literal = 2 ^ PrefixCode.maxLength := by
  obtain ⟨piece, hpiece⟩ := List.exists_mem_of_ne_nil pieces hne
  have hother : piece.literalSymbol ≠ endSymbol := by
    cases piece with
    | literal byte => exact Nat.ne_of_lt byte.toNat_lt
    | copy bytes => exact Nat.ne_of_gt (Nat.lt_of_succ_le (Nat.le_add_right _ _))
  rw [ofPieces_eq]
  exact CodeLengths.roomOf_ofCounts_of_two (by decide) (length_counts_le pieces).1 (by decide)
    (literalCounts_pos hfits piece hpiece) literalCounts_endSymbol_pos hother

/-- The lengths made for pieces give codes with a word for each of their symbols. -/
theorem exists_codes_ofPieces (hfits : ∀ piece ∈ pieces, piece.Fits) :
    ∃ words codes, (ofPieces pieces).words? = some words ∧
      BlockCodes.ofLengths (ofPieces pieces).literal = .ok codes.literal ∧
      BlockCodes.ofLengths (ofPieces pieces).distance = .ok codes.distance ∧
      SpellsAll words codes pieces := by
  obtain ⟨hliteral, hdistance⟩ := length_counts_le pieces
  obtain ⟨literal, hcode, hstated, hspells⟩ :=
    CodeLengths.exists_code (by decide) hliteral (by decide)
  obtain ⟨distance, hcode', hstated', hspells'⟩ :=
    CodeLengths.exists_code (by decide) hdistance (by decide)
  refine ⟨⟨literal.words (literalCounts pieces).length,
    distance.words (distanceCounts pieces).length⟩, ⟨literal, distance⟩, ?_, ?_, ?_, ?_, ?_, ?_⟩
  · rw [words?, ofPieces_eq]
    simp only [hcode, hcode', CodeLengths.length_ofCounts]
    rfl
  · rw [ofPieces_eq]
    exact hstated
  · rw [ofPieces_eq]
    exact hstated'
  · exact hspells _ literalCounts_endSymbol_pos
  · exact fun piece hpiece => hspells _ (literalCounts_pos hfits piece hpiece)
  · exact fun piece hpiece symbol hsymbol =>
      hspells' _ (distanceCounts_pos hfits piece hpiece symbol hsymbol)

end BlockLengths

end JarText.Zip
