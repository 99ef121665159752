import JarText.Proofs.PrefixWords
import JarText.Proofs.Reading
import JarText.Zip.BlockCodes

/-!
# Pieces that read back

A number is written as the range that holds it and its place there. A piece is written as one symbol
or two, each in its word, with the places of its length and its distance; it reads as the bytes that
it stands for (`exists_bits_of_piece`). So a row of pieces reads as what the pieces make of the bytes
before them (`exists_bits_of_pieces`).
-/

set_option autoImplicit false

namespace JarText.Zip

open PrefixCode (Spells)

/-! ## Ranges -/

section Ranges

variable {ranges : Array (Nat × Nat)} {n : Nat}

/-- A range begins where the one before it ends, or before that. -/
def Adjoins (range next : Nat × Nat) : Prop := range.1 < next.1 ∧ next.1 ≤ range.1 + 2 ^ range.2

instance : DecidableRel Adjoins := fun _ _ => inferInstanceAs (Decidable (_ ∧ _))

/-- The range that is found for a number holds it. -/
def IsRanged (ranges : Array (Nat × Nat)) (n : Nat) : Prop :=
  ∃ base extra, ranges[rangeSymbol ranges n]? = some (base, extra) ∧ base ≤ n ∧ n < base + 2 ^ extra

/-- The ranges that begin up to a number come first, and the last of them holds the number, unless it
lies beyond all of them. -/
theorem getElem?_of_chain {ranges : List (Nat × Nat)} (hchain : ranges.IsChain Adjoins)
    {last : Nat} (hlast : (ranges.filter (·.1 ≤ n)).length = last + 1) :
    ∃ base extra, ranges[last]? = some (base, extra) ∧ base ≤ n ∧
      (n < base + 2 ^ extra ∨ last + 1 = ranges.length) := by
  induction ranges generalizing last with
  | nil => cases hlast
  | cons range ranges ih =>
    rw [List.isChain_cons] at hchain
    obtain ⟨hnext, hrest⟩ := hchain
    by_cases hbase : range.1 ≤ n
    · rw [List.filter_cons_of_pos (by simpa using hbase), List.length_cons,
        Nat.add_right_cancel_iff] at hlast
      cases last with
      | zero =>
        refine ⟨range.1, range.2, rfl, hbase, ?_⟩
        cases ranges with
        | nil => exact .inr rfl
        | cons next ranges =>
          have hbeyond := List.filter_eq_nil_iff.mp (List.length_eq_zero_iff.mp hlast) next
            List.mem_cons_self
          have hadjoins := (hnext next rfl).2
          rw [decide_eq_true_eq] at hbeyond
          exact .inl (by omega)
      | succ last =>
        obtain ⟨base, extra, hget, hle, hlt⟩ := ih hrest hlast
        exact ⟨base, extra, hget, hle, hlt.imp_right (congrArg (· + 1))⟩
    · rw [List.filter_cons_of_neg (by simpa using hbase)] at hlast
      have hrise : (range :: ranges).Pairwise fun a b => a.1 < b.1 := by
        rw [← List.isChain_iff_pairwise]
        exact (List.isChain_cons.mpr ⟨hnext, hrest⟩).imp fun _ _ h => h.1
      have hnone : ranges.filter (·.1 ≤ n) = [] := by
        rw [List.filter_eq_nil_iff]
        intro next hmem
        have hlt := List.rel_of_pairwise_cons hrise hmem
        rw [decide_eq_true_eq]
        omega
      rw [hnone] at hlast
      cases hlast

theorem isRanged_of_chain {first : Nat × Nat} {rest : List (Nat × Nat)} {most : Nat}
    (hchain : (first :: rest).IsChain Adjoins) (hfirst : first.1 ≤ n) (hmost : n ≤ most)
    (hlast : most < ((first :: rest).getLast (List.cons_ne_nil _ _)).1
      + 2 ^ ((first :: rest).getLast (List.cons_ne_nil _ _)).2)
    (hranges : ranges.toList = first :: rest) : IsRanged ranges n := by
  have hcount : (ranges.toList.filter (·.1 ≤ n)).length = rangeSymbol ranges n + 1 := by
    have hpos : 0 < (ranges.toList.filter (·.1 ≤ n)).length := by
      rw [hranges, List.filter_cons_of_pos (by simpa using hfirst)]
      exact Nat.succ_pos _
    rw [rangeSymbol, ← Array.length_toList, Array.toList_filter]
    omega
  rw [hranges] at hcount
  obtain ⟨base, extra, hget, hle, hlt⟩ := getElem?_of_chain hchain hcount
  refine ⟨base, extra, by rw [← Array.getElem?_toList, hranges, hget], hle, ?_⟩
  rcases hlt with hlt | hend
  · exact hlt
  · have hfinal : (first :: rest).getLast (List.cons_ne_nil _ _) = (base, extra) := by
      rw [List.getLast_eq_getElem]
      apply Option.some.inj
      rw [← hget, ← List.getElem?_eq_getElem]
      congr 1
      omega
    rw [hfinal] at hlast
    exact Nat.lt_of_le_of_lt hmost hlast

/-- A length that a copy can have. -/
theorem isRanged_length (hleast : 3 ≤ n) (hmost : n ≤ Copy.maxLength) : IsRanged lengthRanges n :=
  isRanged_of_chain (by decide) hleast hmost (by decide) rfl

/-- A distance that a copy can have. -/
theorem isRanged_distance (hleast : 1 ≤ n) (hmost : n ≤ Copy.maxDistance) :
    IsRanged distanceRanges n :=
  isRanged_of_chain (by decide) hleast hmost (by decide) rfl

theorem IsRanged.symbol_lt (h : IsRanged ranges n) : rangeSymbol ranges n < ranges.size := by
  obtain ⟨base, extra, hget, _⟩ := h
  exact (Array.getElem?_eq_some_iff.mp hget).1

/-- The bits of the place of a number in its range. -/
def offsetBits (ranges : Array (Nat × Nat)) (n : Nat) : List Bool :=
  match ranges[rangeSymbol ranges n]? with
  | none => []
  | some (base, extra) => bitsOf extra (n - base)

theorem IsRanged.holds_putOffset (h : IsRanged ranges n) {sink : BitSink} {bits : List Bool}
    (hsink : sink.Holds bits) : (sink.putOffset ranges n).Holds (bits ++ offsetBits ranges n) := by
  obtain ⟨base, extra, hget, hle, hlt⟩ := h
  rw [BitSink.putOffset, offsetBits, hget]
  dsimp only
  split
  · rename_i hzero
    subst hzero
    rwa [bitsOf, List.append_nil]
  · exact hsink.putBits (by omega)

theorem IsRanged.readsBits_takeRange (h : IsRanged ranges n) :
    ReadsBits (takeRange ranges (rangeSymbol ranges n)) (offsetBits ranges n) n := by
  obtain ⟨base, extra, hget, hle, hlt⟩ := h
  intro source rest hsource
  rw [offsetBits, hget] at hsource
  obtain ⟨source', htake, hsource'⟩ :=
    readsBits_takeBits (by omega : n - base < 2 ^ extra) source rest hsource
  refine ⟨source', ?_, hsource'⟩
  rw [takeRange, hget]
  dsimp only
  rw [htake]
  change Except.ok (base + (n - base), source') = _
  rw [Nat.add_sub_cancel' hle]

end Ranges

/-! ## Pieces -/

namespace Piece

/-- What a piece makes of the bytes before it. -/
def expand (out : Array UInt8) : Piece → Array UInt8
  | literal byte => out.push byte
  | copy bytes => copyBack bytes.distance bytes.length out

/-- A copy of a length and from a distance that can be written. -/
def Fits : Piece → Prop
  | literal _ => True
  | copy bytes => (3 ≤ bytes.length ∧ bytes.length ≤ Copy.maxLength) ∧
      1 ≤ bytes.distance ∧ bytes.distance ≤ Copy.maxDistance

def literalSymbol : Piece → Nat
  | literal byte => byte.toNat
  | copy bytes => lengthSymbol bytes.length

def distanceSymbols : Piece → List Nat
  | literal _ => []
  | copy bytes => [distanceSymbol bytes.distance]

theorem Fits.literalSymbol_lt {piece : Piece} (h : piece.Fits) : piece.literalSymbol < 286 := by
  cases piece with
  | literal byte =>
    have hlt := byte.toNat_lt
    exact Nat.lt_trans hlt (by decide)
  | copy bytes =>
    have hlt := (isRanged_length h.1.1 h.1.2).symbol_lt
    have hsize : lengthRanges.size = 29 := rfl
    have hfirst : firstLengthSymbol = 257 := rfl
    rw [literalSymbol, lengthSymbol]
    omega

theorem Fits.distanceSymbol_lt {piece : Piece} (h : piece.Fits) :
    ∀ symbol ∈ piece.distanceSymbols, symbol < 30 := by
  cases piece with
  | literal byte => exact List.forall_mem_nil _
  | copy bytes =>
    intro symbol hsymbol
    rw [List.mem_singleton.mp hsymbol]
    exact (isRanged_distance h.2.1 h.2.2).symbol_lt

end Piece

section Reading

variable {words : BlockWords} {codes : BlockCodes} {piece : Piece} {pieces : List Piece}

/-- Every symbol of some pieces has a word that reads as the symbol, and so has the end. -/
structure SpellsAll (words : BlockWords) (codes : BlockCodes) (pieces : List Piece) : Prop where
  stop : ∃ bits, Spells words.literal codes.literal endSymbol bits
  literal : ∀ piece ∈ pieces, ∃ bits, Spells words.literal codes.literal piece.literalSymbol bits
  distance : ∀ piece ∈ pieces, ∀ symbol ∈ piece.distanceSymbols,
    ∃ bits, Spells words.distance codes.distance symbol bits

theorem holds_putSymbol {table : Array Word} {code : PrefixCode} {symbol : Nat}
    {bits more : List Bool} {sink : BitSink} (h : Spells table code symbol more)
    (hsink : sink.Holds bits) : (sink.putSymbol table symbol).Holds (bits ++ more) := by
  rw [BitSink.putSymbol, h.word_eq]
  exact hsink.put more

theorem readsBits_readCopy {length distance : Nat} {more : List Bool}
    (hlength : IsRanged lengthRanges length) (hdistance : IsRanged distanceRanges distance)
    (h : Spells words.distance codes.distance (distanceSymbol distance) more) :
    ReadsBits (readCopy codes (lengthSymbol length))
      (offsetBits lengthRanges length ++ (more ++ offsetBits distanceRanges distance))
      (length, distance) := by
  intro source rest hsource
  rw [List.append_assoc, List.append_assoc] at hsource
  obtain ⟨source₁, hread₁, h₁⟩ := hlength.readsBits_takeRange source _ hsource
  obtain ⟨source₂, hread₂, h₂⟩ := h.reads source₁ _ h₁
  obtain ⟨source₃, hread₃, h₃⟩ := hdistance.readsBits_takeRange source₂ _ h₂
  refine ⟨source₃, ?_, h₃⟩
  have hsymbol : lengthSymbol length - 257 = rangeSymbol lengthRanges length := by
    have hfirst : firstLengthSymbol = 257 := rfl
    rw [lengthSymbol]
    omega
  rw [distanceSymbol] at hread₂
  unfold readCopy
  simp only [hsymbol, bind, Except.bind, hread₁, hread₂, hread₃]
  rfl

/-- A piece is written as bits that read as the piece. -/
theorem exists_bits_of_piece (hfits : piece.Fits)
    (hliteral : ∃ bits, Spells words.literal codes.literal piece.literalSymbol bits)
    (hdistance : ∀ symbol ∈ piece.distanceSymbols,
      ∃ bits, Spells words.distance codes.distance symbol bits) :
    ∃ bits, bits ≠ [] ∧
      (∀ sink front, BitSink.Holds sink front →
        (BitSink.putPiece words sink piece).Holds (front ++ bits)) ∧
      ∀ fuel source rest out, BitSource.At source (bits ++ rest) →
        ∃ source', readSymbols codes (fuel + 1) source out =
          readSymbols codes fuel source' (piece.expand out) ∧ source'.At rest := by
  obtain ⟨first, hfirst⟩ := hliteral
  cases piece with
  | literal byte =>
    refine ⟨first, hfirst.ne_nil, ?_, ?_⟩
    · intro sink front hsink
      rw [BitSink.putPiece]
      exact holds_putSymbol hfirst hsink
    intro fuel source rest out hsource
    obtain ⟨source', hread, hsource'⟩ := hfirst.reads source rest hsource
    refine ⟨source', ?_, hsource'⟩
    have hlt : (Piece.literal byte).literalSymbol < 256 := byte.toNat_lt
    have hbyte : UInt8.ofNat (Piece.literal byte).literalSymbol = byte := UInt8.ofNat_toNat
    rw [readSymbols, hread]
    simp only [if_pos hlt, hbyte, Piece.expand]
  | copy bytes =>
    have hlength := isRanged_length hfits.1.1 hfits.1.2
    have hback := isRanged_distance hfits.2.1 hfits.2.2
    obtain ⟨second, hsecond⟩ := hdistance _ List.mem_cons_self
    refine ⟨first ++ (offsetBits lengthRanges bytes.length
      ++ (second ++ offsetBits distanceRanges bytes.distance)), ?_, ?_, ?_⟩
    · exact List.append_ne_nil_of_left_ne_nil hfirst.ne_nil _
    · intro sink front hsink
      have hheld := hback.holds_putOffset (holds_putSymbol hsecond
        (hlength.holds_putOffset (holds_putSymbol hfirst hsink)))
      rwa [List.append_assoc, List.append_assoc, List.append_assoc] at hheld
    · intro fuel source rest out hsource
      rw [List.append_assoc] at hsource
      obtain ⟨source₁, hread, h₁⟩ := hfirst.reads source _ hsource
      obtain ⟨source₂, hcopy, h₂⟩ := readsBits_readCopy hlength hback hsecond source₁ _ h₁
      refine ⟨source₂, ?_, h₂⟩
      have hbeyond : 256 < lengthSymbol bytes.length := Nat.lt_of_lt_of_le (by decide)
        (Nat.le_add_right firstLengthSymbol _)
      rw [Piece.literalSymbol] at hread
      rw [readSymbols, hread]
      dsimp only
      rw [if_neg (by omega), if_neg (by omega), hcopy, Piece.expand]

/-- A row of pieces is written as bits that read as the pieces. -/
theorem exists_bits_of_pieces (hfits : ∀ piece ∈ pieces, piece.Fits)
    (h : SpellsAll words codes pieces) :
    ∃ bits, pieces.length < bits.length ∧
      (∀ sink front, BitSink.Holds sink front →
        (sink.putPieces words pieces).Holds (front ++ bits)) ∧
      ∀ fuel source rest out, pieces.length < fuel → BitSource.At source (bits ++ rest) →
        ∃ source', readSymbols codes fuel source out =
          .ok (source', pieces.foldl Piece.expand out) ∧ source'.At rest := by
  induction pieces with
  | nil =>
    obtain ⟨bits, hbits⟩ := h.stop
    refine ⟨bits, List.length_pos_iff.mpr hbits.ne_nil, ?_, ?_⟩
    · intro sink front hsink
      rw [BitSink.putPieces, List.foldl_nil]
      exact holds_putSymbol hbits hsink
    intro fuel source rest out hfuel hsource
    obtain ⟨fuel, rfl⟩ := Nat.exists_eq_add_one.mpr hfuel
    obtain ⟨source', hread, hsource'⟩ := hbits.reads source rest hsource
    refine ⟨source', ?_, hsource'⟩
    rw [readSymbols, hread]
    simp only [endSymbol, List.foldl_nil, if_neg (Nat.lt_irrefl 256), if_pos]
  | cons piece pieces ih =>
    obtain ⟨hpiece, hpieces⟩ := List.forall_mem_cons.mp hfits
    obtain ⟨hliteral, hliterals⟩ := List.forall_mem_cons.mp h.literal
    obtain ⟨hdistance, hdistances⟩ := List.forall_mem_cons.mp h.distance
    obtain ⟨first, hne, hput, hread⟩ := exists_bits_of_piece hpiece hliteral hdistance
    obtain ⟨bits, hlength, hputs, hreads⟩ := ih hpieces ⟨h.stop, hliterals, hdistances⟩
    have hpos := List.length_pos_iff.mpr hne
    refine ⟨first ++ bits, ?_, ?_, ?_⟩
    · rw [List.length_append, List.length_cons]
      omega
    · intro sink front hsink
      rw [← List.append_assoc]
      exact hputs _ _ (hput sink front hsink)
    · intro fuel source rest out hfuel hsource
      rw [List.length_cons] at hfuel
      obtain ⟨fuel, rfl⟩ := Nat.exists_eq_add_one.mpr (Nat.zero_lt_of_lt hfuel)
      rw [List.append_assoc] at hsource
      obtain ⟨source₁, hstep, h₁⟩ := hread fuel source _ out hsource
      obtain ⟨source₂, hrest, h₂⟩ := hreads fuel source₁ rest (piece.expand out) (by omega) h₁
      exact ⟨source₂, hstep.trans hrest, h₂⟩

end Reading

end JarText.Zip
