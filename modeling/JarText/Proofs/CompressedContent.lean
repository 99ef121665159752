import JarText.Bytes.Lemmas
import JarText.Proofs.ContentPieces
import JarText.Proofs.StatedLengths
import JarText.Zip.Entry

/-!
# Compressed content

A block is written as bits that read as its bytes, in pieces (`Block.exists_isPackedAs`) or as
the bytes are (`Block.exists_stored`). So blocks that stand one behind the other read as the content between
their ends (`Block.StandAll.reads`), and what is put in an entry is the content of that entry.
-/

set_option autoImplicit false

namespace JarText.Zip

open PrefixCode (Spells roomOf)

/-! ## The codes that every reader knows -/

/-- Lengths none of which is zero and which leave no room give a code with a word for each symbol. -/
theorem PrefixCode.exists_code_of_full (lengths : List Nat)
    (hshort : ∀ length ∈ lengths, length ≠ 0 ∧ length ≤ maxLength)
    (hfull : roomOf lengths = 2 ^ maxLength) :
    ∃ code, ofLengths? lengths = some code ∧ ∀ symbol < lengths.length,
      ∃ bits, Spells (code.words lengths.length) code symbol bits := by
  obtain ⟨code, hcode, _⟩ := exists_complete (fun length hmem => (hshort length hmem).2) hfull
  refine ⟨code, hcode, fun symbol hsymbol => ?_⟩
  refine exists_spells hcode hsymbol ?_ fun length hmem => (hshort length hmem).2
  rw [List.getElem?_eq_getElem hsymbol, Option.getD_some]
  exact (hshort _ (List.getElem_mem hsymbol)).1

namespace BlockCodes

theorem length_fixedLiteralLengths : fixedLiteralLengths.length = 288 := by
  simp only [fixedLiteralLengths, List.length_append, List.length_replicate]

theorem of_mem_fixedLiteralLengths {length : Nat} (h : length ∈ fixedLiteralLengths) :
    length ≠ 0 ∧ length ≤ PrefixCode.maxLength := by
  simp only [fixedLiteralLengths, List.mem_append, List.mem_replicate] at h
  rw [PrefixCode.maxLength]
  omega

theorem roomOf_fixedLiteralLengths : roomOf fixedLiteralLengths = 2 ^ PrefixCode.maxLength := by
  simp only [fixedLiteralLengths, PrefixCode.roomOf_append, PrefixCode.roomOf_replicate]
  decide

end BlockCodes

theorem exists_fixed {pieces : List Piece} (hfits : ∀ piece ∈ pieces, piece.Fits) :
    ∃ words codes, BlockLengths.fixedWords? = some words ∧ BlockCodes.fixed? = some codes ∧
      SpellsAll words codes pieces := by
  obtain ⟨literal, hliteral, hspells⟩ :=
    PrefixCode.exists_code_of_full BlockCodes.fixedLiteralLengths
      (fun _ => BlockCodes.of_mem_fixedLiteralLengths) BlockCodes.roomOf_fixedLiteralLengths
  obtain ⟨distance, hdistance, hspells'⟩ :=
    PrefixCode.exists_code_of_full (List.replicate 32 5) (by decide) (by decide)
  rw [BlockCodes.length_fixedLiteralLengths] at hspells
  rw [List.length_replicate] at hspells'
  refine ⟨⟨literal.words 288, distance.words 32⟩, ⟨literal, distance⟩, ?_, ?_, ?_, ?_, ?_⟩
  · simp only [BlockLengths.fixedWords?, BlockLengths.words?, BlockLengths.fixed, hliteral, hdistance,
      BlockCodes.length_fixedLiteralLengths, List.length_replicate]
    rfl
  · simp only [BlockCodes.fixed?, hliteral, hdistance]
    rfl
  · exact hspells _ (by decide)
  · exact fun piece hpiece =>
      hspells _ (Nat.lt_trans (hfits piece hpiece).literalSymbol_lt (by decide))
  · exact fun piece hpiece symbol hsymbol =>
      hspells' _ (Nat.lt_trans ((hfits piece hpiece).distanceSymbol_lt symbol hsymbol) (by decide))

/-! ## Blocks -/

namespace Block

variable {block : Block} {content : Array UInt8} {place : Nat}

/-- The pieces of a block are written, after their kind, as bits that read as its bytes. -/
def IsPackedAs (block : Block) (content : Array UInt8) (place kind : Nat) : Prop :=
  ∃ bits, block.pieces.length < bits.length ∧
    (∀ sink front, BitSink.Holds sink front →
      (block.putPacked sink).Holds (front ++ (bitsOf 2 kind ++ bits))) ∧
    ∀ fuel source rest, block.pieces.length < fuel → BitSource.At source (bits ++ rest) →
      ∃ source', readBlock fuel kind source (content.extract 0 place) =
        .ok (source', content.extract 0 (place + block.length)) ∧ source'.At rest

theorem isPackedAs_fixed (h : block.StandsAt content place) (hshort : block.length < leastOwnCodes) :
    block.IsPackedAs content place 1 := by
  obtain ⟨words, codes, hwords, hcodes, hspells⟩ := exists_fixed h.pieces.fits
  obtain ⟨bits, hlength, hput, hread⟩ := exists_bits_of_pieces h.pieces.fits hspells
  refine ⟨bits, hlength, ?_, ?_⟩
  · intro sink front hsink
    rw [putPacked, if_pos hshort, hwords, ← List.append_assoc]
    exact hput _ _ (hsink.putBits (by decide))
  · intro fuel source rest hfuel hsource
    obtain ⟨source', hsymbols, h'⟩ := hread fuel source rest (content.extract 0 place) hfuel hsource
    refine ⟨source', ?_, h'⟩
    rw [readBlock, hcodes]
    dsimp only
    rw [hsymbols, h.pieces.foldl_expand]

theorem isPackedAs_own (h : block.StandsAt content place) (hlong : ¬ block.length < leastOwnCodes) :
    block.IsPackedAs content place 2 := by
  have hfits := h.pieces.fits
  have hne : block.pieces ≠ [] := by
    intro hnone
    have hstop := h.pieces.stop_eq
    rw [hnone, List.map_nil, List.sum_nil] at hstop
    rw [leastOwnCodes] at hlong
    omega
  obtain ⟨words, codes, hwords, hliteral, hdistance, hspells⟩ :=
    BlockLengths.exists_codes_ofPieces hfits
  obtain ⟨lengthBits, hputLengths, hreadLengths⟩ := exists_bits_of_lengths hliteral hdistance
    (BlockLengths.lt_of_mem_ofPieces _) (BlockLengths.roomOf_ofPieces hfits hne)
    (BlockLengths.length_literal_ofPieces _) (BlockLengths.length_distance_ofPieces _)
  obtain ⟨bits, hlength, hput, hread⟩ := exists_bits_of_pieces hfits hspells
  refine ⟨lengthBits ++ bits, ?_, ?_, ?_⟩
  · rw [List.length_append]
    omega
  · intro sink front hsink
    rw [putPacked, if_neg hlong, ← List.append_assoc, ← List.append_assoc]
    dsimp only
    rw [hwords]
    exact hput _ _ (hputLengths _ _ (hsink.putBits (by decide)))
  · intro fuel source rest hfuel hsource
    rw [List.append_assoc] at hsource
    obtain ⟨source₁, hcodes, h₁⟩ := hreadLengths source _ hsource
    obtain ⟨source₂, hsymbols, h₂⟩ := hread fuel source₁ rest (content.extract 0 place) hfuel h₁
    refine ⟨source₂, ?_, h₂⟩
    rw [readBlock]
    simp only [hcodes, bind, Except.bind]
    rw [hsymbols, h.pieces.foldl_expand]

theorem exists_isPackedAs (h : block.StandsAt content place) :
    ∃ kind < 4, block.IsPackedAs content place kind := by
  by_cases hshort : block.length < leastOwnCodes
  · exact ⟨1, by decide, isPackedAs_fixed h hshort⟩
  · exact ⟨2, by decide, isPackedAs_own h hshort⟩

/-- Where a byte begins, a block of bytes as they are reads as these bytes. -/
theorem readStored_stored {chunk : Bytes} (hshort : chunk.length ≤ maxStored) {source : BitSource}
    {pad rest : List Bool} (hpad : pad.length < 8) (hfull : rest.length % 8 = 0)
    (hsource : source.At (pad ++ (bitsOfBytes (stored chunk) ++ rest))) (out : Array UInt8) :
    ∃ source', readStored source out = .ok (source', out ++ chunk) ∧ source'.At rest := by
  have hmax : maxStored = 65535 := rfl
  have hbits := length_bitsOfBytes (stored chunk)
  have h₀ := hsource.align hpad (by rw [List.length_append]; omega)
  rw [stored, bitsOfBytes_append, bitsOfBytes_append, bitsOfBytes_littleEndian,
    bitsOfBytes_littleEndian, List.append_assoc, List.append_assoc] at h₀
  obtain ⟨source₁, hread₁, h₁⟩ :=
    readsBits_takeBits (by omega : chunk.length < 2 ^ (8 * 2)) source.align _ h₀
  obtain ⟨source₂, hread₂, h₂⟩ :=
    readsBits_takeBits (by omega : maxStored - chunk.length < 2 ^ (8 * 2)) source₁ _ h₁
  have hpending := h₂.length_pending
  have hchunk := length_bitsOfBytes chunk
  have hstart : source₂.pending = [] := by
    rw [← List.length_eq_zero_iff, hpending, List.length_append]
    omega
  have hrest := h₂.bits_eq
  rw [BitSource.bits, hstart, List.nil_append] at hrest
  obtain ⟨left, hleft, hleftBits⟩ := exists_of_bitsOfBytes_eq_append hrest
  refine ⟨⟨[], left⟩, ?_, Nat.succ_pos 7, hleftBits⟩
  have hsum : chunk.length + (maxStored - chunk.length) = 65535 := by omega
  rw [readStored]
  simp only [bind, Except.bind, hread₁, hread₂]
  rw [if_neg (not_not_intro hsum), hleft, List.take_left, List.drop_left,
    if_neg (Nat.lt_irrefl _)]
  rfl

theorem extract_append_chunk (h : block.StandsAt content place) (hplace : place ≤ content.size) :
    content.extract 0 place ++ (content.extract block.start (block.start + block.length)).toList =
      content.extract 0 (place + block.length) := by
  have hstop := h.pieces.stop_le hplace
  apply Array.toList_inj.mp
  rw [h.start_eq, Array.toList_appendList, ← Array.toList_append, Array.extract_append_extract,
    Nat.min_eq_left (Nat.zero_le _), Nat.max_eq_right (Nat.le_add_right _ _)]

/-- A block that may be written as its bytes are is written as bits that read as these bytes, where
the bits that follow end with a byte. -/
theorem exists_stored (h : block.StandsAt content place) (hplace : place ≤ content.size)
    (hnear : block.isNear = true) {sink : BitSink} {front : List Bool} (hsink : sink.Holds front) :
    ∃ bits, (block.putStored content sink).Holds (front ++ (bitsOf 2 0 ++ bits)) ∧
      ∀ fuel source rest, (front.length + 2 + bits.length + rest.length) % 8 = 0 →
        BitSource.At source (bits ++ rest) →
        ∃ source', readBlock fuel 0 source (content.extract 0 place) =
          .ok (source', content.extract 0 (place + block.length)) ∧ source'.At rest := by
  obtain ⟨chunk, hchunk⟩ : ∃ chunk,
      chunk = (content.extract block.start (block.start + block.length)).toList := ⟨_, rfl⟩
  obtain ⟨pad, hpad⟩ : ∃ pad, pad = BitSink.padding (front ++ bitsOf 2 0) := ⟨_, rfl⟩
  have haligned := BitSink.length_append_padding (front ++ bitsOf 2 0)
  have hpadLength : pad.length < 8 := by
    rw [hpad, BitSink.padding, List.length_replicate]
    omega
  have hheld := ((hsink.putBits (by decide : 0 < 2 ^ 2)).align).putBytes haligned (stored chunk)
  rw [← hpad] at haligned hheld
  refine ⟨pad ++ bitsOfBytes (stored chunk), ?_, ?_⟩
  · rw [putStored, ← hchunk, ← List.append_assoc, ← List.append_assoc]
    exact hheld
  · intro fuel source rest hfull hsource
    have hshort : chunk.length ≤ maxStored := by
      have hle := h.short hnear
      rw [hchunk, Array.length_toList, Array.size_extract]
      omega
    rw [List.append_assoc] at hsource
    have hbits := length_bitsOfBytes (stored chunk)
    rw [List.length_append, List.length_append, length_bitsOf] at haligned
    rw [List.length_append] at hfull
    obtain ⟨source', hread, h'⟩ := readStored_stored hshort hpadLength (by omega) hsource
      (content.extract 0 place)
    refine ⟨source', ?_, h'⟩
    rw [readBlock, hread, hchunk, extract_append_chunk h hplace]

end Block

/-! ## Streams -/

/-- A block is read after its mark and its kind. -/
theorem readBlocks_block {kind fuel : Nat} (hkind : kind < 4) {bits rest : List Bool}
    {out found : Array UInt8}
    (hread : ∀ source, BitSource.At source (bits ++ rest) → ∃ source',
      readBlock (fuel + 1) kind source out = .ok (source', found) ∧ source'.At rest)
    (last : Bool) {source : BitSource}
    (hsource : source.At (bitsOf 1 last.toNat ++ (bitsOf 2 kind ++ bits) ++ rest)) :
    ∃ source', readBlocks (fuel + 1) source out =
      (if last then .ok found else readBlocks fuel source' found) ∧ source'.At rest := by
  have hlast := Bool.toNat_lt last
  have hlow : bitsOf 1 (last.toNat + 2 * kind) = bitsOf 1 last.toNat := by
    rw [bitsOf, bitsOf, Nat.add_mul_mod_self_left]
    rfl
  have hhigh : (last.toNat + 2 * kind) / 2 = kind := by omega
  have hheader : bitsOf 3 (last.toNat + 2 * kind) = bitsOf 1 last.toNat ++ bitsOf 2 kind := by
    have hbits := bitsOf_add 1 2 (last.toNat + 2 * kind)
    rwa [hlow, Nat.pow_one, hhigh] at hbits
  have hmark : (last.toNat + 2 * kind) % 2 = 1 ↔ last = true := by
    rw [Nat.add_mul_mod_self_left]
    cases last <;> decide
  rw [← List.append_assoc, ← hheader, List.append_assoc] at hsource
  obtain ⟨source₁, htake, h₁⟩ :=
    readsBits_takeBits (by omega : last.toNat + 2 * kind < 2 ^ 3) source _ hsource
  obtain ⟨source₂, hblock, h₂⟩ := hread source₁ h₁
  refine ⟨source₂, ?_, h₂⟩
  simp only [readBlocks, htake, hhigh, hblock, hmark]

namespace Block

variable {block : Block} {content : Array UInt8} {place : Nat}

/-- A block is written as bits that read as the block, where the bits that follow end with a byte. -/
theorem exists_put (h : block.StandsAt content place) (hplace : place ≤ content.size) (last : Bool)
    {sink : BitSink} {front : List Bool} (hsink : sink.Holds front) :
    ∃ bits, bits ≠ [] ∧ (block.put content last sink).Holds (front ++ bits) ∧
      ∀ fuel source rest, bits.length ≤ fuel → (front.length + bits.length + rest.length) % 8 = 0 →
        BitSource.At source (bits ++ rest) → ∃ source',
          readBlocks (fuel + 1) source (content.extract 0 place) =
            (if last then .ok (content.extract 0 (place + block.length))
              else readBlocks fuel source' (content.extract 0 (place + block.length))) ∧
          source'.At rest := by
  have hlast : last.toNat < 2 ^ 1 := Bool.toNat_lt last
  have hmark := hsink.putBits hlast
  obtain ⟨before, tail, hsplit, hfull, htail, happend⟩ := hmark.append
  have hlength := congrArg List.length hsplit
  rw [List.length_append, List.length_append, length_bitsOf] at hlength
  by_cases hstored : (block.isNear && mostAlwaysPacked < block.length && block.length ≤
      (block.putPacked (sink.putBits 1 last.toNat).remainder).bytes.size + 1) = true
  · have hnear : block.isNear = true := by
      rw [Bool.and_eq_true, Bool.and_eq_true] at hstored
      exact hstored.1.1
    obtain ⟨bits, hput, hread⟩ := exists_stored h hplace hnear htail
    refine ⟨bitsOf 1 last.toNat ++ (bitsOf 2 0 ++ bits), by simp [bitsOf], ?_, ?_⟩
    · rw [put, if_pos hstored, ← List.append_assoc, hsplit, List.append_assoc]
      exact happend _ _ hput
    · intro fuel source rest hfuel haligned hsource
      refine readBlocks_block (by decide) (fun source hsource => ?_) last hsource
      simp only [List.length_append, length_bitsOf] at haligned
      exact hread _ source rest (by omega) hsource
  · obtain ⟨kind, hkind, bits, hpieces, hput, hread⟩ := exists_isPackedAs h
    refine ⟨bitsOf 1 last.toNat ++ (bitsOf 2 kind ++ bits), by simp [bitsOf], ?_, ?_⟩
    · rw [put, if_neg hstored, ← List.append_assoc, hsplit, List.append_assoc]
      exact happend _ _ (hput _ _ htail)
    · intro fuel source rest hfuel haligned hsource
      refine readBlocks_block hkind (fun source hsource => ?_) last hsource
      simp only [List.length_append, length_bitsOf] at hfuel
      exact hread _ source rest (by omega) hsource

/-- Blocks that stand one behind the other are written as bits that read as the content between. -/
theorem StandAll.reads {blocks : List Block} {stop : Nat} (h : StandAll content place blocks stop)
    (hplace : place ≤ content.size) (hne : blocks ≠ []) {sink : BitSink} {front : List Bool}
    (hsink : sink.Holds front) :
    ∃ bits, (putBlocks content blocks sink).Holds (front ++ bits) ∧
      ∀ fuel source rest, bits.length < fuel → (front.length + bits.length + rest.length) % 8 = 0 →
        BitSource.At source (bits ++ rest) →
        readBlocks fuel source (content.extract 0 place) = .ok (content.extract 0 stop) := by
  induction h generalizing sink front with
  | nil => exact absurd rfl hne
  | cons h hrest ih =>
    rename_i place stop block blocks
    cases blocks with
    | nil =>
      cases hrest
      obtain ⟨bits, _, hput, hread⟩ := exists_put h hplace true hsink
      refine ⟨bits, hput, fun fuel source rest hfuel haligned hsource => ?_⟩
      obtain ⟨fuel, rfl⟩ := Nat.exists_eq_add_one.mpr (Nat.zero_lt_of_lt hfuel)
      obtain ⟨_, hblock, _⟩ := hread fuel source rest (Nat.le_of_lt_succ hfuel) haligned hsource
      rw [hblock, if_pos rfl]
    | cons next blocks =>
      obtain ⟨bits, hpos, hput, hread⟩ := exists_put h hplace false hsink
      have hstop := h.pieces.stop_le hplace
      obtain ⟨more, hputRest, hreadRest⟩ := ih hstop (List.cons_ne_nil _ _) hput
      refine ⟨bits ++ more, ?_, ?_⟩
      · rw [← List.append_assoc]
        exact hputRest
      · intro fuel source rest hfuel haligned hsource
        rw [List.length_append] at hfuel haligned
        have hlength := List.length_pos_iff.mpr hpos
        obtain ⟨fuel, rfl⟩ := Nat.exists_eq_add_one.mpr (Nat.zero_lt_of_lt hfuel)
        rw [List.append_assoc] at hsource
        obtain ⟨source', hblock, h'⟩ := hread fuel source (more ++ rest) (by omega)
          (by rw [List.length_append]; omega) hsource
        rw [hblock, if_neg Bool.false_ne_true]
        exact hreadRest fuel source' rest (by omega) (by rw [List.length_append]; omega) h'

end Block

/-! ## Content -/

/-- What is compressed reads back. -/
theorem inflate_deflate (content : Bytes) : inflate (deflate content) = .ok content := by
  obtain ⟨hblocks, hne⟩ := Block.standAll_ofContent content
  obtain ⟨bits, hput, hread⟩ := hblocks.reads (Nat.zero_le _) hne BitSink.holds_empty
  rw [List.nil_append] at hput
  have hfull := BitSink.length_append_padding bits
  have hbytes : bits ++ BitSink.padding bits = bitsOfBytes (deflate content) :=
    hput.align.bits_eq hfull
  have hlength := congrArg List.length hbytes
  rw [length_bitsOfBytes, List.length_append] at hlength
  rw [List.length_append] at hfull
  have hread := hread (8 * (deflate content).length + 1) (.ofBytes (deflate content)) _ (by omega)
    (by rw [List.length_nil, Nat.zero_add]; exact hfull) (hbytes ▸ BitSource.at_ofBytes _)
  have hnone : content.toArray.extract 0 0 = #[] := Array.extract_empty_of_stop_le_start (Nat.le_refl 0)
  have hall : content.toArray.extract 0 content.length = content.toArray := Array.extract_size
  rw [hnone, hall] at hread
  rw [inflate, hread]
  rfl

namespace Entry

theorem unpack_deflate (content : Bytes) :
    unpack deflatedMethod (deflate content) = .ok content := by
  rw [unpack, if_neg (by decide), if_pos rfl, inflate_deflate]

@[simp] theorem content_ofContent (name : String) (content : Bytes) :
    (ofContent name content).content = .ok content := by
  have hunpack : unpack (ofContent name content).method (ofContent name content).data =
      .ok content := unpack_deflate content
  have hchecksum : checksum content = (ofContent name content).checksum := rfl
  rw [Entry.content, if_neg (show ¬ (ofContent name content).locked = true from Bool.false_ne_true),
    hunpack]
  simp only [if_pos hchecksum]

theorem locked_eq_false_of_content {entry : Entry} {content : Bytes}
    (h : entry.content = .ok content) : entry.locked = false := by
  cases hlocked : entry.locked with
  | false => rfl
  | true =>
    rw [Entry.content, if_pos hlocked] at h
    cases h

/-- A copy has the content of the entry, if there is any. -/
theorem content_copied {entry : Entry} {content : Bytes} (h : entry.content = .ok content) :
    entry.copied.content = .ok content := by
  have hcopied : ({ entry.copied with locked := entry.locked } : Entry).content = entry.content :=
    rfl
  rw [← h, ← hcopied, locked_eq_false_of_content h]
  rfl

end Entry

end JarText.Zip
