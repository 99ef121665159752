import JarText.Proofs.ContentPieces
import JarText.Proofs.StatedLengths

/-!
# How much space compressed content takes

Each word of a block's codes has sixteen bits at most, so a piece takes a bounded number of bits, and
so do the codes that a block states. Each piece stands for a byte at least, and each step of a
division ends no more than one block. So compressed content takes no more than a thousand times the
space of the content: `length_deflate_le`. The bound is a loose one, but it holds of all content
without trying.
-/

set_option autoImplicit false

namespace JarText.Zip

/-! ## Bits that a sink takes -/

/-- A word of no more bits. -/
def Word.Within (bits : Nat) (word : Word) : Prop := 0 < word.size ∧ word.size ≤ 2 ^ bits

theorem Word.within_nothing (bits : Nat) : Word.nothing.Within bits :=
  ⟨Nat.one_pos, Nat.one_le_two_pow⟩

namespace BitSink

def load (sink : BitSink) : Nat := sink.weight * 256 ^ sink.bytes.size

/-- No more bits were put in a sink. -/
def Adds (bits : Nat) (sink sink' : BitSink) : Prop :=
  0 < sink.weight → 0 < sink'.weight ∧ sink'.load ≤ 2 ^ bits * sink.load

variable {bits more : Nat} {sink sink' sink'' : BitSink}

theorem Adds.refl (sink : BitSink) : Adds 0 sink sink := by
  intro hpos
  refine ⟨hpos, ?_⟩
  rw [Nat.pow_zero, Nat.one_mul]

theorem Adds.trans (h : Adds bits sink sink') (h' : Adds more sink' sink'') :
    Adds (bits + more) sink sink'' := by
  intro hpos
  obtain ⟨hpos', hload⟩ := h hpos
  obtain ⟨hpos'', hload'⟩ := h' hpos'
  refine ⟨hpos'', ?_⟩
  calc sink''.load ≤ 2 ^ more * sink'.load := hload'
    _ ≤ 2 ^ more * (2 ^ bits * sink.load) := Nat.mul_le_mul_left _ hload
    _ = 2 ^ (bits + more) * sink.load := by rw [Nat.pow_add]; ring

theorem Adds.mono (h : Adds bits sink sink') (hle : bits ≤ more) : Adds more sink sink' := by
  intro hpos
  obtain ⟨hpos', hload⟩ := h hpos
  exact ⟨hpos', hload.trans (Nat.mul_le_mul_right _ (Nat.pow_le_pow_right (by decide) hle))⟩

theorem settle_spec (bytes : Array UInt8) (pending : Nat) {weight : Nat} (hpos : 0 < weight) :
    0 < (settle bytes pending weight).weight ∧ (settle bytes pending weight).weight < 256 ∧
      (settle bytes pending weight).load ≤ weight * 256 ^ bytes.size := by
  induction bytes, pending, weight using settle.induct with
  | case1 bytes pending weight hfull ih =>
    obtain ⟨hpos', hlt, hload⟩ := ih (by omega)
    rw [settle, if_pos hfull]
    refine ⟨hpos', hlt, hload.trans ?_⟩
    rw [Array.size_push, Nat.pow_succ, Nat.mul_comm (256 ^ bytes.size), ← Nat.mul_assoc]
    exact Nat.mul_le_mul_right _ (Nat.div_mul_le_self weight 256)
  | case2 bytes pending weight hfull =>
    rw [settle, if_neg hfull]
    exact ⟨hpos, Nat.not_le.mp hfull, Nat.le_refl _⟩

theorem adds_put {word : Word} (h : word.Within bits) (sink : BitSink) :
    Adds bits sink (sink.put word) := by
  intro hpos
  obtain ⟨hpos', _, hload⟩ := settle_spec sink.bytes (sink.pending + word.value * sink.weight)
    (Nat.mul_pos hpos h.1)
  refine ⟨hpos', hload.trans ?_⟩
  rw [load, Nat.mul_comm sink.weight, Nat.mul_assoc]
  exact Nat.mul_le_mul_right _ h.2

theorem weight_put_lt {word : Word} (hpos : 0 < sink.weight) (hword : 0 < word.size) :
    (sink.put word).weight < 256 :=
  (settle_spec sink.bytes (sink.pending + word.value * sink.weight) (Nat.mul_pos hpos hword)).2.1

theorem adds_putBits (sink : BitSink) (width value : Nat) :
    Adds width sink (sink.putBits width value) :=
  adds_put ⟨Nat.two_pow_pos width, Nat.le_refl _⟩ sink

theorem adds_align (sink : BitSink) : Adds 8 sink sink.align := by
  intro hpos
  rw [align]
  split
  · refine ⟨hpos, ?_⟩
    exact Nat.le_mul_of_pos_left _ (by decide)
  · refine ⟨Nat.one_pos, ?_⟩
    simp only [load, Array.size_push, Nat.pow_succ, Nat.one_mul]
    rw [Nat.mul_comm, ← Nat.mul_assoc]
    exact Nat.mul_le_mul_right _ (by omega)

theorem adds_putBytes (sink : BitSink) (bytes : Bytes) :
    Adds (8 * bytes.length) sink (sink.putBytes bytes) := by
  intro hpos
  refine ⟨hpos, ?_⟩
  have hsize : (sink.bytes ++ bytes).size = sink.bytes.size + bytes.length := by
    rw [← Array.length_toList, Array.toList_appendList, List.length_append, Array.length_toList]
  have hpow : (256 : Nat) ^ bytes.length = 2 ^ (8 * bytes.length) := by
    rw [Nat.pow_mul]
  simp only [load, putBytes, hsize, Nat.pow_add, hpow]
  exact Nat.le_of_eq (by ring)

/-- What goes on from the remainder of a sink adds as much to the sink. -/
theorem Adds.append {rest : BitSink} (h : Adds bits sink.remainder rest) :
    Adds bits sink (sink.append rest) := by
  intro hpos
  obtain ⟨hpos', hload⟩ := h hpos
  refine ⟨hpos', ?_⟩
  simp only [load, remainder, BitSink.append, Array.size_append, Nat.pow_add, List.size_toArray,
    List.length_nil, Nat.pow_zero, Nat.mul_one] at hload ⊢
  calc rest.weight * (256 ^ sink.bytes.size * 256 ^ rest.bytes.size) =
        256 ^ sink.bytes.size * (rest.weight * 256 ^ rest.bytes.size) := by ring
    _ ≤ 256 ^ sink.bytes.size * (2 ^ bits * sink.weight) := Nat.mul_le_mul_left _ hload
    _ = 2 ^ bits * (sink.weight * 256 ^ sink.bytes.size) := by ring

theorem adds_foldl {α : Type} {step : BitSink → α → BitSink} {items : List α}
    (h : ∀ item ∈ items, ∀ sink, Adds bits sink (step sink item)) (sink : BitSink) :
    Adds (bits * items.length) sink (items.foldl step sink) := by
  induction items generalizing sink with
  | nil => exact .refl sink
  | cons item items ih =>
    obtain ⟨hitem, hitems⟩ := List.forall_mem_cons.mp h
    rw [List.length_cons, Nat.mul_succ, Nat.add_comm]
    exact (hitem sink).trans (ih hitems (step sink item))

/-- A sink that began with less than a byte has no more full bytes than bits were added. -/
theorem Adds.size_le (h : Adds bits sink sink') (hpos : 0 < sink.weight) (hlt : sink.weight < 256)
    (hempty : sink.bytes.size = 0) : 8 * sink'.bytes.size ≤ bits + 8 := by
  obtain ⟨hpos', hload⟩ := h hpos
  have hpow : 2 ^ (8 * sink'.bytes.size) ≤ 2 ^ (bits + 8) := by
    calc 2 ^ (8 * sink'.bytes.size) = 256 ^ sink'.bytes.size := by rw [Nat.pow_mul]
      _ ≤ sink'.load := Nat.le_mul_of_pos_left _ hpos'
      _ ≤ 2 ^ bits * sink.load := hload
      _ ≤ 2 ^ bits * 2 ^ 8 := by
        apply Nat.mul_le_mul_left
        rw [load, hempty]
        omega
      _ = 2 ^ (bits + 8) := (Nat.pow_add 2 bits 8).symm
  exact (Nat.pow_le_pow_iff_right (by decide)).mp hpow

end BitSink

/-! ## Words of a code -/

namespace PrefixCode

/-- The most bits of a word. -/
def depth : PrefixCode → Nat
  | unused => 0
  | symbol _ => 0
  | branch zero one => max zero.depth one.depth + 1

theorem within_of_mem_wordsFrom {code : PrefixCode} {word : Word} {item : Nat × Word}
    {bits : Nat} (hword : word.Within bits) (h : item ∈ code.wordsFrom word) :
    item.2.Within (bits + code.depth) := by
  induction code generalizing word bits with
  | unused => cases h
  | symbol value =>
    rw [wordsFrom, List.mem_singleton] at h
    rw [h]
    exact hword
  | branch zero one ihzero ihone =>
    have htwice (value : Nat) : (⟨2 * word.size, value⟩ : Word).Within (bits + 1) := by
      obtain ⟨hpos, hle⟩ := hword
      rw [Word.Within, Nat.pow_succ]
      dsimp only
      omega
    have hmono {left right : Nat} (hle : left ≤ right) (h : item.2.Within (bits + 1 + left)) :
        item.2.Within (bits + (right + 1)) :=
      ⟨h.1, h.2.trans (Nat.pow_le_pow_right (by decide) (by omega))⟩
    rw [depth]
    rcases List.mem_append.mp h with hmem | hmem
    · exact hmono (Nat.le_max_left _ _) (ihzero (htwice _) hmem)
    · exact hmono (Nat.le_max_right _ _) (ihone (htwice _) hmem)

theorem depth_of_mem_pairs {trees : List PrefixCode} {bound : Nat}
    (h : ∀ tree ∈ trees, tree.depth ≤ bound) : ∀ tree ∈ pairs trees, tree.depth ≤ bound + 1 := by
  induction trees using pairs.induct with
  | case1 => exact List.forall_mem_nil _
  | case2 tree =>
    have htree := h tree List.mem_cons_self
    intro found hfound
    rw [pairs, List.mem_singleton] at hfound
    rw [hfound, depth, depth]
    omega
  | case3 zero one rest ih =>
    have hzero := h zero List.mem_cons_self
    have hone := h one (List.mem_cons_of_mem _ List.mem_cons_self)
    intro found hfound
    rw [pairs] at hfound
    rcases List.mem_cons.mp hfound with rfl | hrest
    · rw [depth]
      omega
    · apply ih _ found hrest
      intro tree htree
      exact h tree (List.mem_cons_of_mem _ (List.mem_cons_of_mem _ htree))

theorem depth_of_mem_forest {words : List (Nat × Nat)} (levels : Nat) :
    ∀ tree ∈ forest words levels, tree.depth ≤ levels := by
  induction levels with
  | zero => exact List.forall_mem_nil _
  | succ levels ih =>
    intro tree htree
    rw [forest] at htree
    rcases List.mem_append.mp htree with hsymbol | hpair
    · obtain ⟨word, _, hword⟩ := List.mem_filterMap.mp hsymbol
      split at hword
      · obtain rfl := Option.some.inj hword
        exact Nat.zero_le _
      · cases hword
    · exact depth_of_mem_pairs ih tree hpair

theorem depth_ofLengths? {lengths : List Nat} {code : PrefixCode}
    (h : ofLengths? lengths = some code) : code.depth ≤ 16 := by
  rw [ofLengths?] at h
  split at h
  · obtain rfl := Option.some.inj h
    decide
  · rename_i tree htree
    obtain rfl := Option.some.inj h
    have hmem : tree ∈ pairs (forest (lengths.zipIdx.filter (·.1 ≠ 0)) maxLength) := by
      rw [htree]
      exact List.mem_cons_self
    exact depth_of_mem_pairs (depth_of_mem_forest maxLength) tree hmem
  · cases h

/-- Every word of a code is a short one. -/
def ShortWords (words : Array Word) : Prop := ∀ word ∈ words, word.Within 16

theorem ShortWords.getD {words : Array Word} (h : ShortWords words) (symbol : Nat) :
    (words.getD symbol .nothing).Within 16 := by
  rw [Array.getD_eq_getD_getElem?]
  cases hword : words[symbol]? with
  | none => exact Word.within_nothing 16
  | some word => exact h word (Array.mem_of_getElem? hword)

theorem shortWords_foldl {items : List (Nat × Word)} (hitems : ∀ item ∈ items, item.2.Within 16)
    {words : Array Word} (h : ShortWords words) :
    ShortWords (items.foldl (fun words item => words.setIfInBounds item.1 item.2) words) := by
  induction items generalizing words with
  | nil => exact h
  | cons item items ih =>
    obtain ⟨hitem, hrest⟩ := List.forall_mem_cons.mp hitems
    apply ih hrest
    intro word hword
    rcases Array.mem_or_eq_of_mem_setIfInBounds hword with hmem | rfl
    · exact h word hmem
    · exact hitem

theorem shortWords_words {lengths : List Nat} {code : PrefixCode}
    (h : ofLengths? lengths = some code) (count : Nat) : ShortWords (code.words count) := by
  have hdepth := depth_ofLengths? h
  apply shortWords_foldl
  · intro item hitem
    have hwithin := within_of_mem_wordsFrom (Word.within_nothing 0) hitem
    exact ⟨hwithin.1, hwithin.2.trans (Nat.pow_le_pow_right (by decide) (by omega))⟩
  · intro word hword
    rw [Array.mem_replicate] at hword
    rw [hword.2]
    exact Word.within_nothing 16

end PrefixCode

/-! ## Pieces -/

namespace BitSink

open PrefixCode (ShortWords)

theorem adds_putSymbol {words : Array Word} (h : ShortWords words) (sink : BitSink) (symbol : Nat) :
    Adds 16 sink (sink.putSymbol words symbol) :=
  adds_put (h.getD symbol) sink

theorem extra_lengthRanges : ∀ range ∈ lengthRanges, range.2 ≤ 13 := by
  decide

theorem extra_distanceRanges : ∀ range ∈ distanceRanges, range.2 ≤ 13 := by
  decide

theorem adds_putOffset {ranges : Array (Nat × Nat)} (h : ∀ range ∈ ranges, range.2 ≤ 13)
    (sink : BitSink) (n : Nat) : Adds 13 sink (sink.putOffset ranges n) := by
  rw [putOffset]
  split
  · exact (Adds.refl sink).mono (by decide)
  · rename_i base extra hrange
    split
    · exact (Adds.refl sink).mono (by decide)
    · exact (adds_putBits sink extra _).mono (h (base, extra) (Array.mem_of_getElem? hrange))

def pieceBits : Nat := 16 + 13 + 16 + 13

theorem adds_putPiece {words : BlockWords} (hliteral : ShortWords words.literal)
    (hdistance : ShortWords words.distance) (piece : Piece) (sink : BitSink) :
    Adds pieceBits sink (putPiece words sink piece) := by
  cases piece with
  | literal byte => exact (adds_putSymbol hliteral sink byte.toNat).mono (by decide)
  | copy copy =>
    exact (((adds_putSymbol hliteral sink _).trans (adds_putOffset extra_lengthRanges _ _)).trans
      (adds_putSymbol hdistance _ _)).trans (adds_putOffset extra_distanceRanges _ _)

theorem adds_putPieces {words : BlockWords} (hliteral : ShortWords words.literal)
    (hdistance : ShortWords words.distance) (pieces : List Piece) (sink : BitSink) :
    Adds (pieceBits * pieces.length + 16) sink (sink.putPieces words pieces) :=
  (adds_foldl (fun piece _ => adds_putPiece hliteral hdistance piece) sink).trans
    (adds_putSymbol hliteral _ _)

end BitSink

theorem shortWords_words? {lengths : BlockLengths} {words : BlockWords}
    (h : lengths.words? = some words) :
    PrefixCode.ShortWords words.literal ∧ PrefixCode.ShortWords words.distance := by
  simp only [BlockLengths.words?, Option.bind_eq_bind, Option.bind_eq_some_iff] at h
  obtain ⟨literal, hliteral, distance, hdistance, hwords⟩ := h
  obtain rfl := Option.some.inj hwords
  exact ⟨PrefixCode.shortWords_words hliteral _, PrefixCode.shortWords_words hdistance _⟩

/-! ## The lengths that a block states -/

namespace LengthItem

theorem length_zeros_le (count : Nat) : (zeros count).length ≤ count := by
  have hdiv := Nat.div_add_mod count 138
  rw [zeros]
  rw [List.length_append, List.length_replicate]
  split
  · rw [List.length_replicate]
    omega
  · split <;> rw [List.length_singleton] <;> omega

theorem length_again_le (length count : Nat) : (again length count).length ≤ count := by
  have hdiv := Nat.div_add_mod count 6
  rw [again]
  rw [List.length_append, List.length_replicate]
  split
  · rw [List.length_replicate]
    omega
  · rw [List.length_singleton]
    omega

theorem width_of_mem_zeros {count : Nat} {item : LengthItem} (h : item ∈ zeros count) :
    item.width ≤ 7 := by
  rw [zeros] at h
  rcases List.mem_append.mp h with hmem | hmem
  · rw [(List.mem_replicate.mp hmem).2]
  · split at hmem
    · rw [(List.mem_replicate.mp hmem).2]
      decide
    · split at hmem
      · rw [List.mem_singleton.mp hmem]
        exact Nat.le_of_ble_eq_true rfl
      · rw [List.mem_singleton.mp hmem]

theorem width_of_mem_again {length count : Nat} {item : LengthItem} (h : item ∈ again length count) :
    item.width ≤ 7 := by
  rw [again] at h
  rcases List.mem_append.mp h with hmem | hmem
  · rw [(List.mem_replicate.mp hmem).2]
    decide
  · split at hmem
    · rw [(List.mem_replicate.mp hmem).2]
      exact Nat.zero_le _
    · rw [List.mem_singleton.mp hmem]
      exact Nat.le_of_ble_eq_true rfl

theorem length_ofRun_le (run : List Nat) : (ofRun run).length ≤ run.length := by
  match run with
  | [] => exact Nat.le_refl _
  | 0 :: rest => exact length_zeros_le (rest.length + 1)
  | (length + 1) :: rest =>
    rw [ofRun, List.length_cons, List.length_cons]
    · exact Nat.succ_le_succ (length_again_le (length + 1) rest.length)
    · exact Nat.succ_ne_zero length

theorem width_of_mem_ofRun {run : List Nat} {item : LengthItem} (h : item ∈ ofRun run) :
    item.width ≤ 7 := by
  match run with
  | [] => cases h
  | 0 :: rest => exact width_of_mem_zeros h
  | (length + 1) :: rest =>
    rw [ofRun] at h
    · rcases List.mem_cons.mp h with rfl | hrest
      · exact Nat.zero_le _
      · exact width_of_mem_again hrest
    · exact Nat.succ_ne_zero length

theorem length_flatMap_le {α β : Type} {f : List α → List β} (h : ∀ as, (f as).length ≤ as.length)
    (runs : List (List α)) : (runs.flatMap f).length ≤ runs.flatten.length := by
  induction runs with
  | nil => exact Nat.le_refl _
  | cons run runs ih =>
    have hrun := h run
    rw [List.flatMap_cons, List.flatten_cons, List.length_append, List.length_append]
    omega

theorem length_ofLengths_le (lengths : List Nat) : (ofLengths lengths).length ≤ lengths.length := by
  have hle := length_flatMap_le length_ofRun_le (lengths.splitBy (· == ·))
  rwa [List.flatten_splitBy] at hle

end LengthItem

namespace BitSink

theorem adds_putItem {words : Array Word} (h : PrefixCode.ShortWords words) {item : LengthItem}
    (hwidth : item.width ≤ 7) (sink : BitSink) : Adds 23 sink (putItem words sink item) := by
  rw [putItem]
  split
  · exact (adds_putSymbol h sink item.symbol).mono (by decide)
  · exact ((adds_putSymbol h sink item.symbol).trans (adds_putBits _ _ _)).mono (by omega)

/-- The bits of the lengths that a block states, if there are so many lengths. -/
def lengthBits (count : Nat) : Nat := 5 + 5 + 4 + 3 * 19 + 23 * count

theorem adds_putLengths (sink : BitSink) (lengths : BlockLengths) :
    Adds (lengthBits (lengths.literal.length + lengths.distance.length)) sink
      (sink.putLengths lengths) := by
  obtain ⟨literal, hliteral⟩ : ∃ literal,
      literal = BlockLengths.trimmed firstLengthSymbol lengths.literal := ⟨_, rfl⟩
  obtain ⟨distance, hdistance⟩ : ∃ distance,
      distance = BlockLengths.trimmed 1 lengths.distance := ⟨_, rfl⟩
  have hlengths : (literal ++ distance).length ≤
      lengths.literal.length + lengths.distance.length := by
    rw [List.length_append, hliteral, hdistance]
    exact Nat.add_le_add (length_trimmed_le _ _) (length_trimmed_le _ _)
  have hitems := LengthItem.length_ofLengths_le (literal ++ distance)
  obtain ⟨items, hitemsEq⟩ : ∃ items, items = LengthItem.ofLengths (literal ++ distance) := ⟨_, rfl⟩
  obtain ⟨codeLengths, hcode⟩ : ∃ codeLengths, codeLengths = LengthItem.codeLengths items := ⟨_, rfl⟩
  obtain ⟨stated, hstated⟩ : ∃ stated, stated = BlockLengths.trimmed 4
      (BlockCodes.lengthOrder.map fun symbol => codeLengths[symbol]?.getD 0) := ⟨_, rfl⟩
  have hcount : stated.length ≤ 19 := by
    have hle := length_trimmed_le 4
      (BlockCodes.lengthOrder.map fun symbol => codeLengths[symbol]?.getD 0)
    rwa [← hstated, List.length_map] at hle
  have hwidth : ∀ item ∈ items, item.width ≤ 7 := by
    intro item hitem
    rw [hitemsEq] at hitem
    obtain ⟨run, _, hrun⟩ := List.mem_flatMap.mp hitem
    exact LengthItem.width_of_mem_ofRun hrun
  rw [← hitemsEq] at hitems
  have hnumbers := (((adds_putBits sink 5 (literal.length - firstLengthSymbol)).trans
    (adds_putBits _ 5 (distance.length - 1))).trans (adds_putBits _ 4 (stated.length - 4))).trans
    (adds_foldl (fun length (_ : length ∈ stated) sink => adds_putBits sink 3 length) _)
  rw [putLengths, ← hliteral, ← hdistance, ← hitemsEq, ← hcode, ← hstated]
  split
  · refine hnumbers.mono ?_
    rw [lengthBits]
    omega
  · rename_i code hfound
    have hwords := PrefixCode.shortWords_words hfound 19
    refine (hnumbers.trans (adds_foldl
      (fun item hitem sink => adds_putItem hwords (hwidth item hitem) sink) _)).mono ?_
    rw [lengthBits]
    omega

end BitSink

/-! ## Blocks -/

namespace Block

open BitSink (Adds)

/-- The bits of a block in pieces, without those of its pieces. -/
def packedBits : Nat := 2 + BitSink.lengthBits (286 + 30) + 16

theorem adds_putWith (lengths : BlockLengths) (pieces : List Piece) (sink : BitSink) :
    Adds (BitSink.pieceBits * pieces.length + 16) sink
      (match lengths.words? with
      | none => sink
      | some words => sink.putPieces words pieces) := by
  cases hwords : lengths.words? with
  | none => exact (Adds.refl sink).mono (Nat.zero_le _)
  | some words =>
    obtain ⟨hliteral, hdistance⟩ := shortWords_words? hwords
    exact BitSink.adds_putPieces hliteral hdistance pieces sink

theorem adds_putPacked (block : Block) (sink : BitSink) :
    Adds (packedBits + BitSink.pieceBits * block.pieces.length) sink (block.putPacked sink) := by
  rw [putPacked]
  dsimp only
  split
  · refine ((BitSink.adds_putBits sink 2 1).trans (adds_putWith .fixed _ _)).mono ?_
    rw [packedBits]
    omega
  · have hlengths := BitSink.adds_putLengths (sink.putBits 2 2) (BlockLengths.ofPieces block.pieces)
    rw [BlockLengths.length_literal_ofPieces, BlockLengths.length_distance_ofPieces] at hlengths
    refine (((BitSink.adds_putBits sink 2 2).trans hlengths).trans (adds_putWith _ _ _)).mono ?_
    rw [packedBits]
    omega

theorem adds_putStored (content : Array UInt8) (block : Block) (sink : BitSink) :
    Adds (2 + 8 + 8 * (4 + block.length)) sink (block.putStored content sink) := by
  have hlength : (stored (content.extract block.start (block.start + block.length)).toList).length ≤
      4 + block.length := by
    rw [stored, List.length_append, List.length_append, Bytes.length_littleEndian,
      Bytes.length_littleEndian, Array.length_toList, Array.size_extract]
    omega
  rw [putStored]
  exact (((BitSink.adds_putBits sink 2 0).trans (BitSink.adds_align _)).trans
    (BitSink.adds_putBytes _ _)).mono (by omega)

/-- The bits of a block, without those of its pieces. -/
def blockBits : Nat := 1 + 2 + 8 + 8 * 6 + packedBits

theorem adds_put (content : Array UInt8) (last : Bool) (sink : BitSink) (block : Block) :
    Adds (blockBits + BitSink.pieceBits * block.pieces.length) sink (block.put content last sink) := by
  intro hpos
  obtain ⟨first, hfirst⟩ : ∃ first, first = sink.putBits 1 last.toNat := ⟨_, rfl⟩
  obtain ⟨packed, hpacked⟩ : ∃ packed, packed = block.putPacked first.remainder := ⟨_, rfl⟩
  have hfirstAdds : Adds 1 sink first := hfirst ▸ BitSink.adds_putBits sink 1 last.toNat
  have hpackedAdds : Adds (packedBits + BitSink.pieceBits * block.pieces.length) first.remainder
      packed := hpacked ▸ adds_putPacked block first.remainder
  have hlt : first.weight < 256 := by
    rw [hfirst]
    exact BitSink.weight_put_lt hpos (Nat.two_pow_pos 1)
  have hsize := hpackedAdds.size_le (hfirstAdds hpos).1 hlt rfl
  have hput : Adds (blockBits + BitSink.pieceBits * block.pieces.length) sink
      (block.put content last sink) := by
    rw [put, ← hfirst, ← hpacked]
    split
    · rename_i hnear
      have hlength : block.length ≤ packed.bytes.size + 1 := by
        rw [Bool.and_eq_true, decide_eq_true_eq] at hnear
        exact hnear.2
      refine (hfirstAdds.trans (adds_putStored content block first.remainder).append).mono ?_
      rw [blockBits]
      omega
    · refine (hfirstAdds.trans hpackedAdds.append).mono ?_
      rw [blockBits]
      omega
  exact hput hpos

end Block

theorem adds_putBlocks (content : Array UInt8) (blocks : List Block) (sink : BitSink) :
    BitSink.Adds (Block.blockBits * blocks.length
      + BitSink.pieceBits * (blocks.map (·.pieces.length)).sum) sink
      (putBlocks content blocks sink) := by
  induction blocks generalizing sink with
  | nil => exact .refl sink
  | cons block blocks ih =>
    have hsum : Block.blockBits + BitSink.pieceBits * block.pieces.length
        + (Block.blockBits * blocks.length
          + BitSink.pieceBits * (blocks.map (·.pieces.length)).sum) =
        Block.blockBits * (block :: blocks).length
          + BitSink.pieceBits * ((block :: blocks).map (·.pieces.length)).sum := by
      rw [List.length_cons, List.map_cons, List.sum_cons]
      ring
    rw [← hsum]
    cases blocks with
    | nil => exact (Block.adds_put content true sink block).mono (Nat.le_add_right _ _)
    | cons next rest => exact (Block.adds_put content false sink block).trans (ih _)

/-! ## Counting pieces and blocks -/

theorem Piece.Fits.length_pos {piece : Piece} (h : piece.Fits) : 1 ≤ piece.length := by
  cases piece with
  | literal byte => exact Nat.le_refl 1
  | copy bytes => exact Nat.le_trans (by decide) h.1.1

theorem Piece.StandAll.length_le {content : Array UInt8} {place stop : Nat} {pieces : List Piece}
    (h : StandAll content place pieces stop) : place + pieces.length ≤ stop := by
  induction h with
  | nil => exact Nat.le_refl _
  | cons h _ ih =>
    have hpos := h.fits.length_pos
    rw [List.length_cons]
    omega

theorem Block.StandAll.sum_length_le {content : Array UInt8} {place stop : Nat}
    {blocks : List Block} (h : StandAll content place blocks stop) :
    place + (blocks.map (·.pieces.length)).sum ≤ stop := by
  induction h with
  | nil => exact Nat.le_refl _
  | cons h _ ih =>
    have hpieces := h.pieces.length_le
    rw [List.map_cons, List.sum_cons]
    omega

namespace Division

theorem length_blocks_advance (history : History) (division : Division) :
    (division.advance history).blocks.length ≤ division.blocks.length + 1 := by
  obtain ⟨pieces, left, passed, hstep⟩ : ∃ pieces left passed,
      step history division.place division.saved = (pieces, left, passed) := ⟨_, _, _, rfl⟩
  obtain ⟨count, copies, hpush⟩ := foldl_push pieces division
  rw [advance]
  simp only [hstep, hpush]
  split
  · exact Nat.le_refl _
  · exact Nat.le_succ _

theorem length_blocks_finish (history : History) (fuel : Nat) (division : Division) :
    (finish history fuel division).blocks.length ≤ division.blocks.length + fuel := by
  induction fuel generalizing division with
  | zero => exact Nat.le_refl _
  | succ fuel ih =>
    rw [finish]
    split
    · have hrest := ih (division.advance history)
      have hadvance := length_blocks_advance history division
      omega
    · exact Nat.le_add_right _ _

end Division

theorem Block.length_ofContent_le (content : Bytes) :
    (ofContent content).length ≤ content.length + 1 := by
  have hfinish := Division.length_blocks_finish (History.ofBytes content) content.length {}
  rw [ofContent, List.length_reverse, Division.close, List.length_cons]
  exact Nat.succ_le_succ (hfinish.trans (by rw [List.length_nil, Nat.zero_add]))

/-! ## Content -/

/-- Compressed content takes a bounded space. -/
theorem length_deflate_le (content : Bytes) :
    (deflate content).length ≤ 1000 * (content.length + 1) := by
  have hpieces := (Block.standAll_ofContent content).1.sum_length_le
  have hblocks := Block.length_ofContent_le content
  have hadds := (adds_putBlocks content.toArray (Block.ofContent content) .empty).trans
    (BitSink.adds_align _)
  have hsize := hadds.size_le Nat.one_pos (by decide) rfl
  have hblockBits : Block.blockBits = 7416 := by decide
  have hpieceBits : BitSink.pieceBits = 58 := by decide
  rw [deflate, Array.length_toList]
  rw [hblockBits, hpieceBits] at hsize
  omega

end JarText.Zip
