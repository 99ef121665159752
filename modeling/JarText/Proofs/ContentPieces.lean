import Mathlib
import JarText.Proofs.BlockPieces
import JarText.Zip.Deflate

/-!
# Pieces of content

A copy that is found at a place repeats the bytes that stand there (`History.standsAt_of_copyAt?`).
So each piece of a division makes of the content before it the content up to its end
(`Piece.StandsAt`). Every step of a division keeps that its pieces stand one behind the other, and
its blocks too (`Division.Covers`); in the end they cover the content (`Block.standAll_ofContent`).
-/

set_option autoImplicit false

namespace JarText.Zip

/-! ## Copies -/

/-- A copy that repeats the bytes at a place. -/
structure Copy.StandsAt (copy : Copy) (content : Array UInt8) (place : Nat) : Prop where
  least : 3 ≤ copy.length
  most : copy.length ≤ maxLength
  pos : 1 ≤ copy.distance
  near : copy.distance ≤ maxDistance
  back : copy.distance ≤ place
  inside : place + copy.length ≤ content.size
  same : ∀ i < copy.length, content.getD (place - copy.distance + i) 0 = content.getD (place + i) 0

section Copies

variable {content : Array UInt8} {place : Nat}

theorem push_extract {byte : UInt8} (hplace : place < content.size)
    (hbyte : content.getD place 0 = byte) :
    (content.extract 0 place).push byte = content.extract 0 (place + 1) := by
  rw [← hbyte, Array.getD_eq_getD_getElem?, Array.getElem?_eq_getElem hplace, Option.getD_some,
    Array.push_extract_getElem, Nat.zero_min]

theorem copyBack_extract {distance length : Nat} (hback : distance ≤ place) (hpos : 1 ≤ distance)
    (hinside : place + length ≤ content.size)
    (hsame : ∀ i < length, content.getD (place - distance + i) 0 = content.getD (place + i) 0) :
    copyBack distance length (content.extract 0 place) = content.extract 0 (place + length) := by
  induction length generalizing place with
  | zero => rfl
  | succ length ih =>
    have hsize : (content.extract 0 place).size = place := by
      rw [Array.size_extract]
      omega
    have hbyte : (content.extract 0 place).getD (place - distance) 0 = content.getD place 0 := by
      have hfirst := hsame 0 (Nat.succ_pos length)
      rw [Nat.add_zero, Nat.add_zero] at hfirst
      rw [← hfirst, Array.getD_eq_getD_getElem?, Array.getD_eq_getD_getElem?,
        Array.getElem?_extract, if_pos (by omega), Nat.zero_add]
    have hrest := ih (by omega : distance ≤ place + 1) (by omega) (by
      intro i hi
      have hnext := hsame (i + 1) (Nat.succ_lt_succ hi)
      rwa [show place - distance + (i + 1) = place + 1 - distance + i by omega,
        show place + (i + 1) = place + 1 + i by omega] at hnext)
    rw [copyBack, hsize, if_pos hback, hbyte, push_extract (by omega) rfl, hrest]
    congr 1
    omega

end Copies

namespace History

variable {history : History} {place : Nat}

theorem sameFrom_spec (history : History) (limit first second : Nat) :
    history.sameFrom limit first second ≤ limit ∧ ∀ i < history.sameFrom limit first second,
      history.byte (first + i) = history.byte (second + i) := by
  induction limit generalizing first second with
  | zero => exact ⟨Nat.le_refl 0, fun i hi => absurd hi (Nat.not_lt_zero i)⟩
  | succ limit ih =>
    obtain ⟨hle, hsame⟩ := ih (first + 1) (second + 1)
    rw [sameFrom]
    split
    · rename_i hbyte
      refine ⟨Nat.succ_le_succ hle, fun i hi => ?_⟩
      cases i with
      | zero => exact hbyte
      | succ i =>
        have hnext := hsame i (Nat.lt_of_succ_lt_succ hi)
        rwa [Nat.add_right_comm, Nat.add_right_comm second] at hnext
    · exact ⟨Nat.zero_le _, fun i hi => absurd hi (Nat.not_lt_zero i)⟩

/-- The place that is remembered for a place stands before it, unless there is none. -/
def LooksBack (history : History) : Prop := ∀ place, history.earlier.getD place 0 ≤ place - 1

theorem remembered_le (place : Nat) : remembered place ≤ place := by
  rw [remembered]
  split
  · exact Nat.zero_le _
  · exact Nat.le_refl _

theorem getD_earlierFrom_le {bytes : Bytes} {latest done : Array Nat} (hsize : done.size = place)
    (hdone : ∀ i, done.getD i 0 ≤ i - 1) (hlatest : ∀ i, latest.getD i 0 ≤ place - 1) (i : Nat) :
    (earlierFrom bytes place latest done).getD i 0 ≤ i - 1 := by
  induction bytes, place, latest, done using earlierFrom.induct generalizing i with
  | case1 a b c rest place latest done kind before ih =>
    rw [earlierFrom]
    refine ih (by rw [Array.size_push, hsize]) ?_ ?_ i
    · intro i
      have hi := hdone i
      rw [Array.getD_eq_getD_getElem?] at hi ⊢
      rw [Array.getElem?_push]
      split
      · rename_i hlast
        have hbefore := hlatest kind
        rw [hlast, hsize]
        exact hbefore
      · exact hi
    · intro i
      have hi := hlatest i
      have hplace := remembered_le place
      rw [Array.getD_eq_getD_getElem?] at hi ⊢
      rw [Array.getElem?_setIfInBounds]
      split
      · split
        · exact hplace
        · exact Nat.zero_le _
      · omega
  | case2 bytes place latest done hshort =>
    rw [earlierFrom]
    · exact hdone i
    · exact hshort

theorem looksBack_ofBytes (content : Bytes) : (ofBytes content).LooksBack := by
  intro place
  have hnone : (#[] : Array Nat).size = 0 := rfl
  refine getD_earlierFrom_le hnone ?_ ?_ place
  · intro i
    exact Nat.zero_le _
  · intro i
    rw [Array.getD_eq_getD_getElem?, Array.getElem?_replicate]
    split <;> exact Nat.zero_le _

theorem standsAt_of_same {probe : Nat} (hprobe : probe < place)
    (hreach : place - probe ≤ (history.boundsAt place).reach)
    (hleast : 3 ≤ history.sameFrom (history.boundsAt place).limit probe place) :
    Copy.StandsAt ⟨history.sameFrom (history.boundsAt place).limit probe place, place - probe⟩
      history.bytes place := by
  obtain ⟨hle, hsame⟩ := history.sameFrom_spec (history.boundsAt place).limit probe place
  have hlimit : (history.boundsAt place).limit = min Copy.maxLength (history.bytes.size - place) :=
    rfl
  have hfar : (history.boundsAt place).reach =
      min place (Copy.maxDistance - (history.boundsAt place).limit) := rfl
  refine ⟨hleast, ?_, ?_, ?_, ?_, ?_, ?_⟩ <;> dsimp only
  · omega
  · omega
  · omega
  · omega
  · omega
  · rwa [show place - (place - probe) = probe by omega]

/-- What the search for a copy finds is the best copy before it, or a longer one that repeats the
bytes at the place. -/
theorem searchFrom_spec (hhistory : history.LooksBack) {tries probe : Nat} {best : Copy}
    (hprobe : probe ≤ place) (hbest : 2 ≤ best.length) :
    history.searchFrom (history.boundsAt place) tries probe best = best ∨
      best.length < (history.searchFrom (history.boundsAt place) tries probe best).length ∧
        (history.searchFrom (history.boundsAt place) tries probe best).StandsAt history.bytes
          place := by
  generalize hbounds : history.boundsAt place = bounds
  have hcandidate {probe next : Nat} {best : Copy} (hprobe : probe ≤ place) (hbest : 2 ≤ best.length)
      (hnext : next = history.earlier.getD probe 0)
      (hfar : ¬ (next = 0 ∨ bounds.reach < bounds.place - next))
      (hlonger : ¬ history.sameFrom bounds.limit next bounds.place ≤ best.length) :
      Copy.StandsAt ⟨history.sameFrom bounds.limit next bounds.place, bounds.place - next⟩
        history.bytes place := by
    have hback := hhistory probe
    have hplace : bounds.place = place := hbounds ▸ rfl
    rw [not_or, Nat.not_lt] at hfar
    rw [hplace] at hfar hlonger ⊢
    rw [← hbounds] at hfar hlonger ⊢
    exact standsAt_of_same (by omega) hfar.2 (by omega)
  have hstep {probe : Nat} (hprobe : probe ≤ place) : history.earlier.getD probe 0 ≤ place :=
    (hhistory probe).trans ((Nat.sub_le _ _).trans hprobe)
  fun_induction History.searchFrom history bounds tries probe best with
  | case1 | case2 => exact .inl rfl
  | case3 probe best tries next distance last hfar hpair length hle ih => exact ih (hstep hprobe) hbest
  | case4 probe best tries next distance last hfar hpair length hlonger hlimit =>
    exact .inr ⟨Nat.not_le.mp hlonger, hcandidate hprobe hbest rfl hfar hlonger⟩
  | case5 probe best tries next distance last hfar hpair length hlonger hlimit ih =>
    have hlonger' := Nat.not_le.mp hlonger
    rcases ih (hstep hprobe) (hbest.trans (Nat.le_of_lt hlonger')) with hsame | ⟨hlt, hstands⟩
    · rw [hsame]
      exact .inr ⟨hlonger', hcandidate hprobe hbest rfl hfar hlonger⟩
    · exact .inr ⟨hlonger'.trans hlt, hstands⟩
  | case6 probe best tries next distance last hfar hpair ih => exact ih (hstep hprobe) hbest

theorem standsAt_of_copyAt? (hhistory : history.LooksBack) {length : Nat} {copy : Copy}
    (hlength : 2 ≤ length) (h : history.copyAt? place length = some copy) :
    copy.StandsAt history.bytes place := by
  rw [copyAt?] at h
  dsimp only at h
  split at h
  · cases h
  split at h
  · rename_i hfound
    obtain rfl := Option.some.inj h
    have hbest : 2 ≤ (⟨length, 0⟩ : Copy).length := hlength
    rcases searchFrom_spec hhistory (Nat.le_refl place) hbest with hsame | ⟨_, hstands⟩
    · rw [hsame] at hfound
      simp at hfound
    · exact hstands
  · cases h

end History

/-! ## Pieces -/

/-- A piece that makes of the content before a place the content up to the end of the piece. -/
structure Piece.StandsAt (piece : Piece) (content : Array UInt8) (place : Nat) : Prop where
  fits : piece.Fits
  inside : place + piece.length ≤ content.size
  expand_eq : piece.expand (content.extract 0 place) = content.extract 0 (place + piece.length)

/-- Pieces that stand one behind the other between two places. -/
inductive Piece.StandAll (content : Array UInt8) : (place : Nat) → List Piece → (stop : Nat) → Prop
  where
  | nil {place : Nat} : StandAll content place [] place
  | cons {place stop : Nat} {piece : Piece} {pieces : List Piece} (h : piece.StandsAt content place)
      (hrest : StandAll content (place + piece.length) pieces stop) :
      StandAll content place (piece :: pieces) stop

namespace Piece

variable {content : Array UInt8} {place stop last : Nat} {pieces more : List Piece}

theorem standsAt_literal {byte : UInt8} (hplace : place < content.size)
    (hbyte : content.getD place 0 = byte) : (literal byte).StandsAt content place :=
  ⟨trivial, hplace, push_extract hplace hbyte⟩

theorem standsAt_copy {bytes : Copy} (h : bytes.StandsAt content place) :
    (copy bytes).StandsAt content place :=
  ⟨⟨⟨h.least, h.most⟩, h.pos, h.near⟩, h.inside, copyBack_extract h.back h.pos h.inside h.same⟩

theorem StandAll.append (h : StandAll content place pieces stop)
    (hmore : StandAll content stop more last) : StandAll content place (pieces ++ more) last := by
  induction h with
  | nil => exact hmore
  | cons h _ ih => exact .cons h (ih hmore)

theorem StandAll.singleton {piece : Piece} (h : piece.StandsAt content place) :
    StandAll content place [piece] (place + piece.length) := .cons h .nil

theorem StandAll.stop_eq (h : StandAll content place pieces stop) :
    stop = place + (pieces.map (·.length)).sum := by
  induction h with
  | nil => rfl
  | cons _ _ ih => rw [ih, List.map_cons, List.sum_cons, Nat.add_assoc]

theorem StandAll.fits (h : StandAll content place pieces stop) : ∀ piece ∈ pieces, piece.Fits := by
  induction h with
  | nil => exact List.forall_mem_nil _
  | cons h _ ih => exact List.forall_mem_cons.mpr ⟨h.fits, ih⟩

theorem StandAll.foldl_expand (h : StandAll content place pieces stop) :
    pieces.foldl expand (content.extract 0 place) = content.extract 0 stop := by
  induction h with
  | nil => rfl
  | cons h _ ih => rw [List.foldl_cons, h.expand_eq, ih]

theorem StandAll.stop_le (h : StandAll content place pieces stop) (hplace : place ≤ content.size) :
    stop ≤ content.size := by
  induction h with
  | nil => exact hplace
  | cons h _ ih => exact ih h.inside

end Piece

/-! ## Blocks -/

/-- A block whose pieces stand at a place. One that may be written as its bytes has no more of them
than that allows. -/
structure Block.StandsAt (block : Block) (content : Array UInt8) (place : Nat) : Prop where
  start_eq : block.start = place
  pieces : Piece.StandAll content place block.pieces (place + block.length)
  short : block.isNear = true → block.length ≤ maxStored

inductive Block.StandAll (content : Array UInt8) : (place : Nat) → List Block → (stop : Nat) → Prop
  where
  | nil {place : Nat} : StandAll content place [] place
  | cons {place stop : Nat} {block : Block} {blocks : List Block} (h : block.StandsAt content place)
      (hrest : StandAll content (place + block.length) blocks stop) :
      StandAll content place (block :: blocks) stop

theorem Block.StandAll.append {content : Array UInt8} {place stop last : Nat}
    {blocks more : List Block} (h : StandAll content place blocks stop)
    (hmore : StandAll content stop more last) : StandAll content place (blocks ++ more) last := by
  induction h with
  | nil => exact hmore
  | cons h _ ih => exact .cons h (ih hmore)

/-! ## Divisions -/

namespace Division

/-- A copy is put off at a place that begins at the place before. -/
def PutOff (saved : Option Copy) (content : Array UInt8) (place : Nat) : Prop :=
  ∀ copy, saved = some copy → 1 ≤ place ∧ copy.StandsAt content (place - 1)

/-- The division has passed the content up to its place, apart from the byte that the copy which is
put off begins with. -/
structure Covers (division : Division) (content : Array UInt8) : Prop where
  inside : division.place ≤ content.size
  settled : division.start + division.length + division.saved.toList.length = division.place
  saved : PutOff division.saved content division.place
  pieces : Piece.StandAll content division.start division.pieces.reverse
    (division.start + division.length)
  window_le : division.window ≤ Copy.maxDistance
  blocks : Block.StandAll content 0 division.blocks.reverse division.start

variable {content : Array UInt8} {history : History} {division : Division}

theorem covers_empty (content : Array UInt8) : Covers {} content :=
  ⟨Nat.zero_le _, rfl, nofun, .nil, Nat.zero_le _, .nil⟩

theorem Covers.close (h : division.Covers content) : division.close.Covers content := by
  refine ⟨h.inside, ?_, h.saved, .nil, h.window_le, ?_⟩
  · exact h.settled
  · have hsettled := h.settled
    rw [Division.close, List.reverse_cons]
    refine h.blocks.append (.cons ⟨rfl, h.pieces, fun hnear => ?_⟩ .nil)
    have hnear := of_decide_eq_true hnear
    have hwindow := h.window_le
    rw [Copy.maxDistance] at hwindow
    rw [maxStored]
    dsimp only
    omega

theorem foldl_push (pieces : List Piece) (division : Division) :
    ∃ count copies, pieces.foldl push division =
      { division with
        pieces := pieces.reverse ++ division.pieces
        length := division.length + (pieces.map (·.length)).sum
        count, copies } := by
  induction pieces generalizing division with
  | nil => exact ⟨_, _, rfl⟩
  | cons piece pieces ih =>
    obtain ⟨count, copies, hpush⟩ := ih (division.push piece)
    refine ⟨count, copies, ?_⟩
    rw [List.foldl_cons, hpush, List.reverse_cons, List.append_assoc, List.map_cons, List.sum_cons,
      ← Nat.add_assoc]
    rfl

/-- The byte that a copy which is given up begins with. -/
def givenUp (history : History) (place : Nat) (saved : Option Copy) : List Piece :=
  if saved.isSome then [.literal (history.byte (place - 1))] else []

theorem standAll_givenUp {place : Nat} {saved : Option Copy} (hplace : place < history.bytes.size)
    (hsaved : PutOff saved history.bytes place) :
    Piece.StandAll history.bytes (place - saved.toList.length) (givenUp history place saved)
      place := by
  cases saved with
  | none => exact .nil
  | some copy =>
    obtain ⟨hpos, _⟩ := hsaved copy rfl
    have hbyte := Piece.StandAll.singleton
      (Piece.standsAt_literal (by omega : place - 1 < history.bytes.size)
        (rfl : _ = history.byte (place - 1)))
    rwa [Piece.length, Nat.sub_add_cancel hpos] at hbyte

theorem step_of_some {place : Nat} {saved : Option Copy} {found : Copy}
    (h : history.copyAt? place ((saved.map (·.length)).getD 2) = some found) :
    step history place saved =
      if found.isLong then (givenUp history place saved ++ [.copy found], none, found.length)
      else (givenUp history place saved, some found, 1) := by
  unfold step
  rw [h]
  cases saved <;> rfl

/-- The pieces that are settled at a place stand behind those before. -/
theorem step_spec (hhistory : history.LooksBack) {place : Nat} {saved : Option Copy}
    (hplace : place < history.bytes.size) (hsaved : PutOff saved history.bytes place)
    {pieces : List Piece} {left : Option Copy} {passed : Nat}
    (h : step history place saved = (pieces, left, passed)) :
    1 ≤ passed ∧ place + passed ≤ history.bytes.size ∧
      Piece.StandAll history.bytes (place - saved.toList.length) pieces
        (place + passed - left.toList.length) ∧
      PutOff left history.bytes (place + passed) := by
  cases hfound : history.copyAt? place ((saved.map (·.length)).getD 2) with
  | none =>
    unfold step at h
    rw [hfound] at h
    cases saved with
    | none =>
      cases h
      exact ⟨Nat.le_refl 1, hplace, .singleton (Piece.standsAt_literal hplace rfl), nofun⟩
    | some copy =>
      cases h
      obtain ⟨hpos, hcopy⟩ := hsaved copy rfl
      have hleast := hcopy.least
      have hinside := hcopy.inside
      have hpiece := Piece.StandAll.singleton (Piece.standsAt_copy hcopy)
      rw [Piece.length, show place - 1 + copy.length = place + (copy.length - 1) by omega] at hpiece
      exact ⟨by omega, by omega, hpiece, nofun⟩
  | some found =>
    have hlength : 2 ≤ (saved.map (·.length)).getD 2 := by
      cases saved with
      | none => exact Nat.le_refl 2
      | some copy => exact Nat.le_of_succ_le (hsaved copy rfl).2.least
    have hcopy := History.standsAt_of_copyAt? hhistory hlength hfound
    have hleast := hcopy.least
    have hgivenUp := standAll_givenUp hplace hsaved
    rw [step_of_some hfound] at h
    split at h
    · cases h
      refine ⟨by omega, hcopy.inside, ?_, nofun⟩
      exact hgivenUp.append (.singleton (Piece.standsAt_copy hcopy))
    · cases h
      refine ⟨Nat.le_refl 1, hplace, hgivenUp, ?_⟩
      intro copy hsame
      obtain rfl := Option.some.inj hsame
      exact ⟨Nat.succ_pos place, hcopy⟩

theorem Covers.advance (hhistory : history.LooksBack) (h : division.Covers history.bytes)
    (hplace : division.place < history.bytes.size) :
    (division.advance history).Covers history.bytes ∧
      division.place < (division.advance history).place := by
  obtain ⟨pieces, left, passed, hstep⟩ : ∃ pieces left passed,
      step history division.place division.saved = (pieces, left, passed) := ⟨_, _, _, rfl⟩
  obtain ⟨hpassed, hinside, hpieces, hleft⟩ := step_spec hhistory hplace h.saved hstep
  obtain ⟨count, copies, hpush⟩ := foldl_push pieces division
  have hsettled := h.settled
  have hstop := hpieces.stop_eq
  have hleftLength : left.toList.length ≤ 1 := by cases left <;> simp
  have hbegin : division.place - division.saved.toList.length = division.start + division.length := by
    omega
  have hend : division.place + passed - left.toList.length =
      division.start + (division.length + (pieces.map (·.length)).sum) := by
    omega
  rw [hbegin, hend] at hpieces
  have hadvanced : Covers
      { pieces.foldl push division with
        place := division.place + passed, saved := left
        window := min ((history.boundsAt division.place).reach + passed) Copy.maxDistance }
      history.bytes := by
    rw [hpush]
    refine ⟨hinside, ?_, hleft, ?_, Nat.min_le_right _ _, h.blocks⟩
    · dsimp only
      omega
    · rw [List.reverse_append, List.reverse_reverse]
      exact h.pieces.append hpieces
  rw [Division.advance]
  simp only [hstep, hpush] at hadvanced ⊢
  split
  · exact ⟨hadvanced.close, Nat.lt_add_of_pos_right hpassed⟩
  · exact ⟨hadvanced, Nat.lt_add_of_pos_right hpassed⟩

theorem Covers.finish (hhistory : history.LooksBack) {fuel : Nat}
    (h : division.Covers history.bytes) (hfuel : history.bytes.size - division.place ≤ fuel) :
    (division.finish history fuel).Covers history.bytes ∧
      (division.finish history fuel).place = history.bytes.size := by
  induction fuel generalizing division with
  | zero =>
    have hinside := h.inside
    exact ⟨h, by rw [Division.finish]; omega⟩
  | succ fuel ih =>
    rw [Division.finish]
    split
    · rename_i hplace
      obtain ⟨hadvanced, hlt⟩ := h.advance hhistory hplace
      exact ih hadvanced (by omega)
    · rename_i hplace
      have hinside := h.inside
      exact ⟨h, by omega⟩

end Division

/-- The blocks of content stand one behind the other from its beginning to its end. -/
theorem Block.standAll_ofContent (content : Bytes) :
    StandAll content.toArray 0 (ofContent content) content.length ∧ ofContent content ≠ [] := by
  have hhistory := History.looksBack_ofBytes content
  have hbytes : (History.ofBytes content).bytes = content.toArray := rfl
  obtain ⟨hcovers, hplace⟩ := (Division.covers_empty (History.ofBytes content).bytes).finish hhistory
    (Nat.le_refl _)
  rw [Nat.sub_zero, hbytes, List.size_toArray] at hcovers hplace
  rw [ofContent]
  generalize Division.finish (History.ofBytes content) content.length {} = final at hcovers hplace ⊢
  have hsettled := hcovers.settled
  -- a copy that is put off at the end would go beyond it
  have hnone : final.saved = none := by
    cases hsaved : final.saved with
    | none => rfl
    | some copy =>
      obtain ⟨hpos, hcopy⟩ := hcovers.saved copy hsaved
      have hinside := hcopy.inside
      have hleast := hcopy.least
      rw [List.size_toArray] at hinside
      omega
  rw [hnone, Option.toList_none, List.length_nil, hplace] at hsettled
  have hblocks := hcovers.close.blocks
  constructor
  · rwa [← hsettled]
  · rw [Division.close, List.reverse_cons]
    exact List.append_ne_nil_of_right_ne_nil _ (List.cons_ne_nil _ _)

end JarText.Zip
