import JarText.Code.Body
import Mathlib.Data.List.Basic

/-!
# The line of an offset

A row holds from its start up to the start of the next row in the list, and the last row holds on.
Where the starts ascend, the line of an offset is therefore that of the last row which starts at or
before it. Of several rows with one start the last one counts, and between two starts that follow on
each other nothing changes.
-/

set_option autoImplicit false

namespace JarText

namespace LineRow

def Ascending (rows : List LineRow) : Prop :=
  rows.Pairwise fun row later => row.start.toNat ≤ later.start.toNat

instance (rows : List LineRow) : Decidable (Ascending rows) :=
  inferInstanceAs (Decidable (rows.Pairwise _))

/-- No row after this one starts at or before the offset, and this one does. -/
def IsLastUpTo (rows : List LineRow) (offset : Nat) (row : LineRow) : Prop :=
  ∃ front back, rows = front ++ row :: back ∧ row.start.toNat ≤ offset ∧
    ∀ later ∈ back, offset < later.start.toNat

/-- The row holds at the offset, with these rows behind it. -/
def Holds (row : LineRow) (back : List LineRow) (offset : Nat) : Prop :=
  row.start.toNat ≤ offset ∧ ∀ next ∈ back.head?, offset < next.start.toNat

variable {rows : List LineRow} {row : LineRow} {offset : Nat}

theorem IsLastUpTo.mem (h : IsLastUpTo rows offset row) : row ∈ rows := by
  obtain ⟨front, back, rfl, _⟩ := h
  exact List.mem_append_cons_self

theorem exists_isLastUpTo (h : ∃ row ∈ rows, row.start.toNat ≤ offset) :
    ∃ row, IsLastUpTo rows offset row := by
  induction rows with
  | nil =>
    obtain ⟨row, hmem, _⟩ := h
    cases hmem
  | cons first rest ih =>
    by_cases hrest : ∃ row ∈ rest, row.start.toNat ≤ offset
    · obtain ⟨row, front, back, rfl, hrow⟩ := ih hrest
      exact ⟨row, first :: front, back, rfl, hrow⟩
    · have hlater : ∀ later ∈ rest, offset < later.start.toNat := by
        intro later hmem
        exact Nat.lt_of_not_le fun hle => hrest ⟨later, hmem, hle⟩
      obtain ⟨row, hmem, hle⟩ := h
      rcases List.mem_cons.mp hmem with rfl | hmem
      · exact ⟨row, [], rest, rfl, hle, hlater⟩
      · exact absurd hle (Nat.not_le_of_lt (hlater row hmem))

theorem holds_of_forall {back : List LineRow} (hstart : row.start.toNat ≤ offset)
    (h : ∀ later ∈ back, offset < later.start.toNat) : row.Holds back offset :=
  ⟨hstart, fun next hnext => h next (List.mem_of_mem_head? hnext)⟩

/-- The start that a row compares with is that of some row of the rest, so up to the row in question
nothing holds where starts ascend. -/
theorem not_holds_of_ascending {front back : List LineRow} {first : LineRow}
    (hascending : Ascending (first :: (front ++ row :: back))) (hstart : row.start.toNat ≤ offset) :
    ¬ first.Holds (front ++ row :: back) offset := by
  rintro ⟨_, hnext⟩
  have hrest := (List.pairwise_cons.mp hascending).2
  cases front with
  | nil =>
    have := hnext row rfl
    omega
  | cons next front =>
    have hlt := hnext next rfl
    have hle := (List.pairwise_cons.mp hrest).1 row (List.mem_append_cons_self)
    omega

end LineRow

open LineRow

variable {rows : List LineRow} {row : LineRow} {offset : Nat}

theorem lineAt?_cons_of_holds {back : List LineRow} (h : row.Holds back offset) :
    lineAt? (row :: back) offset = some row.line := by
  obtain ⟨hstart, hnext⟩ := h
  cases back with
  | nil => exact if_pos hstart
  | cons next back => exact if_pos ⟨hstart, hnext next rfl⟩

theorem lineAt?_cons_of_not_holds {back : List LineRow} (h : ¬ row.Holds back offset) :
    lineAt? (row :: back) offset = lineAt? back offset := by
  cases back with
  | nil =>
    refine if_neg fun hstart => h ⟨hstart, ?_⟩
    intro next hnext
    cases hnext
  | cons next back =>
    refine if_neg ?_
    rintro ⟨hstart, hlt⟩
    refine h ⟨hstart, ?_⟩
    rintro _ ⟨⟩
    exact hlt

/-- Whatever the order of the rows, the line is that of a row which holds. -/
theorem exists_holds_of_lineAt? {line : UInt16} (h : lineAt? rows offset = some line) :
    ∃ front row back, rows = front ++ row :: back ∧ row.Holds back offset ∧ row.line = line := by
  induction rows with
  | nil => cases h
  | cons first rest ih =>
    by_cases hfirst : first.Holds rest offset
    · rw [lineAt?_cons_of_holds hfirst] at h
      exact ⟨[], first, rest, rfl, hfirst, Option.some.inj h⟩
    · rw [lineAt?_cons_of_not_holds hfirst] at h
      obtain ⟨front, row, back, rfl, hrow⟩ := ih h
      exact ⟨first :: front, row, back, rfl, hrow⟩

theorem exists_lineAt?_of_holds (front : List LineRow) {back : List LineRow}
    (h : row.Holds back offset) : ∃ line, lineAt? (front ++ row :: back) offset = some line := by
  induction front with
  | nil => exact ⟨_, lineAt?_cons_of_holds h⟩
  | cons first front ih =>
    rw [List.cons_append]
    by_cases hfirst : first.Holds (front ++ row :: back) offset
    · exact ⟨_, lineAt?_cons_of_holds hfirst⟩
    · rw [lineAt?_cons_of_not_holds hfirst]
      exact ih

/-- Whatever the order of the rows, a line is missing only below all of them. -/
theorem lineAt?_eq_none_iff :
    lineAt? rows offset = none ↔ ∀ row ∈ rows, offset < row.start.toNat := by
  constructor
  · intro h row hmem
    apply Nat.lt_of_not_le
    intro hle
    obtain ⟨last, front, back, rfl, hstart, hlater⟩ := exists_isLastUpTo ⟨row, hmem, hle⟩
    obtain ⟨line, hline⟩ :=
      exists_lineAt?_of_holds front (holds_of_forall hstart hlater)
    rw [h] at hline
    cases hline
  · intro h
    cases hline : lineAt? rows offset with
    | none => rfl
    | some line =>
      obtain ⟨front, row, back, rfl, ⟨hstart, _⟩, _⟩ := exists_holds_of_lineAt? hline
      have := h row (List.mem_append_cons_self)
      omega

theorem lineAt?_of_isLastUpTo (hascending : Ascending rows) (h : IsLastUpTo rows offset row) :
    lineAt? rows offset = some row.line := by
  obtain ⟨front, back, rfl, hstart, hlater⟩ := h
  induction front with
  | nil => exact lineAt?_cons_of_holds (holds_of_forall hstart hlater)
  | cons first front ih =>
    rw [List.cons_append] at hascending ⊢
    rw [lineAt?_cons_of_not_holds (not_holds_of_ascending hascending hstart)]
    exact ih (List.pairwise_cons.mp hascending).2

theorem lineAt?_eq_some_iff (hascending : Ascending rows) {line : UInt16} :
    lineAt? rows offset = some line ↔ ∃ row, IsLastUpTo rows offset row ∧ row.line = line := by
  constructor
  · intro h
    obtain ⟨front, row, back, hrows, ⟨hstart, _⟩, _⟩ := exists_holds_of_lineAt? h
    have hmem : row ∈ rows := hrows ▸ List.mem_append_cons_self
    obtain ⟨last, hlast⟩ := exists_isLastUpTo ⟨row, hmem, hstart⟩
    have hline := lineAt?_of_isLastUpTo hascending hlast
    exact ⟨last, hlast, Option.some.inj (hline.symm.trans h)⟩
  · rintro ⟨row, hrow, rfl⟩
    exact lineAt?_of_isLastUpTo hascending hrow

/-- Only the comparisons of the offset with the starts matter. -/
theorem lineAt?_congr {other : Nat}
    (h : ∀ row ∈ rows, row.start.toNat ≤ offset ↔ row.start.toNat ≤ other) :
    lineAt? rows offset = lineAt? rows other := by
  induction rows with
  | nil => rfl
  | cons first rest ih =>
    obtain ⟨hfirst, hrest⟩ := List.forall_mem_cons.mp h
    have hholds : first.Holds rest offset ↔ first.Holds rest other := by
      refine and_congr hfirst (forall₂_congr fun next hnext => ?_)
      have := hrest next (List.mem_of_mem_head? hnext)
      omega
    by_cases hother : first.Holds rest other
    · rw [lineAt?_cons_of_holds hother, lineAt?_cons_of_holds (hholds.mpr hother)]
    · rw [lineAt?_cons_of_not_holds hother, lineAt?_cons_of_not_holds (mt hholds.mp hother)]
      exact ih hrest

/-- The line of an offset among rows whose starts ascend: none below the first start, else that of
the last row up to the offset. So a boundary belongs to the row which starts there, the last one if
there are several, and the line is the same from one start up to the next greater one. -/
theorem line_of_last_row (hascending : Ascending rows) :
    (∀ offset, lineAt? rows offset = none ↔
      rows = [] ∨ ∃ first rest, rows = first :: rest ∧ offset < first.start.toNat) ∧
    (∀ offset line, lineAt? rows offset = some line ↔
      ∃ row, IsLastUpTo rows offset row ∧ row.line = line) ∧
    (∀ front row back, rows = front ++ row :: back → (∀ later ∈ back, later.start ≠ row.start) →
      lineAt? rows row.start.toNat = some row.line) ∧
    ∀ low ∈ rows, ∀ high ∈ rows,
      (∀ row ∈ rows, row.start.toNat ≤ low.start.toNat ∨ high.start.toNat ≤ row.start.toNat) →
      ∀ offset, low.start.toNat ≤ offset → offset < high.start.toNat →
        lineAt? rows offset = lineAt? rows low.start.toNat := by
  refine ⟨?_, ?_, ?_, ?_⟩
  · intro offset
    rw [lineAt?_eq_none_iff]
    cases rows with
    | nil => exact iff_of_true (fun _ hmem => absurd hmem List.not_mem_nil) (.inl rfl)
    | cons first rest =>
      constructor
      · exact fun h => .inr ⟨first, rest, rfl, h first List.mem_cons_self⟩
      · rintro (hnil | ⟨_, _, ⟨⟩, hlt⟩)
        · cases hnil
        · intro row hmem
          rcases List.mem_cons.mp hmem with rfl | hmem
          · exact hlt
          · exact Nat.lt_of_lt_of_le hlt ((List.pairwise_cons.mp hascending).1 row hmem)
  · intro offset line
    exact lineAt?_eq_some_iff hascending
  · rintro front row back rfl hdistinct
    refine lineAt?_of_isLastUpTo hascending ⟨front, back, rfl, Nat.le_refl _, ?_⟩
    intro later hmem
    have hrest := (List.pairwise_append.mp hascending).2.1
    have hle := (List.pairwise_cons.mp hrest).1 later hmem
    exact Nat.lt_of_le_of_ne hle fun heq => hdistinct later hmem (UInt16.toNat_inj.mp heq.symm)
  · intro low _ high _ hconsecutive offset hlow hhigh
    apply lineAt?_congr
    intro row hmem
    have := hconsecutive row hmem
    omega

/-- Rows two of which start together. -/
def tiedRows : List LineRow := [⟨0, 1⟩, ⟨4, 2⟩, ⟨4, 3⟩, ⟨9, 4⟩]

theorem line_of_last_of_tiedRows : Ascending tiedRows ∧ lineAt? tiedRows 4 = some 3 ∧
    lineAt? tiedRows 8 = some 3 ∧ lineAt? tiedRows 3 = some 1 := by
  have hascending : Ascending tiedRows := by decide
  obtain ⟨_, hlast, hboundary, hconstant⟩ := line_of_last_row hascending
  have htie : lineAt? tiedRows 4 = some 3 :=
    hboundary [⟨0, 1⟩, ⟨4, 2⟩] ⟨4, 3⟩ [⟨9, 4⟩] rfl (by decide)
  refine ⟨hascending, htie, ?_, ?_⟩
  · rw [← htie]
    exact hconstant ⟨4, 3⟩ (by decide) ⟨9, 4⟩ (by decide) (by decide) 8 (by decide) (by decide)
  · exact (hlast 3 1).mpr ⟨⟨0, 1⟩, ⟨[], _, rfl, by decide, by decide⟩, rfl⟩

end JarText
