import JarText.Proofs.LineLookup
import JarText.Proofs.Reading
import JarText.Scan.Location
import Mathlib.Data.List.Nodup
import Mathlib.Data.List.Perm.Basic

/-!
# Bodies with several line tables

The rows of a body are those of its line tables, one table behind the other. As long as every table
lies before the tables behind it, the line of an offset is that of the row with the greatest start
up to it, however the rows are divided. Where a table goes back, the last row of the table before it
ends before it begins, and at its own start another row is told.
-/

set_option autoImplicit false

namespace JarText

theorem mapM_eq_ok_iff_forall₂ {ε α β : Type} {f : α → Except ε β} {as : List α} {bs : List β} :
    as.mapM f = .ok bs ↔ List.Forall₂ (fun a b => f a = .ok b) as bs := by
  induction as generalizing bs with
  | nil =>
    rw [List.mapM_nil, List.forall₂_nil_left_iff]
    constructor
    · rintro ⟨⟩
      rfl
    · rintro rfl
      rfl
  | cons a as ih =>
    rw [List.mapM_cons, except_bind_eq_ok_iff, List.forall₂_cons_left_iff]
    constructor
    · rintro ⟨b, hb, h⟩
      obtain ⟨rest, hrest, ⟨⟩⟩ := except_bind_eq_ok_iff.mp h
      exact ⟨b, rest, hb, ih.mp hrest, rfl⟩
    · rintro ⟨b, rest, hb, hrest, rfl⟩
      exact ⟨b, hb, except_bind_eq_ok_iff.mpr ⟨rest, ih.mpr hrest, rfl⟩⟩

namespace CodeBody

/-- These are the line tables of the body, in the order of its attributes. -/
def HasTables (body : CodeBody) (pool : Pool) (tables : List (List LineRow)) : Prop :=
  (body.attributes.filter (·.isNamed pool (Text.Utf8.encode "LineNumberTable"))).mapM
    (fun attr => LineRow.tableOfInfo attr.info) = .ok tables

instance (body : CodeBody) (pool : Pool) (tables : List (List LineRow)) :
    Decidable (body.HasTables pool tables) :=
  inferInstanceAs (Decidable (_ = _))

variable {body other : CodeBody} {pool : Pool} {tables : List (List LineRow)}

theorem HasTables.lineRows_eq (h : body.HasTables pool tables) :
    body.lineRows pool = .ok tables.flatten :=
  except_bind_eq_ok_iff.mpr ⟨tables, h, rfl⟩

theorem HasTables.exists_of_perm (h : body.HasTables pool tables)
    (hperm : other.attributes.Perm body.attributes) :
    ∃ tables', other.HasTables pool tables' ∧ tables'.Perm tables := by
  obtain ⟨tables', htables, hperm⟩ :=
    List.perm_comp_forall₂ (hperm.filter _) (mapM_eq_ok_iff_forall₂.mp h)
  exact ⟨tables', mapM_eq_ok_iff_forall₂.mpr htables, hperm⟩

end CodeBody

namespace LineRow

/-- Every table lies before the tables behind it. -/
def InOrder (tables : List (List LineRow)) : Prop :=
  tables.Pairwise fun table later =>
    ∀ row ∈ table, ∀ next ∈ later, row.start.toNat ≤ next.start.toNat

instance (tables : List (List LineRow)) : Decidable (InOrder tables) :=
  inferInstanceAs (Decidable (tables.Pairwise _))

/-- Of all rows that start at or before the offset, none starts later. -/
def IsGreatestUpTo (rows : List LineRow) (offset : Nat) (row : LineRow) : Prop :=
  row ∈ rows ∧ row.start.toNat ≤ offset ∧
    ∀ other ∈ rows, other.start.toNat ≤ offset → other.start.toNat ≤ row.start.toNat

instance (rows : List LineRow) (offset : Nat) (row : LineRow) :
    Decidable (IsGreatestUpTo rows offset row) :=
  inferInstanceAs (Decidable (_ ∧ _))

/-- The line is that of the row with the greatest start up to the offset, and missing if no row
starts there. -/
def IsLineAt (rows : List LineRow) (offset : Nat) : Option UInt16 → Prop
  | none => ∀ row ∈ rows, offset < row.start.toNat
  | some line => ∃ row, IsGreatestUpTo rows offset row ∧ row.line = line

variable {rows rows' : List LineRow} {row : LineRow} {offset : Nat}

theorem ascending_flatten_iff {tables : List (List LineRow)} :
    Ascending tables.flatten ↔ (∀ table ∈ tables, Ascending table) ∧ InOrder tables :=
  List.pairwise_flatten

theorem IsLastUpTo.isGreatestUpTo (hascending : Ascending rows) (h : IsLastUpTo rows offset row) :
    IsGreatestUpTo rows offset row := by
  refine ⟨h.mem, ?_⟩
  obtain ⟨front, back, rfl, hstart, hlater⟩ := h
  refine ⟨hstart, ?_⟩
  intro other hmem hother
  rcases List.mem_append.mp hmem with hfront | hback
  · exact (List.pairwise_append.mp hascending).2.2 other hfront row List.mem_cons_self
  · rcases List.mem_cons.mp hback with rfl | hback
    · exact Nat.le_refl _
    · have := hlater other hback
      omega

theorem isLineAt_lineAt? (hascending : Ascending rows) (offset : Nat) :
    IsLineAt rows offset (lineAt? rows offset) := by
  cases hline : lineAt? rows offset with
  | none => exact lineAt?_eq_none_iff.mp hline
  | some line =>
    obtain ⟨row, hlast, hrow⟩ := (lineAt?_eq_some_iff hascending).mp hline
    exact ⟨row, hlast.isGreatestUpTo hascending, hrow⟩

theorem eq_of_perm (hperm : rows'.Perm rows) (hdistinct : (rows.map (·.start)).Nodup)
    (hascending : Ascending rows) (hascending' : Ascending rows') : rows' = rows := by
  apply hperm.eq_of_pairwise ?_ hascending' hascending
  intro row other hrow hother hle hge
  have hstart := UInt16.toNat_inj.mp (Nat.le_antisymm hle hge)
  exact List.inj_on_of_nodup_map hdistinct (hperm.mem_iff.mp hrow) hother hstart

theorem exists_descent (h : ¬ Ascending rows) : ∃ front row next back,
    rows = front ++ row :: next :: back ∧ next.start.toNat < row.start.toNat := by
  induction rows with
  | nil => exact absurd List.Pairwise.nil h
  | cons first rest ih =>
    by_cases hrest : Ascending rest
    · have hlater : ∃ later ∈ rest, later.start.toNat < first.start.toNat := by
        by_contra hnone
        refine h (List.pairwise_cons.mpr ⟨fun later hmem => ?_, hrest⟩)
        exact Nat.le_of_not_lt fun hlt => hnone ⟨later, hmem, hlt⟩
      obtain ⟨later, hmem, hlt⟩ := hlater
      cases rest with
      | nil => cases hmem
      | cons next back =>
        refine ⟨[], first, next, back, rfl, ?_⟩
        rcases List.mem_cons.mp hmem with rfl | hmem
        · exact hlt
        · exact Nat.lt_of_le_of_lt ((List.pairwise_cons.mp hrest).1 later hmem) hlt
    · obtain ⟨front, row, next, back, rfl, hlt⟩ := ih hrest
      exact ⟨first :: front, row, next, back, rfl, hlt⟩

/-- A row that starts where no other does stands in one place. -/
theorem back_eq_of_start_eq {front front' back back' : List LineRow} {other : LineRow}
    (hdistinct : ((front ++ row :: back).map (·.start)).Nodup)
    (h : front ++ row :: back = front' ++ other :: back') (hstart : other.start = row.start) :
    back = back' := by
  have hother : other ∈ front ++ row :: back := h ▸ List.mem_append_cons_self
  obtain rfl : other = row :=
    List.inj_on_of_nodup_map hdistinct hother List.mem_append_cons_self hstart
  obtain ⟨hfresh, _⟩ := List.nodup_cons.mp (List.nodup_middle.mp hdistinct.of_map)
  have hfront : other ∉ front := fun hmem => hfresh (List.mem_append_left back hmem)
  have hback : other ∉ back := fun hmem => hfresh (List.mem_append_right front hmem)
  exact ((List.append_cons_inj_of_notMem hfront hback).mp h).2.2

/-- The row in front of a descent holds nowhere, so at its start a row that starts earlier is
told. -/
theorem exists_other_of_not_ascending (hdistinct : (rows.map (·.start)).Nodup)
    (h : ¬ Ascending rows) : ∃ row ∈ rows, ∃ other ∈ rows,
      other.start.toNat < row.start.toNat ∧ lineAt? rows row.start.toNat = some other.line := by
  obtain ⟨front, row, next, back, hrows, hdescent⟩ := exists_descent h
  have hrow : row ∈ rows := hrows ▸ List.mem_append_cons_self
  cases hline : lineAt? rows row.start.toNat with
  | none => exact absurd (lineAt?_eq_none_iff.mp hline row hrow) (Nat.lt_irrefl _)
  | some line =>
    obtain ⟨front', other, back', hrows', ⟨hstart, hnext⟩, rfl⟩ := exists_holds_of_lineAt? hline
    refine ⟨row, hrow, other, hrows' ▸ List.mem_append_cons_self, ?_, hline⟩
    apply Nat.lt_of_le_of_ne hstart
    intro heq
    -- The row told would be the one in front of the descent, which ends before it begins.
    obtain rfl := back_eq_of_start_eq (hrows ▸ hdistinct) (hrows.symm.trans hrows')
      (UInt16.toNat_inj.mp heq)
    have := hnext next rfl
    omega

end LineRow

namespace Location

open LineRow

variable {file : ClassFile} {method : Member} {body : CodeBody} {className name descriptor : String}
  {tables : List (List LineRow)}

theorem resolve_eq (hclass : file.className = .ok className)
    (hname : file.pool.text method.name = .ok name)
    (hdescriptor : file.pool.text method.descriptor = .ok descriptor)
    (htables : body.HasTables file.pool tables) (offset : Nat) :
    resolve file method body offset =
      .ok ⟨className, name ++ descriptor, lineAt? tables.flatten offset⟩ := by
  rw [resolve, ofBody, hclass, hname, hdescriptor, htables.lineRows_eq]
  rfl

/-- The line that is told is that of the row with the greatest start up to the offset, if the tables
stand in the order of their rows. If they do not, another line is told at the start of some row.
Bodies with the same rows in order tell the same lines, however the rows are divided into tables and
wherever the other attributes stand. -/
theorem resolve_in_order (hclass : file.className = .ok className)
    (hname : file.pool.text method.name = .ok name)
    (hdescriptor : file.pool.text method.descriptor = .ok descriptor)
    (htables : body.HasTables file.pool tables) (hascending : ∀ table ∈ tables, Ascending table)
    (hdistinct : (tables.flatten.map (·.start)).Nodup) :
    (∀ offset, ∃ line?, resolve file method body offset =
        .ok ⟨className, name ++ descriptor, line?⟩ ∧
      (InOrder tables → IsLineAt tables.flatten offset line?)) ∧
    (¬ InOrder tables → ∃ row ∈ tables.flatten, ∃ other ∈ tables.flatten,
      other.start.toNat < row.start.toNat ∧ resolve file method body row.start.toNat =
        .ok ⟨className, name ++ descriptor, some other.line⟩) ∧
    (∀ body' : CodeBody, body'.attributes.Perm body.attributes →
      ∃ tables', body'.HasTables file.pool tables' ∧ tables'.Perm tables) ∧
    ∀ (body' : CodeBody) (tables' : List (List LineRow)), body'.HasTables file.pool tables' →
      tables'.flatten.Perm tables.flatten → (∀ table ∈ tables', Ascending table) →
      InOrder tables → InOrder tables' →
      ∀ offset, resolve file method body' offset = resolve file method body offset := by
  refine ⟨?_, ?_, ?_, ?_⟩
  · intro offset
    refine ⟨_, resolve_eq hclass hname hdescriptor htables offset, ?_⟩
    intro hinOrder
    exact isLineAt_lineAt? (ascending_flatten_iff.mpr ⟨hascending, hinOrder⟩) offset
  · intro hbackward
    have hdescends : ¬ Ascending tables.flatten :=
      fun h => hbackward (ascending_flatten_iff.mp h).2
    obtain ⟨row, hrow, other, hother, hlt, hline⟩ :=
      exists_other_of_not_ascending hdistinct hdescends
    refine ⟨row, hrow, other, hother, hlt, ?_⟩
    rw [resolve_eq hclass hname hdescriptor htables, hline]
  · intro body' hperm
    exact htables.exists_of_perm hperm
  · intro body' tables' htables' hperm hascending' hinOrder hinOrder' offset
    have hrows := eq_of_perm hperm hdistinct (ascending_flatten_iff.mpr ⟨hascending, hinOrder⟩)
      (ascending_flatten_iff.mpr ⟨hascending', hinOrder'⟩)
    rw [resolve_eq hclass hname hdescriptor htables', hrows,
      resolve_eq hclass hname hdescriptor htables]

end Location

/-- A method whose code has two line tables. -/
def Member.tabled : Member :=
  ⟨9, 5, 6, [⟨7, [0, 0, 0, 0, 0, 0, 0, 4, 0, 0, 0, 177, 0, 0, 0, 2, 0, 8, 0, 0, 0, 6, 0, 1, 0, 2, 0,
    20, 0, 8, 0, 0, 0, 6, 0, 1, 0, 0, 0, 10]⟩]⟩

namespace ClassFile

def twoTables : ClassFile :=
  { minor := 0, major := 52
    pool := ⟨#[none, some (.utf8 [65]), some (.classInfo 1),
      some (.utf8 [106, 97, 118, 97, 47, 108, 97, 110, 103, 47, 79, 98, 106, 101, 99, 116]),
      some (.classInfo 3), some (.utf8 [109]), some (.utf8 [40, 41, 86]),
      some (.utf8 [67, 111, 100, 101]),
      some (.utf8 [76, 105, 110, 101, 78, 117, 109, 98, 101, 114, 84, 97, 98, 108, 101])]⟩
    access := 0x21, thisClass := 2, superClass := 4, interfaces := [], fields := []
    methods := [Member.tabled], attributes := [] }

def twoTablesBytes : Bytes :=
  [202, 254, 186, 190, 0, 0, 0, 52, 0, 9, 1, 0, 1, 65, 7, 0, 1, 1, 0, 16, 106, 97, 118, 97, 47, 108,
   97, 110, 103, 47, 79, 98, 106, 101, 99, 116, 7, 0, 3, 1, 0, 1, 109, 1, 0, 3, 40, 41, 86, 1, 0, 4,
   67, 111, 100, 101, 1, 0, 15, 76, 105, 110, 101, 78, 117, 109, 98, 101, 114, 84, 97, 98, 108, 101,
   0, 33, 0, 2, 0, 4, 0, 0, 0, 0, 0, 1, 0, 9, 0, 5, 0, 6, 0, 1, 0, 7, 0, 0, 0, 40, 0, 0, 0, 0, 0, 0,
   0, 4, 0, 0, 0, 177, 0, 0, 0, 2, 0, 8, 0, 0, 0, 6, 0, 1, 0, 2, 0, 20, 0, 8, 0, 0, 0, 6, 0, 1, 0,
   0, 0, 10, 0, 0]

end ClassFile

namespace Location

open LineRow

/-- The code in the class: the row of its second table starts before that of the first. -/
def backwardBody : CodeBody :=
  ⟨0, 0, [0, 0, 0, 177], [⟨8, [0, 1, 0, 2, 0, 20]⟩, ⟨8, [0, 1, 0, 0, 0, 10]⟩]⟩

def forwardBody : CodeBody := { backwardBody with attributes := backwardBody.attributes.reverse }

theorem hasTables_backwardBody :
    backwardBody.HasTables ClassFile.twoTables.pool [[⟨2, 20⟩], [⟨0, 10⟩]] := by
  decide +kernel

theorem hasTables_forwardBody :
    forwardBody.HasTables ClassFile.twoTables.pool [[⟨0, 10⟩], [⟨2, 20⟩]] := by
  decide +kernel

theorem resolve_in_order_of_twoTables :
    (∃ line?, resolve ClassFile.twoTables .tabled forwardBody 2 =
        .ok ⟨"A", "m" ++ "()V", line?⟩ ∧ IsLineAt [⟨0, 10⟩, ⟨2, 20⟩] 2 line?) ∧
      ∃ row ∈ ([⟨2, 20⟩, ⟨0, 10⟩] : List LineRow), ∃ other ∈ ([⟨2, 20⟩, ⟨0, 10⟩] : List LineRow),
        other.start.toNat < row.start.toNat ∧
          resolve ClassFile.twoTables .tabled backwardBody row.start.toNat =
            .ok ⟨"A", "m" ++ "()V", some other.line⟩ := by
  have hclass : ClassFile.twoTables.className = .ok "A" := by decide +kernel
  have hname : ClassFile.twoTables.pool.text Member.tabled.name = .ok "m" := by decide +kernel
  have hdescriptor : ClassFile.twoTables.pool.text Member.tabled.descriptor = .ok "()V" := by
    decide +kernel
  constructor
  · obtain ⟨line?, hline, hgreatest⟩ := (resolve_in_order hclass hname hdescriptor
      hasTables_forwardBody (by decide) (by decide)).1 2
    exact ⟨line?, hline, hgreatest (by decide)⟩
  · exact (resolve_in_order hclass hname hdescriptor hasTables_backwardBody (by decide)
      (by decide)).2.1 (by decide)

/-- The second table goes back, and the line of its row is told where the row of the first table
starts. With the tables in order the line of that row is told. -/
theorem resolve_backwardBody :
    ClassFile.read ClassFile.twoTablesBytes = .ok ClassFile.twoTables ∧
      Member.tabled ∈ ClassFile.twoTables.methods ∧
      Member.tabled.body ClassFile.twoTables.pool = .ok (some backwardBody) ∧
      resolve ClassFile.twoTables .tabled backwardBody 2 = .ok ⟨"A", "m()V", some 10⟩ ∧
      backwardBody.HasTables ClassFile.twoTables.pool [[⟨2, 20⟩], [⟨0, 10⟩]] ∧
      IsGreatestUpTo [⟨2, 20⟩, ⟨0, 10⟩] 2 ⟨2, 20⟩ ∧
      forwardBody.attributes.Perm backwardBody.attributes ∧
      resolve ClassFile.twoTables .tabled forwardBody 2 = .ok ⟨"A", "m()V", some 20⟩ := by
  exact ⟨by decide +kernel, List.mem_cons_self, by decide +kernel, by decide +kernel,
    hasTables_backwardBody, by decide, List.reverse_perm _, by decide +kernel⟩

end Location

end JarText
