import JarText.Proofs.EditBatches

/-!
# Warnings of renamings

A run warns of every edit that it tries whose text is also a name or a descriptor, in the order in
which it tries them. It looks for names outside of the bodies of methods: the name of a table of
lines is changed without a word.
-/

set_option autoImplicit false

namespace JarText

namespace Edit

variable {archive : MemoryArchive} {edits group : List Edit} {edit : Edit}

/-- The text of the edit is also a name or a descriptor in the class of its entry. -/
def Renames (archive : MemoryArchive) (edit : Edit) : Prop :=
  ∃ file, archive.class? edit.entry = some file ∧ file.NamesText edit.textIndex

theorem any_names_iff_renames :
    (archive.class? edit.entry).any (·.names edit.textIndex) = true ↔ Renames archive edit := by
  rw [Option.any_eq_true]
  simp only [ClassFile.names_eq_true_iff]
  rfl

instance (archive : MemoryArchive) (edit : Edit) : Decidable (Renames archive edit) :=
  decidable_of_iff _ any_names_iff_renames

/-- The edits that a run tries: those up to the first that cannot be applied, but none if an entry
is missing. -/
def tried (archive : MemoryArchive) (edits : List Edit) : List Edit :=
  if ∀ owner ∈ owners edits, archive.contains owner = true then
    takeThrough (appliesIn archive) (grouped edits)
  else []

theorem warningsIn_eq : edit.warningsIn archive =
    if Renames archive edit then [edit.renameWarning] else [] := by
  rw [warningsIn]
  simp only [← any_names_iff_renames]
  cases archive.class? edit.entry <;> rfl

theorem flatMap_warningsIn : group.flatMap (warningsIn archive) =
    (group.filter fun edit => Renames archive edit).map renameWarning := by
  induction group with
  | nil => rfl
  | cons edit group ih =>
    rw [List.flatMap_cons, ih, warningsIn_eq, List.filter_cons]
    by_cases h : Renames archive edit
    · rw [if_pos h, if_pos (decide_eq_true h)]
      rfl
    · rw [if_neg h, if_neg (by simpa using h)]
      rfl

theorem saidOf_grouped (h : ∀ owner ∈ owners edits, archive.contains owner = true) :
    saidOf archive (grouped edits) =
      ((tried archive edits).filter fun edit => Renames archive edit).map renameWarning := by
  rw [tried, if_pos h, saidOf, flatMap_warningsIn]

/-- The edits that are tried and rename something are warned of, each in its turn, and no others.
If the edits succeed, all of them are tried. -/
theorem applyToArchive_warnings (archive : MemoryArchive) (edits : List Edit) :
    (applyToArchive archive edits).warnings =
        ((tried archive edits).filter fun edit => Renames archive edit).map renameWarning ∧
      (Succeeds archive edits → (tried archive edits).Perm edits) := by
  constructor
  · have hends := ends_applyToArchive archive edits
    generalize applyToArchive archive edits = outcome at hends
    cases hends with
    | @missing front back owner howners hfront hmissing =>
      have hnot : ¬ ∀ owner ∈ owners edits, archive.contains owner = true := by
        intro h
        have hpresent := h owner (howners ▸ List.mem_append_right _ List.mem_cons_self)
        rw [MemoryArchive.contains, hmissing] at hpresent
        cases hpresent
      rw [tried, if_neg hnot]
      rfl
    | stopped hpresent => exact saidOf_grouped hpresent
    | done h => exact saidOf_grouped fun owner hmem => isSome_of_rewrites (h owner hmem)
  · intro h
    have hpresent : ∀ owner ∈ owners edits, archive.contains owner = true :=
      fun owner hmem => isSome_of_rewrites (succeeds_iff_rewrites.mp h owner hmem)
    have hall : ∀ edit ∈ grouped edits, edit.appliesIn archive = true :=
      fun edit hmem => succeeds_iff_appliesIn.mp h edit ((perm_grouped edits).mem_iff.mp hmem)
    rw [tried, if_pos hpresent, takeThrough_of_forall hall]
    exact perm_grouped edits

/-- Edits of two classes in turn, two of them of names. -/
def editsOfNames : List Edit :=
  [⟨"B.class", 1, "x"⟩, ⟨"A.class", 6, "y"⟩, ⟨"B.class", 3, "z"⟩]

theorem applyToArchive_warnings_of_names :
    (tried twoClasses editsOfNames).Perm editsOfNames ∧
      (applyToArchive twoClasses editsOfNames).warnings =
        ["B.class #1 is also used as a name or descriptor; renaming it too",
          "B.class #3 is also used as a name or descriptor; renaming it too"] := by
  obtain ⟨hwarnings, htried⟩ := applyToArchive_warnings twoClasses editsOfNames
  have hsucceeds : Succeeds twoClasses editsOfNames := by
    rw [Succeeds]
    decide +kernel
  refine ⟨htried hsucceeds, hwarnings.trans ?_⟩
  decide +kernel

end Edit

namespace ClassFile

/-- A class with a table of lines, the name of which is loaded as a string too. -/
def tabled : ClassFile :=
  { minor := 0, major := 52
    pool := ⟨#[none, some (.utf8 [65]), some (.classInfo 1),
      some (.utf8 [106, 97, 118, 97, 47, 108, 97, 110, 103, 47, 79, 98, 106, 101, 99, 116]),
      some (.classInfo 3), some (.utf8 [109]), some (.utf8 [40, 41, 86]),
      some (.utf8 [67, 111, 100, 101]),
      some (.utf8 [76, 105, 110, 101, 78, 117, 109, 98, 101, 114, 84, 97, 98, 108, 101]),
      some (.string 8)]⟩
    access := 0x21, thisClass := 2, superClass := 4, interfaces := [], fields := []
    methods :=
      [⟨9, 5, 6, [⟨7, [0, 1, 0, 0, 0, 0, 0, 4, 18, 9, 87, 177, 0, 0, 0, 1, 0, 8, 0, 0, 0, 6, 0, 1,
        0, 0, 0, 7]⟩]⟩]
    attributes := [] }

def tabledBytes : Bytes :=
  [202, 254, 186, 190, 0, 0, 0, 52, 0, 10, 1, 0, 1, 65, 7, 0, 1, 1, 0, 16, 106, 97, 118, 97, 47,
   108, 97, 110, 103, 47, 79, 98, 106, 101, 99, 116, 7, 0, 3, 1, 0, 1, 109, 1, 0, 3, 40, 41, 86, 1,
   0, 4, 67, 111, 100, 101, 1, 0, 15, 76, 105, 110, 101, 78, 117, 109, 98, 101, 114, 84, 97, 98,
   108, 101, 8, 0, 8, 0, 33, 0, 2, 0, 4, 0, 0, 0, 0, 0, 1, 0, 9, 0, 5, 0, 6, 0, 1, 0, 7, 0, 0, 0,
   28, 0, 1, 0, 0, 0, 0, 0, 4, 18, 9, 87, 177, 0, 0, 0, 1, 0, 8, 0, 0, 0, 6, 0, 1, 0, 0, 0, 7, 0, 0]

end ClassFile

namespace Edit

def oneTabled : MemoryArchive :=
  ⟨[("A.class", ClassFile.tabledBytes)], by decide⟩

/-- The name of a table of lines is changed without a word. -/
theorem applyToArchive_silent_at_table :
    (applyToArchive oneTabled [⟨"A.class", 8, "x"⟩]).result = .ok ⟨1, 1⟩ ∧
      oneTabled.class? "A.class" = some ClassFile.tabled ∧
      ClassFile.tabled.NamesTextInBody 8 ∧
      (applyToArchive oneTabled [⟨"A.class", 8, "x"⟩]).warnings = [] := by
  refine ⟨by decide +kernel, by decide +kernel, ?_, by decide +kernel⟩
  refine ⟨_, List.mem_cons_self, ⟨1, 0, [18, 9, 87, 177], [⟨8, [0, 1, 0, 0, 0, 7]⟩]⟩, ?_,
    ⟨8, [0, 1, 0, 0, 0, 7]⟩, List.mem_cons_self, rfl⟩
  decide +kernel

end Edit

end JarText
