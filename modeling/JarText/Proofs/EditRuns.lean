import JarText.Proofs.ArchiveEdits
import JarText.Proofs.NameUses

/-!
# How a run of edits ends

A run of edits ends in one of three ways. An entry may be missing, and then nothing is done. Else
the entries are rewritten one after the other, all of them or up to the first that cannot be: those
before it have their new bytes by then, it and all others have the bytes that they had. What is said
on the way is told by the edits alone, in the order in which they are tried.
-/

set_option autoImplicit false

namespace JarText

namespace MemoryArchive

def class? (archive : MemoryArchive) (name : String) : Option ClassFile :=
  (archive.get? name).bind fun data => (ClassFile.read data).toOption

variable {archive : MemoryArchive} {name : String} {data : Bytes} {file : ClassFile}

theorem class?_eq_some_iff : archive.class? name = some file ↔
    ∃ data, archive.get? name = some data ∧ ClassFile.read data = .ok file := by
  rw [class?, Option.bind_eq_some_iff]
  constructor
  · rintro ⟨data, hget, hread⟩
    refine ⟨data, hget, ?_⟩
    cases hfile : ClassFile.read data with
    | error fault =>
      rw [hfile] at hread
      cases hread
    | ok found =>
      rw [hfile] at hread
      exact congrArg Except.ok (Option.some.inj hread)
  · rintro ⟨data, hget, hread⟩
    refine ⟨data, hget, ?_⟩
    rw [hread]
    rfl

end MemoryArchive

namespace Edit

variable {archive : MemoryArchive} {edits group : List Edit} {edit : Edit} {owner : String}
  {data : Bytes} {file file' : ClassFile} {fault : Fault}

/-! ## One class -/

theorem isOk_apply_iff : (edit.apply file).isOk = true ↔ edit.Applies file.pool := by
  cases happly : edit.apply file with
  | error fault =>
    constructor
    · intro h
      cases h
    · intro h
      have hok := apply_eq_ok_iff.mpr ⟨h, rfl⟩
      rw [happly] at hok
      cases hok
  | ok file' =>
    constructor
    · intro _
      exact (apply_eq_ok_iff.mp happly).1
    · intro _
      rfl

theorem isOk_apply_of_apply {other : Edit} (h : edit.apply file = .ok file') :
    (other.apply file').isOk = (other.apply file).isOk := by
  obtain ⟨hedit, rfl⟩ := apply_eq_ok_iff.mp h
  obtain ⟨old, hpayload⟩ := hedit.payload
  have hagrees := Pool.agreesOff_withPayload hpayload (Text.ModifiedUtf8.encode edit.value)
  rw [Bool.eq_iff_iff, isOk_apply_iff, isOk_apply_iff]
  constructor
  · intro hother
    exact hother.of_agreesOff hagrees.symm
  · intro hother
    exact hother.of_agreesOff hagrees

theorem warnings_of_apply {other : Edit} (h : edit.apply file = .ok file') :
    other.warnings file' = other.warnings file := by
  obtain ⟨hedit, rfl⟩ := apply_eq_ok_iff.mp h
  obtain ⟨old, hpayload⟩ := hedit.payload
  rw [warnings, warnings, ClassFile.names_withPayload hpayload]

theorem reverse_warnings : (edit.warnings file).reverse = edit.warnings file := by
  unfold warnings
  split
  · rfl
  · rfl

/-- The warnings for a class are those that it would give for each edit alone. -/
theorem snd_applyAll (said : List String) : (applyAll file edits said).2 =
    ((takeThrough (fun edit => (edit.apply file).isOk) edits).flatMap (·.warnings file)).reverse
      ++ said := by
  induction edits generalizing file said with
  | nil => rfl
  | cons edit edits ih =>
    rw [applyAll, takeThrough, List.flatMap_cons, List.reverse_append, reverse_warnings,
      List.append_assoc]
    cases happly : edit.apply file with
    | error fault => rfl
    | ok file' =>
      refine (ih _).trans ?_
      simp only [isOk_apply_of_apply happly, warnings_of_apply happly]
      rfl

/-! ## One entry -/

def appliesIn (archive : MemoryArchive) (edit : Edit) : Bool :=
  (archive.class? edit.entry).any fun file => (edit.apply file).isOk

/-- What is said of an edit before it is applied to the class of its entry. -/
def warningsIn (archive : MemoryArchive) (edit : Edit) : List String :=
  (archive.class? edit.entry).elim [] edit.warnings

/-- What is said when edits are tried one after the other, up to the first that cannot be
applied. -/
def saidOf (archive : MemoryArchive) (edits : List Edit) : List String :=
  (takeThrough (appliesIn archive) edits).flatMap (warningsIn archive)

theorem appliesIn_iff : edit.appliesIn archive = true ↔ ∃ data file,
    archive.get? edit.entry = some data ∧ ClassFile.read data = .ok file ∧
      edit.Applies file.pool := by
  rw [appliesIn, Option.any_eq_true]
  simp only [MemoryArchive.class?_eq_some_iff, isOk_apply_iff]
  constructor
  · rintro ⟨file, ⟨data, hget, hread⟩, happlies⟩
    exact ⟨data, file, hget, hread, happlies⟩
  · rintro ⟨data, file, hget, hread, happlies⟩
    exact ⟨file, ⟨data, hget, hread⟩, happlies⟩

theorem saidOf_append {front back : List Edit} (h : ∀ edit ∈ front, edit.appliesIn archive = true) :
    saidOf archive (front ++ back) = saidOf archive front ++ saidOf archive back := by
  rw [saidOf, takeThrough_append_of_forall h, List.flatMap_append, saidOf,
    takeThrough_of_forall h, saidOf]

theorem appliesIn_congr {archive' : MemoryArchive}
    (h : archive'.class? edit.entry = archive.class? edit.entry) :
    edit.appliesIn archive' = edit.appliesIn archive := by
  rw [appliesIn, appliesIn, h]

theorem warningsIn_congr {archive' : MemoryArchive}
    (h : archive'.class? edit.entry = archive.class? edit.entry) :
    edit.warningsIn archive' = edit.warningsIn archive := by
  rw [warningsIn, warningsIn, h]

theorem saidOf_congr {archive' : MemoryArchive}
    (happlies : ∀ edit ∈ edits, edit.appliesIn archive' = edit.appliesIn archive)
    (hwarnings : ∀ edit ∈ edits, edit.warningsIn archive' = edit.warningsIn archive) :
    saidOf archive' edits = saidOf archive edits := by
  rw [saidOf, saidOf, takeThrough_congr happlies]
  apply List.flatMap_congr
  intro edit hmem
  exact hwarnings edit (mem_of_mem_takeThrough hmem)

theorem saidOf_of_class?_eq_none (h : ∀ edit ∈ group, archive.class? edit.entry = none) :
    saidOf archive group = [] := by
  apply List.flatMap_eq_nil_iff.mpr
  intro edit hmem
  rw [warningsIn, h edit (mem_of_mem_takeThrough hmem)]
  rfl

theorem saidOf_of_class? (h : ∀ edit ∈ group, archive.class? edit.entry = some file) :
    saidOf archive group =
      (takeThrough (fun edit => (edit.apply file).isOk) group).flatMap (·.warnings file) := by
  have happlies : takeThrough (appliesIn archive) group =
      takeThrough (fun edit => (edit.apply file).isOk) group :=
    takeThrough_congr fun edit hmem => by rw [appliesIn, h edit hmem, Option.any_some]
  rw [saidOf, happlies]
  apply List.flatMap_congr
  intro edit hmem
  rw [warningsIn, h edit (mem_of_mem_takeThrough hmem)]
  rfl

theorem snd_applyToOwner (hgroup : ∀ edit ∈ group, edit.entry = owner) (said : List String) :
    (applyToOwner archive owner group said).2 = (saidOf archive group).reverse ++ said := by
  have hclass {found : Option ClassFile} (hfound : archive.class? owner = found) :
      ∀ edit ∈ group, archive.class? edit.entry = found := by
    intro edit hmem
    rw [hgroup edit hmem, hfound]
  unfold applyToOwner
  simp only [MemoryArchive.archive_read, MemoryArchive.archive_replace, MemoryArchive.read]
  cases hget : archive.get? owner with
  | none =>
    have hnone : archive.class? owner = none := by rw [MemoryArchive.class?, hget]; rfl
    rw [saidOf_of_class?_eq_none (hclass hnone)]
    rfl
  | some data =>
    cases hread : ClassFile.read data with
    | error fault =>
      have hnone : archive.class? owner = none := by
        rw [MemoryArchive.class?, hget, Option.bind_some, hread]
        rfl
      rw [saidOf_of_class?_eq_none (hclass hnone)]
      simp only [hread]
      rfl
    | ok file =>
      rw [saidOf_of_class? (hclass (MemoryArchive.class?_eq_some_iff.mpr ⟨data, hget, hread⟩)),
        ← snd_applyAll said]
      simp only [hread]
      obtain ⟨result, said', happly⟩ : ∃ result said',
          applyAll file group said = (result, said') := ⟨_, _, rfl⟩
      rw [happly]
      cases result <;> rfl

theorem applyToOwner_eq (hget : archive.get? owner = some data)
    (hgroup : ∀ edit ∈ group, edit.entry = owner) (said : List String) :
    applyToOwner archive owner group said =
      ((rewritten group data).map (archive.setBytes owner),
        (saidOf archive group).reverse ++ said) := by
  refine Prod.ext ?_ (snd_applyToOwner hgroup said)
  rw [fst_applyToOwner, MemoryArchive.read_eq_ok_iff.mpr hget]
  cases hnew : rewritten group data with
  | error fault =>
    change (rewritten group data >>= _) = _
    rw [hnew]
    rfl
  | ok new =>
    have hreplace : archive.replace owner new = .ok (archive.setBytes owner new) := by
      rw [MemoryArchive.replace, hget]
    change (rewritten group data >>= _) = _
    rw [hnew]
    exact hreplace

theorem entry_of_mem_ofOwner (h : edit ∈ ofOwner edits owner) : edit.entry = owner :=
  eq_of_beq (List.mem_filter.mp h).2

/-! ## Entry by entry -/

/-- The edits of an entry can all be applied to its class. -/
def Rewrites (archive : MemoryArchive) (edits : List Edit) (owner : String) : Prop :=
  ∃ data new, archive.get? owner = some data ∧ rewritten (ofOwner edits owner) data = .ok new

/-- The archive with new bytes in these entries. -/
def withOwners (archive : MemoryArchive) (edits : List Edit) (owners : List String) :
    MemoryArchive :=
  archive.mapBytes fun name data => if name ∈ owners then newBytes edits name data else data

/-- The edits in the order in which they are tried. -/
def grouped (edits : List Edit) : List Edit := (owners edits).flatMap (ofOwner edits)

theorem perm_grouped (edits : List Edit) : (grouped edits).Perm edits :=
  perm_flatMap_filter_key (fun edit : Edit => edit.entry) (nodup_owners edits) fun edit hmem =>
    mem_owners_iff.mpr ⟨edit, hmem, rfl⟩

theorem sum_length_ofOwner (edits : List Edit) :
    ((owners edits).map fun owner => (ofOwner edits owner).length).sum = edits.length := by
  rw [← (perm_grouped edits).length_eq, grouped, List.length_flatMap]

theorem Rewrites.appliesIn (h : Rewrites archive edits owner) :
    ∀ edit ∈ ofOwner edits owner, edit.appliesIn archive = true := by
  obtain ⟨data, new, hget, hnew⟩ := h
  obtain ⟨file, hread, happlies, _⟩ := rewritten_eq_ok_iff.mp hnew
  intro edit hmem
  rw [← entry_of_mem_ofOwner hmem] at hget
  exact appliesIn_iff.mpr ⟨data, file, hget, hread, happlies edit hmem⟩

theorem rewrites_of_appliesIn (howner : owner ∈ owners edits)
    (h : ∀ edit ∈ ofOwner edits owner, edit.appliesIn archive = true) :
    Rewrites archive edits owner := by
  obtain ⟨edit, hmem, rfl⟩ := mem_owners_iff.mp howner
  obtain ⟨data, file, hget, hread, _⟩ :=
    appliesIn_iff.mp (h edit (List.mem_filter.mpr ⟨hmem, beq_self_eq_true _⟩))
  refine ⟨data, _, hget, rewritten_eq_ok_iff.mpr ⟨file, hread, ?_, rfl⟩⟩
  intro other hother
  obtain ⟨data', file', hget', hread', happlies⟩ := appliesIn_iff.mp (h other hother)
  rw [entry_of_mem_ofOwner hother, hget] at hget'
  cases hget'
  rw [hread] at hread'
  cases hread'
  exact happlies

theorem get?_withOwners_of_mem {owners : List String} (h : owner ∈ owners) :
    (withOwners archive edits owners).get? owner =
      (archive.get? owner).map (newBytes edits owner) := by
  rw [withOwners, MemoryArchive.get?_mapBytes]
  simp only [if_pos h]

theorem get?_withOwners_of_notMem {owners : List String} {name : String} (h : name ∉ owners) :
    (withOwners archive edits owners).get? name = archive.get? name := by
  rw [withOwners, MemoryArchive.get?_mapBytes]
  simp only [if_neg h]
  exact Option.map_id'

theorem withOwners_cons {rest : List String} {new : Bytes} (hfresh : owner ∉ rest)
    (hget : archive.get? owner = some data)
    (hnew : rewritten (ofOwner edits owner) data = .ok new) :
    withOwners (archive.setBytes owner new) edits rest =
      withOwners archive edits (owner :: rest) := by
  rw [withOwners, withOwners, MemoryArchive.setBytes_eq_mapBytes, MemoryArchive.mapBytes_mapBytes]
  apply MemoryArchive.mapBytes_congr
  intro name old hold
  by_cases hname : name = owner
  · subst hname
    rw [hget] at hold
    cases hold
    rw [if_neg hfresh, if_pos rfl, if_pos List.mem_cons_self, newBytes_of_rewritten hnew]
  · rw [if_neg hname]
    simp only [List.mem_cons, hname, false_or]

/-- Entries that can be rewritten are, and the run goes on with the entries after them. -/
theorem applyToOwners_append {front : List String} (hnodup : front.Nodup)
    (h : ∀ owner ∈ front, Rewrites archive edits owner) (back : List String)
    (summary : EditSummary) (said : List String) :
    applyToOwners edits (front ++ back) archive summary said =
      applyToOwners edits back (withOwners archive edits front)
        { entries := summary.entries + front.length
          edits := summary.edits + (front.map fun owner => (ofOwner edits owner).length).sum }
        ((saidOf archive (front.flatMap (ofOwner edits))).reverse ++ said) := by
  induction front generalizing archive summary said with
  | nil => simp [withOwners, MemoryArchive.mapBytes_id, saidOf, takeThrough]
  | cons owner rest ih =>
    obtain ⟨hfresh, hrest⟩ := List.nodup_cons.mp hnodup
    obtain ⟨howner, hothers⟩ := List.forall_mem_cons.mp h
    obtain ⟨data, new, hget, hnew⟩ := howner
    have hne {later : String} (hmem : later ∈ rest) : later ≠ owner :=
      fun heq => hfresh (heq ▸ hmem)
    -- the entries still to come hold what they held
    have hkept {later : String} (hmem : later ∈ rest) :
        (archive.setBytes owner new).get? later = archive.get? later :=
      MemoryArchive.get?_setBytes_of_ne (hne hmem)
    have hlater : ∀ later ∈ rest, Rewrites (archive.setBytes owner new) edits later := by
      intro later hmem
      obtain ⟨old, later', hold, hlater'⟩ := hothers later hmem
      exact ⟨old, later', (hkept hmem).trans hold, hlater'⟩
    have hclass : ∀ edit ∈ rest.flatMap (ofOwner edits),
        (archive.setBytes owner new).class? edit.entry = archive.class? edit.entry := by
      intro edit hmem
      obtain ⟨later, hlater, hmem⟩ := List.mem_flatMap.mp hmem
      rw [entry_of_mem_ofOwner hmem, MemoryArchive.class?, MemoryArchive.class?, hkept hlater]
    have hsaid : saidOf (archive.setBytes owner new) (rest.flatMap (ofOwner edits)) =
        saidOf archive (rest.flatMap (ofOwner edits)) :=
      saidOf_congr (fun edit hmem => appliesIn_congr (hclass edit hmem))
        fun edit hmem => warningsIn_congr (hclass edit hmem)
    rw [List.cons_append, applyToOwners, applyToOwner_eq hget (fun _ => entry_of_mem_ofOwner), hnew]
    refine (ih hrest hlater _ _).trans ?_
    rw [withOwners_cons hfresh hget hnew, hsaid, List.flatMap_cons,
      saidOf_append (h owner List.mem_cons_self).appliesIn, List.reverse_append, List.append_assoc,
      List.map_cons, List.sum_cons, List.length_cons]
    simp only [Nat.add_assoc, Nat.add_comm 1]

/-! ## The three endings -/

theorem isSome_of_rewrites (h : Rewrites archive edits owner) : (archive.get? owner).isSome := by
  obtain ⟨data, _, hget, _⟩ := h
  rw [hget]
  rfl

theorem applyToArchive_missing {front back : List String}
    (howners : owners edits = front ++ owner :: back)
    (hfront : ∀ other ∈ front, (archive.get? other).isSome) (hmissing : archive.get? owner = none) :
    applyToArchive archive edits = ⟨archive, .error (.entryMissing owner), []⟩ := by
  have hfind : (owners edits).find? (fun owner => !Archive.contains archive owner) =
      some owner := by
    rw [List.find?_eq_some_iff_append]
    refine ⟨by rw [MemoryArchive.archive_contains, hmissing]; rfl, front, back, howners, ?_⟩
    intro other hmem
    rw [MemoryArchive.archive_contains, hfront other hmem]
    rfl
  unfold applyToArchive
  simp only [hfind]

theorem applyToArchive_of_present (h : ∀ owner ∈ owners edits, (archive.get? owner).isSome) :
    applyToArchive archive edits = applyToOwners edits (owners edits) archive {} [] := by
  have hfind : (owners edits).find? (fun owner => !Archive.contains archive owner) = none := by
    rw [List.find?_eq_none]
    intro owner hmem
    rw [MemoryArchive.archive_contains, h owner hmem]
    exact Bool.false_ne_true
  unfold applyToArchive
  simp only [hfind]

theorem nodup_of_owners_eq {front back : List String}
    (howners : owners edits = front ++ owner :: back) : front.Nodup ∧ owner ∉ front := by
  have hnodup := nodup_owners edits
  rw [howners] at hnodup
  obtain ⟨hdistinct, _, hapart⟩ := List.nodup_append.mp hnodup
  exact ⟨hdistinct, fun hmem => hapart owner hmem owner List.mem_cons_self rfl⟩

theorem applyToArchive_stopped {front back : List String}
    (hpresent : ∀ owner ∈ owners edits, (archive.get? owner).isSome)
    (howners : owners edits = front ++ owner :: back)
    (hfront : ∀ other ∈ front, Rewrites archive edits other)
    (hget : archive.get? owner = some data)
    (hfault : rewritten (ofOwner edits owner) data = .error fault) :
    applyToArchive archive edits =
      ⟨withOwners archive edits front, .error fault, saidOf archive (grouped edits)⟩ := by
  obtain ⟨hdistinct, hfresh⟩ := nodup_of_owners_eq howners
  have hget' : (withOwners archive edits front).get? owner = some data :=
    (get?_withOwners_of_notMem hfresh).trans hget
  have hclass : ∀ edit ∈ ofOwner edits owner,
      (withOwners archive edits front).class? edit.entry = archive.class? edit.entry := by
    intro edit hmem
    rw [entry_of_mem_ofOwner hmem, MemoryArchive.class?, MemoryArchive.class?, hget', hget]
  have hsaid : saidOf (withOwners archive edits front) (ofOwner edits owner) =
      saidOf archive (ofOwner edits owner) :=
    saidOf_congr (fun edit hmem => appliesIn_congr (hclass edit hmem))
      fun edit hmem => warningsIn_congr (hclass edit hmem)
  -- nothing is tried after the edit that cannot be applied
  have hstop : ¬ ∀ edit ∈ ofOwner edits owner, edit.appliesIn archive = true := by
    intro happlies
    have howner : owner ∈ owners edits := howners ▸ List.mem_append_right _ List.mem_cons_self
    obtain ⟨data', new, hdata', hnew⟩ := rewrites_of_appliesIn howner happlies
    rw [hget] at hdata'
    cases hdata'
    rw [hfault] at hnew
    cases hnew
  have happlied : ∀ edit ∈ front.flatMap (ofOwner edits), edit.appliesIn archive = true := by
    intro edit hmem
    obtain ⟨other, hother, hmem⟩ := List.mem_flatMap.mp hmem
    exact (hfront other hother).appliesIn edit hmem
  have hgrouped : saidOf archive (grouped edits) =
      saidOf archive (front.flatMap (ofOwner edits)) ++ saidOf archive (ofOwner edits owner) := by
    rw [grouped, howners, List.flatMap_append, List.flatMap_cons, saidOf_append happlied]
    congr 1
    rw [saidOf, takeThrough_append_of_not hstop, saidOf]
  rw [applyToArchive_of_present hpresent, howners, applyToOwners_append hdistinct hfront,
    applyToOwners, applyToOwner_eq hget' (fun _ => entry_of_mem_ofOwner), hfault, hgrouped, hsaid]
  simp [Except.map]

theorem withOwners_owners (archive : MemoryArchive) (edits : List Edit) :
    withOwners archive edits (owners edits) = archive.mapBytes (newBytes edits) := by
  apply MemoryArchive.mapBytes_congr
  intro name data _
  split
  · rfl
  · rename_i hname
    exact (newBytes_of_ofOwner_eq_nil (ofOwner_eq_nil_of_notMem hname)).symm

/-- If the edits of every entry can be applied, they are, and nothing else is done. -/
theorem applyToArchive_done (h : ∀ owner ∈ owners edits, Rewrites archive edits owner) :
    applyToArchive archive edits =
      ⟨archive.mapBytes (newBytes edits),
        .ok { entries := (owners edits).length, edits := edits.length },
        saidOf archive (grouped edits)⟩ := by
  have hrun := applyToOwners_append (nodup_owners edits) h [] {} []
  rw [List.append_nil] at hrun
  rw [applyToArchive_of_present fun owner hmem => isSome_of_rewrites (h owner hmem), hrun,
    applyToOwners, withOwners_owners, sum_length_ofOwner, grouped, List.append_nil,
    List.reverse_reverse]
  simp only [Nat.zero_add]

theorem applyToArchive_ok
    (h : ∀ owner ∈ owners edits, ∃ data new, archive.get? owner = some data ∧
      rewritten (ofOwner edits owner) data = .ok new) :
    ∃ said, applyToArchive archive edits =
      ⟨archive.mapBytes (newBytes edits),
        .ok { entries := (owners edits).length, edits := edits.length }, said⟩ :=
  ⟨_, applyToArchive_done h⟩

/-- How a run of edits ends, and with what. -/
inductive Ends (archive : MemoryArchive) (edits : List Edit) :
    EditOutcome MemoryArchive → Prop where
  | missing {front back : List String} {owner : String}
      (howners : owners edits = front ++ owner :: back)
      (hfront : ∀ other ∈ front, (archive.get? other).isSome)
      (hmissing : archive.get? owner = none) :
      Ends archive edits ⟨archive, .error (.entryMissing owner), []⟩
  | stopped {front back : List String} {owner : String} {data : Bytes} {fault : Fault}
      (hpresent : ∀ owner ∈ owners edits, (archive.get? owner).isSome)
      (howners : owners edits = front ++ owner :: back)
      (hfront : ∀ other ∈ front, Rewrites archive edits other)
      (hget : archive.get? owner = some data)
      (hfault : rewritten (ofOwner edits owner) data = .error fault) :
      Ends archive edits
        ⟨withOwners archive edits front, .error fault, saidOf archive (grouped edits)⟩
  | done (h : ∀ owner ∈ owners edits, Rewrites archive edits owner) :
      Ends archive edits
        ⟨archive.mapBytes (newBytes edits),
          .ok { entries := (owners edits).length, edits := edits.length },
          saidOf archive (grouped edits)⟩

theorem ends_applyToArchive (archive : MemoryArchive) (edits : List Edit) :
    Ends archive edits (applyToArchive archive edits) := by
  rcases forall_or_exists_first (fun owner => (archive.get? owner).isSome) (owners edits) with
    hpresent | ⟨front, owner, back, howners, hfront, hmissing⟩
  · rcases forall_or_exists_first (Rewrites archive edits) (owners edits) with
      hall | ⟨front, owner, back, howners, hfront, hnot⟩
    · rw [applyToArchive_done hall]
      exact .done hall
    · have howner : owner ∈ owners edits := howners ▸ List.mem_append_right _ List.mem_cons_self
      obtain ⟨data, hget⟩ := Option.isSome_iff_exists.mp (hpresent owner howner)
      cases hnew : rewritten (ofOwner edits owner) data with
      | ok new => exact absurd ⟨data, new, hget, hnew⟩ hnot
      | error fault =>
        rw [applyToArchive_stopped hpresent howners hfront hget hnew]
        exact .stopped hpresent howners hfront hget hnew
  · have hnone : archive.get? owner = none := Option.not_isSome_iff_eq_none.mp hmissing
    rw [applyToArchive_missing howners hfront hnone]
    exact .missing howners hfront hnone

theorem rewritten_of_applyToArchive {summary : EditSummary}
    (h : (applyToArchive archive edits).result = .ok summary) :
    ∀ owner ∈ owners edits, ∃ data new, archive.get? owner = some data ∧
      rewritten (ofOwner edits owner) data = .ok new := by
  have hends := ends_applyToArchive archive edits
  generalize applyToArchive archive edits = outcome at h hends
  cases hends with
  | missing => cases h
  | stopped => cases h
  | done hall => exact hall

end Edit

end JarText
