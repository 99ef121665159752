import JarText.Proofs.ClassEdits
import JarText.Proofs.MethodScan

/-!
# The scan of an edited class

An edit of a text that is no name in its class leaves every look-up of a scan as it was, the one
for the text itself apart. So the scan of the edited class runs in step with the scan of the class,
and the two results differ in the texts only.
-/

set_option autoImplicit false

namespace JarText

/-! ## New texts in a result -/

/-- The string with the text that `news` has for its entry and index, if it has one. -/
def FoundString.retext (news : String → UInt16 → Option String) (found : FoundString) :
    FoundString :=
  { found with value := (news found.entry found.textIndex).getD found.value }

def MethodStrings.retext (news : String → UInt16 → Option String) (group : MethodStrings) :
    MethodStrings :=
  { group with strings := group.strings.map (·.retext news) }

def ClassScan.retext (news : String → UInt16 → Option String) (scan : ClassScan) : ClassScan :=
  { scan with methods := scan.methods.map (·.retext news) }

/-! ## Names -/

/-- Whether an attribute in the body of the method has the text as its name. -/
def Member.namesInBody (pool : Pool) (index : UInt16) (method : Member) : Bool :=
  match method.body pool with
  | .ok (some body) => body.attributes.any (·.name == index)
  | _ => false

/-- Whether the text is the name or the descriptor of anything in the class. -/
def ClassFile.usesAsName (file : ClassFile) (index : UInt16) : Bool :=
  file.names index || file.methods.any (·.namesInBody file.pool index)

/-- No text at these indices is the name or the descriptor of anything in the class. -/
def ClassFile.Unnamed (edited : UInt16 → Prop) (file : ClassFile) : Prop :=
  ∀ index, edited index → file.usesAsName index = false

namespace ClassFile.Unnamed

variable {edited : UInt16 → Prop} {file : ClassFile} {method : Member} {index : UInt16}

theorem names_eq (h : file.Unnamed edited) (hindex : edited index) : file.names index = false :=
  (Bool.or_eq_false_iff.mp (h index hindex)).1

theorem pool (h : file.Unnamed edited) : file.pool.Unnamed edited := by
  intro i constant hget index hindex
  have hnames := h.names_eq hindex
  simp only [names, Bool.or_eq_false_iff] at hnames
  have hslot := Array.mem_of_getElem? (Pool.get_eq_ok_iff.mp hget)
  simpa using Array.any_eq_false'.mp hnames.1.1.1 _ hslot

theorem method_names (h : file.Unnamed edited) (hmethod : method ∈ file.methods)
    (hindex : edited index) : method.names index = false := by
  have hnames := h.names_eq hindex
  simp only [names, Bool.or_eq_false_iff] at hnames
  simpa using List.any_eq_false.mp hnames.1.2 method hmethod

theorem not_edited_name (h : file.Unnamed edited) (hmethod : method ∈ file.methods) :
    ¬ edited method.name := by
  intro hindex
  simpa [Member.names] using h.method_names hmethod hindex

theorem not_edited_descriptor (h : file.Unnamed edited) (hmethod : method ∈ file.methods) :
    ¬ edited method.descriptor := by
  intro hindex
  simpa [Member.names] using h.method_names hmethod hindex

theorem not_edited_attribute (h : file.Unnamed edited) (hmethod : method ∈ file.methods) :
    ∀ attr ∈ method.attributes, ¬ edited attr.name := by
  intro attr hattr hindex
  have hnames := h.method_names hmethod hindex
  simp only [Member.names, Bool.or_eq_false_iff] at hnames
  simpa using List.any_eq_false.mp hnames.2 attr hattr

theorem not_edited_in_body (h : file.Unnamed edited) (hmethod : method ∈ file.methods)
    {body : CodeBody} (hbody : method.body file.pool = .ok (some body)) :
    ∀ attr ∈ body.attributes, ¬ edited attr.name := by
  intro attr hattr hindex
  have hnames := List.any_eq_false.mp (Bool.or_eq_false_iff.mp (h _ hindex)).2 method hmethod
  rw [Member.namesInBody, hbody] at hnames
  exact hnames (List.any_eq_true.mpr ⟨attr, hattr, beq_self_eq_true _⟩)

end ClassFile.Unnamed

/-! ## Look-ups -/

section LookUps

variable {edited : UInt16 → Prop} {pool pool' : Pool} (h : pool.AgreesOff edited pool')
include h

theorem Attribute.isNamed_eq {attr : Attribute} (hattr : ¬ edited attr.name) (name : Bytes) :
    attr.isNamed pool' name = attr.isNamed pool name := by
  rw [isNamed, isNamed, h.payload_eq hattr]

theorem Attribute.filter_isNamed_eq {attributes : List Attribute}
    (hattrs : ∀ attr ∈ attributes, ¬ edited attr.name) (name : Bytes) :
    attributes.filter (·.isNamed pool' name) = attributes.filter (·.isNamed pool name) := by
  apply List.filter_congr
  intro attr hattr
  exact isNamed_eq h (hattrs attr hattr) name

theorem Member.body_eq {method : Member} (hattrs : ∀ attr ∈ method.attributes, ¬ edited attr.name) :
    method.body pool' = method.body pool := by
  have hfind : Attribute.find? method.attributes pool' "Code" =
      Attribute.find? method.attributes pool "Code" := by
    unfold Attribute.find?
    rw [← List.head?_filter, ← List.head?_filter, Attribute.filter_isNamed_eq h hattrs]
  rw [body, body, hfind]

theorem CodeBody.lineRows_eq {body : CodeBody}
    (hattrs : ∀ attr ∈ body.attributes, ¬ edited attr.name) :
    body.lineRows pool' = body.lineRows pool := by
  rw [lineRows, lineRows, Attribute.filter_isNamed_eq h hattrs]

theorem ClassScan.stringLoad?_eq (instruction : Instruction) :
    stringLoad? pool' instruction = stringLoad? pool instruction := by
  unfold stringLoad?
  cases instruction.loadIndex? with
  | none => rfl
  | some index =>
    simp only [h.textIndex_eq]
    rcases h index with heq | ⟨_, bytes, bytes', hget, hget'⟩
    · rw [heq]
    · rw [hget, hget']
      rfl

theorem Use.next?_eq (hnames : pool.Unnamed edited) (after : List Instruction) :
    Use.next? pool' after = Use.next? pool after := by
  unfold Use.next?
  simp only [h.memberRef_eq hnames]

end LookUps

/-! ## The loops of a scan -/

theorem Location.ofBody_eq {edited : UInt16 → Prop} {file : ClassFile} {pool' : Pool}
    {method : Member} {body : CodeBody} (h : file.pool.AgreesOff edited pool')
    (hnames : file.Unnamed edited) (hmethod : method ∈ file.methods)
    (hbody : method.body file.pool = .ok (some body)) :
    ofBody { file with pool := pool' } method body = ofBody file method body := by
  unfold ofBody ClassFile.className
  simp only [h.className_eq hnames.pool, h.text_eq (hnames.not_edited_name hmethod),
    h.text_eq (hnames.not_edited_descriptor hmethod),
    CodeBody.lineRows_eq h (hnames.not_edited_in_body hmethod hbody)]

namespace ClassScan

section Loops

variable {news : String → UInt16 → Option String} {entry : String} {file : ClassFile} {pool' : Pool}
  (h : file.pool.Becomes (news entry) pool')
  (hnames : file.Unnamed fun i => (news entry i).isSome)
include h hnames

theorem describe_retext (locations : Except Fault (Nat → Location)) (id : Nat)
    (stringIndex textIndex : UInt16) (offset : Nat) (after : List Instruction) :
    describe entry pool' locations id stringIndex textIndex offset after =
      (describe entry file.pool locations id stringIndex textIndex offset after).map
        (·.retext news) := by
  unfold describe
  rw [h.text_map, Use.next?_eq h.agrees hnames.pool]
  cases file.pool.text textIndex with
  | error fault => rfl
  | ok value => cases locations <;> rfl

/-- The instructions of one method. -/
theorem stringsFrom_retext (locations : Except Fault (Nat → Location))
    (instructions : List Instruction) (seen : Std.TreeSet UInt16) (done : List FoundString) :
    stringsFrom entry pool' locations instructions seen (done.map (·.retext news)) =
      (stringsFrom entry file.pool locations instructions seen done).map
        fun found => (found.1.map (·.retext news), found.2) := by
  induction instructions generalizing seen done with
  | nil =>
    simp only [stringsFrom, ← List.map_reverse]
    rfl
  | cons instruction after ih =>
    simp only [stringsFrom, stringLoad?_eq h.agrees, describe_retext h hnames]
    cases stringLoad? file.pool instruction with
    | error fault => rfl
    | ok load =>
      cases load with
      | none => exact ih seen done
      | some load =>
        obtain ⟨stringIndex, textIndex⟩ := load
        simp only
        by_cases hseen : seen.contains textIndex
        · rw [if_pos hseen, if_pos hseen]
          exact ih seen done
        · rw [if_neg hseen, if_neg hseen]
          -- the texts seen are told by their indices, so both sides have seen the same
          cases describe entry file.pool locations seen.size stringIndex textIndex
              instruction.offset after with
          | error fault => rfl
          | ok found => exact ih (seen.insert textIndex) (found :: done)

theorem scanBody_retext (index : Nat) {method : Member} (hmethod : method ∈ file.methods)
    (seen : Std.TreeSet UInt16) (signature : String) {body : CodeBody}
    (hbody : method.body file.pool = .ok (some body)) :
    scanBody entry { file with pool := pool' } index method seen signature body =
      (scanBody entry file index method seen signature body).map
        fun found => (found.1.map (·.retext news), found.2) := by
  unfold scanBody
  rw [Location.ofBody_eq h.agrees hnames hmethod hbody]
  cases Instruction.decode body.code with
  | error fault => rfl
  | ok instructions =>
    have hloop : stringsFrom entry pool' _ instructions seen [] = _ :=
      stringsFrom_retext h hnames (Location.ofBody file method body) instructions seen []
    change (stringsFrom _ pool' _ _ _ [] >>= _) =
      Except.map _ (stringsFrom _ file.pool _ _ _ [] >>= _)
    rw [hloop]
    cases stringsFrom entry file.pool (Location.ofBody file method body) instructions seen [] with
    | error fault => rfl
    | ok found =>
      obtain ⟨strings, seen'⟩ := found
      cases strings <;> rfl

/-- One method: whether it is looked at does not depend on the texts. -/
theorem scanMethod_retext (config : ScanConfig) (index : Nat) {method : Member}
    (hmethod : method ∈ file.methods) (seen : Std.TreeSet UInt16) :
    scanMethod config entry { file with pool := pool' } index method seen =
      (scanMethod config entry file index method seen).map
        fun found => (found.1.map (·.retext news), found.2) := by
  have hlooked : lookedAt? config { file with pool := pool' } method =
      lookedAt? config file method := by
    unfold lookedAt?
    simp only [h.agrees.text_eq (hnames.not_edited_name hmethod),
      h.agrees.text_eq (hnames.not_edited_descriptor hmethod),
      Member.body_eq h.agrees (hnames.not_edited_attribute hmethod)]
    rfl
  rw [scanMethod_eq_lookedAt?, scanMethod_eq_lookedAt?, hlooked]
  cases hmethod_looked : lookedAt? config file method with
  | error fault => rfl
  | ok looked? =>
    cases looked? with
    | none => rfl
    | some looked =>
      obtain ⟨signature, body⟩ := looked
      obtain ⟨_, _, _, _, _, _, hbody, _⟩ := lookedAt?_eq_some_iff.mp hmethod_looked
      exact scanBody_retext h hnames index hmethod seen signature hbody

theorem methodsFrom_retext (config : ScanConfig) {methods : List Member}
    (hmethods : ∀ method ∈ methods, method ∈ file.methods) (index : Nat)
    (seen : Std.TreeSet UInt16) (done : List MethodStrings) :
    methodsFrom config entry { file with pool := pool' } methods index seen
        (done.map (·.retext news)) =
      (methodsFrom config entry file methods index seen done).map (List.map (·.retext news)) := by
  induction methods generalizing index seen done with
  | nil =>
    simp only [methodsFrom, ← List.map_reverse]
    rfl
  | cons method methods ih =>
    obtain ⟨hmethod, hrest⟩ := List.forall_mem_cons.mp hmethods
    simp only [methodsFrom, scanMethod_retext h hnames config index hmethod]
    cases scanMethod config entry file index method seen with
    | error fault => rfl
    | ok found =>
      obtain ⟨group, seen'⟩ := found
      cases group with
      | none => exact ih hrest (index + 1) seen' done
      | some group => exact ih hrest (index + 1) seen' (group :: done)

/-- The scan of a class that is read, and of what it is written as with another pool. -/
theorem scan_write_retext (config : ScanConfig) (hfits : file.Fits) (hpool : pool'.Fits) :
    scan config entry { file with pool := pool' }.write =
      (scan config entry file.write).map (·.retext news) := by
  have hread := ClassFile.read_eq_ok_iff.mpr ⟨hfits, rfl⟩
  have hread' : ClassFile.read { file with pool := pool' }.write =
      .ok { file with pool := pool' } :=
    ClassFile.read_eq_ok_iff.mpr ⟨{ hfits with pool := hpool }, rfl⟩
  have hclass : ClassFile.className { file with pool := pool' } = file.className :=
    h.agrees.className_eq hnames.pool file.thisClass
  have hmethods : methodsFrom config entry { file with pool := pool' } file.methods 0 ∅ [] = _ :=
    methodsFrom_retext h hnames config (fun _ hmem => hmem) 0 ∅ []
  unfold scan
  rw [hread, hread']
  change (ClassFile.className _ >>= fun className =>
    methodsFrom _ _ _ file.methods 0 ∅ [] >>= _) = Except.map _ (file.className >>= fun className =>
    methodsFrom _ _ file file.methods 0 ∅ [] >>= _)
  rw [hclass, hmethods]
  cases file.className with
  | error fault => rfl
  | ok className => cases methodsFrom config entry file file.methods 0 ∅ [] <;> rfl

end Loops

end ClassScan

end JarText
