import JarText.Proofs.Reading
import JarText.Scan.ClassScan

/-!
# The scan of one method

A scan first tells whether the code of a method is looked at, which depends on the class alone, and
then goes through that code with the texts that were seen before.
-/

set_option autoImplicit false

namespace JarText.ClassScan

/-- The signature and the body of a method whose code is looked at. -/
def lookedAt? (config : ScanConfig) (file : ClassFile) (method : Member) :
    Except Fault (Option (String × CodeBody)) := do
  if method.isAbstract then return none
  let name ← file.pool.text method.name
  let descriptor ← file.pool.text method.descriptor
  if config.skipEnumInitializers && isEnumInitializer file name descriptor then return none
  let some body ← method.body file.pool | return none
  if body.code.isEmpty then return none
  return some (name ++ descriptor, body)

/-- The group that strings found in a method give. -/
def groupOf? (index : Nat) (signature : String) (strings : List FoundString) :
    Option MethodStrings :=
  if strings.isEmpty then none else some { index, signature, strings }

def scanBody (entry : String) (file : ClassFile) (index : Nat) (method : Member)
    (seen : Std.TreeSet UInt16) (signature : String) (body : CodeBody) :
    Except Fault (Option MethodStrings × Std.TreeSet UInt16) := do
  let instructions ← Instruction.decode body.code
  let (strings, seen) ←
    stringsFrom entry file.pool (Location.ofBody file method body) instructions seen []
  return (groupOf? index signature strings, seen)

variable {config : ScanConfig} {entry : String} {file : ClassFile} {index : Nat} {method : Member}
  {seen seen' : Std.TreeSet UInt16} {signature : String} {body : CodeBody}

theorem scanBody_eq : scanBody entry file index method seen signature body = (do
    let instructions ← Instruction.decode body.code
    let (strings, seen) ←
      stringsFrom entry file.pool (Location.ofBody file method body) instructions seen []
    if strings.isEmpty then return (none, seen)
    return (some { index, signature, strings }, seen)) := by
  unfold scanBody groupOf?
  congr 1
  funext instructions
  congr 1
  funext found
  obtain ⟨strings, seen'⟩ := found
  cases strings <;> rfl

theorem scanMethod_eq_lookedAt? (config : ScanConfig) (entry : String) (file : ClassFile)
    (index : Nat) (method : Member) (seen : Std.TreeSet UInt16) :
    scanMethod config entry file index method seen = (do
      match ← lookedAt? config file method with
      | none => return (none, seen)
      | some (signature, body) => scanBody entry file index method seen signature body) := by
  unfold scanMethod lookedAt?
  by_cases habstract : method.isAbstract
  · rw [if_pos habstract, if_pos habstract]
    rfl
  · rw [if_neg habstract, if_neg habstract]
    cases file.pool.text method.name with
    | error fault => rfl
    | ok name =>
      cases file.pool.text method.descriptor with
      | error fault => rfl
      | ok descriptor =>
        change (if (config.skipEnumInitializers && isEnumInitializer file name descriptor) = true
          then _ else _) = (if _ then _ else _) >>= _
        by_cases hskip : config.skipEnumInitializers && isEnumInitializer file name descriptor
        · rw [if_pos hskip, if_pos hskip]
          rfl
        · rw [if_neg hskip, if_neg hskip]
          cases method.body file.pool with
          | error fault => rfl
          | ok body? =>
            cases body? with
            | none => rfl
            | some body =>
              change (if body.code.isEmpty = true then _ else _) = (if _ then _ else _) >>= _
              by_cases hempty : body.code.isEmpty
              · rw [if_pos hempty, if_pos hempty]
                rfl
              · rw [if_neg hempty, if_neg hempty]
                exact scanBody_eq.symm

/-- Which methods are looked at. -/
theorem lookedAt?_eq_some_iff : lookedAt? config file method = .ok (some (signature, body)) ↔
    method.isAbstract = false ∧ ∃ name descriptor,
      file.pool.text method.name = .ok name ∧ file.pool.text method.descriptor = .ok descriptor ∧
      (config.skipEnumInitializers && isEnumInitializer file name descriptor) = false ∧
      method.body file.pool = .ok (some body) ∧ body.code.isEmpty = false ∧
      signature = name ++ descriptor := by
  unfold lookedAt?
  constructor
  · intro h
    split at h
    · cases h
    · rename_i habstract
      obtain ⟨name, hname, h⟩ := except_bind_eq_ok_iff.mp h
      obtain ⟨descriptor, hdescriptor, h⟩ := except_bind_eq_ok_iff.mp h
      split at h
      · cases h
      · rename_i hskip
        obtain ⟨body?, hbody, h⟩ := except_bind_eq_ok_iff.mp h
        cases body? with
        | none => cases h
        | some found =>
          simp only at h
          split at h
          · cases h
          · rename_i hempty
            cases h
            exact ⟨Bool.not_eq_true _ ▸ habstract, name, descriptor, hname, hdescriptor,
              Bool.not_eq_true _ ▸ hskip, hbody, Bool.not_eq_true _ ▸ hempty, rfl⟩
  · rintro ⟨habstract, name, descriptor, hname, hdescriptor, hskip, hbody, hempty, rfl⟩
    rw [habstract, hname, hdescriptor]
    change (if (config.skipEnumInitializers && isEnumInitializer file name descriptor) = true
      then _ else _) = _
    rw [hskip, hbody]
    change (if body.code.isEmpty = true then _ else _) = _
    rw [hempty]
    rfl

end JarText.ClassScan
