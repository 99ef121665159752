import JarText.Bytes
import JarText.Fault

/-!
# Archives

An archive lists the names of its entries, reads an entry and puts new bytes in place of one. The
plainest archive holds its entries in memory, in the order of their insertion.
-/

set_option autoImplicit false

namespace JarText

class Archive (α : Type) where
  /-- The names of the entries, in listing order. -/
  names : α → List String
  read : α → String → Except Fault Bytes
  /-- Puts new bytes in place of an entry that is there. -/
  replace : α → String → Bytes → Except Fault α
  contains : α → String → Bool

namespace Archive

def isClassEntry (name : String) : Bool :=
  ".class".toList.isSuffixOf name.toList

def classEntries {α : Type} [Archive α] (archive : α) : List String :=
  (names archive).filter isClassEntry

end Archive

def overwrite (entries : List (String × Bytes)) (name : String) (data : Bytes) :
    List (String × Bytes) :=
  entries.map fun entry => if entry.1 = name then (entry.1, data) else entry

@[simp] theorem map_fst_overwrite (entries : List (String × Bytes)) (name : String)
    (data : Bytes) : (overwrite entries name data).map (·.1) = entries.map (·.1) := by
  simp only [overwrite, List.map_map]
  congr 1
  funext entry
  by_cases h : entry.1 = name <;> simp [h]

/-- Entries in memory, in the order of their insertion. No two have one name. -/
structure MemoryArchive where
  entries : List (String × Bytes)
  distinct : (entries.map (·.1)).Nodup
  deriving Repr, DecidableEq

namespace MemoryArchive

def empty : MemoryArchive := ⟨[], by simp⟩

def get? (archive : MemoryArchive) (name : String) : Option Bytes :=
  archive.entries.lookup name

theorem notMem_of_lookup_eq_none {entries : List (String × Bytes)} {name : String}
    (h : entries.lookup name = none) : name ∉ entries.map (·.1) := by
  induction entries with
  | nil => simp
  | cons entry rest ih =>
    obtain ⟨key, data⟩ := entry
    rw [List.lookup_cons] at h
    by_cases hk : name = key
    · simp [hk] at h
    · simp only [beq_eq_false_iff_ne.2 hk] at h
      simp [hk, ih h]

def setBytes (archive : MemoryArchive) (name : String) (data : Bytes) : MemoryArchive :=
  ⟨overwrite archive.entries name data, by simpa using archive.distinct⟩

/-- Adds an entry, or overwrites it in its place. -/
def insert (archive : MemoryArchive) (name : String) (data : Bytes) : MemoryArchive :=
  match h : archive.entries.lookup name with
  | some _ => archive.setBytes name data
  | none =>
    ⟨archive.entries ++ [(name, data)], by
      have fresh := notMem_of_lookup_eq_none h
      rw [List.map_append, List.nodup_append]
      refine ⟨archive.distinct, by simp, ?_⟩
      intro a ha b hb hab
      simp only [List.map_cons, List.map_nil, List.mem_singleton] at hb
      subst hb
      exact fresh (hab ▸ ha)⟩

def ofList (entries : List (String × Bytes)) : MemoryArchive :=
  entries.foldl (fun archive entry => archive.insert entry.1 entry.2) empty

def size (archive : MemoryArchive) : Nat := archive.entries.length

def names (archive : MemoryArchive) : List String := archive.entries.map (·.1)

def read (archive : MemoryArchive) (name : String) : Except Fault Bytes :=
  match archive.get? name with
  | some data => .ok data
  | none => .error (.entryMissing name)

def replace (archive : MemoryArchive) (name : String) (data : Bytes) :
    Except Fault MemoryArchive :=
  match archive.get? name with
  | some _ => .ok (archive.setBytes name data)
  | none => .error (.entryMissing name)

def contains (archive : MemoryArchive) (name : String) : Bool :=
  (archive.get? name).isSome

instance : Archive MemoryArchive where
  names := names
  read := read
  replace := replace
  contains := contains

end MemoryArchive

end JarText
