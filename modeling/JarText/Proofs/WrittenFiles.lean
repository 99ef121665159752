import JarText.FileTree
import JarText.Proofs.Lists

/-!
# Files that were written

A file that was written is read back from the path that it was written to. The path is followed
again in a tree that has changed: every folder on the way is still a folder, though what is in it may
have changed.
-/

set_option autoImplicit false

namespace JarText

namespace FileNode

variable {node new : FileNode} {items : List (String × FileNode)} {names place : List String}
  {name : String} {content : Bytes}

theorem item?_put_self : ((folder items).put name new).item? name = some new := by
  rw [put, item?, lookup_put, if_pos rfl]

theorem item?_put_of_ne {other : String} (h : other ≠ name) :
    ((folder items).put name new).item? other = (folder items).item? other := by
  rw [put, item?, lookup_put, if_neg h]
  rfl

theorem find?_append (front back : List String) :
    node.find? (front ++ back) = (node.find? front).bind (find? · back) := by
  induction front generalizing node with
  | nil => rfl
  | cons name front ih =>
    rw [List.cons_append, find?, find?, Option.bind_assoc]
    congr 1
    funext child
    exact ih

/-- What is put into a folder is found there. -/
theorem find?_insert_self (h : node.find? place = some (folder items)) :
    (node.insert (place ++ [name]) new).find? (place ++ [name]) = some new := by
  induction place generalizing node with
  | nil =>
    obtain rfl : node = folder items := Option.some.inj h
    rw [List.nil_append, insert, insert, find?, item?_put_self]
    rfl
  | cons first place ih =>
    cases node with
    | file content => cases h
    | folder others =>
      obtain ⟨child, hchild, hplace⟩ := Option.bind_eq_some_iff.mp h
      rw [List.cons_append, insert, find?, item?_put_self, hchild]
      exact ih hplace

/-- A file that takes no folder's place leaves every folder where it was. -/
theorem exists_folder_insert (hplace : ∀ items, node.find? place ≠ some (folder items))
    (h : node.find? names = some (folder items)) :
    ∃ items', (node.insert place (file content)).find? names = some (folder items') := by
  induction place generalizing node names with
  | nil =>
    cases node with
    | folder others => exact absurd rfl (hplace others)
    | file old =>
      cases names with
      | nil => cases h
      | cons name rest => cases h
  | cons name place ih =>
    cases node with
    | file old =>
      cases names with
      | nil => cases h
      | cons first rest => cases h
    | folder others =>
      cases names with
      | nil => exact ⟨_, rfl⟩
      | cons first rest =>
        obtain ⟨child, hchild, hrest⟩ := Option.bind_eq_some_iff.mp h
        rw [insert, find?]
        by_cases hfirst : first = name
        · subst hfirst
          rw [item?_put_self, hchild]
          refine ih ?_ hrest
          intro items' hfound
          apply hplace items'
          rw [find?, hchild]
          exact hfound
        · rw [item?_put_of_ne hfirst, hchild]
          exact ⟨items, hrest⟩

end FileNode

namespace FileTree

variable {tree tree' : FileTree} {names : List String} {trail : Trail}
  {items : List (String × FileNode)} {path name : String} {content : Bytes}

def trailTo (tree : FileTree) : List String → Trail
  | [] => []
  | name :: rest => (name, tree.root.find? (name :: rest).reverse) :: tree.trailTo rest

theorem atEnd_trailTo (tree : FileTree) (names : List String) :
    tree.atEnd (tree.trailTo names) = tree.root.find? names.reverse := by
  cases names <;> rfl

theorem map_fst_trailTo (tree : FileTree) (names : List String) :
    (tree.trailTo names).map (·.1) = names := by
  induction names with
  | nil => rfl
  | cons name rest ih => rw [trailTo, List.map_cons, ih]

theorem tail_trailTo (tree : FileTree) (names : List String) :
    (tree.trailTo names).tail = tree.trailTo names.tail := by
  cases names <;> rfl

theorem folderAt_trailTo_iff : tree.folderAt (tree.trailTo names) = .ok items ↔
    tree.root.find? names.reverse = some (.folder items) := by
  rw [folderAt, atEnd_trailTo]
  rcases tree.root.find? names.reverse with _ | _ | others
  · simp
  · simp
  · simp

theorem lookup_of_folderAt (h : tree.folderAt (tree.trailTo names) = .ok items) (name : String) :
    (name, items.lookup name) :: tree.trailTo names = tree.trailTo (name :: names) := by
  have hfolder := folderAt_trailTo_iff.mp h
  rw [trailTo, List.reverse_cons, FileNode.find?_append, hfolder]
  dsimp only [Option.bind_some, FileNode.find?, FileNode.item?]
  rw [Option.bind_fun_some]

theorem walk_append (front back : List String) (trail : Trail) :
    tree.walk (front ++ back) trail = (tree.walk front trail).bind (tree.walk back) := by
  induction front generalizing trail with
  | nil => rfl
  | cons piece rest ih =>
    rw [List.cons_append, walk, walk]
    cases tree.folderAt trail with
    | error fault => rfl
    | ok items =>
      simp only [ih]
      split
      · rfl
      · split
        · rfl
        · split
          · rfl
          · rfl

/-- Every folder of one tree is a folder of another. -/
def KeepsFolders (tree tree' : FileTree) : Prop :=
  ∀ names items, tree.root.find? names = some (.folder items) →
    ∃ items', tree'.root.find? names = some (.folder items')

/-- A path can be followed again where every folder has stayed one. -/
theorem walk_trailTo (hkeeps : tree.KeepsFolders tree') {pieces : List String}
    (h : tree.walk pieces (tree.trailTo names) = .ok trail) :
    ∃ names', trail = tree.trailTo names' ∧
      tree'.walk pieces (tree'.trailTo names) = .ok (tree'.trailTo names') := by
  induction pieces generalizing names with
  | nil =>
    obtain rfl := Except.ok.inj h
    exact ⟨names, rfl, rfl⟩
  | cons piece rest ih =>
    rw [walk] at h ⊢
    cases hfolder : tree.folderAt (tree.trailTo names) with
    | error fault =>
      rw [hfolder] at h
      cases h
    | ok items =>
      obtain ⟨items', hitems'⟩ := hkeeps _ items (folderAt_trailTo_iff.mp hfolder)
      have hfolder' := folderAt_trailTo_iff.mpr hitems'
      rw [hfolder] at h
      rw [hfolder']
      dsimp only at h ⊢
      rw [lookup_of_folderAt hfolder, tail_trailTo] at h
      rw [lookup_of_folderAt hfolder', tail_trailTo]
      split_ifs at h ⊢
      · exact ih h
      · exact ih h
      · exact ih h

theorem stem_eq_self {pieces : List String} (h : pieces.length ≤ (stem pieces).length) :
    stem pieces = pieces := by
  have hdrop : pieces.reverse.dropWhile (· = "") = pieces.reverse := by
    apply (List.dropWhile_suffix _).eq_of_length_le
    rw [stem, List.length_reverse] at h
    rwa [List.length_reverse]
  rw [stem, hdrop, List.reverse_reverse]

structure IsFileName (name : String) : Prop where
  leads : isHere name = false
  ne_up : name ≠ ".."
  short : Path.size name ≤ Path.maxNameLength

/-- A file is written under a name into a folder that is there. -/
theorem writeAt_eq_ok_iff {goesOn : Bool} : tree.writeAt trail name goesOn content = .ok tree' ↔
    ∃ items, tree.folderAt trail = .ok items ∧ goesOn = false ∧ IsFileName name ∧
      (∀ others, items.lookup name ≠ some (.folder others)) ∧
      tree' = tree.insert (trail.reverse.map (·.1) ++ [name]) (.file content) := by
  rw [writeAt]
  cases tree.folderAt trail with
  | error fault => simp
  | ok items =>
    dsimp only
    constructor
    · intro h
      split_ifs at h with hname hsize
      simp only [Bool.or_eq_true, beq_iff_eq, not_or, Bool.not_eq_true] at hname
      refine ⟨items, rfl, hname.1.1, ⟨hname.1.2, hname.2, Nat.le_of_not_lt hsize⟩, ?_⟩
      split at h
      · cases h
      · rename_i hfree
        exact ⟨hfree, (Except.ok.inj h).symm⟩
    · rintro ⟨others, hothers, rfl, hname, hfree, rfl⟩
      obtain rfl := Except.ok.inj hothers
      have hplain : ¬(false || isHere name || name == "..") = true := by
        simp [hname.leads, hname.ne_up]
      rw [if_neg hplain, if_neg (Nat.not_lt.mpr hname.short)]
      split
      · rename_i hfolder
        exact absurd hfolder (hfree _)
      · rfl

/-- A path leads to a folder and ends with a name in it. -/
structure EndsAt (tree : FileTree) (path : String) (place : List String) (name : String) : Prop where
  possible : pathFault? path = none
  isFileName : IsFileName name
  pieces : ∃ way, tree.pieces path = way ++ [name] ∧ tree.walk way [] = .ok (tree.trailTo place)
  folder : ∃ items, tree.root.find? place.reverse = some (.folder items)

theorem EndsAt.find_eq {place : List String} (h : tree.EndsAt path place name) :
    tree.find path = .ok (tree.root.find? (place.reverse ++ [name])) := by
  obtain ⟨hpossible, hname, ⟨way, hpieces, hway⟩, items, hitems⟩ := h
  have hfolder := folderAt_trailTo_iff.mpr hitems
  rw [find, hpossible, hpieces]
  dsimp only
  rw [walk_append, hway, Except.bind, walk, hfolder]
  dsimp only
  rw [hname.leads, if_neg Bool.false_ne_true, if_neg hname.ne_up,
    if_neg (Nat.not_lt.mpr hname.short), lookup_of_folderAt hfolder, walk, Except.map, atEnd_trailTo,
    List.reverse_cons]

/-- A file is written to the place where its path ends, if no folder is there. -/
theorem endsAt_of_write (h : tree.write path content = .ok tree') :
    ∃ place name, tree.EndsAt path place name ∧
      (∀ others, tree.root.find? (place.reverse ++ [name]) ≠ some (.folder others)) ∧
      tree' = tree.insert (place.reverse ++ [name]) (.file content) := by
  rw [write] at h
  cases hpossible : pathFault? path with
  | some fault =>
    rw [hpossible] at h
    cases h
  | none =>
    rw [hpossible] at h
    dsimp only at h
    cases hwalk : tree.walk (stem (tree.pieces path)).dropLast [] with
    | error fault =>
      rw [hwalk] at h
      cases h
    | ok trail =>
      rw [hwalk] at h
      dsimp only at h
      obtain ⟨items, hfolder, hgoesOn, hname, hfree, htree'⟩ := writeAt_eq_ok_iff.mp h
      -- the path does not go on after the name
      have hstem : stem (tree.pieces path) = tree.pieces path :=
        stem_eq_self (Nat.le_of_not_lt (of_decide_eq_false hgoesOn))
      rw [hstem] at hwalk hname hfree htree'
      have hkeeps : tree.KeepsFolders tree := fun _ items hitems => ⟨items, hitems⟩
      have hway : tree.walk (tree.pieces path).dropLast (tree.trailTo []) = .ok trail := hwalk
      obtain ⟨place, rfl, -⟩ := walk_trailTo hkeeps hway
      rw [List.map_reverse, map_fst_trailTo] at htree'
      have hplace := folderAt_trailTo_iff.mp hfolder
      refine ⟨place, (tree.pieces path).getLast?.getD "",
        ⟨hpossible, hname, ⟨(tree.pieces path).dropLast, ?_, hwalk⟩, items, hplace⟩, ?_, htree'⟩
      · cases hlast : (tree.pieces path).getLast? with
        | none =>
          have hleads := hname.leads
          rw [hlast] at hleads
          cases hleads
        | some last => exact (List.dropLast_append_getLast? last hlast).symm
      · intro others hothers
        apply hfree others
        rw [FileNode.find?_append, hplace] at hothers
        simpa [FileNode.find?, FileNode.item?] using hothers

/-- What was written to a path is read from it. -/
theorem read_write (h : tree.write path content = .ok tree') : tree'.read path = .ok content := by
  obtain ⟨place, name, hends, hfree, rfl⟩ := endsAt_of_write h
  obtain ⟨hpossible, hname, ⟨way, hpieces, hway⟩, items, hplace⟩ := hends
  have hkeeps : tree.KeepsFolders (tree.insert (place.reverse ++ [name]) (.file content)) := by
    intro names others hothers
    exact FileNode.exists_folder_insert hfree hothers
  have hstart : tree.walk way (tree.trailTo []) = .ok (tree.trailTo place) := hway
  obtain ⟨place', hsame, hway'⟩ := walk_trailTo hkeeps hstart
  obtain rfl : place = place' := by
    rw [← map_fst_trailTo tree place, hsame, map_fst_trailTo]
  have hends' : (tree.insert (place.reverse ++ [name]) (.file content)).EndsAt path place name :=
    ⟨hpossible, hname, ⟨way, hpieces, hway'⟩, hkeeps _ items hplace⟩
  rw [read, hends'.find_eq, insert, FileNode.find?_insert_self hplace]

theorem kind?_of_read (h : tree.read path = .ok content) : tree.kind? path = some .file := by
  rw [read] at h
  rw [kind?]
  split at h
  · cases h
  · cases h
  · cases h
  · rename_i hfind
    rw [hfind]
    rfl

end FileTree

end JarText
