import JarText.Files

/-!
# Trees of files

Folders and files in memory. A path is followed piece by piece in the tree as it is, so a folder has
to be there even for a path that leaves it again.
-/

set_option autoImplicit false

namespace JarText

/-- A file, or a folder with what is in it by name. -/
inductive FileNode where
  | file (content : Bytes)
  | folder (items : List (String × FileNode))

namespace FileNode

def kind : FileNode → FileKind
  | file _ => .file
  | folder _ => .folder

def item? (name : String) : FileNode → Option FileNode
  | file _ => none
  | folder items => items.lookup name

/-- The folder with something in place of what has a name. -/
def put : FileNode → (name : String) → (new : FileNode) → FileNode
  | file content, _, _ => file content
  | folder items, name, new => folder ((name, new) :: items.filter (·.1 ≠ name))

/-- With something at the end of a row of names, and folders on the way there. -/
def insert : FileNode → (names : List String) → (new : FileNode) → FileNode
  | _, [], new => new
  | node, name :: rest, new =>
    node.put name (insert ((node.item? name).getD (folder [])) rest new)

/-- What is at the end of a row of names. -/
def find? : FileNode → (names : List String) → Option FileNode
  | node, [] => some node
  | node, name :: rest => (node.item? name).bind (find? · rest)

end FileNode

structure FileTree where
  root : FileNode
  /-- The names that lead to the folder from which a path goes out that does not begin with a
  slash. -/
  workingFolder : List String

/-- The names that lead to a place, nearest first, each with what is there. Nothing lies beyond a
place where nothing is. -/
abbrev Trail := List (String × Option FileNode)

namespace FileTree

/-- The tree that has a working folder and the folders on the way to it, and nothing else. -/
def empty (workingFolder : List String) : FileTree :=
  ⟨(FileNode.folder []).insert workingFolder (.folder []), workingFolder⟩

def atEnd (tree : FileTree) : Trail → Option FileNode
  | [] => some tree.root
  | (_, node) :: _ => node

def folderAt (tree : FileTree) (trail : Trail) : Except FileFault (List (String × FileNode)) :=
  match tree.atEnd trail with
  | none => .error .notFound
  | some (.file _) => .error .notDirectory
  | some (.folder items) => .ok items

/-- Whether a piece of a path stands for the folder that the path has reached. -/
def isHere (piece : String) : Bool := piece == "" || piece == "."

/-- Goes on from a trail along the pieces of a path. Whatever is passed has to be a folder. -/
def walk (tree : FileTree) : List String → Trail → Except FileFault Trail
  | [], trail => .ok trail
  | piece :: rest, trail =>
    match tree.folderAt trail with
    | .error fault => .error fault
    | .ok items =>
      if isHere piece then tree.walk rest trail
      else if piece = ".." then tree.walk rest trail.tail
      else if Path.maxNameLength < Path.size piece then .error .nameTooLong
      else tree.walk rest ((piece, items.lookup piece) :: trail)

/-- The pieces of a path as it goes out from the root. -/
def pieces (tree : FileTree) (path : String) : List String :=
  if path.toList.head? = some '/' then Path.pieces path else tree.workingFolder ++ Path.pieces path

/-- What is wrong with a path wherever it leads. -/
def pathFault? (path : String) : Option FileFault :=
  if path.isEmpty then some .notFound
  else if path.toList.contains '\x00' then
    some (.other "file name contained an unexpected NUL byte")
  else if Path.maxLength < Path.size path then some .nameTooLong
  else none

/-- What a path leads to; a fault if something is in the way. -/
def find (tree : FileTree) (path : String) : Except FileFault (Option FileNode) :=
  match pathFault? path with
  | some fault => .error fault
  | none => (tree.walk (tree.pieces path) []).map tree.atEnd

def kind? (tree : FileTree) (path : String) : Option FileKind :=
  match tree.find path with
  | .ok node => node.map FileNode.kind
  | .error _ => none

def read (tree : FileTree) (path : String) : Except FileFault Bytes :=
  match tree.find path with
  | .error fault => .error fault
  | .ok none => .error .notFound
  | .ok (some (.folder _)) => .error .isDirectory
  | .ok (some (.file content)) => .ok content

def list (tree : FileTree) (path : String) : List (String × FileKind) :=
  match tree.find path with
  | .ok (some (.folder items)) => items.map fun item => (item.1, item.2.kind)
  | _ => []

def insert (tree : FileTree) (names : List String) (node : FileNode) : FileTree :=
  { tree with root := tree.root.insert names node }

/-- Writes a file under a name in the folder at the end of a trail. A name after which the path goes
on, and one that stands for a folder, cannot be that of a file, whatever is there. -/
def writeAt (tree : FileTree) (trail : Trail) (name : String) (goesOn : Bool) (content : Bytes) :
    Except FileFault FileTree :=
  match tree.folderAt trail with
  | .error fault => .error fault
  | .ok items =>
    if goesOn || isHere name || name == ".." then .error .isDirectory
    else if Path.maxNameLength < Path.size name then .error .nameTooLong
    else
      match items.lookup name with
      | some (.folder _) => .error .isDirectory
      | _ => .ok (tree.insert (trail.reverse.map (·.1) ++ [name]) (.file content))

/-- The pieces of a path without those at its end that are only slashes. -/
def stem (pieces : List String) : List String :=
  (pieces.reverse.dropWhile (· = "")).reverse

/-- Writes a file into a folder that is there. -/
def write (tree : FileTree) (path : String) (content : Bytes) : Except FileFault FileTree :=
  match pathFault? path with
  | some fault => .error fault
  | none =>
    let pieces := tree.pieces path
    let names := stem pieces
    match tree.walk names.dropLast [] with
    | .error fault => .error fault
    | .ok trail =>
      tree.writeAt trail (names.getLast?.getD "") (names.length < pieces.length) content

/-! ## Making folders -/

/-- Makes the folders on a way from `place`, the names that lead there nearest first. Those made
before one that cannot be made stay. -/
def makeAlong : List String → (place : List String) → FileTree →
    Except FileFault Unit × FileTree
  | [], _, tree => (.ok (), tree)
  | piece :: rest, place, tree =>
    if isHere piece then makeAlong rest place tree
    else if piece = ".." then makeAlong rest place.tail tree
    else if Path.maxNameLength < Path.size piece then (.error .nameTooLong, tree)
    else
      let names := (piece :: place).reverse
      match tree.root.find? names with
      | some (.file _) => (.error .notDirectory, tree)
      | some (.folder _) => makeAlong rest (piece :: place) tree
      | none => makeAlong rest (piece :: place) (tree.insert names (.folder []))

def parentPath (path : String) : String :=
  let trimmed (pieces : List String) : List String :=
    (pieces.reverse.dropWhile isHere).reverse
  "/".intercalate (trimmed (trimmed (Path.pieces path)).dropLast)

def makeParent (tree : FileTree) (path : String) : Except FileFault Unit × FileTree :=
  let parent := parentPath path
  if parent.isEmpty then (.ok (), tree)
  else
    match pathFault? parent with
    | some fault => (.error fault, tree)
    | none => makeAlong (tree.pieces parent) [] tree

def make (tree : FileTree) (path : String) (content : Bytes) : Except FileFault Unit × FileTree :=
  match tree.makeParent path with
  | (.error fault, tree) => (.error fault, tree)
  | (.ok (), tree) =>
    match tree.write path content with
    | .error fault => (.error fault, tree)
    | .ok tree => (.ok (), tree)

instance : Files (StateM FileTree) where
  read path := do return (← get).read path
  write path content := do
    match (← get).write path content with
    | .error fault => return .error fault
    | .ok tree =>
      set tree
      return .ok ()
  kind? path := do return (← get).kind? path
  list path := do return (← get).list path

end FileTree

end JarText
