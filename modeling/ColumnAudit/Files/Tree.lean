import ColumnAudit.Files.Path

/-! # File trees

A file tree is a whole file system as a value: files with their bytes, folders with their members,
and the folder that relative paths start from. A path is followed segment by segment: an empty
segment or a single dot stays where it is, two dots go up, and every segment, also the empty one
behind a last slash, has to be followed from a folder.
-/

namespace ColumnAudit.Files
set_option autoImplicit false

/-- Why a file or folder could not be reached. -/
inductive FileError where
  | notFound
  | notAFolder
  | isAFolder
  /-- A path with a NUL character names nothing. -/
  | nulInPath
  /-- Any other answer of the system. -/
  | other (text : String)
deriving DecidableEq, Repr

/-- What is said about a file or folder that could not be reached. -/
def FileError.message : FileError → String
  | notFound => "No such file or directory (os error 2)"
  | notAFolder => "Not a directory (os error 20)"
  | isAFolder => "Is a directory (os error 21)"
  | nulInPath => "file name contained an unexpected NUL byte"
  | other text => text

/-- A file with its bytes, or a folder with its named members. -/
inductive FileNode where
  | file (contents : ByteArray)
  | folder (members : List (String × FileNode))

/-- A file system and the folder, named from the root, that relative paths start from. -/
structure Tree where
  root : FileNode
  current : List String

/-! ## Following paths -/

namespace FileNode

/-- The node at the end of a list of names. -/
def at? : FileNode → List String → Option FileNode
  | node, [] => some node
  | .file _, _ :: _ => none
  | .folder members, name :: names =>
    match members.lookup name with
    | some node => node.at? names
    | none => none

/-- The members of a folder with one of them replaced or added. -/
def setMember (name : String) (node : FileNode) :
    List (String × FileNode) → List (String × FileNode)
  | [] => [(name, node)]
  | (other, old) :: members =>
    if other = name then (name, node) :: members else (other, old) :: setMember name node members

/-- The tree with the node at the end of a list of names replaced or added. Folders on the way that
are missing are not made. -/
def setAt (new : FileNode) : List String → FileNode → FileNode
  | [], _ => new
  | _ :: _, .file contents => .file contents
  | [name], .folder members => .folder (setMember name new members)
  | name :: names, .folder members =>
    match members.lookup name with
    | some node => .folder (setMember name (setAt new names node) members)
    | none => .folder members

end FileNode

namespace Tree

/-- Follows segments from a place, and gives the names of the place they lead to. -/
def follow (root : FileNode) (place : List String) : List String → Except FileError (List String)
  | [] => .ok place
  | s :: ss =>
    match root.at? place with
    | some (.folder members) =>
      if s = "" ∨ s = "." then follow root place ss
      else if s = ".." then follow root place.dropLast ss
      else if (members.lookup s).isSome then follow root (place ++ [s]) ss
      else .error .notFound
    | _ => .error .notAFolder

/-- The place that relative segments of a path start from. -/
def start (t : Tree) (p : Path) : List String := if p.isAbsolute then [] else t.current

/-- The names, from the root, of the place that a path leads to. -/
def place (t : Tree) (p : Path) : Except FileError (List String) :=
  if p.text = "" then .error .notFound
  else if p.text.toList.contains '\x00' then .error .nulInPath
  else follow t.root (t.start p) p.segments

/-- The node that a path leads to. -/
def node (t : Tree) (p : Path) : Except FileError FileNode := do
  match t.root.at? (← t.place p) with
  | some node => .ok node
  | none => .error .notFound

/-! ## Operations -/

/-- Whether a path leads to anything. -/
def isPresent (t : Tree) (p : Path) : Bool := (t.node p).toOption.isSome

/-- The bytes of a file. -/
def read (t : Tree) (p : Path) : Except FileError ByteArray := do
  match ← t.node p with
  | .file contents => .ok contents
  | .folder _ => .error .isAFolder

/-- The names of the members of a folder, and whether each is a file. -/
def list (t : Tree) (p : Path) : Except FileError (List (String × Bool)) := do
  match ← t.node p with
  | .file _ => .error .notAFolder
  | .folder members => .ok (members.map fun (name, node) =>
      (name, match node with | .file _ => true | .folder _ => false))

/-- The names, from the root, of the file that writing to a path makes or replaces. The path has to
end in a name; only its folder has to be there, and nothing but a file may be in its place. -/
def target (t : Tree) (p : Path) : Except FileError (List String) := do
  if p.text = "" then .error .notFound
  if p.text.toList.contains '\x00' then .error .nulInPath
  let reversed := p.segments.reverse
  let named := reversed.dropWhile (· = "")
  match named with
  | [] => .error .isAFolder
  | last :: parents =>
    if last = "." ∨ last = ".." then
      let _ ← t.place p
      .error .isAFolder
    let folder ← follow t.root (t.start p) parents.reverse
    match t.root.at? folder with
    | some (.folder members) =>
      if reversed.head? = some "" then .error .isAFolder
      match members.lookup last with
      | some (.folder _) => .error .isAFolder
      | _ => .ok (folder ++ [last])
    | _ => .error .notAFolder

/-- The tree after writing bytes to a path. -/
def write (t : Tree) (p : Path) (contents : ByteArray) : Except FileError Tree := do
  let names ← t.target p
  .ok { t with root := FileNode.setAt (.file contents) names t.root }

end Tree
end ColumnAudit.Files
