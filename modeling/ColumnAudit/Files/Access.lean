import ColumnAudit.Files.Tree

/-! # Access to files

What a run asks of the file system it works in. The same run works on the system at hand and on a
`Tree`, where reading leaves the tree as it is.
-/

namespace ColumnAudit.Files
set_option autoImplicit false

/-- A place whose files and folders can be read. -/
class ReadsFiles (m : Type → Type) where
  /-- Whether a path leads to anything. -/
  isPresent : Path → m Bool
  /-- The bytes of a file. -/
  read : Path → m (Except FileError ByteArray)
  /-- The names of the members of a folder, and whether each is a file. -/
  list : Path → m (Except FileError (List (String × Bool)))

/-- A place whose files can be written. -/
class WritesFiles (m : Type → Type) where
  /-- Makes or replaces a file. -/
  write : Path → ByteArray → m (Except FileError Unit)

instance : ReadsFiles (StateM Tree) where
  isPresent p := fun t => (t.isPresent p, t)
  read p := fun t => (t.read p, t)
  list p := fun t => (t.list p, t)

instance : WritesFiles (StateM Tree) where
  write p contents := fun t =>
    match t.write p contents with
    | .ok t' => (.ok (), t')
    | .error e => (.error e, t)

end ColumnAudit.Files
