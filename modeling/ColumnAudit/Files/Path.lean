import ColumnAudit.Text.Blank
import ColumnAudit.Text.Quoted

/-! # Paths

A path is a text with `/` between its segments and is kept as it was given. Joining two paths only
looks at their ends: an absolute path stays as it is, and a slash is put in between where none is.
-/

namespace ColumnAudit.Files
open Text
set_option autoImplicit false

/-- The path of a file or folder. -/
structure Path where
  text : String
deriving DecidableEq, Repr

namespace Path

/-- Whether a path starts at the root of the file system. -/
def isAbsolute (p : Path) : Bool := p.text.toList.head? == some '/'

/-- Whether a slash has to be put behind a path before it goes on. -/
def needsSlash (p : Path) : Bool := p.text.toList.getLast?.any (· != '/')

/-- A path seen from a root: itself if it is absolute, else the root with the path behind it. -/
def join (root p : Path) : Path :=
  if p.isAbsolute then p
  else ⟨root.text ++ (if root.needsSlash then "/" else "") ++ p.text⟩

/-- The texts between the slashes of a path. -/
def segments (p : Path) : List String := (pieces '/' p.text.toList).map String.ofList

/-- The last segment of a path that is neither empty nor a single dot, unless it is two dots. -/
def fileName? (p : Path) : Option String :=
  match (p.segments.filter fun s => s != "" && s != ".").getLast? with
  | some s => if s = ".." then none else some s
  | none => none

example : fileName? ⟨"d/./f.ts/"⟩ = some "f.ts" ∧ fileName? ⟨"d/.."⟩ = none := by decide +kernel

/-- A path as messages show it. -/
def quoted (p : Path) : String := Text.quoted p.text

end Path

/-- The part of a file name behind its last dot, if something stands before that dot. -/
def extension? (name : String) : Option String :=
  let reversed := name.toList.reverse
  match reversed.dropWhile (· != '.') with
  | [] | [_] => none
  | _ => some (String.ofList (reversed.takeWhile (· != '.')).reverse)

example : extension? "x.d.ts" = some "ts" ∧ extension? ".ts" = none ∧ extension? "dot." = some "" ∧
    extension? "..ts" = some "ts" ∧ extension? "ts" = none := by decide +kernel

end ColumnAudit.Files
