import ColumnAudit.Yaml.Token

/-! # Nodes and documents

What a YAML text says once its layout is understood: a tree of scalars, sequences and mappings, in
which an alias stands for a node that is written elsewhere.
-/

namespace ColumnAudit.Yaml
set_option autoImplicit false

/-- The content of a scalar, with how it is written. -/
structure Scalar where
  text : String
  tag : Option String
  style : ScalarStyle
deriving DecidableEq, Repr

namespace Scalar

/-- What stands where a node is left out. -/
def empty : Scalar := ⟨"", none, .plain⟩

/-- Whether nothing is written. -/
def isEmpty (s : Scalar) : Bool := s.text == "" && s.style == .plain

end Scalar

/-- A node and where it starts. An alias has the number of the anchor that it refers to. -/
inductive Node where
  | scalar (mark : Mark) (scalar : Scalar)
  | sequence (mark : Mark) (items : List Node)
  | mapping (mark : Mark) (pairs : List (Node × Node))
  | reference (mark : Mark) (anchor : Nat)
deriving Repr

namespace Node

/-- Where a node starts. -/
def mark : Node → Mark
  | scalar m _ => m
  | sequence m _ => m
  | mapping m _ => m
  | reference m _ => m

end Node

/-- A whole text. -/
structure Document where
  /-- What is written, unless that is nothing at all. -/
  root : Option Node
  /-- The nodes with anchors, each with the number of its anchor. -/
  anchored : List (Nat × Node)
  /-- How many starts and ends of nodes there are. -/
  size : Nat
deriving Repr

namespace Document

/-- The node that an alias stands for: of the nodes with its number, the one that starts last. -/
def anchored? (doc : Document) (anchor : Nat) : Option Node :=
  doc.anchored.foldl (fun best (number, node) =>
    if number == anchor && best.all fun b => b.mark.index ≤ node.mark.index then some node
    else best) none

/-- How often the aliases of a document may be followed. -/
def aliasLimit (doc : Document) : Nat := doc.size * 100

end Document

end ColumnAudit.Yaml
