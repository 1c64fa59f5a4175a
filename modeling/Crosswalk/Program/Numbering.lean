import Crosswalk.Tree.Instance

/-!
Numbers of the mappings that consult a dictionary and of those that join siblings. They are assigned
in declaration order before any code is generated, so the names made of them do not depend on what is
generated.
-/

namespace Crosswalk

/-- A mapping with the number of its dictionary, if it consults one, and of its join, if it joins. -/
structure NumberedMapping where
  mapping : Mapping
  table : Option Nat := none
  join : Option Nat := none
  deriving DecidableEq, Repr

/-- A node with the numbers of its mappings. -/
structure NumberedNode extends Node where
  numbered : List NumberedMapping
  deriving DecidableEq, Repr

namespace Numbering

/-- Whether a mapping consults its dictionary. Constants never do. -/
def consults (m : Mapping) : Bool := m.dictionary.isSome && !m.isConstant

/-- Whether a mapping of a node joins siblings. Those of attributes do not. -/
def joins (n : Node) (m : Mapping) : Bool := !m.siblings.isEmpty && !n.isAttribute

/-- The next number, if it is wanted. -/
def next? (wanted : Bool) (used : Nat) : Option Nat := if wanted then some (used + 1) else none

/-- The mappings of a node with their numbers, when `tables` and `joined` numbers are in use. -/
def numberMappings (n : Node) (tables joined : Nat) : List Mapping → List NumberedMapping
  | [] => []
  | m :: rest =>
    { mapping := m, table := next? (consults m) tables, join := next? (joins n m) joined }
      :: numberMappings n (tables + (consults m).toNat) (joined + (joins n m).toNat) rest

/-- A node with the numbers of its mappings. -/
def numberNode (tables joined : Nat) (n : Node) : NumberedNode :=
  { toNode := n, numbered := numberMappings n tables joined n.mappingList }

/-- The number of mappings of a node that consult a dictionary. -/
def tableCount (n : Node) : Nat := n.mappingList.countP consults

/-- The number of joining mappings of a node. -/
def joinCount (n : Node) : Nat := n.mappingList.countP (joins n)

/-- The sum of a count over the nodes of a forest. -/
def total (count : Node → Nat) : Forest Node → Nat
  | .nil => 0
  | .tree n below next => count n + total count below + total count next

/-- The nodes of a forest with the numbers of their mappings. -/
def number (tables joined : Nat) : Forest Node → Forest NumberedNode
  | .nil => .nil
  | .tree n below next =>
    let tables' := tables + tableCount n
    let joined' := joined + joinCount n
    .tree (numberNode tables joined n) (number tables' joined' below)
      (number (tables' + total tableCount below) (joined' + total joinCount below) next)

end Numbering

/-- The nodes of a tree with the numbers of their mappings, from one on. -/
def MappingTree.numbered (t : MappingTree) : Forest NumberedNode := Numbering.number 0 0 t.forest

end Crosswalk
