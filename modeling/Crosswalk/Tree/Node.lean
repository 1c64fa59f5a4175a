import Crosswalk.Mapping

/-!
Nodes of an instantiated schema. A node knows its own path, what the schema says about it, the
choice of a vocabulary it belongs to, and the mappings attached to it in the order of their inputs.
-/

namespace Crosswalk

/-- The choice of a vocabulary that a node belongs to. -/
structure Membership where
  role : Role
  /-- The number of the vocabulary's expansion; each expansion has its own. -/
  list : Nat
  /-- The position of the choice in the vocabulary. -/
  position : Nat
  vocabulary : Vocabulary
  choice : Choice
  deriving DecidableEq, Repr

/-- A node that mappings can be attached to. -/
structure Node where
  path : Path
  tag : Tag
  /-- Whether the node has no child elements. -/
  leaf : Bool
  membership : Option Membership := none
  required : Bool := false
  singular : Bool := false
  operator : Option Operator := none
  function : Option String := none
  init : Option String := none
  doc : Option String := none
  mappings : SortedMap Path Mapping := .empty
  deriving DecidableEq, Repr

namespace Node

/-- Whether the node is named by an attribute tag. -/
def isAttribute (n : Node) : Bool := n.tag.isAttribute

/-- The role of the node in its vocabulary's expansion. -/
def role? (n : Node) : Option Role := n.membership.map Membership.role

/-- The membership of a node that stands for a choice. -/
def rootMembership? (n : Node) : Option Membership :=
  n.membership.filter fun m => m.role == .root

/-- The membership of a node whose value is fixed by a choice. -/
def fixedMembership? (n : Node) : Option Membership :=
  n.membership.filter fun m => !m.role.acceptsMappings

/-- Whether the node stands for a hidden choice. -/
def isHidden (n : Node) : Bool := n.rootMembership?.any fun m => m.choice.hidden

/-- The text that the node's choice fixes for it. -/
def fixedValue? (n : Node) : Option String :=
  n.fixedMembership?.bind fun m => m.choice.field? m.role

/-- The mappings in the order of their inputs. -/
def mappingList (n : Node) : List Mapping := n.mappings.values

/-- Whether a mapping is attached. -/
def hasMappings (n : Node) : Bool := !n.mappings.isEmpty

/-- The mapping from a given primary input. -/
def mapping? (n : Node) (input : Path) : Option Mapping := n.mappings.find? input

/-- Accepts a mapping that may be attached to the node. -/
def accept (n : Node) (m : Mapping) : Except AttachError Unit :=
  if m.output ≠ n.path then .error (.outputMismatch n.path m.output)
  else
    match n.fixedMembership? with
    | some f => .error (.fixedField n.path f.role)
    | none => do
      m.checkSiblings
      if n.mappings.contains m.input then .error (.duplicate m.output m.input) else .ok ()

end Node

end Crosswalk
