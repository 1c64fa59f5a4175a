import Crosswalk.Schema.Record
import Crosswalk.Tree.Node

/-!
Instantiation: the elements and attributes of a resolved record definition become nodes. An element
with a vocabulary becomes one node for each choice, each with a copy of what is below; the nodes
beneath it get the role that their schema path has in that vocabulary.
-/

namespace Crosswalk

/-- A choice of an expanded vocabulary. -/
structure Variant where
  vocabulary : Vocabulary
  /-- The number of the expansion. -/
  list : Nat
  position : Nat
  choice : Choice
  deriving DecidableEq, Repr

namespace Variant

/-- Membership in the choice with a given role. -/
def withRole (v : Variant) (role : Role) : Membership :=
  { role, list := v.list, position := v.position, vocabulary := v.vocabulary, choice := v.choice }

/-- The membership of the node at a path beneath the one that stands for the choice. -/
def membershipAt (v : Variant) (p : Path) : Membership :=
  v.withRole (v.vocabulary.roleOf p.withoutVariants)

end Variant

namespace Instance

/-- The number of vocabulary expansions that some elements come to. -/
def expansions : Forest Element → Nat
  | .nil => 0
  | .tree e below next =>
    (match e.vocabulary with
      | none => expansions below
      | some v => 1 + v.choices.length * expansions below)
    + expansions next

/-- The node of an attribute of the element at a path. -/
def attributeNode (path : Path) (variant : Option Variant) (a : Attribute) : Node :=
  { path := path.child a.tag
    tag := a.tag
    leaf := true
    membership := variant.map (·.membershipAt (path.child a.tag))
    required := a.required
    singular := true
    function := a.function
    init := a.init
    doc := a.doc }

/-- The node of an element with a given tag and membership. -/
def elementNode (parent : Path) (tag : Tag) (leaf : Bool) (membership : Option Membership)
    (e : Element) : Node :=
  { path := parent.child tag
    tag
    leaf
    membership
    required := e.required
    singular := e.singular
    operator := e.operator
    function := e.function
    init := e.init
    doc := e.doc }

/-- The nodes of the attributes of the element at a path. -/
def attributeNodes (path : Path) (variant : Option Variant) : List Attribute → Forest Node
  | [] => .nil
  | a :: rest => .tree (attributeNode path variant a) .nil (attributeNodes path variant rest)

/-- The variants of a vocabulary whose expansion has a given number. -/
def variants (list : Nat) (v : Vocabulary) : List Variant :=
  v.choices.zipIdx.map fun (choice, position) => { vocabulary := v, list, position, choice }

/-- The nodes of some elements beneath a path, within a variant if there is one. The vocabulary
expansions are numbered from `first` in the order in which they are met. -/
def nodes (parent : Path) (variant : Option Variant) (first : Nat) : Forest Element → Forest Node
  | .nil => .nil
  | .tree e below next =>
    match e.vocabulary with
    | none =>
      let path := parent.child e.tag
      .tree (elementNode parent e.tag below.isEmpty (variant.map (·.membershipAt path)) e)
        (attributeNodes path variant e.attributes ++ nodes path variant first below)
        (nodes parent variant (first + expansions below) next)
    | some v =>
      let trees := (variants first v).map fun w =>
        let tag := e.tag.withVariant w.choice.variantKey
        let path := parent.child tag
        .single (elementNode parent tag below.isEmpty (some (w.withRole .root)) e)
          (attributeNodes path (some w) e.attributes
            ++ nodes path (some w) (first + 1 + w.position * expansions below) below)
      Forest.join trees
        ++ nodes parent variant (first + 1 + v.choices.length * expansions below) next

end Instance

/-- A schema instantiated into nodes, with what the record definition says besides. -/
structure MappingTree where
  qualifier : String
  version : String
  namespaces : List Namespace
  fieldMarkers : List FieldMarker
  assertions : List Assertion
  forest : Forest Node
  deriving DecidableEq, Repr

namespace MappingTree

/-- The instance of a resolved record definition, without mappings. -/
def ofRecord (r : Record) : MappingTree :=
  { qualifier := r.qualifier
    version := r.version
    namespaces := r.namespaces
    fieldMarkers := r.fieldMarkers
    assertions := r.assertions
    forest := Instance.nodes Path.root none 0 r.elements }

/-- The nodes in declaration order; a node's position is its index. -/
def nodes (t : MappingTree) : List Node := t.forest.labels

/-- The number of nodes. -/
def size (t : MappingTree) : Nat := t.forest.size

/-- The parent index of each node. -/
def parents (t : MappingTree) : List (Option Nat) := t.forest.parents none 0

/-- The child indices of each node. -/
def children (t : MappingTree) : List (List Nat) := t.forest.children 0

/-- The position of the last entry that satisfies `p`. -/
def lastPosition? {α : Type} (p : α → Bool) : List α → Option Nat
  | [] => none
  | a :: as =>
    match lastPosition? p as with
    | some i => some (i + 1)
    | none => if p a then some 0 else none

/-- The index of the node at a path, the last if there are several. -/
def nodeAt? (t : MappingTree) (p : Path) : Option Nat := lastPosition? (·.path == p) t.nodes

/-- The mappings at a node and below it, in declaration order. -/
def mappingsFrom (t : MappingTree) (i : Nat) : List Mapping :=
  match t.forest.at? i with
  | some (n, below) => (n :: below.labels).flatMap Node.mappingList
  | none => []

/-- Every mapping at the root node and below it, in declaration order. -/
def mappings (t : MappingTree) : List Mapping := t.mappingsFrom 0

/-- Whether a node or one below it has a mapping. -/
def isPopulated (t : MappingTree) (i : Nat) : Bool :=
  match t.forest.at? i with
  | some (n, below) => n.hasMappings || below.any Node.hasMappings
  | none => false

/-- Whether a node is offered to the curator. -/
def isOffered (t : MappingTree) (i : Nat) : Bool := !(t.nodes[i]?).any Node.isHidden

/-- The children of a node that are offered to the curator. -/
def visibleChildren (t : MappingTree) (i : Nat) : List Nat :=
  ((t.children[i]?).getD []).filter t.isOffered

/-- The nodes that stand for choices and are offered to the curator. -/
def visibleRoots (t : MappingTree) : List Nat :=
  t.nodes.zipIdx.filterMap fun (n, i) =>
    if n.role? = some .root ∧ !n.isHidden then some i else none

end MappingTree

end Crosswalk
