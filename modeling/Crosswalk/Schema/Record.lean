import Crosswalk.Forest
import Crosswalk.Schema.Declaration

/-!
Resolved record definitions: every reference has been replaced by what it names, and the elements
form a forest whose labels carry their attributes.
-/

namespace Crosswalk

/-- An element of a resolved record definition, apart from the elements below it. -/
structure Element extends ElementInfo where
  attributes : List Attribute := []
  vocabulary : Option Vocabulary := none
  deriving DecidableEq, Repr

/-- A resolved record definition. -/
structure Record where
  qualifier : String
  version : String
  namespaces : List Namespace
  root : Element
  below : Forest Element
  fieldMarkers : List FieldMarker
  assertions : List Assertion
  deriving DecidableEq, Repr

/-- The paths of the attributes of an element, in order, and then of the element itself. -/
def Element.pathsAt (parent : Path) (e : Element) : List Path :=
  (e.attributes.map fun a => (parent.child e.tag).child a.tag) ++ [parent.child e.tag]

/-- The schema paths of a forest of elements beneath `parent`, in declaration order. -/
def Element.pathsOf (parent : Path) : Forest Element → List Path
  | .nil => []
  | .tree e below next =>
    e.pathsAt parent ++ pathsOf (parent.child e.tag) below ++ pathsOf parent next

namespace Record

/-- The elements as a forest of one tree. -/
def elements (r : Record) : Forest Element := .single r.root r.below

/-- Every schema path in declaration order; those of attributes come before their element's. -/
def paths (r : Record) : List Path := Element.pathsOf Path.root r.elements

/-- The vocabularies in declaration order. -/
def vocabularies (r : Record) : List Vocabulary := r.elements.labels.filterMap Element.vocabulary

end Record

end Crosswalk
