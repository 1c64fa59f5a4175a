import Crosswalk.Operator
import Crosswalk.Vocabulary

/-!
Record definitions as written. The content of an element or of a named definition is a sequence of
attributes, elements and references to definitions; the content of each element is nested in it.
-/

namespace Crosswalk

/-- A namespace of the target document. -/
structure Namespace where
  qualifier : String
  uri : String
  deriving DecidableEq, Repr

/-- The output field with a meaning that the system requires. -/
structure FieldMarker where
  name : String
  kind : Option String
  path : Path
  deriving DecidableEq, Repr

/-- A condition on the output record. -/
structure Assertion where
  path : Path
  condition : String
  deriving DecidableEq, Repr

/-- An attribute of an element. -/
structure Attribute where
  tag : Tag
  required : Bool := false
  function : Option String := none
  init : Option String := none
  doc : Option String := none
  deriving DecidableEq, Repr

/-- What an element is, apart from its content. -/
structure ElementInfo where
  tag : Tag
  required : Bool := false
  singular : Bool := false
  /-- The operator of mappings onto this element that have none of their own. -/
  operator : Option Operator := none
  function : Option String := none
  init : Option String := none
  doc : Option String := none
  deriving DecidableEq, Repr

/-- An option list as written: its paths are relative to the element that carries it. -/
structure VocabularyDecl where
  dictionary : String
  value : Tag
  key : Option Path := none
  schema : Option Path := none
  schemaUri : Option Path := none
  choices : List Choice
  deriving DecidableEq, Repr

/-- An element as written, apart from its content. -/
structure ElementDecl extends ElementInfo where
  /-- The template whose content comes before the element's own. -/
  template : Option String := none
  vocabulary : Option VocabularyDecl := none
  deriving DecidableEq, Repr

/-- What a named definition holds. -/
inductive DefinitionKind where
  /-- A set of attributes. -/
  | attributeGroup
  /-- A set of elements. -/
  | elementGroup
  /-- The content of an element. -/
  | template
  deriving DecidableEq, Repr, Inhabited, Hashable

namespace DefinitionKind

/-- The word for a kind. -/
def name : DefinitionKind → String
  | attributeGroup => "attr-group"
  | elementGroup => "elem-group"
  | template => "template"

/-- Attribute groups come first and templates last. -/
def rank : DefinitionKind → Nat
  | attributeGroup => 0
  | elementGroup => 1
  | template => 2

end DefinitionKind

/-- A sequence of attributes, references and elements as written. -/
inductive Content where
  | nil
  | attr (a : Attribute) (rest : Content)
  | ref (kind : DefinitionKind) (name : String) (rest : Content)
  | elem (e : ElementDecl) (below rest : Content)
  deriving DecidableEq, Repr, Inhabited

/-- The entries of one content followed by those of another. -/
def Content.append : Content → Content → Content
  | .nil, d => d
  | .attr a rest, d => .attr a (append rest d)
  | .ref kind name rest, d => .ref kind name (append rest d)
  | .elem e below rest, d => .elem e below (append rest d)

instance : Append Content := ⟨Content.append⟩

/-- A named definition. -/
structure Definition where
  kind : DefinitionKind
  name : String
  content : Content
  deriving DecidableEq, Repr

/-- A record definition as written. -/
structure Declaration where
  qualifier : String := ""
  version : String := ""
  namespaces : List Namespace := []
  definitions : List Definition := []
  root : ElementDecl
  content : Content
  fieldMarkers : List FieldMarker := []
  assertions : List Assertion := []
  deriving DecidableEq, Repr

end Crosswalk
