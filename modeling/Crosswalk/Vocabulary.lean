import Crosswalk.Path

/-!
Vocabularies: option lists attached to one schema element. The element becomes one node for each
choice; beneath it, the nodes that hold the choice's value, key, schema or schema URI are fixed by
the choice and take no mappings. The positions of these nodes are schema paths without variants.
-/

namespace Crosswalk

/-- The part a node plays in the expansion of a vocabulary. -/
inductive Role where
  /-- The node that stands for one choice. -/
  | root
  /-- Any other node beneath it. -/
  | child
  | key
  | value
  | schema
  | schemaUri
  deriving DecidableEq, Repr, Inhabited

namespace Role

/-- Every role but the two first is fixed by the choice. -/
def acceptsMappings : Role → Bool
  | root | child => true
  | key | value | schema | schemaUri => false

/-- The name of the role. -/
def name : Role → String
  | root => "root"
  | child => "child"
  | key => "key"
  | value => "value"
  | schema => "schema"
  | schemaUri => "schema-uri"

instance : ToString Role := ⟨name⟩

end Role

/-- One permitted value. -/
structure Choice where
  key : Option String := none
  value : String
  schema : Option String := none
  schemaUri : Option String := none
  /-- A hidden choice is not offered, but it generates. -/
  hidden : Bool := false
  deriving DecidableEq, Repr, Inhabited

namespace Choice

/-- What tells the nodes of this choice from those of the others: its key, or else its value. -/
def variantKey (c : Choice) : String := c.key.getD c.value

/-- The text that this choice fixes for a role. -/
def field? (c : Choice) : Role → Option String
  | .key => some c.variantKey
  | .value => some c.value
  | .schema => c.schema
  | .schemaUri => c.schemaUri
  | .root | .child => none

end Choice

/-- An option list of the schema element at `root`. -/
structure Vocabulary where
  /-- The name of the dictionary from source values to this vocabulary. -/
  dictionary : String
  root : Path
  /-- The tag of the node that holds the value: the element itself or a child of it. -/
  value : Tag
  key : Option Path := none
  schema : Option Path := none
  schemaUri : Option Path := none
  choices : List Choice
  deriving DecidableEq, Repr, Inhabited

/-- Why a vocabulary is refused. Each cause names its root. -/
inductive VocabularyError where
  | empty (root : Path)
  | duplicateValue (root : Path) (value : String)
  | duplicateKey (root : Path) (key : String)
  /-- A fixed field does not lie beneath the root. -/
  | outsideRoot (root field : Path)
  deriving DecidableEq, Repr

namespace Vocabulary

/-- The schema path of the node that holds the value. -/
def valuePath (v : Vocabulary) : Path :=
  match v.root.last? with
  | some t => if t.sameName v.value then v.root else v.root.child v.value
  | none => v.root.child v.value

/-- Whether the element itself holds the value. -/
def rootIsValue (v : Vocabulary) : Bool := v.valuePath == v.root

/-- The declared positions of the fixed fields other than the value. -/
def declaredFields (v : Vocabulary) : List Path := [v.key, v.schema, v.schemaUri].filterMap id

/-- The role of the node at a schema path without variants. The first fixed position that is that
path decides. -/
def roleOf (v : Vocabulary) (p : Path) : Role :=
  if p = v.root then .root
  else if p = v.valuePath then .value
  else if v.key = some p then .key
  else if v.schema = some p then .schema
  else if v.schemaUri = some p then .schemaUri
  else .child

/-- The choices that are offered, with their positions. -/
def visible (v : Vocabulary) : List (Nat × Choice) :=
  v.choices.zipIdx.filterMap fun (c, i) => if c.hidden then none else some (i, c)

/-- Accepts choices whose values and variant keys differ from one another and from those seen. -/
def checkChoices (root : Path) (values keys : List String) :
    List Choice → Except VocabularyError Unit
  | [] => .ok ()
  | c :: cs =>
    if c.value ∈ values then .error (.duplicateValue root c.value)
    else if c.variantKey ∈ keys then .error (.duplicateKey root c.variantKey)
    else checkChoices root (c.value :: values) (c.variantKey :: keys) cs

/-- Accepts fixed fields that lie beneath the root. -/
def checkFields (root : Path) : List Path → Except VocabularyError Unit
  | [] => .ok ()
  | p :: ps =>
    if root.isAncestorOf p then checkFields root ps else .error (.outsideRoot root p)

/-- Accepts a vocabulary with choices, distinct values, distinct variant keys and fixed fields
beneath the root. -/
def validate (v : Vocabulary) : Except VocabularyError Unit := do
  if v.choices.isEmpty then .error (.empty v.root) else .ok ()
  checkChoices v.root [] [] v.choices
  checkFields v.root v.declaredFields

end Vocabulary

end Crosswalk
