import Crosswalk.Dictionary
import Crosswalk.Operator
import Crosswalk.Snippet
import Crosswalk.Diagnostic

/-!
Mappings: declarations that an output node is populated from a source path, with what combines,
computes or looks up the values; and what can stand against attaching one.
-/

namespace Crosswalk

/-- How one output node is populated from one primary source path. -/
structure Mapping where
  output : Path
  /-- The primary source path, or the path of constants. -/
  input : Path
  /-- Further source paths, joined with the primary one. -/
  siblings : List Path := []
  operator : Option Operator := none
  snippet : Option Snippet := none
  /-- The literal value of a constant mapping. -/
  constant : Option String := none
  dictionary : Option Dictionary := none
  documentation : Option String := none
  deriving DecidableEq, Repr, Inhabited

/-- Why a mapping cannot be attached or found. -/
inductive AttachError where
  /-- The node has a mapping with this primary input. -/
  | duplicate (output input : Path)
  /-- A sibling input has not the parent of the primary input. -/
  | siblingParent (input sibling : Path)
  /-- The mapping is for another path than the node's. -/
  | outputMismatch (node output : Path)
  /-- The node's value is fixed by a choice. -/
  | fixedField (node : Path) (role : Role)
  /-- No node has the output path. -/
  | unknownNode (output : Path)
  /-- The node has no mapping with this primary input. -/
  | notAttached (output input : Path)
  /-- No node has this index. -/
  | noNode (index : Nat)
  deriving DecidableEq, Repr

namespace Mapping

/-- The mapping that emits a literal value. -/
def ofConstant (output : Path) (value : String) : Mapping :=
  { output, input := Path.constant, constant := some value }

/-- Whether the input is the path of constants. -/
def isConstant (m : Mapping) : Bool := m.input.isConstant

/-- The primary input and the siblings. -/
def inputs (m : Mapping) : List Path := m.input :: m.siblings

/-- The literal that the mapping emits in place of source values. -/
def literal? (m : Mapping) : Option String := if m.isConstant then m.constant else none

/-- Accepts a mapping whose siblings all have the parent of the primary input. The first that has
not is the error. -/
def checkSiblings (m : Mapping) : Except AttachError Unit :=
  match m.siblings.find? fun s => s.parent? != m.input.parent? with
  | some s => .error (.siblingParent m.input s)
  | none => .ok ()

end Mapping

namespace AttachError

/-- The wording of the error. -/
def message : AttachError → String
  | duplicate output input => s!"`{output}` is already mapped from `{input}`"
  | siblingParent input sibling =>
    s!"sibling input `{sibling}` does not share the parent of `{input}`"
  | outputMismatch node output => s!"mapping for `{output}` cannot be attached to node `{node}`"
  | fixedField node role => s!"`{node}` is the {role} of an option and cannot be mapped"
  | unknownNode output => s!"no node exists at `{output}`"
  | notAttached output input => s!"`{output}` is not mapped from `{input}`"
  | noNode index => s!"no node has index `{index}`"

/-- What there is to say about the paths of the error. -/
def remarks : AttachError → List Remark
  | duplicate output input =>
    [output.errorRemark "node already has this mapping", input.noteRemark "duplicate input"]
  | siblingParent input sibling =>
    [sibling.errorRemark "sibling input declared here", input.noteRemark "primary input",
      sibling.helpRemark "a map-join may only combine children of one parent"]
  | outputMismatch node output =>
    [node.errorRemark "mapping attached here", output.noteRemark "mapping targets this path"]
  | fixedField node _ =>
    (node.errorRemark "value is fixed by the selected option").withHelp
      "map the option list element instead"
  | unknownNode output => [output.errorMark]
  | notAttached output input => [output.errorMark, input.noteRemark "no mapping from this input"]
  | noNode _ => []

/-- The error as a reportable event. -/
def diagnostic (e : AttachError) : Diagnostic := { message := e.message, remarks := e.remarks }

end AttachError

/-- What an edit did to a mapping document. -/
inductive ChangeKind where
  | mappingAdded
  | mappingRemoved
  | codeChanged
  | dictionaryChanged
  | documentationChanged
  deriving DecidableEq, Repr

/-- The words for a change. -/
def ChangeKind.name : ChangeKind → String
  | mappingAdded => "mapping added"
  | mappingRemoved => "mapping removed"
  | codeChanged => "code changed"
  | dictionaryChanged => "dictionary changed"
  | documentationChanged => "documentation changed"

/-- Where an edit changed a mapping document: the node's index and the mapping's primary input. -/
structure ChangeEvent where
  node : Nat
  input : Path
  kind : ChangeKind
  deriving DecidableEq, Repr

end Crosswalk
