import Crosswalk.Diagnostic
import Crosswalk.Schema.Declaration
import Crosswalk.Vocabulary.Text

/-!
What makes a record definition unusable: the document cannot be read, a reference cannot be
followed, or a path names nothing.
-/

namespace Crosswalk

/-- What a path that names nothing stood for. -/
inductive PathUse where
  | fieldMarker
  | assertion
  | vocabularyValue
  | vocabularyField
  deriving DecidableEq, Repr

/-- The words for a use of a path. -/
def PathUse.name : PathUse → String
  | fieldMarker => "field marker"
  | assertion => "assertion"
  | vocabularyValue => "option list value"
  | vocabularyField => "option list"

/-- Why a record definition cannot be read or resolved. -/
inductive SchemaError where
  /-- The document is not well-formed. -/
  | malformed
  /-- The document ends before the record definition does. -/
  | unexpectedEnd
  | missingRoot
  /-- An element that is not permitted where it stands. -/
  | unexpectedElement (parent found : String)
  | missingAttribute (element attr : String)
  | invalidAttribute (element attr value reason : String)
  | duplicateDefinition (kind : DefinitionKind) (name : String)
  | danglingReference (place : Path) (kind : DefinitionKind) (name : String)
  /-- Definitions that contain themselves. -/
  | cyclicReferences (definitions : List (DefinitionKind × String))
  | duplicateChild (path : Path)
  /-- A group holds or names what it may not. -/
  | misplacedReference (place : Path) (kind : DefinitionKind) (name : String)
  | vocabulary (cause : VocabularyError)
  | unknownPath (use : PathUse) (path : Path)
  deriving DecidableEq, Repr

namespace SchemaError

/-- A definition's kind and its name in quotes. -/
def describe (kind : DefinitionKind) (name : String) : String := kind.name ++ " `" ++ name ++ "`"

/-- The wording of the error. -/
def message : SchemaError → String
  | malformed => "malformed record definition: the document is not well-formed"
  | unexpectedEnd => "unexpected end of record definition"
  | missingRoot => "record definition declares no `root` element"
  | unexpectedElement parent found => s!"unexpected element `{found}` within `{parent}`"
  | missingAttribute element attr =>
    s!"element `{element}` is missing attribute `{attr}`"
  | invalidAttribute element attr value reason =>
    s!"invalid value `{value}` for `{element}/@{attr}`: {reason}"
  | duplicateDefinition kind name => describe kind name ++ " is defined more than once"
  | danglingReference _ kind name => "reference to undefined " ++ describe kind name
  | cyclicReferences definitions =>
    "cyclic references between "
      ++ Text.joinWith ", " (definitions.map fun d => describe d.1 d.2)
  | duplicateChild path => s!"`{path}` is declared more than once"
  | misplacedReference _ kind name => describe kind name ++ " cannot be referenced here"
  | vocabulary cause => cause.message
  | unknownPath use path => use.name ++ " refers to unknown schema path `" ++ path.text ++ "`"

/-- What there is to say about the paths of the error. -/
def remarks : SchemaError → List Remark
  | danglingReference place kind name =>
    (place.errorRemark (describe kind name ++ " referenced here")).withHelp
      ("define a " ++ kind.name ++ " named `" ++ name ++ "`")
  | misplacedReference place kind _ =>
    [place.errorRemark ("a " ++ kind.name ++ " is not permitted in this position")]
  | cyclicReferences _ =>
    [Path.root.helpRemark "a template or group may not (indirectly) contain itself"]
  | duplicateChild path => [path.errorMark]
  | vocabulary (.outsideRoot root field) =>
    [field.errorRemark "fixed field declared here", root.noteRemark "option list is attached here"]
  | vocabulary (.empty root)
  | vocabulary (.duplicateValue root _)
  | vocabulary (.duplicateKey root _) => [root.errorMark]
  | unknownPath _ path =>
    path.errorMark.withHelp "paths must name an element or attribute of the schema"
  | malformed | unexpectedEnd | missingRoot | unexpectedElement .. | missingAttribute ..
  | invalidAttribute .. | duplicateDefinition .. => []

/-- The error that this one reports about. -/
def cause? : SchemaError → Option VocabularyError
  | vocabulary cause => some cause
  | _ => none

/-- The error as a reportable event. -/
def diagnostic (e : SchemaError) : Diagnostic := { message := e.message, remarks := e.remarks }

end SchemaError

end Crosswalk
