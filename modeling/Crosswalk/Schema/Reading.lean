import Crosswalk.Markup.Scan
import Crosswalk.Schema.Error
import Crosswalk.Schema.Resolution

/-!
Reading record definitions from markup. The document is read from front to back, so the first
thing that is wrong with it is the error. Text between elements says nothing.
-/

namespace Crosswalk

namespace Reading

open Markup (Head Fault)

/-- The error of a document that breaks off. -/
def faultError : Fault → SchemaError
  | .ended => .unexpectedEnd
  | .malformed => .malformed

/-! ### Attributes -/

/-- The value of an attribute that has to be there. -/
def require (h : Head) (key : String) : Except SchemaError String :=
  match h.get? key with
  | some value => .ok value
  | none => .error (.missingAttribute h.name key)

/-- A truth value; without the attribute it is false. -/
def flag (h : Head) (key : String) : Except SchemaError Bool :=
  match h.get? key with
  | none | some "false" | some "0" => .ok false
  | some "true" | some "1" => .ok true
  | some other => .error (.invalidAttribute h.name key other "expected `true` or `false`")

/-- The path that an attribute's value denotes. -/
def pathValue (h : Head) (key value : String) : Except SchemaError Path :=
  match Path.parse value with
  | .ok p => .ok p
  | .error e => .error (.invalidAttribute h.name key value e.message)

/-- The path of an attribute that has to be there. -/
def requirePath (h : Head) (key : String) : Except SchemaError Path := do
  let value ← require h key
  pathValue h key value

/-- The path of an attribute, if it is there. -/
def optionalPath (h : Head) (key : String) : Except SchemaError (Option Path) :=
  match h.get? key with
  | some value => some <$> pathValue h key value
  | none => .ok none

/-- The operator of an element, if it declares one. -/
def operator (h : Head) : Except SchemaError (Option Operator) :=
  match h.get? "operator" with
  | some value =>
    match Operator.parse value with
    | .ok op => .ok (some op)
    | .error e => .error (.invalidAttribute h.name "operator" value e.message)
  | none => .ok none

/-- The tag that a text denotes, for an attribute whose value is `value`. -/
def tagValue (h : Head) (key value text : String) : Except SchemaError Tag :=
  match Tag.parse text with
  | .ok t => .ok t
  | .error e => .error (.invalidAttribute h.name key value e.message)

/-- Whether a text has the mark of an attribute tag. -/
def hasMark (s : String) : Bool := s.toList.head? == some '@'

/-- The tag of an attribute; its mark may be left out. -/
def attributeTag (h : Head) : Except SchemaError Tag := do
  let value ← require h "tag"
  tagValue h "tag" value (if hasMark value then value else "@" ++ value)

/-- The tag of an element. -/
def elementTag (h : Head) : Except SchemaError Tag := do
  let value ← require h "tag"
  if hasMark value then
    .error (.invalidAttribute h.name "tag" value "an element cannot be named by an attribute tag")
  else tagValue h "tag" value value

/-! ### Content -/

/-- The error of an element that may not stand in `parent`. -/
def unexpected (parent : String) (h : Head) : SchemaError := .unexpectedElement parent h.name

/-- What the elements of some content come to, in document order. -/
def mapElements {α : Type} (f : Head → Markup.Content → Except SchemaError α) :
    Markup.Content → Except SchemaError (List α)
  | .closed => .ok []
  | .cut fault => .error (faultError fault)
  | .text _ rest => mapElements f rest
  | .element h below rest => do
    let a ← f h below
    let as ← mapElements f rest
    .ok (a :: as)

/-- What the elements of some content come to, when all have to have one name. -/
def mapNamed {α : Type} (parent name : String)
    (f : Head → Markup.Content → Except SchemaError α) :
    Markup.Content → Except SchemaError (List α) :=
  mapElements fun h below => if h.name = name then f h below else .error (unexpected parent h)

/-- Accepts content without elements. -/
def noElements (parent : String) : Markup.Content → Except SchemaError Unit
  | .closed => .ok ()
  | .cut fault => .error (faultError fault)
  | .text _ rest => noElements parent rest
  | .element h _ _ => .error (unexpected parent h)

/-- The text of content without elements. -/
def allText (parent : String) : Markup.Content → Except SchemaError String
  | .closed => .ok ""
  | .cut fault => .error (faultError fault)
  | .text s rest => (s ++ ·) <$> allText parent rest
  | .element h _ _ => .error (unexpected parent h)

/-- The documentation of an attribute: its last, if there are several. -/
def attributeDoc (below : Markup.Content) : Except SchemaError (Option String) := do
  let docs ← mapNamed "attr" "doc" (fun _ below => allText "doc" below) below
  .ok docs.getLast?

/-- An attribute. -/
def attributeDecl (h : Head) (below : Markup.Content) : Except SchemaError Attribute := do
  let required ← flag h "required"
  let tag ← attributeTag h
  let doc ← attributeDoc below
  .ok { tag, required, function := h.get? "function", init := h.get? "init", doc }

/-- A choice of a vocabulary. -/
def choice (h : Head) (below : Markup.Content) : Except SchemaError Choice := do
  let value ← require h "value"
  let hidden ← flag h "hidden"
  noElements "opt" below
  .ok { key := h.get? "key"
        value
        schema := h.get? "schema"
        schemaUri := h.get? "schema-uri"
        hidden }

/-- A vocabulary. -/
def vocabulary (h : Head) (below : Markup.Content) : Except SchemaError VocabularyDecl := do
  let valueText ← require h "value"
  let dictionary ← require h "dictionary"
  let value ← tagValue h "value" valueText valueText
  let key ← optionalPath h "key"
  let schema ← optionalPath h "schema"
  let schemaUri ← optionalPath h "schema-uri"
  let choices ← mapNamed "opt-list" "opt" choice below
  .ok { dictionary, value, key, schema, schemaUri, choices }

/-- An element as its start tag declares it. -/
def elementHead (h : Head) : Except SchemaError ElementDecl := do
  let required ← flag h "required"
  let singular ← flag h "singular"
  let op ← operator h
  let tag ← elementTag h
  .ok { tag
        required
        singular
        operator := op
        function := h.get? "function"
        init := h.get? "init"
        template := h.get? "template" }

/-- An entry of an element or of a named definition. -/
inductive Entry where
  | doc (text : String)
  | vocabulary (v : VocabularyDecl)
  | attr (a : Attribute)
  | ref (kind : DefinitionKind) (name : String)
  | elem (e : ElementDecl) (content : Content)

namespace Entry

/-- The documentation that some entries give: the last, if there are several. -/
def docOf (entries : List Entry) : Option String :=
  (entries.filterMap fun | doc text => some text | _ => none).getLast?

/-- The vocabulary that some entries give: the last, if there are several. -/
def vocabularyOf (entries : List Entry) : Option VocabularyDecl :=
  (entries.filterMap fun | vocabulary v => some v | _ => none).getLast?

/-- The attributes, references and elements among some entries, in order. -/
def contentOf : List Entry → Content
  | [] => .nil
  | attr a :: rest => .attr a (contentOf rest)
  | ref kind name :: rest => .ref kind name (contentOf rest)
  | elem e below :: rest => .elem e below (contentOf rest)
  | _ :: rest => contentOf rest

/-- An element with what its entries say about it. -/
def complete (e : ElementDecl) (entries : List Entry) : ElementDecl :=
  { e with doc := docOf entries, vocabulary := vocabularyOf entries }

end Entry

/-- The kind of group that an element of this name refers to. -/
def groupKind? : String → Option DefinitionKind
  | "attr-group" => some .attributeGroup
  | "elem-group" => some .elementGroup
  | _ => none

/-- A reference to a group. -/
def reference (kind : DefinitionKind) (h : Head) (below : Markup.Content) :
    Except SchemaError Entry := do
  let name ← require h "ref"
  noElements h.name below
  .ok (.ref kind name)

/-- An entry other than an element; only elements have documentation and vocabularies. -/
def simpleEntry (parent : String) (inElement : Bool) (h : Head) (below : Markup.Content) :
    Except SchemaError Entry :=
  if h.name = "attr" then .attr <$> attributeDecl h below
  else if inElement && h.name == "doc" then .doc <$> allText "doc" below
  else if inElement && h.name == "opt-list" then .vocabulary <$> vocabulary h below
  else
    match groupKind? h.name with
    | some kind => reference kind h below
    | none => .error (unexpected parent h)

/-- The entries of an element or of a named definition. -/
def entries (parent : String) (inElement : Bool) :
    Markup.Content → Except SchemaError (List Entry)
  | .closed => .ok []
  | .cut fault => .error (faultError fault)
  | .text _ rest => entries parent inElement rest
  | .element h below rest =>
    if h.name = "elem" then do
      let e ← elementHead h
      let inner ← entries h.name true below
      let others ← entries parent inElement rest
      .ok (.elem (Entry.complete e inner) (Entry.contentOf inner) :: others)
    else do
      let entry ← simpleEntry parent inElement h below
      let others ← entries parent inElement rest
      .ok (entry :: others)

/-! ### The record definition -/

/-- A part of a record definition. -/
inductive Section where
  | namespaces (ns : List Namespace)
  | definition (d : Definition)
  | root (e : ElementDecl) (content : Content)
  | fieldMarkers (ms : List FieldMarker)
  | assertions (as : List Assertion)

/-- A namespace. -/
def namespaceDecl (h : Head) (below : Markup.Content) : Except SchemaError Namespace := do
  let qualifier ← require h "prefix"
  let uri ← require h "uri"
  noElements "namespace" below
  .ok { qualifier, uri }

/-- A field marker. -/
def fieldMarker (h : Head) (below : Markup.Content) : Except SchemaError FieldMarker := do
  let name ← require h "name"
  let path ← requirePath h "path"
  noElements "field-marker" below
  .ok { name, kind := h.get? "type", path }

/-- An assertion. -/
def assertion (h : Head) (below : Markup.Content) : Except SchemaError Assertion := do
  let path ← requirePath h "path"
  let condition ← allText "assert" below
  .ok { path, condition }

/-- A named definition. -/
def definition (kind : DefinitionKind) (h : Head) (below : Markup.Content) :
    Except SchemaError Definition := do
  let name ← require h "name"
  let inner ← entries h.name false below
  .ok { kind, name, content := Entry.contentOf inner }

/-- The root element. -/
def rootElement (h : Head) (below : Markup.Content) : Except SchemaError Section := do
  let e ← elementHead h
  let inner ← entries h.name true below
  .ok (.root (Entry.complete e inner) (Entry.contentOf inner))

/-- A part of a record definition. -/
def part (h : Head) (below : Markup.Content) : Except SchemaError Section :=
  match h.name with
  | "namespaces" => .namespaces <$> mapNamed "namespaces" "namespace" namespaceDecl below
  | "attr-group" => .definition <$> definition .attributeGroup h below
  | "elem-group" => .definition <$> definition .elementGroup h below
  | "template" => .definition <$> definition .template h below
  | "root" => rootElement h below
  | "field-markers" => .fieldMarkers <$> mapNamed "field-markers" "field-marker" fieldMarker below
  | "assertions" => .assertions <$> mapNamed "assertions" "assert" assertion below
  | _ => .error (unexpected "record-definition" h)

namespace Section

/-- The root element that some parts declare: the last, if there are several. -/
def rootOf (parts : List Section) : Option (ElementDecl × Content) :=
  (parts.filterMap fun | root e content => some (e, content) | _ => none).getLast?

/-- The namespaces that some parts declare. -/
def namespacesOf (parts : List Section) : List Namespace :=
  parts.flatMap fun | namespaces ns => ns | _ => []

/-- The definitions among some parts. -/
def definitionsOf (parts : List Section) : List Definition :=
  parts.filterMap fun | definition d => some d | _ => none

/-- The field markers that some parts declare. -/
def fieldMarkersOf (parts : List Section) : List FieldMarker :=
  parts.flatMap fun | fieldMarkers ms => ms | _ => []

/-- The assertions that some parts declare. -/
def assertionsOf (parts : List Section) : List Assertion :=
  parts.flatMap fun | assertions as => as | _ => []

end Section

/-- The record definition of the document element. -/
def recordDefinition (h : Head) (below : Markup.Content) : Except SchemaError Declaration := do
  let qualifier ← require h "prefix"
  let parts ← mapElements part below
  match Section.rootOf parts with
  | none => .error .missingRoot
  | some (root, content) =>
    .ok { qualifier
          version := (h.get? "version").getD ""
          namespaces := Section.namespacesOf parts
          definitions := Section.definitionsOf parts
          root
          content
          fieldMarkers := Section.fieldMarkersOf parts
          assertions := Section.assertionsOf parts }

/-- The record definition of a whole document. What follows the document element is not read. -/
def document : Markup.Content → Except SchemaError Declaration
  | .closed => .error .malformed
  | .cut fault => .error (faultError fault)
  | .text _ rest => document rest
  | .element h below _ =>
    if h.name = "record-definition" then recordDefinition h below
    else .error (unexpected "document" h)

end Reading

namespace Declaration

/-- The record definition that some events describe. -/
def ofEvents (es : List Markup.Event) : Except SchemaError Declaration :=
  Reading.document (Markup.Content.document es)

/-- The record definition that a text describes. -/
def read (s : String) : Except SchemaError Declaration := ofEvents (Markup.scan s)

end Declaration

namespace Record

/-- The resolved record definition that some events describe. -/
def ofEvents (es : List Markup.Event) : Except SchemaError Record := do
  let d ← Declaration.ofEvents es
  d.resolve

/-- The resolved record definition that a text describes. -/
def load (s : String) : Except SchemaError Record := ofEvents (Markup.scan s)

end Record

end Crosswalk
