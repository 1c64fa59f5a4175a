import Crosswalk.Schema.Record
import Crosswalk.Schema.Reference

/-!
Resolution: every reference of a record definition is replaced by the content it names. Groups are
replaced among their neighbours; the content of a template comes before that of its element. The
substitution nests at most as deep as there are definitions, because none reaches itself.
-/

namespace Crosswalk

/-- What some content contributes to the element around it. -/
structure Contribution where
  attributes : List Attribute := []
  elements : Forest Element := .nil
  deriving DecidableEq, Repr

namespace Contribution

/-- The attributes of both and the elements of both, each in order. -/
def append (c d : Contribution) : Contribution :=
  ⟨c.attributes ++ d.attributes, c.elements ++ d.elements⟩

instance : Append Contribution := ⟨append⟩

/-- The names of the attributes and elements. -/
def tags (c : Contribution) : List Tag :=
  c.attributes.map Attribute.tag ++ c.elements.tops.map (·.tag)

end Contribution

namespace Resolution

/-- What a reference contributes at a place, under the restriction of the group it is in. -/
abbrev Expansion :=
  DefinitionKey → Path → Option DefinitionKind → Except SchemaError Contribution

/-- Whether attributes may stand in a group: not in a group of elements. -/
def permitsAttributes (within : Option DefinitionKind) : Bool := within != some .elementGroup

/-- Whether elements may stand in a group: not in a group of attributes. -/
def permitsElements (within : Option DefinitionKind) : Bool := within != some .attributeGroup

/-- Whether a reference may stand in a group: outside groups to any group, and inside to one of the
same kind. Templates are never referenced so. -/
def permitsReference (within : Option DefinitionKind) (kind : DefinitionKind) : Bool :=
  kind != .template && within.all (· == kind)

/-- The error of an entry that a group may not hold. -/
def misplaced (group : DefinitionKind) (place : Path) (t : Tag) : SchemaError :=
  .misplacedReference (place.child t) group t.text

/-- The first tag that stands twice among some tags and those seen before. -/
def firstRepeated? (seen : List Tag) : List Tag → Option Tag
  | [] => none
  | t :: ts => if t ∈ seen then some t else firstRepeated? (t :: seen) ts

/-- The vocabulary of the element at a path, with its own paths made absolute. -/
def vocabularyAt (path : Path) (v : VocabularyDecl) : Vocabulary :=
  let root := path.withoutVariants
  { dictionary := v.dictionary
    root
    value := v.value
    key := v.key.map root.join
    schema := v.schema.map root.join
    schemaUri := v.schemaUri.map root.join
    choices := v.choices }

/-- The valid vocabulary of the element at a path, if it declares one. -/
def checkedVocabulary (path : Path) : Option VocabularyDecl → Except SchemaError (Option Vocabulary)
  | none => .ok none
  | some v =>
    match (vocabularyAt path v).validate with
    | .ok () => .ok (some (vocabularyAt path v))
    | .error e => .error (.vocabulary e)

/-- The element at a path with the content it was given. -/
def element (path : Path) (e : ElementDecl) (content : Contribution) :
    Except SchemaError Element := do
  let vocabulary ← checkedVocabulary path e.vocabulary
  match firstRepeated? [] content.tags with
  | some t => .error (.duplicateChild (path.child t))
  | none =>
    .ok { toElementInfo := e.toElementInfo, attributes := content.attributes, vocabulary }

/-- What the template of the element at a path contributes to it. -/
def templateContribution (expand : Expansion) (path : Path) (e : ElementDecl) :
    Except SchemaError Contribution :=
  match e.template with
  | some name => expand (.template, name) path none
  | none => .ok {}

/-- What some content contributes at a place, when references expand as given. -/
def contribution (expand : Expansion) (place : Path) (within : Option DefinitionKind) :
    Content → Except SchemaError Contribution
  | .nil => .ok {}
  | .attr a rest =>
    if permitsAttributes within then do
      let after ← contribution expand place within rest
      .ok ({ attributes := [a] } ++ after)
    else .error (misplaced .elementGroup place a.tag)
  | .ref kind name rest =>
    if permitsReference within kind then do
      let named ← expand (kind, name) place (some kind)
      let after ← contribution expand place within rest
      .ok (named ++ after)
    else .error (.misplacedReference place kind name)
  | .elem e below rest =>
    if permitsElements within then do
      let supplied ← templateContribution expand (place.child e.tag) e
      let own ← contribution expand (place.child e.tag) none below
      let content := supplied ++ own
      let head ← element (place.child e.tag) e content
      let after ← contribution expand place within rest
      .ok ({ elements := .single head content.elements } ++ after)
    else .error (misplaced .attributeGroup place e.tag)

/-- References expand to what the definition they name contributes; its own references expand one
level less deep. -/
def expansion (ds : Definitions) : Nat → Expansion
  | 0 => fun k place _ => .error (.danglingReference place k.1 k.2)
  | depth + 1 => fun k place within =>
    match ds.find? k with
    | some d => contribution (expansion ds depth) place within d.content
    | none => .error (.danglingReference place k.1 k.2)

/-- The root element and the elements below it. -/
def rootTree (d : Declaration) : Except SchemaError (Element × Forest Element) := do
  let expand := expansion d.definitions d.definitions.length
  let path := Path.root.child d.root.tag
  let supplied ← templateContribution expand path d.root
  let own ← contribution expand path none d.content
  let content := supplied ++ own
  let head ← element path d.root content
  .ok (head, content.elements)

/-- Accepts paths that all are among the known ones. -/
def checkKnown (known : List Path) : List (PathUse × Path) → Except SchemaError Unit
  | [] => .ok ()
  | (use, path) :: rest =>
    if path ∈ known then checkKnown known rest else .error (.unknownPath use path)

/-- The paths that a vocabulary names, its value first. -/
def namedByVocabulary (v : Vocabulary) : List (PathUse × Path) :=
  (.vocabularyValue, v.valuePath) :: v.declaredFields.map (PathUse.vocabularyField, ·)

/-- The paths that a record definition names outside its elements, in the order of their check. -/
def namedPaths (r : Record) : List (PathUse × Path) :=
  r.fieldMarkers.map (fun m => (.fieldMarker, m.path))
    ++ r.assertions.map (fun a => (.assertion, a.path))
    ++ r.vocabularies.flatMap namedByVocabulary

end Resolution

/-- The record definition with every reference replaced by what it names. -/
def Declaration.resolve (d : Declaration) : Except SchemaError Record := do
  Definitions.check d.definitions
  let (root, below) ← Resolution.rootTree d
  let r : Record :=
    { qualifier := d.qualifier
      version := d.version
      namespaces := d.namespaces
      root
      below
      fieldMarkers := d.fieldMarkers
      assertions := d.assertions }
  Resolution.checkKnown r.paths (Resolution.namedPaths r)
  .ok r

end Crosswalk
