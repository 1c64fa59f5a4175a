import Crosswalk.Proofs.Reading
import Crosswalk.Proofs.Trimming

/-!
Writing record definitions. A record definition is written as the document that declares it: the
namespaces, an element for each named definition, the root, the field markers and the assertions.
In each element its documentation and its vocabulary come ahead of its content. What is read of the
document is the record definition again, all of it in order.
-/

namespace Crosswalk

/-! ### Delivery -/

namespace Markup

open Text

/-- Whether a text is not empty and has no blank at either end. -/
structure Neat (s : String) : Prop where
  nonempty : s ≠ ""
  first : s.toList.head?.any isSpace = false
  last : s.toList.getLast?.any isSpace = false

/-- The events of a text between two pieces of markup. It is trimmed, and dropped if nothing is
left. -/
def textEvents (s : String) : List Event :=
  let inside := strip isSpace s.toList
  if inside.isEmpty then [] else [.text (String.ofList inside)]

theorem textEvents_eq {s : String} (h : Neat s) : textEvents s = [.text s] := by
  have hfirst : s.toList.dropWhile isSpace = s.toList := by
    have hspace := h.first
    cases hs : s.toList with
    | nil => rfl
    | cons c cs =>
      rw [hs, List.head?_cons, Option.any_some] at hspace
      exact List.dropWhile_cons_of_neg (by simp [hspace])
  have hne : s.toList ≠ [] := fun hnil => h.nonempty (String.toList_eq_nil_iff.mp hnil)
  have hlast : dropEnd isSpace s.toList = s.toList := by
    refine dropEnd_eq_self_iff.mpr fun c hc => ?_
    have hspace := h.last
    rwa [Option.mem_def.mp hc, Option.any_some] at hspace
  rw [textEvents, strip, hfirst, hlast]
  simp [hne]

namespace Content

/-- The events by which some content is delivered, in document order, where each element has a start
tag and an end tag. -/
def events : Content → List Event
  | .closed => [.closing]
  | .cut .ended => []
  | .cut .malformed => [.malformed]
  | .text s rest => textEvents s ++ events rest
  | .element h below rest => .opening h :: (events below ++ events rest)

/-- Whether content reaches the end tag of its element, as that of all elements in it does, and its
texts are delivered as they stand. -/
def Whole : Content → Prop
  | .closed => True
  | .cut _ => False
  | .text s rest => Neat s ∧ Whole rest
  | .element _ below rest => Whole below ∧ Whole rest

theorem document_opening {h : Head} {es : List Event} :
    document (.opening h :: es) = (ofEvents (.opening h :: es)).headD (.cut .ended) := by
  rw [document] <;> nofun

theorem document_empty {h : Head} {es : List Event} :
    document (.empty h :: es) = (ofEvents (.empty h :: es)).headD (.cut .ended) := by
  rw [document] <;> nofun

/-- Whole content takes up the events that deliver it and no others. -/
theorem ofEvents_events {c : Content} : ∀ {es : List Event}, c.Whole →
    ofEvents (c.events ++ es) = c :: ofEvents es := by
  induction c with
  | closed => exact fun _ => rfl
  | cut fault => exact False.elim
  | text s rest ih =>
    intro es h
    rw [events, textEvents_eq h.1, List.append_assoc, List.singleton_append, ofEvents, ih h.2]
  | element h below rest hbelow hrest =>
    -- what is below leaves the events after its end tag to what follows the element
    intro es hwhole
    rw [events, List.cons_append, List.append_assoc, ofEvents, hbelow hwhole.1, hrest hwhole.2]

end Content

/-- A start tag with those of some attributes that have a value. -/
def Head.ofFields (name : String) (fields : List (String × Option String)) : Head :=
  { name, attributes := fields.filterMap fun f => f.2.map (f.1, ·) }

theorem Head.get?_ofFields {name key : String} {value : Option String}
    {fields : List (String × Option String)} (hkeys : (fields.map Prod.fst).Nodup)
    (hmem : (key, value) ∈ fields) : (Head.ofFields name fields).get? key = value := by
  induction fields with
  | nil => cases hmem
  | cons f fields ih =>
    obtain ⟨hnew, hkeys⟩ := List.nodup_cons.mp hkeys
    rcases List.mem_cons.mp hmem with rfl | hmem
    · cases value with
      | some value => simp [Head.get?, Head.ofFields]
      | none =>
        -- what is left out is not found under the key of another attribute
        simp only [Head.get?, Head.ofFields, List.filterMap_cons, Option.map_none]
        refine List.lookup_eq_none_iff.mpr fun a ha => ?_
        obtain ⟨g, hg, hvalue⟩ := List.mem_filterMap.mp ha
        obtain ⟨v, -, rfl⟩ := Option.map_eq_some_iff.mp hvalue
        exact bne_iff_ne.mpr fun heq => hnew (List.mem_map.mpr ⟨g, hg, heq.symm⟩)
    · have hne : key ≠ f.1 := by
        rintro rfl
        exact hnew (List.mem_map.mpr ⟨_, hmem, rfl⟩)
      have hrest := ih hkeys hmem
      obtain ⟨k, _ | v⟩ := f
      · exact hrest
      · simpa [Head.get?, Head.ofFields, List.lookup_cons, beq_false_of_ne hne] using hrest

end Markup

/-! ### The writer -/

namespace Writing

open Markup (Head)
open Reading (Section)

/-- The value of a flag that is set; one that is not set is left out. -/
def flagText (b : Bool) : Option String := if b then some "true" else none

/-- The elements that some things are written as, up to the end tag of the element around. -/
def elements {α : Type} (write : α → Head × Markup.Content) : List α → Markup.Content
  | [] => .closed
  | a :: as => .element (write a).1 (write a).2 (elements write as)

/-- Documentation, ahead of other content. -/
def withDoc (doc : Option String) (rest : Markup.Content) : Markup.Content :=
  doc.elim rest fun s => .element (.ofFields "doc" []) (.text s .closed) rest

/-- The start tag of an attribute. -/
def attributeHead (a : Attribute) : Head :=
  .ofFields "attr"
    [("tag", some a.tag.text), ("required", flagText a.required), ("function", a.function),
      ("init", a.init)]

/-- A choice of a vocabulary. -/
def choice (c : Choice) : Head × Markup.Content :=
  (.ofFields "opt"
    [("key", c.key), ("value", some c.value), ("schema", c.schema), ("schema-uri", c.schemaUri),
      ("hidden", flagText c.hidden)], .closed)

/-- The start tag of a vocabulary. -/
def vocabularyHead (v : VocabularyDecl) : Head :=
  .ofFields "opt-list"
    [("dictionary", some v.dictionary), ("value", some v.value.text), ("key", v.key.map Path.text),
      ("schema", v.schema.map Path.text), ("schema-uri", v.schemaUri.map Path.text)]

/-- A vocabulary, ahead of other content. -/
def withVocabulary (vocabulary : Option VocabularyDecl) (rest : Markup.Content) : Markup.Content :=
  vocabulary.elim rest fun v => .element (vocabularyHead v) (elements choice v.choices) rest

/-- The start tag of an element. -/
def elementHead (name : String) (e : ElementDecl) : Head :=
  .ofFields name
    [("tag", some e.tag.text), ("required", flagText e.required),
      ("singular", flagText e.singular), ("operator", e.operator.map Operator.name),
      ("function", e.function), ("init", e.init), ("template", e.template)]

/-- What stands in an element: its documentation and its vocabulary come ahead of its content. -/
def inside (e : ElementDecl) (rest : Markup.Content) : Markup.Content :=
  withDoc e.doc (withVocabulary e.vocabulary rest)

/-- The content of an element or of a named definition, up to the end tag. -/
def content : Content → Markup.Content
  | .nil => .closed
  | .attr a rest => .element (attributeHead a) (withDoc a.doc .closed) (content rest)
  | .ref kind name rest =>
    .element (.ofFields kind.name [("ref", some name)]) .closed (content rest)
  | .elem e below rest => .element (elementHead "elem" e) (inside e (content below)) (content rest)

/-- A namespace. -/
def namespaceDecl (n : Namespace) : Head × Markup.Content :=
  (.ofFields "namespace" [("prefix", some n.qualifier), ("uri", some n.uri)], .closed)

/-- A field marker. -/
def fieldMarker (m : FieldMarker) : Head × Markup.Content :=
  (.ofFields "field-marker" [("name", some m.name), ("type", m.kind), ("path", some m.path.text)],
    .closed)

/-- An assertion. -/
def assertion (a : Assertion) : Head × Markup.Content :=
  (.ofFields "assert" [("path", some a.path.text)], .text a.condition .closed)

/-- A part of a record definition. -/
def part : Section → Head × Markup.Content
  | .namespaces ns => (.ofFields "namespaces" [], elements namespaceDecl ns)
  | .definition d => (.ofFields d.kind.name [("name", some d.name)], content d.content)
  | .root e c => (elementHead "root" e, inside e (content c))
  | .fieldMarkers ms => (.ofFields "field-markers" [], elements fieldMarker ms)
  | .assertions as => (.ofFields "assertions" [], elements assertion as)

/-- The parts of a record definition, in the order in which they are written. -/
def parts (d : Declaration) : List Section :=
  .namespaces d.namespaces :: d.definitions.map .definition ++
    [.root d.root d.content, .fieldMarkers d.fieldMarkers, .assertions d.assertions]

/-- The start tag of a record definition. -/
def head (d : Declaration) : Head :=
  .ofFields "record-definition" [("prefix", some d.qualifier), ("version", some d.version)]

end Writing

open Writing in
/-- The document that declares a record definition. -/
def Declaration.document (d : Declaration) : Markup.Content :=
  .element (head d) (elements part (parts d)) (.cut .ended)

/-! ### What can be written -/

/-- Whether a tag is read from its own text. -/
def Tag.Rereads (t : Tag) : Prop := Tag.parse t.text = .ok t

/-- Whether a path is read from its own text. -/
def Path.Rereads (p : Path) : Prop := Path.parse p.text = .ok p

/-- Whether an attribute has the tag of one, which is read from its own text, and documentation that
is delivered as it stands. -/
structure Attribute.Writable (a : Attribute) : Prop where
  isAttribute : a.tag.isAttribute = true
  tag : a.tag.Rereads
  doc : ∀ s ∈ a.doc, Markup.Neat s

/-- Whether the tag and the paths of a vocabulary are read from their own texts. -/
structure VocabularyDecl.Writable (v : VocabularyDecl) : Prop where
  value : v.value.Rereads
  key : ∀ p ∈ v.key, p.Rereads
  schema : ∀ p ∈ v.schema, p.Rereads
  schemaUri : ∀ p ∈ v.schemaUri, p.Rereads

/-- Whether an element has the tag of one, which is read from its own text, documentation that is
delivered as it stands, and a vocabulary that can be written. -/
structure ElementDecl.Writable (e : ElementDecl) : Prop where
  isElement : e.tag.isAttribute = false
  tag : e.tag.Rereads
  doc : ∀ s ∈ e.doc, Markup.Neat s
  vocabulary : ∀ v ∈ e.vocabulary, v.Writable

/-- Whether all attributes and elements of some content can be written, and all references in it are
to groups. -/
def Content.Writable : Content → Prop
  | .nil => True
  | .attr a rest => a.Writable ∧ Writable rest
  | .ref kind _ rest => kind ≠ .template ∧ Writable rest
  | .elem e below rest => e.Writable ∧ Writable below ∧ Writable rest

/-- Whether the path of an assertion is read from its own text, and its condition is delivered as it
stands. -/
structure Assertion.Writable (a : Assertion) : Prop where
  path : a.path.Rereads
  condition : Markup.Neat a.condition

/-- Whether all of a record definition can be written. -/
structure Declaration.Writable (d : Declaration) : Prop where
  definitions : ∀ definition ∈ d.definitions, definition.content.Writable
  root : d.root.Writable
  content : d.content.Writable
  fieldMarkers : ∀ m ∈ d.fieldMarkers, m.path.Rereads
  assertions : ∀ a ∈ d.assertions, a.Writable

namespace Reading

/-- Whether all of a part of a record definition can be written. -/
def Section.Writable : Section → Prop
  | .namespaces _ => True
  | .definition d => d.content.Writable
  | .root e c => e.Writable ∧ c.Writable
  | .fieldMarkers ms => ∀ m ∈ ms, m.path.Rereads
  | .assertions as => ∀ a ∈ as, a.Writable

theorem Section.writable_of_mem_parts {d : Declaration} (hd : d.Writable) :
    ∀ s ∈ Writing.parts d, s.Writable := by
  intro s hs
  simp only [Writing.parts, List.cons_append, List.mem_cons, List.mem_append, List.mem_map,
    List.not_mem_nil, or_false] at hs
  rcases hs with rfl | ⟨definition, hmem, rfl⟩ | rfl | rfl | rfl
  · trivial
  · exact hd.definitions definition hmem
  · exact ⟨hd.root, hd.content⟩
  · exact hd.fieldMarkers
  · exact hd.assertions

end Reading

/-! ### Delivery of what is written -/

namespace Writing

open Markup (Head Neat)
open Markup.Content (Whole)
open Reading (Section)

theorem whole_elements {α : Type} {write : α → Head × Markup.Content} {as : List α}
    (h : ∀ a ∈ as, (write a).2.Whole) : (elements write as).Whole := by
  induction as with
  | nil => trivial
  | cons a as ih =>
    rw [List.forall_mem_cons] at h
    exact ⟨h.1, ih h.2⟩

theorem whole_withDoc {doc : Option String} {rest : Markup.Content} (hdoc : ∀ s ∈ doc, Neat s)
    (hrest : rest.Whole) : (withDoc doc rest).Whole := by
  cases doc with
  | none => exact hrest
  | some s => exact ⟨⟨hdoc s rfl, trivial⟩, hrest⟩

theorem whole_inside {e : ElementDecl} {rest : Markup.Content} (he : e.Writable)
    (hrest : rest.Whole) : (inside e rest).Whole := by
  refine whole_withDoc he.doc ?_
  cases e.vocabulary with
  | none => exact hrest
  | some v => exact ⟨whole_elements fun _ _ => trivial, hrest⟩

theorem whole_content {c : Content} (hc : c.Writable) : (content c).Whole := by
  induction c with
  | nil => trivial
  | attr a rest ih => exact ⟨whole_withDoc hc.1.doc trivial, ih hc.2⟩
  | ref kind name rest ih => exact ⟨trivial, ih hc.2⟩
  | elem e below rest hbelow hrest => exact ⟨whole_inside hc.1 (hbelow hc.2.1), hrest hc.2.2⟩

theorem whole_part {s : Section} (hs : s.Writable) : (part s).2.Whole := by
  cases s with
  | namespaces ns => exact whole_elements fun _ _ => trivial
  | definition d => exact whole_content hs
  | root e c => exact whole_inside hs.1 (whole_content hs.2)
  | fieldMarkers ms => exact whole_elements fun _ _ => trivial
  | assertions as => exact whole_elements fun a ha => ⟨(hs a ha).condition, trivial⟩

end Writing

/-- A record definition's document is delivered as it is written. -/
theorem Declaration.document_events {d : Declaration} (hd : d.Writable) :
    Markup.Content.document d.document.events = d.document := by
  have hwhole := Writing.whole_elements fun s hs =>
    Writing.whole_part (Reading.Section.writable_of_mem_parts hd s hs)
  rw [Declaration.document, Markup.Content.events, Markup.Content.document_opening,
    Markup.Content.ofEvents, Markup.Content.ofEvents_events hwhole]
  rfl

/-! ### Reading what is written -/

namespace Reading

open Markup (Head Neat)

variable {h : Head}

theorem require_eq {key value : String} (hget : h.get? key = some value) :
    require h key = .ok value := by
  rw [require, hget]

theorem flag_eq {key : String} {b : Bool} (hget : h.get? key = Writing.flagText b) :
    flag h key = .ok b := by
  rw [flag, hget]
  cases b <;> rfl

theorem pathValue_eq {key : String} {p : Path} (hp : p.Rereads) :
    pathValue h key p.text = .ok p := by
  rw [pathValue, hp]

theorem requirePath_eq {key : String} {p : Path} (hp : p.Rereads)
    (hget : h.get? key = some p.text) : requirePath h key = .ok p :=
  bind_eq_ok_iff.mpr ⟨_, require_eq hget, pathValue_eq hp⟩

theorem optionalPath_eq {key : String} {path : Option Path} (hpath : ∀ p ∈ path, p.Rereads)
    (hget : h.get? key = path.map Path.text) : optionalPath h key = .ok path := by
  rw [optionalPath, hget]
  cases path with
  | none => rfl
  | some p => exact map_eq_ok_iff.mpr ⟨p, pathValue_eq (hpath p rfl), rfl⟩

theorem operator_eq {op : Option Operator} (hget : h.get? "operator" = op.map Operator.name) :
    operator h = .ok op := by
  rw [operator, hget]
  cases op with
  | none => rfl
  | some op => cases op <;> rfl

theorem tagValue_eq {key : String} {t : Tag} (ht : t.Rereads) :
    tagValue h key t.text t.text = .ok t := by
  rw [tagValue, ht]

theorem attributeTag_eq {t : Tag} (hattribute : t.isAttribute = true) (ht : t.Rereads)
    (hget : h.get? "tag" = some t.text) : attributeTag h = .ok t := by
  refine bind_eq_ok_iff.mpr ⟨_, require_eq hget, ?_⟩
  rw [if_pos ((isAttribute_of_parse ht).symm.trans hattribute)]
  exact tagValue_eq ht

theorem elementTag_eq {t : Tag} (helement : t.isAttribute = false) (ht : t.Rereads)
    (hget : h.get? "tag" = some t.text) : elementTag h = .ok t := by
  refine bind_eq_ok_iff.mpr ⟨_, require_eq hget, ?_⟩
  rw [if_neg (by simp [← isAttribute_of_parse ht, helement])]
  exact tagValue_eq ht

theorem mapElements_elements {α : Type} {f : Head → Markup.Content → Except SchemaError α}
    {write : α → Head × Markup.Content} {as : List α}
    (hf : ∀ a ∈ as, f (write a).1 (write a).2 = .ok a) :
    mapElements f (Writing.elements write as) = .ok as := by
  induction as with
  | nil => rfl
  | cons a as ih =>
    rw [List.forall_mem_cons] at hf
    exact bind_eq_ok_iff.mpr ⟨a, hf.1, bind_eq_ok_iff.mpr ⟨as, ih hf.2, rfl⟩⟩

theorem mapNamed_elements {α : Type} {parent name : String}
    {f : Head → Markup.Content → Except SchemaError α} {write : α → Head × Markup.Content}
    {as : List α} (hname : ∀ a, (write a).1.name = name)
    (hf : ∀ a ∈ as, f (write a).1 (write a).2 = .ok a) :
    mapNamed parent name f (Writing.elements write as) = .ok as :=
  mapElements_elements fun a ha => (if_pos (hname a)).trans (hf a ha)

theorem allText_eq {parent s : String} : allText parent (.text s .closed) = .ok s := by
  simp [allText, Functor.map, Except.map]

theorem attributeDoc_eq {doc : Option String} :
    attributeDoc (Writing.withDoc doc .closed) = .ok doc := by
  cases doc with
  | none => rfl
  | some s =>
    refine bind_eq_ok_iff.mpr ⟨[s], ?_, rfl⟩
    exact bind_eq_ok_iff.mpr ⟨s, allText_eq, rfl⟩

/-! ### Start tags -/

theorem attributeDecl_eq {a : Attribute} (ha : a.Writable) :
    attributeDecl (Writing.attributeHead a) (Writing.withDoc a.doc .closed) = .ok a := by
  have hget : ∀ {key value}, _ → (Writing.attributeHead a).get? key = value :=
    Head.get?_ofFields (by simp)
  have hfunction : (Writing.attributeHead a).get? "function" = a.function := hget (by simp)
  have hinit : (Writing.attributeHead a).get? "init" = a.init := hget (by simp)
  refine bind_eq_ok_iff.mpr ⟨a.required, flag_eq (hget (by simp)), ?_⟩
  refine bind_eq_ok_iff.mpr ⟨a.tag, attributeTag_eq ha.isAttribute ha.tag (hget (by simp)), ?_⟩
  refine bind_eq_ok_iff.mpr ⟨a.doc, attributeDoc_eq, ?_⟩
  rw [hfunction, hinit]

theorem choice_eq {c : Choice} :
    choice (Writing.choice c).1 (Writing.choice c).2 = .ok c := by
  have hget : ∀ {key value}, _ → (Writing.choice c).1.get? key = value :=
    Head.get?_ofFields (by simp)
  have hkey : (Writing.choice c).1.get? "key" = c.key := hget (by simp)
  have hschema : (Writing.choice c).1.get? "schema" = c.schema := hget (by simp)
  have hschemaUri : (Writing.choice c).1.get? "schema-uri" = c.schemaUri := hget (by simp)
  refine bind_eq_ok_iff.mpr ⟨c.value, require_eq (hget (by simp)), ?_⟩
  refine bind_eq_ok_iff.mpr ⟨c.hidden, flag_eq (hget (by simp)), ?_⟩
  refine bind_eq_ok_iff.mpr ⟨(), rfl, ?_⟩
  rw [hkey, hschema, hschemaUri]

theorem vocabulary_eq {v : VocabularyDecl} (hv : v.Writable) :
    vocabulary (Writing.vocabularyHead v) (Writing.elements Writing.choice v.choices) = .ok v := by
  have hget : ∀ {key value}, _ → (Writing.vocabularyHead v).get? key = value :=
    Head.get?_ofFields (by simp)
  refine bind_eq_ok_iff.mpr ⟨v.value.text, require_eq (hget (by simp)), ?_⟩
  refine bind_eq_ok_iff.mpr ⟨v.dictionary, require_eq (hget (by simp)), ?_⟩
  refine bind_eq_ok_iff.mpr ⟨v.value, tagValue_eq hv.value, ?_⟩
  refine bind_eq_ok_iff.mpr ⟨v.key, optionalPath_eq hv.key (hget (by simp)), ?_⟩
  refine bind_eq_ok_iff.mpr ⟨v.schema, optionalPath_eq hv.schema (hget (by simp)), ?_⟩
  refine bind_eq_ok_iff.mpr ⟨v.schemaUri, optionalPath_eq hv.schemaUri (hget (by simp)), ?_⟩
  exact bind_eq_ok_iff.mpr ⟨v.choices, mapNamed_elements (fun _ => rfl) fun _ _ => choice_eq, rfl⟩

/-- The start tag of an element says all of it but its documentation and its vocabulary. -/
theorem elementHead_eq {name : String} {e : ElementDecl} (he : e.Writable) :
    elementHead (Writing.elementHead name e) = .ok { e with doc := none, vocabulary := none } := by
  have hget : ∀ {key value}, _ → (Writing.elementHead name e).get? key = value :=
    Head.get?_ofFields (by simp)
  have hfunction : (Writing.elementHead name e).get? "function" = e.function := hget (by simp)
  have hinit : (Writing.elementHead name e).get? "init" = e.init := hget (by simp)
  have htemplate : (Writing.elementHead name e).get? "template" = e.template := hget (by simp)
  refine bind_eq_ok_iff.mpr ⟨e.required, flag_eq (hget (by simp)), ?_⟩
  refine bind_eq_ok_iff.mpr ⟨e.singular, flag_eq (hget (by simp)), ?_⟩
  refine bind_eq_ok_iff.mpr ⟨e.operator, operator_eq (hget (by simp)), ?_⟩
  refine bind_eq_ok_iff.mpr ⟨e.tag, elementTag_eq he.isElement he.tag (hget (by simp)), ?_⟩
  rw [hfunction, hinit, htemplate]

/-! ### Content -/

/-- The entries that some content is written as. -/
def entriesOf : Content → List Entry
  | .nil => []
  | .attr a rest => .attr a :: entriesOf rest
  | .ref kind name rest => .ref kind name :: entriesOf rest
  | .elem e below rest => .elem e below :: entriesOf rest

/-- The entries ahead of the content of an element. -/
def entriesAhead (e : ElementDecl) : List Entry :=
  e.doc.toList.map .doc ++ e.vocabulary.toList.map .vocabulary

theorem contentOf_entriesOf {c : Content} : Entry.contentOf (entriesOf c) = c := by
  induction c with
  | nil => rfl
  | attr a rest ih => rw [entriesOf, Entry.contentOf, ih]
  | ref kind name rest ih => rw [entriesOf, Entry.contentOf, ih]
  | elem e below rest _ ih => rw [entriesOf, Entry.contentOf, ih]

theorem contentOf_entriesAhead {e : ElementDecl} {es : List Entry} :
    Entry.contentOf (entriesAhead e ++ es) = Entry.contentOf es := by
  rw [entriesAhead]
  cases e.doc <;> cases e.vocabulary <;> rfl

theorem docOf_append_entriesOf {es : List Entry} {c : Content} :
    Entry.docOf (es ++ entriesOf c) = Entry.docOf es := by
  induction c with
  | nil => rw [entriesOf, List.append_nil]
  | _ => simp_all [entriesOf, Entry.docOf]

theorem vocabularyOf_append_entriesOf {es : List Entry} {c : Content} :
    Entry.vocabularyOf (es ++ entriesOf c) = Entry.vocabularyOf es := by
  induction c with
  | nil => rw [entriesOf, List.append_nil]
  | _ => simp_all [entriesOf, Entry.vocabularyOf]

theorem complete_entriesAhead {e : ElementDecl} {c : Content} :
    Entry.complete { e with doc := none, vocabulary := none } (entriesAhead e ++ entriesOf c) =
      e := by
  have hdoc : Entry.docOf (entriesAhead e) = e.doc := by
    rw [entriesAhead]
    cases e.doc <;> cases e.vocabulary <;> rfl
  have hvocabulary : Entry.vocabularyOf (entriesAhead e) = e.vocabulary := by
    rw [entriesAhead]
    cases e.doc <;> cases e.vocabulary <;> rfl
  rw [Entry.complete, docOf_append_entriesOf, vocabularyOf_append_entriesOf, hdoc, hvocabulary]

section

variable {parent : String} {inElement : Bool} {rest : Markup.Content} {es : List Entry}

theorem entries_cons {below : Markup.Content} {entry : Entry} (hname : h.name ≠ "elem")
    (hentry : simpleEntry parent inElement h below = .ok entry)
    (hrest : entries parent inElement rest = .ok es) :
    entries parent inElement (.element h below rest) = .ok (entry :: es) := by
  rw [entries, if_neg hname]
  exact bind_eq_ok_iff.mpr ⟨entry, hentry, bind_eq_ok_iff.mpr ⟨es, hrest, rfl⟩⟩

theorem entries_withDoc {doc : Option String} (hrest : entries parent true rest = .ok es) :
    entries parent true (Writing.withDoc doc rest) = .ok (doc.toList.map .doc ++ es) := by
  cases doc with
  | none => exact hrest
  | some s =>
    refine entries_cons (by decide) ?_ hrest
    rw [simpleEntry, if_neg (by decide), if_pos (by decide)]
    exact map_eq_ok_iff.mpr ⟨s, allText_eq, rfl⟩

theorem entries_withVocabulary {v : Option VocabularyDecl} (hv : ∀ w ∈ v, w.Writable)
    (hrest : entries parent true rest = .ok es) :
    entries parent true (Writing.withVocabulary v rest) =
      .ok (v.toList.map .vocabulary ++ es) := by
  cases v with
  | none => exact hrest
  | some v =>
    have hname : (Writing.vocabularyHead v).name = "opt-list" := rfl
    refine entries_cons (by rw [hname]; decide) ?_ hrest
    rw [simpleEntry, hname, if_neg (by decide), if_neg (by decide), if_pos (by decide)]
    exact map_eq_ok_iff.mpr ⟨v, vocabulary_eq (hv v rfl), rfl⟩

theorem entries_inside {e : ElementDecl} (he : e.Writable)
    (hrest : entries parent true rest = .ok es) :
    entries parent true (Writing.inside e rest) = .ok (entriesAhead e ++ es) := by
  rw [entriesAhead, List.append_assoc]
  exact entries_withDoc (entries_withVocabulary he.vocabulary hrest)

theorem reference_eq {kind : DefinitionKind} {name : String} :
    reference kind (.ofFields kind.name [("ref", some name)]) .closed = .ok (.ref kind name) :=
  bind_eq_ok_iff.mpr ⟨name, require_eq (Head.get?_ofFields (by simp) (by simp)), rfl⟩

/-- What is written of some content is read as its entries, wherever it stands. -/
theorem entries_content {c : Content} : ∀ {parent : String} {inElement : Bool}, c.Writable →
    entries parent inElement (Writing.content c) = .ok (entriesOf c) := by
  induction c with
  | nil => exact fun _ => rfl
  | attr a rest ih =>
    intro parent inElement hc
    have hname : (Writing.attributeHead a).name = "attr" := rfl
    refine entries_cons (by rw [hname]; decide) ?_ (ih hc.2)
    rw [simpleEntry, if_pos hname]
    exact map_eq_ok_iff.mpr ⟨a, attributeDecl_eq hc.1, rfl⟩
  | ref kind name rest ih =>
    intro parent inElement hc
    have hentry : simpleEntry parent inElement (.ofFields kind.name [("ref", some name)]) .closed =
        reference kind (.ofFields kind.name [("ref", some name)]) .closed := by
      cases kind with
      | template => exact absurd rfl hc.1
      | _ => cases inElement <;> rfl
    have hname : kind.name ≠ "elem" := by cases kind <;> decide
    exact entries_cons hname (hentry.trans reference_eq) (ih hc.2)
  | elem e below rest hbelow hrest =>
    intro parent inElement hc
    -- the start tag leaves out documentation and vocabulary, which the entries ahead put back
    have hname : (Writing.elementHead "elem" e).name = "elem" := rfl
    rw [Writing.content, entries, if_pos hname]
    refine bind_eq_ok_iff.mpr ⟨_, elementHead_eq hc.1, ?_⟩
    refine bind_eq_ok_iff.mpr ⟨_, entries_inside hc.1 (hbelow hc.2.1), ?_⟩
    refine bind_eq_ok_iff.mpr ⟨_, hrest hc.2.2, ?_⟩
    rw [complete_entriesAhead, contentOf_entriesAhead, contentOf_entriesOf]
    rfl

end

/-! ### Parts -/

theorem namespaceDecl_eq {n : Namespace} :
    namespaceDecl (Writing.namespaceDecl n).1 (Writing.namespaceDecl n).2 = .ok n := by
  have hget : ∀ {key value}, _ → (Writing.namespaceDecl n).1.get? key = value :=
    Head.get?_ofFields (by simp)
  refine bind_eq_ok_iff.mpr ⟨n.qualifier, require_eq (hget (by simp)), ?_⟩
  exact bind_eq_ok_iff.mpr ⟨n.uri, require_eq (hget (by simp)), rfl⟩

theorem fieldMarker_eq {m : FieldMarker} (hm : m.path.Rereads) :
    fieldMarker (Writing.fieldMarker m).1 (Writing.fieldMarker m).2 = .ok m := by
  have hget : ∀ {key value}, _ → (Writing.fieldMarker m).1.get? key = value :=
    Head.get?_ofFields (by simp)
  have hkind : (Writing.fieldMarker m).1.get? "type" = m.kind := hget (by simp)
  refine bind_eq_ok_iff.mpr ⟨m.name, require_eq (hget (by simp)), ?_⟩
  refine bind_eq_ok_iff.mpr ⟨m.path, requirePath_eq hm (hget (by simp)), ?_⟩
  refine bind_eq_ok_iff.mpr ⟨(), rfl, ?_⟩
  rw [hkind]

theorem assertion_eq {a : Assertion} (ha : a.Writable) :
    assertion (Writing.assertion a).1 (Writing.assertion a).2 = .ok a := by
  have hget : (Writing.assertion a).1.get? "path" = some a.path.text :=
    Head.get?_ofFields (by simp) (by simp)
  refine bind_eq_ok_iff.mpr ⟨a.path, requirePath_eq ha.path hget, ?_⟩
  exact bind_eq_ok_iff.mpr ⟨a.condition, allText_eq, rfl⟩

theorem definition_eq {d : Definition} (hd : d.content.Writable) :
    definition d.kind (.ofFields d.kind.name [("name", some d.name)])
      (Writing.content d.content) = .ok d := by
  refine bind_eq_ok_iff.mpr ⟨d.name, require_eq (Head.get?_ofFields (by simp) (by simp)), ?_⟩
  refine bind_eq_ok_iff.mpr ⟨_, entries_content hd, ?_⟩
  rw [contentOf_entriesOf]

theorem rootElement_eq {e : ElementDecl} {c : Content} (he : e.Writable) (hc : c.Writable) :
    rootElement (Writing.elementHead "root" e) (Writing.inside e (Writing.content c)) =
      .ok (.root e c) := by
  refine bind_eq_ok_iff.mpr ⟨_, elementHead_eq he, ?_⟩
  refine bind_eq_ok_iff.mpr ⟨_, entries_inside he (entries_content hc), ?_⟩
  rw [complete_entriesAhead, contentOf_entriesAhead, contentOf_entriesOf]

theorem part_eq {s : Section} (hs : s.Writable) :
    part (Writing.part s).1 (Writing.part s).2 = .ok s := by
  cases s with
  | namespaces ns =>
    exact map_eq_ok_iff.mpr ⟨ns, mapNamed_elements (fun _ => rfl) fun _ _ => namespaceDecl_eq, rfl⟩
  | definition d =>
    obtain ⟨kind, name, content⟩ := d
    cases kind <;> exact map_eq_ok_iff.mpr ⟨_, definition_eq hs, rfl⟩
  | root e c => exact rootElement_eq hs.1 hs.2
  | fieldMarkers ms =>
    exact map_eq_ok_iff.mpr
      ⟨ms, mapNamed_elements (fun _ => rfl) fun m hm => fieldMarker_eq (hs m hm), rfl⟩
  | assertions as =>
    exact map_eq_ok_iff.mpr
      ⟨as, mapNamed_elements (fun _ => rfl) fun a ha => assertion_eq (hs a ha), rfl⟩

theorem rootOf_parts {d : Declaration} :
    Section.rootOf (Writing.parts d) = some (d.root, d.content) := by
  simp [Section.rootOf, Writing.parts, List.filterMap_append, List.filterMap_map]

theorem definitionsOf_parts {d : Declaration} :
    Section.definitionsOf (Writing.parts d) = d.definitions := by
  simp only [Section.definitionsOf, Writing.parts, List.cons_append, List.filterMap_cons,
    List.filterMap_append, List.filterMap_map, List.filterMap_nil, List.append_nil]
  exact List.filterMap_some ..

theorem namespacesOf_parts {d : Declaration} :
    Section.namespacesOf (Writing.parts d) = d.namespaces := by
  simp [Section.namespacesOf, Writing.parts, List.flatMap_map]

theorem fieldMarkersOf_parts {d : Declaration} :
    Section.fieldMarkersOf (Writing.parts d) = d.fieldMarkers := by
  simp [Section.fieldMarkersOf, Writing.parts, List.flatMap_map]

theorem assertionsOf_parts {d : Declaration} :
    Section.assertionsOf (Writing.parts d) = d.assertions := by
  simp [Section.assertionsOf, Writing.parts, List.flatMap_map]

/-- What is written of a record definition is read as the record definition. -/
theorem document_document {d : Declaration} (hd : d.Writable) : document d.document = .ok d := by
  have hname : (Writing.head d).name = "record-definition" := rfl
  have hget : ∀ {key value}, _ → (Writing.head d).get? key = value :=
    Head.get?_ofFields (by simp)
  have hversion : (Writing.head d).get? "version" = some d.version := hget (by simp)
  have hparts := mapElements_elements fun s hs => part_eq (Section.writable_of_mem_parts hd s hs)
  rw [Declaration.document, document, if_pos hname]
  refine bind_eq_ok_iff.mpr ⟨d.qualifier, require_eq (hget (by simp)), ?_⟩
  refine bind_eq_ok_iff.mpr ⟨Writing.parts d, hparts, ?_⟩
  rw [rootOf_parts, definitionsOf_parts, namespacesOf_parts, fieldMarkersOf_parts,
    assertionsOf_parts, hversion]
  rfl

end Reading

/-- A title with documentation. -/
def demoTitle : ElementDecl where
  tag := .elem (some "dc") "title"
  singular := true
  operator := some .first
  doc := some "Main title"

/-- A role with a vocabulary. -/
def demoRole : ElementDecl where
  tag := .elem none "role"
  vocabulary := some
    { dictionary := "roles"
      value := .elem none "role"
      key := some ⟨[.attr none "code"]⟩
      choices := [{ key := some "aut", value := "Author" }, { value := "Other", hidden := true }] }

/-- A record of a title and of creators with their roles. -/
def demoDeclaration : Declaration where
  qualifier := "demo"
  version := "1.0.0"
  namespaces := [⟨"dc", "urn:dc"⟩]
  definitions := [⟨.attributeGroup, "lang", .attr { tag := .attr (some "xml") "lang" } .nil⟩]
  root := { tag := .elem none "record" }
  content :=
    .elem demoTitle (.ref .attributeGroup "lang" .nil)
      (.elem { tag := .elem none "creator" } (.elem demoRole .nil .nil) .nil)
  fieldMarkers := [⟨"TITLE", none, ⟨[.elem none "record", .elem (some "dc") "title"]⟩⟩]
  assertions := [⟨⟨[.elem none "record", .elem (some "dc") "title"]⟩, "it.size() > 0"⟩]

theorem demoTitle_writable : demoTitle.Writable where
  isElement := rfl
  tag := by with_unfolding_all rfl
  doc := by
    rintro _ ⟨⟩
    exact ⟨by decide, rfl, rfl⟩
  vocabulary := nofun

theorem demoRole_writable : demoRole.Writable where
  isElement := rfl
  tag := by with_unfolding_all rfl
  doc := nofun
  vocabulary := by
    rintro _ ⟨⟩
    refine ⟨by with_unfolding_all rfl, ?_, nofun, nofun⟩
    rintro _ ⟨⟩
    with_unfolding_all rfl

theorem demoDeclaration_writable : demoDeclaration.Writable where
  definitions :=
    List.forall_mem_singleton.mpr ⟨⟨rfl, by with_unfolding_all rfl, nofun⟩, trivial⟩
  root := ⟨rfl, by with_unfolding_all rfl, nofun, nofun⟩
  content :=
    ⟨demoTitle_writable, ⟨nofun, trivial⟩, ⟨rfl, by with_unfolding_all rfl, nofun, nofun⟩,
      ⟨demoRole_writable, trivial, trivial⟩, trivial⟩
  fieldMarkers := List.forall_mem_singleton.mpr (by with_unfolding_all rfl)
  assertions := List.forall_mem_singleton.mpr
    ⟨by with_unfolding_all rfl, by decide, rfl, rfl⟩

end Crosswalk
