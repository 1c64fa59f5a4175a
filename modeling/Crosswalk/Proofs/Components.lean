import Crosswalk.Proofs.Truncation
import Mathlib.Data.List.Basic
import Mathlib.Data.List.Perm.Subperm

/-!
What a record definition keeps of its document. Every element of a document says something of its
own, within what the elements around it say, and everything that is said has its place in the record
definition that is read. But there is one place for the root element, one for the documentation of an
attribute or an element, and one for the vocabulary of an element: of several only the last is kept.
So nothing is lost exactly if there is one root element, and no element has a documentation or a
vocabulary twice.
-/

namespace Crosswalk

/-! ### What a record definition says -/

/-- Something that a single element says, whatever is in it. -/
inductive Component where
  | targetNamespace (n : Namespace)
  | definition (kind : DefinitionKind) (name : String)
  | root (e : ElementDecl)
  | fieldMarker (m : FieldMarker)
  | assertion (a : Assertion)
  | attr (a : Attribute)
  | elem (e : ElementDecl)
  | reference (kind : DefinitionKind) (name : String)
  | vocabulary (v : VocabularyDecl)
  | choice (c : Choice)
  | doc (text : String)
  deriving DecidableEq, Repr

/-- A component with those around it, innermost first. -/
abbrev Placed := List Component

/-- A documentation within what is documented. -/
def docComponents (around : Placed) (text : String) : List Placed := [.doc text :: around]

theorem docComponents_ne_nil {around : Placed} (text : String) : docComponents around text ≠ [] :=
  List.cons_ne_nil _ _

def Attribute.components (around : Placed) (a : Attribute) : List Placed :=
  let own := .attr { a with doc := none } :: around
  own :: a.doc.toList.flatMap (docComponents own)

def VocabularyDecl.components (around : Placed) (v : VocabularyDecl) : List Placed :=
  let own := .vocabulary { v with choices := [] } :: around
  own :: v.choices.map fun c => .choice c :: own

theorem VocabularyDecl.components_ne_nil {around : Placed} (v : VocabularyDecl) :
    v.components around ≠ [] :=
  List.cons_ne_nil _ _

namespace ElementDecl

/-- An element without its documentation and its vocabulary, which elements of their own give. -/
def bare (e : ElementDecl) : ElementDecl := { e with doc := none, vocabulary := none }

/-- What is within an element apart from its content. -/
def notes (around : Placed) (e : ElementDecl) : List Placed :=
  e.doc.toList.flatMap (docComponents around) ++
    e.vocabulary.toList.flatMap (VocabularyDecl.components around)

end ElementDecl

def Content.components (around : Placed) : Content → List Placed
  | .nil => []
  | .attr a rest => a.components around ++ components around rest
  | .ref kind name rest => (.reference kind name :: around) :: components around rest
  | .elem e below rest =>
    let own := .elem e.bare :: around
    (own :: (e.notes own ++ components own below)) ++ components around rest

def Definition.components (d : Definition) : List Placed :=
  let own := [.definition d.kind d.name]
  own :: d.content.components own

/-- The components of a root element and its content. -/
def rootComponents (root : ElementDecl × Content) : List Placed :=
  let own := [.root root.1.bare]
  own :: (root.1.notes own ++ root.2.components own)

theorem rootComponents_ne_nil (root : ElementDecl × Content) : rootComponents root ≠ [] :=
  List.cons_ne_nil _ _

/-- Everything that a record definition says. -/
def Declaration.components (d : Declaration) : List Placed :=
  (d.namespaces.map fun n => [.targetNamespace n]) ++
    d.definitions.flatMap Definition.components ++
    rootComponents (d.root, d.content) ++
    (d.fieldMarkers.map fun m => [.fieldMarker m]) ++
    d.assertions.map fun a => [.assertion a]

/-! ### What a document says -/

namespace Reading

open Markup (Head)

/-- Whether an element only holds others together. -/
def isWrapper (name : String) : Bool :=
  name == "namespaces" || name == "field-markers" || name == "assertions"

/-- What an element says on its own: what is read where there is nothing in it, apart from the text
of a documentation and of an assertion. Groups are definitions directly within the document element,
and references elsewhere. -/
def component (isPart : Bool) (h : Head) (below : Markup.Content) :
    Except SchemaError Component :=
  match h.name with
  | "namespace" => .targetNamespace <$> namespaceDecl h .closed
  | "template" => .definition .template <$> require h "name"
  | "root" => .root <$> elementHead h
  | "field-marker" => .fieldMarker <$> fieldMarker h .closed
  | "assert" => .assertion <$> assertion h below
  | "attr" => .attr <$> attributeDecl h .closed
  | "elem" => .elem <$> elementHead h
  | "opt-list" => .vocabulary <$> vocabulary h .closed
  | "opt" => .choice <$> choice h .closed
  | "doc" => .doc <$> allText "doc" below
  | name =>
    match groupKind? name with
    | some kind =>
      if isPart then .definition kind <$> require h "name" else .reference kind <$> require h "ref"
    | none => .error (unexpected "record-definition" h)

/-- What the elements of some content say, those within them included, in document order. -/
def components (around : Placed) : Markup.Content → Except SchemaError (List Placed)
  | .closed => .ok []
  | .cut fault => .error (faultError fault)
  | .text _ rest => components around rest
  | .element h below rest =>
    if around.isEmpty && isWrapper h.name then do
      let inner ← components around below
      let others ← components around rest
      .ok (inner ++ others)
    else do
      let c ← component around.isEmpty h below
      let inner ← components (c :: around) below
      let others ← components around rest
      .ok ((c :: around) :: inner ++ others)

end Reading

namespace Markup.Content

/-- The number of elements of a name directly in some content. -/
def countNamed (name : String) : Content → Nat
  | .closed | .cut _ => 0
  | .text _ rest => countNamed name rest
  | .element h _ rest => countNamed name rest + if h.name = name then 1 else 0

/-- Whether no element of some content, at any depth, has two documentations or two
vocabularies. -/
def SaysOnce : Content → Prop
  | .closed | .cut _ => True
  | .text _ rest => SaysOnce rest
  | .element _ below rest =>
    (countNamed "doc" below ≤ 1 ∧ countNamed "opt-list" below ≤ 1 ∧ SaysOnce below) ∧ SaysOnce rest

/-- The same of an element with some content. -/
def Once (below : Content) : Prop :=
  countNamed "doc" below ≤ 1 ∧ countNamed "opt-list" below ≤ 1 ∧ SaysOnce below

/-- Whether the document element with some content says everything once that there is one place
for. -/
structure Unrepeated (below : Content) : Prop where
  root : countNamed "root" below = 1
  notes : SaysOnce below

instance decidableSaysOnce : (c : Content) → Decidable (SaysOnce c)
  | .closed | .cut _ => .isTrue trivial
  | .text _ rest => decidableSaysOnce rest
  | .element _ below rest =>
    have := decidableSaysOnce below
    have := decidableSaysOnce rest
    inferInstanceAs (Decidable ((_ ∧ _ ∧ _) ∧ _))

instance decidableUnrepeated (below : Content) : Decidable (Unrepeated below) :=
  decidable_of_iff (countNamed "root" below = 1 ∧ SaysOnce below)
    ⟨fun h => ⟨h.1, h.2⟩, fun h => ⟨h.root, h.notes⟩⟩

end Markup.Content

namespace Reading

open Markup (Head)
open Markup.Content (countNamed SaysOnce Once)

variable {around : Placed} {c below rest : Markup.Content} {h : Head} {kept others : List Placed}
  {P Q : Prop}

/-! ### Keeping -/

/-- Whether of what some content says at least `kept` is kept, and all of it exactly if `P`. -/
def Keeps (around : Placed) (c : Markup.Content) (kept : List Placed) (P : Prop) : Prop :=
  ∃ said lost, components around c = .ok said ∧ said.Perm (kept ++ lost) ∧ (lost = [] ↔ P)

namespace Keeps

theorem closed : Keeps around .closed [] True :=
  ⟨[], [], rfl, .nil, iff_of_true rfl trivial⟩

theorem congr (h : Keeps around c kept P) (hiff : P ↔ Q) : Keeps around c kept Q := by
  obtain ⟨said, lost, hsaid, hperm, hlost⟩ := h
  exact ⟨said, lost, hsaid, hperm, hlost.trans hiff⟩

/-- Some of what has been kept may be let go. -/
theorem release (h : Keeps around c kept P) {less more : List Placed}
    (hperm : kept.Perm (less ++ more)) (hmore : more = [] ↔ Q) : Keeps around c less (P ∧ Q) := by
  obtain ⟨said, lost, hsaid, hsplit, hlost⟩ := h
  refine ⟨said, more ++ lost, hsaid, ?_, ?_⟩
  · rw [← List.append_assoc]
    exact hsplit.trans (hperm.append_right lost)
  · rw [List.append_eq_nil_iff, hmore, hlost, and_comm]

/-- What is kept of an element and of what follows it is kept of both. -/
theorem append (hfirst : Keeps around (.element h below .closed) kept P)
    (hrest : Keeps around rest others Q) :
    Keeps around (.element h below rest) (kept ++ others) (P ∧ Q) := by
  obtain ⟨said, lost, hsaid, hperm, hlost⟩ := hfirst
  obtain ⟨said', lost', hsaid', hperm', hlost'⟩ := hrest
  have hboth : components around (.element h below rest) = .ok (said ++ said') := by
    rw [components] at hsaid ⊢
    split at hsaid
    · next hwrapper =>
      obtain ⟨inner, hinner, hsaid⟩ := bind_eq_ok_iff.mp hsaid
      cases hsaid
      rw [if_pos hwrapper, hinner, hsaid', List.append_nil]
      rfl
    · next hwrapper =>
      obtain ⟨c, hc, hsaid⟩ := bind_eq_ok_iff.mp hsaid
      obtain ⟨inner, hinner, hsaid⟩ := bind_eq_ok_iff.mp hsaid
      cases hsaid
      rw [if_neg hwrapper, hc]
      refine bind_eq_ok_iff.mpr ⟨_, rfl, bind_eq_ok_iff.mpr ⟨_, hinner, ?_⟩⟩
      rw [hsaid', List.append_nil]
      rfl
  refine ⟨_, lost ++ lost', hboth, ?_, ?_⟩
  · refine (hperm.append hperm').trans ?_
    rw [List.append_assoc, List.append_assoc]
    refine .append_left kept ?_
    rw [← List.append_assoc, ← List.append_assoc]
    exact List.perm_append_comm.append_right lost'
  · rw [List.append_eq_nil_iff, hlost, hlost']

theorem element {own : Component} {inner : List Placed}
    (hwrapper : (around.isEmpty && isWrapper h.name) = false)
    (hown : component around.isEmpty h below = .ok own)
    (hinner : Keeps (own :: around) below inner P) :
    Keeps around (.element h below .closed) ((own :: around) :: inner) P := by
  obtain ⟨said, lost, hsaid, hperm, hlost⟩ := hinner
  refine ⟨(own :: around) :: said ++ [], lost, ?_, ?_, hlost⟩
  · rw [components, hwrapper, if_neg Bool.false_ne_true, hown]
    refine bind_eq_ok_iff.mpr ⟨_, rfl, bind_eq_ok_iff.mpr ⟨_, hsaid, rfl⟩⟩
  · rw [List.append_nil]
    exact hperm.cons _

theorem wrapper (hwrapper : isWrapper h.name = true) (hinner : Keeps [] below kept P) :
    Keeps [] (.element h below .closed) kept P := by
  obtain ⟨said, lost, hsaid, hperm, hlost⟩ := hinner
  have htop : (List.isEmpty ([] : Placed) && isWrapper h.name) = true := by
    rw [hwrapper]
    rfl
  refine ⟨said ++ [], lost, ?_, ?_, hlost⟩
  · rw [components, if_pos htop, hsaid]
    rfl
  · rwa [List.append_nil]

end Keeps

/-! ### Elements with nothing in them -/

theorem noElements_of_allText {parent text : String} (hc : allText parent c = .ok text) :
    noElements parent c = .ok () := by
  induction c generalizing text with
  | closed => rfl
  | cut fault => cases hc
  | text s rest ih =>
    obtain ⟨others, hothers, -⟩ := map_eq_ok_iff.mp hc
    exact ih hothers
  | element => cases hc

theorem countNamed_of_noElements {parent name : String} (hc : noElements parent c = .ok ()) :
    countNamed name c = 0 := by
  induction c with
  | closed => rfl
  | cut fault => cases hc
  | text s rest ih => exact ih hc
  | element => cases hc

theorem keeps_noElements {parent : String} (hc : noElements parent c = .ok ()) :
    Keeps around c [] c.Once := by
  have hsaid : components around c = .ok [] ∧ SaysOnce c := by
    induction c with
    | closed => exact ⟨rfl, trivial⟩
    | cut fault => cases hc
    | text s rest ih => exact ih hc
    | element => cases hc
  have honce : c.Once := by
    rw [Once, countNamed_of_noElements hc, countNamed_of_noElements hc]
    exact ⟨Nat.zero_le 1, Nat.zero_le 1, hsaid.2⟩
  exact ⟨[], [], hsaid.1, .nil, iff_of_true rfl honce⟩

/-! ### Elements in a row -/

section Rows

variable {α : Type} {f : Head → Markup.Content → Except SchemaError α} {as : List α}

theorem keeps_mapElements {g : α → List Placed}
    (hf : ∀ h below a, f h below = .ok a → Keeps around (.element h below .closed) (g a) below.Once)
    (hc : mapElements f c = .ok as) : Keeps around c (as.flatMap g) c.SaysOnce := by
  induction c generalizing as with
  | closed =>
    cases hc
    exact .closed
  | cut fault => cases hc
  | text s rest ih => exact ih hc
  | element h below rest _ ih =>
    obtain ⟨a, ha, hc⟩ := bind_eq_ok_iff.mp hc
    obtain ⟨others, hothers, hc⟩ := bind_eq_ok_iff.mp hc
    cases hc
    exact (hf h below a ha).append (ih hothers)

theorem countNamed_of_mapElements {name : String} {p : α → Bool}
    (hf : ∀ h below a, f h below = .ok a → (p a = true ↔ h.name = name))
    (hc : mapElements f c = .ok as) : countNamed name c = as.countP p := by
  induction c generalizing as with
  | closed =>
    cases hc
    rfl
  | cut fault => cases hc
  | text s rest ih => exact ih hc
  | element h below rest _ ih =>
    obtain ⟨a, ha, hc⟩ := bind_eq_ok_iff.mp hc
    obtain ⟨others, hothers, hc⟩ := bind_eq_ok_iff.mp hc
    cases hc
    simp only [countNamed, List.countP_cons, ih hothers, hf h below a ha]

variable {parent name : String}

theorem mapNamed_eq_ok {a : α}
    (ha : (if h.name = name then f h below else .error (unexpected parent h)) = .ok a) :
    h.name = name ∧ f h below = .ok a := by
  split at ha
  · next hname => exact ⟨hname, ha⟩
  · cases ha

theorem keeps_mapNamed {g : α → List Placed}
    (hf : ∀ h below a, h.name = name → f h below = .ok a →
      Keeps around (.element h below .closed) (g a) below.Once)
    (hc : mapNamed parent name f c = .ok as) : Keeps around c (as.flatMap g) c.SaysOnce := by
  refine keeps_mapElements (fun h below a ha => ?_) hc
  obtain ⟨hname, ha⟩ := mapNamed_eq_ok ha
  exact hf h below a hname ha

theorem countNamed_of_mapNamed {other : String} (hc : mapNamed parent name f c = .ok as) :
    countNamed other c = if name = other then as.length else 0 := by
  rw [countNamed_of_mapElements (p := fun _ => name = other) (fun h below a ha => ?_) hc]
  · split
    · next heq => simp [heq]
    · next hne => simp [hne]
  · rw [(mapNamed_eq_ok ha).1, decide_eq_true_iff]

end Rows

/-! ### The last of several -/

section Last

variable {α : Type} {g : α → List Placed} {as : List α}

/-- What comes of a list comes of its last entry and of those before. -/
theorem perm_last (g : α → List Placed) (as : List α) :
    (as.flatMap g).Perm (as.getLast?.toList.flatMap g ++ as.dropLast.flatMap g) := by
  rcases List.eq_nil_or_concat as with rfl | ⟨init, a, rfl⟩
  · exact .nil
  · rw [List.concat_eq_append, List.getLast?_concat, List.dropLast_concat, List.flatMap_append]
    exact List.perm_append_comm.trans (.of_eq (by simp))

theorem flatMap_dropLast_eq_nil_iff (hg : ∀ a, g a ≠ []) :
    as.dropLast.flatMap g = [] ↔ as.length ≤ 1 := by
  have hlength := as.length_dropLast
  rw [List.flatMap_eq_nil_iff]
  constructor
  · intro h
    have hnil := List.eq_nil_iff_forall_not_mem.mpr fun a ha => hg a (h a ha)
    rw [hnil, List.length_nil] at hlength
    omega
  · intro h
    have hnil : as.dropLast = [] := List.eq_nil_of_length_eq_zero (by omega)
    rw [hnil]
    nofun

end Last

/-! ### Attributes, documentations and vocabularies -/

theorem name_of_groupKind? {name : String} {kind : DefinitionKind}
    (hkind : groupKind? name = some kind) : name = kind.name := by
  rw [groupKind?.eq_def] at hkind
  split at hkind
  · cases hkind
    rfl
  · cases hkind
    rfl
  · cases hkind

theorem component_reference {kind : DefinitionKind} (hkind : groupKind? h.name = some kind) :
    component false h below = .reference kind <$> require h "ref" := by
  have hname := name_of_groupKind? hkind
  cases kind with
  | template =>
    rw [hname] at hkind
    cases hkind
  | attributeGroup | elementGroup =>
    simp only [DefinitionKind.name] at hname
    simp only [component, hname]
    rfl

theorem component_definition {kind : DefinitionKind} (hname : h.name = kind.name) :
    component true h below = .definition kind <$> require h "name" := by
  cases kind with
  | template =>
    simp only [DefinitionKind.name] at hname
    simp only [component, hname]
  | attributeGroup | elementGroup =>
    simp only [DefinitionKind.name] at hname
    simp only [component, hname]
    rfl

theorem not_wrapper {name : String} (hname : h.name = name) (hplain : isWrapper name = false) :
    (around.isEmpty && isWrapper h.name) = false := by
  rw [hname, hplain, Bool.and_false]

theorem keeps_doc {text : String} (hname : h.name = "doc") (hdoc : allText "doc" below = .ok text) :
    Keeps around (.element h below .closed) (docComponents around text) below.Once := by
  have hown : component around.isEmpty h below = .ok (.doc text) := by
    simp only [component, hname, hdoc]
    rfl
  exact .element (not_wrapper hname (by decide)) hown
    (keeps_noElements (noElements_of_allText hdoc))

theorem keeps_attributeDecl {a : Attribute} (hname : h.name = "attr")
    (ha : attributeDecl h below = .ok a) :
    Keeps around (.element h below .closed) (a.components around) below.Once := by
  obtain ⟨required, hrequired, ha⟩ := bind_eq_ok_iff.mp ha
  obtain ⟨tag, htag, ha⟩ := bind_eq_ok_iff.mp ha
  obtain ⟨doc, hdoc, ha⟩ := bind_eq_ok_iff.mp ha
  obtain ⟨docs, hdocs, hdoc⟩ := bind_eq_ok_iff.mp hdoc
  cases hdoc
  cases ha
  have hown : component around.isEmpty h below = .ok (.attr
      { tag, required, function := h.get? "function", init := h.get? "init", doc := none }) := by
    simp only [component, hname, attributeDecl, hrequired, htag]
    rfl
  refine .element (not_wrapper hname (by decide)) hown ?_
  refine ((keeps_mapNamed (fun _ _ _ => keeps_doc) hdocs).release (perm_last _ docs)
    (flatMap_dropLast_eq_nil_iff docComponents_ne_nil)).congr ?_
  simp [Once, countNamed_of_mapNamed hdocs, and_comm]

theorem keeps_choice {o : Choice} (hname : h.name = "opt") (ho : choice h below = .ok o) :
    Keeps around (.element h below .closed) [.choice o :: around] below.Once := by
  obtain ⟨value, hvalue, ho⟩ := bind_eq_ok_iff.mp ho
  obtain ⟨hidden, hhidden, ho⟩ := bind_eq_ok_iff.mp ho
  obtain ⟨_, hnone, ho⟩ := bind_eq_ok_iff.mp ho
  have hown : component around.isEmpty h below = .ok (.choice o) := by
    simp only [component, hname, choice, hvalue, hhidden]
    exact congrArg (Component.choice <$> ·) ho
  exact .element (not_wrapper hname (by decide)) hown (keeps_noElements hnone)

theorem keeps_vocabulary {v : VocabularyDecl} (hname : h.name = "opt-list")
    (hv : vocabulary h below = .ok v) :
    Keeps around (.element h below .closed) (v.components around) below.Once := by
  obtain ⟨valueText, hvalueText, hv⟩ := bind_eq_ok_iff.mp hv
  obtain ⟨dictionary, hdictionary, hv⟩ := bind_eq_ok_iff.mp hv
  obtain ⟨value, hvalue, hv⟩ := bind_eq_ok_iff.mp hv
  obtain ⟨key, hkey, hv⟩ := bind_eq_ok_iff.mp hv
  obtain ⟨schema, hschema, hv⟩ := bind_eq_ok_iff.mp hv
  obtain ⟨schemaUri, hschemaUri, hv⟩ := bind_eq_ok_iff.mp hv
  obtain ⟨choices, hchoices, hv⟩ := bind_eq_ok_iff.mp hv
  cases hv
  have hown : component around.isEmpty h below = .ok (.vocabulary
      { dictionary, value, key, schema, schemaUri, choices := [] }) := by
    simp only [component, hname, vocabulary, hvalueText, hdictionary, bind, Except.bind, hvalue,
      hkey, hschema, hschemaUri]
    rfl
  refine .element (not_wrapper hname (by decide)) hown ?_
  rw [List.map_eq_flatMap]
  refine (keeps_mapNamed (fun _ _ _ => keeps_choice) hchoices).congr ?_
  simp [Once, countNamed_of_mapNamed hchoices]

/-! ### Entries -/

namespace Entry

def doc? : Entry → Option String
  | doc text => some text
  | _ => none

def vocabulary? : Entry → Option VocabularyDecl
  | vocabulary v => some v
  | _ => none

/-- The name of the element that an entry is read from. -/
def elementName : Entry → String
  | doc _ => "doc"
  | vocabulary _ => "opt-list"
  | attr _ => "attr"
  | ref kind _ => kind.name
  | elem _ _ => "elem"

theorem isSome_doc? {entry : Entry} : entry.doc?.isSome = true ↔ entry.elementName = "doc" := by
  cases entry with
  | doc | vocabulary | attr | elem => simp [doc?, elementName]
  | ref kind => cases kind <;> simp [doc?, elementName, DefinitionKind.name]

theorem isSome_vocabulary? {entry : Entry} :
    entry.vocabulary?.isSome = true ↔ entry.elementName = "opt-list" := by
  cases entry with
  | doc | vocabulary | attr | elem => simp [vocabulary?, elementName]
  | ref kind => cases kind <;> simp [vocabulary?, elementName, DefinitionKind.name]

/-- The components of an entry, each of several documentations and vocabularies included. -/
def components (around : Placed) : Entry → List Placed
  | doc text => docComponents around text
  | vocabulary v => v.components around
  | attr a => a.components around
  | ref kind name => [.reference kind name :: around]
  | elem e below =>
    let own := .elem e.bare :: around
    own :: (e.notes own ++ below.components own)

/-- Documentations and vocabularies are parted from the content that is around them. -/
theorem perm_components (around : Placed) (es : List Entry) :
    (es.flatMap (components around)).Perm ((contentOf es).components around ++
      ((es.filterMap doc?).flatMap (docComponents around) ++
        (es.filterMap vocabulary?).flatMap (VocabularyDecl.components around))) := by
  induction es with
  | nil => exact .nil
  | cons entry es ih =>
    rw [List.perm_iff_count] at ih ⊢
    intro x
    have ih := ih x
    cases entry with
    | doc | vocabulary | attr | ref | elem =>
      simp only [List.flatMap_cons, components, contentOf, Content.components, doc?, vocabulary?,
        List.filterMap_cons, List.count_append, List.count_cons, List.count_nil] at ih ⊢
      omega

/-- The last documentation and the last vocabulary among some entries: the notes of the element that
they complete. -/
def lastNotes (around : Placed) (es : List Entry) : List Placed :=
  (es.filterMap doc?).getLast?.toList.flatMap (docComponents around) ++
    (es.filterMap vocabulary?).getLast?.toList.flatMap (VocabularyDecl.components around)

end Entry

/-- What an element may be read as. -/
inductive ReadAs (inElement : Bool) (h : Head) (below : Markup.Content) : Entry → Prop where
  | doc (hin : inElement = true) (hname : h.name = "doc") {text : String}
      (htext : allText "doc" below = .ok text) : ReadAs inElement h below (.doc text)
  | vocabulary (hin : inElement = true) (hname : h.name = "opt-list") {v : VocabularyDecl}
      (hv : Reading.vocabulary h below = .ok v) : ReadAs inElement h below (.vocabulary v)
  | attr (hname : h.name = "attr") {a : Attribute} (ha : attributeDecl h below = .ok a) :
      ReadAs inElement h below (.attr a)
  | ref {kind : DefinitionKind} (hkind : groupKind? h.name = some kind) {name : String}
      (hname : require h "ref" = .ok name) (hnone : noElements h.name below = .ok ()) :
      ReadAs inElement h below (.ref kind name)
  | elem (hname : h.name = "elem") {e : ElementDecl} (he : elementHead h = .ok e)
      {inner : List Entry} (hinner : entries h.name true below = .ok inner) :
      ReadAs inElement h below (.elem (Entry.complete e inner) (Entry.contentOf inner))

variable {parent : String} {inElement : Bool} {es : List Entry} {entry : Entry}

theorem readAs_of_simpleEntry (hentry : simpleEntry parent inElement h below = .ok entry) :
    ReadAs inElement h below entry := by
  rw [simpleEntry] at hentry
  split at hentry
  · next hname =>
    obtain ⟨a, ha, rfl⟩ := map_eq_ok_iff.mp hentry
    exact .attr hname ha
  split at hentry
  · next hname =>
    obtain ⟨hin, hname⟩ := Bool.and_eq_true_iff.mp hname
    obtain ⟨text, htext, rfl⟩ := map_eq_ok_iff.mp hentry
    exact .doc hin (beq_iff_eq.mp hname) htext
  split at hentry
  · next hname =>
    obtain ⟨hin, hname⟩ := Bool.and_eq_true_iff.mp hname
    obtain ⟨v, hv, rfl⟩ := map_eq_ok_iff.mp hentry
    exact .vocabulary hin (beq_iff_eq.mp hname) hv
  split at hentry
  · next kind hkind =>
    obtain ⟨name, hname, hentry⟩ := bind_eq_ok_iff.mp hentry
    obtain ⟨_, hnone, hentry⟩ := bind_eq_ok_iff.mp hentry
    cases hentry
    exact .ref hkind hname hnone
  · cases hentry

theorem entries_element (hc : entries parent inElement (.element h below rest) = .ok es) :
    ∃ entry others, ReadAs inElement h below entry ∧
      entries parent inElement rest = .ok others ∧ es = entry :: others := by
  rw [entries] at hc
  split at hc
  · next hname =>
    obtain ⟨e, he, hc⟩ := bind_eq_ok_iff.mp hc
    obtain ⟨inner, hinner, hc⟩ := bind_eq_ok_iff.mp hc
    obtain ⟨others, hothers, hc⟩ := bind_eq_ok_iff.mp hc
    cases hc
    exact ⟨_, others, .elem hname he hinner, hothers, rfl⟩
  · next hname =>
    obtain ⟨entry, hentry, hc⟩ := bind_eq_ok_iff.mp hc
    obtain ⟨others, hothers, hc⟩ := bind_eq_ok_iff.mp hc
    cases hc
    exact ⟨entry, others, readAs_of_simpleEntry hentry, hothers, rfl⟩

theorem ReadAs.name (hentry : ReadAs inElement h below entry) : h.name = entry.elementName := by
  cases hentry with
  | doc _ hname | vocabulary _ hname | attr hname | elem hname => exact hname
  | ref hkind => exact name_of_groupKind? hkind

theorem countNamed_of_entries {name : String} (hc : entries parent inElement c = .ok es) :
    countNamed name c = es.countP fun entry => entry.elementName = name := by
  induction c generalizing es with
  | closed =>
    cases hc
    rfl
  | cut fault => cases hc
  | text s rest ih => exact ih hc
  | element h below rest _ ih =>
    obtain ⟨entry, others, hentry, hothers, rfl⟩ := entries_element hc
    simp only [countNamed, List.countP_cons, ih hothers, hentry.name, decide_eq_true_iff]

theorem length_docs (hc : entries parent inElement c = .ok es) :
    (es.filterMap Entry.doc?).length = countNamed "doc" c := by
  rw [List.length_filterMap_eq_countP, countNamed_of_entries hc]
  exact List.countP_congr fun _ _ => Entry.isSome_doc?.trans decide_eq_true_iff.symm

theorem length_vocabularies (hc : entries parent inElement c = .ok es) :
    (es.filterMap Entry.vocabulary?).length = countNamed "opt-list" c := by
  rw [List.length_filterMap_eq_countP, countNamed_of_entries hc]
  exact List.countP_congr fun _ _ => Entry.isSome_vocabulary?.trans decide_eq_true_iff.symm

theorem exists_readAs (hc : entries parent inElement c = .ok es) :
    ∀ entry ∈ es, ∃ h below, ReadAs inElement h below entry := by
  induction c generalizing es with
  | closed =>
    cases hc
    exact fun _ hmem => absurd hmem List.not_mem_nil
  | cut fault => cases hc
  | text s rest ih => exact ih hc
  | element h below rest _ ih =>
    obtain ⟨entry, others, hentry, hothers, rfl⟩ := entries_element hc
    exact List.forall_mem_cons.mpr ⟨⟨h, below, hentry⟩, ih hothers⟩

/-- Only elements have documentations and vocabularies. -/
theorem lastNotes_of_entries (hc : entries parent false c = .ok es) :
    Entry.lastNotes around es = [] := by
  have hnone : ∀ entry ∈ es, entry.doc? = none ∧ entry.vocabulary? = none := by
    intro entry hmem
    obtain ⟨h, below, hentry⟩ := exists_readAs hc entry hmem
    cases hentry with
    | doc hin | vocabulary hin => cases hin
    | attr | ref | elem => exact ⟨rfl, rfl⟩
  have hdocs : es.filterMap Entry.doc? = [] :=
    List.filterMap_eq_nil_iff.mpr fun entry hmem => (hnone entry hmem).1
  have hvocabularies : es.filterMap Entry.vocabulary? = [] :=
    List.filterMap_eq_nil_iff.mpr fun entry hmem => (hnone entry hmem).2
  rw [Entry.lastNotes, hdocs, hvocabularies]
  rfl

theorem bare_of_elementHead {e : ElementDecl} (he : elementHead h = .ok e) : e.bare = e := by
  obtain ⟨required, -, he⟩ := bind_eq_ok_iff.mp he
  obtain ⟨singular, -, he⟩ := bind_eq_ok_iff.mp he
  obtain ⟨op, -, he⟩ := bind_eq_ok_iff.mp he
  obtain ⟨tag, -, he⟩ := bind_eq_ok_iff.mp he
  cases he
  rfl

/-- Of what entries say all is kept but what comes before the last documentation and the last
vocabulary. -/
theorem Keeps.lastOnly (h : Keeps around c (es.flatMap (Entry.components around)) c.SaysOnce)
    (hes : entries parent inElement c = .ok es) :
    Keeps around c (Entry.lastNotes around es ++ (Entry.contentOf es).components around) c.Once := by
  have hdocs := perm_last (docComponents around) (es.filterMap Entry.doc?)
  have hvocabularies := perm_last (VocabularyDecl.components around) (es.filterMap Entry.vocabulary?)
  have hperm := Entry.perm_components around es
  have hsplit : (es.flatMap (Entry.components around)).Perm
      (Entry.lastNotes around es ++ (Entry.contentOf es).components around ++
        ((es.filterMap Entry.doc?).dropLast.flatMap (docComponents around) ++
          (es.filterMap Entry.vocabulary?).dropLast.flatMap (VocabularyDecl.components around))) := by
    rw [Entry.lastNotes]
    -- the three splits together: every component is counted as often on both sides
    rw [List.perm_iff_count] at *
    intro x
    have hdocs := hdocs x
    have hvocabularies := hvocabularies x
    have hperm := hperm x
    simp only [List.count_append] at *
    omega
  refine (h.release hsplit List.append_eq_nil_iff).congr ?_
  rw [flatMap_dropLast_eq_nil_iff docComponents_ne_nil,
    flatMap_dropLast_eq_nil_iff VocabularyDecl.components_ne_nil, length_docs hes,
    length_vocabularies hes, Markup.Content.Once]
  tauto

/-- An element keeps what it says, if the content of an element does. Only within other elements are
groups references. -/
theorem keeps_readAs (hnested : around ≠ []) (hbelow : ∀ {inner : List Entry} {own : Component},
    entries h.name true below = .ok inner → Keeps (own :: around) below
      (inner.flatMap (Entry.components (own :: around))) below.SaysOnce)
    (hentry : ReadAs inElement h below entry) :
    Keeps around (.element h below .closed) (entry.components around) below.Once := by
  cases hentry with
  | doc _ hname htext => exact keeps_doc hname htext
  | vocabulary _ hname hv => exact keeps_vocabulary hname hv
  | attr hname ha => exact keeps_attributeDecl hname ha
  | @ref kind hkind name hname hnone =>
    have hown : component around.isEmpty h below = .ok (.reference kind name) := by
      rw [List.isEmpty_eq_false_iff.mpr hnested, component_reference hkind, hname]
      rfl
    refine .element ?_ hown (keeps_noElements hnone)
    rw [List.isEmpty_eq_false_iff.mpr hnested, Bool.false_and]
  | @elem hname e he inner hinner =>
    have hown : component around.isEmpty h below = .ok (.elem (Entry.complete e inner).bare) := by
      simp only [component, hname, he]
      exact congrArg (fun e => Except.ok (Component.elem e)) (bare_of_elementHead he).symm
    exact .element (not_wrapper hname (by decide)) hown ((hbelow hinner).lastOnly hinner)

/-- Everything that entries say is kept in them. -/
theorem keeps_entries (hnested : around ≠ []) (hc : entries parent inElement c = .ok es) :
    Keeps around c (es.flatMap (Entry.components around)) c.SaysOnce := by
  -- over the content, for every place that it may have: what is within an element is one step in
  induction c generalizing parent inElement around es with
  | closed =>
    cases hc
    exact .closed
  | cut fault => cases hc
  | text s rest ih => exact ih hnested hc
  | element h below rest ihbelow ihrest =>
    obtain ⟨entry, others, hentry, hothers, rfl⟩ := entries_element hc
    have hfirst := keeps_readAs hnested (ihbelow (List.cons_ne_nil _ _)) hentry
    exact hfirst.append (ihrest hnested hothers)

/-! ### Parts -/

/-- The components of a part, each of several root elements included. -/
def Section.components : Section → List Placed
  | .namespaces ns => ns.map fun n => [.targetNamespace n]
  | .definition d => d.components
  | .root e content => rootComponents (e, content)
  | .fieldMarkers ms => ms.map fun m => [.fieldMarker m]
  | .assertions as => as.map fun a => [.assertion a]

theorem keeps_namespaceDecl {n : Namespace} (hname : h.name = "namespace")
    (hn : namespaceDecl h below = .ok n) :
    Keeps around (.element h below .closed) [.targetNamespace n :: around] below.Once := by
  obtain ⟨qualifier, hqualifier, hn⟩ := bind_eq_ok_iff.mp hn
  obtain ⟨uri, huri, hn⟩ := bind_eq_ok_iff.mp hn
  obtain ⟨_, hnone, hn⟩ := bind_eq_ok_iff.mp hn
  have hown : component around.isEmpty h below = .ok (.targetNamespace n) := by
    simp only [component, hname, namespaceDecl, hqualifier, huri]
    exact congrArg (Component.targetNamespace <$> ·) hn
  exact .element (not_wrapper hname (by decide)) hown (keeps_noElements hnone)

theorem keeps_fieldMarker {m : FieldMarker} (hname : h.name = "field-marker")
    (hm : fieldMarker h below = .ok m) :
    Keeps around (.element h below .closed) [.fieldMarker m :: around] below.Once := by
  obtain ⟨name, hfield, hm⟩ := bind_eq_ok_iff.mp hm
  obtain ⟨path, hpath, hm⟩ := bind_eq_ok_iff.mp hm
  obtain ⟨_, hnone, hm⟩ := bind_eq_ok_iff.mp hm
  have hown : component around.isEmpty h below = .ok (.fieldMarker m) := by
    simp only [component, hname, fieldMarker, hfield, hpath]
    exact congrArg (Component.fieldMarker <$> ·) hm
  exact .element (not_wrapper hname (by decide)) hown (keeps_noElements hnone)

theorem keeps_assertion {a : Assertion} (hname : h.name = "assert")
    (ha : assertion h below = .ok a) :
    Keeps around (.element h below .closed) [.assertion a :: around] below.Once := by
  have hown : component around.isEmpty h below = .ok (.assertion a) := by
    simp only [component, hname, ha]
    rfl
  obtain ⟨path, hpath, ha⟩ := bind_eq_ok_iff.mp ha
  obtain ⟨condition, hcondition, ha⟩ := bind_eq_ok_iff.mp ha
  exact .element (not_wrapper hname (by decide)) hown
    (keeps_noElements (noElements_of_allText hcondition))

theorem keeps_definition {kind : DefinitionKind} {d : Definition}
    (hd : definition kind h below = .ok d) (hname : h.name = kind.name) :
    Keeps [] (.element h below .closed) d.components below.Once := by
  obtain ⟨name, hdefined, hd⟩ := bind_eq_ok_iff.mp hd
  obtain ⟨inner, hinner, hd⟩ := bind_eq_ok_iff.mp hd
  cases hd
  have hown : component (List.isEmpty ([] : Placed)) h below = .ok (.definition kind name) := by
    rw [List.isEmpty_nil, component_definition hname, hdefined]
    rfl
  have hplain : isWrapper kind.name = false := by cases kind <;> decide
  refine .element (not_wrapper hname hplain) hown ?_
  have hnested : [Component.definition kind name] ≠ [] := List.cons_ne_nil _ _
  have hkeeps := (keeps_entries hnested hinner).lastOnly hinner
  rwa [lastNotes_of_entries hinner, List.nil_append] at hkeeps

theorem keeps_rootElement {s : Section} (hname : h.name = "root")
    (hs : rootElement h below = .ok s) :
    Keeps [] (.element h below .closed) s.components below.Once := by
  obtain ⟨e, he, hs⟩ := bind_eq_ok_iff.mp hs
  obtain ⟨inner, hinner, hs⟩ := bind_eq_ok_iff.mp hs
  cases hs
  have hown : component (List.isEmpty ([] : Placed)) h below =
      .ok (.root (Entry.complete e inner).bare) := by
    simp only [component, hname, he]
    exact congrArg (fun e => Except.ok (Component.root e)) (bare_of_elementHead he).symm
  exact .element (not_wrapper hname (by decide)) hown
    ((keeps_entries (List.cons_ne_nil _ _) hinner).lastOnly hinner)

/-- Elements in a row, in an element that only holds them together. -/
theorem keeps_group {α : Type} {parent name : String} {g : α → Component} {as : List α}
    {f : Head → Markup.Content → Except SchemaError α} (hwrapper : isWrapper h.name = true)
    (hplain : name ≠ "doc" ∧ name ≠ "opt-list")
    (hf : ∀ h below a, h.name = name → f h below = .ok a →
      Keeps [] (.element h below .closed) [[g a]] below.Once)
    (has : mapNamed parent name f below = .ok as) :
    Keeps [] (.element h below .closed) (as.map fun a => [g a]) below.Once := by
  refine .wrapper hwrapper ?_
  rw [List.map_eq_flatMap]
  refine (keeps_mapNamed hf has).congr ?_
  simp [Once, countNamed_of_mapNamed has, hplain.1, hplain.2]

theorem keeps_part {s : Section} (hs : part h below = .ok s) :
    Keeps [] (.element h below .closed) s.components below.Once := by
  rw [part.eq_def] at hs
  split at hs
  case h_1 hname =>
    obtain ⟨ns, hns, rfl⟩ := map_eq_ok_iff.mp hs
    exact keeps_group (by rw [hname]; decide) (by decide) (fun _ _ _ => keeps_namespaceDecl) hns
  case h_2 hname =>
    obtain ⟨d, hd, rfl⟩ := map_eq_ok_iff.mp hs
    exact keeps_definition hd hname
  case h_3 hname =>
    obtain ⟨d, hd, rfl⟩ := map_eq_ok_iff.mp hs
    exact keeps_definition hd hname
  case h_4 hname =>
    obtain ⟨d, hd, rfl⟩ := map_eq_ok_iff.mp hs
    exact keeps_definition hd hname
  case h_5 hname => exact keeps_rootElement hname hs
  case h_6 hname =>
    obtain ⟨ms, hms, rfl⟩ := map_eq_ok_iff.mp hs
    exact keeps_group (by rw [hname]; decide) (by decide) (fun _ _ _ => keeps_fieldMarker) hms
  case h_7 hname =>
    obtain ⟨as, has, rfl⟩ := map_eq_ok_iff.mp hs
    exact keeps_group (by rw [hname]; decide) (by decide) (fun _ _ _ => keeps_assertion) has
  case h_8 => cases hs

/-- The root element that a part is, with its content. -/
def Section.root? : Section → Option (ElementDecl × Content)
  | .root e content => some (e, content)
  | _ => none

theorem isSome_root?_of_part {s : Section} (hs : part h below = .ok s) :
    s.root?.isSome = true ↔ h.name = "root" := by
  rw [part.eq_def] at hs
  split at hs
  case h_1 hname | h_2 hname | h_3 hname | h_4 hname | h_6 hname | h_7 hname =>
    obtain ⟨_, -, rfl⟩ := map_eq_ok_iff.mp hs
    rw [hname]
    exact iff_of_false Bool.false_ne_true (by decide)
  case h_5 hname =>
    obtain ⟨e, he, hs⟩ := bind_eq_ok_iff.mp hs
    obtain ⟨inner, hinner, hs⟩ := bind_eq_ok_iff.mp hs
    cases hs
    exact iff_of_true rfl hname
  case h_8 => cases hs

/-- Parts of one kind come together. -/
theorem perm_parts (parts : List Section) : (parts.flatMap Section.components).Perm
    ((((Section.namespacesOf parts).map fun n => [.targetNamespace n]) ++
      (Section.definitionsOf parts).flatMap Definition.components) ++
      (((Section.fieldMarkersOf parts).map fun m => [.fieldMarker m]) ++
      ((Section.assertionsOf parts).map fun a => [.assertion a])) ++
      (parts.filterMap Section.root?).flatMap rootComponents) := by
  induction parts with
  | nil => exact .nil
  | cons s parts ih =>
    rw [List.perm_iff_count] at ih ⊢
    intro x
    have ih := ih x
    cases s with
    | namespaces | definition | root | fieldMarkers | assertions =>
      simp only [List.flatMap_cons, Section.components, Section.namespacesOf, Section.definitionsOf,
        Section.fieldMarkersOf, Section.assertionsOf, Section.root?, List.filterMap_cons,
        List.map_append, List.count_append, List.nil_append] at ih ⊢
      omega

/-- Whether some parts are those of a record definition. -/
structure Section.Compose (parts : List Section) (d : Declaration) : Prop where
  namespaces : d.namespaces = namespacesOf parts
  definitions : d.definitions = definitionsOf parts
  root : rootOf parts = some (d.root, d.content)
  fieldMarkers : d.fieldMarkers = fieldMarkersOf parts
  assertions : d.assertions = assertionsOf parts

variable {parts : List Section} {d : Declaration}

theorem exists_compose (hd : recordDefinition h below = .ok d) :
    ∃ parts, mapElements part below = .ok parts ∧ Section.Compose parts d := by
  obtain ⟨qualifier, -, hd⟩ := bind_eq_ok_iff.mp hd
  obtain ⟨parts, hparts, hd⟩ := bind_eq_ok_iff.mp hd
  split at hd
  · cases hd
  · next root content hroot =>
    cases hd
    exact ⟨parts, hparts, rfl, rfl, hroot, rfl, rfl⟩

theorem Section.Compose.getLast?_roots (hd : Section.Compose parts d) :
    (parts.filterMap Section.root?).getLast? = some (d.root, d.content) :=
  hd.root

/-- Of what some parts say all is kept but what comes before the last root element. -/
theorem Section.Compose.perm (hd : Section.Compose parts d) : (parts.flatMap Section.components).Perm
    (d.components ++ (parts.filterMap Section.root?).dropLast.flatMap rootComponents) := by
  have hroots := perm_last rootComponents (parts.filterMap Section.root?)
  rw [hd.getLast?_roots] at hroots
  have hperm := perm_parts parts
  rw [Declaration.components, hd.namespaces, hd.definitions, hd.fieldMarkers, hd.assertions]
  rw [List.perm_iff_count] at *
  intro x
  have hroots := hroots x
  have hperm := hperm x
  simp only [Option.toList_some, List.flatMap_cons, List.flatMap_nil, List.append_nil,
    List.count_append] at *
  omega

theorem keeps_recordDefinition (hd : recordDefinition h below = .ok d) :
    Keeps [] below d.components below.Unrepeated := by
  obtain ⟨parts, hparts, hd⟩ := exists_compose hd
  have hcount : (parts.filterMap Section.root?).length = countNamed "root" below := by
    rw [List.length_filterMap_eq_countP]
    exact (countNamed_of_mapElements (fun _ _ _ => isSome_root?_of_part) hparts).symm
  have hpos : 0 < (parts.filterMap Section.root?).length := by
    rw [List.length_pos_iff, ← List.getLast?_isSome, hd.getLast?_roots]
    rfl
  have hkept := (keeps_mapElements (fun _ _ _ => keeps_part) hparts).release hd.perm
    (flatMap_dropLast_eq_nil_iff rootComponents_ne_nil)
  refine hkept.congr ⟨fun hone => ⟨by omega, hone.1⟩, fun hone => ⟨hone.notes, ?_⟩⟩
  exact Nat.le_of_eq (hcount.trans hone.root)

end Reading

namespace Declaration

open Markup (Event)
open Markup.Content (document_opening document_empty inside behind inside_opening inside_empty)

variable {es : List Event} {d : Declaration}

/-- What is read is read from the first element of the document. -/
theorem exists_recordDefinition (hd : ofEvents es = .ok d) :
    ∃ head below rest, Markup.Content.document es = .element head below rest ∧
      Reading.recordDefinition head below = .ok d := by
  induction es with
  | nil => cases hd
  | cons e es ih =>
    cases e with
    | malformed => cases hd
    | closing | text | aside => exact ih hd
    | empty h =>
      rw [ofEvents_empty] at hd
      split at hd
      · rw [document_empty, ← inside, inside_empty]
        exact ⟨h, .closed, inside es, rfl, hd⟩
      · cases hd
    | opening h =>
      rw [ofEvents_opening] at hd
      split at hd
      · rw [document_opening, ← inside, inside_opening]
        exact ⟨h, inside es, behind es, rfl, hd⟩
      · cases hd

/-- Nothing is in a record definition that its document does not say, and everything that the
document says is in it exactly once if and only if there is one root element, and no element has two
documentations or two vocabularies. -/
theorem components_perm_iff (hd : ofEvents es = .ok d) :
    ∃ head below rest said, Markup.Content.document es = .element head below rest ∧
      Reading.components [] below = .ok said ∧ d.components.Subperm said ∧
      (d.components.Perm said ↔ below.Unrepeated) := by
  obtain ⟨head, below, rest, hdocument, hd⟩ := exists_recordDefinition hd
  obtain ⟨said, lost, hsaid, hperm, hlost⟩ := Reading.keeps_recordDefinition hd
  refine ⟨head, below, rest, said, hdocument, hsaid, ?_, ?_⟩
  · exact (List.sublist_append_left _ lost).subperm.trans hperm.symm.subperm
  · rw [← hlost]
    constructor
    · intro h
      have hlength := (h.trans hperm).length_eq
      rw [List.length_append] at hlength
      exact List.eq_nil_of_length_eq_zero (by omega)
    · rintro rfl
      rw [List.append_nil] at hperm
      exact hperm.symm

end Declaration

open Declaration in
/-- Nothing of the document of titles and creators is lost. -/
theorem demoDeclaration_components :
    ofEvents demoDeclaration.document.events = .ok demoDeclaration ∧
      ∃ head below rest said,
        Markup.Content.document demoDeclaration.document.events = .element head below rest ∧
        Reading.components [] below = .ok said ∧ said.length = 14 ∧
        demoDeclaration.components.Perm said := by
  have hread : ofEvents demoDeclaration.document.events = .ok demoDeclaration := by decide +kernel
  obtain ⟨head, below, rest, said, hdocument, hsaid, -, hiff⟩ := components_perm_iff hread
  have honce : below.Unrepeated := by
    have hsame := hdocument.symm.trans (document_events demoDeclaration_writable)
    cases hsame
    decide +kernel
  have hperm := hiff.mpr honce
  have hlength : said.length = 14 := by
    rw [← hperm.length_eq]
    decide +kernel
  exact ⟨hread, head, below, rest, said, hdocument, hsaid, hlength, hperm⟩

/-- A document that says three things twice: its root element, the documentation of an attribute and
the vocabulary of an element. -/
def repetitiveDocument : Markup.Content :=
  .element ⟨"record-definition", [("prefix", "demo")]⟩
    (.element ⟨"root", [("tag", "record")]⟩
      (.element ⟨"elem", [("tag", "title")]⟩ .closed .closed) <|
    .element ⟨"root", [("tag", "work")]⟩
      (.element ⟨"attr", [("tag", "id")]⟩
        (.element ⟨"doc", []⟩ (.text "Key" .closed) <|
          .element ⟨"doc", []⟩ (.text "Name" .closed) .closed) <|
      .element ⟨"elem", [("tag", "type")]⟩
        (.element ⟨"opt-list", [("dictionary", "types"), ("value", "type")]⟩
          (.element ⟨"opt", [("value", "Book")]⟩ .closed .closed) <|
        .element ⟨"opt-list", [("dictionary", "forms"), ("value", "type")]⟩ .closed .closed)
        .closed)
      .closed)
    (.cut .ended)

/-- What is read of it: of each the second. -/
def repetitiveDeclaration : Declaration where
  qualifier := "demo"
  root := { tag := .elem none "work" }
  content :=
    .attr { tag := .attr none "id", doc := some "Name" } <|
      .elem
        { tag := .elem none "type"
          vocabulary := some
            { dictionary := "forms", value := .elem none "type", choices := [] } }
        .nil .nil

/-- The first of each is lost, with all that is in it. -/
theorem repetitiveDocument_loses :
    let record := .root { tag := .elem none "record" }
    let work := .root { tag := .elem none "work" }
    let types := .vocabulary { dictionary := "types", value := .elem none "type", choices := [] }
    Declaration.ofEvents repetitiveDocument.events = .ok repetitiveDeclaration ∧
      ∃ head below rest said,
        Markup.Content.document repetitiveDocument.events = .element head below rest ∧
        Reading.components [] below = .ok said ∧
        said.Perm (repetitiveDeclaration.components ++
          [[record],
            [.elem { tag := .elem none "title" }, record],
            [.doc "Key", .attr { tag := .attr none "id" }, work],
            [types, .elem { tag := .elem none "type" }, work],
            [.choice { value := "Book" }, types, .elem { tag := .elem none "type" }, work]]) := by
  refine ⟨by decide +kernel, _, _, _, _, by with_unfolding_all rfl, by with_unfolding_all rfl, ?_⟩
  decide +kernel

end Crosswalk
