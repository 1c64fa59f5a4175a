import Crosswalk.Proofs.Truncation

/-!
Reading events as they come. The reader of an element takes events from the front up to the end tag
of the element, or none if its start tag closes it, and leaves the others to whoever reads on. For
all events this comes to what the content that they describe is read as, and what is left begins
behind the end tag. So the document of a record definition is read as the record definition and no
further, whichever of its elements without content have one tag and whichever two.
-/

namespace Crosswalk

namespace Streaming

open Markup (Event Head)
open Reading (Entry Section require flag requirePath optionalPath operator tagValue attributeTag
  elementTag elementHead groupKind? unexpected)

/-! ### Readers -/

/-- A reader takes events from the front and leaves the rest. -/
abbrev Reader (α : Type) : Type := StateT (List Event) (Except SchemaError) α

/-- What stands next in a document. -/
inductive Item where
  /-- A start tag. It closes the element if that is empty. -/
  | opening (head : Head) (isEmpty : Bool)
  | closing
  | text (s : String)
  | ended

/-- What the first events stand for, asides apart, and the events after it. -/
def Item.ofEvents : List Event → Except SchemaError (Item × List Event)
  | [] => .ok (.ended, [])
  | .opening h :: es => .ok (.opening h false, es)
  | .empty h :: es => .ok (.opening h true, es)
  | .closing :: es => .ok (.closing, es)
  | .text s :: es => .ok (.text s, es)
  | .aside :: es => ofEvents es
  | .malformed :: _ => .error .malformed

/-- Takes what stands next. -/
def next : Reader Item := Item.ofEvents

section

variable {α : Type}

/-- What the elements ahead of the next end tag come to, if that is among the first `n` items. -/
def siblings (f : Head → Bool → Reader α) : Nat → Reader (List α)
  | 0 => throw .unexpectedEnd
  | n + 1 => do
    match ← next with
    | .opening h isEmpty => do
      let a ← f h isEmpty
      let as ← siblings f n
      pure (a :: as)
    | .closing => pure []
    | .text _ => siblings f n
    | .ended => throw .unexpectedEnd

/-- What the children of an element come to, in order. An empty element has none. -/
def eachChild (f : Head → Bool → Reader α) (isEmpty : Bool) : Reader (List α) :=
  if isEmpty then pure []
  else do
    let es ← get
    siblings f (es.length + 1)

/-- What the children of an element come to, when all have to have one name. -/
def eachNamed (parent name : String) (f : Head → Bool → Reader α) (isEmpty : Bool) :
    Reader (List α) :=
  eachChild (fun h isEmpty => if h.name = name then f h isEmpty else throw (unexpected parent h))
    isEmpty

/-- Takes the content of an element that has no children. -/
def noElements (parent : String) (isEmpty : Bool) : Reader Unit := do
  let _ ← eachChild (fun h _ => (throw (unexpected parent h) : Reader Unit)) isEmpty
  pure ()

/-- The text ahead of the next end tag, if that is among the first `n` items. -/
def textAhead (parent : String) : Nat → Reader String
  | 0 => throw .unexpectedEnd
  | n + 1 => do
    match ← next with
    | .opening h _ => throw (unexpected parent h)
    | .closing => pure ""
    | .text s => do
      let others ← textAhead parent n
      pure (s ++ others)
    | .ended => throw .unexpectedEnd

/-- The text of an element without children. -/
def allText (parent : String) (isEmpty : Bool) : Reader String :=
  if isEmpty then pure ""
  else do
    let es ← get
    textAhead parent (es.length + 1)

end

/-! ### Elements -/

/-- The documentation of an attribute. -/
def attributeDoc (isEmpty : Bool) : Reader (Option String) := do
  let docs ← eachNamed "attr" "doc" (fun _ isEmpty => allText "doc" isEmpty) isEmpty
  pure docs.getLast?

/-- An attribute. -/
def attributeDecl (h : Head) (isEmpty : Bool) : Reader Attribute := do
  let required ← flag h "required"
  let tag ← attributeTag h
  let doc ← attributeDoc isEmpty
  pure { tag, required, function := h.get? "function", init := h.get? "init", doc }

/-- A choice of a vocabulary. -/
def choice (h : Head) (isEmpty : Bool) : Reader Choice := do
  let value ← require h "value"
  let hidden ← flag h "hidden"
  noElements "opt" isEmpty
  pure
    { key := h.get? "key"
      value
      schema := h.get? "schema"
      schemaUri := h.get? "schema-uri"
      hidden }

/-- A vocabulary. -/
def vocabulary (h : Head) (isEmpty : Bool) : Reader VocabularyDecl := do
  let valueText ← require h "value"
  let dictionary ← require h "dictionary"
  let value ← tagValue h "value" valueText valueText
  let key ← optionalPath h "key"
  let schema ← optionalPath h "schema"
  let schemaUri ← optionalPath h "schema-uri"
  let choices ← eachNamed "opt-list" "opt" choice isEmpty
  pure { dictionary, value, key, schema, schemaUri, choices }

/-- A reference to a group. -/
def reference (kind : DefinitionKind) (h : Head) (isEmpty : Bool) : Reader Entry := do
  let name ← require h "ref"
  noElements h.name isEmpty
  pure (.ref kind name)

/-- An entry other than an element. -/
def simpleEntry (parent : String) (inElement : Bool) (h : Head) (isEmpty : Bool) : Reader Entry :=
  if h.name = "attr" then .attr <$> attributeDecl h isEmpty
  else if inElement && h.name == "doc" then .doc <$> allText "doc" isEmpty
  else if inElement && h.name == "opt-list" then .vocabulary <$> vocabulary h isEmpty
  else
    match groupKind? h.name with
    | some kind => reference kind h isEmpty
    | none => throw (unexpected parent h)

/-- An entry with fewer than `n` elements one inside the other. -/
def entry : Nat → String → Bool → Head → Bool → Reader Entry
  | 0, _, _, _, _ => throw .unexpectedEnd
  | n + 1, parent, inElement, h, isEmpty =>
    if h.name = "elem" then do
      let e ← elementHead h
      let inner ← eachChild (entry n h.name true) isEmpty
      pure (.elem (Entry.complete e inner) (Entry.contentOf inner))
    else simpleEntry parent inElement h isEmpty

/-- The entries of an element or of a named definition. -/
def entries (parent : String) (inElement isEmpty : Bool) : Reader (List Entry) := do
  let es ← get
  eachChild (entry es.length parent inElement) isEmpty

/-! ### The record definition -/

/-- A namespace. -/
def namespaceDecl (h : Head) (isEmpty : Bool) : Reader Namespace := do
  let qualifier ← require h "prefix"
  let uri ← require h "uri"
  noElements "namespace" isEmpty
  pure { qualifier, uri }

/-- A field marker. -/
def fieldMarker (h : Head) (isEmpty : Bool) : Reader FieldMarker := do
  let name ← require h "name"
  let path ← requirePath h "path"
  noElements "field-marker" isEmpty
  pure { name, kind := h.get? "type", path }

/-- An assertion. -/
def assertion (h : Head) (isEmpty : Bool) : Reader Assertion := do
  let path ← requirePath h "path"
  let condition ← allText "assert" isEmpty
  pure { path, condition }

/-- A named definition. -/
def definition (kind : DefinitionKind) (h : Head) (isEmpty : Bool) : Reader Definition := do
  let name ← require h "name"
  let inner ← entries h.name false isEmpty
  pure { kind, name, content := Entry.contentOf inner }

/-- The root element. -/
def rootElement (h : Head) (isEmpty : Bool) : Reader Section := do
  let e ← elementHead h
  let inner ← entries h.name true isEmpty
  pure (.root (Entry.complete e inner) (Entry.contentOf inner))

/-- A part of a record definition. -/
def part (h : Head) (isEmpty : Bool) : Reader Section :=
  match h.name with
  | "namespaces" => .namespaces <$> eachNamed "namespaces" "namespace" namespaceDecl isEmpty
  | "attr-group" => .definition <$> definition .attributeGroup h isEmpty
  | "elem-group" => .definition <$> definition .elementGroup h isEmpty
  | "template" => .definition <$> definition .template h isEmpty
  | "root" => rootElement h isEmpty
  | "field-markers" =>
    .fieldMarkers <$> eachNamed "field-markers" "field-marker" fieldMarker isEmpty
  | "assertions" => .assertions <$> eachNamed "assertions" "assert" assertion isEmpty
  | _ => throw (unexpected "record-definition" h)

/-- The record definition of the document element. -/
def recordDefinition (h : Head) (isEmpty : Bool) : Reader Declaration := do
  let qualifier ← require h "prefix"
  let parts ← eachChild part isEmpty
  match Section.rootOf parts with
  | none => throw .missingRoot
  | some (root, content) =>
    pure
      { qualifier
        version := (h.get? "version").getD ""
        namespaces := Section.namespacesOf parts
        definitions := Section.definitionsOf parts
        root
        content
        fieldMarkers := Section.fieldMarkersOf parts
        assertions := Section.assertionsOf parts }

/-- The first start tag, if it is among the first `n` items. -/
def firstTag : Nat → Reader (Head × Bool)
  | 0 => throw .unexpectedEnd
  | n + 1 => do
    match ← next with
    | .opening h isEmpty => pure (h, isEmpty)
    | .closing | .text _ => firstTag n
    | .ended => throw .unexpectedEnd

/-- The record definition of a whole document. What follows the document element is left. -/
def document : Reader Declaration := do
  let es ← get
  let first ← firstTag (es.length + 1)
  if first.1.name = "record-definition" then recordDefinition first.1 first.2
  else throw (unexpected "document" first.1)

end Streaming

/-! ### What is left -/

namespace Markup

open Markup.Content

/-- The events behind the end tag of the element that is open ahead of some events. -/
def remaining (es : List Event) : List Event := es.drop (consumedWithin 1 es)

variable {es own after : List Event} {c : Content}

theorem remaining_closing : remaining (.closing :: es) = es := by
  rw [remaining, consumedWithin, consumedWithin, List.drop_succ_cons, List.drop_zero]

/-- What neither begins nor ends an element leaves what the events after it leave. -/
theorem remaining_cons {e : Event} (hopening : ∀ h, e ≠ .opening h) (hclosing : e ≠ .closing) :
    remaining (e :: es) = remaining es := by
  rw [remaining, consumedWithin, List.drop_succ_cons, remaining]
  · exact hopening
  · exact hclosing

theorem Content.MakeUp.remaining_append (h : MakeUp own c) : remaining (own ++ after) = after := by
  rw [remaining, h.consumedWithin_append, consumedWithin, Nat.add_zero, List.drop_left]

theorem length_remaining_le (es : List Event) : (remaining es).length ≤ es.length := by
  rw [remaining, List.length_drop]
  exact Nat.sub_le ..

theorem inside_remaining (h : (inside es).Complete) : inside (remaining es) = behind es := by
  obtain ⟨own, after, rfl, hown⟩ := exists_makeUp h
  rw [hown.remaining_append, hown.behind_append]

/-- Behind an element in an element comes what is left of the element around. -/
theorem remaining_opening {head : Head} (h : (inside es).Complete) :
    remaining (.opening head :: es) = remaining (remaining es) := by
  obtain ⟨own, after, rfl, hown⟩ := exists_makeUp h
  rw [hown.remaining_append, remaining, consumedWithin, hown.consumedWithin_append,
    List.drop_succ_cons, List.drop_append, List.drop_eq_nil_of_le (Nat.le_add_right ..),
    Nat.add_sub_cancel_left, List.nil_append, remaining]

end Markup

/-! ### Contents as children -/

namespace Reading

/-- Elements are refused as children that all come to an error. -/
theorem noElements_eq_mapElements (parent : String) (c : Markup.Content) :
    noElements parent c = mapElements (fun h _ => .error (unexpected parent h)) c >>=
      fun _ : List Unit => .ok () := by
  induction c with
  | closed | cut | element => rfl
  | text s rest ih => exact ih

/-- An entry, whether an element or not. -/
def entry (parent : String) (inElement : Bool) (h : Markup.Head) (below : Markup.Content) :
    Except SchemaError Entry :=
  if h.name = "elem" then do
    let e ← elementHead h
    let inner ← entries h.name true below
    .ok (.elem (Entry.complete e inner) (Entry.contentOf inner))
  else simpleEntry parent inElement h below

theorem entries_eq_mapElements (parent : String) (inElement : Bool) (c : Markup.Content) :
    entries parent inElement c = mapElements (entry parent inElement) c := by
  induction c with
  | closed | cut => rfl
  | text s rest ih => exact ih
  | element h below rest _ ih =>
    rw [entries, mapElements, ih, entry]
    split
    · cases elementHead h with
      | error e => rfl
      | ok e => cases entries h.name true below <;> rfl
    · rfl

theorem detects_entry {parent : String} {inElement : Bool} {h : Markup.Head} :
    Detects (entry parent inElement h) :=
  .ite (.ahead fun _ => .behind detects_entries) detects_simpleEntry

end Reading

/-! ### Readers and contents -/

namespace Streaming

open Markup (Event Head consumed remaining remaining_closing remaining_cons remaining_opening
  inside_remaining length_remaining_le)
open Markup.Content
open Reading (Detects)

/-- Whether a reader, where there are fewer than `n` events, comes to what a function makes of the
content that they describe, and takes the events of the content and no others. -/
structure Follows {α : Type} (n : Nat) (r : Bool → Reader α)
    (f : Markup.Content → Except SchemaError α) : Prop where
  closed : ∀ es, es.length < n → r true es = (·, es) <$> f .closed
  opened : ∀ es, es.length < n → r false es = (·, remaining es) <$> f (inside es)

namespace Follows

variable {α β : Type} {n : Nat} {r : Bool → Reader α} {f : Markup.Content → Except SchemaError α}

theorem error (e : SchemaError) :
    Follows n (fun _ => (throw e : Reader α)) fun _ => .error e :=
  ⟨fun _ _ => rfl, fun _ _ => rfl⟩

/-- Checks of the start tag go ahead. -/
theorem ahead (x : Except SchemaError β) {r : β → Bool → Reader α}
    {f : β → Markup.Content → Except SchemaError α} (hr : ∀ b, Follows n (r b) (f b)) :
    Follows n (fun isEmpty => do let b ← x; r b isEmpty) fun c => x >>= fun b => f b c := by
  cases x with
  | error e => exact ⟨fun _ _ => rfl, fun _ _ => rfl⟩
  | ok b => exact ⟨(hr b).closed, (hr b).opened⟩

/-- What is made of a result takes no events. -/
theorem behind (hr : Follows n r f) {k : α → Reader β} {g : α → Except SchemaError β}
    (hk : ∀ a es, k a es = (·, es) <$> g a) :
    Follows n (fun isEmpty => do let a ← r isEmpty; k a) fun c => f c >>= g := by
  have hbind (isEmpty : Bool) (es : List Event) :
      (do let a ← r isEmpty; k a : Reader β) es = r isEmpty es >>= fun p => k p.1 p.2 := rfl
  refine ⟨fun es hes => ?_, fun es hes => ?_⟩
  · rw [hbind, hr.closed es hes]
    cases f .closed with
    | error e => rfl
    | ok a => exact hk a es
  · rw [hbind, hr.opened es hes]
    cases f (inside es) with
    | error e => rfl
    | ok a => exact hk a (remaining es)

theorem map (hr : Follows n r f) (g : α → β) :
    Follows n (fun isEmpty => g <$> r isEmpty) fun c => g <$> f c := by
  have hmap (isEmpty : Bool) (es : List Event) :
      (g <$> r isEmpty) es = (fun p => (g p.1, p.2)) <$> r isEmpty es := rfl
  refine ⟨fun es hes => ?_, fun es hes => ?_⟩
  · rw [hmap, hr.closed es hes]
    cases f .closed <;> rfl
  · rw [hmap, hr.opened es hes]
    cases f (inside es) <;> rfl

theorem ite {p : Prop} [Decidable p] {r' : Bool → Reader α}
    {f' : Markup.Content → Except SchemaError α} (hr : Follows n r f) (hr' : Follows n r' f') :
    Follows n (fun isEmpty => if p then r isEmpty else r' isEmpty)
      fun c => if p then f c else f' c := by
  split
  · exact hr
  · exact hr'

end Follows

section

variable {α : Type} {n : Nat} {r : Head → Bool → Reader α}
  {f : Head → Markup.Content → Except SchemaError α}

/-- The events are read item by item; what an element takes up is left out of the loop. -/
theorem siblings_eq (hr : ∀ h, Follows n (r h) (f h)) (hf : ∀ h, Detects (f h)) :
    ∀ (es : List Event) (k : Nat), es.length ≤ n → es.length < k →
      siblings r k es = (·, remaining es) <$> Reading.mapElements f (inside es)
  | _, 0, _, hk => absurd hk (Nat.not_lt_zero _)
  | [], _ + 1, _, _ => rfl
  | .malformed :: _, _ + 1, _, _ => rfl
  | .closing :: _, _ + 1, _, _ => by
    rw [remaining_closing]
    rfl
  | .aside :: es, k + 1, hn, hk => by
    rw [remaining_cons (e := .aside) nofun nofun]
    exact siblings_eq hr hf es (k + 1) (Nat.le_of_lt hn) (Nat.lt_of_succ_lt hk)
  | .text s :: es, k + 1, hn, hk => by
    rw [inside_text, remaining_cons (e := .text s) nofun nofun]
    exact siblings_eq hr hf es k (Nat.le_of_lt hn) (Nat.lt_of_succ_lt_succ hk)
  | .empty h :: es, k + 1, hn, hk => by
    have hrest := siblings_eq hr hf es k (Nat.le_of_lt hn) (Nat.lt_of_succ_lt_succ hk)
    have hstep : siblings r (k + 1) (.empty h :: es) = r h true es >>= fun p =>
      siblings r k p.2 >>= fun q => .ok (p.1 :: q.1, q.2) := rfl
    rw [hstep, (hr h).closed es hn, inside_empty, remaining_cons (e := .empty h) nofun nofun,
      Reading.mapElements]
    cases f h .closed with
    | error e => rfl
    | ok a =>
      change (siblings r k es >>= _) = _
      rw [hrest]
      cases Reading.mapElements f (inside es) <;> rfl
  | .opening h :: es, k + 1, hn, hk => by
    have hstep : siblings r (k + 1) (.opening h :: es) = r h false es >>= fun p =>
      siblings r k p.2 >>= fun q => .ok (p.1 :: q.1, q.2) := rfl
    rw [hstep, (hr h).opened es hn, inside_opening, Reading.mapElements]
    cases hbelow : f h (inside es) with
    | error e => rfl
    | ok a =>
      -- a child that can be read ends, so what it leaves is inside the element around it
      have hcomplete := (hf h).complete hbelow
      have hle := length_remaining_le es
      have hrest := siblings_eq hr hf (remaining es) k (Nat.le_trans hle (Nat.le_of_lt hn))
        (Nat.lt_of_le_of_lt hle (Nat.lt_of_succ_lt_succ hk))
      rw [inside_remaining hcomplete] at hrest
      rw [remaining_opening hcomplete]
      change (siblings r k (remaining es) >>= _) = _
      rw [hrest]
      cases Reading.mapElements f (behind es) <;> rfl
  termination_by es => es.length
  decreasing_by all_goals simp only [List.length_cons]; omega

/-- What is ahead of an element's end tag includes each start tag in it, so the readers of the
children have one event less. -/
theorem follows_eachChild (hr : ∀ h, Follows (n - 1) (r h) (f h)) (hf : ∀ h, Detects (f h)) :
    Follows n (eachChild r) (Reading.mapElements f) where
  closed _ _ := rfl
  opened es hes := siblings_eq hr hf es _ (by omega) (Nat.lt_succ_self _)

theorem follows_eachNamed {parent name : String} (hr : ∀ h, Follows (n - 1) (r h) (f h))
    (hf : ∀ h, Detects (f h)) :
    Follows n (eachNamed parent name r) (Reading.mapNamed parent name f) :=
  follows_eachChild (fun h => (hr h).ite (.error _)) fun h => (hf h).ite .error

end

variable {n : Nat} {parent : String} {inElement : Bool} {h : Head}

theorem follows_noElements : Follows n (noElements parent) (Reading.noElements parent) := by
  have hnone := follows_eachChild (n := n)
    (fun h => .error (α := Unit) (Reading.unexpected parent h)) fun _ => Detects.error
  have hunit := hnone.behind (k := fun _ => pure ()) (g := fun _ => .ok ()) fun _ _ => rfl
  simp only [← Reading.noElements_eq_mapElements] at hunit
  exact hunit

theorem textAhead_eq : ∀ (es : List Event) (k : Nat), es.length < k →
    textAhead parent k es = (·, remaining es) <$> Reading.allText parent (inside es)
  | _, 0, hk => absurd hk (Nat.not_lt_zero _)
  | [], _ + 1, _ => rfl
  | .malformed :: _, _ + 1, _ => rfl
  | .closing :: _, _ + 1, _ => by
    rw [remaining_closing]
    rfl
  | .aside :: es, k + 1, hk => by
    rw [remaining_cons (e := .aside) nofun nofun]
    exact textAhead_eq es (k + 1) (Nat.lt_of_succ_lt hk)
  | .text s :: es, k + 1, hk => by
    have hrest := textAhead_eq es k (Nat.lt_of_succ_lt_succ hk)
    rw [inside_text, remaining_cons (e := .text s) nofun nofun, Reading.allText]
    change (textAhead parent k es >>= fun p => .ok (s ++ p.1, p.2)) = _
    rw [hrest]
    cases Reading.allText parent (inside es) <;> rfl
  | .empty h :: es, _ + 1, _ => by
    rw [inside_empty]
    rfl
  | .opening h :: es, _ + 1, _ => by
    rw [inside_opening]
    rfl

theorem follows_allText : Follows n (allText parent) (Reading.allText parent) where
  closed _ _ := rfl
  opened es _ := textAhead_eq es _ (Nat.lt_succ_self _)

/-! ### Elements -/

theorem follows_attributeDoc : Follows n attributeDoc Reading.attributeDoc :=
  (follows_eachNamed (fun _ => follows_allText) fun _ => Reading.detects_allText).behind
    fun _ _ => rfl

theorem follows_attributeDecl : Follows n (attributeDecl h) (Reading.attributeDecl h) :=
  .ahead _ fun _ => .ahead _ fun _ => .behind follows_attributeDoc fun _ _ => rfl

theorem follows_choice : Follows n (choice h) (Reading.choice h) :=
  .ahead _ fun _ => .ahead _ fun _ => .behind follows_noElements fun _ _ => rfl

theorem follows_vocabulary : Follows n (vocabulary h) (Reading.vocabulary h) :=
  .ahead _ fun _ => .ahead _ fun _ => .ahead _ fun _ => .ahead _ fun _ => .ahead _ fun _ =>
    .ahead _ fun _ => .behind
      (follows_eachNamed (fun _ => follows_choice) fun _ => Reading.detects_choice) fun _ _ => rfl

theorem follows_reference {kind : DefinitionKind} :
    Follows n (reference kind h) (Reading.reference kind h) :=
  .ahead _ fun _ => .behind follows_noElements fun _ _ => rfl

theorem follows_simpleEntry :
    Follows n (simpleEntry parent inElement h) (Reading.simpleEntry parent inElement h) := by
  refine .ite (.map follows_attributeDecl _) <| .ite (.map follows_allText _) <|
    .ite (.map follows_vocabulary _) ?_
  cases Reading.groupKind? h.name with
  | some kind => exact follows_reference
  | none => exact .error _

/-- With as many events as elements may be one inside the other, none is one too many. -/
theorem follows_entry : ∀ {n : Nat} {parent : String} {inElement : Bool} {h : Head},
    Follows n (entry n parent inElement h) (Reading.entry parent inElement h)
  | 0, _, _, _ => ⟨fun _ h => absurd h (Nat.not_lt_zero _), fun _ h => absurd h (Nat.not_lt_zero _)⟩
  | n + 1, _, _, h => by
    refine .ite (.ahead _ fun e => ?_) follows_simpleEntry
    simp only [Reading.entries_eq_mapElements]
    exact .behind (follows_eachChild (fun _ => follows_entry) fun _ => Reading.detects_entry)
      fun _ _ => rfl

theorem follows_entries :
    Follows n (entries parent inElement) (Reading.entries parent inElement) where
  closed _ _ := rfl
  opened es _ := by
    rw [Reading.entries_eq_mapElements]
    exact siblings_eq (fun _ => follows_entry) (fun _ => Reading.detects_entry) es _
      (Nat.le_refl _) (Nat.lt_succ_self _)

/-! ### The record definition -/

theorem follows_namespaceDecl : Follows n (namespaceDecl h) (Reading.namespaceDecl h) :=
  .ahead _ fun _ => .ahead _ fun _ => .behind follows_noElements fun _ _ => rfl

theorem follows_fieldMarker : Follows n (fieldMarker h) (Reading.fieldMarker h) :=
  .ahead _ fun _ => .ahead _ fun _ => .behind follows_noElements fun _ _ => rfl

theorem follows_assertion : Follows n (assertion h) (Reading.assertion h) :=
  .ahead _ fun _ => .behind follows_allText fun _ _ => rfl

theorem follows_definition {kind : DefinitionKind} :
    Follows n (definition kind h) (Reading.definition kind h) :=
  .ahead _ fun _ => .behind follows_entries fun _ _ => rfl

theorem follows_rootElement : Follows n (rootElement h) (Reading.rootElement h) :=
  .ahead _ fun _ => .behind follows_entries fun _ _ => rfl

theorem follows_part : Follows n (part h) (Reading.part h) := by
  change Follows n (fun isEmpty => part h isEmpty) fun c => Reading.part h c
  obtain ⟨name, attributes⟩ := h
  simp only [part.eq_def]
  split
  case h_1 =>
    exact .map (follows_eachNamed (fun _ => follows_namespaceDecl)
      fun _ => Reading.detects_namespaceDecl) _
  case h_2 | h_3 | h_4 => exact .map follows_definition _
  case h_5 => exact follows_rootElement
  case h_6 =>
    exact .map (follows_eachNamed (fun _ => follows_fieldMarker)
      fun _ => Reading.detects_fieldMarker) _
  case h_7 =>
    exact .map (follows_eachNamed (fun _ => follows_assertion)
      fun _ => Reading.detects_assertion) _
  case h_8 =>
    have herror : Reading.part ⟨name, attributes⟩ = fun _ =>
        .error (Reading.unexpected "record-definition" ⟨name, attributes⟩) := by
      funext c
      rw [Reading.part]
      split
      case h_8 => rfl
      all_goals contradiction
    rw [herror]
    exact .error _

theorem follows_recordDefinition :
    Follows n (recordDefinition h) (Reading.recordDefinition h) := by
  refine .ahead _ fun _ => .behind
    (follows_eachChild (fun _ => follows_part) fun _ => Reading.detects_part) fun parts _ => ?_
  cases Reading.Section.rootOf parts <;> rfl

/-- The document element, once its start tag has been taken. -/
theorem follows_documentElement : Follows n
    (fun isEmpty => if h.name = "record-definition" then recordDefinition h isEmpty
      else throw (Reading.unexpected "document" h))
    fun c => if h.name = "record-definition" then Reading.recordDefinition h c
      else .error (Reading.unexpected "document" h) :=
  .ite follows_recordDefinition (.error _)

/-- What is ahead of the first start tag is passed over. -/
theorem firstTag_bind_eq : ∀ (es : List Event) (k : Nat), es.length < k →
    (do
      let first ← firstTag k
      if first.1.name = "record-definition" then recordDefinition first.1 first.2
      else throw (Reading.unexpected "document" first.1) : Reader Declaration) es =
      (·, es.drop (consumed es)) <$> Declaration.ofEvents es
  | _, 0, hk => absurd hk (Nat.not_lt_zero _)
  | [], _ + 1, _ => rfl
  | .malformed :: _, _ + 1, _ => rfl
  | .closing :: es, k + 1, hk | .text _ :: es, k + 1, hk => by
    rw [consumed, List.drop_succ_cons]
    · exact firstTag_bind_eq es k (Nat.lt_of_succ_lt_succ hk)
    all_goals simp
  | .aside :: es, k + 1, hk => by
    rw [consumed, List.drop_succ_cons]
    · exact firstTag_bind_eq es (k + 1) (Nat.lt_of_succ_lt hk)
    all_goals simp
  | .empty h :: es, k + 1, _ => by
    rw [consumed, List.drop_succ_cons, List.drop_zero, Declaration.ofEvents_empty]
    exact follows_documentElement.closed es (Nat.lt_succ_self _)
  | .opening h :: es, k + 1, _ => by
    rw [consumed, List.drop_succ_cons, Declaration.ofEvents_opening]
    exact follows_documentElement.opened es (Nat.lt_succ_self _)

/-- What is read as events come is what is read of the whole document, and what is left begins
behind the document element. -/
theorem document_eq (es : List Event) :
    document es = (·, es.drop (consumed es)) <$> Declaration.ofEvents es :=
  firstTag_bind_eq es _ (Nat.lt_succ_self _)

end Streaming

/-! ### Delivery -/

namespace Markup

/-- The tags that an event stands for: that of an element without content opens and closes it. -/
def Event.tags : Event → List Event
  | .empty h => [.opening h, .closing]
  | e => [e]

/-- Whether some events deliver some content. An element without content has one tag that opens and
closes it, or a tag for each. -/
def Content.Delivers (c : Content) (es : List Event) : Prop := es.flatMap Event.tags = c.events

theorem Event.tags_ne_nil (e : Event) : e.tags ≠ [] := by cases e <;> nofun

open Markup.Content

variable {es others : List Event} {c : Content}

/-- Content is delivered as it is written, with two tags for each element. -/
theorem Content.delivers_events (c : Content) : c.Delivers c.events := by
  rw [Delivers]
  induction c with
  | closed => rfl
  | cut fault => cases fault <;> rfl
  | text s rest ih =>
    have htext : (textEvents s).flatMap Event.tags = textEvents s := by
      rw [textEvents]
      split <;> rfl
    rw [events, List.flatMap_append, htext, ih]
  | element h below rest hbelow hrest =>
    rw [events, List.flatMap_cons, List.flatMap_append, hbelow, hrest]
    rfl

theorem flatMap_tags_eq_cons {e : Event} (h : es.flatMap Event.tags = e :: others) :
    (∃ es', es = e :: es' ∧ es'.flatMap Event.tags = others) ∨
      ∃ head es', es = .empty head :: es' ∧ e = .opening head ∧
        .closing :: es'.flatMap Event.tags = others := by
  cases es with
  | nil => cases h
  | cons first es =>
    rw [List.flatMap_cons] at h
    cases first with
    | empty head =>
      obtain ⟨rfl, rfl⟩ := List.cons.inj h
      exact .inr ⟨head, es, rfl, rfl, rfl⟩
    | _ =>
      obtain ⟨rfl, rfl⟩ := List.cons.inj h
      exact .inl ⟨es, rfl, rfl⟩

theorem eq_closed_of_events (h : c.Whole) {others' : List Event}
    (hevents : c.events ++ others = .closing :: others') : c = .closed ∧ others = others' := by
  cases c with
  | closed => exact ⟨rfl, List.tail_eq_of_cons_eq hevents⟩
  | cut => exact h.elim
  | text s rest =>
    rw [events, textEvents_eq h.1] at hevents
    cases hevents
  | element => cases hevents

/-- What delivers some content makes it up, and nothing else does. -/
theorem exists_makeUp_of_tags : ∀ {c : Content} {es others : List Event}, c.Whole →
    es.flatMap Event.tags = c.events ++ others →
      ∃ own after, es = own ++ after ∧ MakeUp own c ∧ after.flatMap Event.tags = others
  | .closed, _, _, _, h => by
    rcases flatMap_tags_eq_cons h with ⟨es, rfl, hes⟩ | ⟨_, _, _, h, _⟩
    · exact ⟨[.closing], es, rfl, .closing, hes⟩
    · cases h
  | .cut _, _, _, hc, _ => hc.elim
  | .text s rest, _, _, hc, h => by
    rw [events, textEvents_eq hc.1, List.append_assoc] at h
    rcases flatMap_tags_eq_cons h with ⟨es, rfl, hes⟩ | ⟨_, _, _, h, _⟩
    · obtain ⟨own, after, rfl, hown, hafter⟩ := exists_makeUp_of_tags hc.2 hes
      exact ⟨.text s :: own, after, rfl, hown.text s, hafter⟩
    · cases h
  | .element head below rest, _, _, hc, h => by
    rw [events, List.cons_append, List.append_assoc] at h
    rcases flatMap_tags_eq_cons h with ⟨es, rfl, hes⟩ | ⟨head, es, rfl, h, hes⟩
    · obtain ⟨own, es, rfl, hown, hes⟩ := exists_makeUp_of_tags hc.1 hes
      obtain ⟨own', after, rfl, hown', hafter⟩ := exists_makeUp_of_tags hc.2 hes
      exact ⟨.opening head :: (own ++ own'), after, by simp, .opening head hown hown', hafter⟩
    · -- one tag stands for a start tag with the end tag right behind it
      obtain rfl := Event.opening.inj h
      obtain ⟨rfl, hrest⟩ := eq_closed_of_events hc.1 hes.symm
      obtain ⟨own, after, rfl, hown, hafter⟩ := exists_makeUp_of_tags hc.2 hrest.symm
      exact ⟨.empty _ :: own, after, rfl, .empty _ hown, hafter⟩

end Markup

open Markup (consumed) in
/-- A record definition that can be written is read from the events that deliver its document, and
what follows them is left. On all events, reading them as they come agrees with reading the content
that they describe. -/
theorem Declaration.ofEvents_document {d : Declaration} (hd : d.Writable) {es : List Markup.Event}
    (hes : d.document.Delivers es) (rest : List Markup.Event) :
    Streaming.document (es ++ rest) = .ok (d, rest) ∧
      Declaration.ofEvents (es ++ rest) = .ok d ∧
      ∀ es', Streaming.document es' =
        (·, es'.drop (consumed es')) <$> Declaration.ofEvents es' := by
  have hwhole := Writing.whole_elements fun s hs =>
    Writing.whole_part (Reading.Section.writable_of_mem_parts hd s hs)
  have hname : (Writing.head d).name = "record-definition" := rfl
  rcases Markup.flatMap_tags_eq_cons hes with ⟨es, rfl, hbelow⟩ | ⟨_, _, _, _, hbelow⟩
  · obtain ⟨own, after, rfl, hown, hafter⟩ := Markup.exists_makeUp_of_tags hwhole hbelow
    obtain rfl : after = [] := by
      by_contra hne
      obtain ⟨e, after, rfl⟩ := List.exists_cons_of_ne_nil hne
      exact e.tags_ne_nil (List.append_eq_nil_iff.mp hafter).1
    have hread : Declaration.ofEvents (.opening (Writing.head d) :: (own ++ rest)) = .ok d := by
      have hdocument := Reading.document_document hd
      rw [Declaration.document, Reading.document] at hdocument
      rwa [Declaration.ofEvents_opening, hown.inside_append]
    have hleft : (Markup.Event.opening (Writing.head d) :: (own ++ rest)).drop
        (consumed (.opening (Writing.head d) :: (own ++ rest))) = rest := by
      rw [consumed, List.drop_succ_cons]
      exact hown.remaining_append
    rw [List.append_nil, List.cons_append]
    refine ⟨?_, hread, Streaming.document_eq⟩
    rw [Streaming.document_eq, hread, hleft]
    rfl
  · have hclosed := (Markup.eq_closed_of_events hwhole hbelow.symm).1
    cases hclosed

open Declaration in
/-- The record of a title and of creators is read from its document, where one tag opens and closes
the namespace and every other element has two. -/
theorem demoDeclaration_read :
    let es := demoDeclaration.document.events
    let mixed := es.take 2 ++ .empty (Writing.namespaceDecl ⟨"dc", "urn:dc"⟩).1 :: es.drop 4
    demoDeclaration.Writable ∧ demoDeclaration.document.Delivers es ∧
      demoDeclaration.document.Delivers mixed ∧ mixed ≠ es ∧
      Streaming.document (mixed ++ [.closing]) = .ok (demoDeclaration, [.closing]) ∧
      ofEvents (mixed ++ [.closing]) = .ok demoDeclaration := by
  intro es mixed
  have hmixed : mixed.flatMap Markup.Event.tags = es := by decide +kernel
  obtain ⟨hstream, hread, -⟩ := ofEvents_document demoDeclaration_writable hmixed [.closing]
  exact ⟨demoDeclaration_writable, demoDeclaration.document.delivers_events, hmixed,
    by decide +kernel, hstream, hread⟩

end Crosswalk
