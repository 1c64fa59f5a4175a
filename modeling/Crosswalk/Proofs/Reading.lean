import Crosswalk.Proofs.Position
import Crosswalk.Proofs.TagText
import Crosswalk.Schema.Reading

/-!
What the reader grants. Every attribute and every element that a document declares, wherever in it,
is named by a tag that was read from a text; the tag of an attribute has the mark of one, and that
of an element has not.
-/

namespace Crosswalk

/-! ### Declarations as documents write them -/

/-- Whether a tag is what some text is read as. -/
def Tag.Written (t : Tag) : Prop := ∃ s, Tag.parse s = .ok t

/-- Whether an attribute is named as documents name attributes. -/
def Attribute.Written (a : Attribute) : Prop := a.tag.Written ∧ a.tag.isAttribute = true

/-- Whether an element is named as documents name elements. -/
def ElementDecl.Written (e : ElementDecl) : Prop := e.tag.Written ∧ e.tag.isAttribute = false

/-- Whether all attributes and elements of some content are named as documents name them. -/
def Content.Written (c : Content) : Prop := c.All Attribute.Written ElementDecl.Written

/-- Whether all attributes and elements of a declaration are named as documents name them. -/
def Declaration.Written (d : Declaration) : Prop := d.All Attribute.Written ElementDecl.Written

theorem Content.All.imp {Q Q' : Attribute → Prop} {R R' : ElementDecl → Prop}
    (hQ : ∀ a, Q a → Q' a) (hR : ∀ e, R e → R' e) {c : Content} (h : c.All Q R) : c.All Q' R' := by
  induction c with
  | nil => trivial
  | attr a rest ih => exact ⟨hQ a h.1, ih h.2⟩
  | ref kind name rest ih => exact ih h
  | elem e below rest hbelow hrest => exact ⟨hR e h.1, hbelow h.2.1, hrest h.2.2⟩

/-- What is written as documents write it has the tags of attributes exactly on attributes. -/
theorem Declaration.Written.wellTagged {d : Declaration} (h : d.Written) : d.WellTagged where
  root := h.root.2
  content := h.content.imp (fun _ ha => ha.2) fun _ he => he.2
  definitions := fun definition hmem =>
    (h.definitions definition hmem).imp (fun _ ha => ha.2) fun _ he => he.2

namespace Reading

open Markup (Head)

variable {h : Head} {below : Markup.Content}

/-! ### Tags -/

theorem isAttribute_of_parse {s : String} {t : Tag} (ht : Tag.parse s = .ok t) :
    t.isAttribute = hasMark s := by
  have hmark : t.isAttribute = (Tag.parseMark s.toList).1 := by
    obtain ⟨⟨cs, variant⟩, -, ht⟩ := bind_eq_ok_iff.mp ht
    obtain ⟨⟨cs', descendancy⟩, -, ht⟩ := bind_eq_ok_iff.mp ht
    obtain ⟨⟨qualifier, localName⟩, -, ht⟩ := bind_eq_ok_iff.mp ht
    cases ht
    rfl
  rw [hmark, hasMark, Tag.parseMark.eq_def]
  split
  · next heq => rw [heq]; rfl
  · next hne =>
    cases hs : s.toList with
    | nil => rfl
    | cons c cs =>
      have hc : c ≠ '@' := by
        rintro rfl
        exact hne cs hs
      simpa using hc

theorem parse_of_tagValue {key value text : String} {t : Tag}
    (ht : tagValue h key value text = .ok t) : Tag.parse text = .ok t := by
  rw [tagValue] at ht
  split at ht
  · next heq =>
    cases ht
    exact heq
  · cases ht

theorem written_of_attributeTag {t : Tag} (ht : attributeTag h = .ok t) :
    t.Written ∧ t.isAttribute = true := by
  obtain ⟨value, -, ht⟩ := bind_eq_ok_iff.mp ht
  have hparse := parse_of_tagValue ht
  refine ⟨⟨_, hparse⟩, (isAttribute_of_parse hparse).trans ?_⟩
  split
  · next hmark => exact hmark
  · simp [hasMark]

theorem written_of_elementTag {t : Tag} (ht : elementTag h = .ok t) :
    t.Written ∧ t.isAttribute = false := by
  obtain ⟨value, -, ht⟩ := bind_eq_ok_iff.mp ht
  split at ht
  · cases ht
  · next hmark =>
    have hparse := parse_of_tagValue ht
    exact ⟨⟨_, hparse⟩, (isAttribute_of_parse hparse).trans (Bool.not_eq_true _ ▸ hmark)⟩

theorem written_of_attributeDecl {a : Attribute} (ha : attributeDecl h below = .ok a) :
    a.Written := by
  obtain ⟨required, -, ha⟩ := bind_eq_ok_iff.mp ha
  obtain ⟨tag, htag, ha⟩ := bind_eq_ok_iff.mp ha
  obtain ⟨doc, -, ha⟩ := bind_eq_ok_iff.mp ha
  cases ha
  exact written_of_attributeTag htag

theorem written_of_elementHead {e : ElementDecl} (he : elementHead h = .ok e) : e.Written := by
  obtain ⟨required, -, he⟩ := bind_eq_ok_iff.mp he
  obtain ⟨singular, -, he⟩ := bind_eq_ok_iff.mp he
  obtain ⟨op, -, he⟩ := bind_eq_ok_iff.mp he
  obtain ⟨tag, htag, he⟩ := bind_eq_ok_iff.mp he
  cases he
  exact written_of_elementTag htag

/-! ### Content -/

/-- Whether the attributes and elements of an entry are named as documents name them. -/
def Entry.Written : Entry → Prop
  | .attr a => a.Written
  | .elem e content => e.Written ∧ content.Written
  | _ => True

theorem Entry.written_contentOf {es : List Entry} (hes : ∀ entry ∈ es, entry.Written) :
    (contentOf es).Written := by
  induction es with
  | nil => trivial
  | cons entry es ih =>
    rw [List.forall_mem_cons] at hes
    cases entry with
    | attr a => exact ⟨hes.1, ih hes.2⟩
    | elem e content => exact ⟨hes.1.1, hes.1.2, ih hes.2⟩
    | _ => exact ih hes.2

theorem written_of_simpleEntry {parent : String} {inElement : Bool} {entry : Entry}
    (hentry : simpleEntry parent inElement h below = .ok entry) : entry.Written := by
  rw [simpleEntry] at hentry
  split at hentry
  · obtain ⟨a, ha, rfl⟩ := map_eq_ok_iff.mp hentry
    exact written_of_attributeDecl ha
  split at hentry
  · obtain ⟨doc, -, rfl⟩ := map_eq_ok_iff.mp hentry
    trivial
  split at hentry
  · obtain ⟨v, -, rfl⟩ := map_eq_ok_iff.mp hentry
    trivial
  split at hentry
  · obtain ⟨name, -, hentry⟩ := bind_eq_ok_iff.mp hentry
    obtain ⟨_, -, hentry⟩ := bind_eq_ok_iff.mp hentry
    cases hentry
    trivial
  · cases hentry

theorem written_of_entries {content : Markup.Content} : ∀ {parent : String} {inElement : Bool}
    {es : List Entry}, entries parent inElement content = .ok es →
      ∀ entry ∈ es, entry.Written := by
  induction content with
  | closed =>
    intro parent inElement es hes
    rw [entries] at hes
    cases hes
    simp
  | cut fault =>
    intro parent inElement es hes
    rw [entries] at hes
    cases hes
  | text s rest ih =>
    intro parent inElement es hes
    rw [entries] at hes
    exact ih hes
  | element h below rest hbelow hrest =>
    intro parent inElement es hes
    rw [entries] at hes
    split at hes
    · obtain ⟨e, he, hes⟩ := bind_eq_ok_iff.mp hes
      obtain ⟨inner, hinner, hes⟩ := bind_eq_ok_iff.mp hes
      obtain ⟨others, hothers, hes⟩ := bind_eq_ok_iff.mp hes
      cases hes
      have he := written_of_elementHead he
      have hinner := Entry.written_contentOf (hbelow hinner)
      exact List.forall_mem_cons.mpr ⟨⟨he, hinner⟩, hrest hothers⟩
    · obtain ⟨entry, hentry, hes⟩ := bind_eq_ok_iff.mp hes
      obtain ⟨others, hothers, hes⟩ := bind_eq_ok_iff.mp hes
      cases hes
      exact List.forall_mem_cons.mpr ⟨written_of_simpleEntry hentry, hrest hothers⟩

/-! ### The record definition -/

/-- Whether the attributes and elements of a part are named as documents name them. -/
def Section.Written : Section → Prop
  | .definition d => d.content.Written
  | .root e content => e.Written ∧ content.Written
  | _ => True

theorem written_of_definition {kind : DefinitionKind} {d : Definition}
    (hd : definition kind h below = .ok d) : d.content.Written := by
  obtain ⟨name, -, hd⟩ := bind_eq_ok_iff.mp hd
  obtain ⟨inner, hinner, hd⟩ := bind_eq_ok_iff.mp hd
  cases hd
  exact Entry.written_contentOf (written_of_entries hinner)

theorem written_of_part {s : Section} (hs : part h below = .ok s) : s.Written := by
  rw [part.eq_def] at hs
  split at hs
  case h_5 =>
    obtain ⟨e, he, hs⟩ := bind_eq_ok_iff.mp hs
    obtain ⟨inner, hinner, hs⟩ := bind_eq_ok_iff.mp hs
    cases hs
    have he := written_of_elementHead he
    exact ⟨he, Entry.written_contentOf (written_of_entries hinner)⟩
  case h_8 => cases hs
  all_goals obtain ⟨x, hx, rfl⟩ := map_eq_ok_iff.mp hs
  case h_2 | h_3 | h_4 => exact written_of_definition hx
  all_goals trivial

namespace Section

theorem mem_of_rootOf {parts : List Section} {e : ElementDecl} {content : Content}
    (h : rootOf parts = some (e, content)) : root e content ∈ parts := by
  obtain ⟨s, hs, heq⟩ := List.mem_filterMap.mp (List.mem_of_getLast? h)
  split at heq
  · cases heq
    exact hs
  · cases heq

theorem mem_of_mem_definitionsOf {parts : List Section} {d : Definition}
    (h : d ∈ definitionsOf parts) : definition d ∈ parts := by
  obtain ⟨s, hs, heq⟩ := List.mem_filterMap.mp h
  split at heq
  · cases heq
    exact hs
  · cases heq

end Section

theorem forall_of_mapElements {α : Type} {f : Head → Markup.Content → Except SchemaError α}
    {P : α → Prop} (hf : ∀ h below a, f h below = .ok a → P a) {content : Markup.Content} :
    ∀ {as : List α}, mapElements f content = .ok as → ∀ a ∈ as, P a := by
  induction content with
  | closed =>
    rintro as ⟨⟩
    nofun
  | cut fault =>
    intro as has
    cases has
  | text s rest ih => exact fun has => ih has
  | element h below rest _ hrest =>
    intro as has
    obtain ⟨a, ha, has⟩ := bind_eq_ok_iff.mp has
    obtain ⟨others, hothers, has⟩ := bind_eq_ok_iff.mp has
    cases has
    exact List.forall_mem_cons.mpr ⟨hf h below a ha, hrest hothers⟩

theorem written_of_recordDefinition {d : Declaration} (hd : recordDefinition h below = .ok d) :
    d.Written := by
  obtain ⟨qualifier, -, hd⟩ := bind_eq_ok_iff.mp hd
  obtain ⟨parts, hparts, hd⟩ := bind_eq_ok_iff.mp hd
  have hwritten := forall_of_mapElements (fun _ _ _ => written_of_part) hparts
  split at hd
  · cases hd
  · next root content hroot =>
    cases hd
    have hroot := hwritten _ (Section.mem_of_rootOf hroot)
    refine ⟨hroot.1, hroot.2, fun d hd => ?_⟩
    exact hwritten _ (Section.mem_of_mem_definitionsOf hd)

theorem written_of_document {content : Markup.Content} {d : Declaration}
    (hd : document content = .ok d) : d.Written := by
  induction content with
  | closed => cases hd
  | cut fault => cases hd
  | text s rest ih => exact ih hd
  | element h below rest _ _ =>
    rw [document] at hd
    split at hd
    · exact written_of_recordDefinition hd
    · cases hd

end Reading

/-- What is read from a document is named as documents name it. -/
theorem Declaration.written_of_ofEvents {es : List Markup.Event} {d : Declaration}
    (h : Declaration.ofEvents es = .ok d) : d.Written :=
  Reading.written_of_document h

end Crosswalk
