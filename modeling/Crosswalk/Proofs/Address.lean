import Crosswalk.Command.Run
import Crosswalk.Proofs.PathText
import Crosswalk.Proofs.Reading

/-!
Nodes addressed by the paths that they print. The tags of a node's path are tags that the document
has, and where an option list is expanded the key of an option is added, which no tag was read with.
The characters of a key are escaped, so any key can be read but the empty one.
-/

namespace Crosswalk

/-! ### Tags of the paths of an instance -/

namespace Instance

variable {T : Tag → Prop}

theorem forall_tags_child {p : Path} {t : Tag} (hp : ∀ u ∈ p.tags, T u) (ht : T t) :
    ∀ u ∈ (p.child t).tags, T u := by
  rw [Path.tags_child, List.forall_mem_append]
  exact ⟨hp, List.forall_mem_singleton.mpr ht⟩

theorem forall_tags_attributeNodes {path : Path} {variant : Option Variant} {as : List Attribute}
    (hpath : ∀ t ∈ path.tags, T t) (has : ∀ a ∈ as, T a.tag) :
    ∀ n ∈ (attributeNodes path variant as).labels, ∀ t ∈ n.path.tags, T t := by
  induction as with
  | nil => simp [attributeNodes, Forest.labels]
  | cons a as ih =>
    rw [List.forall_mem_cons] at has
    rw [attributeNodes, Forest.labels, Forest.labels, List.nil_append, List.forall_mem_cons]
    exact ⟨forall_tags_child hpath has.1, ih has.2⟩

/-- The paths of an instance have the tags that its elements come to, and those of their
attributes. -/
theorem forall_tags_nodes {f : Forest Element}
    (h : f.Each fun e _ => (∀ t ∈ e.nodeTags, T t) ∧ ∀ a ∈ e.attributes, T a.tag) :
    ∀ {parent : Path} {variant : Option Variant} {first : Nat}, (∀ t ∈ parent.tags, T t) →
      ∀ n ∈ (nodes parent variant first f).labels, ∀ t ∈ n.path.tags, T t := by
  induction f with
  | nil => simp [nodes, Forest.labels]
  | tree e below next hb hn =>
    obtain ⟨⟨htags, hattributes⟩, hbelow, hnext⟩ := h
    have hcontent : ∀ {path : Path} {variant : Option Variant} {first : Nat},
        (∀ t ∈ path.tags, T t) →
        ∀ n ∈ (attributeNodes path variant e.attributes ++ nodes path variant first below).labels,
          ∀ t ∈ n.path.tags, T t := by
      intro path variant first hpath
      rw [Forest.labels_append, List.forall_mem_append]
      exact ⟨forall_tags_attributeNodes hpath hattributes, hb hbelow hpath⟩
    intro parent variant first hparent
    rw [nodes]
    split
    · next hv =>
      have htag : T e.tag := htags _ (by simp [Element.nodeTags, hv])
      have hpath := forall_tags_child hparent htag
      exact Forest.forall_labels_tree.mpr ⟨hpath, hcontent hpath, hn hnext hparent⟩
    · next v hv =>
      rw [Forest.labels_append, List.forall_mem_append]
      refine ⟨fun n hmem => ?_, hn hnext hparent⟩
      obtain ⟨g, hg, hmem⟩ := mem_labels_join.mp hmem
      obtain ⟨w, hw, rfl⟩ := List.mem_map.mp hg
      have hchoice : w.choice ∈ v.choices := by
        rw [← choices_variants]
        exact List.mem_map_of_mem hw
      have htag : T (e.tag.withVariant w.choice.variantKey) := by
        refine htags _ ?_
        rw [Element.nodeTags, hv]
        exact List.mem_map.mpr ⟨w.choice, hchoice, rfl⟩
      have hpath := forall_tags_child hparent htag
      exact Forest.forall_labels_tree.mpr ⟨hpath, hcontent hpath, by simp [Forest.labels]⟩ n hmem

end Instance

/-! ### Addresses -/

/-- All attributes and elements of what is loaded are named by tags that were read. -/
theorem Record.each_written {es : List Markup.Event} {r : Record} (h : Record.ofEvents es = .ok r) :
    r.elements.Each fun e _ => e.tag.Written ∧ ∀ a ∈ e.attributes, a.tag.Written := by
  obtain ⟨d, hd, hr⟩ := bind_eq_ok_iff.mp h
  refine d.each_of_resolve (Declaration.written_of_ofEvents hd) ?_ hr
  intro path e content head he has hhead
  obtain ⟨hinfo, hattributes, -, -⟩ := Resolution.element_eq_ok hhead
  have htag : head.tag = e.tag := congrArg ElementInfo.tag hinfo
  rw [htag, hattributes]
  exact ⟨he.1, fun a ha => (has a ha).1⟩

/-- Line of a node in a listing: its path comes first. -/
theorem Command.exists_nodeLine_eq (n : Node) : ∃ rest, nodeLine n = n.path.text ++ rest := by
  simp only [nodeLine, String.append_assoc]
  exact ⟨_, rfl⟩

namespace MappingTree

variable {es : List Markup.Event} {r : Record}

/-- The tags on the path of a node have names that can be read. -/
theorem wellNamed_of_ofEvents (h : Record.ofEvents es = .ok r) :
    ∀ n ∈ (ofRecord r).nodes, ∀ t ∈ n.path.tags, t.WellNamed := by
  refine Instance.forall_tags_nodes ((Record.each_written h).imp fun e below => ?_)
    (by simp [Path.root])
  rintro ⟨⟨s, hs⟩, hattributes⟩
  refine ⟨fun t ht => ?_, fun a ha => ?_⟩
  · rw [← Tag.wellNamed_withoutVariant, Element.withoutVariant_of_mem_nodeTags ht,
      Tag.wellNamed_withoutVariant]
    exact (Tag.wellNamed_of_parse hs).1
  · obtain ⟨s, hs⟩ := hattributes a ha
    exact (Tag.wellNamed_of_parse hs).1

/-- The text of a node's path comes first in the node's line, and the path is read back from it
exactly if no option with an empty key is on the path and no tag but its last ends in an escape. -/
theorem node_addressed_iff (h : Record.ofEvents es = .ok r) : ∀ n ∈ (ofRecord r).nodes,
    (∃ rest, Command.nodeLine n = n.path.text ++ rest) ∧
      (Path.parse n.path.text = .ok n.path ↔
        (∀ t ∈ n.path.tags, t.variant ≠ some "") ∧ ∀ t ∈ n.path.tags.dropLast, ¬t.EndsEscaping) :=
  fun n hn => ⟨Command.exists_nodeLine_eq n,
    Path.parse_text_iff_of_wellNamed (wellNamed_of_ofEvents h n hn)⟩

end MappingTree

/-- A document that declares an element whose only option has a given value, and one of a given name
with another below it. -/
def optionEvents (value name : String) : List Markup.Event :=
  [.opening ⟨"record-definition", [("prefix", "demo"), ("version", "1.0.0")]⟩,
    .opening ⟨"root", [("tag", "record")]⟩,
    .opening ⟨"elem", [("tag", "type")]⟩,
    .opening ⟨"opt-list", [("dictionary", "types"), ("value", "type")]⟩,
    .opening ⟨"opt", [("value", value)]⟩, .closing, .closing, .closing,
    .opening ⟨"elem", [("tag", name)]⟩,
    .opening ⟨"elem", [("tag", "note")]⟩, .closing, .closing, .closing, .closing]

/-- What such a document is loaded as. -/
def optionRecord (value name : String) : Record where
  qualifier := "demo"
  version := "1.0.0"
  namespaces := []
  root := { tag := .elem none "record" }
  below :=
    .tree
      { tag := .elem none "type"
        vocabulary := some
          { dictionary := "types"
            root := .ofNames ["record", "type"]
            value := .elem none "type"
            choices := [{ value }] } }
      .nil
      (.single { tag := .elem none name } (.single { tag := .elem none "note" } .nil))
  fieldMarkers := []
  assertions := []

/-- A key of characters that all have a meaning in the text of a path. -/
theorem optionRecord_addressed :
    Record.ofEvents (optionEvents "/[]\\" "part") = .ok (optionRecord "/[]\\" "part") ∧
    ∃ n ∈ (MappingTree.ofRecord (optionRecord "/[]\\" "part")).nodes,
      n.path.text = "/record/type[\\/\\[\\]\\\\]" ∧ Path.parse n.path.text = .ok n.path := by
  have hload :
      Record.ofEvents (optionEvents "/[]\\" "part") = .ok (optionRecord "/[]\\" "part") := by
    with_unfolding_all rfl
  have hmem :=
    List.get_mem (MappingTree.ofRecord (optionRecord "/[]\\" "part")).nodes ⟨1, by decide⟩
  refine ⟨hload, _, hmem, by decide +kernel, ?_⟩
  exact ((MappingTree.node_addressed_iff hload _ hmem).2.mpr (by decide +kernel))

/-- The text of an empty key is refused, and a name that ends in a backslash hides the separator
after it. -/
theorem optionRecord_unaddressed :
    Record.ofEvents (optionEvents "" "a\\") = .ok (optionRecord "" "a\\") ∧
    (∃ n ∈ (MappingTree.ofRecord (optionRecord "" "a\\")).nodes,
      n.path.text = "/record/type[]" ∧
      Path.parse n.path.text = .error (.invalidTag "/record/type[]" (.empty "type[]"))) ∧
    ∃ n ∈ (MappingTree.ofRecord (optionRecord "" "a\\")).nodes,
      n.path.text = "/record/a\\/note" ∧
      Path.parse n.path.text =
        .error (.invalidTag "/record/a\\/note" (.invalidChar "a\\/note" '/')) := by
  refine ⟨by with_unfolding_all rfl, ⟨_, List.get_mem _ ⟨1, by decide⟩, ?_, ?_⟩,
    ⟨_, List.get_mem _ ⟨3, by decide⟩, ?_, ?_⟩⟩
  all_goals with_unfolding_all rfl

end Crosswalk
