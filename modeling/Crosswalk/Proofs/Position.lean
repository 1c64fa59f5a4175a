import Crosswalk.Proofs.Edit
import Crosswalk.Proofs.Path
import Crosswalk.Proofs.Resolution

/-!
Paths as names of nodes. Nodes lie beneath one another as their paths do, so all paths differ if and
only if the tags of any two siblings do. Resolution checks the tags that are declared; an element
with a vocabulary stands for one node for each choice, whose tag has the choice's key in it, and a
declared tag may have a key too. So two nodes of an instance can have one path, and they have if and
only if two elements with one parent come to a node of the same tag.
-/

namespace Crosswalk

/-! ### Nodes found by their paths -/

namespace MappingTree

theorem lastPosition?_eq_none_iff {α : Type} {p : α → Bool} {as : List α} :
    lastPosition? p as = none ↔ ∀ a ∈ as, p a = false := by
  induction as with
  | nil => simp [lastPosition?]
  | cons a as ih =>
    rw [lastPosition?, List.forall_mem_cons, ← ih]
    cases lastPosition? p as with
    | some i => simp
    | none => cases p a <;> simp

/-- Every node is found at its path exactly if no two have the same. -/
theorem nodeAt?_path_iff {t : MappingTree} :
    (∀ i n, t.nodes[i]? = some n → t.nodeAt? n.path = some i) ↔ (t.nodes.map Node.path).Nodup := by
  constructor
  · intro h
    rw [List.Nodup, List.pairwise_map, List.pairwise_iff_getElem]
    intro i j hi hj hij heq
    have hat := h i _ (List.getElem?_eq_getElem hi)
    rw [heq, h j _ (List.getElem?_eq_getElem hj), Option.some.injEq] at hat
    omega
  · intro hnodup i n hn
    cases hj : t.nodeAt? n.path with
    | none =>
      have hnone := lastPosition?_eq_none_iff.mp hj n (List.mem_of_getElem? hn)
      simp at hnone
    | some j =>
      obtain ⟨n', hn', hpath⟩ := path_of_nodeAt? hj
      obtain ⟨hi, -⟩ := List.getElem?_eq_some_iff.mp hn
      have hsame : (t.nodes.map Node.path)[i]? = (t.nodes.map Node.path)[j]? := by
        rw [List.getElem?_map, List.getElem?_map, hn, hn', Option.map_some, Option.map_some, hpath]
      rw [(List.getElem?_inj (by simpa using hi) hnodup).mp hsame]

end MappingTree

/-! ### Paths and tags -/

/-- Whether two nodes have different tags. -/
def Node.TagsDiffer (n n' : Node) : Prop := n.tag ≠ n'.tag

namespace Forest.LaidOut

variable {f : Forest Node}

/-- The path of a node goes through that of a top tree. -/
theorem tags_of_mem : ∀ {parent : Path}, f.LaidOut id parent → ∀ n ∈ f.labels,
    ∃ top ∈ f.tops, ∃ ts, n.path.tags = parent.tags ++ top.tag :: ts := by
  induction f with
  | nil => intro parent _ n hn; simp [labels] at hn
  | tree a below next hb hn =>
    rintro parent ⟨hpath, hbelow, hnext⟩ n h
    simp only [id] at hpath
    simp only [labels, List.mem_cons, List.mem_append] at h
    rcases h with rfl | h | h
    · exact ⟨n, List.mem_cons_self, [], by rw [hpath, Path.tags_child]⟩
    · obtain ⟨top, -, ts, hts⟩ := hb hbelow n h
      refine ⟨a, List.mem_cons_self, top.tag :: ts, ?_⟩
      rw [hts, id, hpath, Path.tags_child, List.append_assoc, List.singleton_append]
    · obtain ⟨top, htop, ts, hts⟩ := hn hnext n h
      exact ⟨top, List.mem_cons_of_mem _ htop, ts, hts⟩

theorem path_of_mem_tops : ∀ {parent : Path}, f.LaidOut id parent → ∀ n ∈ f.tops,
    n.path = parent.child n.tag := by
  induction f with
  | nil => intro parent _ n hn; simp [tops] at hn
  | tree a below next _ ih =>
    rintro parent ⟨hpath, -, hnext⟩ n hn
    rcases List.mem_cons.mp hn with rfl | hn
    · exact hpath
    · exact ih hnext n hn

/-- Paths differ exactly if the tags of siblings do. -/
theorem nodup_paths_iff : ∀ {parent : Path}, f.LaidOut id parent →
    ((f.labels.map Node.path).Nodup ↔ f.Siblings Node.TagsDiffer) := by
  induction f with
  | nil => intro parent _; simp [labels, Siblings]
  | tree a below next hb hn =>
    rintro parent ⟨hpath, hbelow, hnext⟩
    simp only [id] at hpath hbelow
    have htags : a.path.tags = parent.tags ++ [a.tag] := by rw [hpath, Path.tags_child]
    rw [labels, List.map_cons, List.map_append, List.nodup_cons, List.nodup_append, hb hbelow,
      hn hnext, Siblings]
    constructor
    · rintro ⟨ha, hbelow', hnext', -⟩
      refine ⟨fun b hmem heq => ha ?_, hbelow', hnext'⟩
      rw [List.mem_append]
      refine .inr (List.mem_map.mpr ⟨b, mem_labels_of_mem_tops hmem, ?_⟩)
      rw [path_of_mem_tops hnext b hmem, ← heq, hpath]
    · rintro ⟨hdiffer, hbelow', hnext'⟩
      -- what lies at or below the first tree has its tag where the paths beside it have others
      have hbeside : ∀ b ∈ next.labels, ∀ ts, b.path.tags ≠ parent.tags ++ a.tag :: ts := by
        intro b hmem ts heq
        obtain ⟨top, htop, us, hus⟩ := tags_of_mem hnext b hmem
        rw [hus] at heq
        have hcons := List.append_cancel_left heq
        exact hdiffer top htop (List.cons.inj hcons).1.symm
      refine ⟨?_, hbelow', hnext', ?_⟩
      · rw [List.mem_append, List.mem_map, List.mem_map]
        rintro (⟨b, hmem, heq⟩ | ⟨b, hmem, heq⟩)
        · obtain ⟨top, -, ts, hts⟩ := tags_of_mem hbelow b hmem
          rw [heq] at hts
          exact absurd (List.self_eq_append_right.mp hts) (by simp)
        · exact hbeside b hmem [] (by rw [heq, htags])
      · intro p hp q hq heq
        obtain ⟨b, hb, rfl⟩ := List.mem_map.mp hp
        obtain ⟨b', hb', rfl⟩ := List.mem_map.mp hq
        obtain ⟨top, -, ts, hts⟩ := tags_of_mem hbelow b hb
        refine hbeside b' hb' (top.tag :: ts) ?_
        rw [← heq, hts, htags, List.append_assoc, List.singleton_append]

end Forest.LaidOut

/-! ### Tags of an instance -/

theorem Tag.withoutVariant_eq_self {t : Tag} (h : t.variant = none) : t.withoutVariant = t := by
  rw [withoutVariant, ← h]

namespace Element

/-- The tags of the nodes that an element comes to beneath one node: its own, or one for each choice
of its vocabulary. -/
def nodeTags (e : Element) : List Tag :=
  match e.vocabulary with
  | none => [e.tag]
  | some v => v.choices.map fun c => e.tag.withVariant c.variantKey

/-- Whether two elements come to nodes of different tags. -/
def Apart (e e' : Element) : Prop := ∀ t ∈ e.nodeTags, t ∉ e'.nodeTags

/-- Whether an element and its attributes are named by tags of their kind, which are no others of its
content, and its vocabulary is valid. -/
structure Proper (e : Element) (below : Forest Element) : Prop where
  element : e.tag.isAttribute = false
  attributes : ∀ a ∈ e.attributes, a.tag.isAttribute = true
  distinct : (e.attributes.map Attribute.tag ++ below.tops.map (·.tag)).Nodup
  valid : ∀ v, e.vocabulary = some v → v.Valid

theorem isAttribute_of_mem_nodeTags {e : Element} {t : Tag} (h : t ∈ e.nodeTags) :
    t.isAttribute = e.tag.isAttribute := by
  rw [nodeTags] at h
  split at h
  · rw [List.mem_singleton.mp h]
  · obtain ⟨c, -, rfl⟩ := List.mem_map.mp h
    rfl

theorem withoutVariant_of_mem_nodeTags {e : Element} {t : Tag} (h : t ∈ e.nodeTags) :
    t.withoutVariant = e.tag.withoutVariant := by
  rw [nodeTags] at h
  split at h
  · rw [List.mem_singleton.mp h]
  · obtain ⟨c, -, rfl⟩ := List.mem_map.mp h
    rfl

end Element

namespace Instance

theorem tags_tops_attributeNodes {path : Path} {variant : Option Variant} {as : List Attribute} :
    (attributeNodes path variant as).tops.map Node.tag = as.map Attribute.tag := by
  induction as with
  | nil => rfl
  | cons a as ih =>
    rw [attributeNodes, Forest.tops, List.map_cons, ih, List.map_cons]
    rfl

theorem choices_variants {list : Nat} {v : Vocabulary} :
    (variants list v).map Variant.choice = v.choices := by
  rw [variants, List.map_map]
  exact List.zipIdx_map_fst 0 v.choices

/-- The trees of the variants of a vocabulary have the tags of its choices. -/
theorem tags_tops_variants {list : Nat} {v : Vocabulary} {tag : Tag} {g : Variant → Forest Node}
    (hg : ∀ w, (g w).tops.map Node.tag = [tag.withVariant w.choice.variantKey]) :
    (Forest.join ((variants list v).map g)).tops.map Node.tag
      = v.choices.map fun c => tag.withVariant c.variantKey := by
  rw [Forest.tops_join, List.flatMap_map, List.map_flatMap]
  calc (variants list v).flatMap (fun w => (g w).tops.map Node.tag)
      = (variants list v).flatMap (fun w => [tag.withVariant w.choice.variantKey]) := by
        simp only [hg]
    _ = (variants list v).map (fun w => tag.withVariant w.choice.variantKey) :=
      List.map_eq_flatMap.symm
    _ = ((variants list v).map Variant.choice).map (fun c => tag.withVariant c.variantKey) := by
      rw [List.map_map]; rfl
    _ = v.choices.map fun c => tag.withVariant c.variantKey := by rw [choices_variants]

/-- The top nodes have the tags that the top elements come to. -/
theorem tags_tops_nodes {f : Forest Element} : ∀ {parent : Path} {variant : Option Variant}
    {first : Nat},
    (nodes parent variant first f).tops.map Node.tag = f.tops.flatMap Element.nodeTags := by
  induction f with
  | nil => intros; rfl
  | tree e below next _ ih =>
    intro parent variant first
    rw [nodes, Forest.tops, List.flatMap_cons]
    split
    · next hv =>
      rw [Forest.tops, List.map_cons, ih, Element.nodeTags, hv]
      rfl
    · next v hv =>
      rw [Forest.tops_append, List.map_append, ih, Element.nodeTags, hv]
      exact congrArg (· ++ _) (tags_tops_variants fun w => rfl)

theorem tagsDiffer_iff {f g : Forest Node} :
    (∀ n ∈ f.tops, ∀ n' ∈ g.tops, n.TagsDiffer n') ↔
      ∀ t ∈ f.tops.map Node.tag, t ∉ g.tops.map Node.tag := by
  constructor
  · intro h t ht ht'
    obtain ⟨n, hn, rfl⟩ := List.mem_map.mp ht
    obtain ⟨n', hn', heq⟩ := List.mem_map.mp ht'
    exact h n hn n' hn' heq.symm
  · intro h n hn n' hn' heq
    exact h n.tag (List.mem_map_of_mem hn) (heq ▸ List.mem_map_of_mem hn')

theorem siblings_attributeNodes {path : Path} {variant : Option Variant} {as : List Attribute}
    (h : (as.map Attribute.tag).Nodup) :
    (attributeNodes path variant as).Siblings Node.TagsDiffer := by
  induction as with
  | nil => trivial
  | cons a as ih =>
    obtain ⟨ha, has⟩ := List.nodup_cons.mp h
    refine ⟨fun n hn heq => ha ?_, trivial, ih has⟩
    have htag : n.tag ∈ (attributeNodes path variant as).tops.map Node.tag :=
      List.mem_map_of_mem hn
    rwa [tags_tops_attributeNodes, ← heq] at htag

/-- The attributes of an element stand in the way of no node below it. -/
theorem siblings_content {e : Element} {below : Forest Element} (he : e.Proper below)
    (hbelow : below.Each Element.Proper) {path : Path} {variant : Option Variant} {first : Nat} :
    (attributeNodes path variant e.attributes ++ nodes path variant first below).Siblings
      Node.TagsDiffer ↔ (nodes path variant first below).Siblings Node.TagsDiffer := by
  have hattributes : (attributeNodes path variant e.attributes).Siblings Node.TagsDiffer :=
    siblings_attributeNodes (List.nodup_append.mp he.distinct).1
  rw [Forest.siblings_append, and_iff_right hattributes, and_iff_left_iff_imp]
  intro _
  rw [tagsDiffer_iff, tags_tops_attributeNodes, tags_tops_nodes]
  intro t ht ht'
  obtain ⟨a, ha, rfl⟩ := List.mem_map.mp ht
  obtain ⟨e', he', ht'⟩ := List.mem_flatMap.mp ht'
  obtain ⟨_, hproper⟩ := hbelow.of_mem_tops e' he'
  have hkind := Element.isAttribute_of_mem_nodeTags ht'
  rw [he.attributes a ha, hproper.element] at hkind
  cases hkind

/-- The trees of the variants of a valid vocabulary have different tags. -/
theorem pairwise_variants {list : Nat} {v : Vocabulary} (hv : v.Valid) {tag : Tag}
    {g : Variant → Forest Node}
    (hg : ∀ w, (g w).tops.map Node.tag = [tag.withVariant w.choice.variantKey]) :
    ((variants list v).map g).Pairwise fun f f' => ∀ n ∈ f.tops, ∀ n' ∈ f'.tops, n.TagsDiffer n' := by
  have hkeys := hv.keys
  have hchoices : (variants list v).map Variant.choice = v.choices := choices_variants
  rw [← hchoices, List.map_map, List.Nodup, List.pairwise_map] at hkeys
  rw [List.pairwise_map]
  refine hkeys.imp fun {w w'} hne => ?_
  rw [tagsDiffer_iff, hg, hg]
  intro t ht ht'
  rw [List.mem_singleton.mp ht, List.mem_singleton, Tag.withVariant, Tag.withVariant,
    Tag.mk.injEq] at ht'
  exact hne (Option.some.inj ht'.2.2.2.2)

/-- The trees of one element come before those of the elements beside it. -/
theorem nodes_tree {e : Element} {below next : Forest Element} {parent : Path}
    {variant : Option Variant} {first : Nat} :
    nodes parent variant first (.tree e below next) = nodes parent variant first (.single e below)
      ++ nodes parent variant (first + expansions (.single e below)) next := by
  rw [Forest.single, nodes, nodes, expansions]
  split
  · rfl
  · rw [nodes, Forest.append_nil, ← Nat.add_assoc, ← Nat.add_assoc]
    rfl

/-- The trees of one element have siblings of different tags exactly if the content has. -/
theorem siblings_single {e : Element} {below : Forest Element} (he : e.Proper below)
    (hcontent : ∀ path variant first, (attributeNodes path variant e.attributes
      ++ nodes path variant first below).Siblings Node.TagsDiffer ↔ below.Siblings Element.Apart)
    {parent : Path} {variant : Option Variant} {first : Nat} :
    (nodes parent variant first (.single e below)).Siblings Node.TagsDiffer ↔
      below.Siblings Element.Apart := by
  have htree : ∀ n path w first, (Forest.single n (attributeNodes path w e.attributes
      ++ nodes path w first below)).Siblings Node.TagsDiffer ↔ below.Siblings Element.Apart := by
    intro n path w first
    rw [Forest.siblings_single, hcontent]
  rw [Forest.single, nodes]
  split
  · exact htree _ _ _ _
  · next v hv =>
    have hvalid := he.valid v hv
    obtain ⟨c, hc⟩ := List.exists_mem_of_ne_nil _ hvalid.nonempty
    rw [nodes, Forest.append_nil, Forest.siblings_join,
      and_iff_left (pairwise_variants hvalid fun w => rfl), List.forall_mem_map]
    have hchoices : (variants first v).map Variant.choice = v.choices := choices_variants
    obtain ⟨w, hw, -⟩ := List.mem_map.mp (hchoices ▸ hc)
    exact ⟨fun h => (htree _ _ _ _).mp (h w hw), fun h w _ => (htree _ _ _ _).mpr h⟩

/-- Tags of sibling nodes differ exactly if sibling elements come to nodes of different tags. -/
theorem siblings_nodes {f : Forest Element} (h : f.Each Element.Proper) : ∀ {parent : Path}
    {variant : Option Variant} {first : Nat},
    (nodes parent variant first f).Siblings Node.TagsDiffer ↔ f.Siblings Element.Apart := by
  induction f with
  | nil => intros; exact Iff.rfl
  | tree e below next hb hn =>
    obtain ⟨he, hbelow, hnext⟩ := h
    intro parent variant first
    have hcontent : ∀ path variant first, (attributeNodes path variant e.attributes
        ++ nodes path variant first below).Siblings Node.TagsDiffer ↔
          below.Siblings Element.Apart := fun path variant first => by
      rw [siblings_content he hbelow, hb hbelow]
    have hbeside : (∀ t ∈ e.nodeTags, t ∉ next.tops.flatMap Element.nodeTags) ↔
        ∀ e' ∈ next.tops, e.Apart e' := by
      simp only [Element.Apart, List.mem_flatMap, not_exists, not_and]
      exact ⟨fun h e' he' t ht => h t ht e' he', fun h t ht e' he' => h e' he' t ht⟩
    rw [nodes_tree, Forest.siblings_append, siblings_single he hcontent, hn hnext, tagsDiffer_iff,
      tags_tops_nodes, tags_tops_nodes, Forest.single, Forest.tops, Forest.tops,
      List.flatMap_singleton, hbeside, Forest.Siblings]
    constructor
    · rintro ⟨hbelow', hnext', hbeside'⟩
      exact ⟨hbeside', hbelow', hnext'⟩
    · rintro ⟨hbeside', hbelow', hnext'⟩
      exact ⟨hbelow', hnext', hbeside'⟩

end Instance

/-! ### Paths of an instance -/

/-- Whether the attributes of a declaration are named by attribute tags and its elements by element
tags. -/
def Declaration.WellTagged (d : Declaration) : Prop :=
  d.All (·.tag.isAttribute = true) (·.tag.isAttribute = false)

theorem Declaration.each_proper {d : Declaration} {r : Record} (hd : d.WellTagged)
    (h : d.resolve = .ok r) : r.elements.Each Element.Proper := by
  refine d.each_of_resolve hd (fun path e content head he has hhead => ?_) h
  obtain ⟨hinfo, hattributes, htags, hvalid⟩ := Resolution.element_eq_ok hhead
  exact
    { element := (congrArg (·.tag.isAttribute) hinfo).trans he
      attributes := hattributes ▸ has
      distinct := hattributes ▸ htags
      valid := hvalid }

/-- Elements without variant keys are apart, because their tags are checked as they are. -/
theorem Element.siblings_apart {f : Forest Element} (h : f.Each Proper)
    (hnodup : (f.tops.map (·.tag)).Nodup) (hplain : ∀ e ∈ f.labels, e.tag.variant = none) :
    f.Siblings Apart := by
  induction f with
  | nil => trivial
  | tree e below next hb hn =>
    obtain ⟨he, hbelow, hnext⟩ := h
    obtain ⟨hplain, hplainBelow, hplainNext⟩ := Forest.forall_labels_tree.mp hplain
    obtain ⟨hfresh, hnodup⟩ := List.nodup_cons.mp hnodup
    refine ⟨fun e' he' t ht ht' => hfresh ?_, ?_, hn hnext hnodup hplainNext⟩
    · have hplain' := hplainNext e' (Forest.mem_labels_of_mem_tops he')
      have hname : e.tag.withoutVariant = e'.tag.withoutVariant :=
        (withoutVariant_of_mem_nodeTags ht).symm.trans (withoutVariant_of_mem_nodeTags ht')
      rw [Tag.withoutVariant_eq_self hplain, Tag.withoutVariant_eq_self hplain'] at hname
      exact List.mem_map.mpr ⟨e', he', hname.symm⟩
    · exact hb hbelow (List.nodup_append.mp he.distinct).2.1 hplainBelow

/-- In the instance of a resolved declaration no two nodes have one path, and so every node is found
at its own, exactly if no two elements with one parent come to nodes of the same tag. No two do
unless a variant key is declared. -/
theorem MappingTree.paths_distinct_iff {d : Declaration} {r : Record} (hd : d.WellTagged)
    (h : d.resolve = .ok r) :
    (((ofRecord r).nodes.map Node.path).Nodup ↔ r.elements.Siblings Element.Apart) ∧
      ((∀ i n, (ofRecord r).nodes[i]? = some n → (ofRecord r).nodeAt? n.path = some i) ↔
        r.elements.Siblings Element.Apart) ∧
      ((∀ e ∈ r.elements.labels, e.tag.variant = none) →
        r.elements.Siblings Element.Apart) := by
  have hproper := d.each_proper hd h
  have hlaid : (ofRecord r).forest.LaidOut id Path.root := Instance.laidOut_nodes
  have hpaths : ((ofRecord r).nodes.map Node.path).Nodup ↔ r.elements.Siblings Element.Apart :=
    hlaid.nodup_paths_iff.trans (Instance.siblings_nodes hproper)
  exact ⟨hpaths, nodeAt?_path_iff.trans hpaths,
    Element.siblings_apart hproper (List.pairwise_singleton _ _)⟩

/-- A record of a work whose type is one of two, with an element of a given tag beside the type. -/
def workDeclaration (beside : Tag) : Declaration where
  root := { tag := .elem none "work" }
  content :=
    .elem
      { tag := .elem none "type"
        vocabulary := some
          { dictionary := "types"
            value := .elem none "type"
            choices := [{ value := "Book" }, { value := "Film" }] } }
      .nil (.elem { tag := beside } .nil .nil)

theorem workDeclaration_wellTagged {beside : Tag} (h : beside.isAttribute = false) :
    (workDeclaration beside).WellTagged where
  root := rfl
  content := ⟨rfl, trivial, h, trivial, trivial⟩
  definitions := by rintro _ ⟨⟩

/-- What the record of a work is resolved to. -/
def workRecord (beside : Tag) : Record where
  qualifier := ""
  version := ""
  namespaces := []
  root := { tag := .elem none "work" }
  below :=
    .tree
      { tag := .elem none "type"
        vocabulary := some
          { dictionary := "types"
            root := ⟨[.elem none "work", .elem none "type"]⟩
            value := .elem none "type"
            choices := [{ value := "Book" }, { value := "Film" }] } }
      .nil (.single { tag := beside } .nil)
  fieldMarkers := []
  assertions := []

/-- A title beside the type leaves every node a path of its own. -/
theorem workRecord_paths_distinct :
    let title : Tag := .elem none "title"
    let t := MappingTree.ofRecord (workRecord title)
    (workDeclaration title).WellTagged ∧ (workDeclaration title).resolve = .ok (workRecord title) ∧
      (t.nodes.map Node.path).Nodup ∧ ∀ i n, t.nodes[i]? = some n → t.nodeAt? n.path = some i := by
  intro title t
  have hd : (workDeclaration title).WellTagged := workDeclaration_wellTagged rfl
  have hr : (workDeclaration title).resolve = .ok (workRecord title) := by with_unfolding_all rfl
  obtain ⟨hpaths, hfound, hplain⟩ := MappingTree.paths_distinct_iff hd hr
  have hapart := hplain (by decide)
  exact ⟨hd, hr, hpaths.mpr hapart, hfound.mpr hapart⟩

/-- A declared tag with the key of a choice of the type stands for the same path as that choice, and
the node of the choice is not found there. -/
theorem workRecord_paths_equal :
    let book : Tag := (Tag.elem none "type").withVariant "Book"
    let t := MappingTree.ofRecord (workRecord book)
    (workDeclaration book).WellTagged ∧ (workDeclaration book).resolve = .ok (workRecord book) ∧
      ¬(t.nodes.map Node.path).Nodup ∧
        ∃ n, t.nodes[1]? = some n ∧ t.nodeAt? n.path = some 3 := by
  intro book t
  exact ⟨workDeclaration_wellTagged rfl, by with_unfolding_all rfl, by decide +kernel,
    by decide +kernel⟩

end Crosswalk
