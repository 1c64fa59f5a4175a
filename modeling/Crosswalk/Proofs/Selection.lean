import Crosswalk.Proofs.Consistency
import Mathlib.Algebra.BigOperators.Group.List.Basic
import Mathlib.Data.List.Forall2
import Mathlib.Data.List.Nodup

/-!
Nodes over a schema path. An element with a vocabulary comes to one node for each choice, each with a
copy of what is below; so the nodes over a schema path are those of the ways to choose at every element
along it, in the order of the choices. Paths are lists of tags here, from the parent of a forest on: what
is at and below an element has the element's tag, with the key of the choice, in front.
-/

namespace Crosswalk

/-! ### What is chosen along a path -/

/-- The tag of the node for what is chosen at an element: with the key of the choice, or as it is. -/
def Tag.choosing (t : Tag) : Option Choice → Tag
  | none => t
  | some c => t.withVariant c.variantKey

/-- Tags with what is chosen at each in turn. Those that are left stay as they are. -/
def Tag.choosingAll : List Tag → List (Option Choice) → List Tag
  | [], _ => []
  | t :: ts, [] => t :: ts
  | t :: ts, c :: cs => t.choosing c :: choosingAll ts cs

/-- The path of the node over a path for what is chosen at the elements along it. -/
def Path.choosing (p : Path) (cs : List (Option Choice)) : Path := ⟨Tag.choosingAll p.tags cs⟩

/-- Whether some tags become others when their variant keys are left out. -/
def Tag.over (ts us : List Tag) : Bool := us.map Tag.withoutVariant == ts

namespace Element

/-- What can be chosen at an element: a choice of its vocabulary, or nothing if it has none. -/
def options (e : Element) : List (Option Choice) :=
  match e.vocabulary with
  | none => [none]
  | some v => v.choices.map some

/-- The elements along a path: those that its tags lead to in turn, as far as there are any. -/
def along : Forest Element → List Tag → List Element
  | .nil, _ => []
  | .tree .., [] => []
  | .tree e below next, t :: ts =>
    if e.tag = t then e :: along below ts else along next (t :: ts)

/-- Whether one of its options is chosen at each of some elements. -/
def Chooses : List Element → List (Option Choice) → Prop := List.Forall₂ fun e c => c ∈ e.options

/-- The ways to choose at some elements, the later varying faster. -/
def selections : List Element → List (List (Option Choice))
  | [] => [[]]
  | e :: es => e.options.flatMap fun c => (selections es).map (c :: ·)

variable {e : Element} {es : List Element} {f below next : Forest Element}

theorem mem_selections_iff : ∀ {es : List Element} {cs : List (Option Choice)},
    cs ∈ selections es ↔ Chooses es cs
  | [], cs => by rw [selections, List.mem_singleton, Chooses, List.forall₂_nil_left_iff]
  | e :: es, cs => by
    rw [selections, Chooses, List.forall₂_cons_left_iff]
    simp only [List.mem_flatMap, List.mem_map, mem_selections_iff]
    constructor
    · rintro ⟨c, hc, cs, hcs, rfl⟩
      exact ⟨c, cs, hc, hcs, rfl⟩
    · rintro ⟨c, cs, hc, hcs, rfl⟩
      exact ⟨c, hc, cs, hcs, rfl⟩

/-- There are as many ways to choose as the product of the numbers of choices. -/
theorem length_selections : ∀ {es : List Element}, (selections es).length =
    ((es.filterMap Element.vocabulary).map fun v => v.choices.length).prod
  | [] => rfl
  | e :: es => by
    have hlength : (selections (e :: es)).length = e.options.length * (selections es).length := by
      simp [selections, List.length_flatMap]
    rw [hlength, length_selections, options]
    cases h : e.vocabulary with
    | none => rw [List.filterMap_cons_none h, List.length_singleton, Nat.one_mul]
    | some v =>
      rw [List.filterMap_cons_some h, List.length_map, List.map_cons, List.prod_cons]

theorem nodeTags_eq : e.nodeTags = e.options.map e.tag.choosing := by
  rw [nodeTags, options]
  cases e.vocabulary with
  | none => rfl
  | some v =>
    rw [List.map_map]
    rfl

/-! ### Elements along a path -/

theorem along_nil : along f [] = [] := by cases f <;> rfl

theorem along_self {ts : List Tag} : along (.tree e below next) (e.tag :: ts) = e :: along below ts :=
  if_pos rfl

theorem along_next {t : Tag} {ts : List Tag} (h : e.tag ≠ t) :
    along (.tree e below next) (t :: ts) = along next (t :: ts) :=
  if_neg h

theorem along_eq_nil {t : Tag} {ts : List Tag} (h : t ∉ f.tops.map (·.tag)) :
    along f (t :: ts) = [] := by
  induction f with
  | nil => rfl
  | tree e below next _ ih =>
    rw [Forest.tops, List.map_cons, List.mem_cons, not_or] at h
    rw [along_next (Ne.symm h.1), ih h.2]

/-! ### Places -/

/-- The places at and below an element, beneath the element's own: itself, its attributes and what is
inside. -/
def contents (e : Element) (inside : List (List Tag)) : List (List Tag) :=
  [] :: e.attributes.map (fun a => [a.tag]) ++ inside

/-- The places of some elements and of their attributes, where an element stands at given tags. -/
def places (tagsOf : Element → List Tag) : Forest Element → List (List Tag)
  | .nil => []
  | .tree e below next =>
    (tagsOf e).flatMap (fun t => (e.contents (places tagsOf below)).map (t :: ·)) ++ places tagsOf next

theorem mem_contents {inside : List (List Tag)} {ts : List Tag} :
    ts ∈ e.contents inside ↔ ts = [] ∨ (∃ a ∈ e.attributes, ts = [a.tag]) ∨ ts ∈ inside := by
  simp only [contents, List.cons_append, List.mem_cons, List.mem_append, List.mem_map, eq_comm]

theorem mem_places_tree {tagsOf : Element → List Tag} {us : List Tag} :
    us ∈ places tagsOf (.tree e below next) ↔
      (∃ t ∈ tagsOf e, ∃ ts ∈ e.contents (places tagsOf below), us = t :: ts) ∨
        us ∈ places tagsOf next := by
  simp only [places, List.mem_append, List.mem_flatMap, List.mem_map, eq_comm]

/-- A place is at or below a top element. -/
theorem exists_of_mem_places {tagsOf : Element → List Tag} {us : List Tag}
    (h : us ∈ places tagsOf f) : ∃ top ∈ f.tops, ∃ t ∈ tagsOf top, ∃ ts, us = t :: ts := by
  induction f with
  | nil => cases h
  | tree e below next _ ih =>
    obtain ⟨t, ht, ts, -, rfl⟩ | h := mem_places_tree.mp h
    · exact ⟨e, List.mem_cons_self, t, ht, ts, rfl⟩
    · obtain ⟨top, htop, h⟩ := ih h
      exact ⟨top, List.mem_cons_of_mem _ htop, h⟩

/-- The places of the schema itself, where each element stands at its own tag. -/
abbrev ownPlaces : Forest Element → List (List Tag) := places fun e => [e.tag]

theorem mem_ownPlaces_tree {us : List Tag} : us ∈ ownPlaces (.tree e below next) ↔
    (∃ ts ∈ e.contents (ownPlaces below), us = e.tag :: ts) ∨ us ∈ ownPlaces next := by
  rw [ownPlaces, mem_places_tree]
  simp only [List.mem_singleton, exists_eq_left]

/-- The places of the schema are its paths. -/
theorem mem_pathsOf_iff {p : Path} : ∀ {parent : Path}, p ∈ pathsOf parent f ↔
    ∃ ts ∈ ownPlaces f, p.tags = parent.tags ++ ts := by
  induction f with
  | nil => simp [pathsOf, ownPlaces, places]
  | tree e below next hb hn =>
    intro parent
    rw [mem_pathsOf_tree, mem_pathsAt, hb, hn]
    simp only [mem_ownPlaces_tree, mem_contents]
    constructor
    · rintro ((⟨a, ha, rfl⟩ | rfl) | ⟨ts, hts, hp⟩ | ⟨ts, hts, hp⟩)
      · exact ⟨_, .inl ⟨[a.tag], .inr (.inl ⟨a, ha, rfl⟩), rfl⟩, by simp⟩
      · exact ⟨_, .inl ⟨[], .inl rfl, rfl⟩, Path.tags_child ..⟩
      · exact ⟨_, .inl ⟨ts, .inr (.inr hts), rfl⟩, by simp [hp]⟩
      · exact ⟨ts, .inr hts, hp⟩
    · rintro ⟨us, ⟨ts, rfl | ⟨a, ha, rfl⟩ | hts, rfl⟩ | hus, hp⟩
      · exact .inl (.inr (Path.ext_tags hp))
      · exact .inl (.inl ⟨a, ha, Path.ext_tags (by simp [hp])⟩)
      · exact .inr (.inl ⟨ts, hts, by simp [hp]⟩)
      · exact .inr (.inr ⟨us, hus, hp⟩)

end Element

namespace Instance

open Element

variable {e : Element} {f below : Forest Element} {parent : Path} {variant : Option Variant}
  {first : Nat}

theorem places_single {root : Node} {t : Tag} (hroot : root.path = parent.child t)
    (hbelow : (nodes root.path variant first below).labels.map (·.path.tags) =
      (places nodeTags below).map (root.path.tags ++ ·)) :
    (Forest.single root (attributeNodes root.path variant e.attributes
        ++ nodes root.path variant first below)).labels.map (·.path.tags) =
      (e.contents (places nodeTags below)).map fun ts => parent.tags ++ t :: ts := by
  rw [hroot] at hbelow ⊢
  simp [Forest.single, Forest.labels, labels_attributeNodes, contents, hbelow, hroot,
    Function.comp_def, attributeNode]

/-- The nodes of some elements have the places where each element stands at the tags of its nodes. -/
theorem places_nodes : ∀ {parent : Path} {variant : Option Variant} {first : Nat},
    (nodes parent variant first f).labels.map (·.path.tags) =
      (places nodeTags f).map (parent.tags ++ ·) := by
  induction f with
  | nil => intros; rfl
  | tree e below next hb hn =>
    intro parent variant first
    have hhead : (nodes parent variant first (.single e below)).labels.map (·.path.tags) =
        e.nodeTags.flatMap fun t =>
          (e.contents (places nodeTags below)).map fun ts => parent.tags ++ t :: ts := by
      rw [Forest.single, nodes]
      split
      · next hv =>
        rw [nodeTags, hv]
        dsimp only
        rw [List.flatMap_singleton]
        exact places_single rfl hb
      · next v hv =>
        have hchoices : (variants first v).map Variant.choice = v.choices := choices_variants
        rw [nodes, Forest.append_nil, Forest.labels_join, List.flatMap_map, List.map_flatMap,
          nodeTags, hv]
        dsimp only
        rw [← hchoices, List.map_map, List.flatMap_map]
        exact List.flatMap_congr fun w _ => places_single rfl hb
    rw [nodes_tree, Forest.labels_append, List.map_append, hhead, hn, places, List.map_append,
      List.map_flatMap]
    simp only [List.map_map]
    rfl

end Instance

/-! ### Places over a schema path -/

namespace Element

variable {e : Element} {f below : Forest Element} {t : Tag} {ts : List Tag}

theorem over_cons {u : Tag} {us : List Tag} :
    Tag.over (t :: ts) (u :: us) = true ↔ u.withoutVariant = t ∧ Tag.over ts us = true := by
  simp [Tag.over]

theorem over_nil {us : List Tag} : Tag.over [] us = true ↔ us = [] := by
  simp [Tag.over]

/-- No place is over a path that leaves the tags of the top elements. -/
theorem filter_places_eq_nil (hplain : ∀ e ∈ f.labels, e.Plain) (h : t ∉ f.tops.map (·.tag)) :
    (places nodeTags f).filter (Tag.over (t :: ts)) = [] := by
  rw [List.filter_eq_nil_iff]
  intro us hus hover
  obtain ⟨top, htop, u, hu, vs, rfl⟩ := exists_of_mem_places hus
  obtain ⟨rfl, -⟩ := over_cons.mp hover
  refine h (List.mem_map.mpr ⟨top, htop, ?_⟩)
  rw [withoutVariant_of_mem_nodeTags hu,
    Tag.withoutVariant_eq_self (hplain _ (Forest.mem_labels_of_mem_tops htop)).1]

theorem filter_attributes (hplain : e.Plain) :
    (e.attributes.map fun a => [a.tag]).filter (Tag.over ts) =
      (e.attributes.map fun a => [a.tag]).filter (· == ts) := by
  refine List.filter_congr fun us hus => ?_
  obtain ⟨a, ha, rfl⟩ := List.mem_map.mp hus
  rw [Tag.over, List.map_singleton, Tag.withoutVariant_eq_self (hplain.2 a ha)]

/-- What is over a place at or below an element, where it is known of what is inside. -/
theorem filter_contents (he : e.Plain) (hplain : ∀ e ∈ below.labels, e.Plain)
    (hnodup : (e.childTags below).Nodup) (hts : ts ∈ e.contents (ownPlaces below))
    (hbelow : ts ∈ ownPlaces below → (places nodeTags below).filter (Tag.over ts) =
      (selections (along below ts)).map (Tag.choosingAll ts)) :
    (e.contents (places nodeTags below)).filter (Tag.over ts) =
      (selections (along below ts)).map (Tag.choosingAll ts) := by
  obtain ⟨hattributes, -, hapart⟩ := List.nodup_append.mp hnodup
  rw [contents, List.cons_append]
  obtain rfl | ⟨a, ha, rfl⟩ | hts := mem_contents.mp hts
  · have hattribute : (e.attributes.map fun a => [a.tag]).filter (Tag.over []) = [] := by
      rw [List.filter_eq_nil_iff, List.forall_mem_map]
      intro a _ hover
      cases over_nil.mp hover
    have hinside : (places nodeTags below).filter (Tag.over []) = [] := by
      rw [List.filter_eq_nil_iff]
      intro us hus hover
      obtain ⟨_, _, _, _, _, rfl⟩ := exists_of_mem_places hus
      cases over_nil.mp hover
    rw [List.filter_cons_of_pos rfl, List.filter_append, hattribute, hinside, along_nil]
    rfl
  · -- The path of an attribute leaves the elements: no child has its tag.
    have hfresh : a.tag ∉ below.tops.map (·.tag) := fun hmem =>
      hapart _ (List.mem_map_of_mem ha) _ hmem rfl
    have hsingles : (e.attributes.map fun a => [a.tag]).Nodup := by
      have h := hattributes.map List.singleton_injective
      rwa [List.map_map] at h
    rw [List.filter_cons_of_neg (by simp [Tag.over]), List.filter_append,
      filter_places_eq_nil hplain hfresh, filter_attributes he, List.filter_beq,
      List.count_eq_one_of_mem hsingles (List.mem_map_of_mem ha), along_eq_nil hfresh]
    rfl
  · obtain ⟨top, htop, u, hu, us, rfl⟩ := exists_of_mem_places hts
    have hattribute : (e.attributes.map fun a => [a.tag]).filter (· == u :: us) = [] := by
      rw [List.filter_eq_nil_iff, List.forall_mem_map]
      intro a ha heq
      obtain ⟨htag, -⟩ := List.cons.inj (beq_iff_eq.mp heq)
      exact hapart _ (List.mem_map_of_mem ha) _ (List.mem_map_of_mem htop)
        (htag.trans (List.mem_singleton.mp hu))
    rw [List.filter_cons_of_neg (by simp [Tag.over]), List.filter_append, filter_attributes he,
      hattribute, hbelow hts, List.nil_append]

/-- The places over a schema path are those of the ways to choose along it, in the same order. -/
theorem filter_places (hplain : ∀ e ∈ f.labels, e.Plain)
    (hchildren : f.Each fun e below => (e.childTags below).Nodup) : ∀ {ts : List Tag},
    (f.tops.map (·.tag)).Nodup → ts ∈ ownPlaces f →
      (places nodeTags f).filter (Tag.over ts) =
        (selections (along f ts)).map (Tag.choosingAll ts) := by
  induction f with
  | nil => intro ts _ hts; cases hts
  | tree e below next hb hn =>
    obtain ⟨hplain, hplainBelow, hplainNext⟩ := Forest.forall_labels_tree.mp hplain
    obtain ⟨he, hbelow, hnext⟩ := hchildren
    intro ts htops hts
    obtain ⟨hfresh, htops⟩ := List.nodup_cons.mp htops
    obtain ⟨us, hus, rfl⟩ | hus := mem_ownPlaces_tree.mp hts
    · have hcontents := filter_contents hplain hplainBelow he hus
        (hb hplainBelow hbelow (List.nodup_append.mp he).2.1)
      -- Every tag of the element's nodes is over the element's own, so what is left to compare is inside.
      have hhead : ∀ t ∈ e.nodeTags, ((e.contents (places nodeTags below)).map (t :: ·)).filter
          (Tag.over (e.tag :: us)) =
            ((selections (along below us)).map (Tag.choosingAll us)).map (t :: ·) := by
        intro t ht
        have hname : t.withoutVariant = e.tag := by
          rw [withoutVariant_of_mem_nodeTags ht, Tag.withoutVariant_eq_self hplain.1]
        rw [List.filter_map, ← hcontents]
        congr 1
        exact List.filter_congr fun vs _ => Bool.eq_iff_iff.mpr (by simp [over_cons, hname])
      rw [places, List.filter_append, List.filter_flatMap, filter_places_eq_nil hplainNext hfresh,
        List.append_nil, along_self, selections, List.flatMap_congr hhead, nodeTags_eq,
        List.flatMap_map, List.map_flatMap]
      simp only [List.map_map]
      rfl
    · obtain ⟨top, htop, u, hu, us, rfl⟩ := exists_of_mem_places hus
      obtain rfl := List.mem_singleton.mp hu
      have hne : e.tag ≠ top.tag := fun heq => hfresh (List.mem_map.mpr ⟨top, htop, heq.symm⟩)
      have hnone : (places nodeTags (.single e below)).filter (Tag.over (top.tag :: us)) = [] :=
        filter_places_eq_nil (Forest.forall_labels_tree.mpr ⟨hplain, hplainBelow, by rintro _ ⟨⟩⟩)
          (by simpa [Forest.single, Forest.tops] using hne.symm)
      rw [Forest.single, places, places, List.append_nil] at hnone
      rw [places, List.filter_append, hnone, along_next hne, hn hplainNext hnext htops hus,
        List.nil_append]

/-! ### Different choices -/

/-- Whether the choices of an element's vocabulary have keys of their own. -/
def HasKeys (e : Element) : Prop :=
  ∀ v, e.vocabulary = some v → (v.choices.map Choice.variantKey).Nodup

theorem mem_options_iff {c : Option Choice} : c ∈ e.options ↔
    match e.vocabulary with
    | none => c = none
    | some v => ∃ x ∈ v.choices, some x = c := by
  rw [options]
  cases e.vocabulary with
  | none => exact List.mem_singleton
  | some v => exact List.mem_map

theorem HasKeys.nodup_options (h : e.HasKeys) : e.options.Nodup := by
  rw [options]
  cases hv : e.vocabulary with
  | none => exact List.nodup_singleton _
  | some v => exact (List.Nodup.of_map _ (h v hv)).map fun _ _ => Option.some.inj

theorem HasKeys.eq_of_choosing (h : e.HasKeys) {c c' : Option Choice} (hc : c ∈ e.options)
    (hc' : c' ∈ e.options) (heq : t.choosing c = t.choosing c') : c = c' := by
  rw [mem_options_iff] at hc hc'
  cases hv : e.vocabulary with
  | none =>
    rw [hv] at hc hc'
    exact hc.trans hc'.symm
  | some v =>
    rw [hv] at hc hc'
    obtain ⟨x, hx, rfl⟩ := hc
    obtain ⟨x', hx', rfl⟩ := hc'
    have hkey : x.variantKey = x'.variantKey := Option.some.inj (congrArg Tag.variant heq)
    rw [List.inj_on_of_nodup_map (h v hv) hx hx' hkey]

theorem length_along : (along f ts).length ≤ ts.length := by
  fun_induction along f ts with
  | case1 => exact Nat.zero_le _
  | case2 => exact Nat.zero_le _
  | case3 _ _ _ _ ih => exact Nat.succ_le_succ ih
  | case4 _ _ _ _ _ _ ih => exact ih

theorem mem_labels_of_mem_along : ∀ e ∈ along f ts, e ∈ f.labels := by
  fun_induction along f ts with
  | case1 => simp
  | case2 => simp
  | case3 e below next ts ih =>
    refine List.forall_mem_cons.mpr ⟨List.mem_cons_self, fun e' he' => ?_⟩
    exact Forest.mem_labels_of_mem_below (ih e' he')
  | case4 _ _ _ _ _ _ ih => exact fun e' he' => Forest.mem_labels_of_mem_next (ih e' he')

theorem nodup_selections : ∀ {es : List Element}, (∀ e ∈ es, e.HasKeys) → (selections es).Nodup
  | [], _ => List.nodup_singleton _
  | e :: es, h => by
    obtain ⟨he, hes⟩ := List.forall_mem_cons.mp h
    rw [selections, List.nodup_flatMap]
    refine ⟨fun c _ => (nodup_selections hes).map (List.cons_injective), ?_⟩
    refine he.nodup_options.imp fun {c c'} hne => ?_
    rintro _ hcs hcs'
    obtain ⟨_, -, rfl⟩ := List.mem_map.mp hcs
    obtain ⟨_, -, heq⟩ := List.mem_map.mp hcs'
    exact hne (List.cons.inj heq).1.symm

/-- Different choices lead to different places. -/
theorem eq_of_choosingAll : ∀ {es : List Element} {ts : List Tag} {cs cs' : List (Option Choice)},
    (∀ e ∈ es, e.HasKeys) → es.length ≤ ts.length → Chooses es cs → Chooses es cs' →
      Tag.choosingAll ts cs = Tag.choosingAll ts cs' → cs = cs'
  | [], _, _, _, _, _, .nil, .nil, _ => rfl
  | e :: es, t :: ts, c :: cs, c' :: cs', hkeys, hlength, .cons hc hcs, .cons hc' hcs', heq => by
    obtain ⟨he, hes⟩ := List.forall_mem_cons.mp hkeys
    obtain ⟨hhead, htail⟩ := List.cons.inj heq
    rw [he.eq_of_choosing hc hc' hhead,
      eq_of_choosingAll hes (Nat.le_of_succ_le_succ hlength) hcs hcs' htail]

/-- The places of the ways to choose along a path differ. -/
theorem nodup_choosingAll (h : ∀ e ∈ f.labels, e.HasKeys) :
    ((selections (along f ts)).map (Tag.choosingAll ts)).Nodup := by
  have hkeys : ∀ e ∈ along f ts, e.HasKeys := fun e he => h e (mem_labels_of_mem_along e he)
  refine (nodup_selections hkeys).map_on fun cs hcs cs' hcs' => ?_
  rw [mem_selections_iff] at hcs hcs'
  exact eq_of_choosingAll hkeys length_along hcs hcs'

end Element

/-! ### Instances -/

/-- The elements along a path of a record definition, itself included. -/
def Record.along (r : Record) (p : Path) : List Element := Element.along r.elements p.tags

/-- The vocabularies of the elements along a path. -/
def Record.vocabulariesAlong (r : Record) (p : Path) : List Vocabulary :=
  (r.along p).filterMap Element.vocabulary

namespace MappingTree

variable {d : Declaration} {r : Record} {p : Path}

/-- Whether the nodes over a schema path stand for the ways to choose at the elements along it: there are
as many nodes as ways, every node is that of one way, and every way is that of one node. -/
structure Expands (t : MappingTree) (r : Record) (p : Path) : Prop where
  count : t.nodes.countP (fun n => n.path.withoutVariants == p) =
    ((r.vocabulariesAlong p).map fun v => v.choices.length).prod
  chosen : ∀ n ∈ t.nodes, n.path.withoutVariants = p →
    ∃! cs, Element.Chooses (r.along p) cs ∧ n.path = p.choosing cs
  node : ∀ cs, Element.Chooses (r.along p) cs →
    ∃! i : Nat, ∃ n, t.nodes[i]? = some n ∧ n.path.withoutVariants = p ∧ n.path = p.choosing cs

theorem valid_of_mem (h : d.resolve = .ok r) :
    ∀ e ∈ r.elements.labels, ∀ v, e.vocabulary = some v → v.Valid := by
  intro e he
  obtain ⟨_, hvalid⟩ := (d.each_valid h).of_mem_labels e he
  exact hvalid

theorem exists_mem_options (h : d.resolve = .ok r) (e : Element) (he : e ∈ r.elements.labels) :
    ∃ c, c ∈ e.options := by
  rw [Element.options]
  cases hv : e.vocabulary with
  | none => exact ⟨none, List.mem_cons_self⟩
  | some v =>
    obtain ⟨c, hc⟩ := List.exists_mem_of_ne_nil _ (valid_of_mem h e he v hv).nonempty
    exact ⟨some c, List.mem_map_of_mem hc⟩

/-- There is a way to choose along every path. -/
theorem exists_chooses (h : d.resolve = .ok r) (p : Path) :
    ∃ cs, Element.Chooses (r.along p) cs := by
  have hoption : ∀ e ∈ r.along p, ∃ c, c ∈ e.options := fun e he =>
    exists_mem_options h e (Element.mem_labels_of_mem_along e he)
  generalize r.along p = es at hoption
  induction es with
  | nil => exact ⟨[], .nil⟩
  | cons e es ih =>
    obtain ⟨⟨c, hc⟩, hes⟩ := List.forall_mem_cons.mp hoption
    obtain ⟨cs, hcs⟩ := ih hes
    exact ⟨c :: cs, .cons hc hcs⟩

/-- The nodes over a schema path have the paths of the ways to choose along it, in the same order. -/
theorem paths_over (h : d.resolve = .ok r) (hplain : ∀ e ∈ r.elements.labels, e.Plain)
    (hp : p ∈ r.paths) :
    ((ofRecord r).nodes.filter fun n => n.path.withoutVariants == p).map Node.path =
      (Element.selections (r.along p)).map p.choosing := by
  have hmem : p.tags ∈ Element.ownPlaces r.elements := by
    obtain ⟨ts, hts, htags⟩ := Element.mem_pathsOf_iff.mp hp
    rwa [htags]
  have hplaces : (ofRecord r).nodes.map (·.path.tags) = Element.places Element.nodeTags r.elements :=
    Instance.places_nodes.trans (by simp [Path.root])
  have hover (n : Node) : (n.path.withoutVariants == p) = Tag.over p.tags n.path.tags := by
    rw [Bool.eq_iff_iff, beq_iff_eq, Tag.over, beq_iff_eq]
    exact ⟨congrArg Path.tags, Path.ext_tags⟩
  refine List.map_injective_iff.mpr (fun _ _ => Path.ext_tags) ?_
  calc (((ofRecord r).nodes.filter fun n => n.path.withoutVariants == p).map Node.path).map Path.tags
      = ((ofRecord r).nodes.map (·.path.tags)).filter (Tag.over p.tags) := by
        simp only [List.map_map, List.filter_map, hover]
        rfl
    _ = (Element.selections (r.along p)).map (Tag.choosingAll p.tags) := by
      rw [hplaces]
      exact Element.filter_places hplain (d.nodup_childTags h) (List.nodup_singleton _) hmem
    _ = ((Element.selections (r.along p)).map p.choosing).map Path.tags := by
      rw [List.map_map]
      rfl

theorem nodup_choosing (h : d.resolve = .ok r) (p : Path) :
    ((Element.selections (r.along p)).map p.choosing).Nodup := by
  have hkeys : ∀ e ∈ r.elements.labels, e.HasKeys := fun e he v hv => (valid_of_mem h e he v hv).keys
  refine List.Nodup.of_map Path.tags ?_
  rw [List.map_map]
  exact Element.nodup_choosingAll hkeys

/-- No two nodes have one path. -/
theorem nodup_paths (h : d.resolve = .ok r) (hplain : ∀ e ∈ r.elements.labels, e.Plain) :
    ((ofRecord r).nodes.map Node.path).Nodup := by
  rw [List.nodup_iff_count_le_one]
  intro q
  by_cases hq : q ∈ (ofRecord r).nodes.map Node.path
  · have hpath : q.withoutVariants ∈ r.paths := by
      obtain ⟨n, hn, rfl⟩ := List.mem_map.mp hq
      exact Instance.mem_pathsOf_of_mem_nodes hplain n hn
    have hnodup := nodup_choosing h q.withoutVariants
    rw [← paths_over h hplain hpath] at hnodup
    have hcount : List.count q (((ofRecord r).nodes.map Node.path).filter
        fun p => p.withoutVariants == q.withoutVariants) ≤ 1 := by
      rw [List.filter_map]
      exact List.nodup_iff_count_le_one.mp hnodup q
    rwa [List.count_filter (by simp)] at hcount
  · rw [List.count_eq_zero_of_not_mem hq]
    exact Nat.zero_le 1

/-- The nodes over a schema path stand for the ways to choose along it. -/
theorem expands_of_mem (h : d.resolve = .ok r) (hplain : ∀ e ∈ r.elements.labels, e.Plain)
    (hp : p ∈ r.paths) : (ofRecord r).Expands r p := by
  have hpaths := paths_over h hplain hp
  have hover : ∀ q, (∃ n ∈ (ofRecord r).nodes, n.path.withoutVariants = p ∧ n.path = q) ↔
      ∃ cs, Element.Chooses (r.along p) cs ∧ p.choosing cs = q := by
    intro q
    have hmem := congrArg (q ∈ ·) hpaths
    simpa [Element.mem_selections_iff, and_assoc] using hmem
  have hchoosing : ∀ cs cs', Element.Chooses (r.along p) cs → Element.Chooses (r.along p) cs' →
      p.choosing cs = p.choosing cs' → cs = cs' := by
    intro cs cs' hcs hcs'
    rw [← Element.mem_selections_iff] at hcs hcs'
    exact List.inj_on_of_nodup_map (nodup_choosing h p) hcs hcs'
  refine ⟨?_, ?_, ?_⟩
  · rw [List.countP_eq_length_filter, ← List.length_map Node.path, hpaths, List.length_map,
      Element.length_selections]
    rfl
  · intro n hn hstripped
    obtain ⟨cs, hcs, hpath⟩ := (hover n.path).mp ⟨n, hn, hstripped, rfl⟩
    refine ⟨cs, ⟨hcs, hpath.symm⟩, ?_⟩
    rintro cs' ⟨hcs', hpath'⟩
    exact hchoosing cs' cs hcs' hcs (hpath'.symm.trans hpath.symm)
  · intro cs hcs
    obtain ⟨n, hn, hstripped, hpath⟩ := (hover _).mpr ⟨cs, hcs, rfl⟩
    obtain ⟨i, hi⟩ := List.getElem?_of_mem hn
    refine ⟨i, ⟨n, hi, hstripped, hpath⟩, ?_⟩
    rintro j ⟨n', hj, -, hpath'⟩
    have hat := nodeAt?_path_iff.mpr (nodup_paths h hplain)
    have hsame : some j = some i := by rw [← hat j n' hj, hpath', ← hpath, hat i n hi]
    exact Option.some.inj hsame

/-- An instance is the expansion of its record definition: its nodes stand over the schema paths, and
those over one path for the ways to choose an option of every vocabulary along it. The tags of the record
definition have no variant keys. -/
theorem expands_ofRecord (h : d.resolve = .ok r) (hplain : ∀ e ∈ r.elements.labels, e.Plain) :
    (∀ p, p ∈ r.paths ↔ ∃ n ∈ (ofRecord r).nodes, n.path.withoutVariants = p) ∧
      ∀ p ∈ r.paths, (ofRecord r).Expands r p := by
  refine ⟨fun p => ⟨fun hp => ?_, ?_⟩, fun p => expands_of_mem h hplain⟩
  · obtain ⟨cs, hcs⟩ := exists_chooses h p
    obtain ⟨i, ⟨n, hn, hstripped, -⟩, -⟩ := (expands_of_mem h hplain hp).node cs hcs
    exact ⟨n, List.mem_of_getElem? hn, hstripped⟩
  · rintro ⟨n, hn, rfl⟩
    exact Instance.mem_pathsOf_of_mem_nodes hplain n hn

end MappingTree

/-- A record of a volume of one of two types, with a part of one of two types that has a code. -/
def volumeDeclaration : Declaration where
  root := { tag := .elem none "record" }
  content :=
    .elem
      { tag := .elem none "volume"
        vocabulary := some
          { dictionary := "volumes"
            value := .elem none "type"
            choices := [{ value := "Book" }, { value := "Film" }] } }
      (.elem { tag := .elem none "type" } .nil
        (.elem
          { tag := .elem none "part"
            vocabulary := some
              { dictionary := "parts"
                value := .elem none "part"
                choices := [{ value := "First" }, { value := "Last" }] } }
          (.attr { tag := .attr none "code" } .nil) .nil))
      .nil

/-- Four nodes stand over the code of a part, one for each choice of a type and a part. -/
theorem volumeDeclaration_expands :
    let code := (Path.ofNames ["record", "volume", "part"]).child (.attr none "code")
    ∃ r, volumeDeclaration.resolve = .ok r ∧ (∀ e ∈ r.elements.labels, e.Plain) ∧
      (MappingTree.ofRecord r).Expands r code ∧
        (MappingTree.ofRecord r).nodes.countP (fun n => n.path.withoutVariants == code) = 2 * 2 := by
  intro code
  have hresolve : ∃ r, volumeDeclaration.resolve = .ok r ∧ (∀ e ∈ r.elements.labels, e.Plain) ∧
      code ∈ r.paths ∧
        (MappingTree.ofRecord r).nodes.countP (fun n => n.path.withoutVariants == code) = 2 * 2 :=
    ⟨_, by with_unfolding_all rfl, by decide, by decide, by decide⟩
  obtain ⟨r, hr, hplain, hcode, hcount⟩ := hresolve
  exact ⟨r, hr, hplain, (MappingTree.expands_ofRecord hr hplain).2 code hcode, hcount⟩

end Crosswalk
