import Crosswalk.Proofs.Inlining
import Crosswalk.Proofs.Padding
import Crosswalk.Proofs.Variants

/-!
Record definitions that grow. An element put among the child elements of another one comes to bare
trees in the instance, one for each node of the element around it. Their paths lie beneath the new
element's path once variant keys are left out, and no path of the old record definition does; so no
fixed position is there either. The new element has to have child elements beside it, for an element
that gets its first one is no leaf any longer.
-/

namespace Crosswalk

namespace Path

/-- Whether a path is that of a place in the schema, or beneath it, when variant keys are left
out. -/
def IsAtOrBeneath (p place : Path) : Prop := place.tags <+: p.withoutVariants.tags

variable {p q place : Path} {t u : Tag} {ts us : List Tag}

/-- A node's tag is that of its element but for the variant key, and so is the end of its path. -/
theorem withoutVariants_child (hp : p.withoutVariants = q)
    (ht : t.withoutVariant = u.withoutVariant) (hu : u.variant = none) : (p.child t).withoutVariants = q.child u := by
  refine ext_tags ?_
  rw [← hp, ← Tag.withoutVariant_eq_self hu, ← ht]
  simp [withoutVariants]

/-- Paths that part at a tag are not beneath one another. -/
theorem not_prefix_of_ne (hp : p.tags = place.tags ++ t :: ts) (hq : q.tags = place.tags ++ u :: us)
    (hne : t ≠ u) : ¬p.tags <+: q.tags := by
  rw [hp, hq, List.prefix_append_right_inj, List.cons_prefix_cons]
  exact fun h => hne h.1

end Path

/-! ### Elements put into a record definition -/

namespace Element

/-- Whether an element and its attributes are named by tags without variant keys. -/
def Plain (e : Element) : Prop :=
  e.tag.variant = none ∧ ∀ a ∈ e.attributes, a.tag.variant = none

instance (e : Element) : Decidable e.Plain := inferInstanceAs (Decidable (_ ∧ _))

/-- The tags of the attributes and of the child elements of an element. -/
def childTags (e : Element) (below : Forest Element) : List Tag :=
  e.attributes.map Attribute.tag ++ below.tops.map (·.tag)

/-- Whether some elements beneath `parent` become others by a new element with its content, put at
any place among the child elements of one that has some, and named by a tag that no attribute and no
child element there has. The path of the new element is `place`. -/
inductive Gains (added : Element) (content : Forest Element) (place : Path) :
    Path → Forest Element → Forest Element → Prop where
  | here {parent : Path} {e : Element} {before after next : Forest Element}
      (hchild : before ++ after ≠ .nil) (hfresh : added.tag ∉ e.childTags (before ++ after))
      (hplace : place = (parent.child e.tag).child added.tag) :
      Gains added content place parent (.tree e (before ++ after) next)
        (.tree e (before ++ (.single added content ++ after)) next)
  | inside {parent : Path} {e : Element} {below below' next : Forest Element}
      (h : Gains added content place (parent.child e.tag) below below') :
      Gains added content place parent (.tree e below next) (.tree e below' next)
  | later {parent : Path} {e : Element} {below next next' : Forest Element}
      (h : Gains added content place parent next next') :
      Gains added content place parent (.tree e below next) (.tree e below next')

variable {added : Element} {content : Forest Element} {place parent : Path}
  {f f' below : Forest Element} {e : Element} {q : Path}

theorem mem_pathsOf_tree {next : Forest Element} : q ∈ pathsOf parent (.tree e below next) ↔
    q ∈ e.pathsAt parent ∨ q ∈ pathsOf (parent.child e.tag) below ∨ q ∈ pathsOf parent next := by
  rw [pathsOf, List.mem_append, List.mem_append, or_assoc]

theorem mem_pathsAt : q ∈ e.pathsAt parent ↔
    (∃ a ∈ e.attributes, (parent.child e.tag).child a.tag = q) ∨ q = parent.child e.tag := by
  rw [pathsAt, List.mem_append, List.mem_map, List.mem_singleton]

theorem exists_tags_of_mem_pathsOf : ∀ {parent : Path}, q ∈ pathsOf parent f →
    ∃ top ∈ f.tops, ∃ ts, q.tags = parent.tags ++ top.tag :: ts := by
  induction f with
  | nil =>
    intro parent hq
    cases hq
  | tree e below next hb hn =>
    intro parent hq
    rw [mem_pathsOf_tree, mem_pathsAt] at hq
    obtain (⟨a, -, rfl⟩ | rfl) | hq | hq := hq
    · exact ⟨e, List.mem_cons_self, [a.tag], by simp⟩
    · exact ⟨e, List.mem_cons_self, [], by simp⟩
    · obtain ⟨top, -, ts, hts⟩ := hb hq
      exact ⟨e, List.mem_cons_self, top.tag :: ts, by simp [hts]⟩
    · obtain ⟨top, htop, ts, hts⟩ := hn hq
      exact ⟨top, List.mem_cons_of_mem _ htop, ts, hts⟩

section Place

variable {t : Tag} {ts : List Tag}

/-- No path goes through a tag that none of the top elements has. -/
theorem not_prefix_pathsOf (hplace : place.tags = parent.tags ++ t :: ts)
    (hfresh : t ∉ f.tops.map (·.tag)) : ∀ q ∈ pathsOf parent f, ¬place.tags <+: q.tags := by
  intro q hq
  obtain ⟨top, htop, us, hus⟩ := exists_tags_of_mem_pathsOf hq
  refine Path.not_prefix_of_ne hplace hus ?_
  rintro rfl
  exact hfresh (List.mem_map_of_mem htop)

/-- Nor is there an attribute at a tag that none of the attributes has. -/
theorem not_prefix_pathsAt (hplace : place.tags = (parent.child e.tag).tags ++ t :: ts)
    (hfresh : t ∉ e.attributes.map Attribute.tag) :
    ∀ q ∈ e.pathsAt parent, ¬place.tags <+: q.tags := by
  intro q hq
  obtain ⟨a, ha, rfl⟩ | rfl := mem_pathsAt.mp hq
  · refine Path.not_prefix_of_ne hplace (Path.tags_child ..) ?_
    rintro rfl
    exact hfresh (List.mem_map_of_mem ha)
  · intro hprefix
    have hlength := hprefix.length_le
    rw [hplace, List.length_append, List.length_cons] at hlength
    omega

end Place

namespace Gains

theorem isEmpty_eq (h : Gains added content place parent f f') : f'.isEmpty = f.isEmpty := by
  cases h <;> rfl

/-- The new element is not at the top. -/
theorem exists_tags_place (h : Gains added content place parent f f') :
    ∃ top ∈ f.tops, ∃ t ts, place.tags = parent.tags ++ top.tag :: t :: ts := by
  induction h with
  | @here parent e before after next _ _ hplace =>
    exact ⟨e, List.mem_cons_self, added.tag, [], by simp [hplace]⟩
  | @inside parent e _ _ _ _ ih =>
    obtain ⟨top, -, t, ts, hts⟩ := ih
    exact ⟨e, List.mem_cons_self, top.tag, t :: ts, by simp [hts]⟩
  | later _ ih =>
    obtain ⟨top, htop, t, ts, hts⟩ := ih
    exact ⟨top, List.mem_cons_of_mem _ htop, t, ts, hts⟩

/-- No path is that of the new element or beneath it. -/
theorem not_prefix (h : Gains added content place parent f f')
    (hdistinct : f.Each fun e below => (e.childTags below).Nodup)
    (htops : (f.tops.map (·.tag)).Nodup) : ∀ q ∈ pathsOf parent f, ¬place.tags <+: q.tags := by
  induction h with
  | @here parent e before after next _ hfresh hplace =>
    have htags : place.tags = (parent.child e.tag).tags ++ [added.tag] := by simp [hplace]
    have hthrough : place.tags = parent.tags ++ [e.tag, added.tag] := by simp [htags]
    rw [childTags, List.mem_append, not_or] at hfresh
    -- the new path leaves the others at the new tag, or at the tag of the element around it
    intro q hq
    obtain hq | hq | hq := mem_pathsOf_tree.mp hq
    · exact not_prefix_pathsAt htags hfresh.1 q hq
    · exact not_prefix_pathsOf htags hfresh.2 q hq
    · exact not_prefix_pathsOf hthrough (List.nodup_cons.mp htops).1 q hq
  | @inside parent e below below' next h ih =>
    obtain ⟨hedge, hbelow, -⟩ := hdistinct
    obtain ⟨-, hchildren, hapart⟩ := List.nodup_append.mp hedge
    obtain ⟨top, htop, t, ts, htags⟩ := h.exists_tags_place
    have hthrough : place.tags = parent.tags ++ e.tag :: top.tag :: t :: ts := by simp [htags]
    intro q hq
    obtain hq | hq | hq := mem_pathsOf_tree.mp hq
    · refine not_prefix_pathsAt htags (fun hmem => ?_) q hq
      exact hapart _ hmem _ (List.mem_map_of_mem htop) rfl
    · exact ih hbelow hchildren q hq
    · exact not_prefix_pathsOf hthrough (List.nodup_cons.mp htops).1 q hq
  | @later parent e below next next' h ih =>
    obtain ⟨he, hnodup⟩ := List.nodup_cons.mp htops
    obtain ⟨top, htop, t, ts, htags⟩ := h.exists_tags_place
    have hne : top.tag ∉ (Forest.single e below).tops.map (·.tag) := by
      rw [Forest.single, Forest.tops, Forest.tops, List.map_singleton, List.mem_singleton]
      exact fun heq => he (List.mem_map.mpr ⟨top, htop, heq⟩)
    intro q hq
    obtain hq | hq | hq := mem_pathsOf_tree.mp hq
    · exact not_prefix_pathsOf htags hne q (mem_pathsOf_tree.mpr (.inl hq))
    · exact not_prefix_pathsOf htags hne q (mem_pathsOf_tree.mpr (.inr (.inl hq)))
    · exact ih hdistinct.2.2 hnodup q hq

end Gains

end Element

/-! ### Fixed positions -/

namespace Vocabulary

variable {v : Vocabulary} {p : Path}

/-- A path that is no fixed position may be mapped. -/
theorem acceptsMappings_roleOf (h : ∀ x ∈ v.fixedPositions, x.2 ≠ p) :
    (v.roleOf p).acceptsMappings = true := by
  by_cases hroot : p = v.root
  · rw [roleOf, if_pos hroot]
    rfl
  · have hnone : v.fixedRole? p = none := by
      rw [fixedRole?, List.find?_eq_none.mpr fun x hx => by simpa using h x hx]
      rfl
    rw [roleOf_eq hroot, hnone]
    rfl

theorem mem_fixedPositions {x : Role × Path} (hx : x ∈ v.fixedPositions) :
    x.2 = v.valuePath ∨ x.2 ∈ v.declaredFields := by
  simp only [fixedPositions, List.mem_cons, List.mem_append, List.mem_map, Option.mem_toList] at hx
  rw [declaredFields, List.mem_filterMap]
  obtain rfl | (⟨p, hp, rfl⟩ | ⟨p, hp, rfl⟩) | ⟨p, hp, rfl⟩ := hx
  · exact .inl rfl
  · exact .inr ⟨v.key, by simp, hp⟩
  · exact .inr ⟨v.schema, by simp, hp⟩
  · exact .inr ⟨v.schemaUri, by simp, hp⟩

end Vocabulary

namespace Resolution

theorem mem_of_checkKnown {known : List Path} {ps : List (PathUse × Path)}
    (h : checkKnown known ps = .ok ()) : ∀ x ∈ ps, x.2 ∈ known := by
  induction ps with
  | nil => simp
  | cons x ps ih =>
    rw [checkKnown] at h
    split at h
    · next hx => exact List.forall_mem_cons.mpr ⟨hx, ih h⟩
    · cases h

end Resolution

namespace Declaration

variable {d : Declaration} {r : Record}

/-- The tags of what an element holds differ. -/
theorem nodup_childTags (h : d.resolve = .ok r) :
    r.elements.Each fun e below => (e.childTags below).Nodup := by
  refine d.each_of_resolve d.all_true (fun _ _ _ _ _ _ hhead => ?_) h
  obtain ⟨-, hattributes, htags, -⟩ := Resolution.element_eq_ok hhead
  rw [Element.childTags, hattributes]
  exact htags

/-- The fixed positions of a vocabulary are paths of the record definition. -/
theorem mem_paths_of_fixedPositions (h : d.resolve = .ok r) {e : Element}
    (he : e ∈ r.elements.labels) {v : Vocabulary} (hv : e.vocabulary = some v) :
    ∀ x ∈ v.fixedPositions, x.2 ∈ r.paths := by
  obtain ⟨-, _, _, -, hknown, -⟩ := resolve_eq_ok_iff.mp h
  have hnamed := Resolution.mem_of_checkKnown hknown
  intro x hx
  have hvocabulary : v ∈ r.vocabularies := List.mem_filterMap.mpr ⟨e, he, hv⟩
  have hmem {use : PathUse} {p : Path} (hp : (use, p) ∈ Resolution.namedByVocabulary v) :
      p ∈ r.paths :=
    hnamed (use, p) (List.mem_append_right _ (List.mem_flatMap.mpr ⟨v, hvocabulary, hp⟩))
  obtain hx | hx := Vocabulary.mem_fixedPositions hx
  · rw [hx]
    exact hmem List.mem_cons_self
  · exact hmem (List.mem_cons_of_mem _ (List.mem_map_of_mem hx))

end Declaration

/-! ### Nodes of the new element -/

namespace Instance

variable {added : Element} {content f f' : Forest Element} {place parent : Path}
  {variant : Option Variant}

theorem labels_attributeNodes {path : Path} {as : List Attribute} :
    (attributeNodes path variant as).labels = as.map (attributeNode path variant) := by
  induction as with
  | nil => rfl
  | cons a as ih =>
    rw [attributeNodes, Forest.labels, Forest.labels, List.nil_append, ih, List.map_cons]

/-- Elements without vocabularies stay in the variant that they are in. -/
theorem membership_of_plain {f : Forest Element} (h : ∀ e ∈ f.labels, e.vocabulary = none) :
    ∀ {parent : Path} {first : Nat}, ∀ n ∈ (nodes parent variant first f).labels,
      n.membership = variant.map (·.membershipAt n.path) := by
  induction f with
  | nil => simp [nodes, Forest.labels]
  | tree e below next hb hn =>
    obtain ⟨he, hbelow, hnext⟩ := Forest.forall_labels_tree.mp h
    intro parent first
    rw [nodes, he]
    refine Forest.forall_labels_tree.mpr ⟨rfl, ?_, hn hnext⟩
    rw [Forest.labels_append, labels_attributeNodes, List.forall_mem_append, List.forall_mem_map]
    exact ⟨fun a _ => rfl, hb hbelow⟩

/-- Elements without vocabularies are not expanded. -/
theorem expansions_of_plain {f : Forest Element} (h : ∀ e ∈ f.labels, e.vocabulary = none) :
    expansions f = 0 := by
  induction f with
  | nil => rfl
  | tree e below next hb hn =>
    obtain ⟨he, hbelow, hnext⟩ := Forest.forall_labels_tree.mp h
    rw [expansions, he, hb hbelow, hn hnext]

/-- Whether no fixed position of the variant that nodes are in lies at or beneath a place. -/
def FreeAt (place : Path) (variant : Option Variant) : Prop :=
  ∀ w ∈ variant, ∀ x ∈ w.vocabulary.fixedPositions, ¬place.tags <+: x.2.tags

theorem bare_of_mem_nodes
    (hcontent : ∀ e ∈ (Forest.single added content).labels, e.vocabulary = none)
    (hadded : added.tag.variant = none) (hplace : place = parent.withoutVariants.child added.tag)
    (hfree : FreeAt place variant) {first : Nat} :
    ∀ n ∈ (nodes parent variant first (.single added content)).labels,
      n.Bare ∧ n.path.IsAtOrBeneath place := by
  intro n hn
  have hbeneath : n.path.IsAtOrBeneath place := by
    obtain ⟨top, htop, ts, hts⟩ := Forest.LaidOut.tags_of_mem laidOut_nodes n hn
    have htag : top.tag = added.tag := by
      have hmem := List.mem_map_of_mem (f := Node.tag) htop
      rw [tags_tops_nodes, Forest.single, Forest.tops, Forest.tops, List.flatMap_singleton,
        Element.nodeTags, hcontent added List.mem_cons_self] at hmem
      exact List.mem_singleton.mp hmem
    rw [Path.IsAtOrBeneath, hplace]
    simp [Path.withoutVariants, hts, htag, Tag.withoutVariant_eq_self hadded]
  refine ⟨⟨mappings_nodes n hn, ?_⟩, hbeneath⟩
  rw [Node.fixedMembership?, membership_of_plain hcontent n hn]
  cases variant with
  | none => rfl
  | some w =>
    have hunfixed : ∀ x ∈ w.vocabulary.fixedPositions, x.2 ≠ n.path.withoutVariants :=
      fun x hx heq => hfree w rfl x hx (heq ▸ hbeneath)
    have haccepts := Vocabulary.acceptsMappings_roleOf hunfixed
    simp [Variant.membershipAt, Variant.withRole, haccepts]

/-! ### Instances of what grows -/

/-- Trees that are put in further on are put in behind the trees of the first element. -/
theorem pads_next {spare : Node → Prop} {opened : Bool} {e : Element}
    {below next next' : Forest Element} {first : Nat}
    (h : ∀ {first : Nat}, (nodes parent variant first next).Pads spare opened
      (nodes parent variant first next')) :
    (nodes parent variant first (.tree e below next)).Pads spare opened
      (nodes parent variant first (.tree e below next')) := by
  have hsplit (rest : Forest Element) : nodes parent variant first (.tree e below rest) =
      nodes parent variant first (.single e below) ++
        nodes parent variant (first + expansions (.single e below)) rest := nodes_tree
  rw [hsplit next, hsplit next']
  exact .append (.refl _) h

section Put

variable (hcontent : ∀ e ∈ (Forest.single added content).labels, e.vocabulary = none)

include hcontent

theorem expansions_put (before after : Forest Element) :
    expansions (before ++ (.single added content ++ after)) = expansions (before ++ after) := by
  induction before with
  | nil =>
    obtain ⟨hadded, hbelow, -⟩ := Forest.forall_labels_tree.mp hcontent
    rw [Forest.nil_append, Forest.nil_append, Forest.single, Forest.tree_append, Forest.nil_append,
      expansions, hadded, expansions_of_plain hbelow]
    exact Nat.zero_add _
  | tree e below next _ hn =>
    rw [Forest.tree_append, Forest.tree_append, expansions, expansions, hn]

theorem expansions_gains (h : Element.Gains added content place parent f f') :
    expansions f' = expansions f := by
  induction h with
  | here => rw [expansions, expansions, expansions_put hcontent]
  | inside _ ih => rw [expansions, expansions, ih]
  | later _ ih => rw [expansions, expansions, ih]

/-- The nodes of a new element among others are put in among theirs. -/
theorem pads_put (hadded : added.tag.variant = none)
    (hplace : place = parent.withoutVariants.child added.tag) (hfree : FreeAt place variant)
    (before after : Forest Element) : ∀ {first : Nat},
      (nodes parent variant first (before ++ after)).Pads
        (fun n => n.Bare ∧ n.path.IsAtOrBeneath place) true
        (nodes parent variant first (before ++ (.single added content ++ after))) := by
  induction before with
  | nil =>
    intro first
    have hnone : expansions (.single added content) = 0 := expansions_of_plain hcontent
    rw [Forest.nil_append, Forest.nil_append, Forest.single, Forest.tree_append, Forest.nil_append,
      nodes_tree, hnone, Nat.add_zero]
    exact .putAll (bare_of_mem_nodes hcontent hadded hplace hfree) (.refl _)
  | tree e below next _ hn =>
    intro first
    rw [Forest.tree_append, Forest.tree_append]
    exact pads_next hn

end Put

theorem isEmpty_put {before after : Forest Element} (h : before ++ after ≠ .nil) :
    (before ++ (.single added content ++ after)).isEmpty = (before ++ after).isEmpty := by
  cases before with
  | tree => rfl
  | nil =>
    cases after with
    | tree => rfl
    | nil => exact absurd rfl h

/-- An element has the same nodes when what is put in is put in below each of them: the one of the
element, or those of the choices of its vocabulary. -/
theorem pads_below {spare : Node → Prop} {e : Element} {below below' next : Forest Element}
    (hempty : below'.isEmpty = below.isEmpty) (hexpansions : expansions below' = expansions below)
    (hfree : FreeAt place variant) (hfixed : ∀ v, e.vocabulary = some v →
      ∀ x ∈ v.fixedPositions, ¬place.tags <+: x.2.tags)
    (h : ∀ {t : Tag} {variant : Option Variant} {first : Nat},
      t.withoutVariant = e.tag.withoutVariant → FreeAt place variant →
        (nodes (parent.child t) variant first below).Pads spare true
          (nodes (parent.child t) variant first below')) {first : Nat} :
    (nodes parent variant first (.tree e below next)).Pads spare false
      (nodes parent variant first (.tree e below' next)) := by
  rw [nodes, nodes, hempty, hexpansions]
  split
  · exact .tree (.append (.refl _) (h rfl hfree)) (.refl _)
  · next v hv =>
    refine .append (.join fun w hw => ?_) (.refl _)
    have hfree : FreeAt place (some w) := by
      rintro _ ⟨⟩
      rw [(of_mem_variants hw).2]
      exact hfixed v hv
    exact .tree (.append (.refl _) (h rfl hfree)) .nil

/-- The instance of elements that grow becomes that of the others by bare trees put in. -/
theorem pads_nodes (hcontent : ∀ e ∈ (Forest.single added content).labels, e.vocabulary = none)
    (hadded : added.tag.variant = none) (h : Element.Gains added content place parent f f')
    (hplain : ∀ e ∈ f.labels, e.tag.variant = none)
    (hfixed : ∀ e ∈ f.labels, ∀ v, e.vocabulary = some v →
      ∀ x ∈ v.fixedPositions, ¬place.tags <+: x.2.tags) :
    ∀ {path : Path} {variant : Option Variant} {first : Nat}, path.withoutVariants = parent →
      FreeAt place variant → (nodes path variant first f).Pads
        (fun n => n.Bare ∧ n.path.IsAtOrBeneath place) false (nodes path variant first f') := by
  -- the nodes of one element lie at several paths, which are all `parent` without their keys
  induction h with
  | @here parent e before after next hchild _ hplace =>
    obtain ⟨he, -, -⟩ := Forest.forall_labels_tree.mp hplain
    obtain ⟨hfixed, -, -⟩ := Forest.forall_labels_tree.mp hfixed
    intro path variant first hpath hfree
    refine pads_below (isEmpty_put hchild) (expansions_put hcontent before after) hfree hfixed
      fun ht hfree => ?_
    rw [← Path.withoutVariants_child hpath ht he] at hplace
    exact pads_put hcontent hadded hplace hfree before after
  | @inside parent e below below' next h ih =>
    obtain ⟨he, hplainBelow, -⟩ := Forest.forall_labels_tree.mp hplain
    obtain ⟨hfixed, hfixedBelow, -⟩ := Forest.forall_labels_tree.mp hfixed
    intro path variant first hpath hfree
    refine pads_below h.isEmpty_eq (expansions_gains hcontent h) hfree hfixed fun ht hfree => ?_
    have hpath := Path.withoutVariants_child hpath ht he
    exact (ih hplainBelow hfixedBelow hpath hfree).toOpened
  | @later parent e below next next' h ih =>
    obtain ⟨-, -, hplainNext⟩ := Forest.forall_labels_tree.mp hplain
    obtain ⟨-, -, hfixedNext⟩ := Forest.forall_labels_tree.mp hfixed
    intro path variant first hpath hfree
    exact pads_next (ih hplainNext hfixedNext hpath hfree)

/-! ### Schema paths -/

section Paths

variable {e : Element} {below next : Forest Element} {first : Nat}

theorem mem_pathsAt_of_mem_attributeNodes {path : Path}
    (has : ∀ a ∈ e.attributes, a.tag.variant = none)
    (hpath : path.withoutVariants = parent.child e.tag) :
    ∀ n ∈ (attributeNodes path variant e.attributes).labels,
      n.path.withoutVariants ∈ e.pathsAt parent := by
  rw [labels_attributeNodes, List.forall_mem_map]
  intro a ha
  have hchild := Path.withoutVariants_child (t := a.tag) hpath rfl (has a ha)
  exact Element.mem_pathsAt.mpr (.inl ⟨a, ha, hchild.symm⟩)

/-- A node of an element and the nodes below it have paths of the element's tree. -/
theorem mem_pathsOf_of_mem_tree {root : Node} (has : ∀ a ∈ e.attributes, a.tag.variant = none)
    (hroot : root.path.withoutVariants = parent.child e.tag)
    (hbelow : ∀ n ∈ (nodes root.path variant first below).labels,
      n.path.withoutVariants ∈ Element.pathsOf root.path.withoutVariants below) :
    ∀ n ∈ (Forest.single root (attributeNodes root.path variant e.attributes
        ++ nodes root.path variant first below)).labels,
      n.path.withoutVariants ∈ Element.pathsOf parent (.tree e below next) := by
  refine Forest.forall_labels_tree.mpr ⟨?_, ?_, by simp [Forest.labels]⟩
  · exact Element.mem_pathsOf_tree.mpr (.inl (Element.mem_pathsAt.mpr (.inr hroot)))
  · rw [Forest.labels_append, List.forall_mem_append]
    rw [hroot] at hbelow
    exact ⟨fun n hn => Element.mem_pathsOf_tree.mpr
        (.inl (mem_pathsAt_of_mem_attributeNodes has hroot n hn)),
      fun n hn => Element.mem_pathsOf_tree.mpr (.inr (.inl (hbelow n hn)))⟩

end Paths

/-- Without their variant keys the paths of an instance are schema paths. -/
theorem mem_pathsOf_of_mem_nodes {f : Forest Element} (hplain : ∀ e ∈ f.labels, e.Plain) :
    ∀ {parent : Path} {variant : Option Variant} {first : Nat},
      ∀ n ∈ (nodes parent variant first f).labels,
        n.path.withoutVariants ∈ Element.pathsOf parent.withoutVariants f := by
  induction f with
  | nil => simp [nodes, Forest.labels]
  | tree e below next hb hn =>
    obtain ⟨⟨he, has⟩, hbelow, hnext⟩ := Forest.forall_labels_tree.mp hplain
    intro parent variant first
    have hroot (tag : Tag) (ht : tag.withoutVariant = e.tag.withoutVariant) :
        (parent.child tag).withoutVariants = parent.withoutVariants.child e.tag :=
      Path.withoutVariants_child rfl ht he
    rw [nodes_tree, Forest.labels_append, List.forall_mem_append]
    refine ⟨?_, fun n hmem => Element.mem_pathsOf_tree.mpr (.inr (.inr (hn hnext n hmem)))⟩
    rw [Forest.single, nodes]
    split
    · exact mem_pathsOf_of_mem_tree has (hroot e.tag rfl) (hb hbelow)
    · rw [nodes, Forest.append_nil]
      intro n hmem
      obtain ⟨g, hg, hmem⟩ := mem_labels_join.mp hmem
      obtain ⟨w, -, rfl⟩ := List.mem_map.mp hg
      exact mem_pathsOf_of_mem_tree has (hroot (e.tag.withVariant _) rfl) (hb hbelow) n hmem

end Instance

/-! ### Programs -/

/-- Whether a record definition becomes another by a new element with its content, whose path is
`place`, put among the child elements of an element that has some. -/
structure Record.Gains (r : Record) (added : Element) (content : Forest Element) (place : Path)
    (r' : Record) : Prop where
  same : r' = { r with below := r'.below }
  elements : Element.Gains added content place Path.root r.elements r'.elements

namespace MappingTree

variable {d : Declaration} {r r' : Record} {added : Element} {content : Forest Element}
  {place : Path}

/-- The instance of a record definition that grows becomes that of the other by bare trees put
in. -/
theorem pads_ofRecord (h : d.resolve = .ok r) (hplain : ∀ e ∈ r.elements.labels, e.Plain)
    (hgains : r.Gains added content place r') (hadded : added.tag.variant = none)
    (hcontent : ∀ e ∈ (Forest.single added content).labels, e.vocabulary = none) :
    (ofRecord r).Pads (·.IsAtOrBeneath place) (ofRecord r') := by
  have hfresh : ∀ q ∈ r.paths, ¬place.tags <+: q.tags :=
    hgains.elements.not_prefix (d.nodup_childTags h) (List.nodup_singleton _)
  refine ⟨?_, ?_, fun n hn => hfresh _ (Instance.mem_pathsOf_of_mem_nodes hplain n hn)⟩
  · rw [hgains.same]
    rfl
  · refine Instance.pads_nodes hcontent hadded hgains.elements (fun e he => (hplain e he).1)
      (fun e he v hv x hx => hfresh _ (d.mem_paths_of_fixedPositions h he hv x hx)) rfl ?_
    rintro _ ⟨⟩

/-- Mappings that can be attached to the instance of a record definition can still be attached when
the record definition has grown by an element, and what is generated from them stays as it is. The
tags of the record definition and that of the new element have no variant keys, and there is no
vocabulary at the new element or below it. -/
theorem program_of_gains (h : d.resolve = .ok r) (hplain : ∀ e ∈ r.elements.labels, e.Plain)
    (hgains : r.Gains added content place r') (hadded : added.tag.variant = none)
    (hcontent : ∀ e ∈ (Forest.single added content).labels, e.vocabulary = none) {ms : List Mapping}
    {t : MappingTree} (ht : (ofRecord r).attachAll ms = .ok t) :
    ∃ t', (ofRecord r').attachAll ms = .ok t' ∧
      ∀ snippets focus, t'.program snippets focus = t.program snippets focus := by
  obtain ⟨t', ht', hpads⟩ := (pads_ofRecord h hplain hgains hadded hcontent).attachAll ht
  exact ⟨t', ht', hpads.program⟩

end MappingTree

/-- A note with a language. -/
def noteElement : Element where
  tag := .elem none "note"
  attributes := [{ tag := .attr none "lang" }]

/-- The text of a note. -/
def noteContent : Forest Element := .single { tag := .elem none "text" } .nil

/-- The record of a type with a part, grown by a note between the value of the type and the part. -/
def notedRecord : Record :=
  { partRecord with
    below :=
      match partRecord.below with
      | .tree type (.tree value below after) next =>
        .tree type (.tree value below (.tree noteElement noteContent after)) next
      | f => f }

/-- Mappings onto the type and the code of its part. -/
def partMappings : List Mapping :=
  let type := (Path.ofNames ["record"]).child ((Tag.elem none "type").withVariant "Book")
  let part := type.child ((Tag.elem none "part").withVariant "Cover")
  [{ output := type, input := .ofNames ["m", "t"] },
    { output := part.child (.attr none "code"), input := .ofNames ["m", "c"] }]

/-- A note beside the part of a type changes nothing in the program for the type and its part. -/
theorem partMappings_noted :
    partDeclaration.resolve = .ok partRecord ∧ (∀ e ∈ partRecord.elements.labels, e.Plain) ∧
      partRecord.Gains noteElement noteContent (.ofNames ["record", "type", "note"]) notedRecord ∧
      ∃ t, (MappingTree.ofRecord partRecord).attachAll partMappings = .ok t ∧
        ∃ t', (MappingTree.ofRecord notedRecord).attachAll partMappings = .ok t' ∧
          ∀ snippets focus, t'.program snippets focus = t.program snippets focus := by
  have hresolve : partDeclaration.resolve = .ok partRecord := by with_unfolding_all rfl
  have hplain : ∀ e ∈ partRecord.elements.labels, e.Plain := by decide
  have hgains : partRecord.Gains noteElement noteContent (.ofNames ["record", "type", "note"])
      notedRecord := by
    refine ⟨rfl, .inside ?_⟩
    exact @Element.Gains.here _ _ _ _ _ (.single { tag := .elem none "value" } .nil) _ _ (by decide)
      (by decide) rfl
  obtain ⟨t, ht⟩ : ∃ t, (MappingTree.ofRecord partRecord).attachAll partMappings = .ok t :=
    ⟨_, by with_unfolding_all rfl⟩
  exact ⟨hresolve, hplain, hgains, t, ht,
    MappingTree.program_of_gains hresolve hplain hgains rfl (by decide) ht⟩

end Crosswalk
