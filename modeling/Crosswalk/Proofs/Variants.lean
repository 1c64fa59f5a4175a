import Crosswalk.Proofs.Edit
import Crosswalk.Proofs.Origin
import Crosswalk.Proofs.Path
import Crosswalk.Proofs.Resolution

/-!
Roles within variants. The nodes below one that stands for a choice get their roles in its variant, but
only down to the next node that stands for a choice: from there on the inner vocabulary decides alone. So
a position that a vocabulary fixes is recognised at a node exactly if no further choice stands at the
node or between it and the root of the variant.
-/

namespace Crosswalk

/-! ### Fixed positions -/

namespace Vocabulary

/-- The fixed positions of a vocabulary with their roles, in the order of their precedence. -/
def fixedPositions (v : Vocabulary) : List (Role × Path) :=
  (.value, v.valuePath) ::
    (v.key.toList.map (Role.key, ·) ++ v.schema.toList.map (Role.schema, ·) ++
      v.schemaUri.toList.map (Role.schemaUri, ·))

/-- The role of the first fixed position that is a given path. -/
def fixedRole? (v : Vocabulary) (p : Path) : Option Role :=
  (v.fixedPositions.find? fun e => e.2 == p).map Prod.fst

variable {v : Vocabulary} {p : Path}

theorem find?_field (role : Role) (field : Option Path) (p : Path) :
    (field.toList.map (role, ·)).find? (fun e => e.2 == p) =
      if field = some p then some (role, p) else none := by
  cases field with
  | none => rfl
  | some q =>
    by_cases h : q = p
    · subst h
      simp
    · simp [h]

/-- Apart from the root of a vocabulary the fixed positions decide the roles. -/
theorem roleOf_eq (h : p ≠ v.root) : v.roleOf p = (v.fixedRole? p).getD .child := by
  rw [roleOf, if_neg h, fixedRole?, fixedPositions, List.find?_cons, List.find?_append,
    List.find?_append, find?_field, find?_field, find?_field]
  by_cases hvalue : p = v.valuePath
  · simp [hvalue]
  have hne : (v.valuePath == p) = false := by simpa using fun h => hvalue h.symm
  rw [if_neg hvalue, hne]
  dsimp only
  split
  · rfl
  split
  · rfl
  split <;> rfl

theorem acceptsMappings_of_fixedRole? {role : Role} (h : v.fixedRole? p = some role) :
    role.acceptsMappings = false := by
  obtain ⟨e, he, rfl⟩ := Option.map_eq_some_iff.mp h
  have hmem := List.mem_of_find?_eq_some he
  simp only [fixedPositions, List.mem_cons, List.mem_append, List.mem_map] at hmem
  rcases hmem with rfl | (⟨_, _, rfl⟩ | ⟨_, _, rfl⟩) | ⟨_, _, rfl⟩ <;> rfl

end Vocabulary

/-- The membership of the node at a path in the variant whose root has a given membership. -/
def Membership.at (w : Membership) (p : Path) : Membership :=
  { w with role := w.vocabulary.roleOf p.withoutVariants }

/-! ### Nodes of one variant -/

namespace Forest

/-- The nodes of a forest that have no node that stands for a choice at or above them. -/
def variantNodes : Forest Node → List Node
  | .nil => []
  | .tree a below next =>
    (if a.rootMembership?.isSome then [] else a :: variantNodes below) ++ variantNodes next

/-- The nodes of a forest that stand for choices or are below such nodes. -/
def furtherNodes : Forest Node → List Node
  | .nil => []
  | .tree a below next =>
    (if a.rootMembership?.isSome then a :: below.labels else furtherNodes below) ++ furtherNodes next

theorem variantNodes_append {f g : Forest Node} :
    (f ++ g).variantNodes = f.variantNodes ++ g.variantNodes := by
  induction f with
  | nil => rfl
  | tree a below next _ ih => rw [tree_append, variantNodes, ih, variantNodes, List.append_assoc]

theorem furtherNodes_append {f g : Forest Node} :
    (f ++ g).furtherNodes = f.furtherNodes ++ g.furtherNodes := by
  induction f with
  | nil => rfl
  | tree a below next _ ih => rw [tree_append, furtherNodes, ih, furtherNodes, List.append_assoc]

theorem variantNodes_join {fs : List (Forest Node)} :
    (join fs).variantNodes = fs.flatMap variantNodes := by
  induction fs with
  | nil => rfl
  | cons f fs ih => rw [join, variantNodes_append, ih, List.flatMap_cons]

theorem furtherNodes_join {fs : List (Forest Node)} :
    (join fs).furtherNodes = fs.flatMap furtherNodes := by
  induction fs with
  | nil => rfl
  | cons f fs ih => rw [join, furtherNodes_append, ih, List.flatMap_cons]

theorem mem_labels_iff {n : Node} {f : Forest Node} :
    n ∈ f.labels ↔ n ∈ f.variantNodes ∨ n ∈ f.furtherNodes := by
  induction f with
  | nil => simp [labels, variantNodes, furtherNodes]
  | tree a below next hb hn =>
    rw [labels, variantNodes, furtherNodes]
    split <;> grind

theorem rootMembership?_of_mem_variantNodes {f : Forest Node} :
    ∀ n ∈ f.variantNodes, n.rootMembership? = none := by
  induction f with
  | nil => simp [variantNodes]
  | tree a below next hb hn =>
    rw [variantNodes, List.forall_mem_append]
    refine ⟨?_, hn⟩
    split
    · simp
    · next hroot => exact List.forall_mem_cons.mpr ⟨Option.not_isSome_iff_eq_none.mp hroot, hb⟩

/-- Nodes of a variant stay so when what they have besides their membership changes. -/
theorem variantNodes_map {g : Node → Node} (hg : ∀ a, (g a).rootMembership? = a.rootMembership?)
    {f : Forest Node} : (f.map g).variantNodes = f.variantNodes.map g := by
  induction f with
  | nil => rfl
  | tree a below next hb hn =>
    rw [map, variantNodes, variantNodes, hg, hb, hn, List.map_append]
    split <;> rfl

theorem furtherNodes_map {g : Node → Node} (hg : ∀ a, (g a).rootMembership? = a.rootMembership?)
    {f : Forest Node} : (f.map g).furtherNodes = f.furtherNodes.map g := by
  induction f with
  | nil => rfl
  | tree a below next hb hn =>
    rw [map, furtherNodes, furtherNodes, hg, hb, hn, List.map_append, labels_map]
    split <;> rfl

end Forest

/-! ### Variants of an instance -/

/-- Whether the vocabulary of an element has the element's path without variants for its root. -/
def Element.Rooted (path : Path) (e : Element) (_ : Forest Element) : Prop :=
  ∀ v, e.vocabulary = some v → v.root = path.withoutVariants

theorem Content.all_true {c : Content} : c.All (fun _ => True) fun _ => True := by
  induction c with
  | nil => trivial
  | attr a rest ih => exact ⟨trivial, ih⟩
  | ref kind name rest ih => exact ih
  | elem e below rest hb hr => exact ⟨trivial, hb, hr⟩

theorem Declaration.all_true (d : Declaration) : d.All (fun _ => True) fun _ => True :=
  ⟨trivial, Content.all_true, fun _ _ => Content.all_true⟩

theorem Declaration.eachAt_rooted {d : Declaration} {r : Record} (h : d.resolve = .ok r) :
    Element.EachAt Element.Rooted Path.root r.elements :=
  d.eachAt_of_resolve d.all_true (fun _ _ _ _ _ _ hhead => Resolution.root_of_element hhead) h

/-- Whether of the nodes below the root of a variant those without a further choice at or above them
belong to the variant, and the others to other expansions. -/
structure Membership.Governs (w : Membership) (below : Forest Node) : Prop where
  within : ∀ n ∈ below.variantNodes, n.membership = some (w.at n.path)
  further : ∀ n ∈ below.furtherNodes, ∃ m, n.membership = some m ∧ m.list ≠ w.list

/-- A node of a variant at a fixed position has the role of the position. -/
theorem Membership.Governs.membership_of_fixedRole? {w : Membership} {below : Forest Node}
    (h : w.Governs below) {n : Node} (hn : n ∈ below.variantNodes) {role : Role}
    (hrole : w.vocabulary.fixedRole? n.path.withoutVariants = some role) :
    n.membership = some { w with role } := by
  have hwithin : n.membership = some (w.at n.path) := h.within n hn
  have hne : n.path.withoutVariants ≠ w.vocabulary.root := by
    intro hroot
    have hnone := Forest.rootMembership?_of_mem_variantNodes n hn
    rw [Node.rootMembership?, hwithin, Membership.at, Vocabulary.roleOf, if_pos hroot] at hnone
    cases hnone
  rw [hwithin, Membership.at, Vocabulary.roleOf_eq hne, hrole]
  rfl

namespace Instance

variable {v : Variant} {variant : Option Variant}

/-- Whether the root of a variant is no deeper than a path. -/
def RootedAbove (variant : Option Variant) (path : Path) : Prop :=
  ∀ v ∈ variant, v.vocabulary.root.length ≤ path.length

theorem RootedAbove.child {path : Path} (h : RootedAbove variant path) (tag : Tag) :
    RootedAbove variant (path.child tag) := by
  intro v hv
  rw [Path.length_child]
  exact Nat.le_succ_of_le (h v hv)

theorem of_mem_variants {list : Nat} {v : Vocabulary} {w : Variant} (h : w ∈ variants list v) :
    w.list = list ∧ w.vocabulary = v := by
  obtain ⟨⟨choice, position⟩, -, rfl⟩ := List.mem_map.mp h
  exact ⟨rfl, rfl⟩

/-- The root of a variant is as deep as the element that it is a variant of. -/
theorem rootedAbove_of_mem_variants {list : Nat} {v : Vocabulary} {w : Variant}
    (hw : w ∈ variants list v) {e : Element} {below : Forest Element} {place parent : Path}
    (hrooted : e.Rooted (place.child e.tag) below) (hv : e.vocabulary = some v)
    (hplace : parent.length = place.length) (tag : Tag) :
    RootedAbove (some w) (parent.child tag) := by
  rintro _ ⟨⟩
  refine Nat.le_of_eq ?_
  rw [(of_mem_variants hw).2, hrooted v hv, Path.length_withoutVariants, Path.length_child,
    Path.length_child, hplace]

/-- Beneath the root of a variant no other node is taken for it. -/
theorem rootMembership?_eq_none {n : Node}
    (hn : n.membership = variant.map (·.membershipAt n.path))
    (hlength : ∀ v ∈ variant, v.vocabulary.root.length < n.path.length) :
    n.rootMembership? = none := by
  rw [Node.rootMembership?, hn]
  cases variant with
  | none => rfl
  | some v =>
    have hne : n.path.withoutVariants ≠ v.vocabulary.root := by
      intro heq
      have hlength := hlength v rfl
      rw [← heq, Path.length_withoutVariants] at hlength
      omega
    rw [Option.map_some, Option.filter_eq_none_iff]
    rintro _ ⟨⟩
    rw [Variant.membershipAt, Variant.withRole, Vocabulary.roleOf_eq hne, Bool.not_eq_true,
      beq_eq_false_iff_ne]
    cases hrole : v.vocabulary.fixedRole? n.path.withoutVariants with
    | none => exact Role.noConfusion
    | some role =>
      have hfixed := Vocabulary.acceptsMappings_of_fixedRole? hrole
      rintro rfl
      cases hfixed

theorem variantNodes_attributeNodes {path : Path} {as : List Attribute} :
    ∀ n ∈ (attributeNodes path (some v) as).variantNodes,
      n.membership = some (v.membershipAt n.path) := by
  induction as with
  | nil => simp [attributeNodes, Forest.variantNodes]
  | cons a as ih =>
    rw [attributeNodes, Forest.variantNodes, List.forall_mem_append]
    refine ⟨?_, ih⟩
    split
    · simp
    · simp [Forest.variantNodes, attributeNode]

/-- The nodes of a variant have their roles in it. -/
theorem membership_of_mem_variantNodes {f : Forest Element} : ∀ {parent : Path} {first : Nat},
    ∀ n ∈ (nodes parent (some v) first f).variantNodes,
      n.membership = some (v.membershipAt n.path) := by
  induction f with
  | nil => simp [nodes, Forest.variantNodes]
  | tree e below next hb hn =>
    intro parent first
    rw [nodes]
    split
    · rw [Forest.variantNodes, List.forall_mem_append]
      refine ⟨?_, hn⟩
      split
      · simp
      · rw [List.forall_mem_cons, Forest.variantNodes_append, List.forall_mem_append]
        exact ⟨rfl, variantNodes_attributeNodes, hb⟩
    · rw [Forest.variantNodes_append, Forest.variantNodes_join, List.forall_mem_append]
      refine ⟨fun n h => ?_, hn⟩
      obtain ⟨g, hg, h⟩ := List.mem_flatMap.mp h
      obtain ⟨w, -, rfl⟩ := List.mem_map.mp hg
      cases h

theorem rootMembership?_beneath {n : Node} {parent : Path} (habove : RootedAbove variant parent)
    (hpath : n.path = parent.child n.tag)
    (hn : n.membership = variant.map (·.membershipAt n.path)) : n.rootMembership? = none := by
  refine rootMembership?_eq_none hn fun v hv => ?_
  rw [hpath, Path.length_child]
  exact Nat.lt_succ_of_le (habove v hv)

theorem furtherNodes_attributeNodes {path : Path} {as : List Attribute}
    (habove : RootedAbove variant path) :
    (attributeNodes path variant as).furtherNodes = [] := by
  induction as with
  | nil => rfl
  | cons a as ih =>
    have hroot : (attributeNode path variant a).rootMembership? = none :=
      rootMembership?_beneath habove rfl rfl
    rw [attributeNodes, Forest.furtherNodes, hroot, ih]
    rfl

/-- What is below the root of a variant of an element. -/
def variantContent (path : Path) (w : Variant) (first : Nat) (e : Element) (below : Forest Element) :
    Forest Node :=
  attributeNodes path (some w) e.attributes ++ nodes path (some w) first below

section Content

variable {path : Path} {w : Variant} {first : Nat} {e : Element} {below : Forest Element}

theorem variantNodes_content : ∀ n ∈ (variantContent path w first e below).variantNodes,
    n.membership = some (w.membershipAt n.path) := by
  rw [variantContent, Forest.variantNodes_append]
  exact List.forall_mem_append.mpr ⟨variantNodes_attributeNodes, membership_of_mem_variantNodes⟩

theorem furtherNodes_content (habove : RootedAbove (some w) path) :
    (variantContent path w first e below).furtherNodes =
      (nodes path (some w) first below).furtherNodes := by
  rw [variantContent, Forest.furtherNodes_append, furtherNodes_attributeNodes habove,
    List.nil_append]

end Content

theorem each_attributeNodes {path : Path} {as : List Attribute} (habove : RootedAbove variant path) :
    (attributeNodes path variant as).Each fun root below =>
      ∀ w, root.rootMembership? = some w → w.Governs below := by
  induction as with
  | nil => trivial
  | cons a as ih =>
    refine ⟨fun w hw => ?_, trivial, ih⟩
    have hroot : (attributeNode path variant a).rootMembership? = none :=
      rootMembership?_beneath habove rfl rfl
    rw [hroot] at hw
    cases hw

/-- The nodes of further variants belong to expansions with numbers from the next on. -/
theorem le_of_mem_furtherNodes {f : Forest Element} : ∀ {place parent : Path} {first : Nat}
    {variant : Option Variant}, Element.EachAt Element.Rooted place f → parent.length = place.length →
      RootedAbove variant parent →
      ∀ n ∈ (nodes parent variant first f).furtherNodes,
        ∃ m, n.membership = some m ∧ first ≤ m.list := by
  induction f with
  | nil => intros; simp_all [nodes, Forest.furtherNodes]
  | tree e below next hb hn =>
    rintro place parent first variant ⟨hrooted, hbelow, hnext⟩ hplace habove
    have hdeeper (t : Tag) : (parent.child t).length = (place.child e.tag).length := by
      rw [Path.length_child, Path.length_child, hplace]
    rw [nodes]
    split
    · have hroot : (elementNode parent e.tag below.isEmpty
          (variant.map (·.membershipAt (parent.child e.tag))) e).rootMembership? = none :=
        rootMembership?_beneath habove rfl rfl
      dsimp only
      rw [Forest.furtherNodes, hroot, Forest.furtherNodes_append,
        furtherNodes_attributeNodes (habove.child e.tag), List.nil_append]
      intro n h
      rcases List.mem_append.mp h with h | h
      · exact hb hbelow (hdeeper _) (habove.child e.tag) n h
      · obtain ⟨m, hm, hle⟩ := hn hnext hplace habove n h
        exact ⟨m, hm, by omega⟩
    · next v hv =>
      dsimp only
      rw [Forest.furtherNodes_append, Forest.furtherNodes_join]
      intro n h
      rcases List.mem_append.mp h with h | h
      · obtain ⟨g, hg, h⟩ := List.mem_flatMap.mp h
        obtain ⟨w, hw, rfl⟩ := List.mem_map.mp hg
        have hlist := (of_mem_variants hw).1
        have hvariant (tag : Tag) : RootedAbove (some w) (parent.child tag) :=
          rootedAbove_of_mem_variants hw hrooted hv hplace tag
        -- the root of the variant and its own nodes have the number of the expansion
        rcases List.mem_append.mp h with h | h
        · rcases List.mem_cons.mp h with rfl | h
          · exact ⟨_, rfl, Nat.le_of_eq hlist.symm⟩
          rcases Forest.mem_labels_iff.mp h with h | h
          · exact ⟨_, variantNodes_content n h, Nat.le_of_eq hlist.symm⟩
          · rw [← variantContent, furtherNodes_content (hvariant _)] at h
            obtain ⟨m, hm, hle⟩ := hb hbelow (hdeeper _) (hvariant _) n h
            exact ⟨m, hm, by omega⟩
        · cases h
      · obtain ⟨m, hm, hle⟩ := hn hnext hplace habove n h
        exact ⟨m, hm, by omega⟩

/-- The root of a variant governs the nodes below it. -/
theorem each_governs {f : Forest Element} : ∀ {place parent : Path} {first : Nat}
    {variant : Option Variant}, Element.EachAt Element.Rooted place f → parent.length = place.length →
      RootedAbove variant parent →
      (nodes parent variant first f).Each fun root below =>
        ∀ w, root.rootMembership? = some w → w.Governs below := by
  induction f with
  | nil => intros; trivial
  | tree e below next hb hn =>
    rintro place parent first variant ⟨hrooted, hbelow, hnext⟩ hplace habove
    have hdeeper (t : Tag) : (parent.child t).length = (place.child e.tag).length := by
      rw [Path.length_child, Path.length_child, hplace]
    rw [nodes]
    split
    · have hroot : (elementNode parent e.tag below.isEmpty
          (variant.map (·.membershipAt (parent.child e.tag))) e).rootMembership? = none :=
        rootMembership?_beneath habove rfl rfl
      refine ⟨fun w hw => ?_, Forest.each_append.mpr ⟨each_attributeNodes (habove.child e.tag), ?_⟩, ?_⟩
      · rw [hroot] at hw
        cases hw
      · exact hb hbelow (hdeeper _) (habove.child e.tag)
      · exact hn hnext hplace habove
    · next v hv =>
      refine Forest.each_append.mpr ⟨Forest.each_join fun g hg => ?_, hn hnext hplace habove⟩
      obtain ⟨w, hw, rfl⟩ := List.mem_map.mp hg
      have hvariant (tag : Tag) : RootedAbove (some w) (parent.child tag) :=
        rootedAbove_of_mem_variants hw hrooted hv hplace tag
      refine ⟨?_, Forest.each_append.mpr
        ⟨each_attributeNodes (hvariant _), hb hbelow (hdeeper _) (hvariant _)⟩, trivial⟩
      rintro _ ⟨⟩
      refine ⟨variantNodes_content, fun n h => ?_⟩
      rw [← variantContent, furtherNodes_content (hvariant _)] at h
      obtain ⟨m, hm, hle⟩ := le_of_mem_furtherNodes hbelow (hdeeper _) (hvariant _) n h
      have hlist := (of_mem_variants hw).1
      refine ⟨m, hm, ?_⟩
      rw [Variant.withRole]
      dsimp only
      omega

end Instance

namespace MappingTree

theorem governs_afterEdits {d : Declaration} {r : Record} (h : d.resolve = .ok r) (es : List Edit) :
    ((ofRecord r).afterEdits es).forest.Each fun root below =>
      ∀ w, root.rootMembership? = some w → w.Governs below := by
  have hgoverns : (ofRecord r).forest.Each fun root below =>
      ∀ w, root.rootMembership? = some w → w.Governs below :=
    Instance.each_governs (d.eachAt_rooted h) rfl (by rintro _ ⟨⟩)
  refine each_afterEdits hgoverns (fun root below hroot w hw => ?_) es
  obtain ⟨hwithin, hfurther⟩ := hroot w hw
  rw [Forest.variantNodes_map (g := Node.unmapped) fun _ => rfl] at hwithin
  rw [Forest.furtherNodes_map (g := Node.unmapped) fun _ => rfl] at hfurther
  exact ⟨fun n hn => hwithin n.unmapped (List.mem_map_of_mem hn),
    fun n hn => hfurther n.unmapped (List.mem_map_of_mem hn)⟩

/-- A node that a choice fixes refuses every mapping that is meant for it. -/
theorem add_eq_fixedField {t : MappingTree} {i : Nat} {n : Node} {m : Mapping} {w : Membership}
    (hn : t.nodes[i]? = some n) (hmembership : n.membership = some w)
    (hfixed : w.role.acceptsMappings = false) (hm : m.output = n.path) :
    t.add i m = .error (.fixedField n.path w.role) := by
  have hfixed : n.fixedMembership? = some w := by
    rw [Node.fixedMembership?, hmembership, Option.filter_some, hfixed]
    rfl
  have haccept : n.accept m = .error (.fixedField n.path w.role) := by
    rw [Node.accept, if_neg (not_not_intro hm), hfixed]
  rw [add, edit, Edit.perform, Editing.outcome, Editing.runOn_add, hn]
  dsimp only
  rw [haccept]

/-- Whatever has been edited, a position that a vocabulary fixes is recognised at a node below one that
stands for a choice, and closed to mappings, exactly if no further choice stands at the node or above it
below the first. -/
theorem fixed_in_variant_iff {d : Declaration} {r : Record} (h : d.resolve = .ok r) (es : List Edit) :
    ∀ p ∈ ((ofRecord r).afterEdits es).forest.subtrees, ∀ w, p.1.rootMembership? = some w →
      ∀ n ∈ p.2.labels, ∀ role, w.vocabulary.fixedRole? n.path.withoutVariants = some role →
        ((n.membership = some { w with role } ∧
            ∀ i m, ((ofRecord r).afterEdits es).nodes[i]? = some n → m.output = n.path →
              ((ofRecord r).afterEdits es).add i m = .error (.fixedField n.path role)) ↔
          n ∈ p.2.variantNodes) := by
  intro p hp w hw n hn role hrole
  have hgoverns := Forest.each_iff_subtrees.mp (governs_afterEdits h es) p hp w hw
  constructor
  · rintro ⟨hmembership, -⟩
    refine (Forest.mem_labels_iff.mp hn).resolve_right fun hfurther => ?_
    obtain ⟨m, hm, hne⟩ := hgoverns.further n hfurther
    rw [hmembership, Option.some.injEq] at hm
    exact hne (hm ▸ rfl)
  · intro hvariant
    have hmembership := hgoverns.membership_of_fixedRole? hvariant hrole
    refine ⟨hmembership, fun i m hi hm => ?_⟩
    exact add_eq_fixedField hi hmembership (Vocabulary.acceptsMappings_of_fixedRole? hrole) hm

end MappingTree

/-- A record of a type with a part. The type fixes a code that is an attribute of the part, and the part
is chosen from a vocabulary too. -/
def partDeclaration : Declaration where
  root := { tag := .elem none "record" }
  content :=
    .elem
      { tag := .elem none "type"
        vocabulary := some
          { dictionary := "types"
            value := .elem none "value"
            key := some ⟨[.elem none "part", .attr none "code"]⟩
            choices := [{ value := "Book" }] } }
      (.elem { tag := .elem none "value" } .nil
        (.elem
          { tag := .elem none "part"
            vocabulary := some
              { dictionary := "parts", value := .elem none "part", choices := [{ value := "Cover" }] } }
          (.attr { tag := .attr none "code" } .nil) .nil))
      .nil

/-- What the record of a type with a part is resolved to. -/
def partRecord : Record where
  qualifier := ""
  version := ""
  namespaces := []
  root := { tag := .elem none "record" }
  below :=
    .single
      { tag := .elem none "type"
        vocabulary := some
          { dictionary := "types"
            root := .ofNames ["record", "type"]
            value := .elem none "value"
            key := some ((Path.ofNames ["record", "type", "part"]).child (.attr none "code"))
            choices := [{ value := "Book" }] } }
      (.tree { tag := .elem none "value" } .nil
        (.single
          { tag := .elem none "part"
            attributes := [{ tag := .attr none "code" }]
            vocabulary := some
              { dictionary := "parts"
                root := .ofNames ["record", "type", "part"]
                value := .elem none "part"
                choices := [{ value := "Cover" }] } }
          .nil))
  fieldMarkers := []
  assertions := []

/-- The value of the type is in its variant, and closed to mappings. -/
theorem partRecord_value_fixed :
    let t := MappingTree.ofRecord partRecord
    partDeclaration.resolve = .ok partRecord ∧
      ∃ p ∈ t.forest.subtrees, ∃ w, p.1.rootMembership? = some w ∧ ∃ n ∈ p.2.variantNodes,
        w.vocabulary.fixedRole? n.path.withoutVariants = some .value ∧
          ∀ i m, t.nodes[i]? = some n → m.output = n.path →
            t.add i m = .error (.fixedField n.path .value) := by
  intro t
  have hresolve : partDeclaration.resolve = .ok partRecord := by with_unfolding_all rfl
  have hfound : ∃ p ∈ t.forest.subtrees, ∃ w, p.1.rootMembership? = some w ∧
      ∃ n ∈ p.2.variantNodes,
        w.vocabulary.fixedRole? n.path.withoutVariants = some .value :=
    ⟨t.forest.subtrees[1], by decide, _, rfl, t.nodes[2], by decide, by decide⟩
  obtain ⟨p, hp, w, hw, n, hn, hrole⟩ := hfound
  have hmem : n ∈ p.2.labels := Forest.mem_labels_iff.mpr (.inl hn)
  have hfixed := (MappingTree.fixed_in_variant_iff hresolve [] p hp w hw n hmem _ hrole).mpr hn
  exact ⟨hresolve, p, hp, w, hw, n, hn, hrole, hfixed.2⟩

/-- The code of the part has the path that the type fixes, but it belongs to the part's variant alone and
is mapped. -/
theorem partRecord_code_mapped :
    let t := MappingTree.ofRecord partRecord
    partDeclaration.resolve = .ok partRecord ∧
      ∃ p ∈ t.forest.subtrees, ∃ w, p.1.rootMembership? = some w ∧ ∃ n ∈ p.2.labels,
        w.vocabulary.fixedRole? n.path.withoutVariants = some .key ∧ n.role? = some .child ∧
          t.nodes[4]? = some n ∧
            ∃ c, t.add 4 { output := n.path, input := .ofNames ["m", "c"] } = .ok c := by
  intro t
  exact ⟨by with_unfolding_all rfl, t.forest.subtrees[1], by decide, _, rfl, t.nodes[4], by decide,
    by decide, by decide, by decide, _, rfl⟩

end Crosswalk
