import Crosswalk.Proofs.Filling
import Crosswalk.Proofs.Selection
import Mathlib.Logic.Relation

/-!
Nodes in the order in which the schema declares them. Every node stands after its parent and is
followed by all nodes below it: those of the attributes of its element, and then those of the elements
of its content in turn, each after those before. So the nodes at and below one are an interval of the
list, and what is attached to them is collected by going through that interval.
-/

namespace Crosswalk

/-! ### What a node stands for -/

namespace Node

/-- Whether a node, apart from its mappings, is that of an attribute. -/
def IsOfAttribute (a : Attribute) (n : Node) : Prop :=
  ∃ path variant, n.unmapped = Instance.attributeNode path variant a

/-- Whether a node, apart from its mappings, is that of an element for what is chosen there. -/
def IsOfElement (e : Element) (c : Option Choice) (n : Node) : Prop :=
  ∃ parent leaf membership,
    n.unmapped = Instance.elementNode parent (e.tag.choosing c) leaf membership e

end Node

namespace Instance

/-- Whether a tree of nodes is that of an attribute, or that of one of some elements with its
attributes and its content. -/
inductive Built (elements : List (Element × Forest Element)) : Node → Forest Node → Prop where
  | ofAttribute (path : Path) (variant : Option Variant) (a : Attribute)
      (hmem : ∃ p ∈ elements, a ∈ p.1.attributes) :
      Built elements (attributeNode path variant a) .nil
  | ofElement (e : Element) (below : Forest Element) (c : Option Choice) (parent path : Path)
      (leaf : Bool) (membership : Option Membership) (variant : Option Variant) (first : Nat)
      (hmem : (e, below) ∈ elements) (hc : c ∈ e.options) :
      Built elements (elementNode parent (e.tag.choosing c) leaf membership e)
        (attributeNodes path variant e.attributes ++ nodes path variant first below)

variable {elements : List (Element × Forest Element)} {path parent : Path}
  {variant : Option Variant} {first : Nat}

/-- The options of an element with a vocabulary are the choices of its variants. -/
theorem options_eq {e : Element} {v : Vocabulary} (hv : e.vocabulary = some v) (list : Nat) :
    e.options = (variants list v).map fun w => some w.choice := by
  have hchoices : (variants list v).map Variant.choice = v.choices := choices_variants
  rw [Element.options, hv]
  dsimp only
  rw [← hchoices, List.map_map]
  rfl

theorem built_attributeNodes {as : List Attribute} (h : ∀ a ∈ as, ∃ p ∈ elements, a ∈ p.1.attributes) :
    (attributeNodes path variant as).Each (Built elements) := by
  induction as with
  | nil => trivial
  | cons a as ih =>
    rw [List.forall_mem_cons] at h
    exact ⟨.ofAttribute path variant a h.1, trivial, ih h.2⟩

theorem built_nodes {f : Forest Element} : ∀ {parent : Path} {variant : Option Variant}
    {first : Nat}, f.subtrees ⊆ elements → (nodes parent variant first f).Each (Built elements) := by
  induction f with
  | nil => intros; trivial
  | tree e below next hb hn =>
    intro parent variant first hmem
    rw [Forest.subtrees, List.cons_subset, List.append_subset] at hmem
    obtain ⟨he, hbelow, hnext⟩ := hmem
    have hattributes : ∀ a ∈ e.attributes, ∃ p ∈ elements, a ∈ p.1.attributes :=
      fun a ha => ⟨(e, below), he, ha⟩
    rw [nodes]
    split
    · next hnone =>
      refine ⟨.ofElement e below none _ _ _ _ _ _ he ?_, ?_, hn hnext⟩
      · rw [Element.options, hnone]
        exact List.mem_singleton_self _
      · exact Forest.each_append.mpr ⟨built_attributeNodes hattributes, hb hbelow⟩
    · next v hv =>
      refine Forest.each_append.mpr ⟨Forest.each_join fun g hg => ?_, hn hnext⟩
      obtain ⟨w, hw, rfl⟩ := List.mem_map.mp hg
      refine ⟨.ofElement e below (some w.choice) _ _ _ _ _ _ he ?_, ?_, trivial⟩
      · rw [options_eq hv first]
        exact List.mem_map_of_mem hw
      · exact Forest.each_append.mpr ⟨built_attributeNodes hattributes, hb hbelow⟩

theorem tops_attributeNodes {as : List Attribute} :
    (attributeNodes path variant as).tops = as.map (attributeNode path variant) := by
  induction as with
  | nil => rfl
  | cons a as ih => rw [attributeNodes, Forest.tops, ih, List.map_cons]

/-- The top nodes are those of the top elements in turn, one for each option. -/
theorem forall₂_tops_nodes {f : Forest Element} : ∀ {parent : Path} {variant : Option Variant}
    {first : Nat}, List.Forall₂ (fun n ec => n.IsOfElement ec.1 ec.2)
      (nodes parent variant first f).tops (f.tops.flatMap fun e => e.options.map (e, ·)) := by
  induction f with
  | nil => intros; exact .nil
  | tree e below next _ ih =>
    intro parent variant first
    rw [nodes, Forest.tops, List.flatMap_cons]
    split
    · next hnone =>
      rw [Element.options, hnone]
      exact .cons ⟨_, _, _, rfl⟩ ih
    · next v hv =>
      rw [options_eq hv first, Forest.tops_append, Forest.tops_join, List.flatMap_map, List.map_map]
      refine List.rel_append ?_ ih
      simp only [Forest.single, Forest.tops]
      rw [← List.map_eq_flatMap, List.forall₂_map_left_iff, List.forall₂_map_right_iff,
        List.forall₂_same]
      exact fun w _ => ⟨_, _, _, rfl⟩

end Instance

/-! ### Lists of nodes -/

theorem Forest.LaidOut.of_at {parent : Path} {i : Nat} {n : Node} {f below : Forest Node}
    (hf : f.LaidOut id parent) (h : f.At i n below) : below.LaidOut id n.path := by
  induction h generalizing parent with
  | here => exact hf.2.1
  | under _ _ _ ih => exact ih hf.2.1
  | beside _ _ _ ih => exact ih hf.2.2

namespace MappingTree

/-- Whether one node is the parent of another. -/
def IsParent (t : MappingTree) (p c : Nat) : Prop := t.parents[c]? = some (some p)

/-- Whether a node lies below another, at any depth. -/
def IsBelow (t : MappingTree) : Nat → Nat → Prop := Relation.TransGen t.IsParent

/-- Whether the nodes with some indices are those of some things, one for each in turn. -/
def StandFor {α : Type} (t : MappingTree) (P : α → Node → Prop) : List Nat → List α → Prop :=
  List.Forall₂ fun i a => ∃ n, t.nodes[i]? = some n ∧ P a n

variable {t : MappingTree} {i j p c : Nat} {n : Node} {below : Forest Node}

theorem standFor_of_map {α : Type} {P : α → Node → Prop} {is : List Nat} {ns : List Node}
    {as : List α} (hnodes : is.map (t.nodes[·]?) = ns.map some)
    (h : List.Forall₂ (fun n a => P a n) ns as) : t.StandFor P is as := by
  have hsome : List.Forall₂ (fun o a => ∃ n, o = some n ∧ P a n) (ns.map some) as :=
    List.forall₂_map_left_iff.mpr (h.imp fun n a hn => ⟨n, rfl, hn⟩)
  rw [← hnodes] at hsome
  exact List.forall₂_map_left_iff.mp hsome

theorem mem_of_map {is : List Nat} {ns : List Node} (hnodes : is.map (t.nodes[·]?) = ns.map some)
    (hi : i ∈ is) (hn : t.nodes[i]? = some n) : n ∈ ns := by
  have hmem : t.nodes[i]? ∈ ns.map some := hnodes ▸ List.mem_map_of_mem hi
  rw [hn, List.mem_map] at hmem
  obtain ⟨_, hmem, hsome⟩ := hmem
  exact Option.some.inj hsome ▸ hmem

theorem length_parents : t.parents.length = t.nodes.length := by
  rw [parents, Forest.length_parents, nodes, Forest.length_labels]

theorem length_children : t.children.length = t.nodes.length := by
  rw [children, Forest.length_children, nodes, Forest.length_labels]

/-- A parent stands before its children. -/
theorem IsParent.lt (h : t.IsParent p c) : p < c := by
  obtain hnone | ⟨-, hlt⟩ := Forest.parent_cases h
  · cases hnone
  · omega

theorem exists_at_of_children {cs : List Nat} (h : t.children[i]? = some cs) :
    ∃ n below, t.forest.At i n below ∧ cs = below.topIndices (i + 1) := by
  have hi : i < t.forest.size := by
    rw [← Forest.length_children]
    exact (List.getElem?_eq_some_iff.mp h).1
  obtain ⟨n, below, hat⟩ := Forest.exists_at hi
  have hcs : t.children[i]? = some (below.topIndices (0 + i + 1)) := hat.getElem?_children
  rw [Nat.zero_add] at hcs
  exact ⟨n, below, hat, Option.some.inj (h.symm.trans hcs)⟩

theorem isParent_iff (h : t.forest.At i n below) :
    t.IsParent i c ↔ c ∈ below.topIndices (i + 1) := by
  have hiff : t.parents[c]? = some (some (0 + i)) ↔ 0 + c ∈ below.topIndices (0 + i + 1) :=
    h.getElem?_parents_eq_iff fun p hp => by cases hp
  rw [Nat.zero_add, Nat.zero_add] at hiff
  exact hiff

/-- A node lies in a tree if its parent does, and is not the root of the tree. -/
theorem IsParent.mem_iff (hpc : t.IsParent p c) (h : t.forest.At i n below) :
    i ≤ p ∧ p ≤ i + below.size ↔ i < c ∧ c ≤ i + below.size := by
  have hiff := h.parent_mem_iff (fun p hp => by cases hp) hpc
  simpa using hiff

/-- What lies below a node follows it, and nothing else is in between. -/
theorem isBelow_iff (h : t.forest.At i n below) :
    t.IsBelow i j ↔ i < j ∧ j ≤ i + below.size := by
  constructor
  · intro hbelow
    induction hbelow with
    | single hpc => exact (hpc.mem_iff h).mp ⟨Nat.le_refl _, Nat.le_add_right ..⟩
    | tail _ hpc ih => exact (hpc.mem_iff h).mp ⟨Nat.le_of_lt ih.1, ih.2⟩
  · induction j using Nat.strongRecOn with
    | ind j ih =>
      rintro ⟨hlt, hle⟩
      obtain ⟨p, hpc⟩ : ∃ p, t.IsParent p j := h.exists_parent hlt hle
      obtain ⟨hip, hpi⟩ := (hpc.mem_iff h).mpr ⟨hlt, hle⟩
      rcases Nat.eq_or_lt_of_le hip with rfl | hlt'
      · exact .single hpc
      · exact .tail (ih p hpc.lt ⟨hlt', hpi⟩) hpc

/-! ### Mappings of a tree -/

theorem mappingsFrom_eq : t.mappingsFrom = t.forest.collect Node.mappingList := by
  funext i
  rw [mappingsFrom, Forest.collect]
  cases t.forest.at? i <;> rfl

/-- The mappings at a node and below it are those of an interval of the nodes. -/
theorem mappingsFrom_of_at (h : t.forest.At i n below) :
    t.mappingsFrom i = ((t.nodes.drop i).take (below.size + 1)).flatMap Node.mappingList := by
  rw [nodes, h.take_drop_labels, mappingsFrom_eq, h.collect_eq, List.flatMap_cons]

/-- The mappings at a node and below it are its own and then those of its children in turn. -/
theorem mappingsFrom_children {cs : List Nat} (hn : t.nodes[i]? = some n)
    (hcs : t.children[i]? = some cs) :
    t.mappingsFrom i = n.mappingList ++ cs.flatMap t.mappingsFrom := by
  obtain ⟨n', below, hat, rfl⟩ := exists_at_of_children hcs
  obtain rfl := Option.some.inj (hat.getElem?_labels.symm.trans hn)
  rw [mappingsFrom_eq]
  exact hat.collect_children

/-- A node is populated if there is a mapping at it or below it. -/
theorem isPopulated_iff_mappingsFrom : t.isPopulated i = true ↔ t.mappingsFrom i ≠ [] := by
  have hmapped (n : Node) : n.hasMappings = true ↔ n.mappingList ≠ [] := by
    simp [Node.hasMappings, Node.mappingList, SortedMap.isEmpty, SortedMap.values]
  rw [isPopulated, mappingsFrom]
  cases t.forest.at? i with
  | none => simp
  | some p =>
    obtain ⟨n, below⟩ := p
    dsimp only
    rw [Bool.or_eq_true, Forest.any_iff, List.flatMap_cons]
    simp [hmapped, List.flatMap_eq_nil_iff, or_iff_not_imp_left]

/-! ### Paths -/

variable {parent : Path}

/-- A node without a parent is named by the path that the nodes lie beneath and its tag. -/
theorem path_of_parent_none (ht : t.forest.LaidOut id parent) (hn : t.nodes[i]? = some n)
    (hparent : t.parents[i]? = some none) : n.path = parent.child n.tag := by
  have hi : 0 + i ∈ t.forest.topIndices 0 :=
    (Forest.getElem?_parents_eq_iff fun p hp => by cases hp).mp hparent
  rw [Nat.zero_add] at hi
  exact ht.path_of_mem_tops _ (mem_of_map Forest.map_topIndices hi hn)

/-- The path of another node is that of its parent and its tag. -/
theorem path_of_isParent (ht : t.forest.LaidOut id parent) (hn : t.nodes[i]? = some n)
    (hparent : t.IsParent p i) : ∃ m, t.nodes[p]? = some m ∧ n.path = m.path.child n.tag := by
  have hp : p < t.forest.size := by
    have hlt := hparent.lt
    have hi := (List.getElem?_eq_some_iff.mp hn).1
    rw [nodes, Forest.length_labels] at hi
    omega
  obtain ⟨m, below, hat⟩ := Forest.exists_at hp
  have hmem : n ∈ below.tops := mem_of_map hat.map_topIndices ((isParent_iff hat).mp hparent) hn
  exact ⟨m, hat.getElem?_labels, (ht.of_at hat).path_of_mem_tops _ hmem⟩

/-! ### Children -/

/-- Whether the children of a node come from an attribute, that has none, or from an element: those of
its attributes ahead of those of its content, one for each option. -/
inductive Declares (r : Record) (t : MappingTree) (n : Node) (cs : List Nat) : Prop where
  | ofAttribute (a : Attribute) (hmem : ∃ p ∈ r.elements.subtrees, a ∈ p.1.attributes)
      (hn : n.IsOfAttribute a) (hcs : cs = []) : Declares r t n cs
  | ofElement (e : Element) (below : Forest Element) (c : Option Choice) (as es : List Nat)
      (hmem : (e, below) ∈ r.elements.subtrees) (hc : c ∈ e.options) (hn : n.IsOfElement e c)
      (hcs : cs = as ++ es) (has : t.StandFor Node.IsOfAttribute as e.attributes)
      (hes : t.StandFor (fun ec n => n.IsOfElement ec.1 ec.2) es
        (below.tops.flatMap fun e => e.options.map (e, ·))) : Declares r t n cs

theorem declares_afterEdits {r : Record} {es : List Edit} {cs : List Nat}
    (hn : ((ofRecord r).afterEdits es).nodes[i]? = some n)
    (hcs : ((ofRecord r).afterEdits es).children[i]? = some cs) :
    Declares r ((ofRecord r).afterEdits es) n cs := by
  obtain ⟨n', below, hat, rfl⟩ := exists_at_of_children hcs
  obtain rfl := Option.some.inj (hat.getElem?_labels.symm.trans hn)
  have hbuilt : (ofRecord r).forest.Each (Instance.Built r.elements.subtrees) :=
    Instance.built_nodes (List.Subset.refl _)
  rw [← map_unmapped_afterEdits r es] at hbuilt
  replace hbuilt := hbuilt.of_at hat.map
  generalize hunmapped : n'.unmapped = m, hmap : below.map Node.unmapped = trees at hbuilt
  cases hbuilt with
  | ofAttribute path variant a hmem =>
    have hindices : (below.map Node.unmapped).topIndices (i + 1) = [] := by rw [hmap]; rfl
    rw [Forest.topIndices_map] at hindices
    exact .ofAttribute a hmem ⟨path, variant, hunmapped⟩ hindices
  | ofElement e content c parent path leaf membership variant first hmem hc =>
    have htops : below.tops.map Node.unmapped =
        e.attributes.map (Instance.attributeNode path variant) ++
          (Instance.nodes path variant first content).tops := by
      rw [← Forest.tops_map, hmap, Forest.tops_append, Instance.tops_attributeNodes]
    obtain ⟨as, ns, hsplit, has, hns⟩ := List.map_eq_append_iff.mp htops
    have hnodes := hat.map_topIndices
    rw [hsplit, List.map_append] at hnodes
    obtain ⟨is, js, hindices, his, hjs⟩ := List.map_eq_append_iff.mp hnodes
    refine .ofElement e content c is js hmem hc ⟨_, _, _, hunmapped⟩ hindices ?_ ?_
    · have heach : List.Forall₂ (fun n a => n.unmapped = Instance.attributeNode path variant a) as
          e.attributes := by
        rw [← List.forall₂_map_right_iff, ← List.forall₂_map_left_iff, List.forall₂_eq_eq_eq]
        exact has
      exact standFor_of_map his (heach.imp fun n a hn => ⟨path, variant, hn⟩)
    · have heach : List.Forall₂ (fun n ec => n.IsOfElement ec.1 ec.2)
          (Instance.nodes path variant first content).tops
          (content.tops.flatMap fun e => e.options.map (e, ·)) := Instance.forall₂_tops_nodes
      rw [← hns, List.forall₂_map_left_iff] at heach
      exact standFor_of_map hjs heach

/-! ### The whole list -/

/-- How the nodes of a mapping document for a record definition are arranged. -/
structure Arranged (r : Record) (t : MappingTree) : Prop where
  /-- Apart from their mappings the nodes are those that are stored one at a time. -/
  stored : (Arena.ofRecord r).slots.map Slot.label = t.nodes.map Node.unmapped
  stored_parents : (Arena.ofRecord r).slots.map Slot.parent = t.parents
  stored_children : (Arena.ofRecord r).slots.map Slot.children = t.children
  /-- Every node has an entry among the parents and one among the children. -/
  length_parents : t.parents.length = t.nodes.length
  length_children : t.children.length = t.nodes.length
  /-- A parent stands before its children. -/
  parent_lt : ∀ p c, t.IsParent p c → p < c
  /-- The children of a node are all nodes with it as their parent, in order. -/
  children_iff : ∀ i cs, t.children[i]? = some cs →
    cs.Pairwise (· < ·) ∧ ∀ c, c ∈ cs ↔ t.IsParent i c
  /-- The nodes of its attributes go ahead of those of its elements. -/
  declares : ∀ (i : Nat) n cs, t.nodes[i]? = some n → t.children[i]? = some cs → Declares r t n cs
  path_root : ∀ (i : Nat) n, t.nodes[i]? = some n → t.parents[i]? = some none →
    n.path = Path.root.child n.tag
  path_child : ∀ (i : Nat) n p, t.nodes[i]? = some n → t.IsParent p i →
    ∃ m, t.nodes[p]? = some m ∧ n.path = m.path.child n.tag
  /-- What lies below a node is an interval, and what is collected from it goes through that. -/
  interval : ∀ (i : Nat) n, t.nodes[i]? = some n → ∃ k, i + k < t.nodes.length ∧
    (∀ j, t.IsBelow i j ↔ i < j ∧ j ≤ i + k) ∧
    t.mappingsFrom i = ((t.nodes.drop i).take (k + 1)).flatMap Node.mappingList
  /-- It is collected from the node itself and then from its children in turn. -/
  collected : ∀ (i : Nat) n cs, t.nodes[i]? = some n → t.children[i]? = some cs →
    t.mappingsFrom i = n.mappingList ++ cs.flatMap t.mappingsFrom
  populated : ∀ i, t.isPopulated i = true ↔ t.mappingsFrom i ≠ []

/-- Whatever has been edited, the nodes are listed in pre-order: a node stands after its parent and
is followed by what lies below it, that of its attributes first, and this interval is what is
collected from it. -/
theorem arranged_afterEdits (r : Record) (es : List Edit) :
    Arranged r ((ofRecord r).afterEdits es) where
  stored := by
    rw [Arena.slots_ofRecord, Forest.map_label_slots, ← map_unmapped_afterEdits r es,
      Forest.labels_map, nodes]
  stored_parents := by
    rw [Arena.slots_ofRecord, Forest.map_parent_slots, ← map_unmapped_afterEdits r es,
      Forest.parents_map, parents]
  stored_children := by
    rw [Arena.slots_ofRecord, Forest.map_children_slots, ← map_unmapped_afterEdits r es,
      Forest.children_map, children]
  length_parents := length_parents
  length_children := length_children
  parent_lt := fun _ _ => IsParent.lt
  children_iff := by
    intro i cs hcs
    obtain ⟨n, below, hat, rfl⟩ := exists_at_of_children hcs
    exact ⟨Forest.pairwise_topIndices, fun c => (isParent_iff hat).symm⟩
  declares := fun _ _ _ => declares_afterEdits
  path_root := fun _ _ => path_of_parent_none (laidOut_afterEdits r es)
  path_child := fun _ _ _ => path_of_isParent (laidOut_afterEdits r es)
  interval := by
    intro i n hn
    obtain ⟨below, hat⟩ := Forest.exists_at_of_getElem? hn
    refine ⟨below.size, ?_, fun j => isBelow_iff hat, mappingsFrom_of_at hat⟩
    rw [nodes, Forest.length_labels]
    exact hat.end_lt
  collected := fun _ _ _ => mappingsFrom_children
  populated := fun _ => isPopulated_iff_mappingsFrom

end MappingTree

end Crosswalk
