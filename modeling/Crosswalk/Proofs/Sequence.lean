import Crosswalk.Proofs.Edit
import Crosswalk.Proofs.Focus
import Crosswalk.Proofs.Origin

/-!
The sequence of emission. Without a focus the mappings of a tree are emitted in the order of a walk of
it: an element comes to the mappings of its attributes and then to what its child elements come to, and
a mapped element repeats all that after each of its mappings. The constructors, guards and scopes around
it, those of a branch that is emitted as if it were mapped included, neither reorder nor repeat anything.
-/

namespace Crosswalk

/-! ### The walk -/

/-- The output and the input of a mapping. -/
def Mapping.ends (m : Mapping) : Path × Path := (m.output, m.input)

/-- The output and the input of the mapping that emits a block. -/
def Mark.ends (k : Mark) : Path × Path := (k.output, k.input)

namespace Node

/-- The mappings of the attributes among some nodes, in the order of the nodes. -/
def attributeEnds (ns : List Node) : List (Path × Path) :=
  (ns.filter isAttribute).flatMap fun n => n.mappingList.map Mapping.ends

/-- What is inside a node, after each mapping of it if it is mapped. -/
def repeating (n : Node) (inside : List (Path × Path)) : List (Path × Path) :=
  if n.hasMappings then n.mappingList.flatMap fun m => m.ends :: inside else inside

/-- Whether a node that stands for an element without child elements has only attributes below it. -/
def Closed (n : Node) (below : Forest Node) : Prop :=
  n.leaf = true → ∀ a ∈ below.tops, a.isAttribute = true

/-- Whether no node below one whose value is fixed is mapped. -/
def Sealed (n : Node) (below : Forest Node) : Prop :=
  n.fixedMembership?.isSome = true → ∀ a ∈ below.labels, a.hasMappings = false

end Node

namespace Forest

/-- The mappings of the elements of a forest in the order of the walk. Those of the attributes of an
element come ahead of those of its child elements. -/
def walk : Forest Node → List (Path × Path)
  | .nil => []
  | .tree n below next =>
    (if n.isAttribute then []
      else n.repeating (Node.attributeEnds below.tops ++ walk below)) ++ walk next

/-- What the walk of an element comes to inside it, when a forest is below it. -/
def inside (below : Forest Node) : List (Path × Path) :=
  Node.attributeEnds below.tops ++ below.walk

end Forest

/-! ### Nodes without mappings -/

namespace Node

variable {n : Node}

theorem mappingList_eq_nil (h : n.hasMappings = false) : n.mappingList = [] := by
  rw [List.eq_nil_iff_forall_not_mem]
  intro m hm
  rw [Emission.hasMappings_of_mem hm] at h
  cases h

theorem mappingList_ne_nil (h : n.hasMappings = true) : n.mappingList ≠ [] := by
  intro hnil
  rw [hasMappings, SortedMap.isEmpty, List.map_eq_nil_iff.mp hnil] at h
  cases h

theorem WellMapped.unmapped_of_fixed (h : n.WellMapped) (hfixed : n.fixedMembership?.isSome = true) :
    n.hasMappings = false := by
  rw [hasMappings, SortedMap.isEmpty, h.free hfixed]
  rfl

/-- The mappings of a node are listed in the order of their inputs. -/
theorem WellMapped.pairwise_inputs (h : n.WellMapped) :
    (n.mappingList.map Mapping.input).Pairwise fun p q => compare p q = .lt := by
  have hinputs : n.mappingList.map Mapping.input = n.mappings.toList.map Prod.fst := by
    rw [mappingList, SortedMap.values, List.map_map]
    exact List.map_congr_left h.keyed
  rw [hinputs, List.pairwise_map]
  exact n.mappings.increasing

theorem attributeEnds_eq_nil {ns : List Node} (h : ∀ n ∈ ns, n.hasMappings = false) :
    attributeEnds ns = [] := by
  rw [attributeEnds, List.flatMap_eq_nil_iff]
  intro n hn
  rw [mappingList_eq_nil (h n (List.mem_filter.mp hn).1), List.map_nil]

/-- An element comes to nothing only if it is not mapped and nothing is inside it. -/
theorem repeating_eq_nil_iff {inside : List (Path × Path)} :
    n.repeating inside = [] ↔ n.hasMappings = false ∧ inside = [] := by
  rw [repeating]
  cases hmapped : n.hasMappings with
  | false => simp
  | true =>
    obtain ⟨m, hm⟩ := List.exists_mem_of_ne_nil _ (mappingList_ne_nil hmapped)
    simp only [if_true, List.flatMap_eq_nil_iff, reduceCtorEq, false_and, iff_false]
    exact fun h => h m hm

end Node

namespace Forest

variable {f : Forest Node}

theorem walk_eq_nil (h : ∀ n ∈ f.labels, n.hasMappings = false) : f.walk = [] := by
  induction f with
  | nil => rfl
  | tree n below next hb hn =>
    obtain ⟨hmapped, hbelow, hnext⟩ := forall_labels_tree.mp h
    have hattributes : Node.attributeEnds below.tops = [] :=
      Node.attributeEnds_eq_nil fun a ha => hbelow a (mem_labels_of_mem_tops ha)
    have hnode : n.repeating (Node.attributeEnds below.tops ++ walk below) = [] :=
      Node.repeating_eq_nil_iff.mpr ⟨hmapped, by rw [hattributes, hb hbelow, List.nil_append]⟩
    rw [walk, hnode, hn hnext, ite_self, List.nil_append]

theorem inside_eq_nil (h : ∀ n ∈ f.labels, n.hasMappings = false) : f.inside = [] := by
  have hattributes : Node.attributeEnds f.tops = [] :=
    Node.attributeEnds_eq_nil fun a ha => h a (mem_labels_of_mem_tops ha)
  rw [inside, hattributes, walk_eq_nil h, List.nil_append]

/-- The walk of attributes alone comes to nothing: they are emitted with their element. -/
theorem walk_of_attributes (h : ∀ n ∈ f.tops, n.isAttribute = true) : f.walk = [] := by
  induction f with
  | nil => rfl
  | tree n below next _ hn =>
    obtain ⟨hattr, hnext⟩ := List.forall_mem_cons.mp h
    rw [walk, if_pos hattr, hn hnext, List.nil_append]

end Forest

/-! ### Trees of a record -/

/-- Whether the elements of a record are named by element tags and their attributes by attribute
tags. -/
def Record.WellTagged (r : Record) : Prop :=
  ∀ e ∈ r.elements.labels,
    e.tag.isAttribute = false ∧ ∀ a ∈ e.attributes, a.tag.isAttribute = true

instance (r : Record) : Decidable r.WellTagged := inferInstanceAs (Decidable (∀ e ∈ _, _))

namespace Instance

theorem isAttribute_attributeNodes {path : Path} {variant : Option Variant} {as : List Attribute}
    (h : ∀ a ∈ as, a.tag.isAttribute = true) :
    ∀ n ∈ (attributeNodes path variant as).tops, n.isAttribute = true := by
  induction as with
  | nil => simp [attributeNodes, Forest.tops]
  | cons a as ih =>
    obtain ⟨ha, has⟩ := List.forall_mem_cons.mp h
    exact List.forall_mem_cons.mpr ⟨ha, ih has⟩

theorem closed_attributeNodes {path : Path} {variant : Option Variant} {as : List Attribute} :
    (attributeNodes path variant as).Each Node.Closed := by
  induction as with
  | nil => trivial
  | cons a as ih => exact ⟨by simp [Node.Closed, Forest.tops], trivial, ih⟩

/-- An element without child elements has attributes alone below it, in every variant. -/
theorem closed_nodes {f : Forest Element}
    (h : ∀ e ∈ f.labels, ∀ a ∈ e.attributes, a.tag.isAttribute = true) :
    ∀ {parent : Path} {variant : Option Variant} {first : Nat},
      (nodes parent variant first f).Each Node.Closed := by
  induction f with
  | nil => intros; trivial
  | tree e below next hb hn =>
    obtain ⟨he, hbelow, hnext⟩ := Forest.forall_labels_tree.mp h
    have hcontent (path : Path) (w : Option Variant) (first : Nat) : below.isEmpty = true →
        ∀ a ∈ (attributeNodes path w e.attributes ++ nodes path w first below).tops,
          a.isAttribute = true := by
      intro hempty
      cases below with
      | nil =>
        rw [nodes, Forest.append_nil]
        exact isAttribute_attributeNodes he
      | tree => cases hempty
    intro parent variant first
    rw [nodes]
    split
    · exact ⟨hcontent _ _ _, Forest.each_append.mpr ⟨closed_attributeNodes, hb hbelow⟩, hn hnext⟩
    · refine Forest.each_append.mpr ⟨Forest.each_join fun g hg => ?_, hn hnext⟩
      obtain ⟨w, -, rfl⟩ := List.mem_map.mp hg
      exact ⟨hcontent _ _ _, Forest.each_append.mpr ⟨closed_attributeNodes, hb hbelow⟩, trivial⟩

end Instance

namespace MappingTree

variable {r : Record}

theorem closed_afterEdits (hr : r.WellTagged) (es : List Edit) :
    ((ofRecord r).afterEdits es).forest.Each Node.Closed := by
  have hclosed : (ofRecord r).forest.Each Node.Closed :=
    Instance.closed_nodes fun e he => (hr e he).2
  refine each_afterEdits hclosed (fun n below hn hleaf a ha => hn hleaf (Node.unmapped a) ?_) es
  rw [Forest.tops_map]
  exact List.mem_map_of_mem ha

/-- A record without a vocabulary at its root has one root node. -/
theorem forest_afterEdits (hr : r.WellTagged) (hroot : r.root.vocabulary = none) (es : List Edit) :
    ∃ root below, ((ofRecord r).afterEdits es).forest = .single root below ∧
      root.isAttribute = false := by
  have hforest : (ofRecord r).forest = Instance.nodes Path.root none 0 (.single r.root r.below) :=
    rfl
  have hmap := map_unmapped_afterEdits r es
  rw [hforest, Forest.single, Instance.nodes, hroot] at hmap
  obtain ⟨root, below, hsingle, hunmapped⟩ := Forest.eq_single_of_map hmap
  have hattr : root.unmapped.isAttribute = r.root.tag.isAttribute := by rw [hunmapped]; rfl
  exact ⟨root, below, hsingle, hattr.trans (hr r.root List.mem_cons_self).1⟩

end MappingTree

/-! ### The sequence -/

namespace Emission

open Crosswalk.Numbering

variable {snippets : SnippetStore}

theorem ends_attributeLets {g : Setting} {n : NumberedNode} {scopes : Scopes}
    {ms : List NumberedMapping} : ∀ {k : Nat},
      (attributeLets g scopes n k ms).marks.map Mark.ends = ms.map (·.mapping.ends) := by
  induction ms with
  | nil => intro k; rfl
  | cons nm ms ih =>
    intro k
    rw [marks_attributeLets_cons, List.map_cons, ih, List.map_cons]
    rfl

theorem ends_emitted (n : Node) (tables joined : Nat) :
    (Setting.emitted ⟨snippets, none⟩ (numberNode tables joined n)).map (·.mapping.ends) =
      n.mappingList.map Mapping.ends := by
  rw [emitted_none, ← map_numbered tables joined n, List.map_map]
  rfl

/-- The attributes of an element are bound in order. -/
theorem ends_argumentsOf {f : Forest Node} (hwell : ∀ n ∈ f.tops, n.WellMapped) :
    ∀ {tables joined : Nat} {scopes : Scopes},
      (argumentsOf ⟨snippets, none⟩ scopes (number tables joined f).tops).lets.marks.map Mark.ends =
        Node.attributeEnds f.tops := by
  induction f with
  | nil => intros; rfl
  | tree n below next _ ih =>
    obtain ⟨hn, hnext⟩ := List.forall_mem_cons.mp hwell
    intro tables joined scopes
    rw [number, Forest.tops, lets_argumentsOf_cons, Block.marks_append, List.map_append, ih hnext,
      Setting.binds, Forest.tops, toNode_numberNode, inFocus_none, Bool.and_true]
    cases hattr : n.isAttribute with
    | false =>
      rw [Node.attributeEnds, Node.attributeEnds, List.filter_cons_of_neg (by simp [hattr])]
      rfl
    | true =>
      rw [Node.attributeEnds, Node.attributeEnds, List.filter_cons_of_pos hattr, List.flatMap_cons,
        Bool.true_and]
      congr 1
      cases hfixed : n.fixedMembership? with
      | none => exact ends_attributeLets.trans (ends_emitted n tables joined)
      | some w =>
        rw [Node.mappingList_eq_nil (hn.unmapped_of_fixed (by rw [hfixed, Option.isSome_some]))]
        rfl

variable {n : Node} {below : Forest Node} {inner : Scopes → Block}
  {isRoot : Bool} {tables joined tables' joined' : Nat}
  (hn : n.WellMapped) (hbelow : ∀ a ∈ below.labels, a.WellMapped)
  (hinner : ∀ scopes, (inner scopes).marks.map Mark.ends = below.walk)

include hbelow hinner

/-- Each mapping of a node has inside it what the walk comes to inside the node. -/
theorem ends_mappingBlock (hclosed : n.Closed below) (scopes : Scopes) (nm : NumberedMapping) :
    (mappingBlock ⟨snippets, none⟩ scopes (numberNode tables joined n)
      (number tables' joined' below).tops nm inner).marks.map Mark.ends = below.inside := by
  rw [marks_mappingBlock, List.map_append,
    ends_argumentsOf fun a ha => hbelow a (Forest.mem_labels_of_mem_tops ha), Forest.inside]
  split
  · next hleaf => rw [Forest.walk_of_attributes (hclosed hleaf), List.map_nil]
  · rw [hinner]

/-- A branch has the same inside it, whether it is emitted as if it were mapped or not. -/
theorem ends_branch (scopes : Scopes) :
    (branch ⟨snippets, none⟩ isRoot scopes (numberNode tables joined n)
      (number tables' joined' below) inner).marks.map Mark.ends = below.inside := by
  rw [marks_branch, List.map_append, hinner,
    ends_argumentsOf fun a ha => hbelow a (Forest.mem_labels_of_mem_tops ha), Forest.inside]

omit hbelow hinner in
theorem unmapped_of_not_isPopulated
    (h : isPopulated (numberNode tables joined n) (number tables' joined' below) = false) :
    n.hasMappings = false ∧ ∀ a ∈ below.labels, a.hasMappings = false := by
  rw [isPopulated, Bool.or_eq_false_iff] at h
  refine ⟨h.1, fun a ha => ?_⟩
  obtain ⟨i, j, hmem⟩ := numberNode_mem_labels ha tables' joined'
  rw [← Bool.not_eq_true]
  intro hmapped
  have hany : (number tables' joined' below).any (·.hasMappings) = true :=
    Forest.any_iff.mpr ⟨_, hmem, hmapped⟩
  rw [h.2] at hany
  cases hany

include hn

/-- A node emits its mappings and what is inside it in the order of the walk. -/
theorem ends_nodeBlock (hclosed : n.Closed below) (hsealed : n.Sealed below) (scopes : Scopes) :
    (nodeBlock ⟨snippets, none⟩ isRoot scopes (numberNode tables joined n)
      (number tables' joined' below) inner).marks.map Mark.ends =
        if n.isAttribute then [] else n.repeating below.inside := by
  have hnothing (hmapped : n.hasMappings = false) (h : ∀ a ∈ below.labels, a.hasMappings = false) :
      n.repeating below.inside = [] :=
    Node.repeating_eq_nil_iff.mpr ⟨hmapped, Forest.inside_eq_nil h⟩
  rw [marks_nodeBlock, toNode_numberNode, inFocus_none, emitted_none, Bool.not_true, Bool.or_false]
  split
  · rfl
  split
  · next hfixed =>
    have hunmapped := hsealed hfixed
    have hattributes : Node.attributeEnds below.tops = [] :=
      Node.attributeEnds_eq_nil fun a ha => hunmapped a (Forest.mem_labels_of_mem_tops ha)
    rw [hnothing (hn.unmapped_of_fixed hfixed) hunmapped]
    split
    · rw [ends_argumentsOf fun a ha => hbelow a (Forest.mem_labels_of_mem_tops ha), hattributes]
    · rfl
  split
  · next hpopulated =>
    rw [Bool.not_eq_true'] at hpopulated
    obtain ⟨hmapped, hunmapped⟩ := unmapped_of_not_isPopulated hpopulated
    rw [hnothing hmapped hunmapped, List.map_nil]
  rw [Node.repeating]
  split
  · rw [List.map_flatMap, ← map_numbered tables joined n, List.flatMap_map]
    refine List.flatMap_congr fun nm _ => ?_
    rw [List.map_cons, ends_mappingBlock hbelow hinner hclosed]
    rfl
  · exact ends_branch hbelow hinner scopes

omit hn hbelow hinner

/-- The induction is on the forest: what is below a node is emitted in the order of the walk within
whatever scopes the node opens. -/
theorem ends_blockOf {f : Forest Node} (hwell : ∀ n ∈ f.labels, n.WellMapped)
    (hclosed : f.Each Node.Closed) (hsealed : f.Each Node.Sealed) :
    ∀ {tables joined : Nat} (scopes : Scopes),
      (blockOf ⟨snippets, none⟩ (number tables joined f) scopes).marks.map Mark.ends = f.walk := by
  induction f with
  | nil => intros; rfl
  | tree n below next hb hn =>
    obtain ⟨hwellHere, hwellBelow, hwellNext⟩ := Forest.forall_labels_tree.mp hwell
    obtain ⟨hclosedHere, hclosedBelow, hclosedNext⟩ := hclosed
    obtain ⟨hsealedHere, hsealedBelow, hsealedNext⟩ := hsealed
    intro tables joined scopes
    have hinner (scopes : Scopes) : (blockOf ⟨snippets, none⟩
        (number (tables + tableCount n) (joined + joinCount n) below) scopes).marks.map Mark.ends =
          below.walk :=
      hb hwellBelow hclosedBelow hsealedBelow scopes
    rw [number, blockOf, Block.marks_append, List.map_append, hn hwellNext hclosedNext hsealedNext,
      ends_nodeBlock hwellHere hwellBelow hinner hclosedHere hsealedHere, Forest.walk]
    rfl

/-- The root is emitted in any case. If it has nothing to emit by itself, its attributes have no
mappings. -/
theorem ends_outputOf {root : Node} {below : Forest Node}
    (hwell : ∀ n ∈ (Forest.single root below).labels, n.WellMapped)
    (hclosed : (Forest.single root below).Each Node.Closed)
    (hsealed : (Forest.single root below).Each Node.Sealed) (hattr : root.isAttribute = false) :
    (outputOf ⟨snippets, none⟩ (number tables joined (.single root below))).marks.map Mark.ends =
      (Forest.single root below).walk := by
  obtain ⟨hwellHere, hwellBelow, -⟩ := Forest.forall_labels_tree.mp hwell
  let inner : Scopes → Block :=
    blockOf ⟨snippets, none⟩ (number (tables + tableCount root) (joined + joinCount root) below)
  have hinner (scopes : Scopes) : (inner scopes).marks.map Mark.ends = below.walk :=
    ends_blockOf hwellBelow hclosed.2.1 hsealed.2.1 scopes
  have hblock : (nodeBlock ⟨snippets, none⟩ true [] (numberNode tables joined root)
      (number (tables + tableCount root) (joined + joinCount root) below) inner).marks.map Mark.ends =
        if root.isAttribute then [] else root.repeating below.inside :=
    ends_nodeBlock hwellHere hwellBelow hinner hclosed.1 hsealed.1 []
  rw [hattr, if_neg Bool.false_ne_true] at hblock
  have hwalk : (Forest.single root below).walk = root.repeating below.inside := by
    rw [Forest.single, Forest.walk, hattr, Forest.walk, List.append_nil]
    rfl
  rw [Forest.single, number, outputOf, ← Forest.single, hwalk]
  split
  · next hempty =>
    rw [Block.isEmpty_eq_true hempty, Block.marks_nil, List.map_nil] at hblock
    have hnothing := (Node.repeating_eq_nil_iff.mp hblock.symm).2
    rw [← hblock, marks_construct, Block.marks_nil, List.append_nil,
      ends_argumentsOf fun a ha => hwellBelow a (Forest.mem_labels_of_mem_tops ha)]
    exact (List.append_eq_nil_iff.mp hnothing).1
  · exact hblock

end Emission

open Emission

/-- Whatever has been edited, the mappings are emitted in the order of the walk and as often as it
comes to them, and those of one node in the order of their inputs; provided the root of the record has
no vocabulary and nothing below a fixed field is mapped. -/
theorem MappingTree.ends_output {r : Record} (hr : r.WellTagged) (hroot : r.root.vocabulary = none)
    (es : List Edit)
    (hsealed : ∀ p ∈ ((ofRecord r).afterEdits es).forest.subtrees,
      p.1.fixedMembership?.isSome = true → ∀ n ∈ p.2.labels, n.hasMappings = false)
    (snippets : SnippetStore) :
    (((ofRecord r).afterEdits es).program snippets none).1.output.marks.map Mark.ends =
        ((ofRecord r).afterEdits es).forest.walk ∧
      ∀ n ∈ ((ofRecord r).afterEdits es).nodes,
        (n.mappingList.map Mapping.input).Pairwise fun p q => compare p q = .lt := by
  have hwell := wellMapped_afterEdits r es
  refine ⟨?_, fun n hn => (hwell n hn).pairwise_inputs⟩
  have hclosed := closed_afterEdits hr es
  have hsealed : ((ofRecord r).afterEdits es).forest.Each Node.Sealed :=
    Forest.each_iff_subtrees.mpr hsealed
  obtain ⟨root, below, hforest, hattr⟩ := forest_afterEdits hr hroot es
  rw [nodes, hforest] at hwell
  rw [hforest] at hclosed hsealed ⊢
  rw [program, numbered, hforest]
  exact ends_outputOf hwell hclosed hsealed hattr

/-- Mappings of a creator from two source elements, of its identifier and of its name. -/
def repeatedEdits : List Edit :=
  [.attach { output := .ofNames ["record", "creator", "name"], input := .ofNames ["m", "a", "n"] },
    .attach { output := .ofNames ["record", "creator"], input := .ofNames ["m", "b"] },
    .attach
      { output := (Path.ofNames ["record", "creator"]).child (.attr none "id")
        input := .ofNames ["m", "a", "i"] },
    .attach { output := .ofNames ["record", "creator"], input := .ofNames ["m", "a"] }]

/-- The identifier and the name are emitted after each of the creator's mappings. -/
theorem creatorRecord_sequence :
    let t := (MappingTree.ofRecord creatorRecord).afterEdits repeatedEdits
    let creator := Path.ofNames ["record", "creator"]
    let id := (creator.child (.attr none "id"), Path.ofNames ["m", "a", "i"])
    let name := (Path.ofNames ["record", "creator", "name"], Path.ofNames ["m", "a", "n"])
    creatorRecord.WellTagged ∧ creatorRecord.root.vocabulary = none ∧
      (∀ p ∈ t.forest.subtrees, p.1.fixedMembership?.isSome = true →
        ∀ n ∈ p.2.labels, n.hasMappings = false) ∧
      (t.program (fun _ => none) none).1.output.marks.map Mark.ends =
        [(creator, .ofNames ["m", "a"]), id, name, (creator, .ofNames ["m", "b"]), id, name] := by
  intro t creator id name
  have hr : creatorRecord.WellTagged := by decide
  have hsealed : ∀ p ∈ t.forest.subtrees, p.1.fixedMembership?.isSome = true →
      ∀ n ∈ p.2.labels, n.hasMappings = false := by decide +kernel
  have hwalk : t.forest.walk =
      [(creator, .ofNames ["m", "a"]), id, name, (creator, .ofNames ["m", "b"]), id, name] := by
    decide +kernel
  refine ⟨hr, rfl, hsealed, ?_⟩
  rw [(MappingTree.ends_output hr rfl repeatedEdits hsealed _).1]
  exact hwalk

end Crosswalk
