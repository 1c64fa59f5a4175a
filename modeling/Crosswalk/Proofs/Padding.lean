import Crosswalk.Program.Generation
import Crosswalk.Proofs.Numbering
import Crosswalk.Proofs.Position

/-!
Bare trees put into a mapping tree. A node is bare if it has no mappings and no choice fixes its
value, and a tree of bare nodes emits nothing, takes no numbers and stands in the way of no other
node; so with such trees put in, below any nodes and in any places, what could be attached still
can, and the program stays as it is. Only the top trees stay by themselves, for the first of them is
the root of the output.
-/

namespace Crosswalk

/-! ### Trees put into a forest -/

namespace Forest

variable {α : Type} {spare : α → Prop} {opened : Bool} {f f' g g' : Forest α}

/-- Whether a forest becomes another by putting in trees with none but spare labels: below its
trees, and beside them too if it is open. -/
inductive Pads (spare : α → Prop) : Bool → Forest α → Forest α → Prop where
  | nil {opened : Bool} : Pads spare opened .nil .nil
  | tree {opened : Bool} {a : α} {below below' next next' : Forest α}
      (hbelow : Pads spare true below below') (hnext : Pads spare opened next next') :
      Pads spare opened (.tree a below next) (.tree a below' next')
  | put {a : α} {below next next' : Forest α} (ha : spare a) (hbelow : ∀ b ∈ below.labels, spare b)
      (hnext : Pads spare true next next') : Pads spare true next (.tree a below next')

namespace Pads

theorem refl (f : Forest α) : ∀ {opened : Bool}, Pads spare opened f f := by
  induction f with
  | nil => exact .nil
  | tree a below next hb hn => exact .tree hb hn

theorem toOpened (h : Pads spare opened f f') : Pads spare true f f' := by
  induction h with
  | nil => exact .nil
  | tree hbelow _ _ ih => exact .tree hbelow ih
  | put ha hbelow _ ih => exact .put ha hbelow ih

theorem append (h : Pads spare opened f f') (hg : Pads spare opened g g') :
    Pads spare opened (f ++ g) (f' ++ g') := by
  induction h with
  | nil => exact hg
  | tree hbelow _ _ ih => exact .tree hbelow (ih hg)
  | put ha hbelow _ ih => exact .put ha hbelow (ih hg)

theorem join {ι : Type} {is : List ι} {F F' : ι → Forest α}
    (h : ∀ i ∈ is, Pads spare opened (F i) (F' i)) :
    Pads spare opened (Forest.join (is.map F)) (Forest.join (is.map F')) := by
  induction is with
  | nil => exact .nil
  | cons i is ih =>
    rw [List.forall_mem_cons] at h
    exact h.1.append (ih h.2)

/-- A forest of spare labels can be put in anywhere. -/
theorem putAll (hg : ∀ b ∈ g.labels, spare b) (h : Pads spare true f f') :
    Pads spare true f (g ++ f') := by
  induction g with
  | nil => exact h
  | tree a below next _ ih =>
    obtain ⟨ha, hbelow, hnext⟩ := forall_labels_tree.mp hg
    exact .put ha hbelow (ih hnext)

theorem mem_labels (h : Pads spare opened f f') : ∀ b ∈ f'.labels, b ∈ f.labels ∨ spare b := by
  induction h with
  | nil => exact fun b hb => .inl hb
  | tree _ _ hb hn =>
    rw [forall_labels_tree]
    exact ⟨.inl List.mem_cons_self, fun b h => (hb b h).imp_left mem_labels_of_mem_below,
      fun b h => (hn b h).imp_left mem_labels_of_mem_next⟩
  | put ha hbelow _ hn =>
    exact forall_labels_tree.mpr ⟨.inr ha, fun b h => .inr (hbelow b h), hn⟩

theorem any_eq {p : α → Bool} (hp : ∀ a, spare a → p a = false) (h : Pads spare opened f f') :
    f'.any p = f.any p := by
  induction h with
  | nil => rfl
  | tree _ _ hb hn => rw [any, any, hb, hn]
  | @put a below _ _ ha hbelow _ hn =>
    have hbelow : below.any p = false := by
      rw [Bool.eq_false_iff]
      intro hany
      obtain ⟨b, hb, hpb⟩ := any_iff.mp hany
      rw [hp b (hbelow b hb)] at hpb
      cases hpb
    rw [any, hp a ha, hbelow, hn]
    rfl

theorem flatMap_eq {β : Type} {k : α → List β} (hk : ∀ a, spare a → k a = [])
    (h : Pads spare opened f f') : f'.labels.flatMap k = f.labels.flatMap k := by
  induction h with
  | nil => rfl
  | tree _ _ hb hn =>
    rw [labels, labels, List.flatMap_cons, List.flatMap_cons, List.flatMap_append,
      List.flatMap_append, hb, hn]
  | put ha hbelow _ hn =>
    rw [labels, List.flatMap_cons, List.flatMap_append, hk _ ha, hn,
      List.flatMap_eq_nil_iff.mpr fun b hb => hk b (hbelow b hb)]
    rfl

end Pads

/-! ### Positions that correspond -/

/-- Whether a label of a forest and one of another that it becomes are the same and can be replaced
together. -/
structure Aligned (spare : α → Prop) (opened : Bool) (f f' : Forest α) (i i' : Nat) : Prop where
  label : ∃ a, f.labels[i]? = some a ∧ f'.labels[i']? = some a
  modify : ∀ b, Pads spare opened (f.modify (fun _ => b) i) (f'.modify (fun _ => b) i')

namespace Aligned

variable {a : α} {below below' next next' : Forest α} {i i' : Nat}

theorem top (hbelow : Pads spare true below below') (hnext : Pads spare opened next next') :
    Aligned spare opened (.tree a below next) (.tree a below' next') 0 0 :=
  ⟨⟨a, rfl, rfl⟩, fun _ => .tree hbelow hnext⟩

theorem inBelow (h : Aligned spare true below below' i i') (hnext : Pads spare opened next next') :
    Aligned spare opened (.tree a below next) (.tree a below' next') (i + 1) (i' + 1) := by
  obtain ⟨b, hb, hb'⟩ := h.label
  have hi : i < below.labels.length := (List.getElem?_eq_some_iff.mp hb).1
  have hi' : i' < below'.labels.length := (List.getElem?_eq_some_iff.mp hb').1
  refine ⟨⟨b, ?_, ?_⟩, fun c => ?_⟩
  · rw [labels, List.getElem?_cons_succ, List.getElem?_append_left hi, hb]
  · rw [labels, List.getElem?_cons_succ, List.getElem?_append_left hi', hb']
  · rw [length_labels] at hi hi'
    rw [Forest.modify, Forest.modify, if_pos hi, if_pos hi']
    exact .tree (h.modify c) hnext

theorem inNext (hbelow : Pads spare true below below') (h : Aligned spare opened next next' i i') :
    Aligned spare opened (.tree a below next) (.tree a below' next') (below.size + i + 1)
      (below'.size + i' + 1) := by
  obtain ⟨b, hb, hb'⟩ := h.label
  refine ⟨⟨b, ?_, ?_⟩, fun c => ?_⟩
  · rw [labels, List.getElem?_cons_succ, List.getElem?_append_right (by simp), length_labels,
      Nat.add_sub_cancel_left, hb]
  · rw [labels, List.getElem?_cons_succ, List.getElem?_append_right (by simp), length_labels,
      Nat.add_sub_cancel_left, hb']
  · rw [Forest.modify, Forest.modify, if_neg (by omega), if_neg (by omega), Nat.add_sub_cancel_left,
      Nat.add_sub_cancel_left]
    exact .tree hbelow (h.modify c)

theorem afterPut (ha : spare a) (hbelow : ∀ b ∈ below.labels, spare b)
    (h : Aligned spare true next next' i i') :
    Aligned spare true next (.tree a below next') i (below.size + i' + 1) := by
  obtain ⟨b, hb, hb'⟩ := h.label
  refine ⟨⟨b, hb, ?_⟩, fun c => ?_⟩
  · rw [labels, List.getElem?_cons_succ, List.getElem?_append_right (by simp), length_labels,
      Nat.add_sub_cancel_left, hb']
  · rw [Forest.modify, if_neg (by omega), Nat.add_sub_cancel_left]
    exact .put ha hbelow (h.modify c)

end Aligned

/-- The last position in a tree and those after it: in the trees after it, or else below it, or else
its own. -/
theorem lastPosition?_tree {p : α → Bool} {a : α} {below next : Forest α} :
    MappingTree.lastPosition? p (tree a below next).labels =
      ((MappingTree.lastPosition? p next.labels).map fun i => below.size + i + 1).or
        (((MappingTree.lastPosition? p below.labels).map fun i => i + 1).or
          (if p a then some 0 else none)) := by
  have happend (as bs : List α) : MappingTree.lastPosition? p (as ++ bs) =
      ((MappingTree.lastPosition? p bs).map fun i => as.length + i).or
        (MappingTree.lastPosition? p as) := by
    induction as with
    | nil => cases h : MappingTree.lastPosition? p bs <;> simp [MappingTree.lastPosition?, h]
    | cons a as ih =>
      rw [List.cons_append, MappingTree.lastPosition?, MappingTree.lastPosition?, ih]
      cases MappingTree.lastPosition? p bs with
      | some i => simp [Nat.add_right_comm]
      | none => simp
  rw [labels, MappingTree.lastPosition?, happend, length_labels]
  cases MappingTree.lastPosition? p next.labels with
  | some i => rfl
  | none => cases MappingTree.lastPosition? p below.labels <;> rfl

/-- A label that is not spare is found last in both forests, at positions that correspond, or in
neither. -/
theorem Pads.lastPosition? {p : α → Bool} (hp : ∀ a, spare a → p a = false)
    (h : Pads spare opened f f') :
    (MappingTree.lastPosition? p f.labels = none ∧ MappingTree.lastPosition? p f'.labels = none) ∨
      ∃ i i', MappingTree.lastPosition? p f.labels = some i ∧
        MappingTree.lastPosition? p f'.labels = some i' ∧ Aligned spare opened f f' i i' := by
  induction h with
  | nil => exact .inl ⟨rfl, rfl⟩
  | @tree opened a below below' next next' hbelow hnext hb hn =>
    rw [lastPosition?_tree, lastPosition?_tree]
    -- the last position is sought from the end: first in the trees that follow
    obtain ⟨hnone, hnone'⟩ | ⟨i, i', hi, hi', haligned⟩ := hn
    · rw [hnone, hnone']
      obtain ⟨hnone, hnone'⟩ | ⟨i, i', hi, hi', haligned⟩ := hb
      · rw [hnone, hnone']
        cases p a with
        | true => exact .inr ⟨0, 0, rfl, rfl, .top hbelow hnext⟩
        | false => exact .inl ⟨rfl, rfl⟩
      · rw [hi, hi']
        exact .inr ⟨_, _, rfl, rfl, haligned.inBelow hnext⟩
    · rw [hi, hi']
      exact .inr ⟨_, _, rfl, rfl, .inNext hbelow haligned⟩
  | @put a below next next' ha hbelow hnext hn =>
    have hnone : MappingTree.lastPosition? p below.labels = none :=
      MappingTree.lastPosition?_eq_none_iff.mpr fun b hb => hp b (hbelow b hb)
    rw [lastPosition?_tree, hnone, hp a ha]
    obtain ⟨hnone, hnone'⟩ | ⟨i, i', hi, hi', haligned⟩ := hn
    · rw [hnone, hnone']
      exact .inl ⟨rfl, rfl⟩
    · rw [hi, hi']
      exact .inr ⟨_, _, rfl, rfl, haligned.afterPut ha hbelow⟩

end Forest

/-! ### Bare nodes -/

/-- Whether a node has no mappings and no choice fixes its value. -/
structure Node.Bare (n : Node) : Prop where
  mappings : n.mappings = .empty
  free : n.fixedMembership? = none

namespace Node.Bare

variable {n : Node}

theorem mappingList (h : n.Bare) : n.mappingList = [] := by
  rw [Node.mappingList, h.mappings]
  rfl

theorem hasMappings (h : n.Bare) : n.hasMappings = false := by
  rw [Node.hasMappings, h.mappings]
  rfl

end Node.Bare

/-- Whether a node is bare, and so has no numbered mappings. -/
structure NumberedNode.Bare (n : NumberedNode) : Prop where
  node : n.toNode.Bare
  numbered : n.numbered = []

namespace Numbering

variable {spare : Node → Prop} {opened : Bool} {f f' : Forest Node}

theorem bare_numberNode {n : Node} (h : n.Bare) (tables joined : Nat) :
    (numberNode tables joined n).Bare := by
  refine ⟨h, ?_⟩
  rw [numberNode, h.mappingList]
  rfl

theorem bare_number (h : ∀ n ∈ f.labels, n.Bare) (tables joined : Nat) :
    ∀ a ∈ (number tables joined f).labels, a.Bare := by
  intro a ha
  obtain ⟨n, hn, i, j, rfl⟩ := mem_labels_number ha
  exact bare_numberNode (h n hn) i j

theorem total_eq_zero {count : Node → Nat} (h : ∀ n ∈ f.labels, count n = 0) :
    total count f = 0 := by
  induction f with
  | nil => rfl
  | tree a below next hb hn =>
    obtain ⟨ha, hbelow, hnext⟩ := Forest.forall_labels_tree.mp h
    rw [total, ha, hb hbelow, hn hnext]

theorem total_of_pads {count : Node → Nat} (hcount : ∀ n, spare n → count n = 0)
    (h : f.Pads spare opened f') : total count f' = total count f := by
  induction h with
  | nil => rfl
  | tree _ _ hb hn => rw [total, total, hb, hn]
  | put ha hbelow _ hn =>
    rw [total, hcount _ ha, total_eq_zero fun b hb => hcount b (hbelow b hb), hn, Nat.zero_add]

/-- Bare trees take no numbers. -/
theorem pads_number (hspare : ∀ n, spare n → n.Bare) (h : f.Pads spare opened f') :
    ∀ (tables joined : Nat),
      (number tables joined f).Pads NumberedNode.Bare opened (number tables joined f') := by
  have htables (n : Node) (hn : spare n) : tableCount n = 0 := by
    rw [tableCount, (hspare n hn).mappingList, List.countP_nil]
  have hjoined (n : Node) (hn : spare n) : joinCount n = 0 := by
    rw [joinCount, (hspare n hn).mappingList, List.countP_nil]
  induction h with
  | nil => exact fun _ _ => .nil
  | tree hbelow _ hb hn =>
    intro tables joined
    rw [number, number, total_of_pads htables hbelow, total_of_pads hjoined hbelow]
    exact .tree (hb _ _) (hn _ _)
  | put ha hbelow _ hn =>
    intro tables joined
    rw [number, htables _ ha, hjoined _ ha, total_eq_zero fun b hb => htables b (hbelow b hb),
      total_eq_zero fun b hb => hjoined b (hbelow b hb)]
    exact .put (bare_numberNode (hspare _ ha) _ _)
      (bare_number (fun b hb => hspare b (hbelow b hb)) _ _) (hn _ _)

end Numbering

/-! ### What is emitted -/

namespace Emission

variable {g : Setting} {opened : Bool} {f f' : Forest NumberedNode}

theorem argumentsOf_bare {n : NumberedNode} (h : n.Bare) (scopes : Scopes)
    (ns : List NumberedNode) : argumentsOf g scopes (n :: ns) = argumentsOf g scopes ns := by
  have hemitted : g.emitted n = [] := by
    refine List.eq_nil_iff_forall_not_mem.mpr fun nm hnm => ?_
    have hmem : nm ∈ n.numbered := Setting.mem_numbered_of_mem_emitted hnm
    rw [h.numbered] at hmem
    cases hmem
  rw [argumentsOf]
  split
  · rw [attributeArguments, h.node.free, hemitted]
    rfl
  · rfl

theorem argumentsOf_pads (h : f.Pads NumberedNode.Bare opened f') (scopes : Scopes) :
    argumentsOf g scopes f'.tops = argumentsOf g scopes f.tops := by
  induction h with
  | nil => rfl
  | tree _ _ _ hn => rw [Forest.tops, Forest.tops, argumentsOf, argumentsOf, hn]
  | put ha _ _ hn => rw [Forest.tops, argumentsOf_bare ha, hn]

theorem frontier_bare (h : ∀ n ∈ f.labels, n.Bare) : frontier f = [] := by
  induction f with
  | nil => rfl
  | tree n below next hb hn =>
    obtain ⟨ha, hbelow, hnext⟩ := Forest.forall_labels_tree.mp h
    rw [frontier, ha.node.hasMappings, hb hbelow, hn hnext]
    rfl

theorem frontier_pads (h : f.Pads NumberedNode.Bare opened f') : frontier f' = frontier f := by
  induction h with
  | nil => rfl
  | tree _ _ hb hn => rw [frontier, frontier, hb, hn]
  | put ha hbelow _ hn =>
    rw [frontier, ha.node.hasMappings, frontier_bare hbelow, hn]
    rfl

theorem isPopulated_pads (h : f.Pads NumberedNode.Bare opened f') (n : NumberedNode) :
    isPopulated n f' = isPopulated n f := by
  rw [isPopulated, isPopulated, h.any_eq fun m hm => hm.node.hasMappings]

/-- A node emits the same of itself with bare trees below it, if the rest emits the same. -/
theorem nodeBlock_pads (h : f.Pads NumberedNode.Bare opened f') (isRoot : Bool) (scopes : Scopes)
    (n : NumberedNode) (inner : Scopes → Block) :
    nodeBlock g isRoot scopes n f' inner = nodeBlock g isRoot scopes n f inner := by
  have hmapping (scopes : Scopes) (nm : NumberedMapping) :
      mappingBlock g scopes n f'.tops nm inner = mappingBlock g scopes n f.tops nm inner := by
    simp only [mappingBlock, emit, constructor, argumentsOf_pads h]
  have hparent : commonParent? f' = commonParent? f := by
    rw [commonParent?, commonParent?, frontier_pads h]
  simp only [nodeBlock, branch, isPopulated_pads h, argumentsOf_pads h, hmapping, hparent]

/-- A bare tree emits nothing. -/
theorem nodeBlock_bare {n : NumberedNode} (hn : n.Bare) (h : ∀ m ∈ f.labels, m.Bare)
    (isRoot : Bool) (scopes : Scopes) (inner : Scopes → Block) :
    nodeBlock g isRoot scopes n f inner = .nil := by
  have hpopulated : isPopulated n f = false := by
    rw [isPopulated, hn.node.hasMappings, Bool.false_or, Bool.eq_false_iff]
    intro hany
    obtain ⟨m, hm, hmapped⟩ := Forest.any_iff.mp hany
    rw [(h m hm).node.hasMappings] at hmapped
    cases hmapped
  rw [nodeBlock, hn.node.free, hpopulated]
  simp

theorem blockOf_pads (h : f.Pads NumberedNode.Bare opened f') : blockOf g f' = blockOf g f := by
  induction h with
  | nil => rfl
  | tree hbelow _ hb hn =>
    funext scopes
    rw [blockOf, blockOf, hb, hn, nodeBlock_pads hbelow]
  | put ha hbelow _ hn =>
    funext scopes
    rw [blockOf, nodeBlock_bare ha hbelow, hn]
    rfl

theorem outputOf_pads (h : f.Pads NumberedNode.Bare false f') : outputOf g f' = outputOf g f := by
  cases h with
  | nil => rfl
  | tree hbelow _ =>
    rw [outputOf, outputOf, blockOf_pads hbelow, nodeBlock_pads hbelow, argumentsOf_pads hbelow]

theorem tablesOf_bare {n : NumberedNode} (h : n.Bare) : tablesOf n = [] := by
  rw [tablesOf, h.numbered]
  rfl

end Emission

/-! ### Trees put into a mapping tree -/

namespace MappingTree

variable {new : Path → Prop} {t t' : MappingTree} {m : Mapping}

/-- Whether a mapping tree becomes another by putting in bare trees below its nodes, whose paths are
new to it. -/
structure Pads (new : Path → Prop) (t t' : MappingTree) : Prop where
  same : t' = { t with forest := t'.forest }
  forest : t.forest.Pads (fun n => n.Bare ∧ new n.path) false t'.forest
  apart : ∀ n ∈ t.nodes, ¬new n.path

namespace Pads

theorem nodeAt? (h : t.Pads new t') {p : Path} (hp : ¬new p) :
    (t.nodeAt? p = none ∧ t'.nodeAt? p = none) ∨
      ∃ i i', t.nodeAt? p = some i ∧ t'.nodeAt? p = some i' ∧
        Forest.Aligned (fun n => n.Bare ∧ new n.path) false t.forest t'.forest i i' := by
  refine h.forest.lastPosition? fun n hn => beq_eq_false_iff_ne.mpr ?_
  rintro rfl
  exact hp hn.2

/-- Nodes that correspond can be replaced by one node together. -/
theorem setNode {i i' : Nat} {n : Node} (h : t.Pads new t') (hn : ¬new n.path)
    (haligned : Forest.Aligned (fun n => n.Bare ∧ new n.path) false t.forest t'.forest i i') :
    (t.setNode i n).Pads new (t'.setNode i' n) where
  same := congrArg
    (fun u : MappingTree => { u with forest := t'.forest.modify (fun _ => n) i' }) h.same
  forest := haligned.modify n
  apart := by
    intro a ha
    obtain ha | ⟨b, -, rfl⟩ := Forest.mem_labels_modify ha
    · exact h.apart a ha
    · exact hn

/-- What can be attached to the one tree can be attached to the other, and then it becomes the other
in the same way. -/
theorem attach {c : Change} (h : t.Pads new t') (hc : t.attach m = .ok c) :
    ∃ c', t'.attach m = .ok c' ∧ c.tree.Pads new c'.tree := by
  obtain ⟨i, hi, hadd⟩ := attach_eq_ok_iff.mp hc
  obtain ⟨n, hn, haccept, rfl⟩ := add_eq_ok_iff.mp hadd
  have hold : ¬new n.path := h.apart n (List.mem_of_getElem? hn)
  have hpath : n.path = m.output := by
    obtain ⟨_, hn', hpath⟩ := path_of_nodeAt? hi
    rwa [← Option.some.inj (hn.symm.trans hn')] at hpath
  obtain ⟨hnone, -⟩ | ⟨j, i', hj, hi', haligned⟩ := h.nodeAt? (hpath ▸ hold)
  · rw [hnone] at hi
    cases hi
  obtain rfl := Option.some.inj (hj.symm.trans hi)
  obtain ⟨_, hlabel, hlabel'⟩ := haligned.label
  obtain rfl := Option.some.inj (hlabel.symm.trans hn)
  have hadd' := add_eq_ok_iff.mpr ⟨_, hlabel', haccept, rfl⟩
  exact ⟨_, attach_eq_ok_iff.mpr ⟨i', hi', hadd'⟩, h.setNode hold haligned⟩

theorem attachAll {ms : List Mapping} : ∀ {t t' u : MappingTree}, t.Pads new t' →
    t.attachAll ms = .ok u → ∃ u', t'.attachAll ms = .ok u' ∧ u.Pads new u' := by
  induction ms with
  | nil =>
    intro t t' u h hu
    obtain rfl := Except.ok.inj hu
    exact ⟨t', rfl, h⟩
  | cons m ms ih =>
    intro t t' u h hu
    rw [MappingTree.attachAll] at hu
    obtain ⟨c, hc, hrest⟩ := bind_eq_ok_iff.mp hu
    obtain ⟨c', hc', hpads⟩ := h.attach hc
    obtain ⟨u', hu', hpads'⟩ := ih hpads hrest
    refine ⟨u', ?_, hpads'⟩
    rw [MappingTree.attachAll]
    exact bind_eq_ok_iff.mpr ⟨c', hc', hu'⟩

/-- A focus names a mapping of both trees or of neither. -/
theorem has (h : t.Pads new t') (f : Focus) : t'.has f = t.has f := by
  -- at a new path the one tree has no node, and the other a bare one at most
  by_cases hnew : new f.output
  · have hnone : t.nodeAt? f.output = none := by
      refine lastPosition?_eq_none_iff.mpr fun n hn => beq_eq_false_iff_ne.mpr ?_
      intro heq
      exact h.apart n hn (heq ▸ hnew)
    rw [MappingTree.has, MappingTree.has, hnone]
    cases hi : t'.nodeAt? f.output with
    | none => rfl
    | some i =>
      obtain ⟨n, hn, hpath⟩ := path_of_nodeAt? hi
      obtain hmem | ⟨hbare, -⟩ := h.forest.mem_labels n (List.mem_of_getElem? hn)
      · exact absurd (hpath ▸ hnew) (h.apart n hmem)
      · simp only [Option.bind_some, hn, Node.mapping?, hbare.mappings]
        rfl
  · obtain ⟨hnone, hnone'⟩ | ⟨i, i', hi, hi', haligned⟩ := h.nodeAt? hnew
    · rw [MappingTree.has, MappingTree.has, hnone, hnone']
      rfl
    · obtain ⟨n, hn, hn'⟩ := haligned.label
      rw [MappingTree.has, MappingTree.has, hi, hi', Option.bind_some, Option.bind_some, nodes,
        nodes, hn, hn']

/-- The program stays as it is, and so do its gaps. -/
theorem program (h : t.Pads new t') (snippets : SnippetStore) (focus : Option Focus) :
    t'.program snippets focus = t.program snippets focus := by
  have hnumbered : t.numbered.Pads NumberedNode.Bare false t'.numbered :=
    Numbering.pads_number (fun n hn => hn.1) h.forest 0 0
  have hhas : t'.has = t.has := funext h.has
  have htables := hnumbered.flatMap_eq fun n => Emission.tablesOf_bare (n := n)
  have hsame := h.same
  rw [MappingTree.mk.injEq] at hsame
  obtain ⟨-, -, hnamespaces, hmarkers, hassertions, -⟩ := hsame
  simp only [MappingTree.program, hhas, Emission.outputOf_pads hnumbered, htables, hnamespaces,
    hmarkers, hassertions]

end Pads

end MappingTree

end Crosswalk
