import Crosswalk.Proofs.Forest
import Crosswalk.Proofs.SortedMap
import Crosswalk.Tree.Edit

/-!
Mapping documents over whole runs of edits. Whether it succeeds or fails, an edit changes the
mappings of one node at most, in one of three ways; so what an instance has and these changes keep
holds after any edits. Nodes keep the paths that the schema gave them. A node's mappings are listed
under their inputs and are for its path, and a node that a choice fixes has none.
-/

namespace Crosswalk

/-! ### What an edit does -/

theorem bind_eq_ok_iff {ε α β : Type} {x : Except ε α} {f : α → Except ε β} {b : β} :
    (x >>= f) = .ok b ↔ ∃ a, x = .ok a ∧ f a = .ok b := by
  cases x with
  | error e => simp [bind, Except.bind]
  | ok a => simp [bind, Except.bind]

theorem bind_eq_error_iff {ε α β : Type} {x : Except ε α} {f : α → Except ε β} {e : ε} :
    (x >>= f) = .error e ↔ x = .error e ∨ ∃ a, x = .ok a ∧ f a = .error e := by
  cases x with
  | error e' => simp [bind, Except.bind]
  | ok a => simp [bind, Except.bind]

theorem map_eq_ok_iff {ε α β : Type} {x : Except ε α} {f : α → β} {b : β} :
    f <$> x = .ok b ↔ ∃ a, x = .ok a ∧ f a = b := by
  cases x with
  | error e => simp [Functor.map, Except.map]
  | ok a => simp [Functor.map, Except.map]

theorem Mapping.checkSiblings_eq_ok_iff {m : Mapping} :
    m.checkSiblings = .ok () ↔ ∀ s ∈ m.siblings, s.parent? = m.input.parent? := by
  rw [checkSiblings]
  split
  · next s hs =>
    constructor
    · intro h
      cases h
    · intro h
      simpa [h s (List.mem_of_find?_eq_some hs)] using List.find?_some hs
  · next hnone => simpa using List.find?_eq_none.mp hnone

/-- Whether a node takes a mapping, unless it has one from the same input. -/
structure Node.Permits (n : Node) (m : Mapping) : Prop where
  aimed : m.output = n.path
  free : n.fixedMembership? = none
  akin : ∀ s ∈ m.siblings, s.parent? = m.input.parent?

namespace Node

variable {n n' : Node}

theorem accept_eq_ok_iff {m : Mapping} :
    n.accept m = .ok () ↔ n.Permits m ∧ n.mapping? m.input = none := by
  constructor
  · intro h
    rw [accept] at h
    split at h
    · cases h
    · next hpath =>
      split at h
      · cases h
      · next hfixed =>
        obtain ⟨_, hsiblings, h⟩ := bind_eq_ok_iff.mp h
        split at h
        · cases h
        · next hfresh =>
          exact ⟨⟨Decidable.not_not.mp hpath, hfixed, Mapping.checkSiblings_eq_ok_iff.mp hsiblings⟩,
            Option.not_isSome_iff_eq_none.mp hfresh⟩
  · rintro ⟨⟨haimed, hfree, hakin⟩, hnone⟩
    have hfresh : ¬n.mappings.contains m.input = true := Option.not_isSome_iff_eq_none.mpr hnone
    rw [accept, if_neg (not_not_intro haimed), hfree]
    exact bind_eq_ok_iff.mpr ⟨(), Mapping.checkSiblings_eq_ok_iff.mpr hakin, if_neg hfresh⟩

/-- How an edit may change the mappings of a node. -/
inductive Turns (n : Node) : SortedMap Path Mapping → Prop where
  | attach (m : Mapping) (h : n.accept m = .ok ()) : Turns n (n.mappings.insert m.input m)
  | detach (input : Path) : Turns n (n.mappings.erase input)
  | change (input : Path) (f : Mapping → Mapping)
      (h : ∀ m, (f m).output = m.output ∧ (f m).inputs = m.inputs) :
      Turns n (n.mappings.adjust input f)

end Node

/-! ### What edits do to a tree -/

namespace Editing

variable {α β : Type} {x : Editing α} {f : α → Editing β} {t u : MappingTree} {i : Nat}

theorem runOn_bind_of_ok {a : α} (h : x.runOn t = (.ok a, u)) :
    (x >>= f).runOn t = (f a).runOn u := by
  rw [runOn] at h
  rw [runOn, ExceptT.run_bind, StateT.run_bind, Id.run_bind, h]
  rfl

theorem runOn_bind_of_error {e : AttachError} (h : x.runOn t = (.error e, u)) :
    (x >>= f).runOn t = (.error e, u) := by
  rw [runOn] at h
  rw [runOn, ExceptT.run_bind, StateT.run_bind, Id.run_bind, h]
  rfl

theorem runOn_get : (get : Editing MappingTree).runOn t = (.ok t, t) := rfl

theorem runOn_node_of_some {n : Node} (h : t.nodes[i]? = some n) :
    (node i).runOn t = (.ok n, t) := by
  rw [node, runOn_bind_of_ok runOn_get, h]
  rfl

theorem runOn_node_of_none (h : t.nodes[i]? = none) :
    (node i).runOn t = (.error (.noNode i), t) := by
  rw [node, runOn_bind_of_ok runOn_get, h]
  rfl

/-- A mapping is attached by one write, after all that may be wrong with it. -/
theorem runOn_add (i : Nat) (m : Mapping) (t : MappingTree) :
    (add i m).runOn t =
      match t.nodes[i]? with
      | some n =>
        match n.accept m with
        | .ok _ => (.ok { event := ⟨i, m.input, .mappingAdded⟩ },
          t.setNode i { n with mappings := n.mappings.insert m.input m })
        | .error e => (.error e, t)
      | none => (.error (.noNode i), t) := by
  rw [add]
  cases hn : t.nodes[i]? with
  | some n =>
    rw [runOn_bind_of_ok (runOn_node_of_some hn)]
    dsimp only
    cases n.accept m with
    | ok _ => rfl
    | error e => rfl
  | none => exact runOn_bind_of_error (runOn_node_of_none hn)

theorem runOn_attach (m : Mapping) (t : MappingTree) :
    (attach m).runOn t =
      match t.nodeAt? m.output with
      | some i => (add i m).runOn t
      | none => (.error (.unknownNode m.output), t) := by
  rw [attach, runOn_bind_of_ok runOn_get]
  cases t.nodeAt? m.output with
  | some i => rfl
  | none => rfl

/-- A mapping is detached by a write that comes first: the node has been written when there turns
out to be no mapping from the input. -/
theorem runOn_remove (i : Nat) (input : Path) (t : MappingTree) :
    (remove i input).runOn t =
      match t.nodes[i]? with
      | some n =>
        (match n.mapping? input with
          | some m => .ok { event := ⟨i, input, .mappingRemoved⟩, removed := some m }
          | none => .error (.notAttached n.path input),
        t.setNode i { n with mappings := n.mappings.erase input })
      | none => (.error (.noNode i), t) := by
  rw [remove]
  cases hn : t.nodes[i]? with
  | some n =>
    rw [runOn_bind_of_ok (runOn_node_of_some hn)]
    dsimp only
    cases n.mapping? input with
    | some m => rfl
    | none => rfl
  | none => exact runOn_bind_of_error (runOn_node_of_none hn)

/-- A mapping is changed by one write, once it has been found. -/
theorem runOn_change (i : Nat) (input : Path) (kind : ChangeKind) (f : Mapping → Mapping)
    (t : MappingTree) :
    (change i input kind f).runOn t =
      match t.nodes[i]? with
      | some n =>
        match n.mapping? input with
        | some _ => (.ok { event := ⟨i, input, kind⟩ },
          t.setNode i { n with mappings := n.mappings.adjust input f })
        | none => (.error (.notAttached n.path input), t)
      | none => (.error (.noNode i), t) := by
  rw [change]
  cases hn : t.nodes[i]? with
  | some n =>
    rw [runOn_bind_of_ok (runOn_node_of_some hn)]
    dsimp only
    cases n.mapping? input with
    | some m => rfl
    | none => rfl
  | none => exact runOn_bind_of_error (runOn_node_of_none hn)

end Editing

namespace MappingTree

variable {t : MappingTree} {i : Nat} {m : Mapping} {input : Path} {c : Change}

/-- Attaching succeeds at a node that accepts the mapping, and changes the mappings of that node. -/
theorem add_eq_ok_iff :
    t.add i m = .ok c ↔ ∃ n, t.nodes[i]? = some n ∧ n.accept m = .ok () ∧
      c = { tree := t.setNode i { n with mappings := n.mappings.insert m.input m }
            event := ⟨i, m.input, .mappingAdded⟩ } := by
  rw [add, edit, Edit.perform, Editing.outcome, Editing.runOn_add]
  cases hn : t.nodes[i]? with
  | none => simp
  | some n =>
    cases haccept : n.accept m with
    | error e => simp [haccept]
    | ok _ => simp [haccept, eq_comm]

/-- Detaching succeeds at a node with a mapping from the input, and hands that mapping back. -/
theorem remove_eq_ok_iff :
    t.remove i input = .ok c ↔ ∃ n m, t.nodes[i]? = some n ∧ n.mapping? input = some m ∧
      c = { tree := t.setNode i { n with mappings := n.mappings.erase input }
            event := ⟨i, input, .mappingRemoved⟩
            removed := some m } := by
  rw [remove, edit, Edit.perform, Editing.outcome, Editing.runOn_remove]
  cases hn : t.nodes[i]? with
  | none => simp
  | some n =>
    cases hm : n.mapping? input with
    | none => simp [hm]
    | some m => simp [hm, eq_comm]

/-- A mapping is changed at a node that has one from the input. -/
theorem change_eq_ok_iff {kind : ChangeKind} {f : Mapping → Mapping} :
    (Editing.change i input kind f).outcome t = .ok c ↔
      ∃ n m, t.nodes[i]? = some n ∧ n.mapping? input = some m ∧
        c = { tree := t.setNode i { n with mappings := n.mappings.adjust input f }
              event := ⟨i, input, kind⟩ } := by
  rw [Editing.outcome, Editing.runOn_change]
  cases hn : t.nodes[i]? with
  | none => simp
  | some n =>
    cases hm : n.mapping? input with
    | none => simp [hm]
    | some m => simp [hm, eq_comm]

/-- How an edit may leave a tree: as it is, or with the mappings of one node changed. -/
def Turns (t u : MappingTree) : Prop :=
  u = t ∨ ∃ i n ms, t.nodes[i]? = some n ∧ n.Turns ms ∧
    u = t.setNode i { n with mappings := ms }

theorem turns_add : t.Turns ((Editing.add i m).runOn t).2 := by
  rw [Editing.runOn_add]
  split
  · next n hn =>
    split
    · next haccept => exact .inr ⟨i, n, _, hn, .attach m haccept, rfl⟩
    · exact .inl rfl
  · exact .inl rfl

theorem turns_attach : t.Turns ((Editing.attach m).runOn t).2 := by
  rw [Editing.runOn_attach]
  split
  · exact turns_add
  · exact .inl rfl

theorem turns_remove : t.Turns ((Editing.remove i input).runOn t).2 := by
  rw [Editing.runOn_remove]
  split
  · next n hn => exact .inr ⟨i, n, _, hn, .detach input, rfl⟩
  · exact .inl rfl

theorem turns_change {kind : ChangeKind} {f : Mapping → Mapping}
    (hf : ∀ m, (f m).output = m.output ∧ (f m).inputs = m.inputs) :
    t.Turns ((Editing.change i input kind f).runOn t).2 := by
  rw [Editing.runOn_change]
  split
  · next n hn =>
    split
    · exact .inr ⟨i, n, _, hn, .change input f hf, rfl⟩
    · exact .inl rfl
  · exact .inl rfl

/-- Whether it succeeds or fails, an edit leaves a tree with the mappings of one node changed at
most. -/
theorem turns_afterEdit (t : MappingTree) (e : Edit) : t.Turns (t.afterEdit e) := by
  cases e with
  | attach m => exact turns_attach
  | add i m => exact turns_add
  | remove i input => exact turns_remove
  | setSnippet i input snippet => exact turns_change fun _ => ⟨rfl, rfl⟩
  | setDictionary i input dictionary => exact turns_change fun _ => ⟨rfl, rfl⟩
  | setDocumentation i input documentation => exact turns_change fun _ => ⟨rfl, rfl⟩

/-- What a tree has and every change of one node's mappings keeps, the tree has after any edits. -/
theorem afterEdits_induction {P : MappingTree → Prop} (hstep : ∀ t i n ms, P t →
      t.nodes[i]? = some n → n.Turns ms → P (t.setNode i { n with mappings := ms }))
    {t : MappingTree} (h : P t) (es : List Edit) : P (t.afterEdits es) := by
  induction es generalizing t with
  | nil => exact h
  | cons e es ih =>
    refine ih ?_
    rcases turns_afterEdit t e with htree | ⟨i, n, ms, hn, hturns, htree⟩
    · rwa [htree]
    · rw [htree]
      exact hstep t i n ms h hn hturns

end MappingTree

/-! ### Positions -/

/-- Whether the nodes of a forest beneath a path have the paths that their tags give them. -/
def Forest.LaidOut {α : Type} (node : α → Node) (parent : Path) : Forest α → Prop
  | .nil => True
  | .tree a below next =>
    (node a).path = parent.child (node a).tag ∧ LaidOut node (node a).path below ∧
      LaidOut node parent next

namespace Forest

theorem LaidOut.append {α : Type} {node : α → Node} {parent : Path} {f g : Forest α}
    (hf : f.LaidOut node parent) (hg : g.LaidOut node parent) : (f ++ g).LaidOut node parent := by
  induction f with
  | nil => exact hg
  | tree a below next _ ih => exact ⟨hf.1, hf.2.1, ih hf.2.2⟩

theorem LaidOut.join {α : Type} {node : α → Node} {parent : Path} {fs : List (Forest α)}
    (h : ∀ f ∈ fs, f.LaidOut node parent) : (join fs).LaidOut node parent := by
  induction fs with
  | nil => trivial
  | cons f fs ih =>
    exact (h f List.mem_cons_self).append (ih fun g hg => h g (List.mem_cons_of_mem _ hg))

/-- Nodes stay in place when the mappings of one are changed. -/
theorem LaidOut.modify {n : Node} {ms : SortedMap Path Mapping} {f : Forest Node} :
    ∀ {parent : Path} {i : Nat}, f.labels[i]? = some n → f.LaidOut id parent →
      (f.modify (fun _ => { n with mappings := ms }) i).LaidOut id parent := by
  induction f with
  | nil => intro parent i hi; simp [labels] at hi
  | tree a below next hb hn =>
    rintro parent i hi ⟨hpath, hbelow, hnext⟩
    cases i with
    | zero =>
      obtain rfl : a = n := by simpa [labels] using hi
      exact ⟨hpath, hbelow, hnext⟩
    | succ i =>
      rw [labels, List.getElem?_cons_succ, List.getElem?_append, length_labels] at hi
      rw [Forest.modify]
      split at hi
      · next h => rw [if_pos h]; exact ⟨hpath, hb hi hbelow, hnext⟩
      · next h => rw [if_neg h]; exact ⟨hpath, hbelow, hn hi hnext⟩

end Forest

namespace Instance

theorem laidOut_attributeNodes {path : Path} {variant : Option Variant} {as : List Attribute} :
    (attributeNodes path variant as).LaidOut id path := by
  induction as with
  | nil => trivial
  | cons a as ih => exact ⟨rfl, trivial, ih⟩

theorem laidOut_nodes {f : Forest Element} : ∀ {parent : Path} {variant : Option Variant}
    {first : Nat}, (nodes parent variant first f).LaidOut id parent := by
  induction f with
  | nil => intros; trivial
  | tree e below next hb hn =>
    intro parent variant first
    rw [nodes]
    split
    · exact ⟨rfl, laidOut_attributeNodes.append hb, hn⟩
    · refine Forest.LaidOut.append (.join fun g hg => ?_) hn
      obtain ⟨w, -, rfl⟩ := List.mem_map.mp hg
      exact ⟨rfl, laidOut_attributeNodes.append hb, trivial⟩

theorem mappings_attributeNodes {path : Path} {variant : Option Variant} {as : List Attribute} :
    ∀ n ∈ (attributeNodes path variant as).labels, n.mappings = .empty := by
  induction as with
  | nil => simp [attributeNodes, Forest.labels]
  | cons a as ih =>
    simp only [attributeNodes, Forest.labels, List.nil_append, List.forall_mem_cons]
    exact ⟨rfl, ih⟩

theorem mem_labels_join {α : Type} {a : α} {fs : List (Forest α)} :
    a ∈ (Forest.join fs).labels ↔ ∃ f ∈ fs, a ∈ f.labels := by
  induction fs with
  | nil => simp [Forest.join, Forest.labels]
  | cons f fs ih => simp [Forest.join, ih]

/-- An instance has no mappings. -/
theorem mappings_nodes {f : Forest Element} : ∀ {parent : Path} {variant : Option Variant}
    {first : Nat}, ∀ n ∈ (nodes parent variant first f).labels, n.mappings = .empty := by
  induction f with
  | nil => intro parent variant first n hn; simp [nodes, Forest.labels] at hn
  | tree e below next hb hn =>
    intro parent variant first n h
    rw [nodes] at h
    split at h
    · simp only [Forest.labels, Forest.labels_append, List.mem_cons, List.mem_append] at h
      rcases h with rfl | (h | h) | h
      · rfl
      · exact mappings_attributeNodes n h
      · exact hb n h
      · exact hn n h
    · simp only [Forest.labels_append, List.mem_append, mem_labels_join] at h
      rcases h with ⟨g, hg, h⟩ | h
      · obtain ⟨w, -, rfl⟩ := List.mem_map.mp hg
        simp only [Forest.single, Forest.labels, Forest.labels_append, List.append_nil,
          List.mem_cons, List.mem_append] at h
        rcases h with rfl | h | h
        · rfl
        · exact mappings_attributeNodes n h
        · exact hb n h
      · exact hn n h

end Instance

/-- The nodes of a mapping document stay where the schema put them. -/
theorem MappingTree.laidOut_afterEdits (r : Record) (es : List Edit) :
    ((ofRecord r).afterEdits es).forest.LaidOut id Path.root := by
  refine afterEdits_induction (P := fun t => t.forest.LaidOut id Path.root) ?_
    Instance.laidOut_nodes es
  intro t i n ms h hn _
  exact h.modify hn

/-! ### Mappings of a node -/

/-- Whether the mappings of a node are listed under their inputs and are for the node's path, and
whether a node that a choice fixes has none. -/
structure Node.WellMapped (n : Node) : Prop where
  keyed : ∀ e ∈ n.mappings.toList, e.2.input = e.1
  aimed : ∀ e ∈ n.mappings.toList, e.2.output = n.path
  akin : ∀ e ∈ n.mappings.toList, ∀ s ∈ e.2.siblings, s.parent? = e.2.input.parent?
  free : n.fixedMembership?.isSome → n.mappings.toList = []

namespace Node

theorem WellMapped.of_empty {n : Node} (h : n.mappings = .empty) : n.WellMapped := by
  have hnil : n.mappings.toList = [] := h ▸ rfl
  refine ⟨?_, ?_, ?_, fun _ => hnil⟩ <;> simp [hnil]

/-- No change of a node's mappings puts one where it does not belong. -/
theorem WellMapped.turns {n : Node} {ms : SortedMap Path Mapping} (h : n.WellMapped)
    (hms : n.Turns ms) : WellMapped { n with mappings := ms } := by
  cases hms with
  | attach m haccept =>
    obtain ⟨⟨hpath, hfixed, hsiblings⟩, -⟩ := accept_eq_ok_iff.mp haccept
    have hmem : ∀ e ∈ (n.mappings.insert m.input m).toList,
        e = (m.input, m) ∨ e ∈ n.mappings.toList :=
      fun e he => SortedMap.mem_insert he
    refine ⟨fun e he => ?_, fun e he => ?_, fun e he => ?_, fun hsome => ?_⟩
    · rcases hmem e he with rfl | he
      · rfl
      · exact h.keyed e he
    · rcases hmem e he with rfl | he
      · exact hpath
      · exact h.aimed e he
    · rcases hmem e he with rfl | he
      · exact hsiblings
      · exact h.akin e he
    · have hsome : n.fixedMembership?.isSome := hsome
      rw [hfixed] at hsome
      cases hsome
  | detach input =>
    refine ⟨fun e he => h.keyed e (SortedMap.mem_erase he), fun e he =>
      h.aimed e (SortedMap.mem_erase he), fun e he => h.akin e (SortedMap.mem_erase he), ?_⟩
    intro hsome
    rw [List.eq_nil_iff_forall_not_mem]
    intro e he
    have := SortedMap.mem_erase he
    rw [h.free hsome] at this
    cases this
  | change input f hf =>
    have hsame : ∀ e ∈ (n.mappings.adjust input f).toList, ∃ m, (e.1, m) ∈ n.mappings.toList ∧
        e.2.output = m.output ∧ e.2.input = m.input ∧ e.2.siblings = m.siblings := by
      intro e he
      obtain ⟨m, hm, hem | hem⟩ := SortedMap.mem_adjust he
      · exact ⟨m, hm, by rw [hem], by rw [hem], by rw [hem]⟩
      · obtain ⟨houtput, hinputs⟩ := hf m
        obtain ⟨hinput, hsiblings⟩ := List.cons.inj hinputs
        exact ⟨m, hm, by rw [hem, houtput], by rw [hem, hinput], by rw [hem, hsiblings]⟩
    refine ⟨fun e he => ?_, fun e he => ?_, fun e he => ?_, fun hsome => ?_⟩
    · obtain ⟨m, hm, -, hinput, -⟩ := hsame e he
      exact hinput.trans (h.keyed _ hm)
    · obtain ⟨m, hm, houtput, -, -⟩ := hsame e he
      exact houtput.trans (h.aimed _ hm)
    · obtain ⟨m, hm, -, hinput, hsiblings⟩ := hsame e he
      rw [hinput, hsiblings]
      exact h.akin _ hm
    · rw [List.eq_nil_iff_forall_not_mem]
      intro e he
      obtain ⟨m, hm, -⟩ := hsame e he
      rw [h.free hsome] at hm
      cases hm

end Node

/-- The mappings of a mapping document are where they belong, whatever has been edited. -/
theorem MappingTree.wellMapped_afterEdits (r : Record) (es : List Edit) :
    ∀ n ∈ ((ofRecord r).afterEdits es).nodes, n.WellMapped := by
  have hstart : ∀ n ∈ (ofRecord r).nodes, n.WellMapped :=
    fun n hn => .of_empty (Instance.mappings_nodes (f := r.elements) n hn)
  refine afterEdits_induction (P := fun t => ∀ n ∈ t.nodes, n.WellMapped) ?_ hstart es
  intro t i n ms h hn hturns n' hn'
  rcases Forest.mem_labels_modify hn' with hn' | ⟨_, -, rfl⟩
  · exact h n' hn'
  · exact (h n (List.mem_of_getElem? hn)).turns hturns

namespace Node.WellMapped

variable {n : Node} (h : n.WellMapped)

include h

theorem output_eq {m : Mapping} (hm : m ∈ n.mappingList) : m.output = n.path := by
  obtain ⟨e, he, rfl⟩ := List.mem_map.mp hm
  exact h.aimed e he

/-- The mapping from an input is the one listed that has the input. -/
theorem mapping?_eq_some_iff {input : Path} {m : Mapping} :
    n.mapping? input = some m ↔ m ∈ n.mappingList ∧ m.input = input := by
  rw [mapping?, SortedMap.find?_eq_some_iff]
  constructor
  · intro hm
    exact ⟨List.mem_map.mpr ⟨_, hm, rfl⟩, h.keyed _ hm⟩
  · rintro ⟨hm, rfl⟩
    obtain ⟨⟨k, m⟩, he, rfl⟩ := List.mem_map.mp hm
    exact h.keyed _ he ▸ he

theorem not_fixed {m : Mapping} (hm : m ∈ n.mappingList) : n.fixedMembership? = none := by
  obtain ⟨e, he, -⟩ := List.mem_map.mp hm
  rw [← Option.not_isSome_iff_eq_none]
  intro hsome
  rw [h.free hsome] at he
  cases he

end Node.WellMapped

end Crosswalk
