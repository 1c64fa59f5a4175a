import Crosswalk.Proofs.Document

/-!
Edits as changes in one place. A mapping document is determined by what it is without its mappings
and by the mapping that each node has from each input. An edit that succeeds replaces the mapping of
one node from one input, and all else stays; so what the schema made of a tree stays through any
edits, and adding and removing undo one another. One that fails has written nothing, or what was
there.
-/

namespace Crosswalk

/-! ### Trees by their mappings -/

/-- The node without its mappings. -/
def Node.unmapped (n : Node) : Node := { n with mappings := .empty }

theorem Node.ext_mapping? {n n' : Node} (h : n.unmapped = n'.unmapped)
    (hmapping : ∀ input, n.mapping? input = n'.mapping? input) : n = n' := by
  have hmappings : n.mappings = n'.mappings := SortedMap.ext_find? hmapping
  cases n
  cases n'
  simp only [unmapped, Node.mk.injEq] at h hmappings ⊢
  simp [h, hmappings]

namespace MappingTree

variable {t u : MappingTree}

/-- The tree without its mappings. -/
def unmapped (t : MappingTree) : MappingTree := { t with forest := t.forest.map Node.unmapped }

/-- The mapping that a node has from an input. -/
def mappingAt? (t : MappingTree) (i : Nat) (input : Path) : Option Mapping :=
  t.nodes[i]?.bind (·.mapping? input)

theorem nodes_unmapped : t.unmapped.nodes = t.nodes.map Node.unmapped := Forest.labels_map

theorem getElem?_of_unmapped_eq (h : u.unmapped = t.unmapped) {i : Nat} {n : Node}
    (hn : t.nodes[i]? = some n) : ∃ n', u.nodes[i]? = some n' ∧ n'.unmapped = n.unmapped := by
  have hi : u.unmapped.nodes[i]? = some n.unmapped := by
    rw [h, nodes_unmapped, List.getElem?_map, hn, Option.map_some]
  rw [nodes_unmapped, List.getElem?_map] at hi
  exact Option.map_eq_some_iff.mp hi

theorem mappingAt?_of_getElem? {i : Nat} {n : Node} (h : t.nodes[i]? = some n) (input : Path) :
    t.mappingAt? i input = n.mapping? input := by
  rw [mappingAt?, h, Option.bind_some]

theorem isSome_mappingAt?_iff {i : Nat} {input : Path} :
    (t.mappingAt? i input).isSome ↔
      ∃ n m, t.nodes[i]? = some n ∧ n.mapping? input = some m := by
  constructor
  · intro h
    obtain ⟨m, hm⟩ := Option.isSome_iff_exists.mp h
    obtain ⟨n, hn, hm⟩ := Option.bind_eq_some_iff.mp hm
    exact ⟨n, m, hn, hm⟩
  · rintro ⟨n, m, hn, hm⟩
    rw [mappingAt?_of_getElem? hn, hm, Option.isSome_some]

/-- Trees that are equal without their mappings and have the same mappings are equal. -/
theorem ext_mappingAt? (h : t.unmapped = u.unmapped)
    (hmapping : ∀ i input, t.mappingAt? i input = u.mappingAt? i input) : t = u := by
  have hnodes : t.forest.labels = u.forest.labels := by
    refine List.ext_getElem? fun i => ?_
    cases hn : t.nodes[i]? with
    | some n =>
      obtain ⟨n', hn', hunmapped⟩ := getElem?_of_unmapped_eq h.symm hn
      have hnn' : n = n' := by
        refine Node.ext_mapping? hunmapped.symm fun input => ?_
        rw [← mappingAt?_of_getElem? hn, hmapping, mappingAt?_of_getElem? hn']
      exact hn.trans (hnn' ▸ hn'.symm)
    | none =>
      cases hn' : u.nodes[i]? with
      | some n' =>
        obtain ⟨n, hn'', -⟩ := getElem?_of_unmapped_eq h hn'
        rw [hn] at hn''
        cases hn''
      | none => exact hn.trans hn'.symm
  have hforest : t.forest = u.forest := Forest.ext_map (congrArg MappingTree.forest h) hnodes
  cases t
  cases u
  simp only [unmapped, MappingTree.mk.injEq] at h hforest ⊢
  simp [h, hforest]

/-! ### Nodes by their paths -/

theorem lastPosition?_map {α β : Type} {f : α → β} {p : β → Bool} {as : List α} :
    lastPosition? p (as.map f) = lastPosition? (p ∘ f) as := by
  induction as with
  | nil => rfl
  | cons a as ih => simp only [List.map_cons, lastPosition?, ih, Function.comp_apply]

theorem getElem?_of_lastPosition? {α : Type} {p : α → Bool} {as : List α} : ∀ {i : Nat},
    lastPosition? p as = some i → ∃ a, as[i]? = some a ∧ p a = true := by
  induction as with
  | nil => intro i h; cases h
  | cons a as ih =>
    intro i h
    rw [lastPosition?] at h
    split at h
    · next j hj =>
      obtain rfl := Option.some.inj h
      exact ih hj
    · split at h
      · next ha =>
        obtain rfl := Option.some.inj h
        exact ⟨a, rfl, ha⟩
      · cases h

theorem path_of_nodeAt? {p : Path} {i : Nat} (h : t.nodeAt? p = some i) :
    ∃ n, t.nodes[i]? = some n ∧ n.path = p := by
  obtain ⟨n, hn, hpath⟩ := getElem?_of_lastPosition? h
  exact ⟨n, hn, eq_of_beq hpath⟩

theorem nodeAt?_unmapped (p : Path) : t.unmapped.nodeAt? p = t.nodeAt? p := by
  rw [nodeAt?, nodes_unmapped, lastPosition?_map]
  rfl

theorem nodeAt?_of_unmapped_eq (h : u.unmapped = t.unmapped) (p : Path) :
    u.nodeAt? p = t.nodeAt? p := by
  rw [← nodeAt?_unmapped, h, nodeAt?_unmapped]

/-! ### Changes in one place -/

/-- Whether one tree is another with the mapping of a node from an input replaced, or without it. -/
structure Replaces (u t : MappingTree) (i : Nat) (input : Path) (m : Option Mapping) : Prop where
  unmapped : u.unmapped = t.unmapped
  here : u.mappingAt? i input = m
  elsewhere : ∀ j other, (j, other) ≠ (i, input) → u.mappingAt? j other = t.mappingAt? j other

theorem getElem?_setNode {i j : Nat} {n n' : Node} (h : t.nodes[i]? = some n) :
    (t.setNode i n').nodes[j]? = if j = i then some n' else t.nodes[j]? := by
  have hnodes : (t.setNode i n').nodes = t.nodes.modify i fun _ => n' := Forest.labels_modify _
  rw [hnodes, List.getElem?_modify]
  split
  · next hij => rw [if_pos hij.symm, ← hij, h]; rfl
  · next hij => rw [if_neg (Ne.symm hij)]; simp

theorem unmapped_setNode {i : Nat} {n : Node} (hn : t.nodes[i]? = some n)
    (ms : SortedMap Path Mapping) :
    (t.setNode i { n with mappings := ms }).unmapped = t.unmapped := by
  have hsame : Node.unmapped { n with mappings := ms } = n.unmapped := rfl
  rw [setNode, unmapped, Forest.map_modify hsame hn, unmapped]

/-- New mappings of a node that differ from its own for one input are a change in one place. -/
theorem replaces_setNode {i : Nat} {n : Node} {ms : SortedMap Path Mapping} {input : Path}
    (hn : t.nodes[i]? = some n) (hms : ∀ other, other ≠ input → ms.find? other = n.mapping? other) :
    (t.setNode i { n with mappings := ms }).Replaces t i input (ms.find? input) where
  unmapped := unmapped_setNode hn ms
  here := by
    rw [mappingAt?, getElem?_setNode hn, if_pos rfl]
    rfl
  elsewhere := by
    intro j other hne
    rw [mappingAt?, getElem?_setNode hn]
    split
    · next hji =>
      subst hji
      rw [mappingAt?_of_getElem? hn]
      exact hms other fun h => hne (by rw [h])
    · rfl

namespace Replaces

variable {i : Nat} {input : Path} {m : Option Mapping}

theorem self (h : t.mappingAt? i input = m) : t.Replaces t i input m :=
  ⟨rfl, h, fun _ _ _ => rfl⟩

theorem eq {u' : MappingTree} (h : u.Replaces t i input m) (h' : u'.Replaces t i input m) :
    u = u' := by
  refine ext_mappingAt? (h.unmapped.trans h'.unmapped.symm) fun j other => ?_
  by_cases hplace : (j, other) = (i, input)
  · obtain ⟨rfl, rfl⟩ := Prod.mk.inj hplace
    rw [h.here, h'.here]
  · rw [h.elsewhere j other hplace, h'.elsewhere j other hplace]

/-- Of two changes in one place the first is not seen. -/
theorem trans {v : MappingTree} {m' : Option Mapping} (h : u.Replaces t i input m)
    (h' : v.Replaces u i input m') : v.Replaces t i input m' where
  unmapped := h'.unmapped.trans h.unmapped
  here := h'.here
  elsewhere := fun j other hne => (h'.elsewhere j other hne).trans (h.elsewhere j other hne)

/-- A change back to what was there restores the tree. -/
theorem restores {v : MappingTree} (h : u.Replaces t i input m)
    (h' : v.Replaces u i input (t.mappingAt? i input)) : v = t :=
  (h.trans h').eq (.self rfl)

/-- Changes in two places come to the same in either order. -/
theorem comm {u' v v' : MappingTree} {j : Nat} {other : Path} {m' : Option Mapping}
    (hne : (j, other) ≠ (i, input)) (hu : u.Replaces t i input m) (hv : v.Replaces u j other m')
    (hu' : u'.Replaces t j other m') (hv' : v'.Replaces u' i input m) : v = v' := by
  have hunmapped : v.unmapped = v'.unmapped := by
    rw [hv.unmapped, hu.unmapped, hv'.unmapped, hu'.unmapped]
  refine ext_mappingAt? hunmapped fun k p => ?_
  by_cases hi : (k, p) = (i, input)
  · obtain ⟨rfl, rfl⟩ := Prod.mk.inj hi
    rw [hv.elsewhere k p hne.symm, hu.here, hv'.here]
  · rw [hv'.elsewhere k p hi]
    by_cases hj : (k, p) = (j, other)
    · obtain ⟨rfl, rfl⟩ := Prod.mk.inj hj
      rw [hv.here, hu'.here]
    · rw [hv.elsewhere k p hj, hu.elsewhere k p hi, hu'.elsewhere k p hj]

end Replaces

end MappingTree

/-! ### What edits do in their place -/

namespace Node

variable {n : Node} {m : Mapping}

theorem Permits.of_unmapped_eq {n' : Node} (h : n'.unmapped = n.unmapped) (hm : n.Permits m) :
    n'.Permits m := by
  have hpath : n'.unmapped.path = n.unmapped.path := by rw [h]
  have hfixed : n'.unmapped.fixedMembership? = n.unmapped.fixedMembership? := by rw [h]
  exact ⟨hm.aimed.trans hpath.symm, hfixed.trans hm.free, hm.akin⟩

/-- What a node has it may be given again. -/
theorem WellMapped.permits (h : n.WellMapped) {input : Path} (hm : n.mapping? input = some m) :
    n.Permits m ∧ m.input = input := by
  have hentry : (input, m) ∈ n.mappings.toList := SortedMap.find?_eq_some_iff.mp hm
  have hfree := h.not_fixed (List.mem_map.mpr ⟨_, hentry, rfl⟩)
  exact ⟨⟨h.aimed _ hentry, hfree, h.akin _ hentry⟩, h.keyed _ hentry⟩

end Node

namespace MappingTree

variable {t u : MappingTree} {i : Nat} {m : Mapping} {c : Change}

/-- Whether the node with a given index takes a mapping, unless it has one from the same input. -/
def Admits (t : MappingTree) (i : Nat) (m : Mapping) : Prop :=
  ∃ n, t.nodes[i]? = some n ∧ n.Permits m

theorem Admits.of_unmapped_eq (h : u.unmapped = t.unmapped) (hm : t.Admits i m) : u.Admits i m := by
  obtain ⟨n, hn, hpermits⟩ := hm
  obtain ⟨n', hn', hunmapped⟩ := getElem?_of_unmapped_eq h hn
  exact ⟨n', hn', hpermits.of_unmapped_eq hunmapped⟩

/-- Attaching succeeds exactly if the node takes the mapping and has none from its input. -/
theorem exists_add_iff :
    (∃ c, t.add i m = .ok c) ↔ t.Admits i m ∧ t.mappingAt? i m.input = none := by
  constructor
  · rintro ⟨c, h⟩
    obtain ⟨n, hn, haccept, -⟩ := add_eq_ok_iff.mp h
    obtain ⟨hpermits, hnone⟩ := Node.accept_eq_ok_iff.mp haccept
    exact ⟨⟨n, hn, hpermits⟩, (mappingAt?_of_getElem? hn _).trans hnone⟩
  · rintro ⟨⟨n, hn, hpermits⟩, hnone⟩
    rw [mappingAt?_of_getElem? hn] at hnone
    exact ⟨_, add_eq_ok_iff.mpr ⟨n, hn, Node.accept_eq_ok_iff.mpr ⟨hpermits, hnone⟩, rfl⟩⟩

theorem replaces_of_add (h : t.add i m = .ok c) :
    c.event = ⟨i, m.input, .mappingAdded⟩ ∧ c.removed = none ∧
      c.tree.Replaces t i m.input (some m) := by
  obtain ⟨n, hn, -, rfl⟩ := add_eq_ok_iff.mp h
  refine ⟨rfl, rfl, ?_⟩
  have hreplaces := replaces_setNode hn fun other (hne : other ≠ m.input) =>
    SortedMap.find?_insert_of_ne hne m
  rwa [SortedMap.find?_insert_self] at hreplaces

/-- Detaching succeeds exactly if the node has a mapping from the input. -/
theorem exists_remove_iff {input : Path} :
    (∃ c, t.remove i input = .ok c) ↔ (t.mappingAt? i input).isSome := by
  rw [isSome_mappingAt?_iff]
  constructor
  · rintro ⟨c, h⟩
    obtain ⟨n, m, hn, hm, -⟩ := remove_eq_ok_iff.mp h
    exact ⟨n, m, hn, hm⟩
  · rintro ⟨n, m, hn, hm⟩
    exact ⟨_, remove_eq_ok_iff.mpr ⟨n, m, hn, hm, rfl⟩⟩

theorem replaces_of_remove {input : Path} (h : t.remove i input = .ok c) :
    c.event = ⟨i, input, .mappingRemoved⟩ ∧ c.removed = t.mappingAt? i input ∧
      (t.mappingAt? i input).isSome ∧ c.tree.Replaces t i input none := by
  obtain ⟨n, m, hn, hm, rfl⟩ := remove_eq_ok_iff.mp h
  rw [mappingAt?_of_getElem? hn, hm]
  refine ⟨rfl, rfl, rfl, ?_⟩
  have hreplaces := replaces_setNode hn fun other (hne : other ≠ input) =>
    SortedMap.find?_erase_of_ne hne
  rwa [SortedMap.find?_erase_self] at hreplaces

theorem replaces_of_change {input : Path} {kind : ChangeKind} {f : Mapping → Mapping}
    (h : (Editing.change i input kind f).outcome t = .ok c) :
    c.event = ⟨i, input, kind⟩ ∧ c.removed = none ∧
      ∃ m, t.mappingAt? i input = some m ∧ c.tree.Replaces t i input (some (f m)) := by
  obtain ⟨n, m, hn, hm, rfl⟩ := change_eq_ok_iff.mp h
  refine ⟨rfl, rfl, m, (mappingAt?_of_getElem? hn input).trans hm, ?_⟩
  have hreplaces := replaces_setNode hn fun other (hne : other ≠ input) =>
    SortedMap.find?_adjust_of_ne hne f
  rwa [SortedMap.find?_adjust_self, show n.mappings.find? input = some m from hm,
    Option.map_some] at hreplaces

/-- What was added can be removed, and that restores the tree. -/
theorem remove_of_add (h : t.add i m = .ok c) :
    ∃ c', c.tree.remove i m.input = .ok c' ∧ c'.removed = some m ∧ c'.tree = t := by
  obtain ⟨-, hnone⟩ := exists_add_iff.mp ⟨c, h⟩
  obtain ⟨-, -, hadded⟩ := replaces_of_add h
  have hsome : (c.tree.mappingAt? i m.input).isSome := by rw [hadded.here, Option.isSome_some]
  obtain ⟨c', hc'⟩ := exists_remove_iff.mpr hsome
  obtain ⟨-, hremoved, -, hback⟩ := replaces_of_remove hc'
  refine ⟨c', hc', hremoved.trans hadded.here, hadded.restores ?_⟩
  rwa [hnone]

/-- What was removed can be added again if the node takes it, and that restores the tree. -/
theorem add_of_remove {input : Path} (h : t.remove i input = .ok c)
    (hm : ∀ m, t.mappingAt? i input = some m → t.Admits i m ∧ m.input = input) :
    ∃ m, c.removed = some m ∧ ∃ c', c.tree.add i m = .ok c' ∧ c'.tree = t := by
  obtain ⟨-, hremoved, hsome, htaken⟩ := replaces_of_remove h
  obtain ⟨m, hmapping⟩ := Option.isSome_iff_exists.mp hsome
  obtain ⟨hadmits, rfl⟩ := hm m hmapping
  obtain ⟨c', hc'⟩ := exists_add_iff.mpr ⟨hadmits.of_unmapped_eq htaken.unmapped, htaken.here⟩
  obtain ⟨-, -, hback⟩ := replaces_of_add hc'
  refine ⟨m, hremoved.trans hmapping, c', hc', htaken.restores ?_⟩
  rwa [hmapping]

end MappingTree

/-! ### Edits of every kind -/

namespace Edit

/-- The primary input of the mapping that an edit is about. -/
def input : Edit → Path
  | attach m | add _ m => m.input
  | remove _ input | setSnippet _ input _ | setDictionary _ input _ | setDocumentation _ input _ =>
    input

/-- The kind of change that an edit makes. -/
def kind : Edit → ChangeKind
  | attach _ | add .. => .mappingAdded
  | remove .. => .mappingRemoved
  | setSnippet .. => .codeChanged
  | setDictionary .. => .dictionaryChanged
  | setDocumentation .. => .documentationChanged

/-- What an edit makes of the mapping in its place: what is there before, what is there after, and
what is handed back. -/
inductive Effect : Edit → Option Mapping → Option Mapping → Option Mapping → Prop where
  | attach (m : Mapping) : Effect (.attach m) none (some m) none
  | add (i : Nat) (m : Mapping) : Effect (.add i m) none (some m) none
  | remove (i : Nat) (input : Path) (m : Mapping) :
      Effect (.remove i input) (some m) none (some m)
  | setSnippet (i : Nat) (input : Path) (snippet : Option Snippet) (m : Mapping) :
      Effect (.setSnippet i input snippet) (some m) (some { m with snippet }) none
  | setDictionary (i : Nat) (input : Path) (dictionary : Option Dictionary) (m : Mapping) :
      Effect (.setDictionary i input dictionary) (some m) (some { m with dictionary }) none
  | setDocumentation (i : Nat) (input : Path) (documentation : Option String) (m : Mapping) :
      Effect (.setDocumentation i input documentation) (some m) (some { m with documentation }) none

end Edit

namespace MappingTree

variable {t : MappingTree} {e : Edit} {m : Mapping} {c : Change}

/-- The node that an edit is about. -/
def target? (t : MappingTree) : Edit → Option Nat
  | .attach m => t.nodeAt? m.output
  | .add i _ | .remove i _ | .setSnippet i _ _ | .setDictionary i _ _ | .setDocumentation i _ _ =>
    some i

/-- Whether an edit can be made: the node of a new mapping takes it and has none from its input, and
a mapping to remove or change is there. -/
def Allows (t : MappingTree) : Edit → Prop
  | .attach m => ∃ i, t.nodeAt? m.output = some i ∧ t.Admits i m ∧ t.mappingAt? i m.input = none
  | .add i m => t.Admits i m ∧ t.mappingAt? i m.input = none
  | .remove i input | .setSnippet i input _ | .setDictionary i input _
  | .setDocumentation i input _ => (t.mappingAt? i input).isSome

theorem attach_eq_ok_iff :
    t.attach m = .ok c ↔ ∃ i, t.nodeAt? m.output = some i ∧ t.add i m = .ok c := by
  rw [attach, edit, Edit.perform, Editing.outcome, Editing.runOn_attach]
  cases t.nodeAt? m.output with
  | some i => simp [add, edit, Edit.perform, Editing.outcome]
  | none => simp

theorem exists_attach_iff : (∃ c, t.attach m = .ok c) ↔
    ∃ i, t.nodeAt? m.output = some i ∧ t.Admits i m ∧ t.mappingAt? i m.input = none := by
  simp only [attach_eq_ok_iff, ← exists_add_iff]
  constructor
  · rintro ⟨c, i, hi, h⟩
    exact ⟨i, hi, c, h⟩
  · rintro ⟨i, hi, c, h⟩
    exact ⟨c, i, hi, h⟩

theorem exists_change_iff {i : Nat} {input : Path} {kind : ChangeKind} {f : Mapping → Mapping} :
    (∃ c, (Editing.change i input kind f).outcome t = .ok c) ↔
      (t.mappingAt? i input).isSome := by
  rw [isSome_mappingAt?_iff]
  constructor
  · rintro ⟨c, h⟩
    obtain ⟨n, m, hn, hm, -⟩ := change_eq_ok_iff.mp h
    exact ⟨n, m, hn, hm⟩
  · rintro ⟨n, m, hn, hm⟩
    exact ⟨_, change_eq_ok_iff.mpr ⟨n, m, hn, hm, rfl⟩⟩

/-- An edit succeeds exactly if it can be made. -/
theorem exists_edit_iff : (∃ c, t.edit e = .ok c) ↔ t.Allows e := by
  cases e with
  | attach m => exact exists_attach_iff
  | add i m => exact exists_add_iff
  | remove i input => exact exists_remove_iff
  | setSnippet i input snippet => exact exists_change_iff
  | setDictionary i input dictionary => exact exists_change_iff
  | setDocumentation i input documentation => exact exists_change_iff

end MappingTree

/-- Whether a change is one that an edit may make of a tree: in the place that the event names, what
the edit makes of the mapping there, and nothing else. -/
structure Change.IsLocal (c : Change) (t : MappingTree) (e : Edit) : Prop where
  target : t.target? e = some c.event.node
  input : c.event.input = e.input
  kind : c.event.kind = e.kind
  place : ∃ after, e.Effect (t.mappingAt? c.event.node c.event.input) after c.removed ∧
    c.tree.Replaces t c.event.node c.event.input after

theorem Change.IsLocal.of_event {t : MappingTree} {e : Edit} {c : Change} {i : Nat} {input : Path}
    {kind : ChangeKind} {after : Option Mapping} (hevent : c.event = ⟨i, input, kind⟩)
    (htarget : t.target? e = some i) (hinput : e.input = input) (hkind : e.kind = kind)
    (heffect : e.Effect (t.mappingAt? i input) after c.removed)
    (hreplaces : c.tree.Replaces t i input after) : c.IsLocal t e where
  target := by rw [hevent, htarget]
  input := by rw [hevent, hinput]
  kind := by rw [hevent, hkind]
  place := by
    rw [hevent]
    exact ⟨after, heffect, hreplaces⟩

namespace MappingTree

variable {t : MappingTree} {e : Edit} {m : Mapping} {c : Change}

theorem isLocal_of_add {i : Nat} (h : t.add i m = .ok c) (htarget : t.target? e = some i)
    (hinput : e.input = m.input) (hkind : e.kind = .mappingAdded)
    (heffect : e.Effect none (some m) none) : c.IsLocal t e := by
  obtain ⟨-, hnone⟩ := exists_add_iff.mp ⟨c, h⟩
  obtain ⟨hevent, hremoved, hreplaces⟩ := replaces_of_add h
  refine .of_event hevent htarget hinput hkind ?_ hreplaces
  rwa [hremoved, hnone]

theorem isLocal_of_change {i : Nat} {input : Path} {kind : ChangeKind} {f : Mapping → Mapping}
    (h : (Editing.change i input kind f).outcome t = .ok c) (htarget : t.target? e = some i)
    (hinput : e.input = input) (hkind : e.kind = kind)
    (heffect : ∀ m, e.Effect (some m) (some (f m)) none) : c.IsLocal t e := by
  obtain ⟨hevent, hremoved, m, hm, hreplaces⟩ := replaces_of_change h
  refine .of_event hevent htarget hinput hkind ?_ hreplaces
  rw [hremoved, hm]
  exact heffect m

/-- An edit that succeeds changes a tree in one place. -/
theorem isLocal_of_edit (h : t.edit e = .ok c) : c.IsLocal t e := by
  cases e with
  | attach m =>
    obtain ⟨i, hi, h⟩ := attach_eq_ok_iff.mp h
    exact isLocal_of_add h hi rfl rfl (.attach m)
  | add i m => exact isLocal_of_add h rfl rfl rfl (.add i m)
  | remove i input =>
    obtain ⟨hevent, hremoved, hsome, hreplaces⟩ := replaces_of_remove h
    obtain ⟨m, hm⟩ := Option.isSome_iff_exists.mp hsome
    refine .of_event hevent rfl rfl rfl ?_ hreplaces
    rw [hremoved, hm]
    exact .remove i input m
  | setSnippet i input snippet => exact isLocal_of_change h rfl rfl rfl (.setSnippet i input snippet)
  | setDictionary i input dictionary =>
    exact isLocal_of_change h rfl rfl rfl (.setDictionary i input dictionary)
  | setDocumentation i input documentation =>
    exact isLocal_of_change h rfl rfl rfl (.setDocumentation i input documentation)

end MappingTree

/-! ### Edits that are refused -/

/-- Whether a computation that fails leaves the tree as it is. -/
def Editing.Atomic {α : Type} (x : Editing α) : Prop :=
  ∀ t, (∃ err, (x.runOn t).1 = .error err) → (x.runOn t).2 = t

namespace MappingTree

variable {t : MappingTree} {e : Edit} {m : Mapping} {c : Change}

theorem atomic_add {i : Nat} : (Editing.add i m).Atomic := by
  rintro t ⟨err, herr⟩
  rw [Editing.runOn_add] at herr ⊢
  split at herr
  · split at herr
    · cases herr
    · rfl
  · rfl

theorem atomic_attach : (Editing.attach m).Atomic := by
  rintro t herr
  rw [Editing.runOn_attach] at herr ⊢
  split at herr
  · exact atomic_add t herr
  · rfl

/-- When there is no mapping to detach, the node that has been written is the one that was there. -/
theorem atomic_remove {i : Nat} {input : Path} : (Editing.remove i input).Atomic := by
  rintro t ⟨err, herr⟩
  rw [Editing.runOn_remove] at herr ⊢
  split at herr
  · next n hn =>
    split at herr
    · cases herr
    · next hnone =>
      -- the write and no write at all both leave the place without a mapping
      have hreplaces := replaces_setNode hn fun other (hne : other ≠ input) =>
        SortedMap.find?_erase_of_ne hne
      rw [SortedMap.find?_erase_self] at hreplaces
      exact hreplaces.eq (.self ((mappingAt?_of_getElem? hn input).trans hnone))
  · rfl

theorem atomic_change {i : Nat} {input : Path} {kind : ChangeKind} {f : Mapping → Mapping} :
    (Editing.change i input kind f).Atomic := by
  rintro t ⟨err, herr⟩
  rw [Editing.runOn_change] at herr ⊢
  split at herr
  · split at herr
    · cases herr
    · rfl
  · rfl

theorem atomic_perform (e : Edit) : e.perform.Atomic := by
  cases e with
  | attach m => exact atomic_attach
  | add i m => exact atomic_add
  | remove i input => exact atomic_remove
  | setSnippet i input snippet => exact atomic_change
  | setDictionary i input dictionary => exact atomic_change
  | setDocumentation i input documentation => exact atomic_change

theorem afterEdit_of_refused {err : AttachError} (h : t.edit e = .error err) :
    t.afterEdit e = t := by
  refine atomic_perform e t ⟨err, ?_⟩
  rw [edit, Editing.outcome] at h
  split at h
  · cases h
  · next hrun =>
    rw [hrun, Except.error.inj h]

theorem afterEdit_of_made (h : t.edit e = .ok c) : t.afterEdit e = c.tree := by
  rw [edit, Editing.outcome] at h
  split at h
  · next hrun =>
    rw [afterEdit, hrun, ← Except.ok.inj h]
  · cases h

/-! ### Mapping documents over whole runs -/

/-- What the schema made of a tree stays through any edits. -/
theorem unmapped_afterEdits (t : MappingTree) (es : List Edit) :
    (t.afterEdits es).unmapped = t.unmapped := by
  refine afterEdits_induction (P := fun u => u.unmapped = t.unmapped) ?_ rfl es
  intro u i n ms h hn _
  exact (unmapped_setNode hn ms).trans h

theorem unmapped_ofRecord (r : Record) : (ofRecord r).unmapped = ofRecord r := by
  have hforest : (ofRecord r).forest.map Node.unmapped = (ofRecord r).forest := by
    refine Forest.map_eq_self fun n hn => ?_
    have hempty := Instance.mappings_nodes n hn
    rw [Node.unmapped, ← hempty]
  rw [unmapped, hforest]

theorem map_unmapped_afterEdits (r : Record) (es : List Edit) :
    ((ofRecord r).afterEdits es).forest.map Node.unmapped = (ofRecord r).forest :=
  congrArg MappingTree.forest ((unmapped_afterEdits _ es).trans (unmapped_ofRecord r))

/-- What the nodes of an instance have together with what is below them they keep through all edits, if
it does not depend on their mappings. -/
theorem each_afterEdits {r : Record} {P : Node → Forest Node → Prop} (h : (ofRecord r).forest.Each P)
    (hmapped : ∀ n below, P n.unmapped (below.map Node.unmapped) → P n below) (es : List Edit) :
    ((ofRecord r).afterEdits es).forest.Each P := by
  rw [← map_unmapped_afterEdits r es, Forest.each_map] at h
  exact h.imp hmapped

theorem admits_of_mappingAt? {r : Record} {es : List Edit} {i : Nat} {input : Path}
    (h : ((ofRecord r).afterEdits es).mappingAt? i input = some m) :
    ((ofRecord r).afterEdits es).Admits i m ∧ m.input = input := by
  obtain ⟨n, hn, hm⟩ := Option.bind_eq_some_iff.mp h
  have hwell := wellMapped_afterEdits r es n (List.mem_of_getElem? hn)
  obtain ⟨hpermits, hinput⟩ := hwell.permits hm
  exact ⟨⟨n, hn, hpermits⟩, hinput⟩

/-- Whatever edits have been made or refused, a mapping document has the structure that the schema
gave it, and the mappings of each node are listed in the order of their inputs and belong there. -/
theorem document_afterEdits (r : Record) (es : List Edit) :
    let t := (ofRecord r).afterEdits es
    t.unmapped = ofRecord r ∧ t.parents = (ofRecord r).parents ∧
      t.children = (ofRecord r).children ∧
      ∀ n ∈ t.nodes, n.mappingList.Pairwise (fun m m' => compare m.input m'.input = .lt) ∧
        ∀ entry ∈ n.mappings.toList, entry.2.input = entry.1 ∧ entry.2.output = n.path ∧
          (∀ s ∈ entry.2.siblings, s.parent? = entry.2.input.parent?) ∧
          ∀ role, n.role? = some role → role.acceptsMappings = true := by
  intro t
  have hunmapped : t.unmapped = ofRecord r :=
    (unmapped_afterEdits _ es).trans (unmapped_ofRecord r)
  have hforest : t.forest.map Node.unmapped = (ofRecord r).forest :=
    congrArg MappingTree.forest hunmapped
  refine ⟨hunmapped, ?_, ?_, fun n hn => ?_⟩
  · rw [parents, parents, ← hforest, Forest.parents_map]
  · rw [children, children, ← hforest, Forest.children_map]
  · have hwell : n.WellMapped := wellMapped_afterEdits r es n hn
    refine ⟨?_, fun entry hentry => ?_⟩
    · rw [Node.mappingList, SortedMap.values, List.pairwise_map]
      refine n.mappings.increasing.imp_of_mem fun {a b} ha hb hlt => ?_
      rw [hwell.keyed a ha, hwell.keyed b hb]
      exact hlt
    · refine ⟨hwell.keyed entry hentry, hwell.aimed entry hentry, hwell.akin entry hentry, ?_⟩
      intro role hrole
      have hfree := hwell.not_fixed (List.mem_map.mpr ⟨entry, hentry, rfl⟩)
      obtain ⟨membership, hmembership, rfl⟩ := Option.map_eq_some_iff.mp hrole
      rw [Node.fixedMembership?, hmembership] at hfree
      simpa using hfree

/-- An edit of a mapping document that is refused changes nothing. One that is made changes the tree
in one place, a mapping that was added can be removed again, and one that was removed can be added
again, and that restores the tree. -/
theorem edit_atomic (r : Record) (es : List Edit) (e : Edit) :
    let t := (ofRecord r).afterEdits es
    match t.edit e with
    | .error _ => ¬t.Allows e ∧ t.afterEdit e = t
    | .ok c =>
      t.Allows e ∧ t.afterEdit e = c.tree ∧ c.IsLocal t e ∧
        (∀ m, (e = .attach m ∨ ∃ i, e = .add i m) →
          ∃ c', c.tree.remove c.event.node m.input = .ok c' ∧ c'.removed = some m ∧ c'.tree = t) ∧
        ∀ i input, e = .remove i input →
          ∃ m, c.removed = some m ∧ ∃ c', c.tree.add i m = .ok c' ∧ c'.tree = t := by
  intro t
  cases h : t.edit e with
  | error err =>
    refine ⟨?_, afterEdit_of_refused h⟩
    rw [← exists_edit_iff, h]
    rintro ⟨c, hc⟩
    cases hc
  | ok c =>
    refine ⟨exists_edit_iff.mp ⟨c, h⟩, afterEdit_of_made h, isLocal_of_edit h, ?_, ?_⟩
    · have hadd : ∀ i m, t.add i m = .ok c →
          ∃ c', c.tree.remove c.event.node m.input = .ok c' ∧ c'.removed = some m ∧ c'.tree = t := by
        intro i m h
        obtain ⟨hevent, -⟩ := replaces_of_add h
        rw [hevent]
        exact remove_of_add h
      rintro m (rfl | ⟨i, rfl⟩)
      · obtain ⟨i, -, h⟩ := attach_eq_ok_iff.mp h
        exact hadd i m h
      · exact hadd i m h
    · rintro i input rfl
      exact add_of_remove h fun m hm => admits_of_mappingAt? hm

end MappingTree

end Crosswalk
