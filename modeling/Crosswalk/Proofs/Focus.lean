import Crosswalk.Program.Generation
import Crosswalk.Proofs.Coverage
import Crosswalk.Proofs.Layout
import Crosswalk.Proofs.Scoping

/-!
Generation at a focus beside generation without one. The two are compared along the tree: above the
focus they open the same scopes, at the focus they emit the same block, and below it they agree on
everything; elsewhere neither emits anything for the focus. Numbers are assigned ahead of both. Only
the values of an attribute are numbered as they are emitted, so there the mapping in focus has to be
the first.
-/

namespace Crosswalk

/-- Whether an attribute at the focus has no mapping but its first from the input in focus. -/
def Focus.First (f : Focus) (n : Node) : Prop :=
  n.isAttribute = true → n.path = f.output → ∀ m ∈ n.mappingList.tail, m.input ≠ f.input

instance (f : Focus) (n : Node) : Decidable (f.First n) :=
  inferInstanceAs (Decidable (_ → _ → _))

theorem Mark.IsOf.output_eq {k : Mark} {n : Node} (h : k.IsOf n) (hn : n.WellMapped) :
    k.output = n.path := by
  obtain ⟨m, hm, houtput, -⟩ := h
  exact houtput.trans (hn.output_eq hm)

namespace Emission

open Crosswalk.Numbering

/-! ### Settings that agree -/

/-- Whether two settings emit the same of a node. -/
structure Agree (g h : Setting) (n : NumberedNode) : Prop where
  inFocus : g.inFocus n.path = h.inFocus n.path
  emitted : g.emitted n = h.emitted n

variable {snippets : SnippetStore} {focus focus' : Option Focus}

theorem attributeLets_congr (scopes : Scopes) (n : NumberedNode) {ms : List NumberedMapping} :
    ∀ (k : Nat), attributeLets ⟨snippets, focus⟩ scopes n k ms =
      attributeLets ⟨snippets, focus'⟩ scopes n k ms := by
  induction ms with
  | nil => intro k; rfl
  | cons nm ms ih => intro k; rw [attributeLets, attributeLets, ih]; rfl

theorem attributeArguments_congr {n : NumberedNode}
    (h : Agree ⟨snippets, focus⟩ ⟨snippets, focus'⟩ n) (scopes : Scopes) :
    attributeArguments ⟨snippets, focus⟩ scopes n =
      attributeArguments ⟨snippets, focus'⟩ scopes n := by
  have hlets : attributeLets ⟨snippets, focus⟩ scopes n 0 (Setting.emitted ⟨snippets, focus'⟩ n) =
      attributeLets ⟨snippets, focus'⟩ scopes n 0 (Setting.emitted ⟨snippets, focus'⟩ n) :=
    attributeLets_congr scopes n 0
  simp only [attributeArguments, h.emitted, hlets]

theorem argumentsOf_congr {ns : List NumberedNode}
    (h : ∀ n ∈ ns, Agree ⟨snippets, focus⟩ ⟨snippets, focus'⟩ n) (scopes : Scopes) :
    argumentsOf ⟨snippets, focus⟩ scopes ns = argumentsOf ⟨snippets, focus'⟩ scopes ns := by
  induction ns with
  | nil => rfl
  | cons n ns ih =>
    have hn := h n List.mem_cons_self
    rw [argumentsOf, argumentsOf, hn.inFocus, attributeArguments_congr hn,
      ih fun n' hn' => h n' (List.mem_cons_of_mem _ hn')]

theorem mappingBlock_congr {n : NumberedNode} {ns : List NumberedNode}
    (h : ∀ n' ∈ ns, Agree ⟨snippets, focus⟩ ⟨snippets, focus'⟩ n') (scopes : Scopes)
    (nm : NumberedMapping) (inner : Scopes → Block) :
    mappingBlock ⟨snippets, focus⟩ scopes n ns nm inner =
      mappingBlock ⟨snippets, focus'⟩ scopes n ns nm inner := by
  have hemit (scopes : Scopes) (value : Expression) :
      emit ⟨snippets, focus⟩ scopes n ns nm value inner =
        emit ⟨snippets, focus'⟩ scopes n ns nm value inner := by
    simp only [emit, constructor, argumentsOf_congr h]
    rfl
  simp only [mappingBlock, hemit]
  rfl

theorem branch_congr {n : NumberedNode} {below : Forest NumberedNode}
    (h : ∀ n' ∈ below.tops, Agree ⟨snippets, focus⟩ ⟨snippets, focus'⟩ n') (isRoot : Bool)
    (scopes : Scopes) (inner : Scopes → Block) :
    branch ⟨snippets, focus⟩ isRoot scopes n below inner =
      branch ⟨snippets, focus'⟩ isRoot scopes n below inner := by
  simp only [branch, argumentsOf_congr h, mappingBlock_congr h]

theorem nodeBlock_congr {n : NumberedNode} {below : Forest NumberedNode}
    (hn : Agree ⟨snippets, focus⟩ ⟨snippets, focus'⟩ n)
    (h : ∀ n' ∈ below.tops, Agree ⟨snippets, focus⟩ ⟨snippets, focus'⟩ n') (isRoot : Bool)
    (scopes : Scopes) (inner : Scopes → Block) :
    nodeBlock ⟨snippets, focus⟩ isRoot scopes n below inner =
      nodeBlock ⟨snippets, focus'⟩ isRoot scopes n below inner := by
  simp only [nodeBlock, hn.inFocus, hn.emitted, argumentsOf_congr h, mappingBlock_congr h,
    branch_congr h]

/-- Settings that agree on every node of a forest emit the same of it. -/
theorem blockOf_congr {f : Forest NumberedNode}
    (h : ∀ n ∈ f.labels, Agree ⟨snippets, focus⟩ ⟨snippets, focus'⟩ n) :
    blockOf ⟨snippets, focus⟩ f = blockOf ⟨snippets, focus'⟩ f := by
  induction f with
  | nil => rfl
  | tree n below next hb hn =>
    obtain ⟨hnode, hbelow, hnext⟩ := Forest.forall_labels_tree.mp h
    have htops := fun n' hn' => hbelow n' (Forest.mem_labels_of_mem_tops hn')
    funext scopes
    rw [blockOf, blockOf, hb hbelow, hn hnext, nodeBlock_congr hnode htops]

/-! ### Marks of the focus -/

/-- The marks of the mapping in focus. -/
abbrev focusMarks (f : Focus) (b : Block) : List Mark := b.marks.filter (Mark.isFocus f)

/-- Lists that are chosen alike have the same selection if both pairs have. -/
theorem filter_ite_congr {α : Type} {p : α → Bool} {c : Prop} [Decidable c]
    {xs ys xs' ys' : List α} (hthen : xs.filter p = xs'.filter p)
    (helse : ys.filter p = ys'.filter p) :
    (if c then xs else ys).filter p = (if c then xs' else ys').filter p := by
  split
  · exact hthen
  · exact helse

/-- What a selection needs only some entries for may be left out for the others. -/
theorem filter_flatMap_filter {α β : Type} {p : α → Bool} {q : β → Bool} {u v : β → List α}
    {l : List β} (h : ∀ x ∈ l, (u x).filter p = if q x then (v x).filter p else []) :
    (l.flatMap u).filter p = ((l.filter q).flatMap v).filter p := by
  induction l with
  | nil => rfl
  | cons x l ih =>
    rw [List.flatMap_cons, List.filter_append, h x List.mem_cons_self, List.filter_cons,
      ih fun y hy => h y (List.mem_cons_of_mem _ hy)]
    split
    · rw [List.flatMap_cons, List.filter_append]
    · rw [List.nil_append]

variable {f : Focus}

theorem filter_isFocus_eq_nil {ks : List Mark} (h : ∀ k ∈ ks, k.output ≠ f.output) :
    ks.filter (Mark.isFocus f) = [] := by
  refine List.filter_eq_nil_iff.mpr fun k hk hfocus => ?_
  exact h k hk (of_decide_eq_true hfocus).1.symm

theorem focusMarks_append (a b : Block) :
    focusMarks f (a ++ b) = focusMarks f a ++ focusMarks f b := by
  rw [focusMarks, Block.marks_append, List.filter_append]

/-! ### Away from the focus -/

section

variable {g : Setting} {a : Node} {below : Forest Node} {tables joined tables' joined' : Nat}

/-- Whether the nodes of a forest have their mappings where they belong and away from the focus. -/
structure Away (f : Focus) (below : Forest Node) : Prop where
  wellMapped : ∀ n ∈ below.labels, n.WellMapped
  path_ne : ∀ n ∈ below.labels, n.path ≠ f.output

theorem Away.output_ne (h : Away f below) {k : Mark} {n : Node} (hn : n ∈ below.labels)
    (hk : k.IsOf n) : k.output ≠ f.output := by
  rw [hk.output_eq (h.wellMapped n hn)]
  exact h.path_ne n hn

theorem Away.argumentsOf (h : Away f below) {scopes : Scopes} :
    ∀ k ∈ (argumentsOf g scopes (number tables joined below).tops).lets.marks,
      k.output ≠ f.output := by
  intro k hk
  obtain ⟨n, hn, -, hof⟩ := mem_marks_argumentsOf_number hk
  exact h.output_ne (Forest.mem_labels_of_mem_tops hn) hof

theorem Away.blockOf (h : Away f below) {scopes : Scopes} :
    ∀ k ∈ (blockOf g (number tables joined below) scopes).marks, k.output ≠ f.output := by
  intro k hk
  obtain ⟨n, hn, hof⟩ := mem_marks_blockOf hk
  exact h.output_ne hn.mem_labels hof

theorem Away.mappingBlock (h : Away f below) {n : NumberedNode} {nm : NumberedMapping}
    {scopes : Scopes} :
    ∀ k ∈ (mappingBlock g scopes n (number tables joined below).tops nm
        (Emission.blockOf g (number tables joined below))).marks, k.output ≠ f.output := by
  intro k hk
  rw [marks_mappingBlock] at hk
  rcases List.mem_append.mp hk with hk | hk
  · exact h.argumentsOf k hk
  · split at hk
    · cases hk
    · exact h.blockOf k hk

theorem Away.nodeBlock (h : Away f below) (ha : a.WellMapped) (hpath : a.path ≠ f.output)
    {isRoot : Bool} {scopes : Scopes} :
    focusMarks f (nodeBlock g isRoot scopes (numberNode tables joined a)
      (number tables' joined' below) (Emission.blockOf g (number tables' joined' below))) = [] := by
  refine filter_isFocus_eq_nil fun k hk => ?_
  rcases mem_marks_nodeBlock hk with ⟨-, hemitted⟩ | ⟨-, scopes, hk⟩ | ⟨-, scopes, hk⟩
  · rw [(isOf_of_emitted hemitted).output_eq ha]
    exact hpath
  · exact h.argumentsOf k hk
  · exact h.blockOf k hk

end

/-! ### Attributes at the focus -/

section

variable (snippets f) {a : Node} {below : Forest Node} {tables joined tables' joined' : Nat}

theorem emitted_at {n : NumberedNode} (h : n.path = f.output) :
    Setting.emitted ⟨snippets, some f⟩ n =
      n.numbered.filter fun nm => nm.mapping.input == f.input := by
  simp only [Setting.emitted]
  rw [if_pos h.symm]

theorem emitted_away {n : NumberedNode} (h : n.path ≠ f.output) :
    Setting.emitted ⟨snippets, some f⟩ n = n.numbered := by
  simp only [Setting.emitted]
  rw [if_neg h.symm]

theorem inFocus_none (p : Path) : Setting.inFocus ⟨snippets, none⟩ p = true := rfl

theorem emitted_none (n : NumberedNode) : Setting.emitted ⟨snippets, none⟩ n = n.numbered := rfl

theorem inFocus_of {p : Path} (h : p = f.output ∨ p.isAncestorOf f.output = true ∨
    f.output.isAncestorOf p = true) : Setting.inFocus ⟨snippets, some f⟩ p = true := by
  simp only [Setting.inFocus, Path.isFamilyOf]
  rcases h with rfl | h | h <;> simp [*]

theorem focusMarks_attributeLets_of_ne {g : Setting} {scopes : Scopes} {n : NumberedNode}
    {ms : List NumberedMapping} {k : Nat} (h : ∀ nm ∈ ms, nm.mapping.input ≠ f.input) :
    focusMarks f (attributeLets g scopes n k ms) = [] := by
  refine List.filter_eq_nil_iff.mpr fun k hk hfocus => ?_
  obtain ⟨nm, hnm, -, hinput⟩ := mem_marks_attributeLets hk
  exact h nm hnm (hinput.symm.trans (of_decide_eq_true hfocus).2.symm)

/-- The first mapping of an attribute has the same number among those in focus. -/
theorem focusMarks_attributeLets {scopes : Scopes} {n : NumberedNode} {ms : List NumberedMapping}
    (h : ∀ nm ∈ ms.tail, nm.mapping.input ≠ f.input) :
    focusMarks f (attributeLets ⟨snippets, none⟩ scopes n 0 ms) =
      focusMarks f (attributeLets ⟨snippets, some f⟩ scopes n 0
        (ms.filter fun nm => nm.mapping.input == f.input)) := by
  cases ms with
  | nil => rfl
  | cons nm ms =>
    have hrest : ms.filter (fun nm => nm.mapping.input == f.input) = [] := by
      rw [List.filter_eq_nil_iff]
      exact fun nm' hnm' => by simpa using h nm' hnm'
    rw [List.filter_cons, hrest]
    split
    · rw [focusMarks, focusMarks, marks_attributeLets_cons, marks_attributeLets_cons,
        List.filter_cons, List.filter_cons]
      have hafter : (attributeLets ⟨snippets, none⟩ scopes n 1 ms).marks.filter
          (Mark.isFocus f) = [] := focusMarks_attributeLets_of_ne f h
      rw [hafter]
      rfl
    · next hinput =>
      refine focusMarks_attributeLets_of_ne f (List.forall_mem_cons.mpr ⟨?_, h⟩)
      simpa using hinput

/-- What an attribute at the focus binds is the same, if no later mapping of it is in focus. -/
theorem focusMarks_attribute {n : Node} (hfirst : f.First n) (hattr : n.isAttribute = true)
    (hpath : n.path = f.output) {scopes : Scopes} :
    focusMarks f (attributeArguments ⟨snippets, none⟩ scopes (numberNode tables joined n)).lets =
      focusMarks f
        (attributeArguments ⟨snippets, some f⟩ scopes (numberNode tables joined n)).lets := by
  rw [focusMarks, focusMarks, marks_attributeArguments, marks_attributeArguments]
  split
  · rfl
  · rw [emitted_at snippets f hpath]
    refine focusMarks_attributeLets snippets f fun nm hnm => ?_
    refine hfirst hattr hpath nm.mapping ?_
    rw [← map_numbered tables joined n, ← List.map_tail]
    exact List.mem_map_of_mem hnm

/-- What the attributes of a node bind at the focus is the same. -/
theorem focusMarks_argumentsOf (hwell : ∀ n ∈ below.labels, n.WellMapped)
    (hfirst : ∀ n ∈ below.labels, f.First n) (scopes : Scopes) :
    focusMarks f (argumentsOf ⟨snippets, none⟩ scopes (number tables joined below).tops).lets =
      focusMarks f
        (argumentsOf ⟨snippets, some f⟩ scopes (number tables joined below).tops).lets := by
  simp only [focusMarks, marks_argumentsOf, List.filter_flatMap]
  refine List.flatMap_congr fun b hb => ?_
  obtain ⟨n, hn, i, j, rfl⟩ := mem_tops_number hb
  have hmem := Forest.mem_labels_of_mem_tops hn
  rw [toNode_numberNode]
  cases hattr : n.isAttribute with
  | false => simp
  | true =>
    by_cases hpath : n.path = f.output
    · rw [inFocus_of snippets f (.inl hpath)]
      exact focusMarks_attribute snippets f (hfirst n hmem) hattr hpath
    · have haway (g : Setting) : (attributeArguments g scopes (numberNode i j n)).lets.marks.filter
          (Mark.isFocus f) = [] := by
        refine filter_isFocus_eq_nil fun k hk => ?_
        rw [(isOf_of_emitted (mem_marks_attributeArguments hk)).output_eq (hwell n hmem)]
        exact hpath
      rw [apply_ite (List.filter _), apply_ite (List.filter _), haway, haway]
      simp only [List.filter_nil, ite_self]

/-! ### Nodes above and at the focus -/

/-- Settings agree on the nodes below the focus. -/
theorem agree_below (hpath : a.path = f.output) (hlaid : below.LaidOut id a.path) :
    ∀ n ∈ (number tables joined below).labels, Agree ⟨snippets, none⟩ ⟨snippets, some f⟩ n := by
  intro b hb
  obtain ⟨n, hn, i, j, rfl⟩ := mem_labels_number hb
  have hancestor : f.output.isAncestorOf n.path = true := hpath ▸ hlaid.isAncestorOf hn
  constructor
  · rw [toNode_numberNode, inFocus_of snippets f (.inr (.inr hancestor))]
    rfl
  · have hne : (numberNode i j n).path ≠ f.output := (Path.ne_of_isAncestorOf hancestor).symm
    rw [emitted_away snippets f hne]
    rfl

theorem away_below (hpath : a.path = f.output ∨ ¬a.path.isAncestorOf f.output = true)
    (hlaid : below.LaidOut id a.path) (hwell : ∀ n ∈ below.labels, n.WellMapped) :
    Away f below := by
  refine ⟨hwell, fun n hn heq => ?_⟩
  have hancestor := hlaid.isAncestorOf hn
  rcases hpath with hpath | hpath
  · exact Path.ne_of_isAncestorOf hancestor (hpath.trans heq.symm)
  · exact hpath (heq ▸ hancestor)

/-- At the focus the mappings of a node that are in focus emit the same blocks. -/
theorem focusMarks_nodeBlock_at (hpath : a.path = f.output) (hlaid : below.LaidOut id a.path)
    (hwell : ∀ n ∈ below.labels, n.WellMapped) (isRoot : Bool) (scopes : Scopes) :
    focusMarks f (nodeBlock ⟨snippets, none⟩ isRoot scopes (numberNode tables joined a)
        (number tables' joined' below) (blockOf ⟨snippets, none⟩ (number tables' joined' below))) =
      focusMarks f (nodeBlock ⟨snippets, some f⟩ isRoot scopes (numberNode tables joined a)
        (number tables' joined' below)
        (blockOf ⟨snippets, some f⟩ (number tables' joined' below))) := by
  have hagree : ∀ n ∈ (number tables' joined' below).labels,
      Agree ⟨snippets, none⟩ ⟨snippets, some f⟩ n := agree_below snippets f hpath hlaid
  have htops := fun n hn => hagree n (Forest.mem_labels_of_mem_tops hn)
  have haway := away_below f (.inl hpath) hlaid hwell
  rw [blockOf_congr hagree, focusMarks, focusMarks, marks_nodeBlock, marks_nodeBlock,
    branch_congr htops, argumentsOf_congr htops, toNode_numberNode, inFocus_none,
    inFocus_of snippets f (.inl hpath), emitted_none, emitted_at snippets f hpath]
  refine filter_ite_congr rfl (filter_ite_congr rfl (filter_ite_congr rfl
    (filter_ite_congr ?_ rfl)))
  refine filter_flatMap_filter fun nm _ => ?_
  have hinside : (mappingBlock ⟨snippets, some f⟩ scopes (numberNode tables joined a)
      (number tables' joined' below).tops nm (blockOf ⟨snippets, some f⟩
        (number tables' joined' below))).marks.filter (Mark.isFocus f) = [] :=
    filter_isFocus_eq_nil haway.mappingBlock
  rw [mappingBlock_congr htops, List.filter_cons, hinside]
  by_cases hinput : nm.mapping.input = f.input
  · rw [if_pos (beq_iff_eq.mpr hinput)]
  · rw [if_neg, if_neg (by simpa using hinput)]
    exact fun hfocus => hinput (of_decide_eq_true hfocus).2.symm

/-- Above the focus nothing is emitted for it but what the attributes of a node and what is below it
emit, within the same scopes. -/
theorem focusMarks_nodeBlock_above (ha : a.WellMapped)
    (hancestor : a.path.isAncestorOf f.output = true) (hwell : ∀ n ∈ below.labels, n.WellMapped)
    (hfirst : ∀ n ∈ below.labels, f.First n)
    (hinner : ∀ scopes,
      focusMarks f (blockOf ⟨snippets, none⟩ (number tables' joined' below) scopes) =
        focusMarks f (blockOf ⟨snippets, some f⟩ (number tables' joined' below) scopes))
    (isRoot : Bool) (scopes : Scopes) :
    focusMarks f (nodeBlock ⟨snippets, none⟩ isRoot scopes (numberNode tables joined a)
        (number tables' joined' below) (blockOf ⟨snippets, none⟩ (number tables' joined' below))) =
      focusMarks f (nodeBlock ⟨snippets, some f⟩ isRoot scopes (numberNode tables joined a)
        (number tables' joined' below)
        (blockOf ⟨snippets, some f⟩ (number tables' joined' below))) := by
  have hne : (numberNode tables joined a).path ≠ f.output := Path.ne_of_isAncestorOf hancestor
  have hargs (scopes : Scopes) : (argumentsOf ⟨snippets, none⟩ scopes
      (number tables' joined' below).tops).lets.marks.filter (Mark.isFocus f) =
        (argumentsOf ⟨snippets, some f⟩ scopes
          (number tables' joined' below).tops).lets.marks.filter (Mark.isFocus f) :=
    focusMarks_argumentsOf snippets f hwell hfirst scopes
  rw [focusMarks, focusMarks, marks_nodeBlock, marks_nodeBlock, toNode_numberNode, inFocus_none,
    inFocus_of snippets f (.inr (.inl hancestor)), emitted_none, emitted_away snippets f hne]
  refine filter_ite_congr rfl (filter_ite_congr (filter_ite_congr (hargs scopes) rfl)
    (filter_ite_congr rfl (filter_ite_congr ?_ ?_)))
  · rw [List.filter_flatMap, List.filter_flatMap]
    refine List.flatMap_congr fun nm hnm => ?_
    have hother : ¬f.output = nm.mapping.output := by
      rw [ha.output_eq (mapping_mem_of_mem_numbered hnm)]
      exact hne.symm
    rw [List.filter_cons_of_neg, List.filter_cons_of_neg, marks_mappingBlock, marks_mappingBlock,
      List.filter_append, List.filter_append, hargs]
    · congr 1
      exact filter_ite_congr rfl (hinner _)
    · exact fun hfocus => hother (of_decide_eq_true hfocus).1
    · exact fun hfocus => hother (of_decide_eq_true hfocus).1
  · rw [marks_branch, marks_branch, List.filter_append, List.filter_append, hargs]
    exact congrArg _ (hinner _)

/-- What a node emits at the focus is the same. -/
theorem focusMarks_nodeBlock (ha : a.WellMapped) (hlaid : below.LaidOut id a.path)
    (hwell : ∀ n ∈ below.labels, n.WellMapped) (hfirst : ∀ n ∈ below.labels, f.First n)
    (hinner : ∀ scopes,
      focusMarks f (blockOf ⟨snippets, none⟩ (number tables' joined' below) scopes) =
        focusMarks f (blockOf ⟨snippets, some f⟩ (number tables' joined' below) scopes))
    (isRoot : Bool) (scopes : Scopes) :
    focusMarks f (nodeBlock ⟨snippets, none⟩ isRoot scopes (numberNode tables joined a)
        (number tables' joined' below) (blockOf ⟨snippets, none⟩ (number tables' joined' below))) =
      focusMarks f (nodeBlock ⟨snippets, some f⟩ isRoot scopes (numberNode tables joined a)
        (number tables' joined' below)
        (blockOf ⟨snippets, some f⟩ (number tables' joined' below))) := by
  by_cases hpath : a.path = f.output
  · exact focusMarks_nodeBlock_at snippets f hpath hlaid hwell isRoot scopes
  by_cases hancestor : a.path.isAncestorOf f.output = true
  · exact focusMarks_nodeBlock_above snippets f ha hancestor hwell hfirst hinner isRoot scopes
  · have haway := away_below f (.inr hancestor) hlaid hwell
    rw [haway.nodeBlock ha hpath, haway.nodeBlock ha hpath]

/-- What a forest emits at the focus is the same, within the same scopes. -/
theorem focusMarks_blockOf {forest : Forest Node} : ∀ {parent : Path} {tables joined : Nat}
    (scopes : Scopes), forest.LaidOut id parent → (∀ n ∈ forest.labels, n.WellMapped) →
      (∀ n ∈ forest.labels, f.First n) →
        focusMarks f (blockOf ⟨snippets, none⟩ (number tables joined forest) scopes) =
          focusMarks f (blockOf ⟨snippets, some f⟩ (number tables joined forest) scopes) := by
  induction forest with
  | nil => intros; rfl
  | tree a below next hb hn =>
    rintro parent tables joined scopes ⟨-, hlaid, hnext⟩ hwell hfirst
    obtain ⟨hwellNode, hwellBelow, hwellNext⟩ := Forest.forall_labels_tree.mp hwell
    obtain ⟨-, hfirstBelow, hfirstNext⟩ := Forest.forall_labels_tree.mp hfirst
    rw [number, blockOf, blockOf, focusMarks_append, focusMarks_append,
      hn scopes hnext hwellNext hfirstNext]
    congr 1
    exact focusMarks_nodeBlock snippets f hwellNode hlaid hwellBelow hfirstBelow
      (fun scopes => hb scopes hlaid hwellBelow hfirstBelow) false scopes

/-- What the output document emits at the focus is what its root does, or what the attributes of a
root do that passes none. -/
theorem focusMarks_outputOf_tree {g : Setting} (hg : ∀ f' ∈ g.focus, f' = f) {root : Node}
    {below next : Forest Node} (hlaid : below.LaidOut id root.path)
    (hwell : ∀ n ∈ below.labels, n.WellMapped) :
    focusMarks f (outputOf g (number 0 0 (.tree root below next))) =
      if root.passesAttributes = true then
        focusMarks f (nodeBlock g true [] (numberNode 0 0 root)
          (number (0 + tableCount root) (0 + joinCount root) below)
          (blockOf g (number (0 + tableCount root) (0 + joinCount root) below)))
      else
        focusMarks f (argumentsOf g []
          (number (0 + tableCount root) (0 + joinCount root) below).tops).lets := by
  rw [number, outputOf]
  cases hpasses : root.passesAttributes with
  | false =>
    rw [nodeBlock_of_not_passesAttributes hpasses, focusMarks]
    simp [Block.isEmpty]
  | true =>
    rw [if_pos rfl]
    split
    · next hempty =>
      -- An attribute at the focus would have been emitted with the root.
      rw [Block.isEmpty_eq_true hempty, focusMarks, focusMarks, marks_construct, Block.marks_nil,
        List.append_nil, List.filter_nil, List.filter_eq_nil_iff]
      intro k hk hfocus
      obtain ⟨n, hn, hattr, m, hm, houtput, hinput⟩ := mem_marks_argumentsOf_number hk
      have hmem := Forest.mem_labels_of_mem_tops hn
      have hpaths := of_decide_eq_true hfocus
      have hfocuses : Focuses g n m := by
        intro f' hf'
        rw [hg f' hf', hpaths.1, hpaths.2, houtput, hinput, (hwell n hmem).output_eq hm]
        exact ⟨rfl, rfl⟩
      refine absurd hempty (ne_true_of_eq_false ?_)
      exact (emits_nodeBlock_carried hm ((hwell n hmem).not_fixed hm) hfocuses
        (hlaid.isAncestorOf hmem) hpasses hn hattr []).isEmpty_eq_false
    · rfl

/-- What the output document emits at the focus is the same. -/
theorem focusMarks_outputOf {t : MappingTree} (hlaid : t.forest.LaidOut id Path.root)
    (hwell : ∀ n ∈ t.nodes, n.WellMapped) (hfirst : ∀ n ∈ t.nodes, f.First n) :
    focusMarks f (outputOf ⟨snippets, none⟩ t.numbered) =
      focusMarks f (outputOf ⟨snippets, some f⟩ t.numbered) := by
  rw [MappingTree.nodes] at hwell hfirst
  rw [MappingTree.numbered]
  cases hforest : t.forest with
  | nil => rfl
  | tree root below next =>
    rw [hforest] at hlaid hwell hfirst
    have hbelow : below.LaidOut id root.path := hlaid.2.1
    obtain ⟨hwellRoot, hwellBelow, -⟩ := Forest.forall_labels_tree.mp hwell
    obtain ⟨-, hfirstBelow, -⟩ := Forest.forall_labels_tree.mp hfirst
    have hfull : ∀ f' ∈ (none : Option Focus), f' = f := by simp
    have hnarrow : ∀ f' ∈ some f, f' = f := by simp
    rw [focusMarks_outputOf_tree (g := ⟨snippets, none⟩) f hfull hbelow hwellBelow,
      focusMarks_outputOf_tree (g := ⟨snippets, some f⟩) f hnarrow hbelow hwellBelow]
    split
    · exact focusMarks_nodeBlock snippets f hwellRoot hbelow hwellBelow hfirstBelow
        (fun scopes => focusMarks_blockOf snippets f scopes hbelow hwellBelow hfirstBelow) true []
    · exact focusMarks_argumentsOf snippets f hwellBelow hfirstBelow []

end

end Emission

/-! ### Generation -/

open Emission

namespace MappingTree

/-- What is captured of a program is the first mark of the mapping in focus in its output. -/
theorem capture?_program (t : MappingTree) (snippets : SnippetStore) (focus : Option Focus)
    (layout : Script.Layout) (f : Focus) :
    Script.capture? layout f (t.program snippets focus).1 =
      (focusMarks f (outputOf ⟨snippets, focus.filter t.has⟩ t.numbered)).head?.map fun k =>
        Script.captured layout.indent 0 k.body := by
  have hnames : ∀ x ∈ (t.program snippets focus).1.names, Text.OneLine x :=
    fun x hx => Text.oneLine_of_isPlainName (t.isPlainName_program snippets focus x hx)
  have hmarks : (t.program snippets focus).1.marks =
      (outputOf ⟨snippets, focus.filter t.has⟩ t.numbered).marks := by
    simp [Program.marks, program, Block.marks_ofSimple]
  rw [Script.capture?_eq layout f hnames, hmarks, focusMarks, List.head?_filter]

/-- A mapping in focus is captured exactly if it is emitted. -/
theorem isSome_head?_focusMarks {f : Focus} {b : Block} :
    (focusMarks f b).head?.isSome = true ↔ b.Emits f.output f.input := by
  rw [List.head?_filter, List.find?_isSome]
  constructor
  · rintro ⟨k, hk, hfocus⟩
    have hpaths := of_decide_eq_true hfocus
    exact ⟨k, hk, hpaths.1.symm, hpaths.2.symm⟩
  · rintro ⟨k, hk, houtput, hinput⟩
    exact ⟨k, hk, decide_eq_true ⟨houtput.symm, hinput.symm⟩⟩

end MappingTree

/-- Two mappings of the identifier of a creator. -/
def identifierEdits : List Edit :=
  let output : Path := ⟨[.elem none "record", .elem none "creator", .attr none "id"]⟩
  [.attach { output, input := .ofNames ["m", "a"] },
    .attach { output, input := .ofNames ["m", "b"] }]

/-- The later mapping of the identifier. -/
def identifierFocus : Focus where
  output := ⟨[.elem none "record", .elem none "creator", .attr none "id"]⟩
  input := .ofNames ["m", "b"]

/-- The mapping onto the detail below a fixed field. -/
def detailFocus : Focus := ⟨detailMapping.output, detailMapping.input⟩

end Crosswalk
