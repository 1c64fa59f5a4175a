import Crosswalk.Proofs.Document
import Crosswalk.Proofs.Marks
import Crosswalk.Proofs.Numbering
import Crosswalk.Proofs.Path
import Crosswalk.Schema.Resolution

/-!
Coverage: which mappings a program emits. The walk of a tree comes to every node but those that are
hidden from it: what is below a fixed field or below an attribute is not walked, nor is what is
below a mapped leaf; attributes are bound with the element that they belong to. Every mapping of a
node that the walk comes to is emitted, within whatever scopes are open there.
-/

namespace Crosswalk

/-! ### The walk of a tree -/

/-- Whether the attributes of a node are emitted with it. A fixed field without a text is not
emitted. -/
def Node.passesAttributes (n : Node) : Bool :=
  !n.isAttribute && (n.fixedMembership?.isNone || n.fixedValue?.isSome)

/-- Whether the elements below a node are emitted with it. -/
def Node.opensBelow (n : Node) : Bool :=
  !n.isAttribute && n.fixedMembership?.isNone && !(n.leaf && n.hasMappings)

theorem Node.opensBelow_iff {n : Node} : n.opensBelow = true ↔
    n.isAttribute = false ∧ n.fixedMembership? = none ∧ (n.leaf && n.hasMappings) = false := by
  rw [opensBelow]
  rw [Bool.and_eq_true, Bool.and_eq_true, Bool.not_eq_true', Bool.not_eq_true',
    Option.isNone_iff_eq_none, and_assoc]

/-- Whether the walk of a forest comes to a node. -/
inductive Forest.Reaches (n : Node) : Forest Node → Prop where
  | here {below next : Forest Node} (h : n.isAttribute = false) : Reaches n (.tree n below next)
  | carried {a : Node} {below next : Forest Node} (ha : a.passesAttributes = true)
      (hn : n ∈ below.tops) (h : n.isAttribute = true) : Reaches n (.tree a below next)
  | deeper {a : Node} {below next : Forest Node} (ha : a.opensBelow = true)
      (h : Reaches n below) : Reaches n (.tree a below next)
  | later {a : Node} {below next : Forest Node} (h : Reaches n next) :
    Reaches n (.tree a below next)

/-- Whether the walk of a mapping tree comes to a node. It walks the first tree alone, whose root is
emitted with its attributes in any case. -/
def MappingTree.Reaches (t : MappingTree) (n : Node) : Prop :=
  match t.forest with
  | .nil => False
  | .tree root below _ =>
    (n = root ∧ n.isAttribute = false) ∨ (n ∈ below.tops ∧ n.isAttribute = true) ∨
      (root.opensBelow = true ∧ below.Reaches n)

theorem Forest.Reaches.mem_labels {n : Node} {f : Forest Node} (h : f.Reaches n) :
    n ∈ f.labels := by
  induction h with
  | here => exact List.mem_cons_self
  | carried _ hn => exact mem_labels_of_mem_below (mem_labels_of_mem_tops hn)
  | deeper _ _ ih => exact mem_labels_of_mem_below ih
  | later _ ih => exact mem_labels_of_mem_next ih

/-- The path that a forest is beneath is an ancestor of the path of each node. -/
theorem Forest.LaidOut.isAncestorOf {n : Node} {f : Forest Node} : ∀ {parent : Path},
    f.LaidOut id parent → n ∈ f.labels → parent.isAncestorOf n.path = true := by
  induction f with
  | nil => intro parent _ hn; cases hn
  | tree a below next hb hn =>
    rintro parent ⟨hpath, hbelow, hnext⟩ hmem
    have hancestor : parent.isAncestorOf a.path = true := by
      rw [show a.path = parent.child a.tag from hpath]
      exact Path.isAncestorOf_child ..
    rcases List.mem_cons.mp hmem with rfl | hmem
    · exact hancestor
    rcases List.mem_append.mp hmem with hmem | hmem
    · exact Path.isAncestorOf_trans hancestor (hb hbelow hmem)
    · exact hn hnext hmem

/-! ### What is emitted -/

/-- Whether a block has the mark of a mapping from an input to an output. -/
def Block.Emits (b : Block) (output input : Path) : Prop :=
  ∃ k ∈ b.marks, k.output = output ∧ k.input = input

instance (b : Block) (output input : Path) : Decidable (b.Emits output input) :=
  inferInstanceAs (Decidable (∃ k ∈ b.marks, _ ∧ _))

namespace Block.Emits

variable {a b : Block} {output input : Path}

theorem of_marks (h : a.Emits output input) (hsub : a.marks ⊆ b.marks) : b.Emits output input := by
  obtain ⟨k, hk, hpaths⟩ := h
  exact ⟨k, hsub hk, hpaths⟩

theorem append_left (h : a.Emits output input) : (a ++ b).Emits output input := by
  refine h.of_marks ?_
  rw [marks_append]
  exact List.subset_append_left ..

theorem append_right (h : b.Emits output input) : (a ++ b).Emits output input := by
  refine h.of_marks ?_
  rw [marks_append]
  exact List.subset_append_right ..

theorem construct {args : Emission.Arguments} {tag : Tag} {value : Option Expression}
    (h : args.lets.Emits output input) : (args.construct tag value b).Emits output input := by
  refine h.of_marks ?_
  rw [Emission.marks_construct]
  exact List.subset_append_left ..

theorem isEmpty_eq_false (h : a.Emits output input) : a.isEmpty = false := by
  obtain ⟨k, hk, -⟩ := h
  cases a with
  | nil => cases hk
  | simple => rfl
  | nested => rfl

end Block.Emits

/-- Whether a mark is that of a mapping of a node. -/
def Mark.IsOf (k : Mark) (n : Node) : Prop :=
  ∃ m ∈ n.mappingList, k.output = m.output ∧ k.input = m.input

namespace Emission

open Crosswalk.Numbering

variable {g : Setting} {output input : Path}

theorem emits_attributeLets {n : NumberedNode} {nm : NumberedMapping} {scopes : Scopes}
    {ms : List NumberedMapping} (h : nm ∈ ms) : ∀ {k : Nat},
      (attributeLets g scopes n k ms).Emits nm.mapping.output nm.mapping.input := by
  induction ms with
  | nil => cases h
  | cons nm' ms ih =>
    intro k
    rw [Block.Emits]
    rw [marks_attributeLets_cons]
    rcases List.mem_cons.mp h with rfl | h
    · exact ⟨_, List.mem_cons_self, rfl, rfl⟩
    · obtain ⟨e, he, hpaths⟩ := ih h (k := k + 1)
      exact ⟨e, List.mem_cons_of_mem _ he, hpaths⟩

/-- An attribute is bound with the element that it belongs to. -/
theorem emits_argumentsOf {n : NumberedNode} {nm : NumberedMapping} {ns : List NumberedNode}
    (hn : n ∈ ns) (hattr : n.isAttribute = true) (hfocus : g.inFocus n.path = true)
    (hfixed : n.fixedMembership? = none) (hnm : nm ∈ g.emitted n) (scopes : Scopes) :
    (argumentsOf g scopes ns).lets.Emits nm.mapping.output nm.mapping.input := by
  have hlets : (attributeLets g scopes n 0 (g.emitted n)).Emits _ _ := emits_attributeLets hnm
  refine hlets.of_marks ?_
  rw [marks_argumentsOf]
  intro k hk
  refine List.mem_flatMap.mpr ⟨n, hn, ?_⟩
  rw [hattr, hfocus, marks_attributeArguments, hfixed]
  exact hk

/-- A node that emits something emits its attributes, and emits what is below it unless it is a
mapped leaf. -/
theorem emits_nodeBlock {n : NumberedNode} {below : Forest NumberedNode} {inner : Scopes → Block}
    {isRoot : Bool} (hattr : n.isAttribute = false) (hfocus : g.inFocus n.path = true)
    (hfixed : n.fixedMembership? = none) (hpopulated : isPopulated n below = true)
    (hemitted : n.hasMappings = true → g.emitted n ≠ [])
    (h : ∀ scopes, (argumentsOf g scopes below.tops).lets.Emits output input ∨
      (n.leaf && n.hasMappings) = false ∧ (inner scopes).Emits output input) (scopes : Scopes) :
    (nodeBlock g isRoot scopes n below inner).Emits output input := by
  rw [Block.Emits]
  rw [marks_nodeBlock, hattr, hfocus, hfixed, hpopulated]
  simp only [Bool.not_true, Bool.or_self, Bool.false_eq_true, if_false, Option.isSome_none]
  split
  · next hmapped =>
    obtain ⟨nm, hnm⟩ := List.exists_mem_of_ne_nil _ (hemitted hmapped)
    have hinside : (mappingBlock g scopes n below.tops nm inner).Emits output input := by
      rcases h (innerScopes scopes n nm) with h | ⟨hleaf, h⟩
      · refine h.of_marks ?_
        rw [marks_mappingBlock]
        exact List.subset_append_left ..
      · refine h.of_marks ?_
        rw [hmapped, Bool.and_true] at hleaf
        rw [marks_mappingBlock, hleaf]
        exact List.subset_append_right ..
    obtain ⟨k, hk, hpaths⟩ := hinside
    exact ⟨k, List.mem_flatMap.mpr ⟨nm, hnm, List.mem_cons_of_mem _ hk⟩, hpaths⟩
  · rcases h (branchScopes isRoot scopes n below) with h | ⟨-, h⟩
    · refine h.of_marks ?_
      rw [marks_branch]
      exact List.subset_append_left ..
    · refine h.of_marks ?_
      rw [marks_branch]
      exact List.subset_append_right ..

/-- A mapped node emits each of its mappings. -/
theorem emits_nodeBlock_self {n : NumberedNode} {nm : NumberedMapping}
    {below : Forest NumberedNode} {inner : Scopes → Block} {isRoot : Bool}
    (hattr : n.isAttribute = false) (hfocus : g.inFocus n.path = true)
    (hfixed : n.fixedMembership? = none) (hmapped : n.hasMappings = true)
    (hnm : nm ∈ g.emitted n) (scopes : Scopes) :
    (nodeBlock g isRoot scopes n below inner).Emits nm.mapping.output nm.mapping.input := by
  rw [Block.Emits]
  rw [marks_nodeBlock, hattr, hfocus, hfixed, isPopulated, hmapped]
  simp only [Bool.not_true, Bool.or_self, Bool.false_eq_true, if_false, Option.isSome_none,
    Bool.true_or, if_true]
  exact ⟨_, List.mem_flatMap.mpr ⟨nm, hnm, List.mem_cons_self⟩, rfl, rfl⟩

/-- A node that passes no attributes emits nothing. -/
theorem nodeBlock_of_not_passesAttributes {n : NumberedNode} {below : Forest NumberedNode}
    {inner : Scopes → Block} {isRoot : Bool} {scopes : Scopes}
    (h : n.passesAttributes = false) : nodeBlock g isRoot scopes n below inner = .nil := by
  rw [nodeBlock]
  split
  · rfl
  · next hshown =>
    have helement : n.isAttribute = false := by
      cases hattr : n.isAttribute with
      | false => rfl
      | true => exact absurd (by rw [hattr]; rfl) hshown
    rw [Node.passesAttributes, helement, Bool.not_false, Bool.true_and, Bool.or_eq_false_iff] at h
    obtain ⟨hfixed, hvalue⟩ := h
    rw [if_pos (by rw [← Option.not_isNone, hfixed]; rfl)]
    rw [Option.isSome_eq_false_iff, Option.isNone_iff_eq_none] at hvalue
    rw [hvalue]

/-- The output is the block of the root unless that is empty. -/
theorem emits_of_block {b other : Block} (h : b.Emits output input) :
    (if b.isEmpty then other else b).Emits output input := by
  rw [h.isEmpty_eq_false, if_neg Bool.false_ne_true]
  exact h

/-! ### Numbered trees -/

/-- Whether the focus, if there is one, is a mapping. -/
def Focuses (g : Setting) (n : Node) (m : Mapping) : Prop :=
  ∀ f ∈ g.focus, f.output = n.path ∧ f.input = m.input

variable {n : Node} {m : Mapping}

theorem Focuses.inFocus (h : Focuses g n m) {p : Path} (hp : p = n.path ∨ p.isAncestorOf n.path) :
    g.inFocus p = true := by
  rw [Setting.inFocus]
  cases hf : g.focus with
  | none => rfl
  | some f =>
    obtain ⟨houtput, -⟩ := h f hf
    rcases hp with rfl | hp
    · simp [Path.isFamilyOf, houtput]
    · simp [Path.isFamilyOf, houtput, hp]

/-- Above the mapping in focus every mapping is emitted. -/
theorem Focuses.emitted_ancestor (h : Focuses g n m) {a : NumberedNode}
    (ha : a.path.isAncestorOf n.path = true) : g.emitted a = a.numbered := by
  rw [Setting.emitted]
  cases hf : g.focus with
  | none => rfl
  | some f =>
    simp only
    rw [(h f hf).1, if_neg (Path.ne_of_isAncestorOf ha).symm]

theorem Focuses.exists_emitted (h : Focuses g n m) (hm : m ∈ n.mappingList) (tables joined : Nat) :
    ∃ nm ∈ g.emitted (numberNode tables joined n), nm.mapping = m := by
  obtain ⟨nm, hnm, rfl⟩ := exists_numbered hm tables joined
  refine ⟨nm, ?_, rfl⟩
  rw [Setting.emitted]
  cases hf : g.focus with
  | none => exact hnm
  | some f =>
    simp only
    split
    · exact List.mem_filter.mpr ⟨hnm, by simp [(h f hf).2]⟩
    · exact hnm

theorem hasMappings_of_mem (hm : m ∈ n.mappingList) : n.hasMappings = true := by
  obtain ⟨e, he, -⟩ := List.mem_map.mp hm
  rw [Node.hasMappings, SortedMap.isEmpty]
  cases h : n.mappings.toList with
  | nil => rw [h] at he; cases he
  | cons => rfl

theorem numbered_ne_nil {a : Node} (ha : a.hasMappings = true) (tables joined : Nat) :
    (numberNode tables joined a).numbered ≠ [] := by
  intro hnil
  have hlist := map_numbered tables joined a
  rw [hnil, List.map_nil] at hlist
  rw [Node.hasMappings, SortedMap.isEmpty] at ha
  rw [List.map_eq_nil_iff.mp hlist.symm] at ha
  cases ha

/-- A node above a mapping is populated. -/
theorem isPopulated_of_mem {a : NumberedNode} {f : Forest Node} (hn : n ∈ f.labels)
    (hm : m ∈ n.mappingList) (tables joined : Nat) :
    isPopulated a (number tables joined f) = true := by
  obtain ⟨i, j, hmem⟩ := numberNode_mem_labels hn tables joined
  rw [isPopulated, Bool.or_eq_true, Forest.any_iff]
  exact .inr ⟨_, hmem, hasMappings_of_mem hm⟩

variable (hm : m ∈ n.mappingList) (hfixed : n.fixedMembership? = none) (hg : Focuses g n m)

include hm hfixed hg

theorem emits_argumentsOf_number {below : Forest Node} {tables joined : Nat} (hn : n ∈ below.tops)
    (hattr : n.isAttribute = true) (scopes : Scopes) :
    (argumentsOf g scopes (number tables joined below).tops).lets.Emits m.output m.input := by
  obtain ⟨i, j, hmem⟩ := numberNode_mem_tops hn tables joined
  obtain ⟨nm, hnm, rfl⟩ := hg.exists_emitted hm i j
  exact emits_argumentsOf hmem hattr (hg.inFocus (.inl rfl)) hfixed hnm scopes

omit hfixed in
/-- A node above a mapped one emits what it has. -/
theorem emits_nodeBlock_number {a : Node} {below : Forest Node} {isRoot : Bool}
    {tables joined tables' joined' : Nat} {inner : Scopes → Block}
    (ha : a.path.isAncestorOf n.path = true) (hn : n ∈ below.labels) (hattr : a.isAttribute = false)
    (hfree : a.fixedMembership? = none)
    (h : ∀ scopes,
      (argumentsOf g scopes (number tables' joined' below).tops).lets.Emits m.output m.input ∨
        (a.leaf && a.hasMappings) = false ∧ (inner scopes).Emits m.output m.input)
    (scopes : Scopes) :
    (nodeBlock g isRoot scopes (numberNode tables joined a) (number tables' joined' below)
      inner).Emits m.output m.input := by
  refine emits_nodeBlock hattr (hg.inFocus (.inr ha)) hfree (isPopulated_of_mem hn hm ..) ?_ h
    scopes
  intro hmapped
  rw [hg.emitted_ancestor (a := numberNode tables joined a) ha]
  exact numbered_ne_nil hmapped tables joined

/-- A node that passes attributes emits those it has. -/
theorem emits_nodeBlock_carried {a : Node} {below : Forest Node} {isRoot : Bool}
    {tables joined tables' joined' : Nat} {inner : Scopes → Block}
    (ha : a.path.isAncestorOf n.path = true) (hpasses : a.passesAttributes = true)
    (hn : n ∈ below.tops) (hattr : n.isAttribute = true) (scopes : Scopes) :
    (nodeBlock g isRoot scopes (numberNode tables joined a) (number tables' joined' below)
      inner).Emits m.output m.input := by
  have hargs (scopes : Scopes) :
      (argumentsOf g scopes (number tables' joined' below).tops).lets.Emits m.output m.input :=
    emits_argumentsOf_number hm hfixed hg hn hattr scopes
  rw [Node.passesAttributes, Bool.and_eq_true, Bool.not_eq_true', Bool.or_eq_true] at hpasses
  obtain ⟨helement, hvalue⟩ := hpasses
  cases hfree : a.fixedMembership? with
  | none =>
    exact emits_nodeBlock_number hm hg ha (Forest.mem_labels_of_mem_tops hn) helement hfree
      (fun scopes => .inl (hargs scopes)) scopes
  | some f =>
    rw [hfree] at hvalue
    refine (hargs scopes).of_marks ?_
    rw [marks_nodeBlock, toNode_numberNode, helement, hg.inFocus (.inr ha), hfree,
      hvalue.resolve_left (by simp)]
    exact List.Subset.refl _

/-- The induction follows the walk. The nodes on the way have ancestors of the node's path, so a
focus on the mapping lets them all through. -/
theorem emits_blockOf {f : Forest Node} (h : f.Reaches n) : ∀ {parent : Path} {tables joined : Nat}
    (scopes : Scopes), f.LaidOut id parent →
      (blockOf g (number tables joined f) scopes).Emits m.output m.input := by
  induction h with
  | here hattr =>
    intro parent tables joined scopes _
    obtain ⟨nm, hnm, rfl⟩ := hg.exists_emitted hm tables joined
    rw [number, blockOf]
    exact (emits_nodeBlock_self hattr (hg.inFocus (.inl rfl)) hfixed (hasMappings_of_mem hm) hnm
      scopes).append_left
  | carried hpasses hn hattr =>
    rintro parent tables joined scopes ⟨-, hbelow, -⟩
    rw [number, blockOf]
    have ha := hbelow.isAncestorOf (Forest.mem_labels_of_mem_tops hn)
    exact (emits_nodeBlock_carried hm hfixed hg ha hpasses hn hattr scopes).append_left
  | deeper hopens h ih =>
    rintro parent tables joined scopes ⟨-, hbelow, -⟩
    rw [number, blockOf]
    obtain ⟨helement, hfree, hleaf⟩ := Node.opensBelow_iff.mp hopens
    have ha := hbelow.isAncestorOf h.mem_labels
    exact (emits_nodeBlock_number hm hg ha h.mem_labels helement hfree
      (fun scopes => .inr ⟨hleaf, ih scopes hbelow⟩) scopes).append_left
  | later h ih =>
    rintro parent tables joined scopes ⟨-, -, hnext⟩
    rw [number, blockOf]
    exact (ih scopes hnext).append_right

/-- Every mapping of a node that the walk of the tree comes to is emitted. -/
theorem emits_outputOf {t : MappingTree} (h : t.Reaches n) (hlaid : t.forest.LaidOut id Path.root) :
    (outputOf g t.numbered).Emits m.output m.input := by
  rw [MappingTree.Reaches] at h
  rw [MappingTree.numbered]
  cases hforest : t.forest with
  | nil => rw [hforest] at h; cases h
  | tree root below next =>
    rw [hforest] at h hlaid
    obtain ⟨-, hbelow, -⟩ := hlaid
    rw [number, outputOf]
    rcases h with ⟨rfl, hattr⟩ | ⟨hn, hattr⟩ | ⟨hopens, hn⟩
    · obtain ⟨nm, hnm, rfl⟩ := hg.exists_emitted hm 0 0
      exact emits_of_block (emits_nodeBlock_self hattr (hg.inFocus (.inl rfl)) hfixed
        (hasMappings_of_mem hm) hnm [])
    · have ha := hbelow.isAncestorOf (Forest.mem_labels_of_mem_tops hn)
      cases hpasses : root.passesAttributes with
      | true =>
        exact emits_of_block (emits_nodeBlock_carried hm hfixed hg ha hpasses hn hattr [])
      | false =>
        rw [nodeBlock_of_not_passesAttributes hpasses]
        exact (emits_argumentsOf_number hm hfixed hg hn hattr []).construct
    · obtain ⟨helement, hfree, hleaf⟩ := Node.opensBelow_iff.mp hopens
      have ha := hbelow.isAncestorOf hn.mem_labels
      exact emits_of_block (emits_nodeBlock_number hm hg ha hn.mem_labels helement hfree
        (fun scopes => .inr ⟨hleaf, emits_blockOf hm hfixed hg hn scopes hbelow⟩) [])

omit hm hfixed hg

/-! ### Where marks come from -/

theorem mem_marks_attributeLets {n : NumberedNode} {scopes : Scopes} {k : Mark}
    {ms : List NumberedMapping} : ∀ {i : Nat}, k ∈ (attributeLets g scopes n i ms).marks →
      ∃ nm ∈ ms, k.output = nm.mapping.output ∧ k.input = nm.mapping.input := by
  induction ms with
  | nil => intro i hk; cases hk
  | cons nm ms ih =>
    intro i hk
    rw [marks_attributeLets_cons] at hk
    rcases List.mem_cons.mp hk with rfl | hk
    · exact ⟨nm, List.mem_cons_self, rfl, rfl⟩
    · obtain ⟨nm', hnm', hpaths⟩ := ih hk
      exact ⟨nm', List.mem_cons_of_mem _ hnm', hpaths⟩

theorem mem_marks_attributeArguments {n : NumberedNode} {scopes : Scopes} {k : Mark}
    (hk : k ∈ (attributeArguments g scopes n).lets.marks) :
    ∃ nm ∈ g.emitted n, k.output = nm.mapping.output ∧ k.input = nm.mapping.input := by
  rw [marks_attributeArguments] at hk
  split at hk
  · cases hk
  · exact mem_marks_attributeLets hk

theorem mem_marks_argumentsOf {scopes : Scopes} {ns : List NumberedNode} {k : Mark}
    (hk : k ∈ (argumentsOf g scopes ns).lets.marks) : ∃ n ∈ ns, n.isAttribute = true ∧
      ∃ nm ∈ g.emitted n, k.output = nm.mapping.output ∧ k.input = nm.mapping.input := by
  rw [marks_argumentsOf] at hk
  obtain ⟨n, hn, hk⟩ := List.mem_flatMap.mp hk
  split at hk
  · next hattr =>
    exact ⟨n, hn, (Bool.and_eq_true _ _ ▸ hattr).1, mem_marks_attributeArguments hk⟩
  · cases hk

/-- A mark of a node is that of a mapping of it, or one of its attributes, or one below it. -/
theorem mem_marks_nodeBlock {n : NumberedNode} {below : Forest NumberedNode} {isRoot : Bool}
    {scopes : Scopes} {inner : Scopes → Block} {k : Mark}
    (hk : k ∈ (nodeBlock g isRoot scopes n below inner).marks) :
    (n.isAttribute = false ∧ ∃ nm ∈ g.emitted n,
        k.output = nm.mapping.output ∧ k.input = nm.mapping.input) ∨
      (n.passesAttributes = true ∧ ∃ scopes, k ∈ (argumentsOf g scopes below.tops).lets.marks) ∨
      n.opensBelow = true ∧ ∃ scopes, k ∈ (inner scopes).marks := by
  rw [marks_nodeBlock] at hk
  split at hk
  · cases hk
  next hshown =>
  have helement : n.isAttribute = false := by
    cases hattr : n.isAttribute with
    | false => rfl
    | true => exact absurd (by rw [hattr]; rfl) hshown
  split at hk
  · split at hk
    · next hvalue =>
      exact .inr (.inl ⟨by rw [Node.passesAttributes, helement, hvalue, Bool.or_true]; rfl, _, hk⟩)
    · cases hk
  next hfixed =>
  have hfree : n.fixedMembership? = none := Option.not_isSome_iff_eq_none.mp hfixed
  have hpasses : n.passesAttributes = true := by rw [Node.passesAttributes, helement, hfree]; rfl
  split at hk
  · cases hk
  split at hk
  · obtain ⟨nm, hnm, hk⟩ := List.mem_flatMap.mp hk
    rcases List.mem_cons.mp hk with rfl | hk
    · exact .inl ⟨helement, nm, hnm, rfl, rfl⟩
    · rw [marks_mappingBlock] at hk
      rcases List.mem_append.mp hk with hk | hk
      · exact .inr (.inl ⟨hpasses, _, hk⟩)
      · split at hk
        · cases hk
        · next hleaf =>
          rw [Bool.not_eq_true] at hleaf
          exact .inr (.inr ⟨Node.opensBelow_iff.mpr ⟨helement, hfree, by rw [hleaf]; rfl⟩, _, hk⟩)
  · next hmapped =>
    rw [Bool.not_eq_true] at hmapped
    rw [marks_branch] at hk
    rcases List.mem_append.mp hk with hk | hk
    · exact .inr (.inl ⟨hpasses, _, hk⟩)
    · exact .inr (.inr ⟨Node.opensBelow_iff.mpr
        ⟨helement, hfree, by rw [hmapped, Bool.and_false]⟩, _, hk⟩)

theorem isOf_of_emitted {k : Mark} {tables joined : Nat}
    (h : ∃ nm ∈ g.emitted (numberNode tables joined n),
      k.output = nm.mapping.output ∧ k.input = nm.mapping.input) : k.IsOf n := by
  obtain ⟨nm, hnm, hpaths⟩ := h
  exact ⟨nm.mapping, mapping_mem_of_mem_numbered (Setting.mem_numbered_of_mem_emitted hnm), hpaths⟩

theorem mem_marks_argumentsOf_number {below : Forest Node} {tables joined : Nat} {scopes : Scopes}
    {k : Mark} (hk : k ∈ (argumentsOf g scopes (number tables joined below).tops).lets.marks) :
    ∃ n ∈ below.tops, n.isAttribute = true ∧ k.IsOf n := by
  obtain ⟨a, ha, hattr, hemitted⟩ := mem_marks_argumentsOf hk
  obtain ⟨n, hn, i, j, rfl⟩ := mem_tops_number ha
  exact ⟨n, hn, hattr, isOf_of_emitted hemitted⟩

/-- Nothing is emitted but for nodes that the walk comes to. -/
theorem mem_marks_blockOf {k : Mark} {f : Forest Node} : ∀ {tables joined : Nat} {scopes : Scopes},
    k ∈ (blockOf g (number tables joined f) scopes).marks → ∃ n, f.Reaches n ∧ k.IsOf n := by
  induction f with
  | nil => intro tables joined scopes hk; cases hk
  | tree a below next hb hn =>
    intro tables joined scopes hk
    rw [number, blockOf, Block.marks_append] at hk
    rcases List.mem_append.mp hk with hk | hk
    · rcases mem_marks_nodeBlock hk with ⟨hattr, h⟩ | ⟨hpasses, scopes, hk⟩ | ⟨hopens, scopes, hk⟩
      · exact ⟨a, .here hattr, isOf_of_emitted h⟩
      · obtain ⟨n, hn, hattr, hof⟩ := mem_marks_argumentsOf_number hk
        exact ⟨n, .carried hpasses hn hattr, hof⟩
      · obtain ⟨n, hreaches, hof⟩ := hb hk
        exact ⟨n, .deeper hopens hreaches, hof⟩
    · obtain ⟨n, hreaches, hof⟩ := hn hk
      exact ⟨n, .later hreaches, hof⟩

theorem mem_marks_outputOf {k : Mark} {t : MappingTree} (hk : k ∈ (outputOf g t.numbered).marks) :
    ∃ n, t.Reaches n ∧ k.IsOf n := by
  rw [MappingTree.numbered] at hk
  unfold MappingTree.Reaches
  cases hforest : t.forest with
  | nil => rw [hforest] at hk; cases hk
  | tree root below next =>
    rw [hforest, number, outputOf] at hk
    simp only at hk ⊢
    split at hk
    · rw [marks_construct, Block.marks_nil, List.append_nil] at hk
      obtain ⟨n, hn, hattr, hof⟩ := mem_marks_argumentsOf_number hk
      exact ⟨n, .inr (.inl ⟨hn, hattr⟩), hof⟩
    · rcases mem_marks_nodeBlock hk with ⟨hattr, h⟩ | ⟨-, scopes, hk⟩ | ⟨hopens, scopes, hk⟩
      · exact ⟨root, .inl ⟨rfl, hattr⟩, isOf_of_emitted h⟩
      · obtain ⟨n, hn, hattr, hof⟩ := mem_marks_argumentsOf_number hk
        exact ⟨n, .inr (.inl ⟨hn, hattr⟩), hof⟩
      · obtain ⟨n, hreaches, hof⟩ := mem_marks_blockOf hk
        exact ⟨n, .inr (.inr ⟨hopens, hreaches⟩), hof⟩

end Emission

open Emission

theorem MappingTree.Reaches.mem_nodes {t : MappingTree} {n : Node} (h : t.Reaches n) :
    n ∈ t.nodes := by
  rw [MappingTree.Reaches] at h
  rw [MappingTree.nodes]
  cases hforest : t.forest with
  | nil => rw [hforest] at h; cases h
  | tree root below next =>
    rw [hforest] at h
    rcases h with ⟨rfl, -⟩ | ⟨hn, -⟩ | ⟨-, hn⟩
    · exact List.mem_cons_self
    · exact Forest.mem_labels_of_mem_below (Forest.mem_labels_of_mem_tops hn)
    · exact Forest.mem_labels_of_mem_below hn.mem_labels

/-- Whatever has been edited, the program emits exactly the mappings of the nodes that the walk of
the tree comes to. -/
theorem MappingTree.emits_output_iff (r : Record) (es : List Edit) (snippets : SnippetStore)
    (output input : Path) :
    (((ofRecord r).afterEdits es).program snippets none).1.output.Emits output input ↔
      ∃ n, ((ofRecord r).afterEdits es).Reaches n ∧
        ∃ m ∈ n.mappingList, m.output = output ∧ m.input = input := by
  constructor
  · rintro ⟨k, hk, rfl, rfl⟩
    obtain ⟨n, hreaches, m, hm, houtput, hinput⟩ := mem_marks_outputOf hk
    exact ⟨n, hreaches, m, hm, houtput.symm, hinput.symm⟩
  · rintro ⟨n, hreaches, m, hm, rfl, rfl⟩
    have hwell := wellMapped_afterEdits r es n hreaches.mem_nodes
    refine emits_outputOf hm (hwell.not_fixed hm) ?_ hreaches (laidOut_afterEdits r es)
    intro f hf
    cases hf

/-- A record of a type whose value is chosen from a vocabulary and has a detail below it. -/
def typeDeclaration : Declaration where
  root := { tag := .elem none "record" }
  content :=
    .elem
      { tag := .elem none "type"
        vocabulary := some
          { dictionary := "types", value := .elem none "value", choices := [{ value := "Book" }] } }
      (.elem { tag := .elem none "value" } (.elem { tag := .elem none "detail" } .nil .nil) .nil)
      .nil

/-- The vocabulary of the types. -/
def typeVocabulary : Vocabulary where
  dictionary := "types"
  root := ⟨[.elem none "record", .elem none "type"]⟩
  value := .elem none "value"
  choices := [{ value := "Book" }]

/-- What the record of a type is resolved to. -/
def typeRecord : Record where
  qualifier := ""
  version := ""
  namespaces := []
  root := { tag := .elem none "record" }
  below :=
    .single { tag := .elem none "type", vocabulary := some typeVocabulary }
      (.single { tag := .elem none "value" } (.single { tag := .elem none "detail" } .nil))
  fieldMarkers := []
  assertions := []

/-- A mapping onto the detail below the value of the one choice. -/
def detailMapping : Mapping where
  output :=
    ⟨[.elem none "record", (Tag.elem none "type").withVariant "Book", .elem none "value",
      .elem none "detail"]⟩
  input := ⟨[.elem none "m", .elem none "d"]⟩

/-- A mapping below a fixed field is attached and held by its node, but not emitted. -/
theorem typeRecord_unemitted : typeDeclaration.resolve = .ok typeRecord ∧
    ∃ n ∈ ((MappingTree.ofRecord typeRecord).afterEdits [.attach detailMapping]).nodes,
      detailMapping ∈ n.mappingList ∧
        ¬(((MappingTree.ofRecord typeRecord).afterEdits [.attach detailMapping]).program
          (fun _ => none) none).1.output.Emits detailMapping.output detailMapping.input :=
  ⟨by with_unfolding_all rfl, by decide +kernel⟩

end Crosswalk
