import Crosswalk.Proofs.Coverage
import Crosswalk.Proofs.Elements
import Crosswalk.Proofs.Focus
import Crosswalk.Proofs.Position
import Crosswalk.Proofs.Translation
import Crosswalk.Proofs.Variants

/-!
Fixed fields in the output. The walk of a tree comes to a node through nodes that are populated and
emit what is below them, and what the node emits then stands in the output at its path. A fixed field
is emitted there with the text of its choice: as an element if it is one, and as an argument of its
element if it is an attribute. A node that stands for a choice and holds its value has it for the value
of every element that is emitted for one of its mappings or as if it were mapped.
-/

namespace Crosswalk

/-! ### Where the walk comes -/

/-- Whether a branch is emitted as if it were mapped: it is not the root of the output, and the inputs
of the nearest mappings below it have one parent. -/
structure Node.Synthesized (n : Node) (isRoot : Bool) (below : Forest Node) : Prop where
  beneath : isRoot = false
  leaf : n.leaf = false
  parent : (Emission.commonParent? (Numbering.number 0 0 below)).isSome = true

/-- Whether a node or one below it is mapped. -/
def Node.Populated (n : Node) (below : Forest Node) : Prop :=
  n.hasMappings = true ∨ ∃ a ∈ below.labels, a.hasMappings = true

instance (n : Node) (below : Forest Node) : Decidable (n.Populated below) :=
  inferInstanceAs (Decidable (_ ∨ _))

/-- Whether the walk of a forest comes to a tree: every node above it is populated and emits the
elements below it. -/
inductive Forest.WalksTo (p : Node × Forest Node) : Forest Node → Prop where
  | here {next : Forest Node} : WalksTo p (.tree p.1 p.2 next)
  | deeper {a : Node} {below next : Forest Node} (hopens : a.opensBelow = true)
      (hpopulated : a.Populated below) (h : WalksTo p below) : WalksTo p (.tree a below next)
  | later {a : Node} {below next : Forest Node} (h : WalksTo p next) :
      WalksTo p (.tree a below next)

/-- Whether the walk of a mapping tree comes to a tree of its nodes, either as the root of the output
or below it. It walks the first tree alone. -/
def MappingTree.WalksTo (t : MappingTree) (isRoot : Bool) (p : Node × Forest Node) : Prop :=
  match t.forest with
  | .nil => False
  | .tree root below _ =>
    if isRoot then p = (root, below)
    else root.opensBelow = true ∧ root.Populated below ∧ below.WalksTo p

/-- Whether an element is emitted when the walk comes to it. -/
def Node.Shown (n : Node) (below : Forest Node) : Prop :=
  n.passesAttributes = true ∧ (n.fixedMembership?.isSome = true ∨ n.Populated below)

theorem Forest.LaidOut.of_mem_subtrees {f : Forest Node} {p : Node × Forest Node} :
    ∀ {parent : Path}, f.LaidOut id parent → p ∈ f.subtrees → p.2.LaidOut id p.1.path := by
  induction f with
  | nil =>
    intro parent _ hp
    cases hp
  | tree a below next hb hn =>
    rintro parent ⟨-, hbelow, hnext⟩ hp
    rcases List.mem_cons.mp hp with rfl | hp
    · exact hbelow
    · exact (List.mem_append.mp hp).elim (hb hbelow) (hn hnext)

namespace Emission

open Crosswalk.Numbering

/-- Whether a block is what a tree of nodes emits at a place, within some scopes and with some numbers
of its mappings. -/
inductive IsEmitted (g : Setting) (isRoot : Bool) (p : Node × Forest Node) :
    Path → Block → Prop where
  | intro {place : Path} (h : p.1.path = place.child p.1.tag) (scopes : Scopes)
      (tables joined tables' joined' : Nat) :
      IsEmitted g isRoot p place (nodeBlock g isRoot scopes (numberNode tables joined p.1)
        (number tables' joined' p.2) (blockOf g (number tables' joined' p.2)))

variable {snippets : SnippetStore} {isRoot : Bool} {n : Node} {below : Forest Node}
  {tables joined tables' joined' : Nat} {inner : Scopes → Block} {place : Path}

theorem isPopulated_iff :
    isPopulated (numberNode tables joined n) (number tables' joined' below) = true ↔
      n.Populated below := by
  rw [isPopulated, Bool.or_eq_true, Forest.any_iff, Node.Populated]
  refine or_congr Iff.rfl ⟨?_, ?_⟩
  · rintro ⟨a, ha, hmapped⟩
    obtain ⟨m, hm, i, j, rfl⟩ := mem_labels_number ha
    exact ⟨m, hm, hmapped⟩
  · rintro ⟨a, ha, hmapped⟩
    obtain ⟨i, j, hmem⟩ := numberNode_mem_labels ha tables' joined'
    exact ⟨_, hmem, hmapped⟩

section Node

variable (hattr : n.isAttribute = false) (hfree : n.fixedMembership? = none)

include hattr hfree

/-- A mapped node emits each of its mappings. -/
theorem elements_of_mapped (hmapped : n.hasMappings = true) (scopes : Scopes)
    (below : Forest NumberedNode) :
    (nodeBlock ⟨snippets, none⟩ isRoot scopes (numberNode tables joined n) below inner).elements
        place = (numberNode tables joined n).numbered.flatMap fun nm =>
      (mappingBlock ⟨snippets, none⟩ scopes (numberNode tables joined n) below.tops nm
        inner).elements place := by
  rw [nodeBlock, toNode_numberNode, hattr, hfree, inFocus_none, isPopulated, toNode_numberNode,
    hmapped, emitted_none, Bool.true_or]
  simp only [Bool.not_true, Bool.or_self, Bool.false_eq_true, if_false, if_true, Option.isSome_none,
    Block.elements_join, List.flatMap_map, elements_marked]

variable (hpopulated : n.Populated below) (hmapped : n.hasMappings = false)

include hpopulated hmapped

/-- A populated node without mappings is emitted as a branch. -/
theorem nodeBlock_of_unmapped (scopes : Scopes) :
    nodeBlock ⟨snippets, none⟩ isRoot scopes (numberNode tables joined n)
        (number tables' joined' below) inner =
      branch ⟨snippets, none⟩ isRoot scopes (numberNode tables joined n)
        (number tables' joined' below) inner := by
  rw [nodeBlock, isPopulated_iff.mpr hpopulated, toNode_numberNode, hattr, hfree, inFocus_none,
    hmapped]
  rfl

end Node

/-- What is below a node that is populated and opens is emitted in some scopes within the node. -/
theorem elements_inner_subset (hopens : n.opensBelow = true) (hpopulated : n.Populated below)
    (scopes : Scopes) : ∃ scopes', (inner scopes').elements (place.child n.tag) ⊆
      (nodeBlock ⟨snippets, none⟩ isRoot scopes (numberNode tables joined n)
        (number tables' joined' below) inner).elements place := by
  obtain ⟨hattr, hfree, hleaf⟩ := Node.opensBelow_iff.mp hopens
  cases hmapped : n.hasMappings with
  | true =>
    obtain ⟨nm, hnm⟩ := List.exists_mem_of_ne_nil _ (numbered_ne_nil hmapped tables joined)
    rw [hmapped, Bool.and_true] at hleaf
    rw [elements_of_mapped hattr hfree hmapped]
    refine ⟨innerScopes scopes (numberNode tables joined n) nm, fun x hx => ?_⟩
    exact List.mem_flatMap.mpr ⟨nm, hnm, elements_inner_mappingBlock hleaf _ _ _ hx⟩
  | false =>
    rw [nodeBlock_of_unmapped hattr hfree hpopulated hmapped, branch]
    split
    · next parent hcommon =>
      have hleaf : n.leaf = false := by
        split at hcommon
        · cases hcommon
        · next hneither => exact (Bool.or_eq_false_iff.mp (Bool.not_eq_true _ ▸ hneither)).2
      exact ⟨_, elements_inner_mappingBlock (n := numberNode tables joined n) hleaf scopes _
        { mapping := { output := n.path, input := parent } }⟩
    · refine ⟨scopes, fun x hx => ?_⟩
      dsimp only
      split
      · next hnothing =>
        rw [Bool.and_eq_true] at hnothing
        rw [Block.isEmpty_eq_true hnothing.2] at hx
        cases hx
      · rw [elements_construct]
        exact List.mem_cons_of_mem _ hx

/-- What a tree emits that the walk comes to stands in what is emitted around it, at its path. -/
theorem exists_emitted_blockOf {p : Node × Forest Node} {f : Forest Node} (h : f.WalksTo p) :
    ∀ {place : Path} {tables joined : Nat} (scopes : Scopes), f.LaidOut id place →
      ∃ place' b, IsEmitted ⟨snippets, none⟩ false p place' b ∧ b.elements place' ⊆
        (blockOf ⟨snippets, none⟩ (number tables joined f) scopes).elements place := by
  induction h with
  | @here next =>
    rintro place tables joined scopes ⟨hpath, -, -⟩
    refine ⟨place, _, .intro hpath scopes tables joined (tables + tableCount p.1)
      (joined + joinCount p.1), ?_⟩
    rw [number, blockOf, Block.elements_append]
    exact List.subset_append_left ..
  | @deeper a below next hopens hpopulated h ih =>
    rintro place tables joined scopes ⟨hpath, hbelow, -⟩
    rw [number, blockOf, Block.elements_append]
    obtain ⟨scopes', hsubset⟩ := elements_inner_subset hopens hpopulated scopes
    rw [hpath] at hbelow
    obtain ⟨place', b, hb, hinner⟩ := ih scopes' hbelow
    exact ⟨place', b, hb,
      List.Subset.trans hinner (List.Subset.trans hsubset (List.subset_append_left ..))⟩
  | later h ih =>
    rintro place tables joined scopes ⟨-, -, hnext⟩
    rw [number, blockOf, Block.elements_append]
    obtain ⟨place', b, hb, hinner⟩ := ih scopes hnext
    exact ⟨place', b, hb, List.Subset.trans hinner (List.subset_append_right ..)⟩

/-! ### What fixed fields come to -/

variable {p : Node × Forest Node} {b : Block} {a : Node} {s : String}

theorem fixedMembership?_of_fixedValue? (h : a.fixedValue? = some s) :
    a.fixedMembership?.isSome = true := by
  obtain ⟨w, hw, -⟩ := Option.bind_eq_some_iff.mp h
  rw [hw]
  rfl

theorem literal_mem_values {f : Forest Node} (ha : a ∈ f.tops) (hattr : a.isAttribute = true)
    (hvalue : a.fixedValue? = some s) (scopes : Scopes) (tables joined : Nat) :
    (a.tag, .literal s) ∈
      (argumentsOf ⟨snippets, none⟩ scopes (number tables joined f).tops).values := by
  obtain ⟨i, j, hmem⟩ := numberNode_mem_tops ha tables joined
  obtain ⟨w, hw⟩ := Option.isSome_iff_exists.mp (fixedMembership?_of_fixedValue? hvalue)
  rw [values_argumentsOf]
  refine List.mem_filterMap.mpr ⟨_, hmem, ?_⟩
  rw [Setting.passed?, toNode_numberNode, hattr, inFocus_none, hw, hvalue]
  rfl

/-- A fixed field that is an element is emitted with its text. -/
theorem element_of_fixed (hb : IsEmitted ⟨snippets, none⟩ isRoot p place b)
    (hattr : p.1.isAttribute = false) (hvalue : p.1.fixedValue? = some s) :
    ∃ x ∈ b.elements place, x.path = p.1.path ∧ x.value = some (.literal s) := by
  obtain ⟨hpath, scopes, tables, joined, tables', joined'⟩ := hb
  rw [nodeBlock, toNode_numberNode, hattr, inFocus_none, fixedMembership?_of_fixedValue? hvalue,
    hvalue, Bool.not_true, Bool.or_self, if_neg Bool.false_ne_true, if_pos rfl]
  dsimp only
  rw [elements_construct]
  exact ⟨_, List.mem_cons_self, hpath.symm, rfl⟩

/-- A populated element is emitted with its attributes. -/
theorem element_of_populated (hattr : n.isAttribute = false) (hfree : n.fixedMembership? = none)
    (hpopulated : n.Populated below) {e : Tag × Expression}
    (he : ∀ scopes, e ∈
      (argumentsOf ⟨snippets, none⟩ scopes (number tables' joined' below).tops).values)
    (scopes : Scopes) :
    ∃ x ∈ (nodeBlock ⟨snippets, none⟩ isRoot scopes (numberNode tables joined n)
        (number tables' joined' below) inner).elements place,
      x.path = place.child n.tag ∧ e ∈ x.attributes := by
  have hmapping (nm : NumberedMapping) :
      ∃ x ∈ (mappingBlock ⟨snippets, none⟩ scopes (numberNode tables joined n)
          (number tables' joined' below).tops nm inner).elements place,
        x.path = place.child n.tag ∧ e ∈ x.attributes := by
    obtain ⟨value, hx⟩ := element_mem_mappingBlock (g := ⟨snippets, none⟩)
      (n := numberNode tables joined n) scopes (number tables' joined' below).tops nm inner place
    exact ⟨_, hx, rfl, he _⟩
  cases hmapped : n.hasMappings with
  | true =>
    obtain ⟨nm, hnm⟩ := List.exists_mem_of_ne_nil _ (numbered_ne_nil hmapped tables joined)
    obtain ⟨x, hx, h⟩ := hmapping nm
    rw [elements_of_mapped hattr hfree hmapped]
    exact ⟨x, List.mem_flatMap.mpr ⟨nm, hnm, hx⟩, h⟩
  | false =>
    rw [nodeBlock_of_unmapped hattr hfree hpopulated hmapped, branch]
    split
    · exact hmapping _
    · dsimp only
      split
      · next hnothing =>
        rw [Bool.and_eq_true, List.isEmpty_iff] at hnothing
        have hvalues := he scopes
        rw [hnothing.1] at hvalues
        cases hvalues
      · rw [elements_construct]
        exact ⟨_, List.mem_cons_self, rfl, he scopes⟩

/-- A fixed field that is an attribute is passed to its element if that is emitted at all. -/
theorem element_of_attribute (hb : IsEmitted ⟨snippets, none⟩ isRoot p place b)
    (hpasses : p.1.passesAttributes = true)
    (hshown : p.1.fixedMembership?.isSome = true ∨ p.1.Populated p.2) (ha : a ∈ p.2.tops)
    (hattr : a.isAttribute = true) (hvalue : a.fixedValue? = some s) :
    ∃ x ∈ b.elements place, x.path = p.1.path ∧ (a.tag, .literal s) ∈ x.attributes := by
  obtain ⟨hpath, scopes, tables, joined, tables', joined'⟩ := hb
  rw [Node.passesAttributes, Bool.and_eq_true, Bool.not_eq_true', Bool.or_eq_true] at hpasses
  obtain ⟨helement, hvalue'⟩ := hpasses
  rw [hpath]
  cases hfree : p.1.fixedMembership? with
  | none =>
    have hpopulated : p.1.Populated p.2 :=
      hshown.resolve_left (by rw [hfree]; exact Bool.false_ne_true)
    exact element_of_populated helement hfree hpopulated
      (fun scopes => literal_mem_values ha hattr hvalue scopes tables' joined') scopes
  | some w =>
    rw [hfree] at hvalue'
    obtain ⟨s', hs'⟩ := Option.isSome_iff_exists.mp (hvalue'.resolve_left Bool.false_ne_true)
    rw [nodeBlock, toNode_numberNode, helement, inFocus_none, hfree, hs', Bool.not_true,
      Bool.or_self, if_neg Bool.false_ne_true, Option.isSome_some, if_pos rfl]
    dsimp only
    rw [elements_construct]
    exact ⟨_, List.mem_cons_self, rfl, literal_mem_values ha hattr hvalue scopes tables' joined'⟩

theorem fixedMembership?_of_rootMembership? {w : Membership} (h : a.rootMembership? = some w) :
    a.fixedMembership? = none := by
  obtain ⟨hw, hrole⟩ := Option.filter_eq_some_iff.mp h
  rw [Node.fixedMembership?, hw, Option.filter_eq_none_iff]
  rintro _ ⟨⟩
  rw [eq_of_beq hrole]
  exact Bool.false_ne_true

theorem populated_of_synthesized (h : n.Synthesized isRoot below) : n.Populated below := by
  obtain ⟨parent, hparent⟩ := Option.isSome_iff_exists.mp h.parent
  obtain ⟨_, hmem, m, hm, -⟩ := exists_mapping_of_commonParent? hparent
  obtain ⟨a, ha, i, j, rfl⟩ := mem_labels_number hmem
  exact .inr ⟨a, ha, hasMappings_of_mem hm⟩

/-- A node that is mapped, or emitted as if it were, emits nothing but what mappings of it emit. -/
theorem mappings_of_nodeBlock (hattr : n.isAttribute = false) (hfree : n.fixedMembership? = none)
    (hmapped : n.hasMappings = true ∨ n.Synthesized isRoot below) (scopes : Scopes) :
    ∃ nms : List NumberedMapping, nms ≠ [] ∧
      (∀ nm ∈ nms, nm.mapping ∈ n.mappingList ∨ nm.mapping.snippet = none) ∧
      (nodeBlock ⟨snippets, none⟩ isRoot scopes (numberNode tables joined n)
        (number tables' joined' below) inner).elements place = nms.flatMap fun nm =>
          (mappingBlock ⟨snippets, none⟩ scopes (numberNode tables joined n)
            (number tables' joined' below).tops nm inner).elements place := by
  cases hhas : n.hasMappings with
  | true =>
    exact ⟨_, numbered_ne_nil hhas tables joined,
      fun nm hnm => .inl (mapping_mem_of_mem_numbered hnm),
      elements_of_mapped hattr hfree hhas scopes _⟩
  | false =>
    have hsynthesized : n.Synthesized isRoot below :=
      hmapped.resolve_left (by rw [hhas]; exact Bool.false_ne_true)
    obtain ⟨parent, hparent⟩ := Option.isSome_iff_exists.mp hsynthesized.parent
    rw [commonParent?_number 0 0 tables' joined'] at hparent
    refine ⟨[{ mapping := { output := n.path, input := parent } }], by simp, ?_, ?_⟩
    · intro nm hnm
      rw [List.mem_singleton.mp hnm]
      exact .inr rfl
    · rw [nodeBlock_of_unmapped hattr hfree (populated_of_synthesized hsynthesized) hhas, branch,
        toNode_numberNode, hsynthesized.beneath, hsynthesized.leaf, Bool.or_self,
        if_neg Bool.false_ne_true, hparent, List.flatMap_singleton]

/-- A node that stands for a choice and holds its value emits it as the value of every element for a
mapping of it and of the element that is emitted as if it were mapped. -/
theorem value_of_choice {w : Membership} (hattr : p.1.isAttribute = false)
    (hw : p.1.rootMembership? = some w) (hvalue : w.vocabulary.rootIsValue = true)
    (hsnippets : snippets p.1.path = none) (hown : ∀ m ∈ p.1.mappingList, m.snippet = none)
    (hmapped : p.1.hasMappings = true ∨ p.1.Synthesized isRoot p.2)
    (hb : IsEmitted ⟨snippets, none⟩ isRoot p place b) :
    (∃ x ∈ b.elements place, x.path = p.1.path) ∧
      ∀ x ∈ b.elements place, x.path = p.1.path → x.value = some (.literal w.choice.value) := by
  obtain ⟨hpath, scopes, tables, joined, tables', joined'⟩ := hb
  have hchoice : choiceValue? (numberNode tables joined p.1) = some (.literal w.choice.value) := by
    rw [choiceValue?, toNode_numberNode, hw]
    exact if_pos hvalue
  obtain ⟨nms, hne, hmappings, helements⟩ :=
    mappings_of_nodeBlock hattr (fixedMembership?_of_rootMembership? hw) hmapped scopes
  rw [hpath, helements]
  constructor
  · obtain ⟨nm, hnm⟩ := List.exists_mem_of_ne_nil _ hne
    obtain ⟨value, hx⟩ := element_mem_mappingBlock (g := ⟨snippets, none⟩)
      (n := numberNode tables joined p.1) scopes (number tables' joined' p.2).tops nm _ place
    exact ⟨_, List.mem_flatMap.mpr ⟨nm, hnm, hx⟩, rfl⟩
  · intro x hx hplace
    obtain ⟨nm, hnm, hx⟩ := List.mem_flatMap.mp hx
    refine value_of_mem_mappingBlock hchoice ?_ hx hplace
    have hnone : nm.mapping.snippet = none := (hmappings nm hnm).elim (hown _) id
    rw [Setting.snippetOf, hnone]
    exact hsnippets

/-! ### The output -/

/-- What a tree emits that the walk comes to stands in the output, at its path. -/
theorem exists_emitted_outputOf {t : MappingTree} (h : t.WalksTo isRoot p)
    (hlaid : t.forest.LaidOut id Path.root) :
    ∃ place b, IsEmitted ⟨snippets, none⟩ isRoot p place b ∧
      b.elements place ⊆ (outputOf ⟨snippets, none⟩ t.numbered).elements Path.root := by
  rw [MappingTree.numbered]
  rw [MappingTree.WalksTo] at h
  cases hforest : t.forest with
  | nil =>
    rw [hforest] at h
    cases h
  | tree root below next =>
    rw [hforest] at h hlaid
    obtain ⟨hpath, hbelow, -⟩ := hlaid
    rw [number, outputOf]
    -- a root that emits nothing by itself has no elements in its block
    have hblock {b other : Block} :
        b.elements Path.root ⊆ (if b.isEmpty then other else b).elements Path.root := by
      split
      · next hempty => rw [Block.isEmpty_eq_true hempty]; exact List.nil_subset _
      · exact List.Subset.refl _
    cases isRoot with
    | true =>
      obtain rfl := h
      exact ⟨Path.root, _, .intro hpath [] 0 0 (0 + tableCount root) (0 + joinCount root), hblock⟩
    | false =>
      obtain ⟨hopens, hpopulated, h⟩ := h
      obtain ⟨scopes, hsubset⟩ := elements_inner_subset hopens hpopulated []
      rw [hpath] at hbelow
      obtain ⟨place, b, hb, hinner⟩ := exists_emitted_blockOf h scopes hbelow
      exact ⟨place, b, hb, List.Subset.trans hinner (List.Subset.trans hsubset hblock)⟩

end Emission

open Emission

/-- Whether the root of a block has an element at a path with a value. -/
def Block.Constructs (b : Block) (p : Path) (value : Expression) : Prop :=
  ∃ x ∈ b.elements Path.root, x.path = p ∧ x.value = some value

/-- Whether the root of a block has an element at a path with an argument for an attribute. -/
def Block.PassesTo (b : Block) (p : Path) (tag : Tag) (value : Expression) : Prop :=
  ∃ x ∈ b.elements Path.root, x.path = p ∧ (tag, value) ∈ x.attributes

/-- Whether the choice of a membership fixes a text for a node of its variant, by the position of the
node. -/
def Membership.Fixes (w : Membership) (below : Forest Node) (n : Node) (s : String) : Prop :=
  n ∈ below.variantNodes ∧
    ∃ role, w.vocabulary.fixedRole? n.path.withoutVariants = some role ∧
      w.choice.field? role = some s

theorem Membership.Fixes.fixedValue? {w : Membership} {below : Forest Node} {n : Node} {s : String}
    (h : w.Fixes below n s) (hgoverns : w.Governs below) : n.fixedValue? = some s := by
  obtain ⟨hn, role, hrole, hs⟩ := h
  have hmembership := hgoverns.membership_of_fixedRole? hn hrole
  rw [Node.fixedValue?, Node.fixedMembership?, hmembership, Option.filter_some,
    Vocabulary.acceptsMappings_of_fixedRole? hrole]
  exact hs

/-- Whatever has been edited, the text that a choice fixes for a position is in the output at every
node of its variant that has the position and that the walk comes to: as the value of the node's
element, or as an argument of the element that has the node for an attribute. A node that stands for
a choice and holds its value is emitted with that value wherever it is emitted for a mapping or as if
it were mapped. -/
theorem MappingTree.fixed_fields_output {d : Declaration} {r : Record} (h : d.resolve = .ok r)
    (es : List Edit) (snippets : SnippetStore) :
    let t := (ofRecord r).afterEdits es
    let output := (t.program snippets none).1.output
    ∀ p ∈ t.forest.subtrees, ∀ w, p.1.rootMembership? = some w →
      (∀ q ∈ p.2.subtrees, ∀ s isRoot, w.Fixes p.2 q.1 s → q.1.isAttribute = false →
        t.WalksTo isRoot q → output.Constructs q.1.path (.literal s)) ∧
      (∀ q ∈ p :: p.2.subtrees, ∀ a ∈ q.2.tops, ∀ s isRoot, w.Fixes p.2 a s →
        a.isAttribute = true → t.WalksTo isRoot q → q.1.Shown q.2 →
          a.path = q.1.path.child a.tag ∧ output.PassesTo q.1.path a.tag (.literal s)) ∧
      (w.vocabulary.rootIsValue = true → p.1.isAttribute = false → snippets p.1.path = none →
        (∀ m ∈ p.1.mappingList, m.snippet = none) → ∀ isRoot,
          (p.1.hasMappings = true ∨ p.1.Synthesized isRoot p.2) →
            (t.WalksTo isRoot p → output.Constructs p.1.path (.literal w.choice.value)) ∧
            ∀ place b, IsEmitted ⟨snippets, none⟩ isRoot p place b → ∀ x ∈ b.elements place,
              x.path = p.1.path → x.value = some (.literal w.choice.value)) := by
  intro t output p hp w hw
  have hlaid : t.forest.LaidOut id Path.root := laidOut_afterEdits r es
  have hgoverns : w.Governs p.2 := Forest.each_iff_subtrees.mp (governs_afterEdits h es) p hp w hw
  have hemitted (isRoot : Bool) (q : Node × Forest Node) (hwalk : t.WalksTo isRoot q) :
      ∃ place b, IsEmitted ⟨snippets, none⟩ isRoot q place b ∧
        b.elements place ⊆ output.elements Path.root :=
    exists_emitted_outputOf hwalk hlaid
  refine ⟨?_, ?_, ?_⟩
  · intro q _ s isRoot hfixes hattr hwalk
    obtain ⟨place, b, hb, hsubset⟩ := hemitted isRoot q hwalk
    obtain ⟨x, hx, hpath, hvalue⟩ := element_of_fixed hb hattr (hfixes.fixedValue? hgoverns)
    exact ⟨x, hsubset hx, hpath, hvalue⟩
  · intro q hq a ha s isRoot hfixes hattr hwalk hshown
    have hbelow : q.2.LaidOut id q.1.path := hlaid.of_mem_subtrees <| by
      rcases List.mem_cons.mp hq with rfl | hq
      · exact hp
      · exact Forest.mem_subtrees_trans hq hp
    obtain ⟨place, b, hb, hsubset⟩ := hemitted isRoot q hwalk
    obtain ⟨x, hx, hpath, hvalue⟩ :=
      element_of_attribute hb hshown.1 hshown.2 ha hattr (hfixes.fixedValue? hgoverns)
    exact ⟨hbelow.path_of_mem_tops a ha, x, hsubset hx, hpath, hvalue⟩
  · intro hvalue hattr hsnippets hown isRoot hmapped
    have hall (place : Path) (b : Block) (hb : IsEmitted ⟨snippets, none⟩ isRoot p place b) :=
      value_of_choice hattr hw hvalue hsnippets hown hmapped hb
    refine ⟨fun hwalk => ?_, fun place b hb => (hall place b hb).2⟩
    obtain ⟨place, b, hb, hsubset⟩ := hemitted isRoot p hwalk
    obtain ⟨⟨x, hx, hpath⟩, hvalues⟩ := hall place b hb
    exact ⟨x, hsubset hx, hpath, hvalues x hx hpath⟩

/-- A record of a kind, which is a choice itself, and of a type, which is chosen by its value. The type
fixes a code that is an attribute of an information. -/
def infoDeclaration : Declaration where
  root := { tag := .elem none "record" }
  content :=
    .elem
      { tag := .elem none "kind"
        vocabulary := some
          { dictionary := "kinds", value := .elem none "kind", choices := [{ value := "Print" }] } }
      .nil
      (.elem
        { tag := .elem none "type"
          vocabulary := some
            { dictionary := "types"
              value := .elem none "value"
              key := some ⟨[.elem none "info", .attr none "code"]⟩
              choices := [{ value := "Book" }] } }
        (.elem { tag := .elem none "value" } .nil
          (.elem { tag := .elem none "info" }
            (.attr { tag := .attr none "code" } (.elem { tag := .elem none "label" } .nil .nil))
            (.elem { tag := .elem none "note" } .nil .nil)))
        .nil)

/-- What the record of a kind and a type is resolved to. -/
def infoRecord : Record where
  qualifier := ""
  version := ""
  namespaces := []
  root := { tag := .elem none "record" }
  below :=
    .tree
      { tag := .elem none "kind"
        vocabulary := some
          { dictionary := "kinds"
            root := .ofNames ["record", "kind"]
            value := .elem none "kind"
            choices := [{ value := "Print" }] } }
      .nil
      (.single
        { tag := .elem none "type"
          vocabulary := some
            { dictionary := "types"
              root := .ofNames ["record", "type"]
              value := .elem none "value"
              key := some ((Path.ofNames ["record", "type", "info"]).child (.attr none "code"))
              choices := [{ value := "Book" }] } }
        (.tree { tag := .elem none "value" } .nil
          (.tree { tag := .elem none "info", attributes := [{ tag := .attr none "code" }] }
            (.single { tag := .elem none "label" } .nil)
            (.single { tag := .elem none "note" } .nil))))
  fieldMarkers := []
  assertions := []

/-- The path of the type of a book. -/
def bookPath : Path :=
  (Path.ofNames ["record"]).child ((Tag.elem none "type").withVariant "Book")

/-- The path of a print. -/
def printPath : Path :=
  (Path.ofNames ["record"]).child ((Tag.elem none "kind").withVariant "Print")

/-- Mappings of the kind of a print and of the label of a book's information. -/
def labelEdits : List Edit :=
  [.attach { output := printPath, input := .ofNames ["m", "k"] },
    .attach
      { output := (bookPath.child (.elem none "info")).child (.elem none "label")
        input := .ofNames ["m", "l"] }]

/-- The kind, the value of the type and the code of its information are in the output. -/
theorem infoRecord_constructs :
    let output := (((MappingTree.ofRecord infoRecord).afterEdits labelEdits).program
      (fun _ => none) none).1.output
    infoDeclaration.resolve = .ok infoRecord ∧
      output.Constructs printPath (.literal "Print") ∧
      output.Constructs (bookPath.child (.elem none "value")) (.literal "Book") ∧
      output.PassesTo (bookPath.child (.elem none "info")) (.attr none "code") (.literal "Book") := by
  intro output
  have hresolve : infoDeclaration.resolve = .ok infoRecord := by with_unfolding_all rfl
  let t := (MappingTree.ofRecord infoRecord).afterEdits labelEdits
  have hfixed := MappingTree.fixed_fields_output hresolve labelEdits fun _ => none
  obtain ⟨-, -, hkind⟩ := hfixed t.forest.subtrees[1] (by decide +kernel) _ rfl
  obtain ⟨hvalue, hcode, -⟩ := hfixed t.forest.subtrees[2] (by decide +kernel) _ rfl
  have hopens : t.forest.subtrees[0].1.opensBelow = true := by decide +kernel
  have hpopulated : t.forest.subtrees[0].1.Populated t.forest.subtrees[0].2 := by decide +kernel
  have hbook : t.forest.subtrees[2].1.Populated t.forest.subtrees[2].2 := by decide +kernel
  refine ⟨hresolve, (hkind rfl rfl rfl (by decide +kernel) false (.inl rfl)).1 ?_,
    hvalue t.forest.subtrees[3] (by decide +kernel) "Book" false
      ⟨by decide +kernel, .value, rfl, rfl⟩ rfl ?_,
    (hcode t.forest.subtrees[4] (by decide +kernel) t.nodes[5] (by decide +kernel) "Book" false
      ⟨by decide +kernel, .key, rfl, rfl⟩ rfl ?_ ⟨rfl, .inr (by decide +kernel)⟩).2⟩
  · exact ⟨hopens, hpopulated, .here⟩
  · exact ⟨hopens, hpopulated, .later (.deeper rfl hbook .here)⟩
  · exact ⟨hopens, hpopulated, .later (.deeper rfl hbook (.later .here))⟩

/-- The code of a book's information is not in the output if the note of the type is all that is
mapped. -/
theorem infoRecord_code_unemitted :
    let t := (MappingTree.ofRecord infoRecord).afterEdits
      [.attach { output := bookPath.child (.elem none "note"), input := .ofNames ["m", "n"] }]
    infoDeclaration.resolve = .ok infoRecord ∧
      ∃ p ∈ t.forest.subtrees, ∃ w, p.1.rootMembership? = some w ∧ p.1.Populated p.2 ∧
        ∃ q ∈ p.2.subtrees, ∃ a ∈ q.2.tops, w.Fixes p.2 a "Book" ∧ a.isAttribute = true ∧
          ¬(t.program (fun _ => none) none).1.output.PassesTo q.1.path a.tag (.literal "Book") := by
  intro t
  have hnone : ∀ x ∈ (t.program (fun _ => none) none).1.output.elements Path.root,
      x.path ≠ bookPath.child (.elem none "info") := by
    decide +kernel
  refine ⟨by with_unfolding_all rfl, t.forest.subtrees[2], by decide +kernel, _, rfl,
    by decide +kernel, t.forest.subtrees[4], by decide +kernel, t.nodes[5], by decide +kernel,
    ⟨by decide +kernel, .key, rfl, rfl⟩, by decide +kernel, ?_⟩
  rintro ⟨x, hx, hpath, -⟩
  exact hnone x hx hpath

end Crosswalk
