import Crosswalk.Proofs.Coverage
import Crosswalk.Proofs.Navigation

/-!
Joined texts that nothing is navigated from. A mapping below a node, or one of its attributes, may
draw on the same source element as the node, or on something elsewhere, though the node binds the
element to joined text; only what it has beneath the element it cannot draw on. If no mapping does,
all that a generated program navigates it navigates from nodes of the record.
-/

namespace Crosswalk

open Emission Scopes Crosswalk.Numbering

/-! ### Paths beneath no text -/

namespace Emission

variable {scopes : Scopes} {texts : List Path} {g : Setting} {n : NumberedNode}

theorem startsAtNodes_of {p : Path} (h : ∀ q ∈ texts, q.isAncestorOf p = false) :
    StartsAtNodes scopes texts p := by
  obtain ⟨-, happend, -⟩ := standsFor_nearest scopes p
  refine or_iff_not_imp_left.mpr fun hsteps hmem => ?_
  have habove : (scopes.nearest p).1.isAncestorOf p = true :=
    Path.isAncestorOf_iff.mpr ⟨_, hsteps, happend.symm⟩
  rw [h _ hmem] at habove
  cases habove

end Emission

/-! ### Inputs that are bound to text -/

/-- The inputs that a node may bind to text for what is below it: those of its mappings that join
nothing and have an operator with a delimiter, or if it has no mappings, the common parent of the
nearest below it. -/
def Node.textInputs (n : Node) (below : Forest Node) : List Path :=
  if n.hasMappings then
    (n.mappingList.filter fun m => m.literal?.isNone && m.siblings.isEmpty &&
      ((m.operator.or n.operator).bind Operator.delimiter?).isSome).map Mapping.input
  else if (n.operator.bind Operator.delimiter?).isSome then
    (commonParent? (number 0 0 below)).toList
  else []

/-- Whether no mapping of some nodes draws on something beneath a path. -/
def Forest.Leaves (f : Forest Node) (p : Path) : Prop :=
  ∀ n ∈ f.labels, ∀ m ∈ n.mappingList, m.literal? = none → p.isAncestorOf m.input = false

instance (f : Forest Node) (p : Path) : Decidable (f.Leaves p) :=
  inferInstanceAs (Decidable (∀ n ∈ f.labels, ∀ m ∈ n.mappingList, _))

namespace Emission

variable {scopes : Scopes} {texts : List Path} {g : Setting} {n : NumberedNode}
  {below : Forest Node}

theorem attributesNavigable_of (h : ∀ p ∈ texts, below.Leaves p) (i j : Nat) :
    AttributesNavigable g scopes texts (number i j below).tops := by
  intro a ha _ nm hnm hdrawn
  obtain ⟨n, hn, _, _, rfl⟩ := mem_tops_number ha
  exact startsAtNodes_of fun p hp => h p hp n (Forest.mem_labels_of_mem_tops hn) nm.mapping
    (mapping_mem_of_mem_numbered (Setting.mem_numbered_of_mem_emitted hnm)) hdrawn

theorem inputNavigable_of {nm : NumberedMapping}
    (h : ∀ p ∈ texts, p.tags ≠ [] ∧ p.isAncestorOf nm.mapping.input = false) :
    InputNavigable scopes texts nm := by
  rw [InputNavigable]
  split
  · exact startsAtNodes_of fun p hp => (h p hp).2
  rcases joinedParent_cases nm with habove | ⟨hwhole, hnil⟩
  · refine ⟨startsAtNodes_of fun p hp => ?_, .inr fun hmem => ?_⟩
    · cases hp' : p.isAncestorOf (joinedParent nm) with
      | false => rfl
      | true => rw [← (h p hp).2, Path.isAncestorOf_trans hp' habove]
    · rw [(h _ hmem).2] at habove
      cases habove
  · exact ⟨startsAtNodes_of fun p hp => hwhole ▸ (h p hp).2, .inr fun hmem => (h _ hmem).1 hnil⟩

theorem delimiter?_operatorOf (n : NumberedNode) (m : Mapping) :
    (operatorOf n m).delimiter? = (m.operator.or n.operator).bind Operator.delimiter? := by
  rw [operatorOf]
  cases m.operator.or n.operator with
  | some op => rfl
  | none => cases n.singular <;> rfl

/-- A mapping that binds its input to text is one of those that the node may have. -/
theorem mem_textInputs_of_mem_numbered {n : Node} {i j : Nat} {nm : NumberedMapping}
    (hattr : n.isAttribute = false) (hnm : nm ∈ (numberNode i j n).numbered)
    (hdrawn : nm.mapping.literal? = none) (hjoin : nm.join = none)
    (hdelimiter : (operatorOf (numberNode i j n) nm.mapping).delimiter?.isSome = true) :
    nm.mapping.input ∈ n.textInputs below := by
  have hm : nm.mapping ∈ n.mappingList := mapping_mem_of_mem_numbered hnm
  have hjoins := isSome_join hnm
  rw [hjoin, joins, hattr, Bool.not_false, Bool.and_true, Option.isSome_none, eq_comm,
    Bool.not_eq_false'] at hjoins
  rw [delimiter?_operatorOf, toNode_numberNode] at hdelimiter
  rw [Node.textInputs, if_pos (hasMappings_of_mem hm)]
  refine List.mem_map_of_mem (List.mem_filter.mpr ⟨hm, ?_⟩)
  rw [hdrawn, hjoins, hdelimiter]
  rfl

theorem mem_textInputs_of_commonParent? {n : Node} {i j i' j' : Nat} {output p : Path}
    (hmapped : n.hasMappings = false) (hcommon : commonParent? (number i' j' below) = some p)
    (hdelimiter : (operatorOf (numberNode i j n) { output, input := p }).delimiter?.isSome = true) :
    p ∈ n.textInputs below := by
  rw [delimiter?_operatorOf] at hdelimiter
  change (n.operator.bind Operator.delimiter?).isSome = true at hdelimiter
  rw [Node.textInputs, hmapped, if_neg Bool.false_ne_true, if_pos hdelimiter,
    commonParent?_number 0 0 i' j', hcommon]
  exact List.mem_singleton_self p

theorem mem_innerTexts {nm : NumberedMapping} {p : Path} (h : p ∈ innerTexts scopes texts n nm) :
    p ∈ texts ∨ p = nm.mapping.input ∧ p.tags ≠ [] ∧ nm.mapping.literal? = none ∧ nm.join = none ∧
      (operatorOf n nm.mapping).delimiter?.isSome = true := by
  rw [innerTexts] at h
  split at h
  · exact .inl h
  · next hdrawn =>
    rw [openedTexts] at h
    split at h
    · next hopens =>
      obtain ⟨hjoin, hdelimiter, hsteps⟩ := hopens
      refine (List.mem_cons.mp h).symm.imp_right fun heq => ?_
      refine ⟨heq, fun hnil => hsteps ?_, hdrawn, hjoin, hdelimiter⟩
      rw [← heq, hnil, List.drop_nil]
    · exact .inl h

section Below

variable {R : Scopes → List Path → Prop} (hbelow : ∀ {scopes texts},
  (∀ p ∈ texts, p.tags ≠ [] ∧ below.Leaves p) → R scopes texts)

include hbelow

theorem mappingNavigable_of {nm : NumberedMapping}
    (htexts : ∀ p ∈ texts, p.tags ≠ [] ∧ below.Leaves p ∧
      (nm.mapping.literal? = none → p.isAncestorOf nm.mapping.input = false))
    (hown : nm.mapping.literal? = none → nm.join = none →
      (operatorOf n nm.mapping).delimiter?.isSome = true → below.Leaves nm.mapping.input)
    (i j : Nat) : MappingNavigable g scopes texts n (number i j below).tops nm R := by
  have hinner : ∀ p ∈ innerTexts scopes texts n nm, p.tags ≠ [] ∧ below.Leaves p := by
    intro p hp
    rcases mem_innerTexts hp with hp | ⟨rfl, hne, hdrawn, hjoin, hdelimiter⟩
    · exact ⟨(htexts p hp).1, (htexts p hp).2.1⟩
    · exact ⟨hne, hown hdrawn hjoin hdelimiter⟩
  refine ⟨fun hdrawn => ?_, ?_, fun _ => hbelow hinner⟩
  · exact inputNavigable_of fun p hp => ⟨(htexts p hp).1, (htexts p hp).2.2 hdrawn⟩
  · exact attributesNavigable_of (fun p hp => (hinner p hp).2) i j

theorem branchNavigable_of {n : Node} {isRoot : Bool} (hmapped : n.hasMappings = false)
    (hleaves : ∀ p ∈ n.textInputs below, below.Leaves p)
    (htexts : ∀ p ∈ texts, p.tags ≠ [] ∧ below.Leaves p) (i j i' j' : Nat) :
    BranchNavigable g isRoot scopes texts (numberNode i j n) (number i' j' below) R := by
  rw [BranchNavigable]
  split
  · next parent hparent =>
    have hcommon : commonParent? (number i' j' below) = some parent := by
      split at hparent
      · cases hparent
      · exact hparent
    refine mappingNavigable_of hbelow (fun p hp => ⟨(htexts p hp).1, (htexts p hp).2, fun _ => ?_⟩)
      (fun _ _ hdelimiter => hleaves parent (mem_textInputs_of_commonParent? hmapped hcommon
        hdelimiter)) i' j'
    -- what is above the common parent is above the input of some mapping
    obtain ⟨_, hmem, m, hm, hdrawn, hparent⟩ := exists_mapping_of_commonParent? hcommon
    obtain ⟨a, ha, _, _, rfl⟩ := mem_labels_number hmem
    rw [Bool.eq_false_iff]
    intro habove
    have hfree := (htexts p hp).2 a ha m hm (by rw [Mapping.literal?, hdrawn]; rfl)
    rw [Path.isAncestorOf_trans habove (Path.isAncestorOf_of_parent? hparent)] at hfree
    cases hfree
  · exact ⟨attributesNavigable_of (fun p hp => (htexts p hp).2) i' j', hbelow htexts⟩

theorem nodeNavigable_of {n : Node} {isRoot : Bool}
    (hleaves : ∀ p ∈ n.textInputs below, below.Leaves p)
    (htexts : ∀ p ∈ texts, p.tags ≠ [] ∧ below.Leaves p ∧
      ∀ m ∈ n.mappingList, m.literal? = none → p.isAncestorOf m.input = false) (i j i' j' : Nat) :
    NodeNavigable g isRoot scopes texts (numberNode i j n) (number i' j' below) R := by
  rw [NodeNavigable]
  split
  · trivial
  next hshown =>
  have hattr : n.isAttribute = false := by
    rw [toNode_numberNode, Bool.not_eq_true, Bool.or_eq_false_iff] at hshown
    exact hshown.1
  split
  · exact fun _ => attributesNavigable_of (fun p hp => (htexts p hp).2.1) i' j'
  split
  · trivial
  split
  · intro nm hnm
    have hnumbered := Setting.mem_numbered_of_mem_emitted hnm
    have hm : nm.mapping ∈ n.mappingList := mapping_mem_of_mem_numbered hnumbered
    exact mappingNavigable_of hbelow
      (fun p hp => ⟨(htexts p hp).1, (htexts p hp).2.1, (htexts p hp).2.2 _ hm⟩)
      (fun hdrawn hjoin hdelimiter =>
        hleaves _ (mem_textInputs_of_mem_numbered hattr hnumbered hdrawn hjoin hdelimiter)) i' j'
  · next hmapped =>
    exact branchNavigable_of hbelow (Bool.not_eq_true _ ▸ hmapped) hleaves
      (fun p hp => ⟨(htexts p hp).1, (htexts p hp).2.1⟩) i j i' j'

end Below

/-- The induction is on the forest: none of its mappings draws on something beneath a path that is
bound to text around it. -/
theorem navigable_of {f : Forest Node} : ∀ {i j : Nat} {scopes : Scopes} {texts : List Path},
    (f.Each fun n below => ∀ p ∈ n.textInputs below, below.Leaves p) →
      (∀ p ∈ texts, p.tags ≠ [] ∧ f.Leaves p) → Navigable g (number i j f) scopes texts := by
  induction f with
  | nil => exact fun _ _ => trivial
  | tree n below next hb hn =>
    rintro i j scopes texts ⟨hleaves, hbelow, hnext⟩ htexts
    have hparts (p : Path) (hp : p ∈ texts) := Forest.forall_labels_tree.mp (htexts p hp).2
    exact ⟨nodeNavigable_of (hb hbelow) hleaves
        (fun p hp => ⟨(htexts p hp).1, (hparts p hp).2.1, (hparts p hp).1⟩) _ _ _ _,
      hn hnext fun p hp => ⟨(htexts p hp).1, (hparts p hp).2.2⟩⟩

end Emission

/-- Whether no mapping below a node draws on something beneath what the node may bind to text. -/
def MappingTree.LeavesTexts (t : MappingTree) : Prop :=
  ∀ q ∈ t.forest.subtrees, ∀ p ∈ q.1.textInputs q.2, q.2.Leaves p

instance (t : MappingTree) : Decidable t.LeavesTexts :=
  inferInstanceAs (Decidable (∀ q ∈ t.forest.subtrees, ∀ p ∈ q.1.textInputs q.2, q.2.Leaves p))

/-- Whatever is mapped, all that is navigated in a generated program is navigated from nodes of the
record exactly if the mappings of the tree do so within those around them, provided that no source tag
spells the variable of a join. They do if no mapping below a node draws on something beneath what the
node binds to text. -/
theorem MappingTree.navigatesNodes_output_iff (t : MappingTree)
    (hjoins : ∀ tag, t.sources.tag tag → ∀ k, baseName tag ≠ joinVar k) (snippets : SnippetStore)
    (focus : Option Focus) :
    ((t.program snippets focus).1.output.NavigatesNodes ↔
      OutputNavigable ⟨snippets, focus.filter t.has⟩ t.numbered) ∧
    (t.LeavesTexts → (t.program snippets focus).1.output.NavigatesNodes) := by
  have hdraws : ∀ n ∈ t.numbered.labels, DrawsOn unjoined n := drawsOn_number fun n hn m hm =>
    ⟨fun tag htag => hjoins tag ⟨n, hn, m, hm, htag⟩, fun _ => trivial⟩
  have hiff : (t.program snippets focus).1.output.NavigatesNodes ↔
      OutputNavigable ⟨snippets, focus.filter t.has⟩ t.numbered :=
    decides_outputOf hdraws {} .start
  refine ⟨hiff, fun hleaves => hiff.mpr ?_⟩
  have hleaves : t.forest.Each fun n below => ∀ p ∈ n.textInputs below, below.Leaves p :=
    Forest.each_iff_subtrees.mpr hleaves
  rw [numbered]
  cases hforest : t.forest with
  | nil => trivial
  | tree n below next =>
    rw [hforest] at hleaves
    exact nodeNavigable_of (navigable_of hleaves.2.1) hleaves.1 (by simp) _ _ _ _

/-- Mappings of a creator from the joined texts of a source element, of its identifier from the same
element and of its name from a source path. -/
def joinedTextEdits (name : Path) : List Edit :=
  [.attach
      { output := .ofNames ["record", "creator"]
        input := .ofNames ["m", "a"]
        operator := some .comma },
    .attach
      { output := (Path.ofNames ["record", "creator"]).child (.attr none "id")
        input := .ofNames ["m", "a"] },
    .attach { output := .ofNames ["record", "creator", "name"], input := name }]

/-- A name from elsewhere is navigated to from the record, though the creator is bound to text. -/
theorem creatorRecord_navigates :
    let t := (MappingTree.ofRecord creatorRecord).afterEdits
      (joinedTextEdits (.ofNames ["m", "c"]))
    (∀ tag, t.sources.tag tag → ∀ k, baseName tag ≠ joinVar k) ∧ t.LeavesTexts ∧
      (t.program (fun _ => none) none).1.output.NavigatesNodes := by
  intro t
  have hsecond : ∀ n ∈ t.nodes, ∀ m ∈ n.mappingList, ∀ tag ∈ m.input.tags,
      (baseName tag).toList[1]? ≠ some 'M' := by
    decide +kernel
  have hjoins : ∀ tag, t.sources.tag tag → ∀ k, baseName tag ≠ joinVar k := by
    rintro tag ⟨n, hn, m, hm, htag⟩ k hk
    have hne := hsecond n hn m hm tag htag
    rw [hk, toList_joinVar] at hne
    exact hne rfl
  have hleaves : t.LeavesTexts := by decide +kernel
  exact ⟨hjoins, hleaves, (t.navigatesNodes_output_iff hjoins _ none).2 hleaves⟩

/-- A name from beneath the creator's source element is navigated to from the joined text. -/
theorem creatorRecord_navigates_text :
    let t := (MappingTree.ofRecord creatorRecord).afterEdits
      (joinedTextEdits (.ofNames ["m", "a", "b"]))
    creatorDeclaration.resolve = .ok creatorRecord ∧
      ¬(t.program (fun _ => none) none).1.output.NavigatesNodes :=
  ⟨by with_unfolding_all rfl, by decide +kernel⟩

end Crosswalk
