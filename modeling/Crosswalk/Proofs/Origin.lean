import Crosswalk.Proofs.Marks
import Crosswalk.Proofs.Numbering

/-!
Origins. What the output has in it comes from a node: from the mark of one of its mappings, from what
that emits within, or from what is bound ahead of its element and from its constructor. This is said
once for any property of blocks that a block in a row has only if one of its parts does. The attributes
that are bound ahead of an element, and the subtrees that a node with its attributes is found in, are
named here too.
-/

namespace Crosswalk

/-! ### Trees of a forest -/

namespace Forest

variable {α : Type}

/-- The trees of a forest at any depth, in pre-order, each as a label and what is below it. -/
def subtrees : Forest α → List (α × Forest α)
  | nil => []
  | tree a below next => (a, below) :: (subtrees below ++ subtrees next)

theorem mem_labels_of_mem_subtrees {p : α × Forest α} : ∀ {f : Forest α}, p ∈ f.subtrees →
    p.1 ∈ f.labels
  | tree a below next, h => by
    rcases List.mem_cons.mp h with rfl | h
    · exact List.mem_cons_self
    rcases List.mem_append.mp h with h | h
    · exact mem_labels_of_mem_below (mem_labels_of_mem_subtrees h)
    · exact mem_labels_of_mem_next (mem_labels_of_mem_subtrees h)

theorem mem_subtrees_trans {p q : α × Forest α} (hq : q ∈ p.2.subtrees) : ∀ {f : Forest α},
    p ∈ f.subtrees → q ∈ f.subtrees
  | tree a below next, h => by
    refine List.mem_cons_of_mem _ (List.mem_append.mpr ?_)
    rcases List.mem_cons.mp h with rfl | h
    · exact .inl hq
    · exact (List.mem_append.mp h).imp (mem_subtrees_trans hq) (mem_subtrees_trans hq)

theorem tops_sublist_labels : ∀ f : Forest α, f.tops.Sublist f.labels
  | nil => .refl _
  | tree _ _ next => ((tops_sublist_labels next).trans (List.sublist_append_right ..)).cons_cons _

/-- What stands directly below a label is listed after it. -/
theorem tops_sublist_of_mem_subtrees {p : α × Forest α} : ∀ {f : Forest α}, p ∈ f.subtrees →
    p.2.tops.Sublist f.labels
  | tree a below next, h => by
    rcases List.mem_cons.mp h with rfl | h
    · exact ((tops_sublist_labels below).trans (List.sublist_append_left ..)).cons a
    rcases List.mem_append.mp h with h | h
    · exact ((tops_sublist_of_mem_subtrees h).trans (List.sublist_append_left ..)).cons a
    · exact ((tops_sublist_of_mem_subtrees h).trans (List.sublist_append_right ..)).cons a

theorem exists_label_of_subtree {Q : α → Prop} {f : Forest α}
    (h : ∃ p ∈ f.subtrees, Q p.1 ∨ ∃ a ∈ p.2.tops, Q a) : ∃ a ∈ f.labels, Q a := by
  obtain ⟨p, hp, hQ | ⟨a, ha, hQ⟩⟩ := h
  · exact ⟨p.1, mem_labels_of_mem_subtrees hp, hQ⟩
  · exact ⟨a, (tops_sublist_of_mem_subtrees hp).subset ha, hQ⟩

theorem each_iff_subtrees {P : α → Forest α → Prop} {f : Forest α} :
    f.Each P ↔ ∀ p ∈ f.subtrees, P p.1 p.2 := by
  induction f with
  | nil => simp [Each, subtrees]
  | tree a below next hb hn =>
    rw [Each, subtrees, List.forall_mem_cons, List.forall_mem_append, hb, hn]

end Forest

/-! ### Bound attributes -/

/-- Whether an attribute is bound ahead of its element: it is in focus and its value is not fixed. -/
def Setting.binds (g : Setting) (a : NumberedNode) : Bool :=
  a.isAttribute && g.inFocus a.path && a.fixedMembership?.isNone

namespace Emission

variable {g : Setting} {a : NumberedNode} {scopes : Scopes} {ns : List NumberedNode}

theorem lets_attributeArguments :
    (attributeArguments g scopes a).lets = if a.fixedMembership?.isNone then
      attributeLets g scopes a 0 (g.emitted a) else .nil := by
  rw [attributeArguments]
  cases a.fixedMembership? with
  | some _ => rfl
  | none =>
    dsimp only
    split
    · next hvalue =>
      rw [attributeValue?_eq_none hvalue]
      rfl
    · rfl

theorem lets_argumentsOf_cons : (argumentsOf g scopes (a :: ns)).lets =
    (if g.binds a then attributeLets g scopes a 0 (g.emitted a) else .nil) ++
      (argumentsOf g scopes ns).lets := by
  rw [argumentsOf, Setting.binds]
  cases a.isAttribute && g.inFocus a.path with
  | false => rfl
  | true =>
    rw [if_pos rfl, lets_append, lets_attributeArguments, Bool.true_and]

end Emission

/-! ### Properties with an origin -/

namespace Emission

/-- Whether a property of blocks comes from nodes and what is below them. A block in a row has it only
if a part does; and what a node emits, only by itself or within. -/
structure ComesFrom (g : Setting) (M : Block → Prop)
    (P : NumberedNode → Forest NumberedNode → Prop) : Prop where
  nil : ¬M .nil
  append : ∀ {a b : Block}, M (a ++ b) → M a ∨ M b
  marked : ∀ {n : NumberedNode} {below : Forest NumberedNode} {nm : NumberedMapping}
    {scopes : Scopes} {inner : Scopes → Block}, n.isAttribute = false → nm ∈ n.numbered →
      M (marked nm.mapping (mappingBlock g scopes n below.tops nm inner)) →
        P n below ∨ M (mappingBlock g scopes n below.tops nm inner)
  mapping : ∀ {n : NumberedNode} {below : Forest NumberedNode} {nm : NumberedMapping}
    {scopes : Scopes} {inner : Scopes → Block}, nm.table = none ∨ nm ∈ n.numbered →
      M (mappingBlock g scopes n below.tops nm inner) → P n below ∨ ∃ scopes', M (inner scopes')
  construct : ∀ {n : NumberedNode} {below : Forest NumberedNode} {scopes : Scopes}
    {value : Option Expression} {body : Block}, (∀ e ∈ value, e.calls = []) →
      M ((argumentsOf g scopes below.tops).construct n.tag value body) → P n below ∨ M body

namespace ComesFrom

variable {g : Setting} {M : Block → Prop} {P : NumberedNode → Forest NumberedNode → Prop}
  (h : ComesFrom g M P)

include h

theorem join {bs : List Block} (hbs : M (.join bs)) : ∃ b ∈ bs, M b := by
  induction bs with
  | nil => exact absurd hbs h.nil
  | cons b bs ih =>
    rcases h.append hbs with hb | hbs
    · exact ⟨b, List.mem_cons_self, hb⟩
    · obtain ⟨b', hb', hM⟩ := ih hbs
      exact ⟨b', List.mem_cons_of_mem _ hb', hM⟩

/-- A node's block has the property by itself or within. -/
theorem nodeBlock {isRoot : Bool} {scopes : Scopes} {n : NumberedNode}
    {below : Forest NumberedNode} {inner : Scopes → Block}
    (hM : M (nodeBlock g isRoot scopes n below inner)) : P n below ∨ ∃ scopes', M (inner scopes') := by
  rw [Emission.nodeBlock] at hM
  split at hM
  · exact absurd hM h.nil
  next hshown =>
  have hattr : n.isAttribute = false := by
    simpa using fun hattr : n.isAttribute = true => hshown (by rw [hattr]; rfl)
  split at hM
  · split at hM
    · exact .inl ((h.construct (by simp [Expression.calls]) hM).resolve_right h.nil)
    · exact absurd hM h.nil
  split at hM
  · exact absurd hM h.nil
  split at hM
  · obtain ⟨b, hb, hM⟩ := h.join hM
    obtain ⟨nm, hnm, rfl⟩ := List.mem_map.mp hb
    have hnm := Setting.mem_numbered_of_mem_emitted hnm
    exact (h.marked hattr hnm hM).elim .inl (h.mapping (.inr hnm))
  · rw [branch] at hM
    split at hM
    · exact h.mapping (.inl rfl) hM
    · dsimp only at hM
      split at hM
      · exact absurd hM h.nil
      · exact (h.construct (by simp) hM).imp_right (Exists.intro scopes)

theorem blockOf {f : Forest NumberedNode} {scopes : Scopes} (hM : M (blockOf g f scopes)) :
    ∃ p ∈ f.subtrees, P p.1 p.2 := by
  induction f generalizing scopes with
  | nil => exact absurd hM h.nil
  | tree n below next hbelow hnext =>
    rcases h.append hM with hM | hM
    · rcases h.nodeBlock hM with hP | ⟨scopes', hM⟩
      · exact ⟨(n, below), List.mem_cons_self, hP⟩
      · obtain ⟨p, hp, hP⟩ := hbelow hM
        exact ⟨p, List.mem_cons_of_mem _ (List.mem_append_left _ hp), hP⟩
    · obtain ⟨p, hp, hP⟩ := hnext hM
      exact ⟨p, List.mem_cons_of_mem _ (List.mem_append_right _ hp), hP⟩

/-- The output has the property because of one of the nodes. -/
theorem outputOf {f : Forest NumberedNode} (hM : M (outputOf g f)) :
    ∃ p ∈ f.subtrees, P p.1 p.2 := by
  cases f with
  | nil => exact absurd hM h.nil
  | tree n below next =>
    rw [Emission.outputOf] at hM
    split at hM
    · have hP := (h.construct (by simp) hM).resolve_right h.nil
      exact ⟨(n, below), List.mem_cons_self, hP⟩
    · rcases h.nodeBlock hM with hP | ⟨scopes', hM⟩
      · exact ⟨(n, below), List.mem_cons_self, hP⟩
      · obtain ⟨p, hp, hP⟩ := h.blockOf hM
        exact ⟨p, List.mem_cons_of_mem _ (List.mem_append_left _ hp), hP⟩

end ComesFrom

end Emission

end Crosswalk
