import Crosswalk.Proofs.Path

/-!
The order of paths. Tags are ordered totally, and so are paths, which are compared tag by tag from
the root. A path that is not beneath another is not between two that are: it stands on one side of
all of them, the side on which it stands of the path that they share. So the paths beneath a path
follow it, one after the other, with nothing else among them.
-/

namespace Crosswalk

/-- A comparison of which the outcomes make up a total order, and which tells apart whatever
differs. -/
structure OrdersTotally {α : Type} (cmp : α → α → Ordering) : Prop where
  eq_iff : ∀ a b, cmp a b = .eq ↔ a = b
  swap : ∀ a b, cmp b a = (cmp a b).swap
  antisymm : ∀ a b, (cmp a b).isLE = true → (cmp b a).isLE = true → a = b
  trans : ∀ a b c, (cmp a b).isLE = true → (cmp b c).isLE = true → (cmp a c).isLE = true
  total : ∀ a b, (cmp a b).isLE = true ∨ (cmp b a).isLE = true

theorem ordersTotally {α : Type} (cmp : α → α → Ordering) [Std.TransCmp cmp]
    [Std.LawfulEqCmp cmp] : OrdersTotally cmp where
  eq_iff _ _ := Std.LawfulEqCmp.compare_eq_iff_eq
  swap _ _ := Std.OrientedCmp.eq_swap
  antisymm _ _ hab hba := Std.LawfulEqCmp.eq_of_compare (Std.OrientedCmp.isLE_antisymm hab hba)
  trans _ _ _ := Std.TransCmp.isLE_trans
  total a b := by
    have hswap : cmp b a = (cmp a b).swap := Std.OrientedCmp.eq_swap
    rw [hswap]
    cases cmp a b <;> simp

/-! ### Lists that share a beginning -/

section

variable {α : Type} [Ord α] {as bs : List α}

theorem compare_append_of_ne_nil [Std.ReflOrd α] (as : List α) (hne : bs ≠ []) :
    compare as (as ++ bs) = .lt := by
  induction as with
  | nil =>
    obtain ⟨b, bs, rfl⟩ := List.exists_cons_of_ne_nil hne
    exact List.compare_nil_cons
  | cons a as ih => rw [List.cons_append, List.compare_cons_cons, Std.compare_self, ih]; rfl

/-- A list that does not begin with `as` differs from `as` ahead of its end, or ends itself. So what
follows `as` does not matter. -/
theorem compare_append_of_not_prefix [Std.LawfulEqOrd α] (h : ¬as <+: bs) (cs : List α) :
    compare (as ++ cs) bs = compare as bs := by
  induction as generalizing bs with
  | nil => exact absurd (List.nil_prefix ..) h
  | cons a as ih =>
    cases bs with
    | nil => rfl
    | cons b bs =>
      rw [List.cons_append, List.compare_cons_cons, List.compare_cons_cons]
      cases hab : compare a b with
      | lt | gt => rfl
      | eq =>
        obtain rfl := Std.LawfulEqOrd.eq_of_compare hab
        rw [List.cons_prefix_cons, not_and] at h
        exact congrArg (Ordering.then .eq) (ih (h rfl))

end

/-! ### Paths -/

namespace Path

variable {p q a b c : Path}

/-- An ancestor comes first. -/
theorem compare_of_isAncestorOf (h : p.isAncestorOf q = true) : compare p q = .lt := by
  obtain ⟨ts, hne, hq⟩ := isAncestorOf_iff.mp h
  change compare p.tags q.tags = .lt
  rw [hq]
  exact compare_append_of_ne_nil p.tags hne

/-- A path outside of a subtree compares with all paths of the subtree as with its topmost. -/
theorem compare_of_outside (ha : p = a ∨ p.isAncestorOf a = true)
    (hb : ¬(p = b ∨ p.isAncestorOf b = true)) : compare a b = compare p b := by
  rw [eq_or_isAncestorOf_iff] at ha hb
  obtain ⟨ts, ha⟩ := ha
  change compare a.tags b.tags = compare p.tags b.tags
  rw [← ha]
  exact compare_append_of_not_prefix hb ts

/-- What is between two paths of a subtree is in the subtree. -/
theorem within_of_between (hab : (compare a b).isLE = true) (hbc : (compare b c).isLE = true)
    (ha : p = a ∨ p.isAncestorOf a = true) (hc : p = c ∨ p.isAncestorOf c = true) :
    p = b ∨ p.isAncestorOf b = true := by
  refine Decidable.byContradiction fun hb => ?_
  -- the path outside is on both sides of the topmost path, so it would be that path
  have hpb : (compare p b).isLE = true := compare_of_outside ha hb ▸ hab
  have hbp : (compare b p).isLE = true := by
    have hswap : compare b c = (compare p b).swap := by
      rw [← compare_of_outside hc hb]
      exact Std.OrientedOrd.eq_swap
    rw [Std.OrientedOrd.eq_swap (a := b), ← hswap]
    exact hbc
  exact hb (.inl ((ordersTotally compare).antisymm p b hpb hbp))

/-- Tags and paths are ordered totally. A path comes after its ancestors, and the paths of a subtree
stand together. -/
theorem ordersTotally_subtrees :
    OrdersTotally (compare : Tag → Tag → Ordering) ∧
    OrdersTotally (compare : Path → Path → Ordering) ∧
    (∀ a p : Path, a.isAncestorOf p = true → compare a p = .lt) ∧
    ∀ p a b c : Path, (compare a b).isLE = true → (compare b c).isLE = true →
      (p = a ∨ p.isAncestorOf a = true) → (p = c ∨ p.isAncestorOf c = true) →
      (p = b ∨ p.isAncestorOf b = true) :=
  ⟨ordersTotally _, ordersTotally _, fun _ _ => compare_of_isAncestorOf,
    fun _ _ _ _ => within_of_between⟩

end Path

end Crosswalk
