import Crosswalk.Path

/-!
The algebra of paths is that of prefixes of tag lists.
-/

namespace Crosswalk.Path

/-- The path of some elements. -/
def ofNames (names : List String) : Path := ⟨names.map (Tag.elem none)⟩

@[simp] theorem tags_child (p : Path) (t : Tag) : (p.child t).tags = p.tags ++ [t] := rfl

theorem length_child (p : Path) (t : Tag) : (p.child t).length = p.length + 1 := by
  rw [length, tags_child, List.length_append]
  rfl

theorem length_withoutVariants (p : Path) : p.withoutVariants.length = p.length :=
  List.length_map ..

theorem ext_tags {p q : Path} (h : p.tags = q.tags) : p = q := by
  cases p; cases q; rw [Path.mk.injEq]; exact h

/-- An ancestor is a proper prefix. -/
theorem isAncestorOf_iff {p q : Path} :
    p.isAncestorOf q = true ↔ ∃ ts, ts ≠ [] ∧ q.tags = p.tags ++ ts := by
  rw [isAncestorOf]
  rw [Bool.and_eq_true, decide_eq_true_eq, beq_iff_eq]
  constructor
  · rintro ⟨hlen, htake⟩
    refine ⟨q.tags.drop p.length, ?_, ?_⟩
    · intro hnil
      have := List.drop_eq_nil_iff.mp hnil
      simp only [length] at hlen this
      omega
    · have htags : q.tags.take p.length = p.tags := congrArg tags htake
      calc q.tags = q.tags.take p.length ++ q.tags.drop p.length :=
            (List.take_append_drop ..).symm
        _ = p.tags ++ q.tags.drop p.length := by rw [htags]
  · rintro ⟨ts, hne, hq⟩
    have hpos := List.length_pos_iff.mpr hne
    constructor
    · rw [length, length, hq, List.length_append]
      omega
    · refine ext_tags ?_
      simp [take, length, hq]

theorem eq_or_isAncestorOf_iff {p q : Path} :
    p = q ∨ p.isAncestorOf q = true ↔ p.tags <+: q.tags := by
  rw [isAncestorOf_iff]
  constructor
  · rintro (rfl | ⟨ts, -, hq⟩)
    · exact List.prefix_refl _
    · exact ⟨ts, hq.symm⟩
  · rintro ⟨ts, hq⟩
    by_cases hts : ts = []
    · rw [hts, List.append_nil] at hq
      exact .inl (ext_tags hq)
    · exact .inr ⟨ts, hts, hq.symm⟩

theorem length_lt_of_isAncestorOf {p q : Path} (h : p.isAncestorOf q = true) :
    p.length < q.length := by
  rw [isAncestorOf, Bool.and_eq_true, decide_eq_true_eq] at h
  exact h.1

theorem isAncestorOf_of_parent? {p q : Path} (h : q.parent? = some p) :
    p.isAncestorOf q = true := by
  rw [parent?] at h
  split at h
  · cases h
  · next hne =>
    obtain rfl := Option.some.inj h
    have hne : q.tags ≠ [] := by simpa using hne
    exact isAncestorOf_iff.mpr ⟨[q.tags.getLast hne], by simp, (List.dropLast_concat_getLast hne).symm⟩

theorem isAncestorOf_child (p : Path) (t : Tag) : p.isAncestorOf (p.child t) = true :=
  isAncestorOf_iff.mpr ⟨[t], by simp, rfl⟩

theorem isAncestorOf_trans {p q r : Path} (hpq : p.isAncestorOf q = true)
    (hqr : q.isAncestorOf r = true) : p.isAncestorOf r = true := by
  obtain ⟨ts, hts, hq⟩ := isAncestorOf_iff.mp hpq
  obtain ⟨us, -, hr⟩ := isAncestorOf_iff.mp hqr
  refine isAncestorOf_iff.mpr ⟨ts ++ us, by simp [hts], ?_⟩
  rw [hr, hq, List.append_assoc]

theorem ne_of_isAncestorOf {p q : Path} (h : p.isAncestorOf q = true) : p ≠ q := by
  rintro rfl
  obtain ⟨ts, hts, hp⟩ := isAncestorOf_iff.mp h
  exact hts (List.self_eq_append_right.mp hp)

end Crosswalk.Path
