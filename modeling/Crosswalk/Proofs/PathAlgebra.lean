import Crosswalk.Path.Text
import Crosswalk.Proofs.Path

/-!
The algebra of paths. A path is an ancestor of another exactly if the other is what it becomes when
some tags are joined to it; these tags are the remainder, and there is only one. The ancestors of a
path are ordered by their lengths, with one of each, so a first part of a path is known by its
length, and the tag at a depth is the last one of such a part.
-/

namespace Crosswalk.Path

variable {a b p q r : Path} {n i depth : Nat} {key : String}

/-- Whether `r` is what is left of `p` beyond its ancestor `a`. -/
def Remains (a p r : Path) : Prop := r.isEmpty = false ∧ a.join r = p

/-- Whether two paths differ in the variant key of the tag at a depth only, which is `key` in the
second. -/
structure Rekeyed (depth : Nat) (key : String) (p q : Path) : Prop where
  length : q.length = p.length
  tagAt? : ∀ i, q.tagAt? i =
    if i = depth then (p.tagAt? i).map fun t => { t with variant := some key } else p.tagAt? i

theorem isEmpty_eq_false_iff : r.isEmpty = false ↔ r.tags ≠ [] := List.isEmpty_eq_false_iff

/-! ### Remainders -/

/-- An ancestor is what other tags are joined to. -/
theorem isAncestorOf_iff_exists_remains : a.isAncestorOf p = true ↔ ∃ r, Remains a p r := by
  rw [isAncestorOf_iff]
  constructor
  · rintro ⟨ts, hne, hp⟩
    exact ⟨⟨ts⟩, isEmpty_eq_false_iff.mpr hne, ext_tags hp.symm⟩
  · rintro ⟨r, hne, rfl⟩
    exact ⟨r.tags, isEmpty_eq_false_iff.mp hne, rfl⟩

theorem isAncestorOf_join (hr : r.isEmpty = false) : a.isAncestorOf (a.join r) = true :=
  isAncestorOf_iff_exists_remains.mpr ⟨r, hr, rfl⟩

theorem drop_join : (a.join r).drop a.length = r := ext_tags (List.drop_left ..)

theorem beyond_join (hr : r.isEmpty = false) : (a.join r).beyond a = .ok r := by
  rw [beyond, if_pos (isAncestorOf_join hr), drop_join]

/-- What is beyond an ancestor is what has to be joined to it. -/
theorem beyond_eq_ok_iff : p.beyond a = .ok r ↔ Remains a p r := by
  constructor
  · intro h
    have ha : a.isAncestorOf p = true := by
      rw [beyond] at h
      split at h
      · assumption
      · cases h
    obtain ⟨r', hr', rfl⟩ := isAncestorOf_iff_exists_remains.mp ha
    rw [beyond_join hr'] at h
    cases h
    exact ⟨hr', rfl⟩
  · rintro ⟨hr, rfl⟩
    exact beyond_join hr

/-- A path has one remainder beyond an ancestor. -/
theorem Remains.eq {r' : Path} (h : Remains a p r) (h' : Remains a p r') : r = r' :=
  Except.ok.inj ((beyond_eq_ok_iff.mpr h).symm.trans (beyond_eq_ok_iff.mpr h'))

theorem beyond_eq_error_iff :
    p.beyond a = .error (.notAncestor p a) ↔ ¬∃ r, Remains a p r := by
  rw [← isAncestorOf_iff_exists_remains, beyond]
  split
  · next ha => simp [ha]
  · next ha => simp [ha]

/-! ### Ancestors of one path -/

theorem isAncestorOf_self : a.isAncestorOf a = false :=
  Bool.eq_false_iff.mpr fun h => ne_of_isAncestorOf h rfl

/-- Of two ancestors the shorter one is an ancestor of the other. -/
theorem isAncestorOf_or (ha : a.isAncestorOf p = true) (hb : b.isAncestorOf p = true) :
    a = b ∨ a.isAncestorOf b = true ∨ b.isAncestorOf a = true := by
  have ha := eq_or_isAncestorOf_iff.mp (.inr ha)
  have hb := eq_or_isAncestorOf_iff.mp (.inr hb)
  rcases List.prefix_or_prefix_of_prefix ha hb with h | h
  · rcases eq_or_isAncestorOf_iff.mpr h with h | h
    · exact .inl h
    · exact .inr (.inl h)
  · rcases eq_or_isAncestorOf_iff.mpr h with h | h
    · exact .inl h.symm
    · exact .inr (.inr h)

theorem length_take : (p.take n).length = min n p.length := List.length_take ..

/-- The first `n` tags are the ancestor of that length, or the path itself if it has no more. -/
theorem eq_take_iff :
    a = p.take n ↔ (a = p ∨ a.isAncestorOf p = true) ∧ a.length = min n p.length := by
  rw [eq_or_isAncestorOf_iff]
  constructor
  · rintro rfl
    exact ⟨List.take_prefix .., length_take⟩
  · rintro ⟨hfirst, hlength⟩
    refine ext_tags ?_
    calc a.tags = p.tags.take a.length := List.prefix_iff_eq_take.mp hfirst
      _ = p.tags.take (min n p.length) := by rw [hlength]
      _ = p.tags.take n := List.take_eq_take_min.symm

/-! ### Tags at a depth -/

theorem tagAt?_eq : p.tagAt? i = if i < p.length then (p.take (i + 1)).last? else none := by
  split
  · next hi =>
    have hlength : (p.tags.take (i + 1)).length = i + 1 := by
      rw [List.length_take]
      exact Nat.min_eq_left hi
    rw [tagAt?, last?, take, List.getLast?_eq_getElem?, hlength, Nat.add_sub_cancel,
      List.getElem?_take_of_lt (Nat.lt_succ_self i)]
  · next hi => exact List.getElem?_eq_none (Nat.le_of_not_lt hi)

theorem withVariantAt?_eq_none_iff : p.withVariantAt? depth key = none ↔ p.length ≤ depth := by
  rw [withVariantAt?]
  split
  · next h => simpa using h
  · next h => simpa using h

/-- Giving a tag a key changes no other tag, and nothing else of the tag. -/
theorem rekeyed_of_withVariantAt? (h : p.withVariantAt? depth key = some q) :
    Rekeyed depth key p q := by
  rw [withVariantAt?] at h
  split at h
  · cases h
    refine ⟨List.length_modify .., fun i => ?_⟩
    rw [Path.tagAt?, Path.tagAt?, List.getElem?_modify]
    simp only [eq_comm (a := depth)]
    split
    · rfl
    · simp
  · cases h

/-! ### The laws -/

theorem dropRoot_eq :
    p.dropRoot = if 2 ≤ p.length then p.beyond (p.take 1) else .error (.tooShort p) := by
  rw [dropRoot]
  by_cases h : p.length < 2
  · rw [if_pos h, if_neg (Nat.not_le_of_lt h)]
  · have hlength : (p.take 1).length = 1 := length_take.trans (Nat.min_eq_left (by omega))
    have htake : (p.take 1).isAncestorOf p = true := by
      refine (eq_take_iff.mp rfl).1.resolve_left fun heq => ?_
      rw [heq] at hlength
      omega
    rw [if_neg h, if_pos (Nat.le_of_not_lt h), beyond, if_pos htake, hlength]

/-- The operations on paths are those on prefixes: what is an ancestor of a path and what is left of
the path beyond it, the ancestors of one path among each other, the first tags of a path, the tag at
a depth, the path without its root, and the path with a key for one of its tags. -/
theorem prefix_algebra (a p : Path) :
    (a.isAncestorOf p = true ↔ ∃ r, Remains a p r) ∧
    (∀ r r', Remains a p r → Remains a p r' → r = r') ∧
    (∀ r, p.beyond a = .ok r ↔ Remains a p r) ∧
    (p.beyond a = .error (.notAncestor p a) ↔ ¬∃ r, Remains a p r) ∧
    p.isAncestorOf p = false ∧
    (∀ q, a.isAncestorOf p = true → p.isAncestorOf q = true → a.isAncestorOf q = true) ∧
    (∀ b, a.isAncestorOf p = true → b.isAncestorOf p = true →
      a = b ∨ a.isAncestorOf b = true ∨ b.isAncestorOf a = true) ∧
    (∀ n, a = p.take n ↔ (a = p ∨ a.isAncestorOf p = true) ∧ a.length = min n p.length) ∧
    (∀ i, p.tagAt? i = if i < p.length then (p.take (i + 1)).last? else none) ∧
    p.dropRoot = (if 2 ≤ p.length then p.beyond (p.take 1) else .error (.tooShort p)) ∧
    ∀ depth key, (p.withVariantAt? depth key = none ↔ p.length ≤ depth) ∧
      ∀ q, p.withVariantAt? depth key = some q → Rekeyed depth key p q :=
  ⟨isAncestorOf_iff_exists_remains, fun _ _ => Remains.eq, fun _ => beyond_eq_ok_iff,
    beyond_eq_error_iff, isAncestorOf_self, fun _ => isAncestorOf_trans, fun _ => isAncestorOf_or,
    fun _ => eq_take_iff, fun _ => tagAt?_eq, dropRoot_eq,
    fun _ _ => ⟨withVariantAt?_eq_none_iff, fun _ => rekeyed_of_withVariantAt?⟩⟩

end Crosswalk.Path
