import Crosswalk.SortedMap
import Mathlib.Data.List.Induction

/-!
Entries of finite maps: what is listed after a change, that a key is bound to what is listed for it,
and what keys are bound to after a change. A map is no more than what its keys are bound to.
-/

namespace Crosswalk.SortedMap

variable {κ ν : Type} [Ord κ]

/-! ### Entries after a change -/

theorem mem_insertEntry [Std.LawfulEqOrd κ] {k : κ} {v : ν} {es : List (κ × ν)} {e : κ × ν}
    (h : e ∈ insertEntry k v es) : e = (k, v) ∨ e ∈ es := by
  induction es with
  | nil => exact .inl (List.mem_singleton.mp h)
  | cons f rest ih =>
    obtain ⟨k', v'⟩ := f
    rw [insertEntry] at h
    split at h
    · exact List.mem_cons.mp h
    · next heq =>
      rw [Std.LawfulEqOrd.eq_of_compare heq]
      exact (List.mem_cons.mp h).imp_right (List.mem_cons_of_mem _)
    · rcases List.mem_cons.mp h with rfl | h
      · exact .inr List.mem_cons_self
      · exact (ih h).imp_right (List.mem_cons_of_mem _)

theorem mem_insert [Std.TransOrd κ] [Std.LawfulEqOrd κ] {m : SortedMap κ ν} {k : κ} {v : ν}
    {e : κ × ν} (h : e ∈ (m.insert k v).toList) : e = (k, v) ∨ e ∈ m.toList :=
  mem_insertEntry h

theorem mem_erase {m : SortedMap κ ν} {k : κ} {e : κ × ν} (h : e ∈ (m.erase k).toList) :
    e ∈ m.toList :=
  (List.mem_filter.mp h).1

theorem mem_adjust {m : SortedMap κ ν} {k : κ} {f : ν → ν} {e : κ × ν}
    (h : e ∈ (m.adjust k f).toList) : ∃ v, (e.1, v) ∈ m.toList ∧ (e.2 = v ∨ e.2 = f v) := by
  obtain ⟨⟨k', v⟩, hmem, rfl⟩ := List.mem_map.mp h
  refine ⟨v, hmem, ?_⟩
  dsimp only
  split
  · exact .inr rfl
  · exact .inl rfl

/-! ### Values of keys -/

/-- In increasing entries a key is bound to what is listed for it. -/
theorem findEntry?_eq_some_iff [Std.TransOrd κ] [Std.LawfulEqOrd κ] {k : κ} {v : ν} :
    ∀ {es : List (κ × ν)}, Increasing es → ( findEntry? k es = some v ↔ (k, v) ∈ es)
  | [], _ => by simp [ findEntry?]
  | (k', v') :: rest, h => by
    obtain ⟨hhead, hrest⟩ := List.pairwise_cons.mp h
    rw [ findEntry?, List.mem_cons, Prod.mk.injEq]
    split
    · next heq =>
      obtain rfl := Std.LawfulEqOrd.eq_of_compare heq
      rw [Option.some.injEq, eq_comm]
      refine ⟨fun hv => .inl ⟨rfl, hv⟩, ?_⟩
      rintro (⟨-, hv⟩ | hmem)
      · exact hv
      · exact absurd Std.ReflCmp.compare_self (hhead _ hmem ▸ by decide : compare k k ≠ .eq)
    · next hne =>
      rw [ findEntry?_eq_some_iff hrest]
      refine ⟨.inr, ?_⟩
      rintro (⟨rfl, -⟩ | hmem)
      · exact absurd Std.ReflCmp.compare_self hne
      · exact hmem

theorem find?_eq_some_iff [Std.TransOrd κ] [Std.LawfulEqOrd κ] {m : SortedMap κ ν} {k : κ} {v : ν} :
    m.find? k = some v ↔ (k, v) ∈ m.toList :=
  findEntry?_eq_some_iff m.increasing

/-! ### Values after a change -/

section

variable [Std.LawfulEqOrd κ] {k k' : κ}

theorem findEntry?_filter (p : κ → Bool) (es : List (κ × ν)) :
    findEntry? k (es.filter fun e => p e.1) = if p k then findEntry? k es else none := by
  induction es with
  | nil => simp [ findEntry?]
  | cons f rest ih =>
    obtain ⟨k₀, v₀⟩ := f
    by_cases heq : compare k k₀ = .eq
    · obtain rfl := Std.LawfulEqOrd.eq_of_compare heq
      by_cases hp : p k = true
      · simp [ findEntry?, hp]
      · simp [hp, ih]
    · by_cases hp : p k₀ = true
      · simp [ findEntry?, hp, heq, ih]
      · simp [ findEntry?, hp, heq, ih]

theorem findEntry?_map {μ : Type} (f : κ → ν → μ) (es : List (κ × ν)) :
    findEntry? k (es.map fun e => (e.1, f e.1 e.2)) = ( findEntry? k es).map (f k) := by
  induction es with
  | nil => rfl
  | cons e rest ih =>
    obtain ⟨k₀, v₀⟩ := e
    rw [List.map_cons, findEntry?, findEntry?]
    split
    · next heq =>
      obtain rfl := Std.LawfulEqOrd.eq_of_compare heq
      rfl
    · exact ih

theorem findEntry?_insertEntry (v : ν) (es : List (κ × ν)) :
    findEntry? k' (insertEntry k v es) = if compare k' k = .eq then some v else findEntry? k' es := by
  induction es with
  | nil => rfl
  | cons f rest ih =>
    obtain ⟨k₀, v₀⟩ := f
    rw [insertEntry]
    split
    · rfl
    · next heq =>
      obtain rfl := Std.LawfulEqOrd.eq_of_compare heq
      rw [ findEntry?, findEntry?]
      split <;> rfl
    · next hgt =>
      rw [ findEntry?, findEntry?, ih]
      split
      · next heq =>
        obtain rfl := Std.LawfulEqOrd.eq_of_compare heq
        -- a later entry has not the new key
        have hne : compare k' k ≠ .eq := by
          intro h
          obtain rfl := Std.LawfulEqOrd.eq_of_compare h
          rw [h] at hgt
          cases hgt
        rw [if_neg hne]
      · rfl

variable {m : SortedMap κ ν}

theorem find?_insert_self [Std.TransOrd κ] (v : ν) : (m.insert k v).find? k = some v :=
  (findEntry?_insertEntry v m.toList).trans (if_pos Std.ReflCmp.compare_self)

theorem find?_insert_of_ne [Std.TransOrd κ] (h : k' ≠ k) (v : ν) :
    (m.insert k v).find? k' = m.find? k' :=
  (findEntry?_insertEntry v m.toList).trans
    (if_neg fun heq => h (Std.LawfulEqOrd.eq_of_compare heq))

theorem find?_erase_self : (m.erase k).find? k = none :=
  (findEntry?_filter (fun k' => compare k k' != .eq) m.toList).trans (if_neg (by simp))

theorem find?_erase_of_ne (h : k' ≠ k) : (m.erase k).find? k' = m.find? k' := by
  have hne : compare k k' ≠ .eq := fun heq => h (Std.LawfulEqOrd.eq_of_compare heq).symm
  exact (findEntry?_filter (fun k' => compare k k' != .eq) m.toList).trans
    (if_pos (bne_iff_ne.mpr hne))

theorem find?_adjust_self (f : ν → ν) : (m.adjust k f).find? k = (m.find? k).map f := by
  refine (findEntry?_map (fun k' v => if compare k k' = .eq then f v else v) m.toList).trans ?_
  simp only [Std.ReflCmp.compare_self, if_true]
  rfl

theorem find?_adjust_of_ne (h : k' ≠ k) (f : ν → ν) : (m.adjust k f).find? k' = m.find? k' := by
  have hne : compare k k' ≠ .eq := fun heq => h (Std.LawfulEqOrd.eq_of_compare heq).symm
  refine (findEntry?_map (fun k' v => if compare k k' = .eq then f v else v) m.toList).trans ?_
  simp only [hne, if_false, Option.map_id']
  rfl

theorem find?_mapValues {μ : Type} (f : κ → ν → μ) : (m.mapValues f).find? k = (m.find? k).map (f k) :=
  findEntry?_map f m.toList

/-- In a map that a list of keys is made into, these are bound to what the function has for them. -/
theorem find?_ofList_map [Std.TransOrd κ] {f : κ → ν} {ks : List κ} {v : ν} :
    (ofList (ks.map fun k => (k, f k))).find? k = some v ↔ k ∈ ks ∧ f k = v := by
  induction ks using List.reverseRecOn with
  | nil => exact ⟨fun h => (by cases h), fun h => (by cases h.1)⟩
  | append_singleton ks k' ih =>
    have hlast : ofList ((ks ++ [k']).map fun k => (k, f k)) =
        (ofList (ks.map fun k => (k, f k))).insert k' (f k') := by
      rw [List.map_append, ofList, List.foldl_append]
      rfl
    rw [hlast, List.mem_append, List.mem_singleton]
    by_cases hk : k = k'
    · subst hk
      simp [find?_insert_self]
    · simp [find?_insert_of_ne hk, ih, hk]

theorem mem_keys_iff [Std.TransOrd κ] : k ∈ m.keys ↔ ∃ v, m.find? k = some v := by
  simp [keys, find?_eq_some_iff]

/-- Maps that bind every key alike are equal. -/
theorem ext_find? [Std.TransOrd κ] {m' : SortedMap κ ν} (h : ∀ k, m.find? k = m'.find? k) :
    m = m' := by
  have hnodup : ∀ m : SortedMap κ ν, m.toList.Nodup := by
    intro m
    refine m.increasing.imp ?_
    rintro a b hlt rfl
    exact absurd Std.ReflCmp.compare_self (hlt ▸ by decide : compare a.1 a.1 ≠ .eq)
  have hmem : ∀ e, e ∈ m.toList ↔ e ∈ m'.toList := by
    rintro ⟨k, v⟩
    rw [← find?_eq_some_iff, ← find?_eq_some_iff, h]
  have hperm : m.toList.Perm m'.toList :=
    (List.perm_ext_iff_of_nodup (hnodup m) (hnodup m')).mpr hmem
  have heq : m.toList = m'.toList := by
    refine hperm.eq_of_pairwise ?_ m.increasing m'.increasing
    intro a b _ _ hab hba
    have hba := Std.OrientedCmp.gt_iff_lt.mpr hba
    rw [hab] at hba
    cases hba
  cases m
  cases m'
  rw [SortedMap.mk.injEq]
  exact heq

end

end Crosswalk.SortedMap
