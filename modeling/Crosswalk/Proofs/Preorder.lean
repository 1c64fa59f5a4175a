import Crosswalk.Proofs.Forest
import Mathlib.Data.List.Basic

/-!
Indices of a forest. The labels are listed in pre-order, so a label is followed by those below it and
these by what is beside; the index of a label bounds that of its parent from above, and the parents
that lie in the list of one tree are those of the labels that lie in it.
-/

namespace Crosswalk.Forest

variable {α β : Type} {a b : α} {f below bl nx : Forest α} {i j p first : Nat}
  {parent : Option Nat}

/-! ### Trees by their indices -/

/-- Whether the tree with a given index has a given label and given trees below it. -/
inductive At : Forest α → Nat → α → Forest α → Prop where
  | here (a : α) (below nx : Forest α) : At (tree a below nx) 0 a below
  | under (b : α) (nx : Forest α) {bl : Forest α} {i : Nat} {a : α} {below : Forest α}
      (h : At bl i a below) : At (tree b bl nx) (i + 1) a below
  | beside (b : α) (bl : Forest α) {nx : Forest α} {i : Nat} {a : α} {below : Forest α}
      (h : At nx i a below) : At (tree b bl nx) (bl.size + i + 1) a below

/-- A tree ends within the forest. -/
theorem At.end_lt (h : At f i a below) : i + below.size < f.size := by
  induction h with
  | here | under | beside => simp only [size]; omega

theorem At.lt (h : At f i a below) : i < f.size := by
  have := h.end_lt
  omega

theorem at?_eq_some_iff : f.at? i = some (a, below) ↔ At f i a below := by
  constructor
  · induction f generalizing i with
    | nil => intro h; cases i <;> cases h
    | tree b bl nx hb hn =>
      intro h
      cases i with
      | zero => cases h; exact .here ..
      | succ i =>
        rw [at?] at h
        split at h
        · exact .under b nx (hb h)
        · next hge =>
          have hi : i + 1 = bl.size + (i - bl.size) + 1 := by omega
          rw [hi]
          exact .beside b bl (hn h)
  · intro h
    induction h with
    | here => rfl
    | under b nx h ih => rw [at?, if_pos h.lt, ih]
    | beside b bl h ih => rw [at?, if_neg (by omega), Nat.add_sub_cancel_left, ih]

theorem exists_at (h : i < f.size) : ∃ a below, At f i a below := by
  induction f generalizing i with
  | nil => cases h
  | tree b bl nx hb hn =>
    cases i with
    | zero => exact ⟨b, bl, .here ..⟩
    | succ i =>
      rw [size] at h
      by_cases hi : i < bl.size
      · obtain ⟨a, below, hat⟩ := hb hi
        exact ⟨a, below, .under b nx hat⟩
      · obtain ⟨a, below, hat⟩ := hn (i := i - bl.size) (by omega)
        have hi' : i + 1 = bl.size + (i - bl.size) + 1 := by omega
        exact ⟨a, below, hi' ▸ .beside b bl hat⟩

/-- A tree below another one is a tree of the forest. -/
theorem At.trans (h : At f i a below) (h' : At below j b bl) : At f (i + 1 + j) b bl := by
  induction h with
  | here a below nx =>
    rw [Nat.zero_add, Nat.add_comm]
    exact .under a nx h'
  | @under b' nx _ i _ _ _ ih =>
    have hi : i + 1 + 1 + j = i + 1 + j + 1 := by omega
    rw [hi]
    exact .under b' nx (ih h')
  | @beside b' bl' _ i _ _ _ ih =>
    have hi : bl'.size + i + 1 + 1 + j = bl'.size + (i + 1 + j) + 1 := by omega
    rw [hi]
    exact .beside b' bl' (ih h')

theorem At.map {g : α → β} (h : At f i a below) : At (f.map g) i (g a) (below.map g) := by
  induction h with
  | here a below nx => exact .here ..
  | under b nx _ ih => exact .under (g b) _ ih
  | beside b bl _ ih =>
    have hat := At.beside (g b) (bl.map g) ih
    rwa [size_map] at hat

theorem Each.of_at {P : α → Forest α → Prop} (hf : f.Each P) (h : At f i a below) : P a below := by
  induction h with
  | here => exact hf.1
  | under _ _ _ ih => exact ih hf.2.1
  | beside _ _ _ ih => exact ih hf.2.2

/-! ### Labels -/

/-- The labels of a tree follow one another. -/
theorem At.labels_eq (h : At f i a below) :
    ∃ before after, f.labels = before ++ a :: (below.labels ++ after) ∧ before.length = i := by
  induction h with
  | here a below nx => exact ⟨[], nx.labels, rfl, rfl⟩
  | under b nx _ ih =>
    obtain ⟨before, after, hlabels, hlength⟩ := ih
    exact ⟨b :: before, after ++ nx.labels, by simp [labels, hlabels], by simp [hlength]⟩
  | beside b bl _ ih =>
    obtain ⟨before, after, hlabels, hlength⟩ := ih
    exact ⟨b :: (bl.labels ++ before), after, by simp [labels, hlabels], by simp [hlength]⟩

theorem At.getElem?_labels (h : At f i a below) : f.labels[i]? = some a := by
  obtain ⟨before, after, hlabels, rfl⟩ := h.labels_eq
  simp [hlabels]

theorem exists_at_of_getElem? (h : f.labels[i]? = some a) : ∃ below, At f i a below := by
  have hi := (List.getElem?_eq_some_iff.mp h).1
  rw [length_labels] at hi
  obtain ⟨b, below, hat⟩ := exists_at hi
  obtain rfl := Option.some.inj (hat.getElem?_labels.symm.trans h)
  exact ⟨below, hat⟩

theorem At.take_drop_labels (h : At f i a below) :
    (f.labels.drop i).take (below.size + 1) = a :: below.labels := by
  obtain ⟨before, after, hlabels, rfl⟩ := h.labels_eq
  rw [hlabels, List.drop_left, List.take_succ_cons, ← length_labels, List.take_left]

theorem At.getElem?_labels_below (h : At f i a below) (hj : j < below.size) :
    f.labels[i + 1 + j]? = below.labels[j]? := by
  obtain ⟨b, bl, hat⟩ := exists_at hj
  rw [(h.trans hat).getElem?_labels, hat.getElem?_labels]

/-! ### Children -/

theorem length_children : (f.children first).length = f.size := by
  induction f generalizing first with
  | nil => rfl
  | tree b bl nx hb hn => rw [children, List.length_cons, List.length_append, hb, hn, size]; omega

/-- The children of a label are the top trees below it. -/
theorem At.getElem?_children (h : At f i a below) :
    (f.children first)[i]? = some (below.topIndices (first + i + 1)) := by
  induction h generalizing first with
  | here a below nx => rfl
  | @under b nx bl i _ _ h ih =>
    have hi : first + (i + 1) + 1 = first + 1 + i + 1 := by omega
    rw [children, List.getElem?_cons_succ,
      List.getElem?_append_left (by rw [length_children]; exact h.lt), ih, hi]
  | @beside b bl nx i _ _ h ih =>
    have hi : first + (bl.size + i + 1) + 1 = first + 1 + bl.size + i + 1 := by omega
    rw [children, List.getElem?_cons_succ,
      List.getElem?_append_right (by rw [length_children]; omega), length_children,
      Nat.add_sub_cancel_left, ih, hi]

theorem topIndices_add (k : Nat) : ∀ first, f.topIndices (k + first) =
    (f.topIndices first).map (k + ·) := by
  induction f with
  | nil => exact fun _ => rfl
  | tree b bl nx _ ih =>
    intro first
    have hnext : k + first + 1 + bl.size = k + (first + 1 + bl.size) := by omega
    rw [topIndices, topIndices, List.map_cons, hnext, ih]

theorem le_of_mem_topIndices (h : j ∈ f.topIndices first) : first ≤ j := by
  rw [← Nat.add_zero first, topIndices_add] at h
  obtain ⟨k, -, rfl⟩ := List.mem_map.mp h
  exact Nat.le_add_right ..

/-- The top trees follow one another. -/
theorem pairwise_topIndices : (f.topIndices first).Pairwise (· < ·) := by
  induction f generalizing first with
  | nil => exact .nil
  | tree b bl nx _ ih =>
    refine List.pairwise_cons.mpr ⟨fun j hj => ?_, ih⟩
    have := le_of_mem_topIndices hj
    omega

theorem topIndices_tree : (tree b bl nx).topIndices 0 =
    0 :: (nx.topIndices 0).map (bl.size + 1 + ·) := by
  rw [topIndices, ← topIndices_add, Nat.add_comm bl.size]
  rfl

/-- The top indices are those of the top labels. -/
theorem map_topIndices : (f.topIndices 0).map (f.labels[·]?) = f.tops.map some := by
  induction f with
  | nil => rfl
  | tree b bl nx _ ih =>
    have hbeside (j : Nat) : (tree b bl nx).labels[bl.size + 1 + j]? = nx.labels[j]? := by
      have hj : bl.size + 1 + j = bl.size + j + 1 := by omega
      rw [labels, hj, List.getElem?_cons_succ, List.getElem?_append_right (by simp), length_labels,
        Nat.add_sub_cancel_left]
    rw [topIndices_tree, List.map_cons, List.map_map, tops, List.map_cons, ← ih]
    exact congrArg _ (List.map_congr_left fun j _ => hbeside j)

/-! ### Parents -/

/-- An entry of the list of parents is that of the first label, of one below it or of one beside. -/
theorem parents_tree_cases {q : Option Nat}
    (h : ((tree b bl nx).parents parent first)[j]? = some q) :
    (j = 0 ∧ parent = q) ∨
      (∃ k < bl.size, j = k + 1 ∧ (bl.parents (some first) (first + 1))[k]? = some q) ∨
        ∃ k, j = bl.size + k + 1 ∧ (nx.parents parent (first + 1 + bl.size))[k]? = some q := by
  cases j with
  | zero => exact .inl ⟨rfl, Option.some.inj h⟩
  | succ j =>
    rw [parents, List.getElem?_cons_succ, List.getElem?_append, length_parents] at h
    split at h
    · next hlt => exact .inr (.inl ⟨j, hlt, rfl, h⟩)
    · next hge => exact .inr (.inr ⟨j - bl.size, by omega, h⟩)

/-- A parent is that of the top trees or comes before in the list. -/
theorem parent_cases (h : (f.parents parent first)[j]? = some (some p)) :
    parent = some p ∨ (first ≤ p ∧ p < first + j) := by
  induction f generalizing parent first j with
  | nil => cases h
  | tree b bl nx hb hn =>
    obtain ⟨rfl, heq⟩ | ⟨k, -, rfl, hk⟩ | ⟨k, rfl, hk⟩ := parents_tree_cases h
    · exact .inl heq
    · have hcases := hb hk
      rw [Option.some.injEq] at hcases
      exact .inr (by omega)
    · exact (hn hk).imp_right fun hcases => by omega

/-- The labels with the parent of the top trees are those of the top trees. -/
theorem getElem?_parents_eq_iff (hparent : ∀ p, parent = some p → p < first) :
    (f.parents parent first)[j]? = some parent ↔ first + j ∈ f.topIndices first := by
  induction f generalizing first j with
  | nil => simp [parents, topIndices]
  | tree b bl nx _ ih =>
    rw [parents, topIndices, List.mem_cons]
    cases j with
    | zero => simp
    | succ j =>
      rw [List.getElem?_cons_succ, List.getElem?_append, length_parents]
      split
      · next hlt =>
        -- what is below the first tree has a parent in it
        refine iff_of_false (fun h => ?_) ?_
        · cases hp : parent with
          | none => exact none_notMem_parents (List.mem_of_getElem? (hp ▸ h))
          | some p =>
            have hp' := hparent p hp
            obtain heq | ⟨hle, -⟩ := parent_cases (hp ▸ h)
            · have := Option.some.inj heq
              omega
            · omega
        · rintro (heq | hmem)
          · omega
          · have := le_of_mem_topIndices hmem
            omega
      · next hge =>
        have hj : first + (j + 1) = first + 1 + bl.size + (j - bl.size) := by omega
        rw [ih fun p hp => by have := hparent p hp; omega, hj]
        refine (or_iff_right fun heq => ?_).symm
        omega

theorem lt_of_mem_topIndices (h : j ∈ f.topIndices 0) : j < f.size := by
  have hparents : (f.parents none 0)[j]? = some none :=
    (getElem?_parents_eq_iff fun p hp => by cases hp).mpr ((Nat.zero_add j).symm ▸ h)
  rw [← length_parents]
  exact (List.getElem?_eq_some_iff.mp hparents).1

/-- The indices of the children of a label are those of the top labels below it. -/
theorem At.map_topIndices (h : At f i a below) :
    (below.topIndices (i + 1)).map (f.labels[·]?) = below.tops.map some := by
  have hindices : below.topIndices (i + 1) = (below.topIndices 0).map (i + 1 + ·) :=
    topIndices_add (i + 1) 0
  rw [hindices, List.map_map, ← Forest.map_topIndices]
  exact List.map_congr_left fun j hj => h.getElem?_labels_below (lt_of_mem_topIndices hj)

/-- The parents of what is below a label are those in the list of the tree below. -/
theorem At.getElem?_parents_below (h : At f i a below) (hj : j < below.size) :
    (f.parents parent first)[i + 1 + j]? =
      (below.parents (some (first + i)) (first + i + 1))[j]? := by
  induction h generalizing parent first with
  | here a below nx =>
    have hj' : 0 + 1 + j = j + 1 := by omega
    rw [parents, hj', List.getElem?_cons_succ,
      List.getElem?_append_left (by rw [length_parents]; exact hj)]
    rfl
  | @under b nx bl i _ _ h ih =>
    have hend := h.end_lt
    have hj' : i + 1 + 1 + j = i + 1 + j + 1 := by omega
    have hi : first + 1 + i = first + (i + 1) := by omega
    rw [parents, hj', List.getElem?_cons_succ,
      List.getElem?_append_left (by rw [length_parents]; omega), ih hj, hi]
  | @beside b bl nx i _ _ h ih =>
    have hj' : bl.size + i + 1 + 1 + j = bl.size + (i + 1 + j) + 1 := by omega
    have hi : first + 1 + bl.size + i = first + (bl.size + i + 1) := by omega
    rw [parents, hj', List.getElem?_cons_succ,
      List.getElem?_append_right (by rw [length_parents]; omega), length_parents,
      Nat.add_sub_cancel_left, ih hj, hi]

/-- A parent lies in a tree if what it is the parent of lies below the root of the tree. -/
theorem At.parent_mem_iff (h : At f i a below) (hparent : ∀ p, parent = some p → p < first)
    (hj : (f.parents parent first)[j]? = some (some p)) :
    first + i ≤ p ∧ p ≤ first + i + below.size ↔ i < j ∧ j ≤ i + below.size := by
  induction h generalizing parent first j with
  | here a below nx =>
    obtain ⟨rfl, heq⟩ | ⟨k, hlt, rfl, hk⟩ | ⟨k, rfl, hk⟩ := parents_tree_cases hj
    · have := hparent p heq
      omega
    · have hcases := parent_cases hk
      rw [Option.some.injEq] at hcases
      omega
    · have hcases := (parent_cases hk).imp_left (hparent p)
      omega
  | under b nx h ih =>
    have hend := h.end_lt
    obtain ⟨rfl, heq⟩ | ⟨k, hlt, rfl, hk⟩ | ⟨k, rfl, hk⟩ := parents_tree_cases hj
    · have := hparent p heq
      omega
    · have := ih (fun p hp => by have := Option.some.inj hp; omega) hk
      omega
    · have hcases := (parent_cases hk).imp_left (hparent p)
      omega
  | beside b bl h ih =>
    obtain ⟨rfl, heq⟩ | ⟨k, hlt, rfl, hk⟩ | ⟨k, rfl, hk⟩ := parents_tree_cases hj
    · have := hparent p heq
      omega
    · have hcases := parent_cases hk
      rw [Option.some.injEq] at hcases
      omega
    · have := ih (fun p hp => by have := hparent p hp; omega) hk
      omega

/-- The children of a label are the labels that have it as their parent. -/
theorem At.getElem?_parents_eq_iff (h : At f i a below) (hparent : ∀ p, parent = some p → p < first) :
    (f.parents parent first)[j]? = some (some (first + i)) ↔
      first + j ∈ below.topIndices (first + i + 1) := by
  have hbelow (k : Nat) : (below.parents (some (first + i)) (first + i + 1))[k]? =
      some (some (first + i)) ↔ first + i + 1 + k ∈ below.topIndices (first + i + 1) :=
    Forest.getElem?_parents_eq_iff fun p hp => by have := Option.some.inj hp; omega
  constructor
  · intro hj
    have hinside := (h.parent_mem_iff hparent hj).mp ⟨Nat.le_refl _, Nat.le_add_right ..⟩
    obtain ⟨k, rfl⟩ : ∃ k, j = i + 1 + k := ⟨j - (i + 1), by omega⟩
    rw [h.getElem?_parents_below (by omega)] at hj
    have hk : first + (i + 1 + k) = first + i + 1 + k := by omega
    exact hk ▸ (hbelow k).mp hj
  · intro hj
    have hle := le_of_mem_topIndices hj
    obtain ⟨k, rfl⟩ : ∃ k, j = i + 1 + k := ⟨j - (i + 1), by omega⟩
    have hk : first + (i + 1 + k) = first + i + 1 + k := by omega
    have hparents := (hbelow k).mpr (hk ▸ hj)
    have hlt := (List.getElem?_eq_some_iff.mp hparents).1
    rw [length_parents] at hlt
    rw [h.getElem?_parents_below hlt, hparents]

/-- What lies below a label has a parent. -/
theorem At.exists_parent (h : At f i a below) (hlt : i < j) (hle : j ≤ i + below.size) :
    ∃ p, (f.parents parent first)[j]? = some (some p) := by
  obtain ⟨k, rfl⟩ : ∃ k, j = i + 1 + k := ⟨j - (i + 1), by omega⟩
  have hk : k < (below.parents (some (first + i)) (first + i + 1)).length := by
    rw [length_parents]
    omega
  rw [h.getElem?_parents_below (by omega), List.getElem?_eq_getElem hk]
  cases hp : (below.parents (some (first + i)) (first + i + 1))[k] with
  | none => exact absurd (List.mem_of_getElem hp) none_notMem_parents
  | some p => exact ⟨p, rfl⟩

/-! ### Trees as collections -/

/-- What a function gives for the labels of the tree with a given index, in order. -/
def collect (h : α → List β) (f : Forest α) (i : Nat) : List β :=
  match f.at? i with
  | some (a, below) => (a :: below.labels).flatMap h
  | none => []

variable {h : α → List β}

theorem At.collect_eq (hat : At f i a below) : f.collect h i = h a ++ below.labels.flatMap h := by
  rw [collect, at?_eq_some_iff.mpr hat]
  exact List.flatMap_cons

theorem flatMap_labels : f.labels.flatMap h = (f.topIndices 0).flatMap (f.collect h) := by
  induction f with
  | nil => rfl
  | tree b bl nx _ ih =>
    have hbeside (j : Nat) : (tree b bl nx).collect h (bl.size + 1 + j) = nx.collect h j := by
      have hj : bl.size + 1 + j = bl.size + j + 1 := by omega
      rw [collect, hj, at?, if_neg (by omega), Nat.add_sub_cancel_left, collect]
    rw [labels, topIndices_tree, List.flatMap_cons, List.flatMap_cons, List.flatMap_append, ih,
      List.flatMap_map, ← List.append_assoc, At.collect_eq (.here b bl nx)]
    simp only [hbeside]

/-- A tree is collected from its root and from the trees below it in turn. -/
theorem At.collect_children (hat : At f i a below) :
    f.collect h i = h a ++ (below.topIndices (i + 1)).flatMap (f.collect h) := by
  have hbelow : ∀ j ∈ below.topIndices 0, below.collect h j = f.collect h (i + 1 + j) := by
    intro j hj
    obtain ⟨b, bl, hat'⟩ := exists_at (lt_of_mem_topIndices hj)
    rw [hat'.collect_eq, (hat.trans hat').collect_eq]
  have hindices : below.topIndices (i + 1) = (below.topIndices 0).map (i + 1 + ·) :=
    topIndices_add (i + 1) 0
  rw [hat.collect_eq, flatMap_labels, hindices, List.flatMap_map, List.flatMap_congr hbelow]

end Crosswalk.Forest
