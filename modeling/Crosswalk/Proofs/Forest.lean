import Crosswalk.Forest

/-!
Labels of forests: of forests in a row, of the top trees, of a forest with one label replaced and of
one with every label replaced; and properties of every tree and of any two siblings. A forest is
determined by its labels and its shape.
-/

namespace Crosswalk.Forest

variable {α : Type}

@[simp] theorem nil_append (g : Forest α) : nil ++ g = g := rfl

@[simp] theorem tree_append (a : α) (below next g : Forest α) :
    tree a below next ++ g = tree a below (next ++ g) := rfl

@[simp] theorem append_nil (f : Forest α) : f ++ nil = f := by
  induction f with
  | nil => rfl
  | tree a below next _ ih => rw [tree_append, ih]

@[simp] theorem labels_append (f g : Forest α) : (f ++ g).labels = f.labels ++ g.labels := by
  induction f with
  | nil => rfl
  | tree a below next _ ih => simp [labels, ih]

theorem mem_labels_of_mem_below {a b : α} {below next : Forest α} (h : a ∈ below.labels) :
    a ∈ (tree b below next).labels :=
  List.mem_cons_of_mem _ (List.mem_append_left _ h)

theorem mem_labels_of_mem_next {a b : α} {below next : Forest α} (h : a ∈ next.labels) :
    a ∈ (tree b below next).labels :=
  List.mem_cons_of_mem _ (List.mem_append_right _ h)

/-- A property of all labels is one of the first tree's, of those below it and of the rest. -/
theorem forall_labels_tree {P : α → Prop} {a : α} {below next : Forest α} :
    (∀ b ∈ (tree a below next).labels, P b) ↔
      P a ∧ (∀ b ∈ below.labels, P b) ∧ ∀ b ∈ next.labels, P b := by
  rw [labels, List.forall_mem_cons, List.forall_mem_append]

theorem mem_labels_of_mem_tops {a : α} {f : Forest α} (h : a ∈ f.tops) : a ∈ f.labels := by
  induction f with
  | nil => simp [tops] at h
  | tree b below next _ ih =>
    rcases List.mem_cons.mp h with rfl | h
    · exact List.mem_cons_self
    · exact mem_labels_of_mem_next (ih h)

/-- A property that some label has is found by a search of the forest. -/
theorem any_iff {p : α → Bool} {f : Forest α} : f.any p = true ↔ ∃ a ∈ f.labels, p a = true := by
  induction f with
  | nil => simp [any, labels]
  | tree a below next hb hn => simp [any, labels, hb, hn, or_and_right, exists_or, or_assoc]

theorem modify_append (h : α → α) {as bs : List α} : ∀ {i : Nat}, (as ++ bs).modify i h =
    if i < as.length then as.modify i h ++ bs else as ++ bs.modify (i - as.length) h := by
  induction as with
  | nil => simp
  | cons a as ih =>
    intro i
    cases i with
    | zero => simp
    | succ i =>
      rw [List.cons_append, List.modify_succ_cons, ih]
      simp only [List.length_cons, Nat.add_lt_add_iff_right, Nat.add_sub_add_right,
        List.modify_succ_cons]
      split <;> rfl

/-- Replacing a label replaces the entry of the list of labels. -/
theorem labels_modify (h : α → α) {f : Forest α} : ∀ {i : Nat},
    (f.modify h i).labels = f.labels.modify i h := by
  induction f with
  | nil => intro i; cases i <;> simp [modify, labels]
  | tree a below next hb hn =>
    intro i
    cases i with
    | zero => simp [modify, labels]
    | succ i =>
      rw [modify, labels, List.modify_succ_cons, modify_append, length_labels]
      split
      · rw [labels, hb]
      · rw [labels, hn]

/-- Every label of a forest with one label replaced is the new one or one that was there. -/
theorem mem_labels_modify {h : α → α} {f : Forest α} {i : Nat} {a : α}
    (ha : a ∈ (f.modify h i).labels) : a ∈ f.labels ∨ ∃ b, f.labels[i]? = some b ∧ a = h b := by
  rw [labels_modify] at ha
  obtain ⟨j, hj⟩ := List.mem_iff_getElem?.mp ha
  rw [List.getElem?_modify] at hj
  obtain ⟨b, hb, rfl⟩ := Option.map_eq_some_iff.mp hj
  split
  · next hij => exact .inr ⟨b, hij ▸ hb, rfl⟩
  · exact .inl (List.mem_of_getElem? hb)

/-! ### Properties of every tree -/

@[simp] theorem tops_append (f g : Forest α) : (f ++ g).tops = f.tops ++ g.tops := by
  induction f with
  | nil => rfl
  | tree a below next _ ih => simp [tops, ih]

/-- Whether every tree of a forest has a property of its label and of what is below it. -/
def Each (P : α → Forest α → Prop) : Forest α → Prop
  | nil => True
  | tree a below next => P a below ∧ Each P below ∧ Each P next

theorem Each.imp {P Q : α → Forest α → Prop} (h : ∀ a below, P a below → Q a below) {f : Forest α}
    (hf : f.Each P) : f.Each Q := by
  induction f with
  | nil => trivial
  | tree a below next hb hn => exact ⟨h a below hf.1, hb hf.2.1, hn hf.2.2⟩

theorem Each.of_mem_tops {P : α → Forest α → Prop} {f : Forest α} (h : f.Each P) :
    ∀ a ∈ f.tops, ∃ below, P a below := by
  induction f with
  | nil => simp [tops]
  | tree a below next _ ih => exact List.forall_mem_cons.mpr ⟨⟨below, h.1⟩, ih h.2.2⟩

theorem Each.of_mem_labels {P : α → Forest α → Prop} {f : Forest α} (h : f.Each P) :
    ∀ a ∈ f.labels, ∃ below, P a below := by
  induction f with
  | nil => simp [labels]
  | tree a below next hb hn => exact forall_labels_tree.mpr ⟨⟨below, h.1⟩, hb h.2.1, hn h.2.2⟩

theorem each_append {P : α → Forest α → Prop} {f g : Forest α} :
    (f ++ g).Each P ↔ f.Each P ∧ g.Each P := by
  induction f with
  | nil => simp [Each]
  | tree a below next _ ih => simp [Each, ih, and_assoc]

theorem each_join {P : α → Forest α → Prop} {fs : List (Forest α)} (h : ∀ f ∈ fs, f.Each P) :
    (join fs).Each P := by
  induction fs with
  | nil => trivial
  | cons f fs ih =>
    exact each_append.mpr ⟨h f List.mem_cons_self, ih fun g hg => h g (List.mem_cons_of_mem _ hg)⟩

/-- Whether a relation holds of the labels of any two trees with one parent. -/
def Siblings (R : α → α → Prop) : Forest α → Prop
  | nil => True
  | tree a below next => (∀ b ∈ next.tops, R a b) ∧ Siblings R below ∧ Siblings R next

theorem siblings_append {R : α → α → Prop} {f g : Forest α} :
    (f ++ g).Siblings R ↔ f.Siblings R ∧ g.Siblings R ∧ ∀ a ∈ f.tops, ∀ b ∈ g.tops, R a b := by
  induction f with
  | nil => simp [Siblings, tops]
  | tree a below next _ ih =>
    simp only [tree_append, Siblings, tops_append, List.forall_mem_append, ih, tops,
      List.forall_mem_cons]
    constructor
    · rintro ⟨⟨ha, hag⟩, hbelow, hnext, hg, hfg⟩
      exact ⟨⟨ha, hbelow, hnext⟩, hg, hag, hfg⟩
    · rintro ⟨⟨ha, hbelow, hnext⟩, hg, hag, hfg⟩
      exact ⟨⟨ha, hag⟩, hbelow, hnext, hg, hfg⟩

theorem siblings_single {R : α → α → Prop} {a : α} {below : Forest α} :
    (single a below).Siblings R ↔ below.Siblings R := by
  simp [single, Siblings, tops]

theorem tops_join {fs : List (Forest α)} : (join fs).tops = fs.flatMap tops := by
  induction fs with
  | nil => rfl
  | cons f fs ih => rw [join, tops_append, ih, List.flatMap_cons]

theorem labels_join {fs : List (Forest α)} : (join fs).labels = fs.flatMap labels := by
  induction fs with
  | nil => rfl
  | cons f fs ih => rw [join, labels_append, ih, List.flatMap_cons]

theorem siblings_join {R : α → α → Prop} {fs : List (Forest α)} :
    (join fs).Siblings R ↔ (∀ f ∈ fs, f.Siblings R) ∧
      fs.Pairwise fun f g => ∀ a ∈ f.tops, ∀ b ∈ g.tops, R a b := by
  induction fs with
  | nil => simp [join, Siblings]
  | cons f fs ih =>
    rw [join, siblings_append, ih, List.forall_mem_cons, List.pairwise_cons, tops_join]
    constructor
    · rintro ⟨hf, ⟨hfs, hpair⟩, hcross⟩
      refine ⟨⟨hf, hfs⟩, fun g hg a ha b hb => hcross a ha b ?_, hpair⟩
      exact List.mem_flatMap.mpr ⟨g, hg, hb⟩
    · rintro ⟨⟨hf, hfs⟩, hcross, hpair⟩
      refine ⟨hf, ⟨hfs, hpair⟩, fun a ha b hb => ?_⟩
      obtain ⟨g, hg, hb⟩ := List.mem_flatMap.mp hb
      exact hcross g hg a ha b hb

/-! ### Parents -/

theorem length_parents {f : Forest α} : ∀ {parent : Option Nat} {first : Nat},
    (f.parents parent first).length = f.size := by
  induction f with
  | nil => intros; rfl
  | tree a below next hb hn =>
    intro parent first
    rw [parents, List.length_cons, List.length_append, hb, hn, Forest.size]
    omega

/-- What is below a node has a parent. -/
theorem none_notMem_parents {f : Forest α} : ∀ {parent first : Nat},
    none ∉ f.parents (some parent) first := by
  induction f with
  | nil => simp [parents]
  | tree a below next hb hn => simp [parents, hb, hn]

/-! ### Every label replaced -/

variable {β : Type} {g : α → β}

/-- The forest with every label replaced by a function of it. -/
def map (g : α → β) : Forest α → Forest β
  | nil => nil
  | tree a below next => tree (g a) (map g below) (map g next)

@[simp] theorem labels_map {f : Forest α} : (f.map g).labels = f.labels.map g := by
  induction f with
  | nil => rfl
  | tree a below next hb hn => simp [map, labels, hb, hn]

@[simp] theorem size_map {f : Forest α} : (f.map g).size = f.size := by
  rw [← length_labels, labels_map, List.length_map, length_labels]

@[simp] theorem parents_map {f : Forest α} : ∀ {parent : Option Nat} {first : Nat},
    (f.map g).parents parent first = f.parents parent first := by
  induction f with
  | nil => intros; rfl
  | tree a below next hb hn => intro parent first; simp [map, parents, hb, hn]

@[simp] theorem topIndices_map {f : Forest α} : ∀ {first : Nat},
    (f.map g).topIndices first = f.topIndices first := by
  induction f with
  | nil => intros; rfl
  | tree a below next _ hn => intro first; simp [map, topIndices, hn]

@[simp] theorem children_map {f : Forest α} : ∀ {first : Nat},
    (f.map g).children first = f.children first := by
  induction f with
  | nil => intros; rfl
  | tree a below next hb hn => intro first; simp [map, children, hb, hn]

@[simp] theorem tops_map {f : Forest α} : (f.map g).tops = f.tops.map g := by
  induction f with
  | nil => rfl
  | tree a below next _ ih => rw [map, tops, ih, tops, List.map_cons]

theorem each_map {P : β → Forest β → Prop} {f : Forest α} :
    (f.map g).Each P ↔ f.Each fun a below => P (g a) (below.map g) := by
  induction f with
  | nil => exact Iff.rfl
  | tree a below next hb hn => rw [map, Each, Each, hb, hn]

/-- A forest that a function of the labels takes to one tree is one tree. -/
theorem eq_single_of_map {b : β} {below' : Forest β} {f : Forest α}
    (h : f.map g = .single b below') : ∃ a below, f = .single a below ∧ g a = b := by
  cases f with
  | nil => cases h
  | tree a below next =>
    obtain ⟨ha, -, hnext⟩ := Forest.tree.inj h
    cases next with
    | nil => exact ⟨a, below, rfl, ha⟩
    | tree => cases hnext

theorem map_eq_self {g : α → α} {f : Forest α} (h : ∀ a ∈ f.labels, g a = a) : f.map g = f := by
  induction f with
  | nil => rfl
  | tree a below next hb hn =>
    obtain ⟨ha, hbelow, hnext⟩ := forall_labels_tree.mp h
    rw [map, ha, hb hbelow, hn hnext]

/-- Forests of one shape with the same labels are equal. -/
theorem ext_map {f : Forest α} : ∀ {f' : Forest α}, f.map g = f'.map g → f.labels = f'.labels →
    f = f' := by
  induction f with
  | nil =>
    intro f' hmap _
    cases f' with
    | nil => rfl
    | tree => cases hmap
  | tree a below next hb hn =>
    intro f' hmap hlabels
    cases f' with
    | nil => cases hmap
    | tree a' below' next' =>
      obtain ⟨-, hbelow, hnext⟩ := Forest.tree.inj hmap
      obtain ⟨rfl, happend⟩ := List.cons.inj hlabels
      have hsize : below.labels.length = below'.labels.length := by
        rw [length_labels, length_labels, ← size_map (g := g), hbelow, size_map]
      obtain ⟨hlabels, hlabels'⟩ := List.append_inj happend hsize
      rw [hb hbelow hlabels, hn hnext hlabels']

/-- Replacing a label by one that a function takes to the same is not seen through the function. -/
theorem map_modify {a b : α} (hab : g b = g a) {f : Forest α} : ∀ {i : Nat},
    f.labels[i]? = some a → (f.modify (fun _ => b) i).map g = f.map g := by
  induction f with
  | nil => intro i hi; simp [labels] at hi
  | tree a' below next hb hn =>
    intro i hi
    cases i with
    | zero =>
      obtain rfl : a' = a := by simpa [labels] using hi
      rw [modify, map, map, hab]
    | succ i =>
      rw [labels, List.getElem?_cons_succ, List.getElem?_append, length_labels] at hi
      rw [modify]
      split at hi
      · next h => rw [if_pos h, map, map, hb hi]
      · next h => rw [if_neg h, map, map, hn hi]

end Crosswalk.Forest
