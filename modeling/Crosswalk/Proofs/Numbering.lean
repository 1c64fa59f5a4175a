import Crosswalk.Program.Emission
import Crosswalk.Proofs.Forest

/-!
Numbered trees: numbers are added to the mappings of a node and nothing else changes, and the
numbers of a node's joins lie between those of the nodes ahead and of those below.
-/

namespace Crosswalk

namespace Numbering

/-! ### Mappings of a node -/

@[simp] theorem map_numberMappings (n : Node) {ms : List Mapping} : ∀ {tables joined : Nat},
    (numberMappings n tables joined ms).map NumberedMapping.mapping = ms := by
  induction ms with
  | nil => intros; rfl
  | cons m ms ih => intro tables joined; rw [numberMappings, List.map_cons, ih]

@[simp] theorem toNode_numberNode (tables joined : Nat) (n : Node) :
    (numberNode tables joined n).toNode = n := rfl

/-- A node's mappings are those that are numbered, in order. -/
theorem map_numbered (tables joined : Nat) (n : Node) :
    (numberNode tables joined n).numbered.map NumberedMapping.mapping = n.mappingList :=
  map_numberMappings n

theorem mapping_mem_of_mem_numbered {n : Node} {nm : NumberedMapping} {tables joined : Nat}
    (h : nm ∈ (numberNode tables joined n).numbered) : nm.mapping ∈ n.mappingList := by
  rw [← map_numbered tables joined n]
  exact List.mem_map_of_mem h

theorem exists_numbered {n : Node} {m : Mapping} (hm : m ∈ n.mappingList) (tables joined : Nat) :
    ∃ nm ∈ (numberNode tables joined n).numbered, nm.mapping = m := by
  rw [← map_numbered tables joined n] at hm
  exact List.mem_map.mp hm

/-- The joins of a node are numbered from the next number on. -/
theorem join_mem_numberMappings {n : Node} {nm : NumberedMapping} {k : Nat} :
    ∀ {ms : List Mapping} {tables joined : Nat}, nm ∈ numberMappings n tables joined ms →
      nm.join = some k → joined < k ∧ k ≤ joined + ms.countP (joins n)
  | m :: ms, tables, joined, h, hk => by
    rw [numberMappings] at h
    rcases List.mem_cons.mp h with rfl | h
    · simp only [next?] at hk
      split at hk
      · next hjoins =>
        rw [Option.some.injEq] at hk
        rw [List.countP_cons, if_pos hjoins]
        omega
      · cases hk
    · have := join_mem_numberMappings h hk
      rw [List.countP_cons]
      cases hj : joins n m <;> simp [hj] at this ⊢ <;> omega

theorem isSome_join {n : Node} {nm : NumberedMapping} : ∀ {ms : List Mapping} {tables joined : Nat},
    nm ∈ numberMappings n tables joined ms → nm.join.isSome = joins n nm.mapping
  | m :: _, _, _, h => by
    rw [numberMappings] at h
    rcases List.mem_cons.mp h with rfl | h
    · dsimp only [next?]
      cases joins n m <;> rfl
    · exact isSome_join h

/-! ### Nodes of a forest -/

theorem mem_labels_number {a : NumberedNode} : ∀ {f : Forest Node} {tables joined : Nat},
    a ∈ (number tables joined f).labels → ∃ n ∈ f.labels, ∃ i j, a = numberNode i j n
  | .tree n below next, tables, joined, h => by
    simp only [number, Forest.labels, List.mem_cons, List.mem_append] at h ⊢
    rcases h with h | h | h
    · exact ⟨n, .inl rfl, _, _, h⟩
    · obtain ⟨n', hn', h⟩ := mem_labels_number h
      exact ⟨n', .inr (.inl hn'), h⟩
    · obtain ⟨n', hn', h⟩ := mem_labels_number h
      exact ⟨n', .inr (.inr hn'), h⟩

theorem numberNode_mem_labels {n : Node} : ∀ {f : Forest Node}, n ∈ f.labels →
    ∀ (tables joined : Nat), ∃ i j, numberNode i j n ∈ (number tables joined f).labels
  | .tree n' below next, h, tables, joined => by
    simp only [number, Forest.labels, List.mem_cons, List.mem_append] at h ⊢
    rcases h with rfl | h | h
    · exact ⟨_, _, .inl rfl⟩
    · obtain ⟨i, j, h⟩ := numberNode_mem_labels h (tables + tableCount n') (joined + joinCount n')
      exact ⟨i, j, .inr (.inl h)⟩
    · obtain ⟨i, j, h⟩ := numberNode_mem_labels h
        (tables + tableCount n' + total tableCount below)
        (joined + joinCount n' + total joinCount below)
      exact ⟨i, j, .inr (.inr h)⟩

theorem mem_tops_number {a : NumberedNode} : ∀ {f : Forest Node} {tables joined : Nat},
    a ∈ (number tables joined f).tops → ∃ n ∈ f.tops, ∃ i j, a = numberNode i j n
  | .tree n below next, tables, joined, h => by
    simp only [number, Forest.tops, List.mem_cons] at h ⊢
    rcases h with h | h
    · exact ⟨n, .inl rfl, _, _, h⟩
    · obtain ⟨n', hn', h⟩ := mem_tops_number h
      exact ⟨n', .inr hn', h⟩

theorem numberNode_mem_tops {n : Node} : ∀ {f : Forest Node}, n ∈ f.tops →
    ∀ (tables joined : Nat), ∃ i j, numberNode i j n ∈ (number tables joined f).tops
  | .tree n' below next, h, tables, joined => by
    simp only [number, Forest.tops, List.mem_cons] at h ⊢
    rcases h with rfl | h
    · exact ⟨_, _, .inl rfl⟩
    · obtain ⟨i, j, h⟩ := numberNode_mem_tops h
        (tables + tableCount n' + total tableCount below)
        (joined + joinCount n' + total joinCount below)
      exact ⟨i, j, .inr h⟩

/-! ### Frontiers -/

open Emission

theorem frontier_number {f : Forest Node} : ∀ {i j i' j' : Nat},
    frontier (number i j f) = frontier (number i' j' f) := by
  induction f with
  | nil => intros; rfl
  | tree n below next hb hn =>
    intro i j i' j'
    rw [number, number, Emission.frontier, Emission.frontier, toNode_numberNode, toNode_numberNode]
    congr 1
    · congr 1
      exact hb
    · exact hn

theorem commonParent?_number {f : Forest Node} (i j i' j' : Nat) :
    commonParent? (number i j f) = commonParent? (number i' j' f) := by
  rw [commonParent?, commonParent?, frontier_number]

end Numbering

theorem Setting.mem_numbered_of_mem_emitted {g : Setting} {n : NumberedNode} {nm : NumberedMapping}
    (h : nm ∈ g.emitted n) : nm ∈ n.numbered := by
  rw [emitted] at h
  split at h
  · split at h
    · exact (List.mem_filter.mp h).1
    · exact h
  · exact h

end Crosswalk
