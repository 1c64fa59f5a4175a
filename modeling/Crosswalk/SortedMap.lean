/-!
Finite maps as lists of entries in increasing key order. The order is part of the type, so two maps
with the same entries are equal whatever insertions and removals built them.
-/

namespace Crosswalk

/-- Entries in strictly increasing order of their keys. -/
def Increasing {κ ν : Type} [Ord κ] (entries : List (κ × ν)) : Prop :=
  entries.Pairwise fun a b => compare a.1 b.1 = .lt

/-- A finite map, listed in strictly increasing key order. -/
structure SortedMap (κ ν : Type) [Ord κ] where
  toList : List (κ × ν)
  increasing : Increasing toList
  deriving DecidableEq, Repr

namespace SortedMap

variable {κ ν : Type} [Ord κ]

/-- The entries with `k` bound to `v`; an entry of the same key keeps its place. -/
def insertEntry (k : κ) (v : ν) : List (κ × ν) → List (κ × ν)
  | [] => [(k, v)]
  | (k', v') :: rest =>
    match compare k k' with
    | .lt => (k, v) :: (k', v') :: rest
    | .eq => (k', v) :: rest
    | .gt => (k', v') :: insertEntry k v rest

/-- The value bound to `k` in a list of entries. -/
def findEntry? (k : κ) : List (κ × ν) → Option ν
  | [] => none
  | (k', v') :: rest => if compare k k' = .eq then some v' else findEntry? k rest

theorem key_of_mem_insertEntry {k : κ} {v : ν} {es : List (κ × ν)} {e : κ × ν}
    (h : e ∈ insertEntry k v es) : e.1 = k ∨ ∃ e' ∈ es, e'.1 = e.1 := by
  induction es with
  | nil => exact .inl (by simpa [insertEntry] using congrArg Prod.fst (List.mem_singleton.1 h))
  | cons f rest ih =>
    obtain ⟨k', v'⟩ := f
    rw [insertEntry] at h
    split at h
    · rcases List.mem_cons.1 h with rfl | h
      · exact .inl rfl
      · exact .inr ⟨e, h, rfl⟩
    · rcases List.mem_cons.1 h with rfl | h
      · exact .inr ⟨(k', v'), List.mem_cons_self, rfl⟩
      · exact .inr ⟨e, List.mem_cons_of_mem _ h, rfl⟩
    · rcases List.mem_cons.1 h with rfl | h
      · exact .inr ⟨(k', v'), List.mem_cons_self, rfl⟩
      · rcases ih h with h | ⟨e', he', h⟩
        · exact .inl h
        · exact .inr ⟨e', List.mem_cons_of_mem _ he', h⟩

theorem increasing_insertEntry [Std.TransOrd κ] (k : κ) (v : ν) {es : List (κ × ν)}
    (h : Increasing es) : Increasing (insertEntry k v es) := by
  induction es with
  | nil => exact List.pairwise_singleton ..
  | cons f rest ih =>
    obtain ⟨k', v'⟩ := f
    obtain ⟨hhead, hrest⟩ := List.pairwise_cons.1 h
    rw [insertEntry]
    split
    · next hlt =>
      refine List.pairwise_cons.2 ⟨fun e he => ?_, h⟩
      rcases List.mem_cons.1 he with rfl | he
      · exact hlt
      · exact Std.TransCmp.lt_trans hlt (hhead e he)
    · exact List.pairwise_cons.2 ⟨hhead, hrest⟩
    · next hgt =>
      refine List.pairwise_cons.2 ⟨fun e he => ?_, ih hrest⟩
      rcases key_of_mem_insertEntry he with h | ⟨e', he', h⟩
      · exact h ▸ Std.OrientedCmp.gt_iff_lt.1 hgt
      · exact h ▸ hhead e' he'

/-- The map without entries. -/
def empty : SortedMap κ ν := ⟨[], List.Pairwise.nil⟩

/-- The value bound to `k`. -/
def find? (m : SortedMap κ ν) (k : κ) : Option ν := findEntry? k m.toList

/-- Whether `k` is bound. -/
def contains (m : SortedMap κ ν) (k : κ) : Bool := (m.find? k).isSome

/-- Binds `k` to `v`, in place of any earlier value. -/
def insert [Std.TransOrd κ] (m : SortedMap κ ν) (k : κ) (v : ν) : SortedMap κ ν :=
  ⟨insertEntry k v m.toList, increasing_insertEntry k v m.increasing⟩

/-- Binds keys in turn; a later binding of a key replaces an earlier one. -/
def ofList [Std.TransOrd κ] (entries : List (κ × ν)) : SortedMap κ ν :=
  entries.foldl (fun m e => m.insert e.1 e.2) empty

/-- The entries that satisfy `p`. -/
def filter (p : κ → ν → Bool) (m : SortedMap κ ν) : SortedMap κ ν :=
  ⟨m.toList.filter fun e => p e.1 e.2, m.increasing.filter _⟩

/-- The map without an entry for `k`. -/
def erase (m : SortedMap κ ν) (k : κ) : SortedMap κ ν :=
  m.filter fun k' _ => compare k k' != .eq

/-- Replaces every value by a function of its key and itself. -/
def mapValues {μ : Type} (f : κ → ν → μ) (m : SortedMap κ ν) : SortedMap κ μ :=
  ⟨m.toList.map fun e => (e.1, f e.1 e.2), by
    simpa [Increasing, List.pairwise_map] using m.increasing⟩

/-- Replaces the value of `k`, if it has one. -/
def adjust (m : SortedMap κ ν) (k : κ) (f : ν → ν) : SortedMap κ ν :=
  m.mapValues fun k' v => if compare k k' = .eq then f v else v

/-- The keys in increasing order. -/
def keys (m : SortedMap κ ν) : List κ := m.toList.map Prod.fst

/-- The values in the order of their keys. -/
def values (m : SortedMap κ ν) : List ν := m.toList.map Prod.snd

/-- The number of entries. -/
def size (m : SortedMap κ ν) : Nat := m.toList.length

/-- Whether there is no entry. -/
def isEmpty (m : SortedMap κ ν) : Bool := m.toList.isEmpty

instance : Inhabited (SortedMap κ ν) := ⟨empty⟩

end SortedMap

end Crosswalk
