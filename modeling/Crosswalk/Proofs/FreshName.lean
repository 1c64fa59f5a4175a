import Crosswalk.Proofs.Names

/-!
The search for a fresh variable. It goes from one candidate to the next for as long as the candidate
is taken, and needs no limit to end: its candidates are distinct, so it tries at most one more of
them than there are names in use. What it ends at is a plain name that is not in use and starts with
an underscore.
-/

namespace Crosswalk.Scopes

open Text

/-- A search that tries `n` candidates for a name, from number `k` on, and ends at `x`: a taken
candidate sends it on to the next, and a free one ends it. -/
inductive Search (taken : String → Bool) (base : String) : Nat → Nat → String → Prop where
  | found {k : Nat} (h : taken (candidate base k) = false) :
      Search taken base k 1 (candidate base k)
  | next {k n : Nat} {x : String} (h : taken (candidate base k) = true)
      (rest : Search taken base (k + 1) n x) : Search taken base k (n + 1) x

variable {taken : String → Bool} {base x y : String} {k m n : Nat}

namespace Search

/-- There is one way to search. -/
theorem unique (hn : Search taken base k n x) (hm : Search taken base k m y) : m = n ∧ y = x := by
  induction hn generalizing m with
  | found hfree =>
    cases hm with
    | found => exact ⟨rfl, rfl⟩
    | next htaken => rw [hfree] at htaken; cases htaken
  | next htaken _ ih =>
    cases hm with
    | found hfree => rw [hfree] at htaken; cases htaken
    | next _ hrest =>
      obtain ⟨rfl, rfl⟩ := ih hrest
      exact ⟨rfl, rfl⟩

/-- Every candidate that is tried is taken, but for the last. -/
theorem taken_of_lt (h : Search taken base k n x) :
    ∀ i, i + 1 < n → taken (candidate base (k + i)) = true := by
  induction h with
  | found => intro i hi; omega
  | next htaken _ ih =>
    intro i hi
    cases i with
    | zero => exact htaken
    | succ i =>
      have hi := ih i (by omega)
      rwa [Nat.add_right_comm] at hi

end Search

/-- The search with a limit is the search without, if it ends at a free name. -/
theorem search_firstFree {limit : Nat} (h : taken (firstFree taken base limit k) = false) :
    ∃ n, Search taken base k n (firstFree taken base limit k) := by
  induction limit generalizing k with
  | zero => exact ⟨1, .found h⟩
  | succ limit ih =>
    rw [firstFree] at h ⊢
    split at h
    · next htaken =>
      obtain ⟨n, hn⟩ := ih h
      rw [if_pos htaken]
      exact ⟨n + 1, .next htaken hn⟩
    · next hfree =>
      rw [if_neg hfree]
      exact ⟨1, .found h⟩

variable (scopes : Scopes) (t : Tag)

theorem freshVar_free : scopes.isTaken (scopes.freshVar t) = false := by
  rw [← Bool.not_eq_true, isTaken_iff]
  exact freshVar_notMem_takenNames scopes t

/-- All candidates but the last are names in use, and they are distinct. -/
theorem Search.le_card_takenNames {scopes : Scopes} (h : Search scopes.isTaken base 0 n x) :
    n ≤ scopes.takenNames.toFinset.card + 1 := by
  have htaken : ∀ i < n - 1, scopes.isTaken (candidate base i) = true := by
    intro i hi
    have hi := h.taken_of_lt i (by omega)
    rwa [Nat.zero_add] at hi
  have hcard := Scopes.le_card_takenNames htaken
  omega

theorem head?_freshVar : (scopes.freshVar t).toList.head? = some '_' := by
  obtain ⟨j, hj⟩ := freshVar_eq_candidate scopes t
  obtain ⟨u, hu, -⟩ := toList_candidate (baseName t) j
  rw [hj, hu, toList_baseName, List.cons_append, List.head?_cons]

theorem isWord_freshVar : IsWord (scopes.freshVar t).toList := by
  obtain ⟨j, hj⟩ := freshVar_eq_candidate scopes t
  rw [hj]
  exact isWord_of_isPlainName (isPlainName_candidate t j)

/-- The search for a fresh variable has one run, in which it tries at most one candidate more than
there are names in use, those of the open scopes and the interpreter's. It ends at a name that is
none of them, starts with an underscore, and has only ASCII letters, digits and underscores. -/
theorem search_freshVar :
    (∃ n, n ≤ scopes.takenNames.toFinset.card + 1 ∧
      ∀ m x, Search scopes.isTaken (baseName t) 0 m x ↔ m = n ∧ x = scopes.freshVar t) ∧
    scopes.freshVar t ≠ inputVar ∧ scopes.freshVar t ∉ scopes.map Binding.var ∧
    (scopes.freshVar t).toList.head? = some '_' ∧ IsWord (scopes.freshVar t).toList := by
  obtain ⟨n, hn⟩ := search_firstFree (freshVar_free scopes t)
  have hfresh := freshVar_notMem_takenNames scopes t
  rw [takenNames, List.mem_cons, not_or] at hfresh
  refine ⟨⟨n, hn.le_card_takenNames, fun m x => ⟨hn.unique, ?_⟩⟩, hfresh.1, hfresh.2,
    head?_freshVar scopes t, isWord_freshVar scopes t⟩
  rintro ⟨rfl, rfl⟩
  exact hn

-- The number that another tag's name ends in is passed over.
example : freshVar [⟨.path ⟨[Tag.elem none "title_2"]⟩, "_title_2"⟩,
    ⟨.path ⟨[Tag.elem none "title"]⟩, "_title"⟩] (Tag.elem none "title") = "_title_3" := by
  decide +kernel

end Crosswalk.Scopes
