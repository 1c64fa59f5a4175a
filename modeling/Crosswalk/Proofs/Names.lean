import Crosswalk.Program.Emission
import Crosswalk.Proofs.Text
import Mathlib.Data.Finset.Card
import Mathlib.Data.Finset.Dedup

/-!
Names of generated variables. A name made from a source tag is one of the tag's candidates, and the
search for it ends at one that no open scope has. The names of joins, of looked up terms and of
attribute values are of three kinds that never meet, and a join's name determines its number.
-/

namespace Crosswalk

open Emission

/-! ### Numerals -/

theorem toString_nat_injective {i j : Nat} (h : toString i = toString j) : i = j := by
  have hd : Nat.toDigits 10 i = Nat.toDigits 10 j := by
    simpa [Nat.toString_eq_repr, Nat.toList_repr] using congrArg String.toList h
  rw [← Nat.ofDigitChars_ten_toDigits (n := i), hd, Nat.ofDigitChars_ten_toDigits]

/-! ### Candidates and the search among them -/

/-- What the characters of a name go on with: nothing, or an underscore and more. -/
def IsContinuation (r : List Char) : Prop := r = [] ∨ ∃ v, r = '_' :: v

theorem isContinuation_cons (v : List Char) : IsContinuation ('_' :: v) := .inr ⟨v, rfl⟩

theorem IsContinuation.append {r s : List Char} (hr : IsContinuation r) (hs : IsContinuation s) :
    IsContinuation (r ++ s) := by
  rcases hr with rfl | ⟨v, rfl⟩
  · exact hs
  · exact isContinuation_cons (v ++ s)

namespace Scopes

@[simp] theorem candidate_zero (base : String) : candidate base 0 = base := rfl

theorem candidate_succ (base : String) (k : Nat) :
    candidate base (k + 1) = base ++ "_" ++ toString (k + 2) := rfl

theorem candidate_injective (base : String) : Function.Injective (candidate base) := by
  rintro i j h
  have hl := congrArg String.toList h
  rcases i with _ | i <;> rcases j with _ | j
  · rfl
  · simp [candidate_succ] at hl
  · simp [candidate_succ] at hl
  · simp only [candidate_succ, String.append_assoc, String.toList_append] at hl
    have hd := List.append_cancel_left (List.append_cancel_left hl)
    have hk := toString_nat_injective (String.toList_injective hd)
    omega

theorem firstFree_eq_candidate (taken : String → Bool) (base : String) :
    ∀ limit k, ∃ j, firstFree taken base limit k = candidate base j
  | 0, k => ⟨k, rfl⟩
  | limit + 1, k => by
    rw [firstFree]
    split
    · exact firstFree_eq_candidate taken base limit (k + 1)
    · exact ⟨k, rfl⟩

/-- A search that ends at a taken candidate has met only taken ones. -/
theorem taken_of_taken_firstFree {taken : String → Bool} {base : String} :
    ∀ {limit k : Nat}, taken (firstFree taken base limit k) = true →
      ∀ i ≤ limit, taken (candidate base (k + i)) = true
  | 0, k, h, i, hi => by
    obtain rfl : i = 0 := by omega
    exact h
  | limit + 1, k, h, i, hi => by
    rw [firstFree] at h
    split at h
    · next hk =>
      rcases i with _ | i
      · exact hk
      · have := taken_of_taken_firstFree h i (by omega)
        rwa [Nat.add_right_comm] at this
    · next hk => exact absurd h hk

/-- The names in use: the interpreter's and those of the open scopes. -/
def takenNames (scopes : Scopes) : List String := inputVar :: scopes.map Binding.var

theorem isTaken_iff {scopes : Scopes} {x : String} :
    scopes.isTaken x = true ↔ x ∈ scopes.takenNames := by
  simp [isTaken, takenNames]

/-- The candidates of a name are distinct, so no more of them are taken than names are in use. -/
theorem le_card_takenNames {scopes : Scopes} {base : String} {n : Nat}
    (h : ∀ i < n, scopes.isTaken (candidate base i) = true) :
    n ≤ scopes.takenNames.toFinset.card := by
  have hsub : (Finset.range n).image (candidate base) ⊆ scopes.takenNames.toFinset := by
    intro x hx
    obtain ⟨i, hi, rfl⟩ := Finset.mem_image.mp hx
    exact List.mem_toFinset.mpr (isTaken_iff.mp (h i (Finset.mem_range.mp hi)))
  calc n = ((Finset.range n).image (candidate base)).card := by
        rw [Finset.card_image_of_injective _ (candidate_injective base), Finset.card_range]
    _ ≤ scopes.takenNames.toFinset.card := Finset.card_le_card hsub

/-- More candidates are tried than names are in use, so the search finds a free one. -/
theorem freshVar_notMem_takenNames (scopes : Scopes) (t : Tag) :
    scopes.freshVar t ∉ scopes.takenNames := by
  rw [← isTaken_iff]
  intro h
  have hall : ∀ i < scopes.length + 2, scopes.isTaken (candidate (baseName t) i) = true := by
    intro i hi
    have hi := taken_of_taken_firstFree h i (Nat.le_of_lt_succ hi)
    rwa [Nat.zero_add] at hi
  have hlen : scopes.length + 2 ≤ scopes.length + 1 :=
    calc scopes.length + 2 ≤ scopes.takenNames.toFinset.card := le_card_takenNames hall
      _ ≤ scopes.takenNames.length := List.toFinset_card_le _
      _ = scopes.length + 1 := by rw [takenNames, List.length_cons, List.length_map]
  omega

theorem freshVar_eq_candidate (scopes : Scopes) (t : Tag) :
    ∃ j, scopes.freshVar t = candidate (baseName t) j :=
  firstFree_eq_candidate ..

/-- The characters of a base name after the underscore in front. -/
def baseChars (t : Tag) : List Char :=
  (if t.isAttribute then "at_".toList else []) ++ Text.sanitize t.qname.toList

theorem toList_baseName (t : Tag) : (baseName t).toList = '_' :: baseChars t := by
  simp [baseName, baseChars]

theorem toList_candidate (base : String) (j : Nat) :
    ∃ u, (candidate base j).toList = base.toList ++ u ∧ IsContinuation u := by
  cases j with
  | zero => exact ⟨[], by simp, .inl rfl⟩
  | succ j =>
    exact ⟨'_' :: (toString (j + 2)).toList, by simp [candidate_succ], isContinuation_cons _⟩

end Scopes

/-! ### The kinds of generated names -/

namespace Emission

theorem toList_joinVar (k : Nat) : (joinVar k).toList = '_' :: 'M' :: (toString k).toList := by
  simp [joinVar]

theorem toList_termVar (k : Nat) :
    (termVar k).toList = '_' :: ("translated".toList ++ (toString k).toList) := by
  simp [termVar]

theorem joinVar_injective {i j : Nat} (h : joinVar i = joinVar j) : i = j := by
  have hl := congrArg String.toList h
  simp only [toList_joinVar, List.cons.injEq, true_and] at hl
  exact toString_nat_injective (String.toList_injective hl)

theorem joinVar_ne_inputVar (k : Nat) : joinVar k ≠ inputVar := by
  intro h
  have hl := congrArg String.toList h
  simp [toList_joinVar, inputVar] at hl

theorem isContinuation_steps (ts : List Tag) : IsContinuation (ts.flatMap attributeStep) := by
  cases ts with
  | nil => exact .inl rfl
  | cons t ts => rw [List.flatMap_cons, attributeStep]; exact isContinuation_cons _

theorem toList_attributeVar (p : Path) (k : Nat) :
    ∃ r, (attributeVar p k).toList = '_' :: ("attr".toList ++ r) ∧ IsContinuation r := by
  have hsuffix : IsContinuation (if k = 0 then "" else "_" ++ toString (k + 1)).toList := by
    split
    · exact .inl String.toList_empty
    · exact .inr ⟨(toString (k + 1)).toList, by simp⟩
  refine ⟨_, ?_, (isContinuation_steps p.tags).append hsuffix⟩
  unfold attributeVar
  rw [String.toList_append, String.toList_ofList]
  simp only [String.reduceToList, List.cons_append, List.nil_append]

/-- A variable that generated code defines for itself: what a table has for a value, or the value of
an attribute, or what an attribute's code computes ahead of a table. -/
inductive IsDefinition : String → Prop where
  | term (k : Nat) : IsDefinition (termVar k)
  | value (p : Path) (k : Nat) : IsDefinition (attributeVar p k)
  | code (p : Path) (k : Nat) : IsDefinition (attributeVar p k ++ "_code")

/-- A name that generated code introduces or calls: a variable that it defines or the function of a
table. -/
inductive IsOwn : String → Prop where
  | definition {x : String} (h : IsDefinition x) : IsOwn x
  | lookup (k : Nat) : IsOwn (lookupName k)

theorem IsDefinition.ne_joinVar {x : String} (h : IsDefinition x) (k : Nat) : x ≠ joinVar k := by
  intro hx
  have hl := congrArg String.toList hx
  cases h with
  | term j => simp [toList_termVar, toList_joinVar] at hl
  | value p j =>
    obtain ⟨r, hr, -⟩ := toList_attributeVar p j
    simp [hr, toList_joinVar] at hl
  | code p j =>
    obtain ⟨r, hr, -⟩ := toList_attributeVar p j
    simp [hr, toList_joinVar] at hl

end Emission

/-! ### Plain names -/

open Text

theorem isPlainName_candidate (t : Tag) (j : Nat) :
    isPlainName (Scopes.candidate (Scopes.baseName t) j) = true := by
  have hbase : isPlainName (Scopes.baseName t) = true := by
    have hword : IsWord (Scopes.baseChars t) := by
      rw [Scopes.baseChars]
      refine IsWord.append ?_ (isWord_sanitize _)
      split
      · decide
      · intro c hc; cases hc
    rw [isPlainName, Scopes.toList_baseName]
    simp only [Bool.and_eq_true, List.all_eq_true]
    exact ⟨rfl, hword⟩
  cases j with
  | zero => exact hbase
  | succ j =>
    rw [Scopes.candidate_succ]
    exact isPlainName_append (isPlainName_append hbase (by decide)) (isWord_numeral _)

theorem isPlainName_attributeVar (p : Path) (k : Nat) : isPlainName (attributeVar p k) = true := by
  have hsteps : IsWord (p.tags.flatMap attributeStep) := by
    intro c hc
    obtain ⟨t, -, hc⟩ := List.mem_flatMap.mp hc
    rcases List.mem_cons.mp hc with rfl | hc
    · rfl
    · exact isWord_sanitize _ c (mem_of_mem_strip hc)
  have hsuffix : IsWord (if k = 0 then "" else "_" ++ toString (k + 1)).toList := by
    split
    · intro c hc; simp at hc
    · rw [String.toList_append]
      exact IsWord.append (by decide) (isWord_numeral _)
  unfold attributeVar
  refine isPlainName_append ?_ hsuffix
  rw [String.ofList_append, String.ofList_toList]
  exact isPlainName_append (by decide) (by rwa [String.toList_ofList])

theorem Emission.IsOwn.isPlainName {x : String} (h : IsOwn x) : isPlainName x = true := by
  cases h with
  | lookup k => exact isPlainName_append (by decide) (isWord_numeral k)
  | definition h =>
    cases h with
    | term k => exact isPlainName_append (by decide) (isWord_numeral k)
    | value p k => exact isPlainName_attributeVar p k
    | code p k => exact isPlainName_append (isPlainName_attributeVar p k) (by decide)

/-! ### Source tags that spell generated names -/

/-- Whether the variable named after a source tag may be one that generated code names itself. -/
inductive Tag.SpellsGenerated (t : Tag) : Prop where
  | join (k : Nat) (h : Scopes.baseName t = joinVar k)
  | term (k : Nat) (h : Scopes.baseName t = termVar k)
  | value (h : Scopes.baseName t = "_attr")
  | step (h : "_attr_".toList <+: (Scopes.baseName t).toList)

namespace Scopes

/-- A candidate with no underscore but the one in front is the base name. -/
theorem candidate_eq_baseName {t : Tag} {j : Nat} {cs : List Char}
    (h : (candidate (baseName t) j).toList = '_' :: cs) (hcs : '_' ∉ cs) :
    candidate (baseName t) j = baseName t := by
  obtain ⟨u, hu, rfl | ⟨v, rfl⟩⟩ := toList_candidate (baseName t) j
  · rw [List.append_nil] at hu; exact String.toList_injective hu
  · rw [hu, toList_baseName, List.cons_append, List.cons.injEq] at h
    exact absurd (h.2 ▸ by simp) hcs

theorem baseName_eq_joinVar {t : Tag} {j k : Nat} (h : candidate (baseName t) j = joinVar k) :
    baseName t = joinVar k := by
  have hl := congrArg String.toList h
  rw [toList_joinVar] at hl
  exact candidate_eq_baseName hl (by simp) ▸ h

theorem spellsGenerated_of_eq_joinVar {t : Tag} {j k : Nat}
    (h : candidate (baseName t) j = joinVar k) : t.SpellsGenerated :=
  .join k (baseName_eq_joinVar h)

theorem spellsGenerated_of_eq_termVar {t : Tag} {j k : Nat}
    (h : candidate (baseName t) j = termVar k) : t.SpellsGenerated := by
  have hl := congrArg String.toList h
  rw [toList_termVar] at hl
  exact .term k (candidate_eq_baseName hl (by simp) ▸ h)

/-- A candidate that goes on after `_attr` with an underscore, if at all, has a base that does. -/
theorem spellsGenerated_of_attr {t : Tag} {j : Nat} {r : List Char} (hr : IsContinuation r)
    (h : (candidate (baseName t) j).toList = '_' :: ("attr".toList ++ r)) : t.SpellsGenerated := by
  obtain ⟨u, hu, hcont⟩ := toList_candidate (baseName t) j
  have hb := toList_baseName t
  rw [hu, hb, List.cons_append, List.cons.injEq] at h
  rcases List.append_eq_append_iff.mp h.2 with ⟨s, hs, rfl⟩ | ⟨s, hs, rfl⟩
  · -- The base ends within `attr`, where no underscore could follow it.
    rcases hcont with hnil | ⟨v, hv⟩
    · obtain ⟨rfl, -⟩ := List.append_eq_nil_iff.mp hnil
      refine .value (String.toList_injective ?_)
      rw [hb, ← List.append_nil (baseChars t), ← hs]; rfl
    · rcases s with _ | ⟨c, s⟩
      · refine .value (String.toList_injective ?_)
        rw [hb, ← List.append_nil (baseChars t), ← hs]; rfl
      · obtain ⟨rfl, -⟩ := List.cons.inj hv
        exact absurd (hs ▸ List.mem_append_right _ List.mem_cons_self : '_' ∈ "attr".toList)
          (by decide)
  · rcases s with _ | ⟨c, s⟩
    · refine .value (String.toList_injective ?_)
      rw [hb, hs, List.append_nil]; rfl
    · obtain ⟨v, hv⟩ := hr.resolve_left (by simp)
      obtain ⟨rfl, -⟩ := List.cons.inj hv
      refine .step ⟨s, ?_⟩
      rw [hb, hs]; rfl

/-- Only a tag that spells a generated name has a candidate that generated code defines. -/
theorem spellsGenerated_of_isDefinition {t : Tag} {j : Nat} {x : String}
    (hx : candidate (baseName t) j = x) (h : IsDefinition x) : t.SpellsGenerated := by
  cases h with
  | term k => exact spellsGenerated_of_eq_termVar hx
  | value p k =>
    obtain ⟨r, hr, hcont⟩ := toList_attributeVar p k
    exact spellsGenerated_of_attr hcont (hx ▸ hr)
  | code p k =>
    obtain ⟨r, hr, hcont⟩ := toList_attributeVar p k
    refine spellsGenerated_of_attr (hcont.append (isContinuation_cons "code".toList)) (j := j) ?_
    rw [hx, String.toList_append, hr]; rfl

end Scopes

end Crosswalk
