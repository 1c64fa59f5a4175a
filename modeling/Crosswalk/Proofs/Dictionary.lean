import Crosswalk.Dictionary
import Crosswalk.Proofs.SortedMap
import Crosswalk.Proofs.Trimming

/-!
Dictionaries as maps on normalized values. Whatever has been done to a dictionary, its keys are
normalized; so a look-up sees what was bound last to a value, in whatever blanks, and an empty term
as none. Rebuilding goes by the values that are observed now: these are the keys, each with the term
that it had, if any, and else its initial one. So it keeps what it has decided, and neither the order
of the values nor their repetitions matter.
-/

namespace Crosswalk

theorem normalize_normalize (value : String) : normalize (normalize value) = normalize value :=
  Text.trim_trim value

namespace Dictionary

variable {d : Dictionary} {values : List String} {vocabulary : Option Vocabulary}
  {key value other term : String}

/-! ### What the operations bind -/

/-- Of what is observed all but the blank values are keys, each with its initial term. -/
theorem find?_ofValues : (ofValues values vocabulary).table.find? key = some term ↔
    (key ≠ "" ∧ key ∈ values.map normalize) ∧ initialTerm vocabulary key = term := by
  rw [ofValues, SortedMap.find?_ofList_map, List.mem_filter, decide_eq_true_eq,
    and_comm (a := key ∈ values.map normalize)]

theorem mem_keys_ofValues : key ∈ (ofValues values vocabulary).table.keys ↔
    key ≠ "" ∧ key ∈ values.map normalize := by
  simp [SortedMap.mem_keys_iff, find?_ofValues]

theorem find?_ofValues_of_mem (h : key ∈ (ofValues values vocabulary).table.keys) :
    (ofValues values vocabulary).table.find? key = some (initialTerm vocabulary key) :=
  find?_ofValues.mpr ⟨mem_keys_ofValues.mp h, rfl⟩

theorem mem_keys_insert : key ∈ (d.insert value term).1.table.keys ↔
    key = normalize value ∨ key ∈ d.table.keys := by
  rw [SortedMap.mem_keys_iff, SortedMap.mem_keys_iff, insert]
  by_cases hkey : key = normalize value
  · simp [hkey, SortedMap.find?_insert_self]
  · simp [hkey, SortedMap.find?_insert_of_ne hkey]

theorem keys_rebuild :
    (d.rebuild values vocabulary).table.keys = (ofValues values vocabulary).table.keys := by
  simp [rebuild, SortedMap.keys, SortedMap.mapValues]

/-- A key that is observed keeps the term that it has. -/
theorem find?_rebuild_of_mem (h : key ∈ (ofValues values vocabulary).table.keys) :
    (d.rebuild values vocabulary).table.find? key =
      some ((d.table.find? key).getD (initialTerm vocabulary key)) := by
  rw [rebuild, SortedMap.find?_mapValues, find?_ofValues_of_mem h, Option.map_some]

theorem mem_keys_of_withTerm (h : key ∈ (d.withTerm term).table.keys) : key ∈ d.table.keys :=
  (List.filter_sublist.map Prod.fst).subset h

/-! ### Keys -/

/-- The dictionaries that are built from values or pairs, and what is made of them. -/
inductive Obtained : Dictionary → Prop
  | ofValues (values : List String) (vocabulary : Option Vocabulary) :
    Obtained (ofValues values vocabulary)
  | ofPairs (pairs : List (String × String)) : Obtained (ofPairs pairs)
  | insert {d : Dictionary} (h : Obtained d) (value term : String) : Obtained (d.insert value term).1
  | rebuild {d : Dictionary} (h : Obtained d) (values : List String)
    (vocabulary : Option Vocabulary) : Obtained (d.rebuild values vocabulary)
  | withTerm {d : Dictionary} (h : Obtained d) (term : String) : Obtained (d.withTerm term)

/-- Whether the keys are in the form in which values are compared. -/
def Normalized (d : Dictionary) : Prop := ∀ key ∈ d.table.keys, normalize key = key

theorem normalized_ofValues : (ofValues values vocabulary).Normalized := by
  intro key hkey
  obtain ⟨value, -, rfl⟩ := List.mem_map.mp (mem_keys_ofValues.mp hkey).2
  exact normalize_normalize value

theorem Normalized.insert (h : d.Normalized) : (d.insert value term).1.Normalized := by
  intro key hkey
  rcases mem_keys_insert.mp hkey with rfl | hkey
  · exact normalize_normalize value
  · exact h key hkey

theorem Obtained.normalized (h : Obtained d) : d.Normalized := by
  induction h with
  | ofValues values vocabulary => exact normalized_ofValues
  | ofPairs pairs =>
    have hempty : empty.Normalized := fun key hkey => by cases hkey
    exact List.foldlRecOn pairs _ hempty fun d hd pair _ => hd.insert
  | insert _ value term ih => exact ih.insert
  | rebuild _ values vocabulary _ =>
    intro key hkey
    rw [keys_rebuild] at hkey
    exact normalized_ofValues key hkey
  | withTerm _ term ih => exact fun key hkey => ih key (mem_keys_of_withTerm hkey)

/-! ### Looking values up -/

theorem lookup?_eq_some_iff : d.lookup? value = some term ↔
    d.table.find? (normalize value) = some term ∧ term ≠ "" := by
  simp [lookup?, Option.filter_eq_some_iff]

/-- The entries of a table are what the dictionary has for the values. -/
theorem mem_decided_iff : (normalize value, term) ∈ d.decided ↔ d.lookup? value = some term := by
  rw [lookup?_eq_some_iff, SortedMap.find?_eq_some_iff, decided, SortedMap.filter, List.mem_filter]
  simp

theorem lookup?_withTerm : (d.withTerm other).lookup? value = some term ↔
    d.lookup? value = some term ∧ term = other := by
  rw [← mem_decided_iff, ← mem_decided_iff, decided, decided, withTerm]
  simp only [SortedMap.filter, List.mem_filter, beq_iff_eq]
  exact and_right_comm

/-- Without a vocabulary every value that is observed and not blank stands for itself. -/
theorem lookup?_ofValues : (ofValues values none).lookup? value = some term ↔
    (normalize value ≠ "" ∧ normalize value ∈ values.map normalize) ∧ normalize value = term := by
  rw [lookup?_eq_some_iff, find?_ofValues, initialTerm]
  exact ⟨fun h => h.1, fun h => ⟨h, h.2 ▸ h.1.1⟩⟩

theorem lookup?_insert : (d.insert value term).1.lookup? other =
    if normalize other = normalize value then (if term = "" then none else some term)
    else d.lookup? other := by
  rw [lookup?, insert]
  split
  · next hkey =>
    rw [hkey, SortedMap.find?_insert_self, Option.filter_some]
    simp
  · next hkey => rw [SortedMap.find?_insert_of_ne hkey, lookup?]

/-- The keys of a dictionary are normalized, and it is a map on normalized values: what is built from
observed values finds these, what is bound is found under every spelling of the value unless it is
empty, and of the entries with one term just these are found. -/
theorem lookup_laws (h : Obtained d) :
    (∀ key ∈ d.table.keys, normalize key = key) ∧
    (∀ values value, (ofValues values none).lookup? value =
      if normalize value ≠ "" ∧ normalize value ∈ values.map normalize then some (normalize value)
      else none) ∧
    (∀ value term other, (d.insert value term).1.lookup? other =
      if normalize other = normalize value then (if term = "" then none else some term)
      else d.lookup? other) ∧
    ∀ term value, (d.withTerm term).lookup? value =
      if d.lookup? value = some term then some term else none := by
  refine ⟨h.normalized, fun values value => Option.ext fun found => ?_,
    fun _ _ _ => lookup?_insert, fun term value => Option.ext fun found => ?_⟩
  · rw [lookup?_ofValues, Option.ite_none_right_eq_some, Option.some.injEq]
  · rw [lookup?_withTerm, Option.ite_none_right_eq_some, Option.some.injEq, eq_comm (a := term)]
    exact and_congr_left fun hterm => by rw [hterm]

/-- Bindings of a value in two spellings, the latter without a term. -/
theorem lookup_laws_spellings :
    let d := ((ofPairs [(" map\t", "Atlas"), ("", "none")]).insert "map" "").1
    Obtained d ∧ d.table.keys = ["", "map"] ∧ (∀ key ∈ d.table.keys, normalize key = key) ∧
      (d.insert "\u3000map" "Map").1.lookup? " map" = some "Map" ∧
      (d.insert " map" "").1.lookup? "\t" = some "none" := by
  intro d
  have hd : Obtained d := (Obtained.ofPairs _).insert _ _
  obtain ⟨hkeys, -, hinsert, -⟩ := lookup_laws hd
  exact ⟨hd, by decide +kernel, hkeys, (hinsert ..).trans (by decide +kernel),
    (hinsert ..).trans (by decide +kernel)⟩

/-! ### Rebuilding -/

/-- What is rebuilt depends on the values that are observed, and on the terms that these have. -/
theorem rebuild_congr {d' : Dictionary} {values' : List String}
    (hkeys : ∀ key, key ∈ (ofValues values' vocabulary).table.keys ↔
      key ∈ (ofValues values vocabulary).table.keys)
    (hterms : ∀ key ∈ (ofValues values vocabulary).table.keys,
      (d'.table.find? key).getD (initialTerm vocabulary key) =
        (d.table.find? key).getD (initialTerm vocabulary key)) :
    d'.rebuild values' vocabulary = d.rebuild values vocabulary := by
  have htables : (d'.rebuild values' vocabulary).table = (d.rebuild values vocabulary).table := by
    refine SortedMap.ext_find? fun key => ?_
    by_cases hkey : key ∈ (ofValues values vocabulary).table.keys
    · rw [find?_rebuild_of_mem hkey, find?_rebuild_of_mem ((hkeys key).mpr hkey), hterms key hkey]
    · have hnone : key ∉ (d.rebuild values vocabulary).table.keys := keys_rebuild ▸ hkey
      have hnone' : key ∉ (d'.rebuild values' vocabulary).table.keys :=
        keys_rebuild ▸ mt (hkeys key).mp hkey
      rw [SortedMap.mem_keys_iff, ← Option.ne_none_iff_exists', not_not] at hnone hnone'
      rw [hnone, hnone']
  exact congrArg Dictionary.mk htables

/-- A rebuilt dictionary has the observed values that are not blank as its keys, with the terms that
they had and the initial ones of the others. Rebuilding it again changes nothing, nor does another
order of the values or a repetition. -/
theorem rebuild_laws (d : Dictionary) (values : List String) (vocabulary : Option Vocabulary) :
    (∀ key, key ∈ (d.rebuild values vocabulary).table.keys ↔
      key ≠ "" ∧ key ∈ values.map normalize) ∧
    (∀ key ∈ (d.rebuild values vocabulary).table.keys, ∀ term, d.table.find? key = some term →
      (d.rebuild values vocabulary).table.find? key = some term) ∧
    (∀ key ∈ (d.rebuild values vocabulary).table.keys, d.table.find? key = none →
      (d.rebuild values vocabulary).table.find? key =
        (ofValues values vocabulary).table.find? key) ∧
    (d.rebuild values vocabulary).rebuild values vocabulary = d.rebuild values vocabulary ∧
    ∀ values', (∀ value, value ∈ values' ↔ value ∈ values) →
      d.rebuild values' vocabulary = d.rebuild values vocabulary := by
  rw [keys_rebuild]
  refine ⟨fun _ => mem_keys_ofValues, fun key hkey term hterm => ?_, fun key hkey hnone => ?_, ?_,
    fun values' hvalues => ?_⟩
  · rw [find?_rebuild_of_mem hkey, hterm, Option.getD_some]
  · rw [find?_rebuild_of_mem hkey, find?_ofValues_of_mem hkey, hnone, Option.getD_none]
  · refine rebuild_congr (fun _ => Iff.rfl) fun key hkey => ?_
    rw [find?_rebuild_of_mem hkey, Option.getD_some]
  · refine rebuild_congr (fun key => ?_) fun _ _ => rfl
    rw [mem_keys_ofValues, mem_keys_ofValues]
    simp [hvalues]

end Dictionary

end Crosswalk
