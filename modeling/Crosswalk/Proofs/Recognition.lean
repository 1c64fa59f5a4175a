import Crosswalk.Program.Emission
import Crosswalk.Proofs.Dictionary
import Crosswalk.Proofs.Validation

/-!
Vocabularies as the source of first terms. A value that is observed starts with the value of the
first choice that it names, by value or by key and in any case of ASCII letters. The check of a
vocabulary compares values with values and keys with keys, and letter for letter; so a choice of a
checked vocabulary may be named by the value of a later one. The value of a choice is then given to the
earlier choice, and the nodes that stand for its own have no entry for it.
-/

namespace Crosswalk

/-- Whether a text is the value or the key of a choice, up to the case of ASCII letters. -/
def Choice.IsNamedBy (c : Choice) (text : String) : Prop :=
  Text.asciiLower c.value = Text.asciiLower text ∨
    ∃ k, c.key = some k ∧ Text.asciiLower k = Text.asciiLower text

theorem Choice.isNamedBy_value (c : Choice) : c.IsNamedBy c.value := .inl rfl

namespace Dictionary

variable {v : Vocabulary} {values : List String} {value term : String}

theorem names_iff {c : Choice} : names value c = true ↔ c.IsNamedBy value := by
  rw [names, Bool.or_eq_true, Option.any_eq_true]
  simp only [Text.eqIgnoringCase, beq_iff_eq]
  rfl

/-- With a vocabulary a value that is observed and not blank stands for the value of the first choice
that it names. -/
theorem lookup?_ofValues_vocabulary : (ofValues values (some v)).lookup? value = some term ↔
    (normalize value ≠ "" ∧ normalize value ∈ values.map normalize) ∧ term ≠ "" ∧
      ∃ before c after, v.choices = before ++ c :: after ∧ c.IsNamedBy (normalize value) ∧
        c.value = term ∧ ∀ b ∈ before, ¬ b.IsNamedBy (normalize value) := by
  rw [lookup?_eq_some_iff, find?_ofValues, and_assoc]
  refine and_congr_right fun _ => ?_
  rw [and_comm]
  refine and_congr_right fun hterm => ?_
  rw [initialTerm]
  constructor
  · intro h
    cases hfind : v.choices.find? (names (normalize value)) with
    | none =>
      rw [hfind] at h
      exact absurd h.symm hterm
    | some c =>
      rw [hfind] at h
      obtain ⟨hc, before, after, hchoices, hbefore⟩ := List.find?_eq_some_iff_append.mp hfind
      refine ⟨before, c, after, hchoices, names_iff.mp hc, h, fun b hb => ?_⟩
      rw [← names_iff]
      simpa using hbefore b hb
  · rintro ⟨before, c, after, hchoices, hc, rfl, hbefore⟩
    have hfind : v.choices.find? (names (normalize value)) = some c := by
      refine List.find?_eq_some_iff_append.mpr ⟨names_iff.mpr hc, before, after, hchoices, ?_⟩
      intro b hb
      rw [Bool.not_eq_true', Bool.eq_false_iff, ne_eq, names_iff]
      exact hbefore b hb
    rw [hfind]
    rfl

/-- Choices of a checked vocabulary with one value are one choice at one place. -/
theorem split_eq_of_value {before after before' after' : List Choice} {c d : Choice}
    (hvalid : v.Valid) (hc : v.choices = before ++ c :: after)
    (hd : v.choices = before' ++ d :: after') (hvalue : d.value = c.value) :
    before' = before ∧ d = c := by
  obtain rfl : d = c :=
    List.inj_on_of_nodup_map hvalid.values (by simp [hd]) (by simp [hc]) hvalue
  have hnodup := hvalid.values.of_map
  rw [hc, List.nodup_middle, List.nodup_cons, List.mem_append, not_or] at hnodup
  have hsplit : before ++ d :: after = before' ++ d :: after' := hc.symm.trans hd
  obtain ⟨hbefore, -, -⟩ := (List.append_cons_inj_of_notMem hnodup.1.1 hnodup.1.2).mp hsplit
  exact ⟨hbefore.symm, rfl⟩

/-- The value of a choice of a checked vocabulary stands for itself, in the dictionary and in what a
node for the choice keeps of it, exactly if it names no choice before. -/
theorem recognises_iff {before after : List Choice} {c : Choice} (hvalid : v.validate = .ok ())
    (hchoices : v.choices = before ++ c :: after) (hne : c.value ≠ "")
    (htrimmed : normalize c.value = c.value) (hmem : c.value ∈ values) :
    ((ofValues values (some v)).lookup? c.value = some c.value ↔
      ∀ b ∈ before, ¬ b.IsNamedBy c.value) ∧
    ∀ n m, Node.rootMembership? n = some m → m.choice = c →
      ((Emission.dictionaryOf n (ofValues values (some v))).lookup? c.value = some c.value ↔
        ∀ b ∈ before, ¬ b.IsNamedBy c.value) := by
  have hfound : (ofValues values (some v)).lookup? c.value = some c.value ↔
      ∀ b ∈ before, ¬ b.IsNamedBy c.value := by
    rw [lookup?_ofValues_vocabulary, htrimmed]
    constructor
    · rintro ⟨-, -, before', d, after', hchoices', -, hvalue, hbefore'⟩
      obtain ⟨rfl, rfl⟩ := split_eq_of_value (Vocabulary.validate_eq_ok_iff.mp hvalid) hchoices
        hchoices' hvalue
      exact hbefore'
    · intro hbefore
      exact ⟨⟨hne, List.mem_map.mpr ⟨_, hmem, htrimmed⟩⟩, hne, before, c, after, hchoices,
        c.isNamedBy_value, rfl, hbefore⟩
  refine ⟨hfound, fun n m hroot hchoice => ?_⟩
  rw [Emission.dictionaryOf, hroot]
  dsimp only
  rw [lookup?_withTerm, hchoice, hfound, and_iff_left rfl]

/-- The vocabulary of some choices for the types of a record. -/
def recordTypes (choices : List Choice) : Vocabulary :=
  { dictionary := "types", root := .ofNames ["record", "type"], value := .elem none "type", choices }

/-- The node that stands for a choice of that vocabulary. -/
def recordTypeNode (choices : List Choice) (position : Nat) (choice : Choice) : Node :=
  { path := .ofNames ["record", "type"]
    tag := .elem none "type"
    leaf := true
    membership := some
      { role := .root, list := 0, position, vocabulary := recordTypes choices, choice } }

/-- A choice with a key before a choice that is not named by it. -/
theorem recordTypes_recognised :
    let book : Choice := { key := some "b", value := "Book" }
    let map : Choice := { value := "Map" }
    let d := ofValues [" map", "Map"] (some (recordTypes [book, map]))
    (recordTypes [book, map]).validate = .ok () ∧ d.lookup? "Map" = some "Map" ∧
      (Emission.dictionaryOf (recordTypeNode [book, map] 1 map) d).lookup? "Map" = some "Map" := by
  intro book map d
  have hvalid : (recordTypes [book, map]).validate = .ok () := by decide +kernel
  have hchoices : (recordTypes [book, map]).choices = [book] ++ map :: [] := rfl
  have hmem : map.value ∈ [" map", "Map"] := by decide
  have hfresh : ∀ b ∈ [book], ¬ b.IsNamedBy "Map" := by
    simp only [← names_iff]
    decide +kernel
  obtain ⟨hfound, hnode⟩ := recognises_iff hvalid hchoices (by decide) (by decide +kernel) hmem
  exact ⟨hvalid, hfound.mpr hfresh, (hnode (recordTypeNode [book, map] 1 map) _ rfl rfl).mpr hfresh⟩

/-- The value of a choice goes to an earlier one: to one whose value differs in case alone, and to one
whose key it is but for case. The node that stands for it has no entry left. -/
theorem recordTypes_unrecognised :
    let small : Choice := { value := "book" }
    let capital : Choice := { value := "Book" }
    let keyed : Choice := { key := some "map", value := "Atlas" }
    let map : Choice := { key := some "m", value := "Map" }
    let d := ofValues ["Book"] (some (recordTypes [small, capital]))
    let d' := ofValues ["Map"] (some (recordTypes [keyed, map]))
    normalize "Book" = "Book" ∧ normalize "Map" = "Map" ∧
    (recordTypes [small, capital]).validate = .ok () ∧ d.lookup? "Book" = some "book" ∧
      (Emission.dictionaryOf (recordTypeNode [small, capital] 1 capital) d).lookup? "Book" = none ∧
    (recordTypes [keyed, map]).validate = .ok () ∧ d'.lookup? "Map" = some "Atlas" ∧
      (Emission.dictionaryOf (recordTypeNode [keyed, map] 1 map) d').lookup? "Map" = none := by
  decide +kernel

end Dictionary

end Crosswalk
