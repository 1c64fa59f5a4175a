import Crosswalk.Proofs.Path
import Crosswalk.Proofs.Resolution
import Mathlib.Data.List.Nodup
import Mathlib.Order.Bounds.Basic

/-!
The check of a vocabulary is exact: what it refuses is refused for the first cause, in the order of
the choices and then of the fixed fields. A choice clashes with the earlier ones if its value is one
of their values, or its variant key is one of their variant keys; the first choice that clashes
decides, and its value goes before its key. So the error of a refused vocabulary is read off the
positions of its choices, with no account of what the check has seen.
-/

namespace Crosswalk

/-! ### Repetitions in a list -/

/-- Whether a text stands at a position of a list and at an earlier one. -/
def RepeatsAt (texts : List String) (i : Nat) (s : String) : Prop :=
  texts[i]? = some s ∧ ∃ j < i, texts[j]? = some s

namespace RepeatsAt

variable {texts before after : List String} {i : Nat} {s : String}

/-- The texts up to a position differ from one another if none of them is a repetition. -/
theorem nodup_take_iff :
    (texts.take i).Nodup ↔ ∀ k < i, ∀ s, ¬ RepeatsAt texts k s := by
  rw [List.nodup_iff_getElem?_ne_getElem?]
  constructor
  · rintro hne k hk s ⟨hs, j, hj, hs'⟩
    have hlt : k < texts.length := (List.getElem?_eq_some_iff.mp hs).1
    refine hne j k hj (by rw [List.length_take]; omega) ?_
    rw [List.getElem?_take_of_lt (hj.trans hk), List.getElem?_take_of_lt hk, hs, hs']
  · intro hnone j k hj hk heq
    rw [List.length_take] at hk
    have hk' : k < texts.length := by omega
    rw [List.getElem?_take_of_lt (by omega), List.getElem?_take_of_lt (by omega)] at heq
    have hs := List.getElem?_eq_getElem hk'
    exact hnone k (by omega) texts[k] ⟨hs, j, hj, heq.trans hs⟩

theorem nodup_iff : texts.Nodup ↔ ∀ i s, ¬ RepeatsAt texts i s := by
  constructor
  · rintro hnodup i s ⟨hs, j, hj, hs'⟩
    have hi : i < texts.length := (List.getElem?_eq_some_iff.mp hs).1
    exact List.nodup_iff_getElem?_ne_getElem?.mp hnodup j i hj hi (hs'.trans hs.symm)
  · intro hnone
    rw [← List.take_length (l := texts)]
    exact nodup_take_iff.mpr fun k _ => hnone k

/-- A text repeats at its position if it is among those before it. -/
theorem length_iff {t : String} :
    RepeatsAt (before ++ t :: after) before.length s ↔ t = s ∧ s ∈ before := by
  rw [RepeatsAt, List.getElem?_append_right (Nat.le_refl _), Nat.sub_self, List.getElem?_cons_zero,
    Option.some.injEq, List.mem_iff_getElem?]
  refine and_congr_right fun _ => ⟨?_, ?_⟩
  · rintro ⟨j, hj, hs⟩
    exact ⟨j, (List.getElem?_append_left hj).symm.trans hs⟩
  · rintro ⟨j, hs⟩
    have hj : j < before.length := (List.getElem?_eq_some_iff.mp hs).1
    exact ⟨j, hj, (List.getElem?_append_left hj).trans hs⟩

end RepeatsAt

namespace Vocabulary

/-! ### What a vocabulary is refused for -/

/-- The positions of the choices that clash with earlier ones, by value or by variant key. -/
def clashes (v : Vocabulary) : Set Nat :=
  {i | (∃ s, RepeatsAt (v.choices.map Choice.value) i s) ∨
    ∃ s, RepeatsAt (v.choices.map Choice.variantKey) i s}

/-- Whether a path is a strict descendant of the root: it is longer and begins with the root. -/
def Encloses (v : Vocabulary) (p : Path) : Prop :=
  ∃ ts, ts ≠ [] ∧ p.tags = v.root.tags ++ ts

/-- The error of a choice that clashes with earlier ones. Its value goes before its variant key. -/
inductive ClashAt (v : Vocabulary) (i : Nat) : VocabularyError → Prop where
  | value (s : String) (hvalue : RepeatsAt (v.choices.map Choice.value) i s) :
      ClashAt v i (.duplicateValue v.root s)
  | key (s : String) (hfresh : ∀ s, ¬ RepeatsAt (v.choices.map Choice.value) i s)
      (hkey : RepeatsAt (v.choices.map Choice.variantKey) i s) :
      ClashAt v i (.duplicateKey v.root s)

/-- The cause for which a vocabulary is refused. -/
inductive Refused (v : Vocabulary) : VocabularyError → Prop where
  | empty (hnone : v.choices = []) : Refused v (.empty v.root)
  | clash (i : Nat) (e : VocabularyError) (hfirst : IsLeast v.clashes i) (hclash : v.ClashAt i e) :
      Refused v e
  | outside (before after : List Path) (p : Path) (hsome : v.choices ≠ [])
      (hdistinct : v.clashes = ∅) (hfields : v.declaredFields = before ++ p :: after)
      (hbefore : ∀ q ∈ before, v.Encloses q) (houtside : ¬ v.Encloses p) :
      Refused v (.outsideRoot v.root p)

theorem isAncestorOf_root_iff {v : Vocabulary} {p : Path} :
    v.root.isAncestorOf p = true ↔ v.Encloses p :=
  Path.isAncestorOf_iff

/-! ### The choices -/

section Choices

variable {root : Path} {seen before cs : List Choice} {c : Choice} {e : VocabularyError}

/-- The error for a choice after others. -/
inductive Clash (root : Path) (seen : List Choice) (c : Choice) : VocabularyError → Prop where
  | value (hvalue : c.value ∈ seen.map Choice.value) : Clash root seen c (.duplicateValue root c.value)
  | key (hfresh : c.value ∉ seen.map Choice.value) (hkey : c.variantKey ∈ seen.map Choice.variantKey) :
      Clash root seen c (.duplicateKey root c.variantKey)

/-- The check goes on with what is left when it has accepted some choices. -/
theorem checkChoices_append : ∀ seen : List Choice,
    checkChoices root (seen.map Choice.value) (seen.map Choice.variantKey) (before ++ cs) = (do
      checkChoices root (seen.map Choice.value) (seen.map Choice.variantKey) before
      checkChoices root ((before.reverse ++ seen).map Choice.value)
        ((before.reverse ++ seen).map Choice.variantKey) cs) := by
  induction before with
  | nil => intro seen; rfl
  | cons c before ih =>
    intro seen
    rw [List.cons_append, checkChoices, checkChoices]
    split
    · rfl
    · split
      · rfl
      · rw [List.reverse_cons, List.append_assoc]
        exact ih (c :: seen)

theorem checkChoices_of_clash (h : Clash root seen c e) :
    checkChoices root (seen.map Choice.value) (seen.map Choice.variantKey) (c :: cs) =
      .error e := by
  rw [checkChoices]
  cases h with
  | value hvalue => rw [if_pos hvalue]
  | key hfresh hkey => rw [if_neg hfresh, if_pos hkey]

/-- The check of choices stops at the first one that clashes with those before it. -/
theorem checkChoices_eq_error_iff : ∀ seen : List Choice,
    checkChoices root (seen.map Choice.value) (seen.map Choice.variantKey) cs = .error e ↔
      ∃ before c after, cs = before ++ c :: after ∧
        checkChoices root (seen.map Choice.value) (seen.map Choice.variantKey) before = .ok () ∧
        Clash root (before.reverse ++ seen) c e := by
  intro seen
  constructor
  · induction cs generalizing seen with
    | nil => intro h; cases h
    | cons c cs ih =>
      intro h
      rw [checkChoices] at h
      split at h
      · next hvalue =>
        obtain rfl := Except.error.inj h
        exact ⟨[], c, cs, rfl, rfl, .value hvalue⟩
      · next hfresh =>
        split at h
        · next hkey =>
          obtain rfl := Except.error.inj h
          exact ⟨[], c, cs, rfl, rfl, .key hfresh hkey⟩
        · next hfresh' =>
          obtain ⟨before, d, after, rfl, hbefore, hclash⟩ := ih (c :: seen) h
          refine ⟨c :: before, d, after, rfl, ?_, ?_⟩
          · rw [checkChoices, if_neg hfresh, if_neg hfresh']
            exact hbefore
          · rw [List.reverse_cons, List.append_assoc]
            exact hclash
  · rintro ⟨before, c, after, rfl, hbefore, hclash⟩
    rw [checkChoices_append, hbefore]
    exact checkChoices_of_clash hclash

end Choices

/-! ### Clashes by position -/

variable {v : Vocabulary} {e : VocabularyError}

theorem notMem_clashes_iff {i : Nat} :
    i ∉ v.clashes ↔ (∀ s, ¬ RepeatsAt (v.choices.map Choice.value) i s) ∧
      ∀ s, ¬ RepeatsAt (v.choices.map Choice.variantKey) i s := by
  rw [clashes, Set.mem_ofPred_eq, not_or, not_exists, not_exists]

/-- A vocabulary has no clash if its values differ from one another and its variant keys too. -/
theorem clashes_eq_empty_iff :
    v.clashes = ∅ ↔
      (v.choices.map Choice.value).Nodup ∧ (v.choices.map Choice.variantKey).Nodup := by
  rw [Set.eq_empty_iff_forall_notMem, RepeatsAt.nodup_iff, RepeatsAt.nodup_iff, ← forall_and]
  exact forall_congr' fun i => notMem_clashes_iff

/-- The choices up to a position have no clash if the check accepts them. -/
theorem checkChoices_take_iff {i : Nat} :
    checkChoices v.root [] [] (v.choices.take i) = .ok () ↔ ∀ k < i, k ∉ v.clashes := by
  rw [checkChoices_eq_ok_iff, List.map_take, List.map_take, RepeatsAt.nodup_take_iff,
    RepeatsAt.nodup_take_iff]
  simp only [notMem_clashes_iff, List.not_mem_nil, not_false_eq_true, implies_true, true_and,
    and_true]
  exact ⟨fun h k hk => ⟨h.1 k hk, h.2 k hk⟩, fun h => ⟨fun k hk => (h k hk).1, fun k hk => (h k hk).2⟩⟩

theorem ClashAt.mem_clashes {i : Nat} (h : v.ClashAt i e) : i ∈ v.clashes := by
  cases h with
  | value s hvalue => exact .inl ⟨s, hvalue⟩
  | key s _ hkey => exact .inr ⟨s, hkey⟩

theorem lt_length_of_mem_clashes {i : Nat} (h : i ∈ v.clashes) : i < v.choices.length := by
  obtain ⟨s, hs, -⟩ | ⟨s, hs, -⟩ := h
  all_goals
    have := (List.getElem?_eq_some_iff.mp hs).1
    rwa [List.length_map] at this

/-- A choice clashes with the ones before it if it clashes at its position. -/
theorem clash_iff {before after : List Choice} {c : Choice}
    (hchoices : v.choices = before ++ c :: after) :
    Clash v.root before.reverse c e ↔ v.ClashAt before.length e := by
  have hrepeats (f : Choice → String) (s : String) :
      RepeatsAt (v.choices.map f) before.length s ↔ f c = s ∧ s ∈ before.map f := by
    have hlength : before.length = (before.map f).length := (List.length_map f).symm
    rw [hchoices, List.map_append, List.map_cons, hlength]
    exact RepeatsAt.length_iff
  constructor
  · rintro (hseen | ⟨hfresh, hseen⟩)
    · exact .value _ ((hrepeats _ _).mpr ⟨rfl, by simpa using hseen⟩)
    · refine .key _ (fun s hs => hfresh ?_) ((hrepeats _ _).mpr ⟨rfl, by simpa using hseen⟩)
      obtain ⟨rfl, hseen⟩ := (hrepeats _ s).mp hs
      simpa using hseen
  · rintro (⟨s, hs⟩ | ⟨s, hfresh, hs⟩)
    · obtain ⟨rfl, hseen⟩ := (hrepeats _ s).mp hs
      exact .value (by simpa using hseen)
    · obtain ⟨rfl, hseen⟩ := (hrepeats _ s).mp hs
      refine .key (fun h => hfresh c.value ((hrepeats _ _).mpr ⟨rfl, ?_⟩)) (by simpa using hseen)
      simpa using h

/-- The check of choices fails at the first position with a clash. -/
theorem checkChoices_eq_error_iff_clashAt :
    checkChoices v.root [] [] v.choices = .error e ↔
      ∃ i, IsLeast v.clashes i ∧ v.ClashAt i e := by
  refine (checkChoices_eq_error_iff []).trans ⟨?_, ?_⟩
  · rintro ⟨before, c, after, hchoices, hbefore, hclash⟩
    rw [List.append_nil, clash_iff hchoices] at hclash
    refine ⟨before.length, ⟨hclash.mem_clashes, fun k hk => ?_⟩, hclash⟩
    have htake : v.choices.take before.length = before := by rw [hchoices, List.take_left]
    rw [← htake] at hbefore
    by_contra hlt
    exact checkChoices_take_iff.mp hbefore k (by omega) hk
  · rintro ⟨i, ⟨hmem, hleast⟩, hclash⟩
    have hi := lt_length_of_mem_clashes hmem
    have hchoices : v.choices = v.choices.take i ++ v.choices[i] :: v.choices.drop (i + 1) := by
      rw [← List.drop_eq_getElem_cons hi, List.take_append_drop]
    refine ⟨_, _, _, hchoices, checkChoices_take_iff.mpr fun k hk hk' => ?_, ?_⟩
    · exact absurd (hleast hk') (by omega)
    · rw [List.append_nil, clash_iff hchoices, List.length_take_of_le (by omega)]
      exact hclash

/-! ### The fixed fields -/

/-- The check of fixed fields fails at the first one that is not beneath the root. -/
theorem checkFields_eq_error_iff {root : Path} {ps : List Path} :
    checkFields root ps = .error e ↔ ∃ before p after, ps = before ++ p :: after ∧
      (∀ q ∈ before, root.isAncestorOf q = true) ∧ ¬ root.isAncestorOf p = true ∧
        e = .outsideRoot root p := by
  constructor
  · induction ps with
    | nil => intro h; cases h
    | cons p ps ih =>
      intro h
      rw [checkFields] at h
      split at h
      · next hp =>
        obtain ⟨before, q, after, rfl, hbefore, hq, he⟩ := ih h
        exact ⟨p :: before, q, after, rfl, List.forall_mem_cons.mpr ⟨hp, hbefore⟩, hq, he⟩
      · next hp => exact ⟨[], p, ps, rfl, by simp, hp, (Except.error.inj h).symm⟩
  · rintro ⟨before, p, after, rfl, hbefore, hp, rfl⟩
    induction before with
    | nil => rw [List.nil_append, checkFields, if_neg hp]
    | cons q before ih =>
      rw [List.forall_mem_cons] at hbefore
      rw [List.cons_append, checkFields, if_pos hbefore.1]
      exact ih hbefore.2

/-! ### The whole check -/

theorem validate_of_nil (h : v.choices = []) : v.validate = .error (.empty v.root) := by
  rw [validate, h]
  rfl

theorem validate_of_ne_nil (h : v.choices ≠ []) :
    v.validate = (do
      checkChoices v.root [] [] v.choices
      checkFields v.root v.declaredFields) := by
  rw [validate, if_neg (by rwa [List.isEmpty_iff])]
  rfl

/-- A vocabulary is refused if it has no choices, if its choices are refused, or else if its fixed
fields are. -/
theorem validate_eq_error_iff : v.validate = .error e ↔
    (v.choices = [] ∧ e = .empty v.root) ∨ checkChoices v.root [] [] v.choices = .error e ∨
      (v.choices ≠ [] ∧ checkChoices v.root [] [] v.choices = .ok () ∧
        checkFields v.root v.declaredFields = .error e) := by
  by_cases hnil : v.choices = []
  · rw [validate_of_nil hnil, Except.error.injEq, hnil, checkChoices]
    simp [eq_comm]
  · rw [validate_of_ne_nil hnil, bind_eq_error_iff]
    constructor
    · rintro (hchoices | ⟨_, hchoices, hfields⟩)
      · exact .inr (.inl hchoices)
      · exact .inr (.inr ⟨hnil, hchoices, hfields⟩)
    · rintro (⟨hnone, -⟩ | hchoices | ⟨-, hchoices, hfields⟩)
      · exact absurd hnone hnil
      · exact .inl hchoices
      · exact .inr ⟨(), hchoices, hfields⟩

/-- The errors of the check are the causes for which a vocabulary is refused. -/
theorem validate_eq_error_iff_refused : v.validate = .error e ↔ v.Refused e := by
  have hdistinct : checkChoices v.root [] [] v.choices = .ok () ↔ v.clashes = ∅ := by
    rw [checkChoices_eq_ok_iff, clashes_eq_empty_iff]
    simp
  rw [validate_eq_error_iff, checkChoices_eq_error_iff_clashAt, hdistinct, checkFields_eq_error_iff]
  simp only [isAncestorOf_root_iff]
  constructor
  · rintro (⟨hnone, rfl⟩ | ⟨i, hfirst, hclash⟩ |
      ⟨hsome, hempty, before, p, after, hfields, hbefore, houtside, rfl⟩)
    · exact .empty hnone
    · exact .clash i e hfirst hclash
    · exact .outside before after p hsome hempty hfields hbefore houtside
  · rintro (hnone | ⟨i, _, hfirst, hclash⟩ |
      ⟨before, after, p, hsome, hempty, hfields, hbefore, houtside⟩)
    · exact .inl ⟨hnone, rfl⟩
    · exact .inr (.inl ⟨i, hfirst, hclash⟩)
    · exact .inr (.inr ⟨hsome, hempty, before, p, after, hfields, hbefore, houtside, rfl⟩)

/-- A vocabulary is accepted if it has choices, their values differ from one another, their variant
keys too, and its fixed fields are strict descendants of its root. Otherwise it is refused for the
first cause. -/
theorem validate_exact (v : Vocabulary) :
    (v.validate = .ok () ↔ v.choices ≠ [] ∧ (v.choices.map Choice.value).Nodup ∧
      (v.choices.map Choice.variantKey).Nodup ∧ ∀ p ∈ v.declaredFields, v.Encloses p) ∧
    ∀ e, v.validate = .error e ↔ v.Refused e := by
  refine ⟨?_, fun e => validate_eq_error_iff_refused⟩
  rw [validate_eq_ok_iff]
  simp only [← isAncestorOf_root_iff]
  constructor
  · rintro ⟨hsome, hvalues, hkeys, hbeneath⟩
    exact ⟨hsome, hvalues, hkeys, hbeneath⟩
  · rintro ⟨hsome, hvalues, hkeys, hbeneath⟩
    exact ⟨hsome, hvalues, hkeys, hbeneath⟩

end Vocabulary

end Crosswalk
