import Crosswalk.Text.Blank
import Mathlib.Data.List.Basic

/-!
Trimming: what is dropped at the end of a text is a run of characters of the class, and what is left
ends in one that is not of it. So a text that has been trimmed is left as it is.
-/

namespace Crosswalk.Text

variable {p : Char → Bool} {c : Char} {as bs cs : List Char}

/-! ### Dropping at the end -/

theorem exists_dropEnd (p : Char → Bool) (cs : List Char) : ∃ back, cs = dropEnd p cs ++ back ∧
    ∀ c ∈ back, p c = true := by
  induction cs with
  | nil => exact ⟨[], rfl, by simp⟩
  | cons c cs ih =>
    obtain ⟨back, heq, hback⟩ := ih
    rw [dropEnd]
    split
    · next hnil =>
      rw [hnil, List.nil_append] at heq
      rw [heq]
      split
      · next hc => exact ⟨c :: back, rfl, List.forall_mem_cons.mpr ⟨hc, hback⟩⟩
      · exact ⟨back, rfl, hback⟩
    · next d ds hcons =>
      rw [hcons] at heq
      exact ⟨back, congrArg (c :: ·) heq, hback⟩

theorem dropEnd_append_cons (h : p c = false) :
    dropEnd p (as ++ c :: bs) = as ++ c :: dropEnd p bs := by
  induction as with
  | nil =>
    rw [List.nil_append, List.nil_append, dropEnd]
    split
    · next hnil => rw [h, hnil]; rfl
    · next hcons => rw [hcons]
  | cons a as ih =>
    rw [List.cons_append, dropEnd, ih]
    cases as <;> rfl

theorem dropEnd_append_of_forall (h : ∀ b ∈ bs, p b = true) :
    dropEnd p (as ++ bs) = dropEnd p as := by
  induction as with
  | nil =>
    induction bs with
    | nil => rfl
    | cons b bs ih =>
      obtain ⟨hb, hbs⟩ := List.forall_mem_cons.mp h
      have hrest : dropEnd p bs = [] := ih hbs
      have hnone : dropEnd p (b :: bs) = [] := by rw [dropEnd, hrest]; exact if_pos hb
      exact hnone
  | cons a as ih => rw [List.cons_append, dropEnd, dropEnd, ih]

/-- What is left of a text ends in a character that is not dropped. -/
theorem exists_concat_of_dropEnd_ne_nil (h : dropEnd p cs ≠ []) :
    ∃ ds d, dropEnd p cs = ds ++ [d] ∧ p d = false := by
  induction cs with
  | nil => exact absurd rfl h
  | cons c cs ih =>
    rw [dropEnd] at h ⊢
    split at h
    · split at h
      · exact absurd rfl h
      · next hc => exact ⟨[], c, if_neg hc, by simpa using hc⟩
    · next d ds hcons =>
      obtain ⟨es, e, heq, he⟩ := ih (by rw [hcons]; exact List.cons_ne_nil _ _)
      refine ⟨c :: es, e, ?_, he⟩
      rw [← hcons, heq]
      cases es <;> rfl

/-- A text is left as it is if its last character is not dropped. -/
theorem dropEnd_eq_self_iff : dropEnd p cs = cs ↔ ∀ c ∈ cs.getLast?, p c = false := by
  constructor
  · intro h c hlast
    have hne : dropEnd p cs ≠ [] := by
      rw [h]
      rintro rfl
      cases hlast
    obtain ⟨ds, d, heq, hd⟩ := exists_concat_of_dropEnd_ne_nil hne
    rw [← h, heq, List.getLast?_concat, Option.mem_some] at hlast
    exact hlast ▸ hd
  · intro h
    rcases List.eq_nil_or_concat cs with rfl | ⟨front, c, rfl⟩
    · rfl
    · rw [List.concat_eq_append] at h ⊢
      have hc : p c = false := h c (by rw [List.getLast?_concat]; rfl)
      rw [dropEnd_append_cons hc]
      rfl

theorem dropEnd_dropEnd : dropEnd p (dropEnd p cs) = dropEnd p cs := by
  by_cases h : dropEnd p cs = []
  · rw [h]; rfl
  · obtain ⟨ds, d, heq, hd⟩ := exists_concat_of_dropEnd_ne_nil h
    rw [heq, dropEnd_append_cons hd]
    rfl

theorem dropEnd_eq_nil_iff : dropEnd p cs = [] ↔ ∀ c ∈ cs, p c = true := by
  constructor
  · intro h
    obtain ⟨back, heq, hback⟩ := exists_dropEnd p cs
    rw [h, List.nil_append] at heq
    exact heq ▸ hback
  · intro h
    have hnone : dropEnd p ([] ++ cs) = dropEnd p [] := dropEnd_append_of_forall h
    exact hnone

/-! ### Dropping at both ends -/

theorem dropWhile_strip : (strip p cs).dropWhile p = strip p cs := by
  obtain ⟨back, heq, -⟩ := exists_dropEnd p (cs.dropWhile p)
  rw [← strip] at heq
  cases hstrip : strip p cs with
  | nil => rfl
  | cons c rest =>
    -- The first character left is the first that is not dropped in front.
    have hfirst := List.head?_dropWhile_not p cs
    rw [heq, hstrip] at hfirst
    have hc : p c = false := by simpa using hfirst
    rw [List.dropWhile_cons_of_neg (by simp [hc])]

theorem strip_strip : strip p (strip p cs) = strip p cs := by
  rw [strip, dropWhile_strip, strip, dropEnd_dropEnd]

/-- Trimming a text again changes nothing. -/
theorem trim_trim (s : String) : trim (trim s) = trim s := by
  rw [trim, trim, String.toList_ofList, strip_strip]

end Crosswalk.Text
