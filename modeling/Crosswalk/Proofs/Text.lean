import Crosswalk.Text.Blank
import Crosswalk.Text.Literal
import Crosswalk.Text.Split

/-!
Characters of generated text. Quoted literals have their characters escaped or as they are, plain
names are made of letters, digits and underscores, and neither hold a line feed; so a text made of
them is one line.
-/

namespace Crosswalk.Text

/-! ### Parts of a text -/

theorem mem_of_mem_dropEnd {p : Char → Bool} {c : Char} : ∀ {cs : List Char},
    c ∈ dropEnd p cs → c ∈ cs
  | d :: cs, h => by
    rw [dropEnd] at h
    split at h
    · split at h
      · cases h
      · exact List.mem_cons.mpr (.inl (List.mem_singleton.mp h))
    · next e es heq =>
      rw [← heq] at h
      exact (List.mem_cons.mp h).elim (fun h => h ▸ List.mem_cons_self)
        fun h => List.mem_cons_of_mem _ (mem_of_mem_dropEnd h)

theorem mem_of_mem_strip {p : Char → Bool} {c : Char} {cs : List Char} (h : c ∈ strip p cs) :
    c ∈ cs :=
  (List.dropWhile_sublist p).subset (mem_of_mem_dropEnd h)

theorem mem_consFirst {c : Char} {ps : List (List Char)} {q : List Char} (h : q ∈ consFirst c ps) :
    q = [c] ∨ q ∈ ps ∨ ∃ p ∈ ps, q = c :: p := by
  cases ps with
  | nil => exact .inl (List.mem_singleton.mp h)
  | cons p ps =>
    rcases List.mem_cons.mp h with rfl | h
    · exact .inr (.inr ⟨p, List.mem_cons_self, rfl⟩)
    · exact .inr (.inl (List.mem_cons_of_mem _ h))

theorem notMem_of_mem_pieces {sep : Char} {cs : List Char} : ∀ {p : List Char},
    p ∈ pieces sep cs → sep ∉ p := by
  induction cs with
  | nil => intro p hp; rw [List.mem_singleton.mp hp]; simp
  | cons c cs ih =>
    intro p hp
    rw [pieces] at hp
    split at hp
    · rcases List.mem_cons.mp hp with rfl | hp
      · simp
      · exact ih hp
    · next hc =>
      rcases mem_consFirst hp with rfl | hp | ⟨q, hq, rfl⟩
      · simpa using fun h => hc h.symm
      · exact ih hp
      · exact fun h => (List.mem_cons.mp h).elim (fun h => hc h.symm) (ih hq)

theorem mem_endLines {line : List Char} {ps : List (List Char)} (h : line ∈ endLines ps) :
    ∃ p ∈ ps, line ⊆ p := by
  induction ps with
  | nil => cases h
  | cons p ps ih =>
    cases ps with
    | nil =>
      rw [endLines] at h
      split at h
      · cases h
      · exact ⟨p, List.mem_cons_self, List.mem_singleton.mp h ▸ List.Subset.refl _⟩
    | cons q ps =>
      rw [endLines] at h
      rcases List.mem_cons.mp h with rfl | h
      · refine ⟨p, List.mem_cons_self, ?_⟩
        split
        · exact List.dropLast_subset p
        · exact List.Subset.refl _
      · obtain ⟨r, hr, hsub⟩ := ih h
        exact ⟨r, List.mem_cons_of_mem _ hr, hsub⟩

/-- A part that ends at a separator is a piece of its own. -/
theorem pieces_append {sep : Char} {as bs : List Char} (h : sep ∉ as) :
    pieces sep (as ++ sep :: bs) = as :: pieces sep bs := by
  induction as with
  | nil => simp [pieces]
  | cons a as ih =>
    rw [List.mem_cons, not_or] at h
    rw [List.cons_append, pieces, if_neg fun ha => h.1 ha.symm, ih h.2]
    rfl

theorem pieces_ne_nil {sep : Char} {cs : List Char} : pieces sep cs ≠ [] := by
  cases cs with
  | nil => exact List.cons_ne_nil _ _
  | cons c cs =>
    rw [pieces]
    split
    · exact List.cons_ne_nil _ _
    · cases pieces sep cs <;> exact List.cons_ne_nil _ _

theorem pieces_append_cons {sep : Char} {as bs : List Char} :
    pieces sep (as ++ sep :: bs) = pieces sep as ++ pieces sep bs := by
  induction as with
  | nil => simp [pieces]
  | cons a as ih =>
    rw [List.cons_append, pieces, pieces, ih]
    split
    · rfl
    · cases hpieces : pieces sep as with
      | nil => exact absurd hpieces pieces_ne_nil
      | cons => rfl

theorem pieces_of_notMem {sep : Char} {cs : List Char} (h : sep ∉ cs) : pieces sep cs = [cs] := by
  induction cs with
  | nil => rfl
  | cons c cs ih =>
    rw [List.mem_cons, not_or] at h
    rw [pieces, if_neg (Ne.symm h.1), ih h.2]
    rfl

/-! ### Lines -/

/-- Whether a text has no line feed. -/
def OneLine (s : String) : Prop := '\n' ∉ s.toList

theorem OneLine.append {s t : String} (hs : OneLine s) (ht : OneLine t) : OneLine (s ++ t) := by
  rw [OneLine]
  rw [String.toList_append, List.mem_append]
  exact fun h => h.elim hs ht

theorem oneLine_of_mem_linesOf {s line : String} (h : line ∈ linesOf s) : OneLine line := by
  obtain ⟨cs, hcs, rfl⟩ := List.mem_map.mp h
  obtain ⟨p, hp, hsub⟩ := mem_endLines hcs
  rw [OneLine]
  rw [String.toList_ofList]
  exact fun hmem => notMem_of_mem_pieces hp (hsub hmem)

/-- A property of texts that putting two together keeps is kept by joining. -/
theorem joinWith_of_append {P : String → Prop} (hempty : P "")
    (happend : ∀ {s t}, P s → P t → P (s ++ t)) {sep : String} (hsep : P sep) {ss : List String}
    (h : ∀ s ∈ ss, P s) : P (joinWith sep ss) := by
  induction ss with
  | nil => exact hempty
  | cons s ss ih =>
    obtain ⟨hs, hss⟩ := List.forall_mem_cons.mp h
    cases ss with
    | nil => exact hs
    | cons t ss => exact happend (happend hs hsep) (ih hss)

theorem oneLine_joinWith {sep : String} (hsep : OneLine sep) {ss : List String}
    (h : ∀ s ∈ ss, OneLine s) : OneLine (joinWith sep ss) :=
  joinWith_of_append (P := OneLine) (by simp [OneLine]) OneLine.append hsep h

theorem toList_joinWith_newline {ss : List String} (h : ss ≠ []) :
    (joinWith "\n" ss).toList ++ ['\n'] = ss.flatMap fun s => s.toList ++ ['\n'] := by
  induction ss with
  | nil => exact absurd rfl h
  | cons s ss ih =>
    cases ss with
    | nil => simp [joinWith]
    | cons t ss =>
      rw [joinWith, List.flatMap_cons, ← ih (List.cons_ne_nil _ _)]
      simp [List.append_assoc]

/-! ### Escapes -/

/-- The character that one behind a backslash stands for. -/
def unescapeChar (c : Char) : Option Char :=
  if c = '\\' ∨ c = '\'' then some c else if c = 'n' then some '\n' else none

/-- Whether the second text is the first as it stands in a literal: a character that would end the
literal, its line or an escape stands behind a backslash, and any other for itself. -/
inductive Escaped : List Char → List Char → Prop where
  | nil : Escaped [] []
  | escape {c d : Char} {cs ds : List Char} (hchar : unescapeChar d = some c)
      (rest : Escaped cs ds) : Escaped (c :: cs) ('\\' :: d :: ds)
  | ordinary {c : Char} {cs ds : List Char} (hslash : c ≠ '\\') (hquote : c ≠ '\'')
      (hfeed : c ≠ '\n') (rest : Escaped cs ds) : Escaped (c :: cs) (c :: ds)

theorem escaped_escapeQuoted (cs : List Char) : Escaped cs (escapeQuoted cs) := by
  induction cs with
  | nil => exact .nil
  | cons c cs ih =>
    rw [escapeQuoted]
    split
    · next hslash => exact .escape (by rw [hslash]; rfl) ih
    split
    · next hquote => exact .escape (by rw [hquote]; rfl) ih
    split
    · next hfeed => exact .escape (by rw [hfeed]; rfl) ih
    · next hslash hquote hfeed => exact .ordinary hslash hquote hfeed ih

theorem Escaped.notMem_newline {cs ds : List Char} (h : Escaped cs ds) : '\n' ∉ ds := by
  induction h with
  | nil => exact List.not_mem_nil
  | escape hchar _ ih =>
    rw [List.mem_cons, List.mem_cons, not_or, not_or]
    refine ⟨by decide, ?_, ih⟩
    rintro rfl
    cases hchar
  | ordinary _ _ hfeed _ ih =>
    rw [List.mem_cons, not_or]
    exact ⟨Ne.symm hfeed, ih⟩

theorem oneLine_quote (s : String) : OneLine (quote s) := by
  simpa [OneLine, quote] using (escaped_escapeQuoted s.toList).notMem_newline

/-! ### Plain names -/

/-- Whether a character may stand in a plain name. -/
def isWordChar (c : Char) : Bool := isLetterOrDigit c || c == '_'

/-- Whether a text has only characters of plain names. -/
def IsWord (cs : List Char) : Prop := ∀ c ∈ cs, isWordChar c = true

instance (s : String) : Decidable (OneLine s) :=
  inferInstanceAs (Decidable (¬_))

instance (cs : List Char) : Decidable (IsWord cs) :=
  decidable_of_iff (cs.all isWordChar = true) List.all_eq_true

theorem IsWord.append {cs ds : List Char} (hcs : IsWord cs) (hds : IsWord ds) : IsWord (cs ++ ds) :=
  fun c hc => (List.mem_append.mp hc).elim (hcs c) (hds c)

theorem isWord_numeral (k : Nat) : IsWord (toString k).toList := by
  intro c hc
  rw [Nat.toString_eq_repr, Nat.toList_repr] at hc
  have hdigit := Nat.isDigit_of_mem_toDigits (by decide) (by decide) hc
  rw [isWordChar, isLetterOrDigit]
  simp only [Char.isDigit, Bool.and_eq_true, decide_eq_true_eq] at hdigit
  have hle : '0' ≤ c ∧ c ≤ '9' := ⟨hdigit.1, hdigit.2⟩
  simp [hle]

theorem isWord_sanitize (cs : List Char) : IsWord (sanitize cs) := by
  intro c hc
  obtain ⟨d, -, rfl⟩ := List.mem_map.mp hc
  split
  · next hd => simp [isWordChar, hd]
  · rfl

/-- What is written after a plain name with its characters makes a plain name. -/
theorem isPlainName_append {s t : String} (hs : isPlainName s = true) (ht : IsWord t.toList) :
    isPlainName (s ++ t) = true := by
  rw [isPlainName] at hs ⊢
  rw [String.toList_append]
  cases hcs : s.toList with
  | nil => rw [hcs] at hs; cases hs
  | cons c cs =>
    rw [hcs] at hs
    simp only [Bool.and_eq_true, List.all_eq_true, List.cons_append, List.all_append] at hs ⊢
    exact ⟨hs.1, hs.2, ht⟩

theorem isWord_of_isPlainName {s : String} (h : isPlainName s = true) : IsWord s.toList := by
  rw [isPlainName] at h
  cases hcs : s.toList with
  | nil => intro c hc; cases hc
  | cons c cs =>
    rw [hcs] at h
    simp only [Bool.and_eq_true, List.all_eq_true] at h
    refine List.forall_mem_cons.mpr ⟨?_, h.2⟩
    rw [isWordChar, isLetterOrDigit]
    rcases Bool.or_eq_true _ _ ▸ h.1 with hc | hc
    · rw [hc]; rfl
    · rw [hc, Bool.or_true]

theorem oneLine_of_isPlainName {s : String} (h : isPlainName s = true) : OneLine s := by
  intro hmem
  have := isWord_of_isPlainName h _ hmem
  revert this
  decide

theorem oneLine_identifier (s : String) : OneLine (identifier s) := by
  rw [identifier]
  split
  · next h => exact oneLine_of_isPlainName h
  · exact oneLine_quote s

end Crosswalk.Text
