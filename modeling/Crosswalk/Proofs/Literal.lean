import Crosswalk.Proofs.Text

/-!
Literals and names of a script, read back. A reader of a literal goes from the opening quote to the
first quote that no backslash escapes. What is quoted ends for it exactly at its own closing quote,
whatever it holds and whatever follows, and stands for the text that was quoted; so no two names are
written alike.
-/

namespace Crosswalk.Text

/-! ### Readers of literals -/

/-- The characters up to the first quote that no backslash escapes, and what follows the quote. The
mark says whether a backslash escapes the first character. -/
def cutQuote : Bool → List Char → Option (List Char × List Char)
  | _, [] => none
  | true, c :: cs => (cutQuote false cs).map fun (inside, rest) => (c :: inside, rest)
  | false, c :: cs =>
    if c = '\'' then some ([], cs)
    else (cutQuote (c == '\\') cs).map fun (inside, rest) => (c :: inside, rest)

/-- The text that the characters of a literal stand for. The mark says whether a backslash escapes
the first of them. -/
def unescape : Bool → List Char → Option (List Char)
  | false, [] => some []
  | true, [] => none
  | true, c :: cs => (unescapeChar c).bind fun d => (unescape false cs).map (d :: ·)
  | false, c :: cs =>
    if c = '\\' then unescape true cs else (unescape false cs).map (c :: ·)

/-- Whether a text is a literal of `s`: it stands between quotes on one line, and a reader that
starts behind the opening quote stops at the closing one, whatever follows, with `s`. -/
structure IsLiteral (text s : String) : Prop where
  opens : text.toList.head? = some '\''
  closes : text.toList.getLast? = some '\''
  oneLine : OneLine text
  reads : ∃ inside, unescape false inside = some s.toList ∧
    ∀ rest, cutQuote false (text.toList.tail ++ rest) = some (inside, rest)

variable {text s t : String} {c : Char} {cs ds inside rest : List Char}

/-! ### Reading what is escaped -/

theorem cutQuote_escape (h : cutQuote false cs = some (inside, rest)) :
    cutQuote false ('\\' :: c :: cs) = some ('\\' :: c :: inside, rest) := by
  have hpair : cutQuote true (c :: cs) = some (c :: inside, rest) := by
    rw [cutQuote, h, Option.map_some]
  rw [cutQuote, if_neg (by decide), beq_self_eq_true, hpair, Option.map_some]

theorem cutQuote_ordinary (hslash : c ≠ '\\') (hquote : c ≠ '\'')
    (h : cutQuote false cs = some (inside, rest)) :
    cutQuote false (c :: cs) = some (c :: inside, rest) := by
  rw [cutQuote, if_neg hquote, beq_false_of_ne hslash, h, Option.map_some]

/-- No quote within an escaped text ends it. -/
theorem Escaped.cutQuote_append (h : Escaped cs ds) (rest : List Char) :
    cutQuote false (ds ++ '\'' :: rest) = some (ds, rest) := by
  induction h with
  | nil => rfl
  | escape _ _ ih => exact cutQuote_escape ih
  | ordinary hslash hquote _ _ ih => exact cutQuote_ordinary hslash hquote ih

theorem Escaped.unescape_eq (h : Escaped cs ds) : unescape false ds = some cs := by
  induction h with
  | nil => rfl
  | escape hchar _ ih =>
    rw [unescape, if_pos rfl, unescape, hchar, Option.bind_some, ih, Option.map_some]
  | ordinary hslash _ _ _ ih => rw [unescape, if_neg hslash, ih, Option.map_some]

/-! ### Literals -/

theorem toList_quote (s : String) :
    (quote s).toList = '\'' :: (escapeQuoted s.toList ++ ['\'']) := by
  rw [quote, String.toList_ofList, List.cons_append]

theorem isLiteral_quote (s : String) : IsLiteral (quote s) s where
  opens := by rw [toList_quote, List.head?_cons]
  closes := by rw [toList_quote, ← List.cons_append, List.getLast?_concat]
  oneLine := oneLine_quote s
  reads := by
    have hescaped := escaped_escapeQuoted s.toList
    refine ⟨escapeQuoted s.toList, hescaped.unescape_eq, fun rest => ?_⟩
    rw [toList_quote, List.tail_cons, List.append_assoc]
    exact hescaped.cutQuote_append rest

/-- A literal is one of a single text. -/
theorem IsLiteral.eq (hs : IsLiteral text s) (ht : IsLiteral text t) : s = t := by
  obtain ⟨inside, hunescape, hcut⟩ := hs.reads
  obtain ⟨inside', hunescape', hcut'⟩ := ht.reads
  have hinside : inside = inside' :=
    (Prod.mk.inj (Option.some.inj ((hcut []).symm.trans (hcut' [])))).1
  rw [hinside, hunescape'] at hunescape
  exact String.toList_injective (Option.some.inj hunescape.symm)

/-! ### Names -/

theorem IsLiteral.not_isPlainName (h : IsLiteral text s) : ¬isPlainName text = true := by
  intro hplain
  have hquote := isWord_of_isPlainName hplain _ (List.mem_of_head? h.opens)
  revert hquote
  decide

theorem identifier_of_isPlainName (h : isPlainName s = true) : identifier s = s := if_pos h

theorem isLiteral_identifier (h : ¬isPlainName s = true) : IsLiteral (identifier s) s := by
  rw [identifier, if_neg h]
  exact isLiteral_quote s

/-- Bare names are written as they are, quoted ones are read back, and none of either is written as
one of the other. -/
theorem identifier_injective : Function.Injective identifier := by
  intro s t h
  by_cases hs : isPlainName s = true <;> by_cases ht : isPlainName t = true
  · rwa [identifier_of_isPlainName hs, identifier_of_isPlainName ht] at h
  · rw [identifier_of_isPlainName hs] at h
    exact absurd hs (h ▸ isLiteral_identifier ht).not_isPlainName
  · rw [identifier_of_isPlainName ht] at h
    exact absurd ht (h ▸ isLiteral_identifier hs).not_isPlainName
  · exact (isLiteral_identifier hs).eq (h ▸ isLiteral_identifier ht)

/-- Quoting a text gives a literal of it, which nothing in the text ends. A name is written bare if
it is plain and otherwise as a literal of it, and different names are written differently. -/
theorem quoting_laws :
    (∀ s, IsLiteral (quote s) s) ∧
    (∀ s, if isPlainName s then identifier s = s else IsLiteral (identifier s) s) ∧
    Function.Injective identifier := by
  refine ⟨isLiteral_quote, fun s => ?_, identifier_injective⟩
  split
  · next h => exact identifier_of_isPlainName h
  · next h => exact isLiteral_identifier h

-- Neither the backslash at the end nor the quote before it ends the literal.
example : quote "a\n'\\" = "'a\\n\\'\\\\'" := by decide

end Crosswalk.Text
