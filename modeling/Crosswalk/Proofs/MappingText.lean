import Crosswalk.Command.Request
import Crosswalk.Proofs.PathText
import Crosswalk.Proofs.TagGrammar
import Crosswalk.Proofs.Text

/-!
Mappings written on a command line. The text of a mapping has no quotes: the first equals sign ends
the output, every comma ends an input, and what follows the last colon is the operator, if it is the
name of one. Names and variant keys may have these characters too. A mapping is read back from its
text exactly if its output has no equals sign, its inputs have no commas, and, where it has no
operator, its last input does not end in a qualified name that spells one.
-/

namespace Crosswalk

/-! ### Cutting a text -/

namespace Text

variable {sep c : Char} {cs as bs : List Char}

theorem cutLast_eq_none_iff : cutLast sep cs = none ↔ sep ∉ cs := by
  induction cs with
  | nil => simp [cutLast]
  | cons d cs ih =>
    rw [cutLast, List.mem_cons, not_or, ← ih]
    cases cutLast sep cs with
    | some parts => simp
    | none => simp [eq_comm]

theorem cutLast_append (h : sep ∉ bs) (as : List Char) :
    cutLast sep (as ++ sep :: bs) = some (as, bs) := by
  induction as with
  | nil => rw [List.nil_append, cutLast, cutLast_eq_none_iff.mpr h, if_pos rfl]
  | cons a as ih => rw [List.cons_append, cutLast, ih]

theorem cutLast_eq_some_iff :
    cutLast sep cs = some (as, bs) ↔ cs = as ++ sep :: bs ∧ sep ∉ bs := by
  constructor
  · intro h
    induction cs generalizing as with
    | nil => cases h
    | cons d cs ih =>
      rw [cutLast] at h
      split at h
      · next before after hcut =>
        cases h
        obtain ⟨rfl, hnot⟩ := ih hcut
        exact ⟨rfl, hnot⟩
      · next hcut =>
        split at h
        · next hd =>
          cases h
          exact ⟨by rw [hd]; rfl, cutLast_eq_none_iff.mp hcut⟩
        · cases h
  · rintro ⟨rfl, hnot⟩
    exact cutLast_append hnot as

theorem mem_of_mem_consFirst {ps : List (List Char)} {q : List Char} {d : Char}
    (hq : q ∈ consFirst d ps) (hc : c ∈ q) : c = d ∨ ∃ p ∈ ps, c ∈ p := by
  rcases mem_consFirst hq with rfl | hq | ⟨p, hp, rfl⟩
  · exact .inl (List.mem_singleton.mp hc)
  · exact .inr ⟨q, hq, hc⟩
  · exact (List.mem_cons.mp hc).imp id fun hc => ⟨p, hp, hc⟩

/-- The pieces of a text have its characters only. -/
theorem mem_of_mem_unescapedPieces {p : List Char} (hp : p ∈ unescapedPieces sep cs) (hc : c ∈ p) :
    c ∈ cs := by
  induction cs using unescapedPieces.induct sep generalizing p with
  | case1 => simp_all [unescapedPieces]
  | case2 => simp_all [unescapedPieces]
  | case3 d cs ih =>
    rw [unescapedPieces] at hp
    rcases mem_of_mem_consFirst hp hc with rfl | ⟨q, hq, hc⟩
    · exact List.mem_cons_self
    rcases mem_of_mem_consFirst hq hc with rfl | ⟨r, hr, hc⟩
    · exact List.mem_cons_of_mem _ List.mem_cons_self
    · exact List.mem_cons_of_mem _ (List.mem_cons_of_mem _ (ih hr hc))
  | case4 cs hlast hescape ih =>
    rw [unescapedPieces, if_pos rfl] at hp
    · rcases List.mem_cons.mp hp with rfl | hp
      · cases hc
      · exact List.mem_cons_of_mem _ (ih hp hc)
    · exact hlast
    · exact hescape
  | case5 d cs hlast hescape hsep ih =>
    rw [unescapedPieces, if_neg hsep] at hp
    · rcases mem_of_mem_consFirst hp hc with rfl | ⟨q, hq, hc⟩
      · exact List.mem_cons_self
      · exact List.mem_cons_of_mem _ (ih hq hc)
    · exact hlast
    · exact hescape

end Text

/-! ### Characters of what is read -/

namespace Tag

variable {c : Char} {s : String} {t : Tag}

theorem mem_of_mem_escapeKey {cs : List Char} (hc : c ∈ escapeKey cs) : c = '\\' ∨ c ∈ cs := by
  induction cs with
  | nil => cases hc
  | cons d cs ih =>
    rw [escapeKey] at hc
    split at hc <;> simp only [List.mem_cons] at hc ⊢ <;> tauto

theorem KeyItems.mem {items key : List Char} (h : KeyItems items key) (hc : c ∈ key) :
    c ∈ items := by
  induction h with
  | nil => exact hc
  | escaped d _ ih =>
    refine List.mem_cons_of_mem _ ?_
    exact (List.mem_cons.mp hc).elim (fun h => h ▸ List.mem_cons_self)
      fun h => List.mem_cons_of_mem _ (ih h)
  | plain _ _ _ ih =>
    exact (List.mem_cons.mp hc).elim (fun h => h ▸ List.mem_cons_self)
      fun h => List.mem_cons_of_mem _ (ih h)

theorem KeyText.mem {text : List Char} {variant : Option String} (h : KeyText text variant)
    {key : String} (hkey : key ∈ variant) (hc : c ∈ key.toList) : c ∈ text := by
  cases h with
  | absent => cases hkey
  | present hne hitems =>
    cases hkey
    exact List.mem_cons_of_mem _ (List.mem_append_left _ (hitems.mem hc))

theorem QualifierText.mem {text : List Char} {qualifier : Option String}
    (h : QualifierText text qualifier) {q : String} (hq : q ∈ qualifier) (hc : c ∈ q.toList) :
    c ∈ text := by
  cases h with
  | absent => cases hq
  | present hname =>
    cases hq
    exact List.mem_append_left _ hc

/-- Whether a character is in texts of tags only as part of a name or of a key. -/
def Ordinary (c : Char) : Prop := c ∉ delimiters ∧ c ≠ '\\' ∧ c.isDigit = false

theorem Ordinary.ne {d : Char} (hc : Ordinary c) (hd : d ∈ delimiters) : c ≠ d :=
  fun h => hc.1 (h ▸ hd)

theorem mem_of_mem_chars (hc : Ordinary c) (hmem : c ∈ t.chars) :
    (∃ q ∈ t.qualifier, c ∈ q.toList) ∨ c ∈ t.localName.toList ∨
      ∃ key ∈ t.variant, c ∈ key.toList := by
  have hmark : c ∉ (if t.isAttribute then ['@'] else []) := by
    have hat : c ≠ '@' := hc.ne (by decide)
    cases t.isAttribute <;> simp [hat]
  have hdepth := t.notMem_depthChars hc.2.2 (hc.ne (by decide))
  simp only [chars_eq, List.mem_append, hmark, hdepth, or_false, false_or] at hmem
  rcases hmem with hname | hkey
  · have hcolon : c ≠ ':' := hc.ne (by decide)
    rw [qname] at hname
    split at hname
    · next q hq =>
      rw [String.toList_append, String.toList_append, List.mem_append, List.mem_append] at hname
      rcases hname with (hname | hname) | hname
      · exact .inl ⟨q, hq, hname⟩
      · exact absurd (List.mem_singleton.mp hname) hcolon
      · exact .inr (.inl hname)
    · exact .inr (.inl hname)
  · have hopen : c ≠ '[' := hc.ne (by decide)
    have hclose : c ≠ ']' := hc.ne (by decide)
    cases hvariant : t.variant with
    | none =>
      rw [keyChars_of_none hvariant] at hkey
      cases hkey
    | some key =>
      simp only [keyChars_of_some hvariant, List.mem_cons, List.mem_append, List.not_mem_nil, hopen,
        hclose, false_or, or_false] at hkey
      exact .inr (.inr ⟨key, rfl, (mem_of_mem_escapeKey hkey).resolve_left hc.2.1⟩)

/-- What is read of a text has no ordinary character that the text has not. -/
theorem mem_of_parse (hc : Ordinary c) (h : parse s = .ok t) (hmem : c ∈ t.chars) :
    c ∈ s.toList := by
  obtain ⟨prefixText, depthText, keyText, htext, hqualifier, -, -, hkey⟩ := parse_eq_ok_iff.mp h
  rw [htext]
  simp only [List.mem_append]
  rcases mem_of_mem_chars hc hmem with ⟨q, hq, hmem⟩ | hmem | ⟨key, hvariant, hmem⟩
  · exact .inr (.inl (.inl (.inl (hqualifier.mem hq hmem))))
  · exact .inr (.inl (.inl (.inr hmem)))
  · exact .inr (.inr (hkey.mem hvariant hmem))

end Tag

namespace Path

open Text

variable {c : Char} {s : String} {p : Path}

/-- The steps of a text are the pieces of it, without the first separator. -/
theorem exists_body (cs : List Char) : ∃ body, body ⊆ cs ∧
    steps cs = if body.isEmpty then [] else unescapedPieces '/' body := by
  refine ⟨_, ?_, rfl⟩
  split
  · exact List.subset_cons_self ..
  · exact List.Subset.refl _

theorem mem_of_mem_steps {cs step : List Char} (hstep : step ∈ steps cs) (hc : c ∈ step) :
    c ∈ cs := by
  obtain ⟨body, hbody, hsteps⟩ := exists_body cs
  rw [hsteps] at hstep
  split at hstep
  · cases hstep
  · exact hbody (mem_of_mem_unescapedPieces hstep hc)

/-- What is read of a text has no ordinary character that the text has not. -/
theorem mem_of_parse (hc : Tag.Ordinary c) (h : parse s = .ok p) (hmem : c ∈ p.chars) :
    c ∈ s.toList := by
  obtain ⟨ts, hsteps, rfl⟩ := map_eq_ok_iff.mp h
  have hslash : c ≠ '/' := hc.ne (by decide)
  obtain ⟨t, ht, hmem⟩ : ∃ t ∈ ts, c ∈ t.chars := by
    rw [chars] at hmem
    split at hmem
    · exact absurd (List.mem_singleton.mp hmem) hslash
    · obtain ⟨t, ht, hmem⟩ := List.mem_flatMap.mp hmem
      exact ⟨t, ht, (List.mem_cons.mp hmem).resolve_left hslash⟩
  obtain ⟨step, hstep, hparse⟩ := exists_step_of_mem hsteps t ht
  refine mem_of_mem_steps hstep ?_
  rw [← String.toList_ofList (l := step)]
  exact Tag.mem_of_parse hc hparse hmem

end Path

/-! ### Names of operators -/

namespace Operator

theorem parse_name (op : Operator) : parse op.name = .ok op := by
  cases op <;> decide

theorem asciiLower_of_parse {s : String} {op : Operator} (h : parse s = .ok op) :
    Text.asciiLower s = op.name := by
  rw [parse] at h
  split at h
  · next heq =>
    cases h
    have hname := List.find?_some heq
    exact (beq_iff_eq.mp hname).symm
  · cases h

theorem isAlpha_of_isLower_toLower {c : Char} (h : c.toLower.isLower = true) :
    c.isAlpha = true := by
  by_cases hupper : 'A'.val ≤ c.val ∧ c.val ≤ 'Z'.val
  · exact Bool.or_eq_true_iff.mpr (.inl (decide_eq_true hupper))
  · have hsame : c.toLower = c := dif_neg hupper
    rw [hsame] at h
    exact Bool.or_eq_true_iff.mpr (.inr h)

/-- A name of an operator is one of letters. -/
theorem isAlpha_of_parse {s : String} {op : Operator} (h : parse s = .ok op) :
    ∀ c ∈ s.toList, c.isAlpha = true := by
  intro c hc
  have hlower : op.name.toList.all Char.isLower = true := by cases op <;> decide
  have hmem : c.toLower ∈ op.name.toList := by
    rw [← asciiLower_of_parse h, Text.asciiLower, String.toList_ofList]
    exact List.mem_map_of_mem hc
  exact isAlpha_of_isLower_toLower (List.all_eq_true.mp hlower _ hmem)

end Operator

/-! ### Operators at the end of a text -/

/-- Whether a text ends in a colon and the name of an operator. -/
def EndsInOperator (cs : List Char) : Prop :=
  ∃ name op, ':' :: name.toList <:+ cs ∧ Operator.parse name = .ok op

section

variable {d : Char} {as bs : List Char}

theorem not_endsInOperator (h : ':' ∉ bs) : ¬EndsInOperator bs := by
  rintro ⟨name, op, hsuffix, -⟩
  exact h (hsuffix.subset List.mem_cons_self)

/-- No name of an operator reaches over a character that is no letter. -/
theorem endsInOperator_append_cons (hd : d.isAlpha = false) (hcolon : d ≠ ':') :
    EndsInOperator (as ++ d :: bs) ↔ EndsInOperator bs := by
  constructor
  · rintro ⟨name, op, hsuffix, hop⟩
    refine ⟨name, op, ?_, hop⟩
    have hletters := Operator.isAlpha_of_parse hop
    rcases List.suffix_or_suffix_of_suffix hsuffix (List.suffix_append as (d :: bs)) with h | h
    · rcases List.suffix_cons_iff.mp h with h | h
      · exact absurd (List.cons.inj h).1.symm hcolon
      · exact h
    · have hmem : d ∈ name.toList := by
        rcases List.suffix_cons_iff.mp h with h | h
        · exact absurd (List.cons.inj h).1 hcolon
        · exact h.subset List.mem_cons_self
      rw [hletters d hmem] at hd
      cases hd
  · rintro ⟨name, op, hsuffix, hop⟩
    refine ⟨name, op, hsuffix.trans ?_, hop⟩
    exact (List.suffix_cons d bs).trans (List.suffix_append as (d :: bs))

/-- What follows the last colon is the name, if there is one. -/
theorem endsInOperator_append_colon {name : String} (h : ':' ∉ name.toList) :
    EndsInOperator (as ++ ':' :: name.toList) ↔ ∃ op, Operator.parse name = .ok op := by
  constructor
  · rintro ⟨name', op, ⟨as', hcs⟩, hop⟩
    have hcolon : ':' ∉ name'.toList := fun hmem =>
      absurd (Operator.isAlpha_of_parse hop _ hmem) (by decide)
    have hcut := Text.cutLast_append hcolon as'
    rw [hcs, Text.cutLast_append h, Option.some.injEq, Prod.mk.injEq] at hcut
    rw [String.toList_injective hcut.2]
    exact ⟨op, hop⟩
  · rintro ⟨op, hop⟩
    exact ⟨name, op, List.suffix_append .., hop⟩

end

/-- Whether a tag is written with a colon and the name of an operator at the end: it is qualified,
its local name is that of an operator, whatever the case of its letters, and nothing follows. -/
structure Tag.NamesOperator (t : Tag) : Prop where
  qualifier : t.qualifier.isSome = true
  localName : ∃ op, Operator.parse t.localName = .ok op
  descendancy : t.descendancy = 0
  variant : t.variant = none

theorem Tag.WellNamed.endsInOperator_iff {t : Tag} (h : t.WellNamed) :
    EndsInOperator t.chars ↔ t.NamesOperator := by
  have hcolon : ':' ∉ t.localName.toList := h.localName.notMem (by decide)
  rw [chars_eq]
  cases hvariant : t.variant with
  | some key =>
    -- the bracket behind the key is the last character
    have hlast : ¬EndsInOperator [] := not_endsInOperator List.not_mem_nil
    rw [keyChars_of_some hvariant, ← List.cons_append, ← List.append_assoc, ← List.append_assoc,
      endsInOperator_append_cons (by decide) (by decide)]
    exact iff_of_false hlast fun ht => absurd (hvariant.symm.trans ht.variant) nofun
  | none =>
    rw [keyChars_of_none hvariant, List.append_nil, depthChars]
    by_cases hzero : t.descendancy = 0
    · rw [if_pos hzero, List.append_nil, qname]
      cases hqualifier : t.qualifier with
      | none =>
        have hnone : ':' ∉ (if t.isAttribute then ['@'] else []) ++ t.localName.toList := by
          cases t.isAttribute <;> simp [hcolon]
        refine iff_of_false (not_endsInOperator hnone) fun ht => ?_
        have hsome := ht.qualifier
        rw [hqualifier] at hsome
        cases hsome
      | some q =>
        have hchars : (q ++ ":" ++ t.localName).toList = q.toList ++ ':' :: t.localName.toList := by
          simp
        rw [hchars, ← List.append_assoc, endsInOperator_append_colon hcolon]
        exact ⟨fun hop => ⟨by rw [hqualifier]; rfl, hop, hzero, hvariant⟩, fun ht => ht.localName⟩
    · have hdigits : ':' ∉ Nat.toDigits 10 t.descendancy.toNat := fun hmem =>
        absurd (Nat.isDigit_of_mem_toDigits (by decide) (by decide) hmem) (by decide)
      rw [if_neg hzero, ← List.append_assoc, endsInOperator_append_cons (by decide) (by decide)]
      exact iff_of_false (not_endsInOperator hdigits) fun ht => hzero ht.descendancy

/-- Whether the last tag of a path is written so. -/
def Path.NamesOperator (p : Path) : Prop := ∃ t ∈ p.last?, t.NamesOperator

theorem Path.endsInOperator_iff {p : Path} (h : ∀ t ∈ p.tags, t.WellNamed) :
    EndsInOperator p.chars ↔ p.NamesOperator := by
  obtain ⟨ts⟩ := p
  rcases List.eq_nil_or_concat ts with rfl | ⟨init, t, rfl⟩
  · refine iff_of_false (not_endsInOperator (by decide)) ?_
    rintro ⟨t, ht, -⟩
    cases ht
  · rw [List.concat_eq_append] at h ⊢
    have hchars : chars ⟨init ++ [t]⟩ = (init.flatMap fun u => '/' :: u.chars) ++ '/' :: t.chars := by
      simp [chars]
    have hlast : last? ⟨init ++ [t]⟩ = some t := List.getLast?_concat
    rw [hchars, endsInOperator_append_cons (by decide) (by decide),
      (h t (by simp)).endsInOperator_iff, NamesOperator, hlast]
    simp

/-! ### Texts of mappings -/

namespace Command

open Text

variable {name : String} {op : Operator} {ps : List Path}

theorem splitOperator_append (h : Operator.parse name = .ok op) (cs : List Char) :
    splitOperator (cs ++ ':' :: name.toList) = (cs, some op) := by
  have hcolon : ':' ∉ name.toList := fun hmem =>
    absurd (Operator.isAlpha_of_parse h _ hmem) (by decide)
  rw [splitOperator, cutLast_append hcolon]
  simp [h]

theorem splitOperator_of_not_endsInOperator {cs : List Char} (h : ¬EndsInOperator cs) :
    splitOperator cs = (cs, none) := by
  rw [splitOperator]
  split
  · next inputs rest hcut =>
    obtain ⟨rfl, -⟩ := cutLast_eq_some_iff.mp hcut
    split
    · next op hop =>
      refine absurd ⟨_, op, ?_, hop⟩ h
      rw [String.toList_ofList]
      exact List.suffix_append ..
    · rfl
  · rfl

theorem not_endsInOperator_of_splitOperator {cs inputs : List Char}
    (h : splitOperator cs = (inputs, none)) : ¬EndsInOperator cs := by
  rintro ⟨name, op, ⟨as, rfl⟩, hop⟩
  rw [splitOperator_append hop] at h
  cases h

theorem parsePath_eq_ok_iff {cs : List Char} {p : Path} :
    parsePath cs = .ok p ↔ Path.parse (String.ofList cs) = .ok p := by
  rw [parsePath]
  split
  · next heq => simp [heq]
  · next heq => simp [heq]

theorem parsePaths_cons_eq_ok_iff {cs : List Char} {rest : List (List Char)} :
    parsePaths (cs :: rest) = .ok ps ↔ ∃ p others,
      Path.parse (String.ofList cs) = .ok p ∧ parsePaths rest = .ok others ∧ ps = p :: others := by
  constructor
  · intro h
    obtain ⟨p, hp, h⟩ := bind_eq_ok_iff.mp h
    obtain ⟨others, hothers, h⟩ := bind_eq_ok_iff.mp h
    exact ⟨p, others, parsePath_eq_ok_iff.mp hp, hothers, (Except.ok.inj h).symm⟩
  · rintro ⟨p, others, hp, hothers, rfl⟩
    refine bind_eq_ok_iff.mpr ⟨p, parsePath_eq_ok_iff.mpr hp, ?_⟩
    exact bind_eq_ok_iff.mpr ⟨others, hothers, rfl⟩

/-- Every path that is read is read from one of the texts. -/
theorem exists_text_of_mem {texts : List (List Char)} (h : parsePaths texts = .ok ps) :
    ∀ p ∈ ps, ∃ cs ∈ texts, Path.parse (String.ofList cs) = .ok p := by
  induction texts generalizing ps with
  | nil =>
    cases h
    nofun
  | cons cs rest ih =>
    obtain ⟨p, others, hp, hothers, rfl⟩ := parsePaths_cons_eq_ok_iff.mp h
    refine List.forall_mem_cons.mpr ⟨⟨cs, List.mem_cons_self, hp⟩, fun q hq => ?_⟩
    obtain ⟨text, hmem, hq⟩ := ih hothers q hq
    exact ⟨text, List.mem_cons_of_mem _ hmem, hq⟩

theorem exists_cons_of_parsePaths {texts : List (List Char)} (h : parsePaths texts = .ok ps)
    (hne : texts ≠ []) : ∃ p others, ps = p :: others := by
  obtain ⟨cs, rest, rfl⟩ := List.exists_cons_of_ne_nil hne
  obtain ⟨p, others, -, -, rfl⟩ := parsePaths_cons_eq_ok_iff.mp h
  exact ⟨p, others, rfl⟩

theorem parsePaths_chars (h : ∀ p ∈ ps, Path.parse p.text = .ok p) :
    parsePaths (ps.map Path.chars) = .ok ps := by
  induction ps with
  | nil => rfl
  | cons p ps ih =>
    rw [List.forall_mem_cons] at h
    exact parsePaths_cons_eq_ok_iff.mpr ⟨p, ps, h.1, ih h.2, rfl⟩

/-- The text of some inputs. -/
def inputsText (ps : List Path) : String := joinWith "," (ps.map Path.text)

theorem toList_inputsText_cons (p q : Path) (ps : List Path) :
    (inputsText (p :: q :: ps)).toList = p.chars ++ ',' :: (inputsText (q :: ps)).toList := by
  simp [inputsText, joinWith, Path.text]

theorem toList_inputsText_singleton (p : Path) : (inputsText [p]).toList = p.chars := by
  simp [inputsText, joinWith, Path.text]

theorem pieces_inputsText {p : Path} (h : ∀ q ∈ p :: ps, ',' ∉ q.chars) :
    pieces ',' (inputsText (p :: ps)).toList = (p :: ps).map Path.chars := by
  induction ps generalizing p with
  | nil =>
    rw [toList_inputsText_singleton, pieces_of_notMem (h p List.mem_cons_self)]
    rfl
  | cons q ps ih =>
    rw [List.forall_mem_cons] at h
    rw [toList_inputsText_cons, pieces_append h.1, ih h.2]
    rfl

/-- Only the last input can end in an operator. -/
theorem endsInOperator_inputsText (p : Path) (ps : List Path) :
    EndsInOperator (inputsText (p :: ps)).toList ↔
      EndsInOperator ((p :: ps).getLast (List.cons_ne_nil p ps)).chars := by
  induction ps generalizing p with
  | nil => rw [toList_inputsText_singleton, List.getLast_singleton]
  | cons q ps ih =>
    rw [toList_inputsText_cons, endsInOperator_append_cons (by decide) (by decide), ih,
      List.getLast_cons (List.cons_ne_nil q ps)]

/-- The text of an optional operator. -/
def operatorText (operator : Option Operator) : String :=
  operator.elim "" fun op => ":" ++ op.name

/-- The text of a mapping: `OUT=IN[,SIB...][:OP]`. -/
def mappingText (output input : Path) (siblings : List Path) (operator : Option Operator) : String :=
  output.text ++ "=" ++ (inputsText (input :: siblings) ++ operatorText operator)

variable {output input : Path} {siblings : List Path} {operator : Option Operator}

theorem toList_mappingText (output input : Path) (siblings : List Path)
    (operator : Option Operator) : (mappingText output input siblings operator).toList =
      output.chars ++ '=' ::
        ((inputsText (input :: siblings)).toList ++ (operatorText operator).toList) := by
  simp [mappingText, Path.text]

/-- The operator is found, if the inputs do not end in one where there is none. -/
theorem splitOperator_operatorText {cs : List Char} (h : operator = none → ¬EndsInOperator cs) :
    splitOperator (cs ++ (operatorText operator).toList) = (cs, operator) := by
  cases operator with
  | some op =>
    have htext : (operatorText (some op)).toList = ':' :: op.name.toList := by simp [operatorText]
    rw [htext]
    exact splitOperator_append op.parse_name cs
  | none =>
    have htext : (operatorText none).toList = [] := rfl
    rw [htext, List.append_nil]
    exact splitOperator_of_not_endsInOperator (h rfl)

/-- What a mapping is read from: the texts of its output, of its inputs and of its operator. -/
theorem parseMapping_eq_ok_iff {spec : String} : parseMapping spec = .ok
      { output := output, input := input, siblings := siblings, operator := operator } ↔
    ∃ outputText right inputs,
      cutFirst '=' spec.toList = some (outputText, right) ∧
      splitOperator right = (inputs, operator) ∧
      parsePaths (pieces ',' inputs) = .ok (input :: siblings) ∧
      Path.parse (String.ofList outputText) = .ok output := by
  constructor
  · intro h
    obtain ⟨⟨outputText, right⟩, hsides, h⟩ := bind_eq_ok_iff.mp h
    obtain ⟨paths, hpaths, h⟩ := bind_eq_ok_iff.mp h
    obtain ⟨output', houtput, h⟩ := bind_eq_ok_iff.mp h
    obtain ⟨p, ps, rfl⟩ := exists_cons_of_parsePaths hpaths pieces_ne_nil
    have hcut : cutFirst '=' spec.toList = some (outputText, right) := by
      rw [sides] at hsides
      split at hsides
      · next heq => exact heq.trans (congrArg some (Except.ok.inj hsides))
      · cases hsides
    cases h
    exact ⟨outputText, right, _, hcut, rfl, hpaths, parsePath_eq_ok_iff.mp houtput⟩
  · rintro ⟨outputText, right, inputs, hcut, hsplit, hpaths, houtput⟩
    have hsides : sides spec = .ok (outputText, right) := by rw [sides, hcut]
    refine bind_eq_ok_iff.mpr ⟨_, hsides, ?_⟩
    simp only [hsplit]
    refine bind_eq_ok_iff.mpr ⟨_, hpaths, ?_⟩
    exact bind_eq_ok_iff.mpr ⟨_, parsePath_eq_ok_iff.mpr houtput, rfl⟩

theorem ordinary_equals : Tag.Ordinary '=' := ⟨by decide, by decide, by decide⟩

theorem ordinary_comma : Tag.Ordinary ',' := ⟨by decide, by decide, by decide⟩

/-- A mapping in whose text each separator is found where it stands is read back. -/
theorem parseMapping_mappingText (houtput : Path.parse output.text = .ok output)
    (hinputs : ∀ p ∈ input :: siblings, Path.parse p.text = .ok p)
    (hequals : '=' ∉ output.chars) (hcomma : ∀ p ∈ input :: siblings, ',' ∉ p.chars)
    (hoperator : operator = none → ¬EndsInOperator (inputsText (input :: siblings)).toList) :
    parseMapping (mappingText output input siblings operator) =
      .ok { output := output, input := input, siblings := siblings, operator := operator } := by
  have hcut := cutFirst_append hequals
    ((inputsText (input :: siblings)).toList ++ (operatorText operator).toList)
  rw [← toList_mappingText] at hcut
  have hpaths : parsePaths (pieces ',' (inputsText (input :: siblings)).toList) =
      .ok (input :: siblings) := by
    rw [pieces_inputsText hcomma]
    exact parsePaths_chars hinputs
  exact parseMapping_eq_ok_iff.mpr
    ⟨_, _, _, hcut, splitOperator_operatorText hoperator, hpaths, houtput⟩

/-- Where a mapping is read back, no separator stands where another is looked for: what is read of a
part of the text has no separator that ends the part. -/
theorem separators_of_parseMapping (h : parseMapping (mappingText output input siblings operator) =
      .ok { output := output, input := input, siblings := siblings, operator := operator }) :
    '=' ∉ output.chars ∧ (∀ p ∈ input :: siblings, ',' ∉ p.chars) ∧
      (operator = none → ¬EndsInOperator (inputsText (input :: siblings)).toList) := by
  obtain ⟨outputText, right, inputs, hcut, hsplit, hpaths, hread⟩ := parseMapping_eq_ok_iff.mp h
  have hequals : '=' ∉ output.chars := by
    intro hmem
    have hmem := Path.mem_of_parse ordinary_equals hread hmem
    rw [String.toList_ofList] at hmem
    exact (cutFirst_eq_some_iff.mp hcut).2 hmem
  have hcomma : ∀ p ∈ input :: siblings, ',' ∉ p.chars := by
    intro p hp hmem
    obtain ⟨cs, hcs, hread⟩ := exists_text_of_mem hpaths p hp
    have hmem := Path.mem_of_parse ordinary_comma hread hmem
    rw [String.toList_ofList] at hmem
    exact notMem_of_mem_pieces hcs hmem
  refine ⟨hequals, hcomma, ?_⟩
  rintro rfl
  rw [toList_mappingText, cutFirst_append hequals, Option.some.injEq, Prod.mk.injEq] at hcut
  obtain ⟨-, rfl⟩ := hcut
  have hnot := not_endsInOperator_of_splitOperator hsplit
  rwa [operatorText, Option.elim_none, String.toList_empty, List.append_nil] at hnot

/-- A mapping whose paths are read back from their texts is read back from its own exactly if its
output has no equals sign, its inputs have no commas, and, where there is no operator, the last
input does not end in a qualified name that spells one. -/
theorem parseMapping_text_iff (houtput : Path.parse output.text = .ok output)
    (hinputs : ∀ p ∈ input :: siblings, Path.parse p.text = .ok p) :
    parseMapping (mappingText output input siblings operator) =
        .ok { output := output, input := input, siblings := siblings, operator := operator } ↔
      '=' ∉ output.chars ∧ (∀ p ∈ input :: siblings, ',' ∉ p.chars) ∧
        (operator = none →
          ¬((input :: siblings).getLast (List.cons_ne_nil input siblings)).NamesOperator) := by
  have hwell : ∀ p ∈ input :: siblings, ∀ t ∈ p.tags, t.WellNamed := by
    intro p hp t ht
    obtain ⟨step, hstep⟩ := Path.exists_parse_of_mem (hinputs p hp) t ht
    exact (Tag.wellNamed_of_parse hstep).1
  have hends := endsInOperator_inputsText input siblings
  rw [Path.endsInOperator_iff (hwell _ (List.getLast_mem _))] at hends
  rw [← hends]
  constructor
  · exact separators_of_parseMapping
  · rintro ⟨hequals, hcomma, hoperator⟩
    exact parseMapping_mappingText houtput hinputs hequals hcomma hoperator

/-- An output whose key has the separators of inputs and of operators. -/
def listOutput : Path :=
  ⟨[Tag.elem none "record", { localName := "title", variant := some "a,b:all" }]⟩

/-- Inputs with an equals sign, and with a name that ends in that of an operator, before the number
of a descendancy or before a key. -/
def deepInput : Path :=
  ⟨[Tag.elem none "m=n", { qualifier := some "dc", localName := "first", descendancy := 2 }]⟩

def keyedInput : Path :=
  ⟨[Tag.elem none "m", { qualifier := some "dc", localName := "first", variant := some "k" }]⟩

theorem listOutput_parseMapping_text :
    mappingText listOutput deepInput [keyedInput] none =
      "/record/title[a,b:all]=/m=n/dc:first#2,/m/dc:first[k]" ∧
    parseMapping (mappingText listOutput deepInput [keyedInput] none) =
      .ok { output := listOutput, input := deepInput, siblings := [keyedInput] } := by
  have houtput : Path.parse listOutput.text = .ok listOutput := by with_unfolding_all rfl
  have hdeep : Path.parse deepInput.text = .ok deepInput := by with_unfolding_all rfl
  have hkeyed : Path.parse keyedInput.text = .ok keyedInput := by with_unfolding_all rfl
  have hinputs : ∀ p ∈ [deepInput, keyedInput], Path.parse p.text = .ok p := by
    simp [hdeep, hkeyed]
  refine ⟨by decide +kernel, (parseMapping_text_iff houtput hinputs).mpr ⟨?_, ?_, ?_⟩⟩
  · decide +kernel
  · simp only [List.forall_mem_cons]
    exact ⟨by decide +kernel, by decide +kernel, nofun⟩
  · rintro - ⟨t, ht, hop⟩
    cases ht
    exact absurd hop.variant nofun

/-- The path of a root and an element. -/
def recordPath (name : String) : Path := ⟨[Tag.elem none "record", Tag.elem none name]⟩

/-- An operator, a second input and another output are read where there is a name that has a
separator: each path is read back from its own text, but the mapping is another one. -/
theorem separators_read_as_another :
    (Path.parse (recordPath "a").text = .ok (recordPath "a") ∧
      Path.parse (Path.text ⟨[Tag.elem (some "dc") "first"]⟩) =
        .ok ⟨[Tag.elem (some "dc") "first"]⟩ ∧
      parseMapping (mappingText (recordPath "a") ⟨[Tag.elem (some "dc") "first"]⟩ [] none) =
        .ok { output := recordPath "a", input := ⟨[Tag.elem none "dc"]⟩,
              operator := some .first }) ∧
    (Path.parse (recordPath "b,c").text = .ok (recordPath "b,c") ∧
      parseMapping (mappingText (recordPath "a") (recordPath "b,c") [] none) =
        .ok { output := recordPath "a", input := recordPath "b",
              siblings := [⟨[Tag.elem none "c"]⟩] }) ∧
    (Path.parse (recordPath "b=c").text = .ok (recordPath "b=c") ∧
      parseMapping (mappingText (recordPath "b=c") (recordPath "a") [] none) =
        .ok { output := recordPath "b",
              input := ⟨[Tag.elem none "c=", Tag.elem none "record", Tag.elem none "a"]⟩ }) := by
  refine ⟨⟨?_, ?_, ?_⟩, ⟨?_, ?_⟩, ?_, ?_⟩ <;> with_unfolding_all rfl

end Command

end Crosswalk
