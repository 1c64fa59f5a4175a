import Crosswalk.Proofs.Document
import Crosswalk.Tag.Text

/-!
Tags read back from their texts. A tag whose names can be read is read back from its text, unless it
has an empty variant key, which the text shows and the reader refuses. A text of such a tag is not
cut at the separator of a path; but where it ends in a backslash that nothing escapes, it takes the
separator after it along.
-/

namespace Crosswalk

/-! ### Cutting at a character -/

namespace Text

theorem cutFirst_append {sep : Char} {as : List Char} (h : sep ∉ as) (bs : List Char) :
    cutFirst sep (as ++ sep :: bs) = some (as, bs) := by
  induction as with
  | nil => simp [cutFirst]
  | cons a as ih =>
    rw [List.mem_cons, not_or] at h
    rw [List.cons_append, cutFirst, if_neg fun ha => h.1 ha.symm, ih h.2]
    rfl

theorem cutFirst_eq_none {sep : Char} {cs : List Char} (h : sep ∉ cs) : cutFirst sep cs = none := by
  induction cs with
  | nil => rfl
  | cons c cs ih =>
    rw [List.mem_cons, not_or] at h
    rw [cutFirst, if_neg fun hc => h.1 hc.symm, ih h.2]
    rfl

/-! ### Numerals -/

theorem digitsValue_eq_ofDigitChars (sofar : Nat) (cs : List Char) :
    digitsValue sofar cs = Nat.ofDigitChars 10 cs sofar := by
  induction cs generalizing sofar with
  | nil => rfl
  | cons c cs ih =>
    rw [Nat.ofDigitChars_cons, ← ih]
    rfl

/-- The digits of a number are read as it, whatever numbers there are besides. -/
theorem word32?_toDigits (n : UInt32) : word32? (Nat.toDigits 10 n.toNat) = some n := by
  have hdigit : ∀ c ∈ Nat.toDigits 10 n.toNat, isDigit c = true := fun c hc =>
    Nat.isDigit_of_mem_toDigits (by decide) (by decide) hc
  have hplus : dropPlus (Nat.toDigits 10 n.toNat) = Nat.toDigits 10 n.toNat := by
    rw [dropPlus.eq_def]
    split
    · next cs heq =>
      have hplus := hdigit '+' (heq ▸ List.mem_cons_self)
      exact absurd hplus (by decide)
    · rfl
  have hvalue : digitsValue 0 (Nat.toDigits 10 n.toNat) = n.toNat := by
    rw [digitsValue_eq_ofDigitChars, Nat.ofDigitChars_toDigits (by decide) (by decide)]
  have hne : (Nat.toDigits 10 n.toNat).isEmpty = false := by
    simp [Nat.toDigits_ne_nil]
  have hall : (Nat.toDigits 10 n.toNat).all isDigit = true := List.all_eq_true.mpr hdigit
  simp [word32?, hplus, hne, hall, hvalue, n.toNat_lt]

/-! ### Escapes -/

/-- Whether a character escapes the next one, where it is or is not escaped itself. -/
def escapesNext (escaped : Bool) (c : Char) : Bool := !escaped && c == '\\'

/-- Whether the last character of a text is a backslash that would escape a next one. -/
def endsInEscape (cs : List Char) : Bool := cs.foldl escapesNext false

/-- Whether every `sep` of a text is escaped, where its first character is or is not. -/
def AllEscaped (sep : Char) : Bool → List Char → Prop
  | _, [] => True
  | escaped, c :: cs => (escaped = false → c ≠ sep) ∧ AllEscaped sep (escapesNext escaped c) cs

theorem endsInEscape_concat (cs : List Char) (c : Char) :
    endsInEscape (cs ++ [c]) = escapesNext (endsInEscape cs) c := by
  rw [endsInEscape, List.foldl_append]
  rfl

theorem endsInEscape_append {as : List Char} (h : endsInEscape as = false) (bs : List Char) :
    endsInEscape (as ++ bs) = endsInEscape bs := by
  rw [endsInEscape] at h
  rw [endsInEscape, List.foldl_append, h, endsInEscape]

theorem escapesNext_of_ne (escaped : Bool) {c : Char} (h : c ≠ '\\') :
    escapesNext escaped c = false := by
  simp [escapesNext, h]

theorem endsInEscape_append_of_notMem (as : List Char) {bs : List Char} (hne : bs ≠ [])
    (h : '\\' ∉ bs) : endsInEscape (as ++ bs) = false := by
  obtain ⟨init, c, rfl⟩ := (List.eq_nil_or_concat bs).resolve_left hne
  rw [List.concat_eq_append] at h ⊢
  rw [← List.append_assoc, endsInEscape_concat]
  refine escapesNext_of_ne _ ?_
  rintro rfl
  exact h (List.mem_append_right _ List.mem_cons_self)

theorem allEscaped_append {sep : Char} {bs : List Char} (as : List Char) : ∀ {escaped : Bool},
    AllEscaped sep escaped (as ++ bs) ↔
      AllEscaped sep escaped as ∧ AllEscaped sep (as.foldl escapesNext escaped) bs := by
  induction as with
  | nil => simp [AllEscaped]
  | cons a as ih =>
    intro escaped
    rw [List.cons_append, AllEscaped, AllEscaped, ih, List.foldl_cons, and_assoc]

theorem allEscaped_of_notMem {sep : Char} {cs : List Char} (h : sep ∉ cs) : ∀ {escaped : Bool},
    AllEscaped sep escaped cs := by
  induction cs with
  | nil => exact trivial
  | cons c cs ih =>
    rw [List.mem_cons, not_or] at h
    exact ⟨fun _ hc => h.1 hc.symm, ih h.2⟩

theorem foldr_consFirst (as p : List Char) (ps : List (List Char)) :
    as.foldr consFirst (p :: ps) = (as ++ p) :: ps := by
  induction as with
  | nil => rfl
  | cons a as ih => rw [List.foldr_cons, ih]; rfl

theorem unescapedPieces_ne_nil (sep : Char) (cs : List Char) : unescapedPieces sep cs ≠ [] := by
  have hcons : ∀ c ps, consFirst c ps ≠ [] := fun c ps => by cases ps <;> simp [consFirst]
  rw [unescapedPieces.eq_def]
  split
  · simp
  · simp
  · exact hcons _ _
  · split
    · simp
    · exact hcons _ _

/-- A text is put in front of the first piece of what follows it, if it ends in no escape. -/
theorem unescapedPieces_append {sep : Char} (as bs : List Char) (h : AllEscaped sep false as)
    (hend : endsInEscape as = false) :
    unescapedPieces sep (as ++ bs) = as.foldr consFirst (unescapedPieces sep bs) := by
  induction as using unescapedPieces.induct sep with
  | case1 => rfl
  | case2 => cases hend
  | case3 c cs ih =>
    rw [List.cons_append, List.cons_append, unescapedPieces, ih h.2.2 hend]
    rfl
  | case4 cs hlast hescape ih => exact absurd rfl (h.1 rfl)
  | case5 c cs hlast hescape hsep ih =>
    have hc : c ≠ '\\' := by
      rintro rfl
      cases cs with
      | nil => exact hlast rfl rfl
      | cons d ds => exact hescape d ds rfl rfl
    have hcs := h.2
    rw [escapesNext_of_ne _ hc] at hcs
    rw [endsInEscape, List.foldl_cons, escapesNext_of_ne _ hc] at hend
    rw [List.cons_append, List.foldr_cons, ← ih hcs hend, unescapedPieces, if_neg hsep]
    · exact fun h _ => hc h
    · exact fun d ds h _ => hc h

variable {sep : Char} {as : List Char}

theorem unescapedPieces_append_sep (hsep : sep ≠ '\\') (h : AllEscaped sep false as)
    (hend : endsInEscape as = false) (bs : List Char) :
    unescapedPieces sep (as ++ sep :: bs) = as :: unescapedPieces sep bs := by
  have hhead : unescapedPieces sep (sep :: bs) = [] :: unescapedPieces sep bs := by
    rw [unescapedPieces, if_pos rfl]
    · exact fun h _ => hsep h
    · exact fun d ds h _ => hsep h
  rw [unescapedPieces_append as _ h hend, hhead, foldr_consFirst, List.append_nil]

theorem unescapedPieces_eq_singleton (h : AllEscaped sep false as) :
    unescapedPieces sep as = [as] := by
  cases hend : endsInEscape as with
  | false =>
    calc unescapedPieces sep as = unescapedPieces sep (as ++ []) := by rw [List.append_nil]
      _ = as.foldr consFirst [[]] := unescapedPieces_append as [] h hend
      _ = [as] := by rw [foldr_consFirst, List.append_nil]
  | true =>
    -- the last backslash, with nothing to escape, stays in the piece
    rcases List.eq_nil_or_concat as with rfl | ⟨init, c, rfl⟩
    · cases hend
    · rw [List.concat_eq_append] at h hend ⊢
      rw [endsInEscape_concat, escapesNext, Bool.and_eq_true, Bool.not_eq_true', beq_iff_eq] at hend
      obtain ⟨hinit, rfl⟩ := hend
      rw [unescapedPieces_append init _ ((allEscaped_append init).mp h).1 hinit]
      exact foldr_consFirst init ['\\'] []

/-- A text that ends in an escape stays in one piece with what follows the separator. -/
theorem length_unescapedPieces_append_sep (h : AllEscaped sep false as)
    (hend : endsInEscape as = true) (bs : List Char) :
    (unescapedPieces sep (as ++ sep :: bs)).length = (unescapedPieces sep bs).length := by
  have hall : AllEscaped sep false (as ++ [sep]) := by
    refine (allEscaped_append as).mpr ⟨h, fun hnot => ?_, trivial⟩
    exact absurd (hend.symm.trans hnot) (by decide)
  have hnone : endsInEscape (as ++ [sep]) = false := by
    rw [endsInEscape_concat, hend]
    rfl
  rw [← List.singleton_append, ← List.append_assoc, unescapedPieces_append _ bs hall hnone]
  cases hbs : unescapedPieces sep bs with
  | nil => exact absurd hbs (unescapedPieces_ne_nil sep bs)
  | cons p ps => rw [foldr_consFirst, List.length_cons, List.length_cons]

end Text

/-! ### Names -/

namespace Tag

open Text

/-- Whether a text can be read as a prefix or local name. -/
def IsName (cs : List Char) : Prop := cs ≠ [] ∧ ∀ c ∈ cs, reservedInName c = false

theorem checkName_eq_ok_iff {whole : String} {cs : List Char} :
    checkName whole cs = .ok () ↔ IsName cs := by
  rw [checkName, IsName]
  by_cases hne : cs = []
  · simp [hne]
  rw [if_neg (by simpa using hne)]
  cases hfind : cs.find? reservedInName with
  | some c =>
    have hreserved := List.find?_some hfind
    have hmem := List.mem_of_find?_eq_some hfind
    simpa [hne] using ⟨c, hmem, hreserved⟩
  | none => simpa [hne] using hfind

theorem IsName.notMem {cs : List Char} (h : IsName cs) {c : Char} (hc : reservedInName c = true) :
    c ∉ cs := by
  intro hmem
  rw [h.2 c hmem] at hc
  cases hc

/-- A tag whose names can be read. -/
structure WellNamed (t : Tag) : Prop where
  qualifier : ∀ q ∈ t.qualifier, IsName q.toList
  localName : IsName t.localName.toList

theorem WellNamed.withVariant {t : Tag} (h : t.WellNamed) (key : String) :
    (t.withVariant key).WellNamed :=
  ⟨h.qualifier, h.localName⟩

theorem wellNamed_withoutVariant {t : Tag} : t.withoutVariant.WellNamed ↔ t.WellNamed :=
  ⟨fun h => ⟨h.qualifier, h.localName⟩, fun h => ⟨h.qualifier, h.localName⟩⟩

theorem isName_of_parseName {whole : String} {cs : List Char} {qualifier : Option String}
    {localName : String} (h : parseName whole cs = .ok (qualifier, localName)) :
    (∀ q ∈ qualifier, IsName q.toList) ∧ IsName localName.toList := by
  rw [parseName] at h
  split at h
  · obtain ⟨_, hqualifier, h⟩ := bind_eq_ok_iff.mp h
    obtain ⟨_, hlocal, h⟩ := bind_eq_ok_iff.mp h
    cases h
    rw [String.toList_ofList]
    refine ⟨?_, checkName_eq_ok_iff.mp hlocal⟩
    rintro q ⟨⟩
    rw [String.toList_ofList]
    exact checkName_eq_ok_iff.mp hqualifier
  · obtain ⟨_, hlocal, h⟩ := bind_eq_ok_iff.mp h
    cases h
    rw [String.toList_ofList]
    exact ⟨nofun, checkName_eq_ok_iff.mp hlocal⟩

theorem variant_ne_of_parseVariant {whole : String} {cs cs' : List Char} {variant : Option String}
    (h : parseVariant whole cs = .ok (cs', variant)) : variant ≠ some "" := by
  rw [parseVariant] at h
  split at h
  · obtain ⟨key, hkey, h⟩ := bind_eq_ok_iff.mp h
    obtain ⟨chars, -, hkey⟩ := bind_eq_ok_iff.mp hkey
    cases h
    split at hkey
    · cases hkey
    · next hne =>
      cases hkey
      simpa using hne
  · cases h
    nofun

/-- The names of what is read can be read, and its variant key is not empty. -/
theorem wellNamed_of_parse {s : String} {t : Tag} (h : Tag.parse s = .ok t) :
    t.WellNamed ∧ t.variant ≠ some "" := by
  obtain ⟨⟨cs, variant⟩, hvariant, h⟩ := bind_eq_ok_iff.mp h
  obtain ⟨⟨cs', descendancy⟩, -, h⟩ := bind_eq_ok_iff.mp h
  obtain ⟨⟨qualifier, localName⟩, hname, h⟩ := bind_eq_ok_iff.mp h
  cases h
  have hnames := isName_of_parseName hname
  exact ⟨⟨hnames.1, hnames.2⟩, variant_ne_of_parseVariant hvariant⟩

/-! ### Texts of tags -/

theorem unescapeKey_escapeKey (whole : String) (cs : List Char) :
    unescapeKey whole (escapeKey cs ++ [']']) = .ok cs := by
  induction cs with
  | nil => rfl
  | cons c cs ih =>
    rw [escapeKey]
    split
    · rw [List.cons_append, List.cons_append, unescapeKey, ih]
      rfl
    · next hc =>
      simp only [escapedInKey, Bool.or_eq_true, beq_iff_eq, not_or] at hc
      rw [List.cons_append, unescapeKey, ih]
      · rfl
      all_goals simp_all

theorem parseKey_escapeKey (whole key : String) :
    parseKey whole (escapeKey key.toList ++ [']']) =
      if key = "" then .error (.empty whole) else .ok key := by
  rw [parseKey, unescapeKey_escapeKey]
  by_cases hkey : key = ""
  · subst hkey
    rfl
  · have hne : key.toList.isEmpty = false := by simpa using hkey
    rw [if_neg hkey]
    refine bind_eq_ok_iff.mpr ⟨key.toList, rfl, ?_⟩
    rw [hne, String.ofList_toList]
    rfl

/-- The text of the descendancy of a tag. -/
def depthChars (t : Tag) : List Char :=
  if t.descendancy = 0 then [] else '#' :: Nat.toDigits 10 t.descendancy.toNat

/-- The text of the variant key of a tag. -/
def keyChars (t : Tag) : List Char :=
  match t.variant with
  | some key => '[' :: escapeKey key.toList ++ [']']
  | none => []

theorem keyChars_of_some {t : Tag} {key : String} (h : t.variant = some key) :
    t.keyChars = '[' :: (escapeKey key.toList ++ [']']) := by
  rw [keyChars, h]
  rfl

theorem keyChars_of_none {t : Tag} (h : t.variant = none) : t.keyChars = [] := by
  rw [keyChars, h]

theorem chars_eq (t : Tag) :
    t.chars =
      (if t.isAttribute then ['@'] else []) ++ (t.qname.toList ++ t.depthChars ++ t.keyChars) := by
  rw [chars, List.append_assoc, List.append_assoc, List.append_assoc]
  rfl

theorem notMem_depthChars {c : Char} (hdigit : c.isDigit = false) (hmark : c ≠ '#') (t : Tag) :
    c ∉ t.depthChars := by
  have hdigits : c ∉ Nat.toDigits 10 t.descendancy.toNat := fun hmem => by
    rw [Nat.isDigit_of_mem_toDigits (by decide) (by decide) hmem] at hdigit
    cases hdigit
  rw [depthChars]
  split
  · exact List.not_mem_nil
  · exact List.not_mem_cons_of_ne_of_not_mem hmark hdigits

namespace WellNamed

variable {t : Tag}

/-- A qualified name has no reserved character but the colon. -/
theorem notMem_qname (h : t.WellNamed) {c : Char} (hc : reservedInName c = true)
    (hcolon : c ≠ ':') : c ∉ t.qname.toList := by
  have hlocal := h.localName.notMem hc
  rw [qname]
  split
  · next q hq =>
    have hqualifier := (h.qualifier q hq).notMem hc
    simp [hqualifier, hlocal, hcolon]
  · exact hlocal

theorem qname_ne_nil (h : t.WellNamed) : t.qname.toList ≠ [] := by
  have hlocal := h.localName.1
  rw [qname]
  split
  · simp
  · exact hlocal

theorem parseMark_chars (h : t.WellNamed) :
    parseMark t.chars = (t.isAttribute, t.qname.toList ++ t.depthChars ++ t.keyChars) := by
  rw [chars_eq]
  cases t.isAttribute with
  | true => rfl
  | false =>
    have hat := h.notMem_qname (c := '@') (by decide) (by decide)
    cases hname : t.qname.toList with
    | nil => exact absurd hname h.qname_ne_nil
    | cons c cs =>
      rw [hname] at hat
      rw [if_neg Bool.false_ne_true, List.nil_append, List.cons_append, List.cons_append, parseMark]
      rintro _ ⟨⟩
      exact hat List.mem_cons_self

/-- No bracket stands ahead of the variant key. -/
theorem notMem_qname_depthChars (h : t.WellNamed) : '[' ∉ t.qname.toList ++ t.depthChars := by
  have hname := h.notMem_qname (c := '[') (by decide) (by decide)
  rw [List.mem_append, not_or]
  exact ⟨hname, t.notMem_depthChars (by decide) (by decide)⟩

theorem parseVariant_chars (h : t.WellNamed) (whole : String) :
    parseVariant whole (t.qname.toList ++ t.depthChars ++ t.keyChars) =
      if t.variant = some "" then .error (.empty whole)
      else .ok (t.qname.toList ++ t.depthChars, t.variant) := by
  have hbracket := h.notMem_qname_depthChars
  rw [parseVariant]
  cases hvariant : t.variant with
  | none =>
    rw [keyChars_of_none hvariant, List.append_nil, cutFirst_eq_none hbracket]
    rfl
  | some key =>
    have hparse := parseKey_escapeKey whole key
    rw [keyChars_of_some hvariant, cutFirst_append hbracket]
    by_cases hkey : key = ""
    · rw [if_pos hkey] at hparse
      rw [if_pos (congrArg some hkey)]
      simp [hparse, bind, Except.bind]
    · rw [if_neg hkey] at hparse
      simp [hparse, hkey, bind, Except.bind]

theorem parseDescendancy_chars (h : t.WellNamed) (whole : String) :
    parseDescendancy whole (t.qname.toList ++ t.depthChars) =
      .ok (t.qname.toList, t.descendancy) := by
  have hdepth := h.notMem_qname (c := '#') (by decide) (by decide)
  rw [parseDescendancy, depthChars]
  by_cases hzero : t.descendancy = 0
  · rw [if_pos hzero, List.append_nil, cutFirst_eq_none hdepth, hzero]
  · rw [if_neg hzero, cutFirst_append hdepth]
    simp only [word32?_toDigits]

theorem parseName_chars (h : t.WellNamed) (whole : String) :
    parseName whole t.qname.toList = .ok (t.qualifier, t.localName) := by
  have hlocal : checkName whole t.localName.toList = .ok () := checkName_eq_ok_iff.mpr h.localName
  rw [parseName, qname]
  cases hq : t.qualifier with
  | none =>
    rw [cutFirst_eq_none (h.localName.notMem (by decide))]
    refine bind_eq_ok_iff.mpr ⟨(), hlocal, ?_⟩
    rw [String.ofList_toList]
  | some q =>
    have hname := h.qualifier q hq
    have hqualifier : checkName whole q.toList = .ok () := checkName_eq_ok_iff.mpr hname
    have hcut : (q ++ ":" ++ t.localName).toList = q.toList ++ ':' :: t.localName.toList := by simp
    rw [hcut, cutFirst_append (hname.notMem (by decide))]
    refine bind_eq_ok_iff.mpr ⟨(), hqualifier, bind_eq_ok_iff.mpr ⟨(), hlocal, ?_⟩⟩
    rw [String.ofList_toList, String.ofList_toList]

/-- A tag is read back from its text, unless its variant key is empty. -/
theorem parse_text (h : t.WellNamed) :
    parse t.text = if t.variant = some "" then .error (.empty t.text) else .ok t := by
  have hchars : t.text.toList = t.chars := String.toList_ofList
  rw [parse, hchars, h.parseMark_chars]
  simp only [h.parseVariant_chars]
  split
  · rfl
  · simp [bind, Except.bind, h.parseDescendancy_chars, h.parseName_chars]

theorem parse_text_eq_ok_iff (h : t.WellNamed) : parse t.text = .ok t ↔ t.variant ≠ some "" := by
  rw [h.parse_text]
  split
  · next hempty => simp [hempty]
  · next hne => simp [hne]

end WellNamed

/-! ### Escapes in texts of tags -/

/-- Whether the text of a tag ends in a backslash that would escape what comes next: only a local
name that the text ends with can do so. -/
def EndsEscaping (t : Tag) : Prop :=
  t.variant = none ∧ t.descendancy = 0 ∧ endsInEscape t.localName.toList = true

instance (t : Tag) : Decidable t.EndsEscaping := by
  unfold EndsEscaping
  infer_instance

/-- What stands ahead of the local name does not reach into it. -/
theorem exists_append_localName (t : Tag) : ∃ cs, endsInEscape cs = false ∧
    (if t.isAttribute then ['@'] else []) ++ t.qname.toList = cs ++ t.localName.toList := by
  have hmark : ∀ as, endsInEscape (as ++ [':']) = false := fun as =>
    endsInEscape_append_of_notMem as (by simp) (by decide)
  have hattribute : endsInEscape (if t.isAttribute then ['@'] else []) = false := by
    cases t.isAttribute <;> rfl
  rw [qname]
  generalize (if t.isAttribute then ['@'] else []) = mark at hattribute ⊢
  cases t.qualifier with
  | some q => exact ⟨mark ++ q.toList ++ [':'], hmark _, by simp⟩
  | none => exact ⟨mark, hattribute, rfl⟩

theorem endsInEscape_chars (t : Tag) : endsInEscape t.chars = true ↔ t.EndsEscaping := by
  rw [chars_eq, EndsEscaping]
  cases hvariant : t.variant with
  | some key =>
    rw [keyChars_of_some hvariant, ← List.cons_append, ← List.append_assoc, ← List.append_assoc,
      endsInEscape_append_of_notMem _ (by simp) (by decide)]
    simp
  | none =>
    rw [keyChars_of_none hvariant, List.append_nil, ← List.append_assoc]
    by_cases hzero : t.descendancy = 0
    · obtain ⟨cs, hcs, heq⟩ := t.exists_append_localName
      rw [heq, depthChars, if_pos hzero, List.append_nil, endsInEscape_append hcs]
      simp [hzero]
    · have hne : t.depthChars ≠ [] := by simp [depthChars, hzero]
      rw [endsInEscape_append_of_notMem _ hne (t.notMem_depthChars (by decide) (by decide))]
      simp [hzero]

theorem allEscaped_escapeKey (ks cs : List Char) (h : AllEscaped '/' false cs) :
    AllEscaped '/' false (escapeKey ks ++ cs) := by
  induction ks with
  | nil => exact h
  | cons k ks ih =>
    rw [escapeKey]
    split
    · exact ⟨fun _ => by decide, nofun, ih⟩
    · next hk =>
      simp only [escapedInKey, Bool.or_eq_true, beq_iff_eq, not_or] at hk
      refine ⟨fun _ => hk.2, ?_⟩
      rw [escapesNext_of_ne _ hk.1.1.1]
      exact ih

/-- The text of a tag has no separator but what is escaped. -/
theorem WellNamed.allEscaped_chars {t : Tag} (h : t.WellNamed) : AllEscaped '/' false t.chars := by
  have hname := h.notMem_qname (c := '/') (by decide) (by decide)
  have hmark : '/' ∉ (if t.isAttribute then ['@'] else []) := by cases t.isAttribute <;> decide
  rw [chars_eq, ← List.append_assoc, allEscaped_append]
  constructor
  · refine allEscaped_of_notMem ?_
    simp [hmark, hname, t.notMem_depthChars (c := '/') (by decide) (by decide)]
  · cases hvariant : t.variant with
    | none =>
      rw [keyChars_of_none hvariant]
      trivial
    | some key =>
      rw [keyChars_of_some hvariant]
      refine ⟨fun _ => by decide, ?_⟩
      rw [escapesNext_of_ne _ (by decide)]
      exact allEscaped_escapeKey _ _ ⟨fun _ => by decide, trivial⟩

end Tag

end Crosswalk
