import Crosswalk.Proofs.TagText

/-!
The grammar of tags. A tag is written as the mark of an attribute, a prefix and its colon, a local
name, a depth and a key in brackets, where all but the local name may be left out. The reader cuts
the parts off from the last to the first, and accepts exactly what is written so; a text that it
accepts is written so of one tag only. What the writer puts out is read back as the same tag exactly
if it keeps to the grammar.
-/

namespace Crosswalk

namespace Text

variable {sep : Char} {cs as bs : List Char}

theorem cutFirst_eq_none_iff : cutFirst sep cs = none ↔ sep ∉ cs := by
  refine ⟨fun h => ?_, cutFirst_eq_none⟩
  induction cs with
  | nil => exact List.not_mem_nil
  | cons c cs ih =>
    rw [cutFirst] at h
    split at h
    · cases h
    · next hc =>
      have hcs := ih (by simpa using h)
      exact List.not_mem_cons_of_ne_of_not_mem (fun heq => hc heq.symm) hcs

theorem cutFirst_eq_some_iff :
    cutFirst sep cs = some (as, bs) ↔ cs = as ++ sep :: bs ∧ sep ∉ as := by
  constructor
  · intro h
    induction cs generalizing as with
    | nil => cases h
    | cons c cs ih =>
      rw [cutFirst] at h
      split at h
      · next hc =>
        cases h
        exact ⟨by rw [hc]; rfl, List.not_mem_nil⟩
      · next hc =>
        obtain ⟨⟨before, after⟩, hcut, heq⟩ := Option.map_eq_some_iff.mp h
        cases heq
        obtain ⟨rfl, hnot⟩ := ih hcut
        exact ⟨rfl, List.not_mem_cons_of_ne_of_not_mem (fun heq => hc heq.symm) hnot⟩
  · rintro ⟨rfl, hnot⟩
    exact cutFirst_append hnot bs

end Text

namespace Tag

open Text

/-! ### The grammar -/

/-- The characters that keep the parts of tags and paths apart. -/
def delimiters : List Char := ['/', ':', '@', '[', ']', '#']

/-- A prefix or local name has at least one character, and no blanks or delimiters. -/
def NameText (cs : List Char) : Prop := cs ≠ [] ∧ ∀ c ∈ cs, isBlank c = false ∧ c ∉ delimiters

/-- What stands for the prefix of a tag. -/
inductive QualifierText : List Char → Option String → Prop
  | absent : QualifierText [] none
  | present {q : String} (h : NameText q.toList) : QualifierText (q.toList ++ [':']) (some q)

/-- Decimal digits that denote a number of 32 bits. -/
structure Numeral (digits : List Char) (n : UInt32) : Prop where
  ne_nil : digits ≠ []
  isDigit : ∀ c ∈ digits, c.isDigit = true
  value : Nat.ofDigitChars 10 digits 0 = n.toNat

/-- What stands for the descendancy of a tag: a numeral, which may have a plus sign. -/
inductive DepthText : List Char → UInt32 → Prop
  | absent : DepthText [] 0
  | present {sign digits : List Char} {n : UInt32} (hsign : sign = [] ∨ sign = ['+'])
      (h : Numeral digits n) : DepthText ('#' :: (sign ++ digits)) n

/-- The items of a key and the characters that they stand for: a backslash stands for whatever
character follows it, and any other character but a closing bracket for itself. -/
inductive KeyItems : List Char → List Char → Prop
  | nil : KeyItems [] []
  | escaped (c : Char) {items key : List Char} (h : KeyItems items key) :
      KeyItems ('\\' :: c :: items) (c :: key)
  | plain {c : Char} (hescape : c ≠ '\\') (hclose : c ≠ ']') {items key : List Char}
      (h : KeyItems items key) : KeyItems (c :: items) (c :: key)

/-- What stands for the variant key of a tag: at least one item in brackets. -/
inductive KeyText : List Char → Option String → Prop
  | absent : KeyText [] none
  | present {items : List Char} {key : String} (hne : items ≠ []) (h : KeyItems items key.toList) :
      KeyText ('[' :: (items ++ [']'])) (some key)

/-- Whether a text is that of a tag's parts, one after the other. -/
def Spells (cs : List Char) (t : Tag) : Prop :=
  ∃ qualifier depth key,
    cs = (if t.isAttribute then ['@'] else [])
        ++ (qualifier ++ t.localName.toList ++ depth ++ key) ∧
      QualifierText qualifier t.qualifier ∧ NameText t.localName.toList ∧
      DepthText depth t.descendancy ∧ KeyText key t.variant

/-! ### Names -/

theorem reservedInName_eq_false_iff {c : Char} :
    reservedInName c = false ↔ isBlank c = false ∧ c ∉ delimiters := by
  simp [reservedInName, delimiters, and_assoc]

theorem isName_iff {cs : List Char} : IsName cs ↔ NameText cs := by
  simp only [IsName, NameText, reservedInName_eq_false_iff]

theorem NameText.notMem {cs : List Char} (h : NameText cs) {c : Char} (hc : c ∈ delimiters) :
    c ∉ cs :=
  fun hmem => (h.2 c hmem).2 hc

theorem wellNamed_iff {t : Tag} :
    t.WellNamed ↔ (∀ q ∈ t.qualifier, NameText q.toList) ∧ NameText t.localName.toList := by
  simp only [← isName_iff]
  exact ⟨fun h => ⟨h.qualifier, h.localName⟩, fun h => ⟨h.1, h.2⟩⟩

variable {whole : String} {cs rest : List Char}

theorem parseName_eq_ok_iff {qualifier : Option String} {localName : String} :
    parseName whole cs = .ok (qualifier, localName) ↔
      NameText localName.toList ∧ ∃ text, cs = text ++ localName.toList ∧
        QualifierText text qualifier := by
  rw [parseName]
  cases hcut : cutFirst ':' cs with
  | none =>
    have hcolon := cutFirst_eq_none_iff.mp hcut
    constructor
    · intro h
      obtain ⟨_, hname, h⟩ := bind_eq_ok_iff.mp h
      cases h
      rw [String.toList_ofList]
      exact ⟨isName_iff.mp (checkName_eq_ok_iff.mp hname), [], rfl, .absent⟩
    · rintro ⟨hname, text, rfl, hqualifier⟩
      cases hqualifier with
      | present => simp at hcolon
      | absent =>
        refine bind_eq_ok_iff.mpr ⟨(), checkName_eq_ok_iff.mpr (isName_iff.mpr hname), ?_⟩
        rw [List.nil_append, String.ofList_toList]
  | some parts =>
    obtain ⟨before, after⟩ := parts
    obtain ⟨rfl, hbefore⟩ := cutFirst_eq_some_iff.mp hcut
    constructor
    · intro h
      obtain ⟨_, hqualifier, h⟩ := bind_eq_ok_iff.mp h
      obtain ⟨_, hname, h⟩ := bind_eq_ok_iff.mp h
      cases h
      rw [checkName_eq_ok_iff, isName_iff] at hqualifier hname
      rw [← String.toList_ofList (l := before)] at hqualifier
      refine ⟨by rwa [String.toList_ofList], _, ?_, .present hqualifier⟩
      simp
    · rintro ⟨hname, text, heq, hqualifier⟩
      cases hqualifier with
      | absent =>
        -- the local name would have the colon
        refine absurd ?_ (hname.notMem (c := ':') (by decide))
        rw [← List.nil_append localName.toList, ← heq]
        simp
      | present hqual =>
        rw [List.append_assoc, List.singleton_append] at heq
        have hcut' := cutFirst_append (hqual.notMem (c := ':') (by decide)) localName.toList
        rw [← heq, hcut, Option.some.injEq, Prod.mk.injEq] at hcut'
        obtain ⟨rfl, rfl⟩ := hcut'
        refine bind_eq_ok_iff.mpr ⟨(), checkName_eq_ok_iff.mpr (isName_iff.mpr hqual), ?_⟩
        refine bind_eq_ok_iff.mpr ⟨(), checkName_eq_ok_iff.mpr (isName_iff.mpr hname), ?_⟩
        rw [String.ofList_toList, String.ofList_toList]

/-! ### Descendancies -/

theorem Numeral.dropPlus {digits : List Char} {n : UInt32} (h : Numeral digits n) :
    dropPlus digits = digits := by
  rw [dropPlus.eq_def]
  split
  · exact absurd (h.isDigit '+' List.mem_cons_self) (by decide)
  · rfl

theorem exists_sign (cs : List Char) :
    ∃ sign, (sign = [] ∨ sign = ['+']) ∧ cs = sign ++ dropPlus cs := by
  rw [dropPlus.eq_def]
  split
  · exact ⟨['+'], .inr rfl, rfl⟩
  · exact ⟨[], .inl rfl, rfl⟩

theorem word32?_eq_some_iff_dropPlus {n : UInt32} :
    word32? cs = some n ↔ Numeral (dropPlus cs) n := by
  rw [word32?, digitsValue_eq_ofDigitChars]
  generalize dropPlus cs = digits
  constructor
  · intro h
    split at h
    · cases h
    · next hdigits =>
      rw [Bool.or_eq_true, not_or, Bool.not_eq_true, Bool.not_eq_true', Bool.not_eq_false,
        List.isEmpty_eq_false_iff, List.all_eq_true] at hdigits
      split at h
      · cases h
        exact ⟨hdigits.1, hdigits.2, rfl⟩
      · cases h
  · rintro ⟨hne, hdigits, hvalue⟩
    have hall : digits.all Text.isDigit = true := List.all_eq_true.mpr hdigits
    simp [hne, hall, hvalue, n.toNat_lt]

theorem word32?_eq_some_iff {n : UInt32} :
    word32? cs = some n ↔ ∃ sign digits, (sign = [] ∨ sign = ['+']) ∧ cs = sign ++ digits ∧
      Numeral digits n := by
  rw [word32?_eq_some_iff_dropPlus]
  constructor
  · intro h
    obtain ⟨sign, hsign, hcs⟩ := exists_sign cs
    exact ⟨sign, _, hsign, hcs, h⟩
  · rintro ⟨sign, digits, rfl | rfl, rfl, h⟩
    · exact h.dropPlus.symm ▸ h
    · exact h

theorem parseDescendancy_eq_ok_iff {n : UInt32} :
    parseDescendancy whole cs = .ok (rest, n) ↔
      '#' ∉ rest ∧ ∃ text, cs = rest ++ text ∧ DepthText text n := by
  rw [parseDescendancy]
  cases hcut : cutFirst '#' cs with
  | none =>
    have hmark := cutFirst_eq_none_iff.mp hcut
    constructor
    · intro h
      cases h
      exact ⟨hmark, [], (List.append_nil cs).symm, .absent⟩
    · rintro ⟨-, text, rfl, hdepth⟩
      cases hdepth with
      | absent => rw [List.append_nil]
      | present => simp at hmark
  | some parts =>
    obtain ⟨name, numeral⟩ := parts
    obtain ⟨rfl, hname⟩ := cutFirst_eq_some_iff.mp hcut
    constructor
    · intro h
      dsimp only at h
      split at h
      · next m hm =>
        cases h
        obtain ⟨sign, digits, hsign, rfl, hnumeral⟩ := word32?_eq_some_iff.mp hm
        exact ⟨hname, _, rfl, .present hsign hnumeral⟩
      · cases h
    · rintro ⟨hrest, text, heq, hdepth⟩
      cases hdepth with
      | absent =>
        rw [List.append_nil] at heq
        simp [← heq] at hrest
      | present hsign hnumeral =>
        rw [heq, cutFirst_append hrest, Option.some.injEq, Prod.mk.injEq] at hcut
        obtain ⟨rfl, rfl⟩ := hcut
        simp only [word32?_eq_some_iff.mpr ⟨_, _, hsign, rfl, hnumeral⟩]

/-! ### Variant keys -/

theorem KeyItems.eq_nil_iff {items key : List Char} (h : KeyItems items key) :
    items = [] ↔ key = [] := by
  cases h <;> simp

theorem unescapeKey_append {items key : List Char} (h : KeyItems items key) :
    unescapeKey whole (items ++ [']']) = .ok key := by
  induction h with
  | nil => rfl
  | escaped c _ ih =>
    rw [List.cons_append, List.cons_append, unescapeKey, ih]
    rfl
  | plain hescape hclose _ ih =>
    rw [List.cons_append, unescapeKey, ih]
    · rfl
    all_goals simp_all

theorem exists_keyItems_of_unescapeKey {key : List Char} (h : unescapeKey whole cs = .ok key) :
    ∃ items, cs = items ++ [']'] ∧ KeyItems items key := by
  induction cs using unescapeKey.induct generalizing key with
  | case1 => cases h
  | case2 => cases h
  | case3 c cs ih =>
    obtain ⟨key, hkey, rfl⟩ := map_eq_ok_iff.mp h
    obtain ⟨items, rfl, hitems⟩ := ih hkey
    exact ⟨_, rfl, .escaped c hitems⟩
  | case4 =>
    cases h
    exact ⟨[], rfl, .nil⟩
  | case5 => cases h
  | case6 c cs hlast hescape hclosed hclose ih =>
    have hc : c ≠ '\\' ∧ c ≠ ']' := by
      cases cs with
      | nil => exact ⟨fun h => hlast h rfl, fun h => hclosed h rfl⟩
      | cons d ds => exact ⟨fun h => hescape d ds h rfl, fun h => hclose d ds h rfl⟩
    rw [unescapeKey.eq_def] at h
    split at h
    case h_6 =>
      cases ‹c :: cs = _›
      obtain ⟨key, hkey, rfl⟩ := map_eq_ok_iff.mp h
      obtain ⟨items, rfl, hitems⟩ := ih hkey
      exact ⟨_, rfl, .plain hc.1 hc.2 hitems⟩
    all_goals simp_all

theorem parseKey_eq_ok_iff {key : String} :
    parseKey whole cs = .ok key ↔
      ∃ items, cs = items ++ [']'] ∧ items ≠ [] ∧ KeyItems items key.toList := by
  rw [parseKey]
  constructor
  · intro h
    obtain ⟨chars, hchars, hkey⟩ := bind_eq_ok_iff.mp h
    obtain ⟨items, rfl, hitems⟩ := exists_keyItems_of_unescapeKey hchars
    split at hkey
    · cases hkey
    · next hne =>
      cases hkey
      rw [List.isEmpty_iff, ← hitems.eq_nil_iff] at hne
      exact ⟨items, rfl, hne, by rwa [String.toList_ofList]⟩
  · rintro ⟨items, rfl, hne, hitems⟩
    refine bind_eq_ok_iff.mpr ⟨key.toList, unescapeKey_append hitems, ?_⟩
    rw [ne_eq, hitems.eq_nil_iff, ← List.isEmpty_iff] at hne
    rw [if_neg hne, String.ofList_toList]

theorem parseVariant_eq_ok_iff {variant : Option String} :
    parseVariant whole cs = .ok (rest, variant) ↔
      '[' ∉ rest ∧ ∃ text, cs = rest ++ text ∧ KeyText text variant := by
  rw [parseVariant]
  cases hcut : cutFirst '[' cs with
  | none =>
    have hbracket := cutFirst_eq_none_iff.mp hcut
    constructor
    · intro h
      cases h
      exact ⟨hbracket, [], (List.append_nil cs).symm, .absent⟩
    · rintro ⟨-, text, rfl, hkey⟩
      cases hkey with
      | absent => rw [List.append_nil]
      | present => simp at hbracket
  | some parts =>
    obtain ⟨name, keyText⟩ := parts
    obtain ⟨rfl, hname⟩ := cutFirst_eq_some_iff.mp hcut
    constructor
    · intro h
      obtain ⟨key, hkey, h⟩ := bind_eq_ok_iff.mp h
      cases h
      obtain ⟨items, rfl, hne, hitems⟩ := parseKey_eq_ok_iff.mp hkey
      exact ⟨hname, _, rfl, .present hne hitems⟩
    · rintro ⟨hrest, text, heq, hkey⟩
      cases hkey with
      | absent =>
        rw [List.append_nil] at heq
        simp [← heq] at hrest
      | present hne hitems =>
        rw [heq, cutFirst_append hrest, Option.some.injEq, Prod.mk.injEq] at hcut
        obtain ⟨rfl, rfl⟩ := hcut
        exact bind_eq_ok_iff.mpr ⟨_, parseKey_eq_ok_iff.mpr ⟨_, rfl, hne, hitems⟩, rfl⟩

/-! ### Tags -/

theorem parseMark_eq_iff {isAttribute : Bool} :
    parseMark cs = (isAttribute, rest) ↔
      cs = (if isAttribute then ['@'] else []) ++ rest ∧
        (isAttribute = false → rest.head? ≠ some '@') := by
  rw [parseMark.eq_def]
  split
  · cases isAttribute with
    | true => simp [eq_comm]
    | false =>
      constructor
      · nofun
      · rintro ⟨rfl, hhead⟩
        exact absurd rfl (hhead rfl)
  · next hmark =>
    constructor
    · intro h
      cases h
      refine ⟨rfl, fun _ hhead => ?_⟩
      cases cs with
      | nil => cases hhead
      | cons c cs => exact hmark cs (by rw [Option.some.inj hhead])
    · rintro ⟨rfl, hhead⟩
      cases isAttribute with
      | true => exact absurd rfl (hmark rest)
      | false => rfl

/-- No delimiter but the colon stands ahead of the descendancy. -/
theorem QualifierText.notMem {text : List Char} {qualifier : Option String}
    (h : QualifierText text qualifier) {c : Char} (hc : c ∈ delimiters) (hcolon : c ≠ ':') :
    c ∉ text := by
  cases h with
  | absent => exact List.not_mem_nil
  | present hname => simp [hname.notMem hc, hcolon]

theorem DepthText.notMem {text : List Char} {n : UInt32} (h : DepthText text n) : '[' ∉ text := by
  cases h with
  | absent => exact List.not_mem_nil
  | present hsign hnumeral =>
    have hdigits : '[' ∉ _ := fun hmem => absurd (hnumeral.isDigit '[' hmem) (by decide)
    rcases hsign with rfl | rfl <;> simpa using hdigits

theorem parse_eq_ok_iff {s : String} {t : Tag} : parse s = .ok t ↔ Spells s.toList t := by
  constructor
  · intro h
    obtain ⟨⟨cs, variant⟩, hvariant, h⟩ := bind_eq_ok_iff.mp h
    obtain ⟨⟨cs', descendancy⟩, hdepth, h⟩ := bind_eq_ok_iff.mp h
    obtain ⟨⟨qualifier, localName⟩, hname, h⟩ := bind_eq_ok_iff.mp h
    cases h
    obtain ⟨-, keyText, hcs, hkey⟩ := parseVariant_eq_ok_iff.mp hvariant
    obtain ⟨-, depthText, rfl, hdescendancy⟩ := parseDescendancy_eq_ok_iff.mp hdepth
    obtain ⟨hlocal, prefixText, rfl, hqualifier⟩ := parseName_eq_ok_iff.mp hname
    refine ⟨prefixText, depthText, keyText, ?_, hqualifier, hlocal, hdescendancy, hkey⟩
    rw [← hcs]
    exact (parseMark_eq_iff.mp rfl).1
  · rintro ⟨prefixText, depthText, keyText, htext, hqualifier, hlocal, hdescendancy, hkey⟩
    -- each cut is made where its part starts, as no part before has the mark of it
    have hname : ∀ c ∈ delimiters, c ≠ ':' → c ∉ prefixText ++ t.localName.toList := by
      intro c hc hcolon
      rw [List.mem_append, not_or]
      exact ⟨hqualifier.notMem hc hcolon, hlocal.notMem hc⟩
    have hmark : parseMark s.toList =
        (t.isAttribute, prefixText ++ t.localName.toList ++ depthText ++ keyText) := by
      refine parseMark_eq_iff.mpr ⟨htext, fun _ hhead => ?_⟩
      have hat := hname '@' (by decide) (by decide)
      cases hchars : prefixText ++ t.localName.toList with
      | nil => exact hlocal.1 (List.append_eq_nil_iff.mp hchars).2
      | cons c cs =>
        rw [hchars, List.cons_append, List.cons_append, List.head?_cons, Option.some.injEq] at hhead
        rw [hchars, hhead] at hat
        exact hat List.mem_cons_self
    have hbracket : '[' ∉ prefixText ++ t.localName.toList ++ depthText := by
      rw [List.mem_append, not_or]
      exact ⟨hname '[' (by decide) (by decide), hdescendancy.notMem⟩
    have hnumber := hname '#' (by decide) (by decide)
    rw [parse, hmark]
    refine bind_eq_ok_iff.mpr ⟨(prefixText ++ t.localName.toList ++ depthText, t.variant), ?_, ?_⟩
    · exact parseVariant_eq_ok_iff.mpr ⟨hbracket, keyText, rfl, hkey⟩
    refine bind_eq_ok_iff.mpr ⟨(prefixText ++ t.localName.toList, t.descendancy), ?_, ?_⟩
    · exact parseDescendancy_eq_ok_iff.mpr ⟨hnumber, depthText, rfl, hdescendancy⟩
    refine bind_eq_ok_iff.mpr ⟨(t.qualifier, t.localName), ?_, rfl⟩
    exact parseName_eq_ok_iff.mpr ⟨hlocal, prefixText, rfl, hqualifier⟩

/-- The reader accepts exactly the texts of the grammar, each as the tag whose parts it has. The
text of a tag is read as that tag exactly if its names are names of the grammar and its key, if it
has one, is not empty. -/
theorem parse_iff_spells (s : String) (t : Tag) :
    (parse s = .ok t ↔ Spells s.toList t) ∧
      (parse t.text = .ok t ↔ (∀ q ∈ t.qualifier, NameText q.toList) ∧
        NameText t.localName.toList ∧ t.variant ≠ some "") := by
  refine ⟨parse_eq_ok_iff, fun h => ?_, ?_⟩
  · obtain ⟨hnames, hkey⟩ := wellNamed_of_parse h
    obtain ⟨hqualifier, hlocal⟩ := wellNamed_iff.mp hnames
    exact ⟨hqualifier, hlocal, hkey⟩
  · rintro ⟨hqualifier, hlocal, hkey⟩
    exact (wellNamed_iff.mpr ⟨hqualifier, hlocal⟩).parse_text_eq_ok_iff.mpr hkey

end Tag

end Crosswalk
