import Crosswalk.Path.Text
import Crosswalk.Proofs.TagText

/-!
Paths read back from their texts. The separator after a tag whose text ends in a backslash is taken
for an escaped character, so the texts of that tag and the next are read as one. Only a local name
can end a text so: the backslashes of a variant key are escaped, and brackets and digits follow it.
A path is read back from its text exactly if no tag but its last ends so, and none has an empty
variant key.
-/

namespace Crosswalk.Path

open Text

/-! ### Steps of a text -/

theorem parseSteps_cons_eq_ok_iff {whole : String} {step : List Char} {rest : List (List Char)}
    {ts : List Tag} : parseSteps whole (step :: rest) = .ok ts ↔
      ∃ t ts', Tag.parse (String.ofList step) = .ok t ∧ parseSteps whole rest = .ok ts' ∧
        ts = t :: ts' := by
  rw [parseSteps]
  cases Tag.parse (String.ofList step) with
  | error e => simp
  | ok t =>
    rw [map_eq_ok_iff]
    simp [eq_comm]

/-- Each step is read as one tag. -/
theorem length_of_parseSteps {whole : String} {steps : List (List Char)} : ∀ {ts : List Tag},
    parseSteps whole steps = .ok ts → ts.length = steps.length := by
  induction steps with
  | nil =>
    rintro ts ⟨⟩
    rfl
  | cons step rest ih =>
    intro ts h
    obtain ⟨t, ts', -, hrest, rfl⟩ := parseSteps_cons_eq_ok_iff.mp h
    rw [List.length_cons, List.length_cons, ih hrest]

/-- The texts of some tags are read as these tags, unless one has an empty variant key. -/
theorem parseSteps_chars_iff {whole : String} {ts : List Tag} (h : ∀ t ∈ ts, t.WellNamed) :
    parseSteps whole (ts.map Tag.chars) = .ok ts ↔ ∀ t ∈ ts, t.variant ≠ some "" := by
  induction ts with
  | nil => simp [parseSteps]
  | cons t ts ih =>
    rw [List.forall_mem_cons] at h
    rw [List.map_cons, parseSteps_cons_eq_ok_iff, List.forall_mem_cons, ← ih h.2,
      ← h.1.parse_text_eq_ok_iff]
    constructor
    · rintro ⟨t', ts', ht, hts, heq⟩
      obtain ⟨rfl, rfl⟩ := List.cons.inj heq
      exact ⟨ht, hts⟩
    · rintro ⟨ht, hts⟩
      exact ⟨t, ts, ht, hts, rfl⟩

/-- The text of a path without its first separator. -/
def body (t : Tag) (ts : List Tag) : List Char := t.chars ++ ts.flatMap fun u => '/' :: u.chars

theorem body_cons (t u : Tag) (ts : List Tag) : body t (u :: ts) = t.chars ++ '/' :: body u ts := by
  rw [body, List.flatMap_cons, List.cons_append]
  rfl

theorem steps_chars {t : Tag} {ts : List Tag} (h : t.WellNamed) :
    steps (chars ⟨t :: ts⟩) = unescapedPieces '/' (body t ts) := by
  have hne : (body t ts).isEmpty = false := by
    have hname := h.qname_ne_nil
    rw [body, Tag.chars_eq]
    simp [hname]
  have hchars : chars ⟨t :: ts⟩ = '/' :: body t ts := by
    rw [chars, List.flatMap_cons, List.cons_append]
    rfl
  rw [hchars, steps]
  simp only [hne]
  rfl

variable {t : Tag} {ts : List Tag}

/-- The texts of some tags are cut apart where none but the last ends in an escape. -/
theorem unescapedPieces_body (h : ∀ u ∈ t :: ts, u.WellNamed)
    (hend : ∀ u ∈ (t :: ts).dropLast, ¬u.EndsEscaping) :
    unescapedPieces '/' (body t ts) = (t :: ts).map Tag.chars := by
  induction ts generalizing t with
  | nil =>
    rw [body, List.flatMap_nil, List.append_nil]
    exact unescapedPieces_eq_singleton (h t List.mem_cons_self).allEscaped_chars
  | cons u ts ih =>
    rw [List.forall_mem_cons] at h
    rw [List.dropLast_cons_cons, List.forall_mem_cons, ← t.endsInEscape_chars,
      Bool.not_eq_true] at hend
    rw [body_cons, unescapedPieces_append_sep (by decide) h.1.allEscaped_chars hend.1,
      ih h.2 hend.2]
    rfl

/-- A tag that ends in an escape takes the next one along. -/
theorem length_unescapedPieces_body (h : ∀ u ∈ t :: ts, u.WellNamed) :
    (unescapedPieces '/' (body t ts)).length =
      ((t :: ts).dropLast.filter fun u => ¬u.EndsEscaping).length + 1 := by
  induction ts generalizing t with
  | nil =>
    rw [body, List.flatMap_nil, List.append_nil,
      unescapedPieces_eq_singleton (h t List.mem_cons_self).allEscaped_chars]
    rfl
  | cons u ts ih =>
    rw [List.forall_mem_cons] at h
    rw [body_cons, List.dropLast_cons_cons, List.filter_cons]
    cases hend : endsInEscape t.chars with
    | true =>
      rw [length_unescapedPieces_append_sep h.1.allEscaped_chars hend, ih h.2]
      simp [t.endsInEscape_chars.mp hend]
    | false =>
      have hnot : ¬t.EndsEscaping := by
        rw [← t.endsInEscape_chars, hend]
        exact Bool.false_ne_true
      rw [unescapedPieces_append_sep (by decide) h.1.allEscaped_chars hend, List.length_cons,
        ih h.2]
      simp [hnot]

/-! ### Paths read back -/

/-- A path of tags with names that can be read is read back from its text exactly if no tag has an
empty variant key and none but the last ends in an escape. -/
theorem parse_text_iff_of_wellNamed {p : Path} (h : ∀ t ∈ p.tags, t.WellNamed) :
    parse p.text = .ok p ↔
      (∀ t ∈ p.tags, t.variant ≠ some "") ∧ ∀ t ∈ p.tags.dropLast, ¬t.EndsEscaping := by
  obtain ⟨_ | ⟨t, ts⟩⟩ := p
  · simp only [List.not_mem_nil, List.dropLast_nil, false_implies, implies_true, and_self, iff_true]
    rfl
  have hsteps : steps (text ⟨t :: ts⟩).toList = unescapedPieces '/' (body t ts) := by
    rw [text, String.toList_ofList, steps_chars (h t List.mem_cons_self)]
  have hparse : parse (text ⟨t :: ts⟩) = .ok ⟨t :: ts⟩ ↔
      parseSteps (text ⟨t :: ts⟩) (unescapedPieces '/' (body t ts)) = .ok (t :: ts) := by
    rw [parse, hsteps, map_eq_ok_iff]
    simp
  rw [hparse]
  constructor
  · intro hok
    -- as many steps as tags, so no tag took the next one along
    have hlen := length_of_parseSteps hok
    rw [length_unescapedPieces_body h, List.length_cons] at hlen
    have hend : ∀ u ∈ (t :: ts).dropLast, ¬u.EndsEscaping := by
      have hall : ((t :: ts).dropLast.filter fun u => ¬u.EndsEscaping).length =
          (t :: ts).dropLast.length := by
        rw [List.length_dropLast, List.length_cons]
        omega
      simpa using List.length_filter_eq_length_iff.mp hall
    rw [unescapedPieces_body h hend] at hok
    exact ⟨(parseSteps_chars_iff h).mp hok, hend⟩
  · rintro ⟨hkeys, hend⟩
    rw [unescapedPieces_body h hend]
    exact (parseSteps_chars_iff h).mpr hkeys

/-! ### Paths that come of texts -/

/-- A path obtained from texts that are read, by the operations on paths. -/
inductive Obtained : Path → Prop where
  | parse {s : String} {p : Path} (h : Path.parse s = .ok p) : Obtained p
  | child {p : Path} {s : String} {t : Tag} (hp : Obtained p) (ht : Tag.parse s = .ok t) :
      Obtained (p.child t)
  | parent {p q : Path} (hp : Obtained p) (h : p.parent? = some q) : Obtained q
  | take {p : Path} (hp : Obtained p) (n : Nat) : Obtained (p.take n)
  | join {p q : Path} (hp : Obtained p) (hq : Obtained q) : Obtained (p.join q)
  | beyond {p ancestor q : Path} (hp : Obtained p) (h : p.beyond ancestor = .ok q) : Obtained q
  | dropRoot {p q : Path} (hp : Obtained p) (h : p.dropRoot = .ok q) : Obtained q
  | withoutVariants {p : Path} (hp : Obtained p) : Obtained p.withoutVariants
  | withVariantAt {p q : Path} {depth : Nat} {key : String} (hp : Obtained p) (hkey : key ≠ "")
      (h : p.withVariantAt? depth key = some q) : Obtained q

/-- Every tag of a path that is read is read from a step of the text. -/
theorem exists_step_of_mem {whole : String} {steps : List (List Char)} : ∀ {ts : List Tag},
    parseSteps whole steps = .ok ts →
      ∀ t ∈ ts, ∃ step ∈ steps, Tag.parse (String.ofList step) = .ok t := by
  induction steps with
  | nil =>
    rintro ts ⟨⟩
    nofun
  | cons step rest ih =>
    intro ts h
    obtain ⟨t, ts', ht, hrest, rfl⟩ := parseSteps_cons_eq_ok_iff.mp h
    refine List.forall_mem_cons.mpr ⟨⟨step, List.mem_cons_self, ht⟩, fun u hu => ?_⟩
    obtain ⟨step', hmem, hu⟩ := ih hrest u hu
    exact ⟨step', List.mem_cons_of_mem _ hmem, hu⟩

/-- Every tag of a path that is read is read by itself. -/
theorem exists_parse_of_mem {s : String} {p : Path} (h : Path.parse s = .ok p) :
    ∀ t ∈ p.tags, ∃ step, Tag.parse step = .ok t := by
  obtain ⟨ts, hparse, rfl⟩ := map_eq_ok_iff.mp h
  intro t ht
  obtain ⟨step, -, hstep⟩ := exists_step_of_mem hparse t ht
  exact ⟨_, hstep⟩

theorem tags_subset_of_beyond {p ancestor q : Path} (h : p.beyond ancestor = .ok q) :
    q.tags ⊆ p.tags := by
  rw [beyond] at h
  split at h
  · cases h
    exact List.drop_subset ..
  · cases h

theorem tags_subset_of_dropRoot {p q : Path} (h : p.dropRoot = .ok q) : q.tags ⊆ p.tags := by
  rw [dropRoot] at h
  split at h
  · cases h
  · cases h
    exact List.drop_subset ..

theorem tags_subset_of_parent? {p q : Path} (h : p.parent? = some q) : q.tags ⊆ p.tags := by
  rw [parent?] at h
  split at h
  · cases h
  · cases h
    exact List.dropLast_subset _

/-- Where a tag is given a key, each tag is one of those before, or one of them with the key. -/
theorem mem_of_withVariantAt? {p q : Path} {depth : Nat} {key : String}
    (h : p.withVariantAt? depth key = some q) {t : Tag} (ht : t ∈ q.tags) :
    t ∈ p.tags ∨ ∃ u ∈ p.tags, t = u.withVariant key := by
  rw [withVariantAt?] at h
  split at h
  · cases h
    obtain ⟨i, hi, rfl⟩ := List.mem_iff_getElem.mp ht
    rw [List.getElem_modify]
    split
    · exact .inr ⟨_, List.getElem_mem _, rfl⟩
    · exact .inl (List.getElem_mem _)
  · cases h

/-- The names of the tags of such a path can be read, and no variant key is empty. -/
theorem Obtained.wellNamed {p : Path} (h : p.Obtained) :
    ∀ t ∈ p.tags, t.WellNamed ∧ t.variant ≠ some "" := by
  induction h with
  | parse h =>
    intro t hmem
    obtain ⟨step, hstep⟩ := exists_parse_of_mem h t hmem
    exact Tag.wellNamed_of_parse hstep
  | child _ ht ih =>
    intro t hmem
    rcases List.mem_append.mp hmem with hmem | hmem
    · exact ih t hmem
    · rw [List.mem_singleton.mp hmem]
      exact Tag.wellNamed_of_parse ht
  | parent _ h ih => exact fun t hmem => ih t (tags_subset_of_parent? h hmem)
  | take _ n ih => exact fun t hmem => ih t (List.mem_of_mem_take hmem)
  | join _ _ ihp ihq => exact fun t hmem => (List.mem_append.mp hmem).elim (ihp t) (ihq t)
  | beyond _ h ih => exact fun t hmem => ih t (tags_subset_of_beyond h hmem)
  | dropRoot _ h ih => exact fun t hmem => ih t (tags_subset_of_dropRoot h hmem)
  | withoutVariants _ ih =>
    intro t hmem
    obtain ⟨u, hu, rfl⟩ := List.mem_map.mp hmem
    exact ⟨Tag.wellNamed_withoutVariant.mpr (ih u hu).1, nofun⟩
  | withVariantAt _ hkey h ih =>
    intro t hmem
    rcases mem_of_withVariantAt? h hmem with hold | ⟨u, hu, rfl⟩
    · exact ih t hold
    · exact ⟨(ih u hu).1.withVariant _, by simpa [Tag.withVariant] using hkey⟩

/-- A path obtained from texts is read back from its own text exactly if no tag but the last ends
in an escape. -/
theorem Obtained.parse_text_iff {p : Path} (h : p.Obtained) :
    Path.parse p.text = .ok p ↔ ∀ t ∈ p.tags.dropLast, ¬t.EndsEscaping := by
  rw [parse_text_iff_of_wellNamed fun t ht => (h.wellNamed t ht).1]
  exact and_iff_right fun t ht => (h.wellNamed t ht).2

/-- A name that ends in a backslash, which escapes nothing because a descendancy follows. -/
def typePath : Path :=
  ⟨[{ qualifier := some "x", localName := "type\\", descendancy := 2 }, Tag.elem none "name"]⟩

/-- The same path with a key in which every character has a meaning in the text of a path. -/
def keyedPath : Path :=
  ⟨[{ qualifier := some "x", localName := "type\\", descendancy := 2 },
    { localName := "name", variant := some "/]\\[" }]⟩

theorem keyedPath_parse_text : keyedPath.Obtained ∧
    keyedPath.text = "/x:type\\#2/name[\\/\\]\\\\\\[]" ∧
    Path.parse keyedPath.text = .ok keyedPath := by
  have hread : Path.parse "/x:type\\#2/name" = .ok typePath := by with_unfolding_all rfl
  have hkeyed : typePath.withVariantAt? 1 "/]\\[" = some keyedPath := by decide +kernel
  have hobtained : keyedPath.Obtained := .withVariantAt (.parse hread) (by decide) hkeyed
  exact ⟨hobtained, by decide +kernel, hobtained.parse_text_iff.mpr (by decide +kernel)⟩

/-- The path of the element `b` within the element `a\`: the backslash escapes the separator after
it, and what is read as one tag has a character that no name has. -/
theorem escapedSeparator_refused : ∃ p : Path, p.Obtained ∧ p.text = "/a\\/b" ∧
    Path.parse p.text = .error (.invalidTag "/a\\/b" (.invalidChar "a\\/b" '/')) := by
  have hread : Path.parse "/a\\" = .ok ⟨[Tag.elem none "a\\"]⟩ := by with_unfolding_all rfl
  have htag : Tag.parse "b" = .ok (Tag.elem none "b") := by with_unfolding_all rfl
  exact ⟨_, .child (.parse hread) htag, by with_unfolding_all rfl, by with_unfolding_all rfl⟩

end Crosswalk.Path
