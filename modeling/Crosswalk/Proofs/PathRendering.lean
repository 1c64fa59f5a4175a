import Crosswalk.Proofs.PathText

/-!
Texts tell paths apart. Some texts of paths are not read back: a name that ends in a backslash takes
the separator after it along, and an empty key is refused. They are still the texts of one path
only. The name and depth of a tag end where the first separator or bracket stands, and its key where
the first bracket stands that no backslash escapes; so whatever follows the texts of two tags, the
two texts are equal or one of them has a character where the other has another.
-/

namespace Crosswalk

/-! ### Texts with an end -/

/-- Two texts of characters of a class end where the first character of another class stands. -/
theorem append_inj_of_forall {α : Type} {p : α → Bool} {as bs as' bs' : List α}
    (has : ∀ a ∈ as, p a = true) (has' : ∀ a ∈ as', p a = true) (hbs : ∀ b ∈ bs.head?, p b = false)
    (hbs' : ∀ b ∈ bs'.head?, p b = false) (h : as ++ bs = as' ++ bs') : as = as' ∧ bs = bs' := by
  have htake : ∀ {as bs : List α}, (∀ a ∈ as, p a = true) → (∀ b ∈ bs.head?, p b = false) →
      (as ++ bs).takeWhile p = as := by
    intro as bs has hbs
    rw [List.takeWhile_append_of_pos has]
    cases bs with
    | nil => simp
    | cons b bs => simp [hbs b rfl]
  have heq : as = as' := by rw [← htake has hbs, h, htake has' hbs']
  subst heq
  exact ⟨rfl, List.append_cancel_left h⟩

namespace Tag

open Text

/-- What may follow the text of a tag in that of a path: nothing, or a separator. -/
def Ends (cs : List Char) : Prop := ∀ c ∈ cs.head?, c = '/'

/-- Whether a character can stand in the name or the descendancy of a tag. -/
def ahead (c : Char) : Bool := c != '/' && c != '['

theorem chars_withoutVariant (t : Tag) : t.withoutVariant.chars ++ t.keyChars = t.chars := by
  rw [chars_eq, chars_eq, keyChars_of_none rfl, List.append_nil, List.append_assoc]
  rfl

variable {t u : Tag} {cs ds : List Char}

theorem WellNamed.ahead_chars (h : t.WellNamed) : ∀ c ∈ t.withoutVariant.chars, ahead c = true := by
  have hmark : ∀ c ∈ (if t.isAttribute then ['@'] else []), ahead c = true := by
    cases t.isAttribute with
    | true => exact List.forall_mem_singleton.mpr rfl
    | false => nofun
  have hname : ∀ c ∈ t.qname.toList, ahead c = true := by
    intro c hc
    have hslash : c ≠ '/' := fun heq => h.notMem_qname (by decide) (by decide) (heq ▸ hc)
    have hbracket : c ≠ '[' := fun heq => h.notMem_qname (by decide) (by decide) (heq ▸ hc)
    simp [ahead, hslash, hbracket]
  have hdepth : ∀ c ∈ t.depthChars, ahead c = true := by
    intro c hc
    have hslash : c ≠ '/' := fun heq => notMem_depthChars (by decide) (by decide) t (heq ▸ hc)
    have hbracket : c ≠ '[' := fun heq => notMem_depthChars (by decide) (by decide) t (heq ▸ hc)
    simp [ahead, hslash, hbracket]
  rw [chars_eq, keyChars_of_none rfl, List.append_nil]
  exact List.forall_mem_append.mpr ⟨hmark, List.forall_mem_append.mpr ⟨hname, hdepth⟩⟩

theorem head_keyChars_append (h : Ends cs) : ∀ c ∈ (t.keyChars ++ cs).head?, ahead c = false := by
  cases hvariant : t.variant with
  | some key =>
    rw [keyChars_of_some hvariant]
    rintro c ⟨⟩
    rfl
  | none =>
    rw [keyChars_of_none hvariant, List.nil_append]
    intro c hc
    rw [h c hc]
    rfl

/-- The names and descendancies of two tags are told apart by their texts. -/
theorem WellNamed.eq_of_chars (ht : t.WellNamed) (hu : u.WellNamed)
    (h : t.withoutVariant.chars = u.withoutVariant.chars) :
    t.withoutVariant = u.withoutVariant := by
  have hread := (wellNamed_withoutVariant.mpr ht).parse_text_eq_ok_iff.mpr nofun
  have hread' := (wellNamed_withoutVariant.mpr hu).parse_text_eq_ok_iff.mpr nofun
  rw [text, h, ← text, hread'] at hread
  exact (Except.ok.inj hread).symm

/-- The first character of a key stands for itself or is escaped. -/
theorem escapeKey_cons (k : Char) (ks : List Char) :
    (escapedInKey k = true ∧ escapeKey (k :: ks) = '\\' :: k :: escapeKey ks) ∨
      (k ≠ '\\' ∧ k ≠ ']' ∧ escapeKey (k :: ks) = k :: escapeKey ks) := by
  rw [escapeKey]
  cases hk : escapedInKey k with
  | true => exact .inl ⟨rfl, rfl⟩
  | false =>
    simp only [escapedInKey, Bool.or_eq_false_iff, beq_eq_false_iff_ne] at hk
    exact .inr ⟨hk.1.1.1, hk.1.2, rfl⟩

/-- The text of a key ends at the first bracket that nothing escapes. -/
theorem escapeKey_append_inj : ∀ {ks ls : List Char},
    escapeKey ks ++ ']' :: cs = escapeKey ls ++ ']' :: ds → ks = ls ∧ cs = ds
  | [], [], h => ⟨rfl, (List.cons.inj h).2⟩
  | [], l :: ls, h => by
    rcases escapeKey_cons l ls with ⟨-, heq⟩ | ⟨-, hclose, heq⟩ <;> rw [heq] at h
    · cases (List.cons.inj h).1
    · exact absurd (List.cons.inj h).1.symm hclose
  | k :: ks, [], h => by
    rcases escapeKey_cons k ks with ⟨-, heq⟩ | ⟨-, hclose, heq⟩ <;> rw [heq] at h
    · cases (List.cons.inj h).1
    · exact absurd (List.cons.inj h).1 hclose
  | k :: ks, l :: ls, h => by
    rcases escapeKey_cons k ks with ⟨-, heq⟩ | ⟨hescape, -, heq⟩ <;>
      rcases escapeKey_cons l ls with ⟨-, heq'⟩ | ⟨hescape', -, heq'⟩ <;> rw [heq, heq'] at h
    · obtain ⟨rfl, hrest⟩ := List.cons.inj (List.cons.inj h).2
      exact (escapeKey_append_inj hrest).imp_left (congrArg (k :: ·))
    · exact absurd (List.cons.inj h).1.symm hescape'
    · exact absurd (List.cons.inj h).1 hescape
    · obtain ⟨rfl, hrest⟩ := List.cons.inj h
      exact (escapeKey_append_inj hrest).imp_left (congrArg (k :: ·))

theorem keyChars_append_inj (hcs : Ends cs) (hds : Ends ds)
    (h : t.keyChars ++ cs = u.keyChars ++ ds) : t.variant = u.variant ∧ cs = ds := by
  have hbracket : ∀ {es es' : List Char}, Ends es → '[' :: es' ≠ es := by
    rintro _ es' hes rfl
    exact absurd (hes '[' rfl) (by decide)
  cases ht : t.variant with
  | none =>
    rw [keyChars_of_none ht, List.nil_append] at h
    cases hu : u.variant with
    | none => exact ⟨rfl, by rwa [keyChars_of_none hu, List.nil_append] at h⟩
    | some key => exact absurd (keyChars_of_some hu ▸ h).symm (hbracket hcs)
  | some key =>
    rw [keyChars_of_some ht] at h
    cases hu : u.variant with
    | none => exact absurd (by rwa [keyChars_of_none hu] at h) (hbracket hds)
    | some key' =>
      rw [keyChars_of_some hu] at h
      rw [List.cons_append, List.cons_append, List.append_assoc, List.append_assoc] at h
      obtain ⟨hkey, rfl⟩ := escapeKey_append_inj (List.cons.inj h).2
      exact ⟨congrArg some (String.toList_injective hkey), rfl⟩

/-- The texts of two tags that can be followed by a separator tell the tags apart. -/
theorem WellNamed.chars_append_inj (ht : t.WellNamed) (hu : u.WellNamed) (hcs : Ends cs)
    (hds : Ends ds) (h : t.chars ++ cs = u.chars ++ ds) : t = u ∧ cs = ds := by
  rw [← chars_withoutVariant t, ← chars_withoutVariant u, List.append_assoc,
    List.append_assoc] at h
  -- the names end where a key or the next separator starts, then the keys where they are closed
  obtain ⟨hahead, hkeys⟩ := append_inj_of_forall ht.ahead_chars hu.ahead_chars
    (head_keyChars_append hcs) (head_keyChars_append hds) h
  obtain ⟨hvariant, hrest⟩ := keyChars_append_inj hcs hds hkeys
  have hnames := ht.eq_of_chars hu hahead
  simp only [withoutVariant, mk.injEq] at hnames
  exact ⟨by cases t; cases u; simp_all, hrest⟩

end Tag

namespace Path

theorem ends_steps (ts : List Tag) : Tag.Ends (ts.flatMap fun t => '/' :: t.chars) := by
  cases ts with
  | nil => nofun
  | cons t ts =>
    rintro c ⟨⟩
    rfl

theorem eq_of_steps : ∀ {ts us : List Tag}, (∀ t ∈ ts, t.WellNamed) → (∀ u ∈ us, u.WellNamed) →
    (ts.flatMap fun t => '/' :: t.chars) = us.flatMap (fun u => '/' :: u.chars) → ts = us
  | [], [], _, _, _ => rfl
  | [], _ :: _, _, _, h => nomatch h
  | _ :: _, [], _, _, h => nomatch h
  | t :: ts, u :: us, hts, hus, h => by
    rw [List.forall_mem_cons] at hts hus
    rw [List.flatMap_cons, List.flatMap_cons, List.cons_append, List.cons_append] at h
    obtain ⟨rfl, hrest⟩ :=
      hts.1.chars_append_inj hus.1 (ends_steps ts) (ends_steps us) (List.cons.inj h).2
    rw [eq_of_steps hts.2 hus.2 hrest]

/-- A lone separator is the text of no tag. -/
theorem steps_ne_root {t : Tag} (h : t.WellNamed) (ts : List Tag) :
    ((t :: ts).flatMap fun u => '/' :: u.chars) ≠ ['/'] := by
  rw [List.flatMap_cons, List.cons_append]
  intro heq
  have hnil := (List.append_eq_nil_iff.mp (List.cons.inj heq).2).1
  rw [Tag.chars_eq] at hnil
  have hname := (List.append_eq_nil_iff.mp hnil).2
  exact h.qname_ne_nil (List.append_eq_nil_iff.mp (List.append_eq_nil_iff.mp hname).1).1

theorem eq_of_chars {p q : Path} (hp : ∀ t ∈ p.tags, t.WellNamed) (hq : ∀ t ∈ q.tags, t.WellNamed)
    (h : p.chars = q.chars) : p = q := by
  obtain ⟨ts⟩ := p
  obtain ⟨us⟩ := q
  rw [chars, chars] at h
  cases ts with
  | nil =>
    cases us with
    | nil => rfl
    | cons u us => exact absurd h.symm (steps_ne_root (hq u List.mem_cons_self) us)
  | cons t ts =>
    cases us with
    | nil => exact absurd h (steps_ne_root (hp t List.mem_cons_self) ts)
    | cons u us => exact congrArg mk (eq_of_steps hp hq h)

/-- Two paths of tags with names that can be read are equal exactly if their texts are, whatever
descendancies and variant keys the tags have. -/
theorem beq_iff_text_eq {p q : Path} (hp : ∀ t ∈ p.tags, t.WellNamed)
    (hq : ∀ t ∈ q.tags, t.WellNamed) : p == q ↔ p.text = q.text := by
  rw [beq_iff_eq]
  refine ⟨congrArg text, fun h => eq_of_chars hp hq ?_⟩
  rw [text, text] at h
  exact String.ofList_injective h

/-- A name that ends in a backslash and the choice of a name: not read back from its text. -/
def unreadPath (variant : Option String) : Path :=
  ⟨[Tag.elem none "a\\", { localName := "b", variant }]⟩

theorem unreadPath_beq_iff :
    (∀ t ∈ (unreadPath none).tags, t.WellNamed) ∧
      (∀ t ∈ (unreadPath (some "")).tags, t.WellNamed) ∧
      (unreadPath none == unreadPath (some "") ↔
        (unreadPath none).text = (unreadPath (some "")).text) ∧
      (unreadPath none).text = "/a\\/b" ∧ (unreadPath (some "")).text = "/a\\/b[]" := by
  have hfirst : Tag.parse "a\\" = .ok (Tag.elem none "a\\") := by with_unfolding_all rfl
  have hsecond : Tag.parse "b" = .ok (Tag.elem none "b") := by with_unfolding_all rfl
  have hfirst := (Tag.wellNamed_of_parse hfirst).1
  have hsecond := (Tag.wellNamed_of_parse hsecond).1
  have hplain : ∀ t ∈ (unreadPath none).tags, t.WellNamed :=
    List.forall_mem_cons.mpr ⟨hfirst, List.forall_mem_singleton.mpr hsecond⟩
  have hkeyed : ∀ t ∈ (unreadPath (some "")).tags, t.WellNamed :=
    List.forall_mem_cons.mpr ⟨hfirst, List.forall_mem_singleton.mpr (hsecond.withVariant "")⟩
  exact ⟨hplain, hkeyed, beq_iff_text_eq hplain hkeyed, by decide +kernel, by decide +kernel⟩

end Path

end Crosswalk
