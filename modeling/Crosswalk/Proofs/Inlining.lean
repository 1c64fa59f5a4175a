import Crosswalk.Proofs.Expansion

/-!
Inlining of references. A reference means the content that it names: wherever one stands, in the
content of the root or inside a definition, putting a copy of that content in its place leaves what a
declaration resolves to as it is. A group may stand in more places once its entries are no longer held
to the group, so a declaration that does not resolve may do so after inlining, but not the other way
around.
-/

namespace Crosswalk

/-! ### One reference inlined -/

/-- Whether some content becomes another by putting in place of one reference the content that it
names among some definitions. That of a template comes ahead of what stands in its element. -/
inductive Content.Inlines (ds : Definitions) : Content → Content → Prop where
  | ref {kind : DefinitionKind} {name : String} {rest : Content} {d : Definition}
      (hd : ds.find? (kind, name) = some d) :
      Inlines ds (.ref kind name rest) (d.content ++ rest)
  | template {e : ElementDecl} {name : String} {below rest : Content} {d : Definition}
      (hname : e.template = some name) (hd : ds.find? (.template, name) = some d) :
      Inlines ds (.elem e below rest)
        (.elem { e with template := none } (d.content ++ below) rest)
  | inside {e : ElementDecl} {below below' rest : Content} (h : Inlines ds below below') :
      Inlines ds (.elem e below rest) (.elem e below' rest)
  | afterAttr {a : Attribute} {rest rest' : Content} (h : Inlines ds rest rest') :
      Inlines ds (.attr a rest) (.attr a rest')
  | afterRef {kind : DefinitionKind} {name : String} {rest rest' : Content}
      (h : Inlines ds rest rest') : Inlines ds (.ref kind name rest) (.ref kind name rest')
  | afterElem {e : ElementDecl} {below rest rest' : Content} (h : Inlines ds rest rest') :
      Inlines ds (.elem e below rest) (.elem e below rest')

/-- Whether a declaration refers to a definition: by the template of its root, or by a reference in
the content of the root or in that of a definition. -/
inductive Declaration.Refers (d : Declaration) (k : DefinitionKey) : Prop where
  | template (hkind : k.1 = .template) (hname : d.root.template = some k.2)
  | content (h : d.content.Refers k)
  | definition {named : Definition} (hmem : named ∈ d.definitions) (h : named.content.Refers k)

/-- Whether a declaration becomes another by inlining one reference: the template of its root, or a
reference in the content of the root or in that of a definition. -/
inductive Declaration.Inlines (d : Declaration) : Declaration → Prop where
  | template {name : String} {named : Definition} (hname : d.root.template = some name)
      (hnamed : Definitions.find? d.definitions (.template, name) = some named) :
      Inlines d { d with
        root := { d.root with template := none }
        content := named.content ++ d.content }
  | content {c : Content} (h : d.content.Inlines d.definitions c) :
      Inlines d { d with content := c }
  | definition {before after : Definitions} {changed : Definition} {c : Content}
      (hdefinitions : d.definitions = before ++ changed :: after)
      (h : changed.content.Inlines d.definitions c) :
      Inlines d { d with definitions := before ++ { changed with content := c } :: after }

namespace Resolution

variable {ds : Definitions} {expand expand' : Expansion} {place : Path}
  {within : Option DefinitionKind} {x : Contribution}

/-! ### Contributions in a row -/

theorem append_assoc (a b c : Contribution) : a ++ b ++ c = a ++ (b ++ c) := by
  have hforest (f g h : Forest Element) : f ++ g ++ h = f ++ (g ++ h) := by
    induction f with
    | nil => rfl
    | tree e below next _ ih => simp only [Forest.tree_append, ih]
  obtain ⟨as, f⟩ := a
  obtain ⟨bs, g⟩ := b
  obtain ⟨cs, h⟩ := c
  exact congrArg₂ Contribution.mk (List.append_assoc as bs cs) (hforest f g h)

/-! ### What an entry contributes -/

theorem contribution_attr_eq_ok_iff {a : Attribute} {rest : Content} :
    contribution expand place within (.attr a rest) = .ok x ↔ permitsAttributes within = true ∧
      ∃ after, contribution expand place within rest = .ok after ∧
        ({ attributes := [a] } : Contribution) ++ after = x := by
  rw [contribution]
  split
  · next h => simp only [h, true_and, bind_eq_ok_iff, Except.ok.injEq]
  · next h => simp [h]

theorem contribution_ref_eq_ok_iff {kind : DefinitionKind} {name : String} {rest : Content} :
    contribution expand place within (.ref kind name rest) = .ok x ↔
      permitsReference within kind = true ∧
      ∃ named, expand (kind, name) place (some kind) = .ok named ∧
      ∃ after, contribution expand place within rest = .ok after ∧ named ++ after = x := by
  rw [contribution]
  split
  · next h => simp only [h, true_and, bind_eq_ok_iff, Except.ok.injEq]
  · next h => simp [h]

theorem contribution_elem_eq_ok_iff {e : ElementDecl} {below rest : Content} :
    contribution expand place within (.elem e below rest) = .ok x ↔
      permitsElements within = true ∧
      ∃ supplied, templateContribution expand (place.child e.tag) e = .ok supplied ∧
      ∃ own, contribution expand (place.child e.tag) none below = .ok own ∧
      ∃ head, element (place.child e.tag) e (supplied ++ own) = .ok head ∧
      ∃ after, contribution expand place within rest = .ok after ∧
        ({ elements := .single head (supplied ++ own).elements } : Contribution) ++ after = x := by
  rw [contribution]
  split
  · next h => simp only [h, true_and, bind_eq_ok_iff, Except.ok.injEq]
  · next h => simp [h]

/-! ### Contributions of changed contents -/

/-- What two contents contribute in a row is what both contribute. -/
theorem contribution_append {c c' : Content} : ∀ {x y : Contribution},
    contribution expand place within c = .ok x → contribution expand place within c' = .ok y →
      contribution expand place within (c ++ c') = .ok (x ++ y) := by
  intro x y h h'
  induction c generalizing x with
  | nil =>
    obtain rfl := Except.ok.inj h
    exact h'
  | attr a rest ih =>
    obtain ⟨hpermits, after, hafter, rfl⟩ := contribution_attr_eq_ok_iff.mp h
    exact contribution_attr_eq_ok_iff.mpr ⟨hpermits, _, ih hafter, (append_assoc ..).symm⟩
  | ref kind name rest ih =>
    obtain ⟨hpermits, named, hnamed, after, hafter, rfl⟩ := contribution_ref_eq_ok_iff.mp h
    exact contribution_ref_eq_ok_iff.mpr
      ⟨hpermits, named, hnamed, _, ih hafter, (append_assoc ..).symm⟩
  | elem e below rest _ ih =>
    obtain ⟨hpermits, supplied, hsupplied, own, hown, head, hhead, after, hafter, rfl⟩ :=
      contribution_elem_eq_ok_iff.mp h
    exact contribution_elem_eq_ok_iff.mpr ⟨hpermits, supplied, hsupplied, own, hown, head, hhead, _,
      ih hafter, (append_assoc ..).symm⟩

/-- What a group may hold may stand outside of groups. -/
theorem contribution_outside {group : DefinitionKind} {c : Content} : ∀ {x : Contribution},
    contribution expand place (some group) c = .ok x → contribution expand place none c = .ok x := by
  intro x h
  induction c generalizing x with
  | nil => exact h
  | attr a rest ih =>
    obtain ⟨-, after, hafter, hx⟩ := contribution_attr_eq_ok_iff.mp h
    exact contribution_attr_eq_ok_iff.mpr ⟨rfl, after, ih hafter, hx⟩
  | ref kind name rest ih =>
    obtain ⟨hpermits, named, hnamed, after, hafter, hx⟩ := contribution_ref_eq_ok_iff.mp h
    have hkind : permitsReference none kind = true := by
      rw [permitsReference, Bool.and_eq_true] at hpermits ⊢
      exact ⟨hpermits.1, rfl⟩
    exact contribution_ref_eq_ok_iff.mpr ⟨hkind, named, hnamed, after, ih hafter, hx⟩
  | elem e below rest _ ih =>
    obtain ⟨-, supplied, hsupplied, own, hown, head, hhead, after, hafter, hx⟩ :=
      contribution_elem_eq_ok_iff.mp h
    exact contribution_elem_eq_ok_iff.mpr
      ⟨rfl, supplied, hsupplied, own, hown, head, hhead, after, ih hafter, hx⟩

/-- What a group may hold may stand where a reference to the group may. -/
theorem contribution_of_group {group : DefinitionKind}
    (hpermits : permitsReference within group = true) {c : Content}
    (h : contribution expand place (some group) c = .ok x) :
    contribution expand place within c = .ok x := by
  cases within with
  | none => exact contribution_outside h
  | some group' =>
    rw [permitsReference, Bool.and_eq_true] at hpermits
    obtain rfl : group' = group := by simpa using hpermits.2
    exact h

theorem templateContribution_mono
    (hexpand : ∀ k place within x, expand k place within = .ok x → expand' k place within = .ok x)
    {e : ElementDecl} (h : templateContribution expand place e = .ok x) :
    templateContribution expand' place e = .ok x := by
  rw [templateContribution] at h ⊢
  split at h
  · exact hexpand _ _ _ _ h
  · exact h

/-- A content contributes the same when references expand to the same, or to something where they
failed to. -/
theorem contribution_mono
    (hexpand : ∀ k place within x, expand k place within = .ok x → expand' k place within = .ok x)
    {c : Content} : ∀ {place : Path} {within : Option DefinitionKind} {x : Contribution},
      contribution expand place within c = .ok x → contribution expand' place within c = .ok x := by
  induction c with
  | nil => exact fun h => h
  | attr a rest ih =>
    intro place within x h
    obtain ⟨hpermits, after, hafter, hx⟩ := contribution_attr_eq_ok_iff.mp h
    exact contribution_attr_eq_ok_iff.mpr ⟨hpermits, after, ih hafter, hx⟩
  | ref kind name rest ih =>
    intro place within x h
    obtain ⟨hpermits, named, hnamed, after, hafter, hx⟩ := contribution_ref_eq_ok_iff.mp h
    exact contribution_ref_eq_ok_iff.mpr
      ⟨hpermits, named, hexpand _ _ _ _ hnamed, after, ih hafter, hx⟩
  | elem e below rest hbelow hrest =>
    intro place within x h
    obtain ⟨hpermits, supplied, hsupplied, own, hown, head, hhead, after, hafter, hx⟩ :=
      contribution_elem_eq_ok_iff.mp h
    exact contribution_elem_eq_ok_iff.mpr ⟨hpermits, supplied,
      templateContribution_mono hexpand hsupplied, own, hbelow hown, head, hhead, after,
      hrest hafter, hx⟩

theorem templateContribution_refers {k : DefinitionKey} {e : ElementDecl} (hkind : k.1 = .template)
    (hname : e.template = some k.2) (h : templateContribution expand place e = .ok x) :
    ∃ place within y, expand k place within = .ok y := by
  obtain ⟨kind, name⟩ := k
  obtain rfl := hkind
  rw [templateContribution, hname] at h
  exact ⟨_, _, _, h⟩

/-- What the content of a definition contributes where references to it expand. -/
theorem contribution_of_find? (hexpand : unfolded ds expand = expand) {k : DefinitionKey}
    {d : Definition} (hd : ds.find? k = some d) (h : expand k place within = .ok x) :
    contribution expand place within d.content = .ok x := by
  rw [← hexpand, unfolded, hd] at h
  exact h

theorem contribution_refers {k : DefinitionKey} {c : Content} (hk : c.Refers k) :
    ∀ {place : Path} {within : Option DefinitionKind} {x : Contribution},
      contribution expand place within c = .ok x →
        ∃ place within y, expand k place within = .ok y := by
  induction hk with
  | ref =>
    intro place within x h
    obtain ⟨-, named, hnamed, -⟩ := contribution_ref_eq_ok_iff.mp h
    exact ⟨_, _, named, hnamed⟩
  | template hkind hname =>
    intro place within x h
    obtain ⟨-, supplied, hsupplied, -⟩ := contribution_elem_eq_ok_iff.mp h
    exact templateContribution_refers hkind hname hsupplied
  | inside _ ih =>
    intro place within x h
    obtain ⟨-, -, -, own, hown, -⟩ := contribution_elem_eq_ok_iff.mp h
    exact ih hown
  | afterAttr _ ih =>
    intro place within x h
    obtain ⟨-, after, hafter, -⟩ := contribution_attr_eq_ok_iff.mp h
    exact ih hafter
  | afterRef _ ih =>
    intro place within x h
    obtain ⟨-, -, -, after, hafter, -⟩ := contribution_ref_eq_ok_iff.mp h
    exact ih hafter
  | afterElem _ ih =>
    intro place within x h
    obtain ⟨-, -, -, -, -, -, -, after, hafter, -⟩ := contribution_elem_eq_ok_iff.mp h
    exact ih hafter

/-- A reference that expands to something names a definition. -/
theorem mem_keys_of_expansion {k : DefinitionKey} {depth : Nat}
    (h : expansion ds depth k place within = .ok x) : k ∈ ds.map Definition.key := by
  cases depth with
  | zero => cases h
  | succ depth =>
    rw [expansion_succ, unfolded] at h
    split at h
    · next hd => exact Definitions.isSome_find?_iff.mp (Option.isSome_of_eq_some hd)
    · cases h

/-- The template of an element contributes as much when its content stands ahead of the element's
own. -/
theorem contribution_template (hexpand : unfolded ds expand = expand) {e : ElementDecl}
    {name : String} {d : Definition} (hname : e.template = some name)
    (hd : ds.find? (.template, name) = some d) {c : Content} {supplied own : Contribution}
    (hsupplied : templateContribution expand place e = .ok supplied)
    (hown : contribution expand place none c = .ok own) :
    contribution expand place none (d.content ++ c) = .ok (supplied ++ own) := by
  rw [templateContribution, hname] at hsupplied
  exact contribution_append (contribution_of_find? hexpand hd hsupplied) hown

/-- A content contributes the same when one of its references is inlined. -/
theorem contribution_inlines (hexpand : unfolded ds expand = expand) {c c' : Content}
    (hinlines : c.Inlines ds c') : ∀ {place : Path} {within : Option DefinitionKind}
      {x : Contribution},
      contribution expand place within c = .ok x → contribution expand place within c' = .ok x := by
  induction hinlines with
  | ref hd =>
    intro place within x h
    obtain ⟨hpermits, named, hnamed, after, hafter, rfl⟩ := contribution_ref_eq_ok_iff.mp h
    exact contribution_append
      (contribution_of_group hpermits (contribution_of_find? hexpand hd hnamed)) hafter
  | template hname hd =>
    intro place within x h
    obtain ⟨hpermits, supplied, hsupplied, own, hown, head, hhead, after, hafter, hx⟩ :=
      contribution_elem_eq_ok_iff.mp h
    exact contribution_elem_eq_ok_iff.mpr ⟨hpermits, {}, rfl, supplied ++ own,
      contribution_template hexpand hname hd hsupplied hown, head, hhead, after, hafter, hx⟩
  | inside _ ih =>
    intro place within x h
    obtain ⟨hpermits, supplied, hsupplied, own, hown, hrest⟩ := contribution_elem_eq_ok_iff.mp h
    exact contribution_elem_eq_ok_iff.mpr ⟨hpermits, supplied, hsupplied, own, ih hown, hrest⟩
  | afterAttr _ ih =>
    intro place within x h
    obtain ⟨hpermits, after, hafter, hx⟩ := contribution_attr_eq_ok_iff.mp h
    exact contribution_attr_eq_ok_iff.mpr ⟨hpermits, after, ih hafter, hx⟩
  | afterRef _ ih =>
    intro place within x h
    obtain ⟨hpermits, named, hnamed, after, hafter, hx⟩ := contribution_ref_eq_ok_iff.mp h
    exact contribution_ref_eq_ok_iff.mpr ⟨hpermits, named, hnamed, after, ih hafter, hx⟩
  | afterElem _ ih =>
    intro place within x h
    obtain ⟨hpermits, supplied, hsupplied, own, hown, head, hhead, after, hafter, hx⟩ :=
      contribution_elem_eq_ok_iff.mp h
    exact contribution_elem_eq_ok_iff.mpr
      ⟨hpermits, supplied, hsupplied, own, hown, head, hhead, after, ih hafter, hx⟩

end Resolution

/-! ### References of changed contents -/

namespace Content

theorem refers_append {k : DefinitionKey} {c c' : Content} (h : (c ++ c').Refers k) :
    c.Refers k ∨ c'.Refers k := by
  induction c with
  | nil => exact .inr h
  | attr a rest ih => exact (ih (refers_attr_iff.mp h)).imp_left .afterAttr
  | ref kind name rest ih =>
    rcases refers_ref_iff.mp h with rfl | h
    · exact .inl .ref
    · exact (ih h).imp_left .afterRef
  | elem e below rest _ ih =>
    rcases refers_elem_iff.mp h with ⟨hkind, hname⟩ | h | h
    · exact .inl (.template hkind hname)
    · exact .inl (.inside h)
    · exact (ih h).imp_left .afterElem

variable {ds ds' : Definitions} {c c' : Content}

/-- A content with a reference inlined refers to what it did before and to what the definition that
was named does. -/
theorem Inlines.refers {k : DefinitionKey} (h : c.Inlines ds c') (hk : c'.Refers k) :
    c.Refers k ∨ ∃ l, c.Refers l ∧ ds.Refers l k := by
  induction h with
  | ref hd =>
    rcases refers_append hk with hk | hk
    · exact .inr ⟨_, .ref, Definitions.refers_of_find? hd hk⟩
    · exact .inl (.afterRef hk)
  | template hname hd =>
    rcases refers_elem_iff.mp hk with ⟨-, hnone⟩ | hk | hk
    · cases hnone
    · rcases refers_append hk with hk | hk
      · exact .inr ⟨_, .template rfl hname, Definitions.refers_of_find? hd hk⟩
      · exact .inl (.inside hk)
    · exact .inl (.afterElem hk)
  | inside _ ih =>
    rcases refers_elem_iff.mp hk with ⟨hkind, hname⟩ | hk | hk
    · exact .inl (.template hkind hname)
    · exact (ih hk).imp .inside fun ⟨l, hl, hlk⟩ => ⟨l, .inside hl, hlk⟩
    · exact .inl (.afterElem hk)
  | afterAttr _ ih =>
    exact (ih (refers_attr_iff.mp hk)).imp .afterAttr fun ⟨l, hl, hlk⟩ => ⟨l, .afterAttr hl, hlk⟩
  | afterRef _ ih =>
    rcases refers_ref_iff.mp hk with rfl | hk
    · exact .inl .ref
    · exact (ih hk).imp .afterRef fun ⟨l, hl, hlk⟩ => ⟨l, .afterRef hl, hlk⟩
  | afterElem _ ih =>
    rcases refers_elem_iff.mp hk with ⟨hkind, hname⟩ | hk | hk
    · exact .inl (.template hkind hname)
    · exact .inl (.inside hk)
    · exact (ih hk).imp .afterElem fun ⟨l, hl, hlk⟩ => ⟨l, .afterElem hl, hlk⟩

/-- A reference is inlined alike among definitions that have what the content refers to in common. -/
theorem Inlines.congr (h : c.Inlines ds c')
    (hds : ∀ k d, c.Refers k → ds.find? k = some d → ds'.find? k = some d) : c.Inlines ds' c' := by
  induction h with
  | ref hd => exact .ref (hds _ _ .ref hd)
  | template hname hd => exact .template hname (hds _ _ (.template rfl hname) hd)
  | inside _ ih => exact .inside (ih fun k d hk => hds k d (.inside hk))
  | afterAttr _ ih => exact .afterAttr (ih fun k d hk => hds k d (.afterAttr hk))
  | afterRef _ ih => exact .afterRef (ih fun k d hk => hds k d (.afterRef hk))
  | afterElem _ ih => exact .afterElem (ih fun k d hk => hds k d (.afterElem hk))

end Content

/-! ### Definitions with a reference inlined -/

namespace Definitions

open Resolution

variable {before after : Definitions} {changed : Definition} {c : Content}

section

variable (h : changed.content.Inlines (before ++ changed :: after) c)

include h

/-- Inlining makes shortcuts: what a definition refers to then, it reached before. -/
theorem reaches_of_inlines {k l : DefinitionKey}
    (hkl : Reaches (before ++ { changed with content := c } :: after) k l) :
    Reaches (before ++ changed :: after) k l := by
  refine Relation.TransGen.closed (fun k l hkl => ?_) _ _ hkl
  obtain ⟨d, hd, rfl, hl⟩ := hkl
  rcases List.mem_append.mp hd with hd | hd
  · exact .single ⟨d, List.mem_append_left _ hd, rfl, hl⟩
  rcases List.mem_cons.mp hd with rfl | hd
  · have hmem : changed ∈ before ++ changed :: after := by simp
    rcases h.refers hl with hl | ⟨m, hm, hml⟩
    · exact .single ⟨changed, hmem, rfl, hl⟩
    · exact .head ⟨changed, hmem, rfl, hm⟩ (.single hml)
  · exact .single ⟨d, by simp [hd], rfl, hl⟩

theorem check_of_inlines (hcheck : check (before ++ changed :: after) = .ok ()) :
    check (before ++ { changed with content := c } :: after) = .ok () := by
  obtain ⟨hdistinct, hnamed, hacyclic⟩ := check_eq_ok_iff.mp hcheck
  have hkeys : (before ++ { changed with content := c } :: after).map Definition.key =
      (before ++ changed :: after).map Definition.key := by
    simp [Definition.key]
  refine check_eq_ok_iff.mpr ⟨?_, ?_, fun k hk => hacyclic k (reaches_of_inlines h hk)⟩
  · rw [Distinct, hkeys]
    exact hdistinct
  · intro d hd k hk
    obtain ⟨l, -, d', hd', -, hk'⟩ :=
      Relation.TransGen.tail'_iff.mp (reaches_of_inlines h (.single ⟨d, hd, rfl, hk⟩))
    rw [hkeys]
    exact hnamed d' hd' k hk'

/-- References expand to the same when a reference inside a definition is inlined. -/
theorem expansion_of_inlines (hcheck : check (before ++ changed :: after) = .ok ())
    {expand : Expansion}
    (hexpand : unfolded (before ++ { changed with content := c } :: after) expand = expand)
    (depth : Nat) : ∀ k place within x,
      expansion (before ++ changed :: after) depth k place within = .ok x →
        expand k place within = .ok x := by
  obtain ⟨hdistinct, -, hacyclic⟩ := check_eq_ok_iff.mp hcheck
  have hdistinct' := (check_eq_ok_iff.mp (check_of_inlines h hcheck)).1
  -- The definitions that the changed one refers to are others, and as they were.
  have hother {k : DefinitionKey} {d : Definition}
      (hd : find? (before ++ changed :: after) k = some d) (hne : k ≠ changed.key) :
      find? (before ++ { changed with content := c } :: after) k = some d := by
    obtain ⟨hmem, hkey⟩ := (find?_eq_some_iff hdistinct).mp hd
    refine (find?_eq_some_iff hdistinct').mpr ⟨?_, hkey⟩
    simp only [List.mem_append, List.mem_cons] at hmem ⊢
    rcases hmem with hmem | heq | hmem
    · exact .inl hmem
    · exact absurd (heq ▸ hkey.symm) hne
    · exact .inr (.inr hmem)
  have hmem : changed ∈ before ++ changed :: after := by simp
  have hinlines : changed.content.Inlines (before ++ { changed with content := c } :: after) c :=
    h.congr fun k d hk hd => hother hd fun heq =>
      hacyclic k (.single ⟨changed, hmem, heq.symm, heq ▸ hk⟩)
  induction depth with
  | zero => intro k place within x hx; cases hx
  | succ depth ih =>
    intro k place within x hx
    rw [expansion_succ, unfolded] at hx
    split at hx
    · next d hd =>
      have hcontribution := contribution_mono ih hx
      by_cases hk : k = changed.key
      · subst hk
        obtain ⟨hd, hkey⟩ := (find?_eq_some_iff hdistinct).mp hd
        obtain rfl : d = changed := List.inj_on_of_nodup_map hdistinct hd hmem hkey
        have hd' : find? (before ++ { d with content := c } :: after) d.key =
            some { d with content := c } :=
          (find?_eq_some_iff hdistinct').mpr ⟨by simp, rfl⟩
        rw [← hexpand, unfolded, hd']
        exact contribution_inlines hexpand hinlines hcontribution
      · rw [← hexpand, unfolded, hother hd hk]
        exact hcontribution
    · cases hx

end

end Definitions

/-! ### Declarations with a reference inlined -/

open Definitions Resolution

namespace Resolution

variable {d d' : Declaration} {head : Element} {below : Forest Element}

theorem rootTree_eq_ok_iff : rootTree d = .ok (head, below) ↔
    ∃ supplied, templateContribution (expansion d.definitions d.definitions.length)
        (Path.root.child d.root.tag) d.root = .ok supplied ∧
      ∃ own, contribution (expansion d.definitions d.definitions.length)
          (Path.root.child d.root.tag) none d.content = .ok own ∧
        element (Path.root.child d.root.tag) d.root (supplied ++ own) = .ok head ∧
          (supplied ++ own).elements = below := by
  rw [rootTree]
  simp only [bind_eq_ok_iff, Except.ok.injEq, Prod.mk.injEq]
  constructor
  · rintro ⟨supplied, hsupplied, own, hown, _, hhead, rfl, hbelow⟩
    exact ⟨supplied, hsupplied, own, hown, hhead, hbelow⟩
  · rintro ⟨supplied, hsupplied, own, hown, hhead, hbelow⟩
    exact ⟨supplied, hsupplied, own, hown, head, hhead, rfl, hbelow⟩

/-- The root has the same elements below it when a reference is inlined anywhere. -/
theorem rootTree_of_inlines (h : d.Inlines d') (hcheck : Definitions.check d.definitions = .ok ())
    (htree : rootTree d = .ok (head, below)) : rootTree d' = .ok (head, below) := by
  obtain ⟨supplied, hsupplied, own, hown, hhead, hbelow⟩ := rootTree_eq_ok_iff.mp htree
  have hexpand := (unfolded_eq_iff (check_eq_ok_iff.mp hcheck).2.2).mpr rfl
  cases h with
  | template hname hnamed =>
    exact rootTree_eq_ok_iff.mpr ⟨{}, rfl, supplied ++ own,
      contribution_template hexpand hname hnamed hsupplied hown, hhead, hbelow⟩
  | content h =>
    exact rootTree_eq_ok_iff.mpr
      ⟨supplied, hsupplied, own, contribution_inlines hexpand h hown, hhead, hbelow⟩
  | @definition before after changed c hdefinitions h =>
    rw [hdefinitions] at h hcheck hsupplied hown
    have hcheck' := check_of_inlines h hcheck
    have hexpand' := (unfolded_eq_iff (check_eq_ok_iff.mp hcheck').2.2).mpr rfl
    have hmono := expansion_of_inlines h hcheck hexpand' (before ++ changed :: after).length
    exact rootTree_eq_ok_iff.mpr ⟨supplied, templateContribution_mono hmono hsupplied, own,
      contribution_mono hmono hown, hhead, hbelow⟩

end Resolution

namespace Declaration

variable {d d' : Declaration} {r : Record}

theorem resolve_eq_ok_iff : d.resolve = .ok r ↔
    Definitions.check d.definitions = .ok () ∧
      ∃ head below, rootTree d = .ok (head, below) ∧
        checkKnown r.paths (namedPaths r) = .ok () ∧
        { qualifier := d.qualifier, version := d.version, namespaces := d.namespaces, root := head,
          below, fieldMarkers := d.fieldMarkers, assertions := d.assertions : Record } = r := by
  rw [resolve]
  simp only [bind_eq_ok_iff, Except.ok.injEq]
  constructor
  · rintro ⟨_, hcheck, ⟨head, below⟩, htree, _, hknown, rfl⟩
    exact ⟨hcheck, head, below, htree, hknown, rfl⟩
  · rintro ⟨hcheck, head, below, htree, hknown, rfl⟩
    exact ⟨(), hcheck, (head, below), htree, (), hknown, rfl⟩

/-- Every reference of a declaration that resolves names a definition. -/
theorem find?_of_resolve (h : d.resolve = .ok r) {k : DefinitionKey} (hk : d.Refers k) :
    ∃ named, find? d.definitions k = some named := by
  obtain ⟨hcheck, head, below, htree, -, -⟩ := resolve_eq_ok_iff.mp h
  obtain ⟨supplied, hsupplied, own, hown, -, -⟩ := rootTree_eq_ok_iff.mp htree
  refine Option.isSome_iff_exists.mp (isSome_find?_iff.mpr ?_)
  cases hk with
  | template hkind hname =>
    obtain ⟨_, _, _, hk⟩ := templateContribution_refers hkind hname hsupplied
    exact mem_keys_of_expansion hk
  | content hk =>
    obtain ⟨_, _, _, hk⟩ := contribution_refers hk hown
    exact mem_keys_of_expansion hk
  | definition hmem hk => exact (check_eq_ok_iff.mp hcheck).2.1 _ hmem k hk

/-- A reference means the content that it names. Every reference of a declaration that resolves
names a definition, and the declaration resolves to the same when any one of them is inlined. -/
theorem resolve_inlines (h : d.resolve = .ok r) :
    (∀ k, d.Refers k → ∃ named, find? d.definitions k = some named) ∧
      ∀ d', d.Inlines d' → d'.resolve = .ok r := by
  refine ⟨fun k => find?_of_resolve h, fun d' hinlines => ?_⟩
  obtain ⟨hcheck, head, below, htree, hknown, rfl⟩ := resolve_eq_ok_iff.mp h
  have htree' := rootTree_of_inlines hinlines hcheck htree
  cases hinlines with
  | template => exact resolve_eq_ok_iff.mpr ⟨hcheck, head, below, htree', hknown, rfl⟩
  | content => exact resolve_eq_ok_iff.mpr ⟨hcheck, head, below, htree', hknown, rfl⟩
  | definition hdefinitions hinlines =>
    have hcheck' := check_of_inlines (hdefinitions ▸ hinlines) (hdefinitions ▸ hcheck)
    exact resolve_eq_ok_iff.mpr ⟨hcheck', head, below, htree', hknown, rfl⟩

end Declaration

/-- A catalogue of one book with some content, which may use the template of works; there is a group
of identifiers as well. -/
def catalogueDeclaration (work : Content) (template : Option String) (book : Content) :
    Declaration where
  definitions :=
    [{ kind := .template, name := "work", content := work },
     { kind := .attributeGroup, name := "ids", content := .attr { tag := .attr none "id" } .nil }]
  root := { tag := .elem none "catalogue" }
  content := .elem { tag := .elem none "book", template } book .nil

/-- A work has the attributes of the group of identifiers and a title. -/
def workContent : Content :=
  .ref .attributeGroup "ids" (.elem { tag := .elem none "title" } .nil .nil)

/-- A year. -/
def yearContent : Content := .elem { tag := .elem none "year" } .nil .nil

/-- What the catalogue of a work with a year resolves to. -/
def catalogueRecord : Record where
  qualifier := ""
  version := ""
  namespaces := []
  root := { tag := .elem none "catalogue" }
  below := .single { tag := .elem none "book", attributes := [{ tag := .attr none "id" }] }
    (.tree { tag := .elem none "title" } .nil (.single { tag := .elem none "year" } .nil))
  fieldMarkers := []
  assertions := []

/-- The catalogue stays the same when the template of the book is inlined, or the group in it. -/
theorem catalogueDeclaration_inlines :
    (catalogueDeclaration workContent (some "work") yearContent).resolve = .ok catalogueRecord ∧
      (catalogueDeclaration workContent none (workContent ++ yearContent)).resolve =
        .ok catalogueRecord ∧
      (catalogueDeclaration (.attr { tag := .attr none "id" }
        (.elem { tag := .elem none "title" } .nil .nil)) (some "work") yearContent).resolve =
        .ok catalogueRecord := by
  let d := catalogueDeclaration workContent (some "work") yearContent
  have hrefers {k l : DefinitionKey} (h : Refers d.definitions k l) :
      k = (.template, "work") ∧ l = (.attributeGroup, "ids") := by
    have h := any_refers_iff.mpr h
    simp [d, catalogueDeclaration, workContent, Definition.references, Definition.key,
      Content.references] at h
    exact ⟨h.1.symm, h.2⟩
  have hacyclic (k : DefinitionKey) : ¬Reaches d.definitions k k := by
    intro h
    obtain ⟨_, hk, -⟩ := Relation.TransGen.head'_iff.mp h
    obtain ⟨_, -, hk'⟩ := Relation.TransGen.tail'_iff.mp h
    cases (hrefers hk).1.symm.trans (hrefers hk').2
  have hresolve : d.resolve = .ok catalogueRecord :=
    Declaration.resolve_eq_ok_iff.mpr ⟨check_eq_ok_iff.mpr
      ⟨by decide, forall_references_iff.mp (by decide), hacyclic⟩, _, _, rfl, rfl, rfl⟩
  obtain ⟨-, hinlines⟩ := Declaration.resolve_inlines hresolve
  have hwork : find? d.definitions (.template, "work") = some ⟨.template, "work", workContent⟩ := rfl
  have htemplate : d.content.Inlines d.definitions
      (.elem { tag := .elem none "book" } (workContent ++ yearContent) .nil) :=
    .template rfl hwork
  have hids : find? d.definitions (.attributeGroup, "ids") =
      some ⟨.attributeGroup, "ids", .attr { tag := .attr none "id" } .nil⟩ := rfl
  have hgroup : workContent.Inlines d.definitions
      (.attr { tag := .attr none "id" } (.elem { tag := .elem none "title" } .nil .nil)) :=
    .ref hids
  have hdefinitions : d.definitions = [] ++ ⟨.template, "work", workContent⟩ :: d.definitions.tail :=
    rfl
  exact ⟨hresolve, hinlines _ (.content htemplate), hinlines _ (.definition hdefinitions hgroup)⟩

end Crosswalk
