import Crosswalk.Proofs.Reference
import Crosswalk.Proofs.Resolution

/-!
Expansion of references. Substitution goes from a reference into the content of the definition that
it names, so it comes to an end for every content exactly if no definition reaches itself. A chain of
references then meets each definition at most once, and expansion to the depth of the number of
definitions is expansion to any depth. So resolution refuses cycles before it substitutes anything,
and only cycles for being cycles.
-/

namespace Crosswalk

namespace Definitions

variable {ds : Definitions} {k l : DefinitionKey} {n : Nat} {c : Content}

/-! ### Contents that expand -/

/-- Whether the substitution of what some content refers to comes to an end: that of the contents of
the definitions that are named in it does. -/
inductive Expands (ds : Definitions) : Content → Prop where
  | nil : Expands ds .nil
  | attr {a : Attribute} {rest : Content} (after : Expands ds rest) : Expands ds (.attr a rest)
  | ref {kind : DefinitionKind} {name : String} {rest : Content}
      (named : ∀ d, ds.find? (kind, name) = some d → Expands ds d.content)
      (after : Expands ds rest) : Expands ds (.ref kind name rest)
  | elem {e : ElementDecl} {below rest : Content}
      (supplied : ∀ name, e.template = some name →
        ∀ d, ds.find? (.template, name) = some d → Expands ds d.content)
      (own : Expands ds below) (after : Expands ds rest) : Expands ds (.elem e below rest)

theorem refers_of_find? {d : Definition} (hd : ds.find? k = some d) (hl : d.content.Refers l) :
    ds.Refers k l :=
  ⟨d, List.mem_of_find?_eq_some hd, by simpa using List.find?_some hd, hl⟩

/-- A content that expands refers to no definition that reaches itself. The induction follows the
substitution, which would have to come to the definition again. -/
theorem Expands.not_reaches (hdistinct : ds.Distinct) (h : ds.Expands c) (hk : c.Refers k) :
    ¬ds.Reaches k k := by
  have hcycle {k : DefinitionKey} (hnamed : ∀ d, ds.find? k = some d → ∀ l, d.content.Refers l →
      ¬ds.Reaches l l) : ¬ds.Reaches k k := by
    intro hreaches
    obtain ⟨l, ⟨d, hd, hkey, hl⟩, hlk⟩ := Relation.TransGen.head'_iff.mp hreaches
    refine hnamed d ((find?_eq_some_iff hdistinct).mpr ⟨hd, hkey⟩) l hl ?_
    exact Relation.TransGen.tail'_iff.mpr ⟨k, hlk, d, hd, hkey, hl⟩
  induction h generalizing k with
  | nil => cases hk
  | attr _ ih => exact ih (Content.refers_attr_iff.mp hk)
  | ref _ _ hnamed hafter =>
    rcases Content.refers_ref_iff.mp hk with rfl | hk
    · exact hcycle fun d hd l hl => hnamed d hd hl
    · exact hafter hk
  | elem _ _ _ hsupplied hown hafter =>
    rcases Content.refers_elem_iff.mp hk with ⟨hkind, hname⟩ | hk | hk
    · obtain ⟨kind, name⟩ := k
      obtain rfl : kind = .template := hkind
      exact hcycle fun d hd l hl => hsupplied name hname d hd hl
    · exact hown hk
    · exact hafter hk

/-! ### Chains of references -/

/-- Whether every chain of references from a key meets at most a number of definitions. -/
def Within (ds : Definitions) : Nat → DefinitionKey → Prop
  | 0, k => ds.find? k = none
  | n + 1, k => ∀ d, ds.find? k = some d → ∀ l, d.content.Refers l → Within ds n l

/-- A key with longer chains starts one of definitions that each reach those after it. -/
theorem exists_chain_of_not_within : ∀ {n : Nat} {k : DefinitionKey}, ¬ds.Within n k →
    ∃ ks, ks.length = n ∧ (∀ l ∈ k :: ks, l ∈ ds.map Definition.key) ∧
      (k :: ks).Pairwise ds.Reaches
  | 0, k, h => by
    have hk : (ds.find? k).isSome := Option.isSome_iff_ne_none.mpr h
    exact ⟨[], rfl, by simpa using isSome_find?_iff.mp hk, List.pairwise_singleton ..⟩
  | n + 1, k, h => by
    simp only [Within, not_forall] at h
    obtain ⟨d, hd, l, hl, hlong⟩ := h
    obtain ⟨ks, hlength, hkeys, hpairwise⟩ := exists_chain_of_not_within hlong
    have hkl : ds.Refers k l := refers_of_find? hd hl
    refine ⟨l :: ks, by rw [List.length_cons, hlength], ?_, List.pairwise_cons.mpr ⟨?_, hpairwise⟩⟩
    · exact List.forall_mem_cons.mpr ⟨hkl.mem_keys, hkeys⟩
    · intro m hm
      rcases List.mem_cons.mp hm with rfl | hm
      · exact .single hkl
      · exact .head hkl ((List.pairwise_cons.mp hpairwise).1 m hm)

/-- Without cycles no chain meets more definitions than there are. -/
theorem within_length (hacyclic : ∀ k, ¬ds.Reaches k k) (k : DefinitionKey) :
    ds.Within ds.length k := by
  by_contra hlong
  obtain ⟨ks, hlength, hkeys, hpairwise⟩ := exists_chain_of_not_within hlong
  have hnodup : (k :: ks).Nodup := hpairwise.imp (by rintro l m hlm rfl; exact hacyclic l hlm)
  have hle := hnodup.length_le_of_subset hkeys
  rw [List.length_cons, hlength, List.length_map] at hle
  omega

/-- A content expands if the contents of the definitions that it refers to do. -/
theorem expands_of_refers {c : Content} :
    (∀ k, c.Refers k → ∀ d, ds.find? k = some d → ds.Expands d.content) → ds.Expands c := by
  induction c with
  | nil => exact fun _ => .nil
  | attr a rest ih => exact fun h => .attr (ih fun k hk => h k (.afterAttr hk))
  | ref kind name rest ih =>
    exact fun h => .ref (h (kind, name) .ref) (ih fun k hk => h k (.afterRef hk))
  | elem e below rest hbelow hrest =>
    exact fun h => .elem (fun name hname => h (.template, name) (.template rfl hname))
      (hbelow fun k hk => h k (.inside hk)) (hrest fun k hk => h k (.afterElem hk))

theorem Within.expands : ∀ {n : Nat} {k : DefinitionKey} {d : Definition}, ds.Within n k →
    ds.find? k = some d → ds.Expands d.content
  | 0, _, _, hnone, hd => by
    rw [Within, hd] at hnone
    cases hnone
  | _ + 1, _, d, hlinked, hd =>
    expands_of_refers fun l hl _ hd' => (hlinked d hd l hl).expands hd'

/-- All contents expand exactly if no definition reaches itself. -/
theorem expands_iff (hdistinct : ds.Distinct) :
    (∀ c, ds.Expands c) ↔ ∀ k, ¬ds.Reaches k k := by
  constructor
  · intro h k
    exact (h (.ref k.1 k.2 .nil)).not_reaches hdistinct .ref
  · intro hacyclic c
    exact expands_of_refers fun k _ d hd => (within_length hacyclic k).expands hd

end Definitions

namespace Resolution

open Definitions

variable {ds : Definitions} {expand expand' : Expansion}

/-! ### Expansion to any depth -/

/-- One step of expansion: a reference becomes what the content of its definition contributes. -/
def unfolded (ds : Definitions) (expand : Expansion) : Expansion := fun k place within =>
  match ds.find? k with
  | some d => contribution expand place within d.content
  | none => .error (.danglingReference place k.1 k.2)

theorem expansion_succ (ds : Definitions) (depth : Nat) :
    expansion ds (depth + 1) = unfolded ds (expansion ds depth) := rfl

/-- What some content contributes depends on the definitions that it refers to. -/
theorem contribution_congr {c : Content} : ∀ {place : Path} {within : Option DefinitionKind},
    (∀ k, c.Refers k → expand k = expand' k) →
      contribution expand place within c = contribution expand' place within c := by
  induction c with
  | nil => intros; rfl
  | attr a rest ih =>
    intro place within h
    rw [contribution, contribution, ih fun k hk => h k (.afterAttr hk)]
  | ref kind name rest ih =>
    intro place within h
    rw [contribution, contribution, h (kind, name) .ref, ih fun k hk => h k (.afterRef hk)]
  | elem e below rest hbelow hrest =>
    intro place within h
    have htemplate : templateContribution expand (place.child e.tag) e =
        templateContribution expand' (place.child e.tag) e := by
      rw [templateContribution, templateContribution]
      split
      · next name hname => rw [h (.template, name) (.template rfl hname)]
      · rfl
    rw [contribution, contribution, htemplate, hbelow fun k hk => h k (.inside hk),
      hrest fun k hk => h k (.afterElem hk)]

/-- A key with short chains of references expands alike at all greater depths. -/
theorem expansion_of_within : ∀ {n : Nat} {k : DefinitionKey}, ds.Within n k →
    expansion ds (n + 1) k = expansion ds n k
  | 0, k, hnone => by
    funext place within
    rw [Within] at hnone
    rw [expansion_succ, unfolded, hnone]
    rfl
  | n + 1, k, hlinked => by
    funext place within
    rw [expansion_succ, expansion_succ, unfolded, unfolded]
    cases hd : ds.find? k with
    | none => rfl
    | some d => exact contribution_congr fun l hl => expansion_of_within (hlinked d hd l hl)

/-- A key with short chains of references has one expansion that is made of steps. -/
theorem eq_expansion_of_within (hexpand : unfolded ds expand = expand) :
    ∀ {n : Nat} {k : DefinitionKey}, ds.Within n k → expand k = expansion ds n k
  | 0, k, hnone => by
    funext place within
    rw [Within] at hnone
    rw [← hexpand, unfolded, hnone]
    rfl
  | n + 1, k, hlinked => by
    funext place within
    rw [← hexpand, expansion_succ, unfolded, unfolded]
    cases hd : ds.find? k with
    | none => rfl
    | some d => exact contribution_congr fun l hl => eq_expansion_of_within hexpand (hlinked d hd l hl)

/-- Without cycles, expansion to the depth of the number of definitions is the one that is made of
steps, however deep these nest. -/
theorem unfolded_eq_iff (hacyclic : ∀ k, ¬ds.Reaches k k) :
    unfolded ds expand = expand ↔ expand = expansion ds ds.length := by
  constructor
  · intro hexpand
    funext k
    exact eq_expansion_of_within hexpand (within_length hacyclic k)
  · rintro rfl
    funext k
    rw [← expansion_succ]
    exact expansion_of_within (within_length hacyclic k)

/-! ### Errors of substitution -/

/-- Whether an error is one that substitution meets: at a place among the elements. -/
inductive AtPlace : SchemaError → Prop where
  | dangling (place : Path) (kind : DefinitionKind) (name : String) :
      AtPlace (.danglingReference place kind name)
  | misplaced (place : Path) (kind : DefinitionKind) (name : String) :
      AtPlace (.misplacedReference place kind name)
  | vocabulary (cause : VocabularyError) : AtPlace (.vocabulary cause)
  | duplicate (path : Path) : AtPlace (.duplicateChild path)

variable {e : SchemaError}

theorem atPlace_element {path : Path} {d : ElementDecl} {content : Contribution}
    (h : element path d content = .error e) : AtPlace e := by
  rw [element] at h
  rcases bind_eq_error_iff.mp h with h | ⟨vocabulary, -, h⟩
  · rw [checkedVocabulary.eq_def] at h
    split at h
    · cases h
    · split at h
      · cases h
      · obtain rfl := Except.error.inj h
        exact .vocabulary _
  · split at h
    · obtain rfl := Except.error.inj h
      exact .duplicate _
    · cases h

theorem atPlace_template {path : Path} {d : ElementDecl}
    (hexpand : ∀ k place within e, expand k place within = .error e → AtPlace e)
    (h : templateContribution expand path d = .error e) : AtPlace e := by
  rw [templateContribution] at h
  split at h
  · exact hexpand _ _ _ _ h
  · cases h

theorem atPlace_contribution
    (hexpand : ∀ k place within e, expand k place within = .error e → AtPlace e) {c : Content} :
    ∀ {place : Path} {within : Option DefinitionKind},
      contribution expand place within c = .error e → AtPlace e := by
  induction c with
  | nil => intro place within h; cases h
  | attr a rest ih =>
    intro place within h
    rw [contribution] at h
    split at h
    · rcases bind_eq_error_iff.mp h with h | ⟨after, -, h⟩
      · exact ih h
      · cases h
    · obtain rfl := Except.error.inj h
      exact .misplaced ..
  | ref kind name rest ih =>
    intro place within h
    rw [contribution] at h
    split at h
    · rcases bind_eq_error_iff.mp h with h | ⟨named, -, h⟩
      · exact hexpand _ _ _ _ h
      rcases bind_eq_error_iff.mp h with h | ⟨after, -, h⟩
      · exact ih h
      · cases h
    · obtain rfl := Except.error.inj h
      exact .misplaced ..
  | elem d below rest hbelow hrest =>
    intro place within h
    rw [contribution] at h
    split at h
    · rcases bind_eq_error_iff.mp h with h | ⟨supplied, -, h⟩
      · exact atPlace_template hexpand h
      rcases bind_eq_error_iff.mp h with h | ⟨own, -, h⟩
      · exact hbelow h
      rcases bind_eq_error_iff.mp h with h | ⟨head, -, h⟩
      · exact atPlace_element h
      rcases bind_eq_error_iff.mp h with h | ⟨after, -, h⟩
      · exact hrest h
      · cases h
    · obtain rfl := Except.error.inj h
      exact .misplaced ..

theorem atPlace_expansion (ds : Definitions) (depth : Nat) : ∀ k place within e,
    expansion ds depth k place within = .error e → AtPlace e := by
  induction depth with
  | zero =>
    intro k place within e h
    obtain rfl := Except.error.inj h
    exact .dangling ..
  | succ depth ih =>
    intro k place within e h
    rw [expansion_succ, unfolded] at h
    split at h
    · exact atPlace_contribution ih h
    · obtain rfl := Except.error.inj h
      exact .dangling ..

theorem atPlace_rootTree {d : Declaration} (h : rootTree d = .error e) : AtPlace e := by
  have hexpand := atPlace_expansion d.definitions d.definitions.length
  rw [rootTree] at h
  rcases bind_eq_error_iff.mp h with h | ⟨supplied, -, h⟩
  · exact atPlace_template hexpand h
  rcases bind_eq_error_iff.mp h with h | ⟨own, -, h⟩
  · exact atPlace_contribution hexpand h
  rcases bind_eq_error_iff.mp h with h | ⟨head, -, h⟩
  · exact atPlace_element h
  · cases h

theorem checkKnown_eq_error {known : List Path} {ps : List (PathUse × Path)}
    (h : checkKnown known ps = .error e) : ∃ use path, e = .unknownPath use path := by
  induction ps with
  | nil => cases h
  | cons p ps ih =>
    rw [checkKnown] at h
    split at h
    · exact ih h
    · exact ⟨_, _, (Except.error.inj h).symm⟩

end Resolution

open Definitions Resolution

namespace Declaration

variable {d : Declaration}

/-- Resolution fails with the definitions that reach themselves if the check of the definitions
does: nothing after it looks for cycles. -/
theorem resolve_eq_cyclic_iff {ks : List DefinitionKey} :
    d.resolve = .error (.cyclicReferences ks) ↔
      Definitions.check d.definitions = .error (.cyclicReferences ks) := by
  rw [resolve, bind_eq_error_iff]
  refine or_iff_left ?_
  rintro ⟨_, -, h⟩
  rcases bind_eq_error_iff.mp h with h | ⟨_, -, h⟩
  · cases atPlace_rootTree h
  rcases bind_eq_error_iff.mp h with h | ⟨_, -, h⟩
  · obtain ⟨use, path, h⟩ := checkKnown_eq_error h
    cases h
  · cases h

/-- Resolution comes to an end on every declaration, and it detects exactly the cycles. Either the
check of the definitions refuses them, or every content expands and the expansion of references is
the one made of steps. Among definitions with names of their own that refer to one another, it
refuses exactly those that reach themselves, each once and in order; they are those of the strongly
connected components that are cycles. Whether there are cycles or not, the search finds what stands
in the components that are cycles. -/
theorem resolve_cycles (d : Declaration) :
    ((∃ e, Definitions.check d.definitions = .error e ∧ d.resolve = .error e) ∨
      (∀ c, Expands d.definitions c) ∧ ∀ expand, unfolded d.definitions expand = expand ↔
        expand = expansion d.definitions d.definitions.length) ∧
    (Distinct d.definitions → Named d.definitions →
      ((∀ c, Expands d.definitions c) ↔ ∀ k, ¬Reaches d.definitions k k) ∧
      ((∃ ks, d.resolve = .error (.cyclicReferences ks)) ↔ ∃ k, Reaches d.definitions k k) ∧
      ∀ ks, d.resolve = .error (.cyclicReferences ks) →
        (∀ k, k ∈ ks ↔ Reaches d.definitions k k) ∧ ks.Nodup ∧
          (ks.Pairwise fun k l => DefinitionKey.compare k l = .lt) ∧
          ∀ components, Components d.definitions components →
            ks = cyclicAmong d.definitions components) ∧
    (Distinct d.definitions → ∀ components, Components d.definitions components →
      cyclicAmong d.definitions components = cyclic d.definitions ∧
        ∀ k, k ∈ cyclicAmong d.definitions components ↔ Reaches d.definitions k k) := by
  refine ⟨?_, ?_, ?_⟩
  · cases hcheck : Definitions.check d.definitions with
    | error e => exact .inl ⟨e, rfl, by rw [resolve, hcheck]; rfl⟩
    | ok _ =>
      obtain ⟨hdistinct, -, hacyclic⟩ := check_eq_ok_iff.mp hcheck
      exact .inr ⟨(expands_iff hdistinct).mpr hacyclic, fun _ => unfolded_eq_iff hacyclic⟩
  · intro hdistinct hnamed
    have hresolve (ks : List DefinitionKey) : d.resolve = .error (.cyclicReferences ks) ↔
        cyclic d.definitions = ks ∧ ∃ k, Reaches d.definitions k k :=
      resolve_eq_cyclic_iff.trans (check_eq_cyclic_iff hdistinct hnamed)
    refine ⟨expands_iff hdistinct, ⟨?_, ?_⟩, fun ks h => ?_⟩
    · rintro ⟨ks, h⟩
      exact ((hresolve ks).mp h).2
    · intro hcyclic
      exact ⟨_, (hresolve _).mpr ⟨rfl, hcyclic⟩⟩
    · obtain ⟨rfl, -⟩ := (hresolve ks).mp h
      have hpairwise := pairwise_cyclic hdistinct
      exact ⟨fun _ => mem_cyclic_iff hdistinct, DefinitionKey.nodup_of_pairwise hpairwise, hpairwise,
        fun _ hcomponents => (cyclicAmong_eq hdistinct hcomponents).symm⟩
  · intro hdistinct components hcomponents
    rw [cyclicAmong_eq hdistinct hcomponents]
    exact ⟨rfl, fun _ => mem_cyclic_iff hdistinct⟩

end Declaration

/-- A person has friends, who are people, and people are persons; the identifiers refer to
nothing. -/
def peopleDeclaration : Declaration where
  definitions :=
    [{ kind := .template, name := "person",
       content := .elem { tag := .elem none "friends" } (.ref .elementGroup "people" .nil) .nil },
     { kind := .attributeGroup, name := "ids", content := .attr { tag := .attr none "id" } .nil },
     { kind := .elementGroup, name := "people",
       content := .elem { tag := .elem none "person", template := some "person" } .nil .nil }]
  root := { tag := .elem none "record" }
  content := .ref .attributeGroup "ids" (.ref .elementGroup "people" .nil)

/-- The keys of people and of the template of a person, in order. -/
def peopleCycle : List DefinitionKey := [(.elementGroup, "people"), (.template, "person")]

theorem reaches_people_iff {k l : DefinitionKey} :
    Reaches peopleDeclaration.definitions k l ↔ k ∈ peopleCycle ∧ l ∈ peopleCycle := by
  have hstep {k l : DefinitionKey} (h : Refers peopleDeclaration.definitions k l) :
      k ∈ peopleCycle ∧ l ∈ peopleCycle := by
    have h := any_refers_iff.mpr h
    simp [peopleDeclaration, Definition.references, Definition.key, Content.references] at h
    rcases h with ⟨rfl, rfl⟩ | ⟨rfl, rfl⟩
    · decide
    · decide
  have hpeople : Refers peopleDeclaration.definitions (.elementGroup, "people")
      (.template, "person") := by decide
  have hperson : Refers peopleDeclaration.definitions (.template, "person")
      (.elementGroup, "people") := by decide
  constructor
  · intro h
    induction h with
    | single h => exact hstep h
    | tail _ h ih => exact ⟨ih.1, (hstep h).2⟩
  · simp only [peopleCycle, List.mem_cons, List.not_mem_nil, or_false]
    rintro ⟨rfl | rfl, rfl | rfl⟩
    · exact .head hpeople (.single hperson)
    · exact .single hpeople
    · exact .single hperson
    · exact .head hperson (.single hpeople)

/-- People and the template of a person reach each other, and resolution lists the two. -/
theorem peopleDeclaration_cycles :
    Distinct peopleDeclaration.definitions ∧ Named peopleDeclaration.definitions ∧
      Components peopleDeclaration.definitions [[(.attributeGroup, "ids")], peopleCycle] ∧
      peopleDeclaration.resolve = .error (.cyclicReferences peopleCycle) ∧
      cyclicAmong peopleDeclaration.definitions [[(.attributeGroup, "ids")], peopleCycle] =
        peopleCycle := by
  have hdistinct : Distinct peopleDeclaration.definitions := by decide
  have hnamed : Named peopleDeclaration.definitions := forall_references_iff.mp (by decide)
  have hcomponents :
      Components peopleDeclaration.definitions [[(.attributeGroup, "ids")], peopleCycle] := by
    refine ⟨by decide, ?_⟩
    simp only [reaches_people_iff]
    rintro c hc k hk l
    simp only [List.mem_cons, List.not_mem_nil, or_false] at hc
    rcases hc with rfl | rfl
    · obtain rfl := List.mem_singleton.mp hk
      simp [peopleCycle]
    · simp only [hk, true_and, and_true, and_self]
      exact ⟨.inr, fun h => h.elim (· ▸ hk) id⟩
  obtain ⟨-, hcycles, -⟩ := Declaration.resolve_cycles peopleDeclaration
  obtain ⟨-, hexists, hlist⟩ := hcycles hdistinct hnamed
  obtain ⟨ks, hks⟩ := hexists.mpr
    ⟨(.elementGroup, "people"), reaches_people_iff.mpr ⟨by decide, by decide⟩⟩
  obtain ⟨hmem, -, hpairwise, hamong⟩ := hlist ks hks
  obtain rfl : ks = peopleCycle := DefinitionKey.eq_of_mem_iff hpairwise (by decide) fun k => by
    rw [hmem, reaches_people_iff, and_self]
  exact ⟨hdistinct, hnamed, hcomponents, hks, (hamong _ hcomponents).symm⟩

end Crosswalk
