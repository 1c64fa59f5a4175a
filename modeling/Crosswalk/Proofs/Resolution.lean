import Crosswalk.Proofs.Document
import Crosswalk.Schema.Resolution

/-!
What resolution grants. Every attribute and every element of a resolved record definition stands in
the declaration, and every element has passed the checks of its vocabulary and of the tags of its
content, at the path that it has in the definition. So a property that these checks give to an element
at its path holds throughout the definition.
-/

namespace Crosswalk

/-! ### Attributes and elements of a declaration -/

/-- Whether all attributes and all elements of some content, at any depth, have given properties. -/
def Content.All (Q : Attribute → Prop) (R : ElementDecl → Prop) : Content → Prop
  | .nil => True
  | .attr a rest => Q a ∧ All Q R rest
  | .ref _ _ rest => All Q R rest
  | .elem e below rest => R e ∧ All Q R below ∧ All Q R rest

/-- Whether all attributes and all elements of a declaration, named definitions included, have given
properties. -/
structure Declaration.All (Q : Attribute → Prop) (R : ElementDecl → Prop) (d : Declaration) :
    Prop where
  root : R d.root
  content : d.content.All Q R
  definitions : ∀ definition ∈ d.definitions, definition.content.All Q R

/-! ### Elements at their paths -/

/-- Whether every tree of a forest of elements beneath a path has a property of the path of its
element, of the element and of what is below it. -/
def Element.EachAt (P : Path → Element → Forest Element → Prop) (parent : Path) :
    Forest Element → Prop
  | .nil => True
  | .tree e below next =>
    P (parent.child e.tag) e below ∧ EachAt P (parent.child e.tag) below ∧ EachAt P parent next

namespace Element

variable {P : Path → Element → Forest Element → Prop} {parent : Path} {f g : Forest Element}

theorem EachAt.append (hf : EachAt P parent f) (hg : EachAt P parent g) :
    EachAt P parent (f ++ g) := by
  induction f with
  | nil => exact hg
  | tree e below next _ ih => exact ⟨hf.1, hf.2.1, ih hf.2.2⟩

/-- A property of elements at their paths is a property of elements if it does not depend on paths. -/
theorem EachAt.each {P : Element → Forest Element → Prop} : ∀ {parent : Path},
    EachAt (fun _ => P) parent f → f.Each P := by
  induction f with
  | nil => intro parent _; trivial
  | tree e below next hb hn => exact fun h => ⟨h.1, hb h.2.1, hn h.2.2⟩

end Element

/-! ### Checks of one vocabulary -/

/-- Whether a vocabulary has choices with values and keys of their own, and its fixed fields lie
beneath its root. -/
structure Vocabulary.Valid (v : Vocabulary) : Prop where
  nonempty : v.choices ≠ []
  values : (v.choices.map Choice.value).Nodup
  keys : (v.choices.map Choice.variantKey).Nodup
  beneath : ∀ p ∈ v.declaredFields, v.root.isAncestorOf p = true

namespace Vocabulary

theorem checkChoices_eq_ok_iff {root : Path} {cs : List Choice} : ∀ {values keys : List String},
    checkChoices root values keys cs = .ok () ↔
      (cs.map Choice.value).Nodup ∧ (∀ c ∈ cs, c.value ∉ values) ∧
        (cs.map Choice.variantKey).Nodup ∧ ∀ c ∈ cs, c.variantKey ∉ keys := by
  induction cs with
  | nil => simp [checkChoices]
  | cons c cs ih =>
    intro values keys
    rw [checkChoices]
    split
    · next hvalue => simp [hvalue]
    · next hvalue =>
      split
      · next hkey => simp [hkey]
      · next hkey =>
        rw [ih, List.map_cons, List.nodup_cons, List.map_cons, List.nodup_cons,
          List.forall_mem_cons, List.forall_mem_cons]
        simp only [List.mem_cons, not_or, List.mem_map, not_exists, not_and]
        constructor
        · rintro ⟨hvalues, hfresh, hkeys, hfresh'⟩
          exact ⟨⟨fun d hd => (hfresh d hd).1, hvalues⟩, ⟨hvalue, fun d hd => (hfresh d hd).2⟩,
            ⟨fun d hd => (hfresh' d hd).1, hkeys⟩, hkey, fun d hd => (hfresh' d hd).2⟩
        · rintro ⟨⟨hfresh, hvalues⟩, ⟨-, hseen⟩, ⟨hfresh', hkeys⟩, -, hseen'⟩
          exact ⟨hvalues, fun d hd => ⟨hfresh d hd, hseen d hd⟩, hkeys,
            fun d hd => ⟨hfresh' d hd, hseen' d hd⟩⟩

theorem checkFields_eq_ok_iff {root : Path} {ps : List Path} :
    checkFields root ps = .ok () ↔ ∀ p ∈ ps, root.isAncestorOf p = true := by
  induction ps with
  | nil => simp [checkFields]
  | cons p ps ih =>
    rw [checkFields, List.forall_mem_cons]
    split
    · next h => rw [ih, and_iff_right h]
    · next h => simp [h]

/-- The check of a vocabulary accepts the valid ones. -/
theorem validate_eq_ok_iff {v : Vocabulary} : v.validate = .ok () ↔ v.Valid := by
  rw [validate]
  split
  · next hempty =>
    constructor
    · intro h
      cases h
    · intro hvalid
      exact absurd (List.isEmpty_iff.mp hempty) hvalid.nonempty
  · next hempty =>
    rw [bind_eq_ok_iff]
    constructor
    · rintro ⟨_, -, h⟩
      obtain ⟨_, hchoices, hfields⟩ := bind_eq_ok_iff.mp h
      obtain ⟨hvalues, -, hkeys, -⟩ := checkChoices_eq_ok_iff.mp hchoices
      exact ⟨fun hnil => hempty (List.isEmpty_iff.mpr hnil), hvalues, hkeys,
        checkFields_eq_ok_iff.mp hfields⟩
    · rintro ⟨-, hvalues, hkeys, hbeneath⟩
      refine ⟨(), rfl, bind_eq_ok_iff.mpr ⟨(), ?_, checkFields_eq_ok_iff.mpr hbeneath⟩⟩
      exact checkChoices_eq_ok_iff.mpr ⟨hvalues, by simp, hkeys, by simp⟩

end Vocabulary

namespace Resolution

variable {Q : Attribute → Prop} {R : ElementDecl → Prop}
  {P : Path → Element → Forest Element → Prop}

/-! ### Checks of one element -/

theorem firstRepeated?_eq_none_iff {ts : List Tag} : ∀ {seen : List Tag},
    firstRepeated? seen ts = none ↔ ts.Nodup ∧ ∀ t ∈ ts, t ∉ seen := by
  induction ts with
  | nil => simp [firstRepeated?]
  | cons t ts ih =>
    intro seen
    rw [firstRepeated?]
    split
    · next hseen => simp [hseen]
    · next hseen =>
      rw [ih, List.nodup_cons, List.forall_mem_cons]
      simp only [List.mem_cons, not_or]
      constructor
      · rintro ⟨hnodup, h⟩
        exact ⟨⟨fun ht => (h t ht).1 rfl, hnodup⟩, hseen, fun u hu => (h u hu).2⟩
      · rintro ⟨⟨ht, hnodup⟩, -, h⟩
        exact ⟨hnodup, fun u hu => ⟨fun hut => ht (hut ▸ hu), h u hu⟩⟩

/-- What is known of an element that has been accepted with the content it was given. -/
theorem element_eq_ok {path : Path} {e : ElementDecl} {content : Contribution} {head : Element}
    (h : element path e content = .ok head) :
    head.toElementInfo = e.toElementInfo ∧ head.attributes = content.attributes ∧
      content.tags.Nodup ∧ ∀ v, head.vocabulary = some v → v.Valid := by
  rw [element] at h
  obtain ⟨vocabulary, hvocabulary, h⟩ := bind_eq_ok_iff.mp h
  split at h
  · cases h
  · next hnone =>
    obtain rfl := Except.ok.inj h
    refine ⟨rfl, rfl, (firstRepeated?_eq_none_iff.mp hnone).1, ?_⟩
    rintro v rfl
    rw [checkedVocabulary.eq_def] at hvocabulary
    split at hvocabulary
    · cases hvocabulary
    · split at hvocabulary
      · next hvalid =>
        obtain rfl := Option.some.inj (Except.ok.inj hvocabulary)
        exact Vocabulary.validate_eq_ok_iff.mp hvalid
      · cases hvocabulary

/-- The root of the vocabulary of an accepted element is the element's path without variants. -/
theorem root_of_element {path : Path} {e : ElementDecl} {content : Contribution} {head : Element}
    (h : element path e content = .ok head) :
    ∀ v, head.vocabulary = some v → v.root = path.withoutVariants := by
  rw [element] at h
  obtain ⟨vocabulary, hvocabulary, h⟩ := bind_eq_ok_iff.mp h
  split at h
  · cases h
  · obtain rfl := Except.ok.inj h
    rintro v rfl
    rw [checkedVocabulary.eq_def] at hvocabulary
    split at hvocabulary
    · cases hvocabulary
    · split at hvocabulary
      · obtain rfl := Option.some.inj (Except.ok.inj hvocabulary)
        rfl
      · cases hvocabulary

/-! ### Substitution -/

/-- Whether what some content contributes at a place has given properties throughout. -/
structure Contributes (Q : Attribute → Prop) (P : Path → Element → Forest Element → Prop)
    (place : Path) (c : Contribution) : Prop where
  attributes : ∀ a ∈ c.attributes, Q a
  elements : Element.EachAt P place c.elements

theorem Contributes.none {place : Path} : Contributes Q P place {} := ⟨by simp, trivial⟩

theorem Contributes.append {place : Path} {c d : Contribution} (hc : Contributes Q P place c)
    (hd : Contributes Q P place d) : Contributes Q P place (c ++ d) :=
  ⟨List.forall_mem_append.mpr ⟨hc.attributes, hd.attributes⟩, hc.elements.append hd.elements⟩

theorem contributes_template {expand : Expansion} {path : Path} {e : ElementDecl} {c : Contribution}
    (hexpand : ∀ k place within c, expand k place within = .ok c → Contributes Q P place c)
    (h : templateContribution expand path e = .ok c) : Contributes Q P path c := by
  rw [templateContribution] at h
  split at h
  · exact hexpand _ _ _ _ h
  · obtain rfl := Except.ok.inj h
    exact .none

/-- The property of an element that its checks give it is kept by every way to contribute it. -/
theorem contributes_contribution {expand : Expansion}
    (hexpand : ∀ k place within c, expand k place within = .ok c → Contributes Q P place c)
    (helement : ∀ path e content head, R e → (∀ a ∈ content.attributes, Q a) →
      element path e content = .ok head → P path head content.elements)
    {content : Content} : ∀ {place : Path} {within : Option DefinitionKind} {c : Contribution},
      content.All Q R → contribution expand place within content = .ok c →
        Contributes Q P place c := by
  induction content with
  | nil =>
    intro place within c _ h
    obtain rfl := Except.ok.inj h
    exact .none
  | attr a rest ih =>
    rintro place within c ⟨ha, hrest⟩ h
    rw [contribution] at h
    split at h
    · obtain ⟨after, hafter, h⟩ := bind_eq_ok_iff.mp h
      obtain rfl := Except.ok.inj h
      exact .append ⟨by simpa using ha, trivial⟩ (ih hrest hafter)
    · cases h
  | ref kind name rest ih =>
    intro place within c hrest h
    rw [contribution] at h
    split at h
    · obtain ⟨named, hnamed, h⟩ := bind_eq_ok_iff.mp h
      obtain ⟨after, hafter, h⟩ := bind_eq_ok_iff.mp h
      obtain rfl := Except.ok.inj h
      exact .append (hexpand _ _ _ _ hnamed) (ih hrest hafter)
    · cases h
  | elem e below rest hbelow hrest =>
    rintro place within c ⟨he, hallBelow, hallRest⟩ h
    rw [contribution] at h
    split at h
    · obtain ⟨supplied, hsupplied, h⟩ := bind_eq_ok_iff.mp h
      obtain ⟨own, hown, h⟩ := bind_eq_ok_iff.mp h
      obtain ⟨head, hhead, h⟩ := bind_eq_ok_iff.mp h
      obtain ⟨after, hafter, h⟩ := bind_eq_ok_iff.mp h
      obtain rfl := Except.ok.inj h
      have hcontent : Contributes Q P (place.child e.tag) (supplied ++ own) :=
        (contributes_template hexpand hsupplied).append (hbelow hallBelow hown)
      have htag : head.tag = e.tag := congrArg ElementInfo.tag (element_eq_ok hhead).1
      have hsingle : Contributes Q P place { elements := .single head (supplied ++ own).elements } := by
        refine ⟨by simp, ?_, ?_, trivial⟩
        · rw [htag]
          exact helement _ _ _ _ he hcontent.attributes hhead
        · rw [htag]
          exact hcontent.elements
      exact hsingle.append (hrest hallRest hafter)
    · cases h

theorem contributes_expansion {ds : Definitions} (hds : ∀ d ∈ ds, d.content.All Q R)
    (helement : ∀ path e content head, R e → (∀ a ∈ content.attributes, Q a) →
      element path e content = .ok head → P path head content.elements) (depth : Nat) :
    ∀ k place within c, expansion ds depth k place within = .ok c → Contributes Q P place c := by
  induction depth with
  | zero => intro k place within c h; cases h
  | succ depth ih =>
    intro k place within c h
    rw [expansion] at h
    dsimp only at h
    split at h
    · next d hd =>
      exact contributes_contribution ih helement (hds d (List.mem_of_find?_eq_some hd)) h
    · cases h

end Resolution

open Resolution

/-- Every element of a resolved record definition has what its checks give to an element at its path,
if the attributes and elements of the declaration have what this takes. -/
theorem Declaration.eachAt_of_resolve {Q : Attribute → Prop} {R : ElementDecl → Prop}
    {P : Path → Element → Forest Element → Prop} {d : Declaration} {r : Record} (hd : d.All Q R)
    (helement : ∀ path e content head, R e → (∀ a ∈ content.attributes, Q a) →
      element path e content = .ok head → P path head content.elements)
    (h : d.resolve = .ok r) : Element.EachAt P Path.root r.elements := by
  have hexpand := contributes_expansion hd.definitions helement d.definitions.length
  rw [resolve] at h
  obtain ⟨_, -, h⟩ := bind_eq_ok_iff.mp h
  obtain ⟨⟨root, below⟩, htree, h⟩ := bind_eq_ok_iff.mp h
  obtain ⟨_, -, h⟩ := bind_eq_ok_iff.mp h
  obtain rfl := Except.ok.inj h
  rw [rootTree] at htree
  obtain ⟨supplied, hsupplied, htree⟩ := bind_eq_ok_iff.mp htree
  obtain ⟨own, hown, htree⟩ := bind_eq_ok_iff.mp htree
  obtain ⟨head, hhead, htree⟩ := bind_eq_ok_iff.mp htree
  obtain ⟨rfl, rfl⟩ := Prod.mk.inj (Except.ok.inj htree)
  have hcontent : Contributes Q P (Path.root.child d.root.tag) (supplied ++ own) :=
    (contributes_template hexpand hsupplied).append
      (contributes_contribution hexpand helement hd.content hown)
  have htag : head.tag = d.root.tag := congrArg ElementInfo.tag (element_eq_ok hhead).1
  refine ⟨?_, ?_, trivial⟩
  · rw [htag]
    exact helement _ _ _ _ hd.root hcontent.attributes hhead
  · rw [htag]
    exact hcontent.elements

/-- Every element of a resolved record definition has what its checks give to an element. -/
theorem Declaration.each_of_resolve {Q : Attribute → Prop} {R : ElementDecl → Prop}
    {P : Element → Forest Element → Prop} {d : Declaration} {r : Record} (hd : d.All Q R)
    (helement : ∀ path e content head, R e → (∀ a ∈ content.attributes, Q a) →
      element path e content = .ok head → P head content.elements)
    (h : d.resolve = .ok r) : r.elements.Each P :=
  (d.eachAt_of_resolve hd helement h).each

end Crosswalk
