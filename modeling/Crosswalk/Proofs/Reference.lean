import Crosswalk.Proofs.Document
import Crosswalk.Schema.Reference
import Mathlib.Data.List.Nodup
import Mathlib.Logic.Relation

/-!
Cycles of references. The search through the links of some definitions leaves exactly those that no
chain of links comes to, so the definitions that the check refuses are exactly those that reach
themselves through the references in their contents. They are also what remains of the strongly
connected components when those of one definition without a reference to itself are left out.
-/

namespace Crosswalk

/-! ### References in contents -/

/-- Whether some content refers to a definition: by an entry that is a reference or by the template
of an element, at any depth. -/
inductive Content.Refers (k : DefinitionKey) : Content → Prop where
  | ref {rest : Content} : Refers k (.ref k.1 k.2 rest)
  | template {e : ElementDecl} {below rest : Content} (hkind : k.1 = .template)
      (hname : e.template = some k.2) : Refers k (.elem e below rest)
  | inside {e : ElementDecl} {below rest : Content} (h : Refers k below) :
      Refers k (.elem e below rest)
  | afterAttr {a : Attribute} {rest : Content} (h : Refers k rest) : Refers k (.attr a rest)
  | afterRef {kind : DefinitionKind} {name : String} {rest : Content} (h : Refers k rest) :
      Refers k (.ref kind name rest)
  | afterElem {e : ElementDecl} {below rest : Content} (h : Refers k rest) :
      Refers k (.elem e below rest)

namespace Content

variable {k : DefinitionKey} {rest below : Content}

theorem refers_attr_iff {a : Attribute} : (attr a rest).Refers k ↔ rest.Refers k :=
  ⟨fun | .afterAttr h => h, .afterAttr⟩

theorem refers_ref_iff {kind : DefinitionKind} {name : String} :
    (ref kind name rest).Refers k ↔ (kind, name) = k ∨ rest.Refers k := by
  constructor
  · rintro (_ | _ | _ | _ | h | _)
    · exact .inl rfl
    · exact .inr h
  · rintro (rfl | h)
    · exact .ref
    · exact .afterRef h

theorem refers_elem_iff {e : ElementDecl} : (elem e below rest).Refers k ↔
    (k.1 = .template ∧ e.template = some k.2) ∨ below.Refers k ∨ rest.Refers k := by
  constructor
  · rintro (_ | ⟨hkind, hname⟩ | h | _ | _ | h)
    · exact .inl ⟨hkind, hname⟩
    · exact .inr (.inl h)
    · exact .inr (.inr h)
  · rintro (⟨hkind, hname⟩ | h | h)
    · exact .template hkind hname
    · exact .inside h
    · exact .afterElem h

/-- The references that are listed for some content are all that there are in it. -/
theorem mem_references_iff {c : Content} : ∀ {place : Path},
    k ∈ (c.references place).map Prod.fst ↔ c.Refers k := by
  induction c with
  | nil =>
    intro place
    constructor
    · intro h
      cases h
    · intro h
      cases h
  | attr a rest ih =>
    intro place
    rw [references, ih, refers_attr_iff]
  | ref kind name rest ih =>
    intro place
    rw [references, List.map_cons, List.mem_cons, ih, refers_ref_iff, eq_comm]
  | elem e below rest hbelow hrest =>
    intro place
    rw [references, List.map_append, List.map_append, List.mem_append, List.mem_append, hbelow,
      hrest, refers_elem_iff, or_assoc]
    refine or_congr_left ?_
    obtain ⟨kind, name⟩ := k
    cases e.template with
    | none => simp
    | some name' => simp [eq_comm]

end Content

/-! ### The search through links -/

namespace Links

variable {g : Links} {k l : DefinitionKey}

/-- Whether a definition is linked to another. -/
def Edge (g : Links) (k l : DefinitionKey) : Prop := ∃ ls, g[k]? = some ls ∧ l ∈ ls

/-- What the other definitions are linked to does not change when one is taken out. -/
theorem edge_erase_iff {r : DefinitionKey} :
    Edge (g.erase r) k l ↔ k ≠ r ∧ Edge g k l := by
  simp only [Edge, Std.HashMap.getElem?_erase, beq_iff_eq]
  by_cases h : r = k
  · simp [h]
  · simp [h, Ne.symm h]

/-- A chain of links avoids a definition, or what follows it there starts from one of its links. -/
theorem reflTransGen_erase {r s x : DefinitionKey} (h : Relation.ReflTransGen (Edge g) s x) :
    Relation.ReflTransGen (Edge (g.erase r)) s x ∨
      ∃ t, Edge g r t ∧ Relation.ReflTransGen (Edge (g.erase r)) t x := by
  induction h using Relation.ReflTransGen.head_induction_on with
  | refl => exact .inl .refl
  | @head s t hst _ ih =>
    rcases ih with htx | later
    · by_cases hs : s = r
      · exact .inr ⟨t, hs ▸ hst, htx⟩
      · exact .inl (.head (edge_erase_iff.mpr ⟨hs, hst⟩) htx)
    · exact .inr later

/-- What is not reached are the definitions that no chain of links from one of the keys comes to. -/
theorem mem_unreached_iff {x : DefinitionKey} : ∀ {g : Links} {ks : List DefinitionKey},
    x ∈ g.unreached ks ↔ x ∈ g ∧ ∀ s ∈ ks, ¬Relation.ReflTransGen (Edge g) s x := by
  intro g ks
  induction g, ks using Links.unreached.induct with
  | case1 g => simp [unreached]
  | case2 g k ks inside next ih =>
    have hnext (t : DefinitionKey) : t ∈ next ↔ Edge g k t := by
      rw [Edge, Std.HashMap.getElem?_eq_some_getElem inside]
      simp [next]
    have hsub {s : DefinitionKey} (h : Relation.ReflTransGen (Edge (g.erase k)) s x) :
        Relation.ReflTransGen (Edge g) s x :=
      Relation.ReflTransGen.mono (fun _ _ hedge => (edge_erase_iff.mp hedge).2) _ _ h
    rw [unreached, dif_pos inside, ih, Std.HashMap.mem_erase]
    constructor
    · rintro ⟨⟨hne, hx⟩, hnone⟩
      have hne : x ≠ k := fun h => by simp [h] at hne
      refine ⟨hx, fun s hs hreach => ?_⟩
      rcases reflTransGen_erase (r := k) hreach with hreach | ⟨t, ht, hreach⟩
      · rcases List.mem_cons.mp hs with rfl | hs
        · -- A chain from the definition itself goes on with one of its links.
          rcases Relation.ReflTransGen.cases_head hreach with heq | ⟨t, hst, -⟩
          · exact hne heq.symm
          · exact (edge_erase_iff.mp hst).1 rfl
        · exact hnone s (List.mem_append_right _ hs) hreach
      · exact hnone t (List.mem_append_left _ ((hnext t).mpr ht)) hreach
    · rintro ⟨hx, hnone⟩
      have hne : x ≠ k := fun h => hnone k List.mem_cons_self (h ▸ .refl)
      refine ⟨⟨by simpa using hne.symm, hx⟩, fun s hs hreach => ?_⟩
      rcases List.mem_append.mp hs with hs | hs
      · exact hnone k List.mem_cons_self (.head ((hnext s).mp hs) (hsub hreach))
      · exact hnone s (List.mem_cons_of_mem _ hs) (hsub hreach)
  | case3 g k ks outside ih =>
    rw [unreached, dif_neg outside, ih, List.forall_mem_cons]
    refine and_congr_right fun hx => (and_iff_right ?_).symm
    intro hreach
    rcases Relation.ReflTransGen.cases_head hreach with rfl | ⟨t, ⟨ls, hls, -⟩, -⟩
    · exact outside hx
    · exact outside (Std.HashMap.mem_iff_isSome_getElem?.mpr (by simp [hls]))

/-- A definition with links reaches itself if a chain of links leads back to it. -/
theorem reachesItself_iff (hk : k ∈ g) :
    g.reachesItself k = true ↔ Relation.TransGen (Edge g) k k := by
  have hget : g.getD k [] = g[k] := by
    rw [Std.HashMap.getD_eq_getD_getElem?, Std.HashMap.getElem?_eq_some_getElem hk]
    rfl
  rw [reachesItself, Bool.not_eq_true', decide_eq_false_iff_not, mem_unreached_iff, hget,
    Relation.TransGen.head'_iff]
  simp only [hk, true_and, not_forall, not_not, exists_prop]
  refine exists_congr fun s => and_congr_left fun _ => ?_
  rw [Edge, Std.HashMap.getElem?_eq_some_getElem hk]
  simp

end Links

/-! ### The order of keys -/

namespace DefinitionKey

instance : Std.TransCmp compare := inferInstanceAs (Std.TransCmp (compareLex _ _))

theorem eq_of_compare {k l : DefinitionKey} (h : compare k l = .eq) : k = l := by
  obtain ⟨kind, name⟩ := k
  obtain ⟨kind', name'⟩ := l
  simp only [compare, compareLex_eq_eq, compareOn, Std.compare_eq_iff_eq] at h
  obtain ⟨hrank, rfl⟩ := h
  cases kind <;> cases kind' <;> first | rfl | cases hrank

/-- Keys sorted by their order, each once, are in strictly increasing order. -/
theorem pairwise_mergeSort {ks : List DefinitionKey} (hnodup : ks.Nodup) :
    (ks.mergeSort fun k l => (compare k l).isLE).Pairwise fun k l => compare k l = .lt := by
  have htotal (k l : DefinitionKey) : ((compare k l).isLE || (compare l k).isLE) = true := by
    rw [Bool.or_eq_true]
    cases h : compare k l with
    | lt => exact .inl rfl
    | eq => exact .inl rfl
    | gt => exact .inr (by rw [Std.OrientedCmp.gt_iff_lt.mp h]; rfl)
  have hsorted : (ks.mergeSort fun k l => (compare k l).isLE).Pairwise
      fun k l => (compare k l).isLE = true :=
    List.pairwise_mergeSort (fun _ _ _ => Std.TransCmp.isLE_trans) htotal ks
  have hdistinct := ((List.mergeSort_perm ks fun k l => (compare k l).isLE).nodup_iff).mpr hnodup
  refine (hsorted.and hdistinct).imp fun {k l} h => ?_
  obtain ⟨hle, hne⟩ := h
  cases hkl : compare k l with
  | lt => rfl
  | eq => exact absurd (eq_of_compare hkl) hne
  | gt => rw [hkl] at hle; cases hle

theorem nodup_of_pairwise {ks : List DefinitionKey}
    (hks : ks.Pairwise fun k l => compare k l = .lt) : ks.Nodup := by
  refine hks.imp ?_
  rintro k l hlt rfl
  exact absurd Std.ReflCmp.compare_self (hlt ▸ by decide : compare k k ≠ .eq)

/-- Lists in strictly increasing order with the same keys are equal. -/
theorem eq_of_mem_iff {ks ls : List DefinitionKey}
    (hks : ks.Pairwise fun k l => compare k l = .lt)
    (hls : ls.Pairwise fun k l => compare k l = .lt) (h : ∀ k, k ∈ ks ↔ k ∈ ls) : ks = ls := by
  have hperm : ks.Perm ls :=
    (List.perm_ext_iff_of_nodup (nodup_of_pairwise hks) (nodup_of_pairwise hls)).mpr h
  refine hperm.eq_of_pairwise ?_ hks hls
  intro k l _ _ hkl hlk
  rw [Std.OrientedCmp.gt_iff_lt.mpr hkl] at hlk
  cases hlk

end DefinitionKey

/-! ### Definitions that reach themselves -/

namespace Definitions

variable {ds : Definitions} {k l : DefinitionKey}

/-- Whether the content of a definition refers to another. -/
def Refers (ds : Definitions) (k l : DefinitionKey) : Prop :=
  ∃ d ∈ ds, d.key = k ∧ d.content.Refers l

/-- Whether a definition is reached from another through one or more references. -/
def Reaches (ds : Definitions) : DefinitionKey → DefinitionKey → Prop :=
  Relation.TransGen ds.Refers

/-- Whether no two definitions of one kind share a name. -/
def Distinct (ds : Definitions) : Prop := (ds.map Definition.key).Nodup

instance (ds : Definitions) : Decidable ds.Distinct :=
  inferInstanceAs (Decidable (List.Nodup _))

/-- Whether every reference inside a definition names a definition. -/
def Named (ds : Definitions) : Prop :=
  ∀ d ∈ ds, ∀ k, d.content.Refers k → k ∈ ds.map Definition.key

theorem Refers.mem_keys (h : ds.Refers k l) : k ∈ ds.map Definition.key := by
  obtain ⟨d, hd, rfl, -⟩ := h
  exact List.mem_map_of_mem hd

theorem Reaches.mem_keys (h : ds.Reaches k l) : k ∈ ds.map Definition.key := by
  obtain ⟨m, hkm, -⟩ := Relation.TransGen.head'_iff.mp h
  exact hkm.mem_keys

theorem find?_eq_some_iff (hdistinct : ds.Distinct) {d : Definition} :
    ds.find? k = some d ↔ d ∈ ds ∧ d.key = k := by
  constructor
  · intro h
    exact ⟨List.mem_of_find?_eq_some h, by simpa using List.find?_some h⟩
  · rintro ⟨hd, rfl⟩
    cases hfind : ds.find? d.key with
    | none => simpa using List.find?_eq_none.mp hfind d hd
    | some d' =>
      have hkey : d'.key = d.key := by simpa using List.find?_some hfind
      rw [List.inj_on_of_nodup_map hdistinct (List.mem_of_find?_eq_some hfind) hd hkey]

theorem isSome_find?_iff : (ds.find? k).isSome ↔ k ∈ ds.map Definition.key := by
  rw [find?, List.find?_isSome, List.mem_map]
  simp only [beq_iff_eq]

theorem mem_links_iff : k ∈ ds.links ↔ k ∈ ds.map Definition.key := by
  simp [links, Std.HashMap.mem_ofList]

/-- Definitions are linked as they refer to one another. -/
theorem edge_links_iff (hdistinct : ds.Distinct) : ds.links.Edge k l ↔ ds.Refers k l := by
  have hpairwise : (ds.map fun d => (d.key, d.references.map Prod.fst)).Pairwise
      fun a b => (a.1 == b.1) = false := by
    rw [List.pairwise_map]
    exact (List.pairwise_map.mp hdistinct).imp fun hne => beq_eq_false_iff_ne.mpr hne
  have hget {d : Definition} (hd : d ∈ ds) :
      ds.links[d.key]? = some (d.references.map Prod.fst) :=
    Std.HashMap.getElem?_ofList_of_mem (beq_self_eq_true _) hpairwise
      (List.mem_map_of_mem (f := fun d : Definition => (d.key, d.references.map Prod.fst)) hd)
  constructor
  · rintro ⟨ls, hls, hl⟩
    have hk : k ∈ ds.links := Std.HashMap.mem_iff_isSome_getElem?.mpr (by simp [hls])
    obtain ⟨d, hd, rfl⟩ := List.mem_map.mp (mem_links_iff.mp hk)
    rw [hget hd, Option.some.injEq] at hls
    exact ⟨d, hd, rfl, Content.mem_references_iff.mp (hls ▸ hl)⟩
  · rintro ⟨d, hd, rfl, hrefers⟩
    exact ⟨_, hget hd, Content.mem_references_iff.mpr hrefers⟩

theorem reachesItself_links_iff (hdistinct : ds.Distinct) (hk : k ∈ ds.map Definition.key) :
    ds.links.reachesItself k = true ↔ ds.Reaches k k := by
  have hedge : ds.links.Edge = ds.Refers := by
    funext k l
    exact propext (edge_links_iff hdistinct)
  rw [Links.reachesItself_iff (mem_links_iff.mpr hk), hedge, Reaches]

theorem mem_cyclic_iff (hdistinct : ds.Distinct) : k ∈ ds.cyclic ↔ ds.Reaches k k := by
  rw [cyclic, List.mem_mergeSort, List.mem_filter]
  constructor
  · rintro ⟨hk, hreaches⟩
    exact (reachesItself_links_iff hdistinct hk).mp hreaches
  · intro hreaches
    exact ⟨hreaches.mem_keys, (reachesItself_links_iff hdistinct hreaches.mem_keys).mpr hreaches⟩

theorem pairwise_cyclic (hdistinct : ds.Distinct) :
    ds.cyclic.Pairwise fun k l => DefinitionKey.compare k l = .lt :=
  DefinitionKey.pairwise_mergeSort (hdistinct.filter _)

/-! ### The check of the definitions -/

theorem checkDistinct_eq_ok_iff {ds : Definitions} : ∀ {seen : List DefinitionKey},
    checkDistinct seen ds = .ok () ↔ ds.Distinct ∧ ∀ d ∈ ds, d.key ∉ seen := by
  induction ds with
  | nil => simp [checkDistinct, Distinct]
  | cons d ds ih =>
    intro seen
    rw [checkDistinct]
    split
    · next hseen => simp [hseen]
    · next hseen =>
      rw [ih, Distinct, Distinct, List.map_cons, List.nodup_cons, List.forall_mem_cons, List.mem_map]
      simp only [List.mem_cons, not_or, not_exists, not_and]
      constructor
      · rintro ⟨hnodup, h⟩
        exact ⟨⟨fun d' hd' heq => (h d' hd').1 heq, hnodup⟩, hseen, fun d' hd' => (h d' hd').2⟩
      · rintro ⟨⟨hfresh, hnodup⟩, -, h⟩
        exact ⟨hnodup, fun d' hd' => ⟨hfresh d' hd', h d' hd'⟩⟩

theorem checkNamed_eq_ok_iff {rs : List (DefinitionKey × Path)} :
    checkNamed ds rs = .ok () ↔ ∀ r ∈ rs, r.1 ∈ ds.map Definition.key := by
  induction rs with
  | nil => simp [checkNamed]
  | cons r rs ih =>
    rw [checkNamed, List.forall_mem_cons, ← isSome_find?_iff]
    split
    · next h => rw [ih, and_iff_right h]
    · next h => simp [h]

theorem forall_references_iff : (∀ r ∈ ds.flatMap Definition.references,
    r.1 ∈ ds.map Definition.key) ↔ ds.Named := by
  constructor
  · intro h d hd k hk
    have hmem : k ∈ d.references.map Prod.fst := Content.mem_references_iff.mpr hk
    obtain ⟨r, hr, rfl⟩ := List.mem_map.mp hmem
    exact h r (List.mem_flatMap.mpr ⟨d, hd, hr⟩)
  · intro h r hr
    obtain ⟨d, hd, hr⟩ := List.mem_flatMap.mp hr
    exact h d hd r.1 (Content.mem_references_iff.mp (List.mem_map_of_mem hr))

/-- Among definitions with names of their own that refer to one another, the check looks for those
that reach themselves. -/
theorem check_eq (hdistinct : ds.Distinct) (hnamed : ds.Named) : ds.check =
    if ds.cyclic.isEmpty then .ok () else .error (.cyclicReferences ds.cyclic) := by
  rw [check, checkDistinct_eq_ok_iff.mpr ⟨hdistinct, by simp⟩,
    checkNamed_eq_ok_iff.mpr (forall_references_iff.mpr hnamed)]
  rfl

theorem isEmpty_cyclic_iff (hdistinct : ds.Distinct) :
    ds.cyclic.isEmpty = true ↔ ∀ k, ¬ds.Reaches k k := by
  rw [List.isEmpty_iff, List.eq_nil_iff_forall_not_mem]
  simp only [mem_cyclic_iff hdistinct]

/-- The check accepts definitions with names of their own that refer to one another and not to
themselves. -/
theorem check_eq_ok_iff :
    ds.check = .ok () ↔ ds.Distinct ∧ ds.Named ∧ ∀ k, ¬ds.Reaches k k := by
  constructor
  · intro h
    obtain ⟨_, hdistinct, h'⟩ := bind_eq_ok_iff.mp h
    obtain ⟨_, hnamed, -⟩ := bind_eq_ok_iff.mp h'
    have hdistinct := (checkDistinct_eq_ok_iff.mp hdistinct).1
    have hnamed := forall_references_iff.mp (checkNamed_eq_ok_iff.mp hnamed)
    refine ⟨hdistinct, hnamed, (isEmpty_cyclic_iff hdistinct).mp ?_⟩
    rw [check_eq hdistinct hnamed] at h
    split at h
    · next hnil => exact hnil
    · cases h
  · rintro ⟨hdistinct, hnamed, hacyclic⟩
    rw [check_eq hdistinct hnamed, if_pos ((isEmpty_cyclic_iff hdistinct).mpr hacyclic)]

theorem check_eq_cyclic_iff (hdistinct : ds.Distinct) (hnamed : ds.Named)
    {ks : List DefinitionKey} : ds.check = .error (.cyclicReferences ks) ↔
      ds.cyclic = ks ∧ ∃ k, ds.Reaches k k := by
  rw [check_eq hdistinct hnamed]
  split
  · next hempty =>
    have hacyclic := (isEmpty_cyclic_iff hdistinct).mp hempty
    simpa using fun _ => hacyclic
  · next hcyclic =>
    rw [isEmpty_cyclic_iff hdistinct, not_forall] at hcyclic
    simpa using fun _ => hcyclic

/-! ### Strongly connected components -/

/-- Whether some lists are the strongly connected components of the definitions: each definition
stands in one of them, together with those that it reaches and is reached from. -/
structure Components (ds : Definitions) (components : List (List DefinitionKey)) : Prop where
  cover : components.flatten.Perm (ds.map Definition.key)
  connected : ∀ c ∈ components, ∀ k ∈ c, ∀ l, l ∈ c ↔ l = k ∨ ds.Reaches k l ∧ ds.Reaches l k

/-- Whether some definition of a component has a cycle through it, as far as its size and its first
definition tell. -/
def IsCycle (ds : Definitions) (component : List DefinitionKey) : Bool :=
  1 < component.length || component.head?.any fun k =>
    ds.any fun d => d.key == k && (d.references.map Prod.fst).contains k

/-- The definitions of the components that are cycles, in the order of their keys. -/
def cyclicAmong (ds : Definitions) (components : List (List DefinitionKey)) : List DefinitionKey :=
  (components.filter ds.IsCycle).flatten.mergeSort fun k l => (DefinitionKey.compare k l).isLE

variable {components : List (List DefinitionKey)}

theorem any_refers_iff : (ds.any fun d =>
    d.key == k && (d.references.map Prod.fst).contains l) = true ↔ ds.Refers k l := by
  rw [List.any_eq_true, Refers]
  refine exists_congr fun d => and_congr_right fun _ => ?_
  rw [Bool.and_eq_true, beq_iff_eq, List.contains_iff_mem, Definition.references,
    Content.mem_references_iff]

instance (ds : Definitions) (k l : DefinitionKey) : Decidable (ds.Refers k l) :=
  decidable_of_iff _ any_refers_iff

/-- A component is a cycle if one of its definitions, and so each of them, reaches itself. -/
theorem isCycle_iff (hdistinct : ds.Distinct) (h : ds.Components components)
    {c : List DefinitionKey} (hc : c ∈ components) (hk : k ∈ c) :
    ds.IsCycle c = true ↔ ds.Reaches k k := by
  have hnodup : c.Nodup := (List.nodup_flatten.mp (h.cover.nodup_iff.mpr hdistinct)).1 c hc
  have hself {l : DefinitionKey} (hl : l ∈ c) (hne : l ≠ k) : ds.Reaches k k := by
    obtain ⟨hkl, hlk⟩ := ((h.connected c hc k hk l).mp hl).resolve_left hne
    exact hkl.trans hlk
  rw [IsCycle, Bool.or_eq_true, decide_eq_true_eq]
  constructor
  · rintro (hlength | hhead)
    · -- Of the first two definitions one is another than this, and it leads back.
      match c, hnodup, hlength with
      | m :: l :: c, hnodup, _ =>
        have hne : m ≠ l := fun heq => (List.nodup_cons.mp hnodup).1 (heq ▸ List.mem_cons_self)
        by_cases hmk : m = k
        · exact hself (List.mem_cons_of_mem _ List.mem_cons_self) (hmk ▸ hne.symm)
        · exact hself List.mem_cons_self hmk
    · cases c with
      | nil => cases hk
      | cons m c =>
        have hm : ds.Refers m m := any_refers_iff.mp (by simpa using hhead)
        by_cases hmk : m = k
        · exact hmk ▸ .single hm
        · exact hself List.mem_cons_self hmk
  · intro hreaches
    by_cases hlength : 1 < c.length
    · exact .inl hlength
    · obtain rfl : c = [k] := by
        match c, hk, hlength with
        | [m], hk, _ => rw [List.mem_singleton.mp hk]
        | _ :: _ :: _, _, hlength => exact absurd (by simp) hlength
      obtain ⟨m, hkm, hmk⟩ := Relation.TransGen.head'_iff.mp hreaches
      -- The next definition of the cycle is of this component, so it is the same.
      have hm : m = k := by
        rcases Relation.reflTransGen_iff_eq_or_transGen.mp hmk with heq | hmk
        · exact heq.symm
        · exact List.mem_singleton.mp ((h.connected _ hc k hk m).mpr (.inr ⟨.single hkm, hmk⟩))
      exact .inr (by simpa using any_refers_iff.mpr (hm ▸ hkm))

/-- The definitions that reach themselves are those of the components that are cycles. -/
theorem cyclicAmong_eq (hdistinct : ds.Distinct) (h : ds.Components components) :
    ds.cyclicAmong components = ds.cyclic := by
  obtain ⟨hnodup, hdisjoint⟩ := List.nodup_flatten.mp (h.cover.nodup_iff.mpr hdistinct)
  have hfilter : (components.filter ds.IsCycle).flatten.Nodup := List.nodup_flatten.mpr
    ⟨fun c hc => hnodup c (List.mem_filter.mp hc).1, hdisjoint.filter _⟩
  refine DefinitionKey.eq_of_mem_iff (DefinitionKey.pairwise_mergeSort hfilter)
    (pairwise_cyclic hdistinct) fun k => ?_
  rw [cyclicAmong, List.mem_mergeSort, mem_cyclic_iff hdistinct, List.mem_flatten]
  constructor
  · rintro ⟨c, hc, hk⟩
    obtain ⟨hc, hcycle⟩ := List.mem_filter.mp hc
    exact (isCycle_iff hdistinct h hc hk).mp hcycle
  · intro hreaches
    obtain ⟨c, hc, hk⟩ := List.mem_flatten.mp (h.cover.mem_iff.mpr hreaches.mem_keys)
    exact ⟨c, List.mem_filter.mpr ⟨hc, (isCycle_iff hdistinct h hc hk).mpr hreaches⟩, hk⟩

end Definitions

end Crosswalk
