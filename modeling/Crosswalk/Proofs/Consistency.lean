import Crosswalk.Proofs.Extension

/-!
Consistency of resolved record definitions. The tags of what an element holds are checked where the
element is put together, and paths part where tags do; so no path is that of two places, however the
content was supplied. A vocabulary is checked at its element, and the paths that are named outside of
the tree of elements are looked for in it at the end.
-/

namespace Crosswalk

/-! ### Distinct paths -/

namespace Element

variable {f below : Forest Element} {e : Element} {parent place : Path} {t : Tag} {ts : List Tag}

theorem notMem_pathsOf (hplace : place.tags = parent.tags ++ t :: ts)
    (hfresh : t ∉ f.tops.map (·.tag)) : place ∉ pathsOf parent f := fun hmem =>
  not_prefix_pathsOf hplace hfresh place hmem (List.prefix_refl _)

theorem nodup_pathsAt (h : (e.attributes.map Attribute.tag).Nodup) : (e.pathsAt parent).Nodup := by
  have hattributes : (e.attributes.map fun a => (parent.child e.tag).child a.tag).Nodup := by
    rw [← Function.comp_def (Path.child (parent.child e.tag)) Attribute.tag, ← List.map_map]
    refine h.map fun t u heq => ?_
    have htags : (parent.child e.tag).tags ++ [t] = (parent.child e.tag).tags ++ [u] :=
      congrArg Path.tags heq
    exact List.head_eq_of_cons_eq (List.append_cancel_left htags)
  rw [pathsAt, List.nodup_append]
  refine ⟨hattributes, List.nodup_singleton _, ?_⟩
  intro p hp q hq heq
  obtain ⟨a, -, rfl⟩ := List.mem_map.mp hp
  rw [List.mem_singleton.mp hq] at heq
  exact Path.ne_of_isAncestorOf (Path.isAncestorOf_child _ a.tag) heq.symm

/-- An element, its attributes and what is below it have paths of their own. -/
theorem notMem_below (h : (e.childTags below).Nodup) :
    ∀ q ∈ e.pathsAt parent, q ∉ pathsOf (parent.child e.tag) below := by
  obtain ⟨-, -, hapart⟩ := List.nodup_append.mp h
  intro q hq
  obtain ⟨a, ha, rfl⟩ | rfl := mem_pathsAt.mp hq
  · exact notMem_pathsOf (Path.tags_child ..) fun hmem =>
      hapart _ (List.mem_map_of_mem ha) _ hmem rfl
  · intro hmem
    obtain ⟨top, -, ts, hts⟩ := exists_tags_of_mem_pathsOf hmem
    exact absurd (List.self_eq_append_right.mp hts) (List.cons_ne_nil _ _)

/-- All paths differ if the tags of what each element holds do. -/
theorem nodup_pathsOf (hchildren : f.Each fun e below => (e.childTags below).Nodup) :
    ∀ {parent : Path}, (f.tops.map (·.tag)).Nodup → (pathsOf parent f).Nodup := by
  induction f with
  | nil => exact fun _ => List.nodup_nil
  | tree e below next hb hn =>
    obtain ⟨he, hbelow, hnext⟩ := hchildren
    intro parent htops
    obtain ⟨hfresh, htops⟩ := List.nodup_cons.mp htops
    obtain ⟨hattributes, htopsBelow, -⟩ := List.nodup_append.mp he
    rw [pathsOf, List.append_assoc, List.nodup_append, List.nodup_append]
    refine ⟨nodup_pathsAt hattributes, ⟨hb hbelow htopsBelow, hn hnext htops, ?_⟩, ?_⟩
    · rintro q hq _ hq' rfl
      obtain ⟨top, -, ts, hts⟩ := exists_tags_of_mem_pathsOf hq
      rw [Path.tags_child, List.append_assoc, List.singleton_append] at hts
      exact notMem_pathsOf hts hfresh hq'
    · rintro q hq _ hq' rfl
      rcases List.mem_append.mp hq' with hq' | hq'
      · exact notMem_below he q hq hq'
      · obtain ⟨a, -, rfl⟩ | rfl := mem_pathsAt.mp hq
        · have htags : ((parent.child e.tag).child a.tag).tags = parent.tags ++ e.tag :: [a.tag] := by
            simp
          exact notMem_pathsOf htags hfresh hq'
        · exact notMem_pathsOf (Path.tags_child ..) hfresh hq'

end Element

/-! ### Consistency -/

/-- Whether a record definition is consistent: paths, siblings and the choices of vocabularies are told
apart by their names, and what is named by a path is there. -/
structure Record.Consistent (r : Record) : Prop where
  paths : r.paths.Nodup
  children : r.elements.Each fun e below => (e.childTags below).Nodup
  vocabularies : ∀ v ∈ r.vocabularies, v.Valid
  fieldMarkers : ∀ m ∈ r.fieldMarkers, m.path ∈ r.paths
  assertions : ∀ a ∈ r.assertions, a.path ∈ r.paths
  fixedPositions : ∀ v ∈ r.vocabularies, ∀ p ∈ v.valuePath :: v.declaredFields, p ∈ r.paths

namespace Declaration

variable {d : Declaration} {r : Record}

theorem each_valid (h : d.resolve = .ok r) :
    r.elements.Each fun e _ => ∀ v, e.vocabulary = some v → v.Valid :=
  d.each_of_resolve d.all_true (fun _ _ _ _ _ _ hhead => (Resolution.element_eq_ok hhead).2.2.2) h

theorem mem_paths_of_namedPaths (h : d.resolve = .ok r) :
    ∀ x ∈ Resolution.namedPaths r, x.2 ∈ r.paths := by
  obtain ⟨-, _, _, -, hknown, -⟩ := resolve_eq_ok_iff.mp h
  exact Resolution.mem_of_checkKnown hknown

/-- What a declaration is resolved to is consistent. -/
theorem resolve_consistent (h : d.resolve = .ok r) : r.Consistent := by
  have hnamed := mem_paths_of_namedPaths h
  refine
    { paths := Element.nodup_pathsOf (d.nodup_childTags h) (List.nodup_singleton _)
      children := d.nodup_childTags h
      vocabularies := fun v hv => ?_
      fieldMarkers := fun m hm => ?_
      assertions := fun a ha => ?_
      fixedPositions := fun v hv p hp => ?_ }
  · obtain ⟨e, he, hv⟩ := List.mem_filterMap.mp hv
    obtain ⟨_, hvalid⟩ := (each_valid h).of_mem_labels e he
    exact hvalid v hv
  · exact hnamed (.fieldMarker, m.path)
      (List.mem_append_left _ (List.mem_append_left _ (List.mem_map_of_mem hm)))
  · exact hnamed (.assertion, a.path)
      (List.mem_append_left _ (List.mem_append_right _ (List.mem_map_of_mem ha)))
  · have huse (use : PathUse) (hp : (use, p) ∈ Resolution.namedByVocabulary v) : p ∈ r.paths :=
      hnamed (use, p) (List.mem_append_right _ (List.mem_flatMap.mpr ⟨v, hv, hp⟩))
    rcases List.mem_cons.mp hp with rfl | hp
    · exact huse .vocabularyValue List.mem_cons_self
    · exact huse .vocabularyField (List.mem_cons_of_mem _ (List.mem_map_of_mem hp))

end Declaration

/-- A marker of the value of a type. -/
def valueMarker : FieldMarker :=
  { name := "TITLE", kind := none, path := .ofNames ["record", "type", "value"] }

/-- A condition on the code of a part. -/
def codeAssertion : Assertion where
  path := (Path.ofNames ["record", "type", "part"]).child (.attr none "code")
  condition := "it.size() > 0"

/-- The record of a type with a part, of which places at three depths are named, is consistent. -/
theorem partRecord_consistent :
    let d := { partDeclaration with fieldMarkers := [valueMarker], assertions := [codeAssertion] }
    let r := { partRecord with fieldMarkers := [valueMarker], assertions := [codeAssertion] }
    d.resolve = .ok r ∧ r.Consistent := by
  intro d r
  have hresolve : d.resolve = .ok r := by with_unfolding_all rfl
  exact ⟨hresolve, Declaration.resolve_consistent hresolve⟩

end Crosswalk
