import Crosswalk.Proofs.Selection

/-!
What is listed from the first node on. The nodes without a parent are the roots of the trees that a
record definition comes to: one tree for each choice at its root, all of one size. Listing starts at
the first node and follows the children, so it comes to the first of these trees and to no other.
-/

namespace Crosswalk

/-! ### Trees of one size -/

namespace Forest

variable {α β : Type} {g : α → β} {f f' : Forest α} {size : Nat}

/-- Whether all trees of a forest have one size. -/
def TreesOf (size : Nat) : Forest α → Prop
  | nil => True
  | tree _ below next => 1 + below.size = size ∧ TreesOf size next

theorem treesOf_append : (f ++ f').TreesOf size ↔ f.TreesOf size ∧ f'.TreesOf size := by
  induction f with
  | nil => simp [TreesOf]
  | tree a below next _ ih => simp [TreesOf, ih, and_assoc]

theorem treesOf_join {fs : List (Forest α)} (h : ∀ f ∈ fs, f.TreesOf size) :
    (join fs).TreesOf size := by
  induction fs with
  | nil => trivial
  | cons f fs ih =>
    obtain ⟨hf, hfs⟩ := List.forall_mem_cons.mp h
    exact treesOf_append.mpr ⟨hf, ih hfs⟩

theorem treesOf_map : (f.map g).TreesOf size ↔ f.TreesOf size := by
  induction f with
  | nil => exact Iff.rfl
  | tree a below next _ ih => rw [map, TreesOf, TreesOf, size_map, ih]

theorem TreesOf.size_eq (h : f.TreesOf size) : f.size = f.tops.length * size := by
  induction f with
  | nil => rw [Forest.size, tops, List.length_nil, Nat.zero_mul]
  | tree a below next _ ih =>
    rw [Forest.size, tops, List.length_cons, Nat.succ_mul, h.1, ih h.2, Nat.add_comm]

/-- The labels without a parent are those of the trees, which follow at equal distances. -/
theorem TreesOf.parents_eq_none_iff (h : f.TreesOf size) : ∀ {i first : Nat},
    (f.parents none first)[i]? = some none ↔ ∃ j < f.tops.length, i = j * size := by
  induction f with
  | nil => simp [parents, tops]
  | tree a below next _ ih =>
    obtain ⟨hsize, hnext⟩ := h
    intro i first
    have hsplit : (∃ j < (tree a below next).tops.length, i = j * size) ↔
        i = 0 ∨ ∃ j < next.tops.length, i = (j + 1) * size := by
      rw [tops, List.length_cons, Nat.exists_lt_succ_left, Nat.zero_mul]
    rw [hsplit, parents]
    cases i with
    | zero => simp
    | succ i =>
      rw [List.getElem?_cons_succ, List.getElem?_append, length_parents]
      -- A later index is one below the first root, or one of the trees after it.
      split
      · next hlt =>
        have hparent : (below.parents (some first) (first + 1))[i]? ≠ some none := fun hi =>
          none_notMem_parents (List.mem_of_getElem? hi)
        refine iff_of_false hparent ?_
        rintro (hzero | ⟨j, -, hj⟩)
        · cases hzero
        · rw [Nat.succ_mul] at hj
          omega
      · next hge =>
        have hdistance (j : Nat) : i - below.size = j * size ↔ i + 1 = (j + 1) * size := by
          rw [Nat.succ_mul]
          omega
        simp only [ih hnext, hdistance, Nat.add_one_ne_zero, false_or]

end Forest

/-! ### The trees of an instance -/

namespace Instance

open Element

variable {e : Element} {f below : Forest Element} {parent : Path} {variant : Option Variant}
  {first : Nat}

/-- There are as many nodes as places. -/
theorem size_nodes : (nodes parent variant first f).size = (places nodeTags f).length := by
  have hplaces : (nodes parent variant first f).labels.map (·.path.tags) =
      (places nodeTags f).map (parent.tags ++ ·) := places_nodes
  have hlength := congrArg List.length hplaces
  rwa [List.length_map, List.length_map, Forest.length_labels] at hlength

theorem size_single {path : Path} :
    1 + (attributeNodes path variant e.attributes ++ nodes path variant first below).size =
      (e.contents (places nodeTags below)).length := by
  rw [← Forest.length_labels, Forest.labels_append, List.length_append, labels_attributeNodes,
    Forest.length_labels, size_nodes, contents, List.length_map, List.length_append,
    List.length_cons, List.length_map]
  omega

/-- The trees that an element comes to have one size. -/
theorem treesOf_nodes : (nodes parent variant first (.single e below)).TreesOf
    (e.contents (places nodeTags below)).length := by
  rw [Forest.single, nodes]
  split
  · exact ⟨size_single, trivial⟩
  · refine Forest.treesOf_append.mpr ⟨Forest.treesOf_join ?_, trivial⟩
    rw [List.forall_mem_map]
    exact fun w _ => ⟨size_single, trivial⟩

end Instance

/-! ### What is listed -/

namespace MappingTree

variable {d : Declaration} {r : Record}

/-- Whether the nodes are those of a number of trees of one size, and what is listed from the first
node on is what is at the nodes of the first tree. -/
structure ListsFirst (t : MappingTree) (trees : Nat) : Prop where
  divides : trees ∣ t.size
  roots : ∀ i, t.parents[i]? = some none ↔ ∃ j < trees, i = j * (t.size / trees)
  mappings : t.mappings = (t.nodes.take (t.size / trees)).flatMap Node.mappingList
  populated : t.isPopulated 0 = true ↔
    ∃ n ∈ t.nodes.take (t.size / trees), n.hasMappings = true

/-- Whether the first node is the only one without a parent, and what is listed from it on is what is
at all nodes. -/
structure ListsAll (t : MappingTree) : Prop where
  root : ∀ i, t.parents[i]? = some none ↔ i = 0
  mappings : t.mappings = t.nodes.flatMap Node.mappingList
  populated : t.isPopulated 0 = true ↔ ∃ n ∈ t.nodes, n.hasMappings = true

/-- Of trees of one size the first is listed. -/
theorem listsFirst_of_treesOf {t : MappingTree} {size : Nat} (h : t.forest.TreesOf size)
    (hne : t.forest.tops ≠ []) : t.ListsFirst t.forest.tops.length := by
  have hsize : t.size = t.forest.tops.length * size := h.size_eq
  have hquotient : t.size / t.forest.tops.length = size := by
    rw [hsize, Nat.mul_div_cancel_left _ (List.length_pos_iff.mpr hne)]
  obtain ⟨n, below, hfirst, hlabels⟩ : ∃ n below, t.forest.at? 0 = some (n, below) ∧
      t.nodes.take size = n :: below.labels := by
    rw [nodes]
    cases hforest : t.forest with
    | nil => rw [hforest] at hne; cases hne rfl
    | tree n below next =>
      rw [hforest] at h
      refine ⟨n, below, rfl, ?_⟩
      rw [← h.1, Nat.add_comm, Forest.labels, List.take_succ_cons, ← Forest.length_labels,
        List.take_left]
  refine ⟨⟨size, hsize⟩, ?_, ?_, ?_⟩
  · rw [hquotient]
    exact fun i => h.parents_eq_none_iff
  · rw [hquotient, hlabels, mappings, mappingsFrom, hfirst]
  · rw [hquotient, hlabels, isPopulated, hfirst]
    simp [Forest.any_iff]

theorem options_ne_nil (h : d.resolve = .ok r) : r.root.options ≠ [] := by
  obtain ⟨c, hc⟩ := exists_mem_options h r.root List.mem_cons_self
  exact List.ne_nil_of_mem hc

/-- Whatever has been edited, the nodes are those of a tree for each choice at the root of the record
definition, and the first tree is listed. -/
theorem listsFirst_afterEdits (h : d.resolve = .ok r) (es : List Edit) :
    ((ofRecord r).afterEdits es).ListsFirst r.root.options.length := by
  have hmap := map_unmapped_afterEdits r es
  have htrees : (ofRecord r).forest.TreesOf
      (r.root.contents (Element.places Element.nodeTags r.below)).length := Instance.treesOf_nodes
  rw [← hmap, Forest.treesOf_map] at htrees
  have htops : ((ofRecord r).afterEdits es).forest.tops.length = r.root.options.length := by
    have htags : (ofRecord r).forest.tops.map Node.tag = r.root.nodeTags :=
      Instance.tags_tops_nodes.trans (List.flatMap_singleton ..)
    have hlength := congrArg List.length htags
    rwa [← hmap, Forest.tops_map, List.length_map, List.length_map, Element.nodeTags_eq,
      List.length_map] at hlength
  rw [← htops]
  refine listsFirst_of_treesOf htrees (List.ne_nil_of_length_pos ?_)
  rw [htops]
  exact List.length_pos_iff.mpr (options_ne_nil h)

/-- Whatever has been edited, listing comes to one tree of those for the choices at the root of the
record definition; so it is complete exactly if there is nothing to choose. -/
theorem listing_afterEdits (h : d.resolve = .ok r) (es : List Edit) :
    let t := (ofRecord r).afterEdits es
    t.ListsFirst r.root.options.length ∧ (t.ListsAll ↔ r.root.options.length = 1) := by
  intro t
  have hfirst : t.ListsFirst r.root.options.length := listsFirst_afterEdits h es
  refine ⟨hfirst, fun hall => ?_, fun hone => ?_⟩
  · by_contra hmany
    have hoptions : 0 < r.root.options.length := List.length_pos_iff.mpr (options_ne_nil h)
    have hnode : t.parents[0]? = some none := (hall.root 0).mpr rfl
    have hsize : 0 < t.size := by
      rw [MappingTree.size, ← Forest.length_parents]
      exact (List.getElem?_eq_some_iff.mp hnode).1
    have hsecond := (hfirst.roots _).mpr ⟨1, by omega, (Nat.one_mul _).symm⟩
    have hzero : t.size / r.root.options.length = 0 := (hall.root _).mp hsecond
    have hpos : 0 < t.size / r.root.options.length :=
      Nat.div_pos (Nat.le_of_dvd hsize hfirst.divides) hoptions
    exact Nat.ne_of_gt hpos hzero
  · rw [hone] at hfirst
    have htake : t.nodes.take (t.size / 1) = t.nodes := by
      rw [Nat.div_one]
      exact List.take_of_length_le (Nat.le_of_eq (Forest.length_labels _))
    refine ⟨fun i => (hfirst.roots i).trans ?_, ?_, ?_⟩
    · simp
    · rw [hfirst.mappings, htake]
    · rw [hfirst.populated, htake]

end MappingTree

/-- A record with a title that is of one of some types. -/
def typedDeclaration (types : List Choice) : Declaration where
  root :=
    { tag := .elem none "record"
      vocabulary := some { dictionary := "types", value := .elem none "record", choices := types } }
  content := .elem { tag := .elem none "title" } .nil .nil

/-- Attaches a mapping onto the title of a record of a given type. -/
def Edit.attachTitle (type : String) : Edit :=
  .attach
    { output := (Path.root.child ((Tag.elem none "record").withVariant type)).child (.elem none "title")
      input := .ofNames ["m", "t"] }

/-- With one type everything is listed. -/
theorem typedDeclaration_listed :
    ∃ r, (typedDeclaration [{ value := "Book" }]).resolve = .ok r ∧
      ((MappingTree.ofRecord r).afterEdits [.attachTitle "Book"]).ListsAll := by
  have hresolve : ∃ r, (typedDeclaration [{ value := "Book" }]).resolve = .ok r ∧
      r.root.options.length = 1 := ⟨_, by with_unfolding_all rfl, rfl⟩
  obtain ⟨r, hr, hone⟩ := hresolve
  exact ⟨r, hr, (MappingTree.listing_afterEdits hr [.attachTitle "Book"]).2.mpr hone⟩

/-- With two types there are two nodes without a parent, and a mapping in the second tree is not listed
from the first node on. -/
theorem typedDeclaration_unlisted :
    ∃ r, (typedDeclaration [{ value := "Book" }, { value := "Film" }]).resolve = .ok r ∧
      let t := (MappingTree.ofRecord r).afterEdits [.attachTitle "Film"]
      t.parents = [none, some 0, none, some 2] ∧ t.mappings = [] ∧
        (t.nodes.flatMap Node.mappingList).length = 1 ∧ t.isPopulated 0 = false ∧ ¬ t.ListsAll := by
  refine ⟨_, by with_unfolding_all rfl, by decide, by decide, by decide, by decide, fun hall => ?_⟩
  exact absurd ((hall.root 2).mp (by decide)) (by decide)

end Crosswalk
