import Crosswalk.Program.Generation
import Crosswalk.Proofs.Edit

/-!
Attaching several mappings. Each attachment needs a node that takes the mapping, which no other
attachment changes, and a free place there, which only a mapping onto the same node from the same
input takes. So two attachments can change places, and mappings can be attached in any order.
-/

namespace Crosswalk

namespace MappingTree

variable {t u : MappingTree} {m m' : Mapping} {ms ms' : List Mapping}

theorem attachAll_cons :
    t.attachAll (m :: ms) = .ok u ↔ ∃ c, t.attach m = .ok c ∧ c.tree.attachAll ms = .ok u := by
  rw [attachAll, bind_eq_ok_iff]

/-- Two attachments that succeed one after the other do so the other way round, with one result. -/
theorem attach_comm {c d : Change} (h : t.attach m = .ok c) (h' : c.tree.attach m' = .ok d) :
    ∃ c' d', t.attach m' = .ok c' ∧ c'.tree.attach m = .ok d' ∧ d'.tree = d.tree := by
  obtain ⟨i, hi, hadd⟩ := attach_eq_ok_iff.mp h
  obtain ⟨j, hj, hadd'⟩ := attach_eq_ok_iff.mp h'
  obtain ⟨hadmits, hnone⟩ := exists_add_iff.mp ⟨c, hadd⟩
  obtain ⟨hadmits', hnone'⟩ := exists_add_iff.mp ⟨d, hadd'⟩
  obtain ⟨-, -, hc⟩ := replaces_of_add hadd
  obtain ⟨-, -, hd⟩ := replaces_of_add hadd'
  -- the first mapping is in its place when the second finds its own place free
  have hne : (j, m'.input) ≠ (i, m.input) := by
    intro heq
    obtain ⟨rfl, hinput⟩ := Prod.mk.inj heq
    rw [hinput, hc.here] at hnone'
    cases hnone'
  have hadmitsFirst : t.Admits j m' := hadmits'.of_unmapped_eq hc.unmapped.symm
  have hnoneFirst : t.mappingAt? j m'.input = none := by
    rw [← hc.elsewhere j m'.input hne, hnone']
  obtain ⟨c', hc'⟩ := exists_add_iff.mpr ⟨hadmitsFirst, hnoneFirst⟩
  obtain ⟨-, -, hreplaces⟩ := replaces_of_add hc'
  have hadmitsSecond : c'.tree.Admits i m := hadmits.of_unmapped_eq hreplaces.unmapped
  have hnoneSecond : c'.tree.mappingAt? i m.input = none := by
    rw [hreplaces.elsewhere i m.input hne.symm, hnone]
  obtain ⟨d', hd'⟩ := exists_add_iff.mpr ⟨hadmitsSecond, hnoneSecond⟩
  obtain ⟨-, -, hreplaces'⟩ := replaces_of_add hd'
  refine ⟨c', d', attach_eq_ok_iff.mpr ⟨j, ?_, hc'⟩, attach_eq_ok_iff.mpr ⟨i, ?_, hd'⟩, ?_⟩
  · rw [← nodeAt?_of_unmapped_eq hc.unmapped, hj]
  · rw [nodeAt?_of_unmapped_eq hreplaces.unmapped, hi]
  · exact (hc.comm hne hd hreplaces hreplaces').symm

theorem attachAll_of_perm (h : t.attachAll ms = .ok u) (hperm : ms.Perm ms') :
    t.attachAll ms' = .ok u := by
  induction hperm generalizing t with
  | nil => exact h
  | cons m _ ih =>
    obtain ⟨c, hc, hrest⟩ := attachAll_cons.mp h
    exact attachAll_cons.mpr ⟨c, hc, ih hrest⟩
  | swap m m' ms =>
    obtain ⟨c, hc, hrest⟩ := attachAll_cons.mp h
    obtain ⟨d, hd, hrest⟩ := attachAll_cons.mp hrest
    obtain ⟨c', d', hc', hd', htree⟩ := attach_comm hc hd
    exact attachAll_cons.mpr ⟨c', hc', attachAll_cons.mpr ⟨d', hd', htree ▸ hrest⟩⟩
  | trans _ _ ih ih' => exact ih' (ih h)

/-- Mappings that can be attached one after the other can be attached in any order, and the tree and
the generated text in the end are the same. -/
theorem attachAll_any_order {t u : MappingTree} {ms ms' : List Mapping}
    (h : t.attachAll ms = .ok u) (hperm : ms.Perm ms') :
    ∃ u', t.attachAll ms' = .ok u' ∧ u' = u ∧ ∀ snippets layout focus,
      u'.generate snippets layout focus = u.generate snippets layout focus :=
  ⟨u, attachAll_of_perm h hperm, rfl, fun _ _ _ => rfl⟩

end MappingTree

/-- A record of a book with a title and authors. -/
def bookRecord : Record where
  qualifier := ""
  version := ""
  namespaces := []
  root := { tag := .elem none "book" }
  below :=
    Forest.single { tag := .elem none "title" } .nil ++ .single { tag := .elem none "author" } .nil
  fieldMarkers := []
  assertions := []

/-- Mappings onto the title and the authors of a book, two of them onto one node. -/
def bookMappings : List Mapping :=
  [{ output := ⟨[.elem none "book", .elem none "author"]⟩
     input := ⟨[.elem none "m", .elem none "writer"]⟩ },
   { output := ⟨[.elem none "book", .elem none "title"]⟩
     input := ⟨[.elem none "m", .elem none "name"]⟩ },
   { output := ⟨[.elem none "book", .elem none "author"]⟩
     input := ⟨[.elem none "m", .elem none "editor"]⟩ }]

/-- The mappings of a book can be attached from the last to the first. -/
theorem bookMappings_any_order :
    let t := MappingTree.ofRecord bookRecord
    let u := t.afterEdits (bookMappings.map .attach)
    t.attachAll bookMappings = .ok u ∧ bookMappings.Perm bookMappings.reverse ∧
      ∃ u', t.attachAll bookMappings.reverse = .ok u' ∧ u' = u ∧ ∀ snippets layout focus,
        u'.generate snippets layout focus = u.generate snippets layout focus := by
  intro t u
  have h : t.attachAll bookMappings = .ok u := by with_unfolding_all rfl
  have hperm : bookMappings.Perm bookMappings.reverse := bookMappings.reverse_perm.symm
  exact ⟨h, hperm, MappingTree.attachAll_any_order h hperm⟩

end Crosswalk
