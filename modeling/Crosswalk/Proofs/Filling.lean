import Crosswalk.Proofs.Preorder
import Crosswalk.Tree.Instance
import Mathlib.Data.List.Basic

/-!
Nodes stored one at a time. The elements of a record definition are gone through once; the node of
each is put behind all others, ahead of those of its attributes and of its content, and its index is
added to the children of its parent, which is stored already. What results is the list of nodes in
pre-order with the parents and the children that the tree gives them.
-/

namespace Crosswalk

/-- A stored label with the index of its parent and those of its children so far. -/
structure Slot (α : Type) where
  label : α
  parent : Option Nat
  children : List Nat := []

namespace Slot

variable {α : Type} {parent : Option Nat} {cs ds : List Nat} {s t : List (Slot α)} {x : Slot α}

/-- Adds some indices to the children of a parent, if there is one. -/
def adopt (parent : Option Nat) (cs : List Nat) (s : List (Slot α)) : List (Slot α) :=
  match parent with
  | none => s
  | some p => s.modify p fun x => { x with children := x.children ++ cs }

/-- Stores a label behind all others, as a child of its parent. -/
def push (parent : Option Nat) (a : α) (s : List (Slot α)) : List (Slot α) :=
  adopt parent [s.length] (s ++ [{ label := a, parent }])

theorem adopt_nil : adopt parent [] s = s := by
  cases parent with
  | none => rfl
  | some p =>
    rw [adopt]
    simp only [List.append_nil]
    exact List.modify_id p s

theorem adopt_adopt : adopt parent ds (adopt parent cs s) = adopt parent (cs ++ ds) s := by
  cases parent with
  | none => rfl
  | some p =>
    rw [adopt, adopt, adopt, List.modify_modify_eq]
    simp only [Function.comp_def, List.append_assoc]

theorem length_adopt : (adopt parent cs s).length = s.length := by
  cases parent with
  | none => rfl
  | some p => rw [adopt, List.length_modify]

/-- What is stored behind a parent is not changed. -/
theorem adopt_append (hparent : ∀ p, parent = some p → p < s.length) :
    adopt parent cs (s ++ t) = adopt parent cs s ++ t := by
  cases parent with
  | none => rfl
  | some p =>
    have hp := hparent p rfl
    clear hparent
    rw [adopt, adopt]
    induction s generalizing p with
    | nil => cases hp
    | cons y s ih =>
      cases p with
      | zero => rfl
      | succ p =>
        rw [List.cons_append, List.modify_succ_cons, ih p (Nat.lt_of_succ_lt_succ hp),
          List.modify_succ_cons, List.cons_append]

theorem adopt_length : adopt (some s.length) cs (s ++ x :: t) =
    s ++ { x with children := x.children ++ cs } :: t := by
  rw [adopt]
  induction s with
  | nil => rfl
  | cons y s ih =>
    rw [List.cons_append, List.length_cons, List.modify_succ_cons, ih, List.cons_append]

end Slot

namespace Forest

variable {α : Type} {f g : Forest α} {parent : Option Nat} {first : Nat} {s : List (Slot α)}

/-- The slots that a forest comes to if its first label has index `first`. -/
def slots (parent : Option Nat) (first : Nat) : Forest α → List (Slot α)
  | nil => []
  | tree a below next =>
    ⟨a, parent, below.topIndices (first + 1)⟩ ::
      (slots (some first) (first + 1) below ++ slots parent (first + 1 + below.size) next)

theorem map_label_slots : (f.slots parent first).map Slot.label = f.labels := by
  induction f generalizing parent first with
  | nil => rfl
  | tree a below next hb hn => simp [slots, labels, hb, hn]

theorem map_parent_slots : (f.slots parent first).map Slot.parent = f.parents parent first := by
  induction f generalizing parent first with
  | nil => rfl
  | tree a below next hb hn => simp [slots, parents, hb, hn]

theorem map_children_slots : (f.slots parent first).map Slot.children = f.children first := by
  induction f generalizing parent first with
  | nil => rfl
  | tree a below next hb hn => simp [slots, children, hb, hn]

theorem length_slots : (f.slots parent first).length = f.size := by
  rw [← List.length_map Slot.label, map_label_slots, length_labels]

/-- Stores the labels of a forest, each ahead of those below it. -/
def store (parent : Option Nat) : Forest α → List (Slot α) → List (Slot α)
  | nil, s => s
  | tree a below next, s =>
    store parent next (store (some s.length) below (Slot.push parent a s))

theorem store_append : ∀ {s : List (Slot α)},
    (f ++ g).store parent s = g.store parent (f.store parent s) := by
  induction f with
  | nil => intro s; rfl
  | tree a below next _ ih => intro s; rw [tree_append, store, store, ih]

/-- A forest is stored behind what there is, and its top trees are the new children of their
parent. -/
theorem store_eq : ∀ {parent : Option Nat} {s : List (Slot α)},
    (∀ p, parent = some p → p < s.length) →
    f.store parent s = Slot.adopt parent (f.topIndices s.length) s ++ f.slots parent s.length := by
  induction f with
  | nil =>
    intro parent s _
    rw [store, topIndices, Slot.adopt_nil, slots, List.append_nil]
  | tree a below next hb hn =>
    intro parent s hparent
    have hpush : Slot.push parent a s = Slot.adopt parent [s.length] s ++ [⟨a, parent, []⟩] :=
      Slot.adopt_append hparent
    have hlength : (Slot.adopt parent [s.length] s).length = s.length := Slot.length_adopt
    -- what is below becomes the children of the label stored last
    have hbelow : below.store (some s.length) (Slot.push parent a s) =
        Slot.adopt parent [s.length] s ++ ⟨a, parent, below.topIndices (s.length + 1)⟩ ::
          below.slots (some s.length) (s.length + 1) := by
      rw [hb fun p hp => ?_, hpush, List.length_append, hlength, List.length_singleton]
      · nth_rewrite 1 [← hlength]
        rw [Slot.adopt_length, List.append_assoc]
        rfl
      · rw [hpush, List.length_append, hlength, ← Option.some.inj hp]
        exact Nat.lt_succ_self _
    have hlength' : (Slot.adopt parent [s.length] s ++
        ⟨a, parent, below.topIndices (s.length + 1)⟩ ::
          below.slots (some s.length) (s.length + 1)).length = s.length + 1 + below.size := by
      rw [List.length_append, hlength, List.length_cons, length_slots]
      omega
    rw [store, hbelow, hn fun p hp => ?_, hlength', Slot.adopt_append fun p hp => ?_,
      Slot.adopt_adopt, List.append_assoc]
    · rfl
    · rw [hlength]
      exact hparent p hp
    · rw [hlength']
      have := hparent p hp
      omega

end Forest

/-! ### Elements -/

/-- The nodes stored so far and the number of vocabulary expansions that were met. -/
structure Arena where
  slots : List (Slot Node) := []
  expansions : Nat := 0

namespace Arena

open Instance (attributeNode attributeNodes elementNode variants nodes)

/-- Stores a node. -/
def push (parent : Option Nat) (n : Node) (A : Arena) : Arena :=
  { A with slots := Slot.push parent n A.slots }

/-- Stores the nodes of some attributes of the element at a path. -/
def attributes (parent : Nat) (path : Path) (variant : Option Variant) :
    List Attribute → Arena → Arena
  | [], A => A
  | a :: as, A =>
    attributes parent path variant as (A.push (some parent) (attributeNode path variant a))

/-- Stores the node of an element, those of its attributes and, with that node as the parent, those
of its content. -/
def element (parent : Option Nat) (path : Path) (tag : Tag) (leaf : Bool)
    (membership : Option Membership) (variant : Option Variant) (e : Element)
    (content : Nat → Path → Arena → Arena) (A : Arena) : Arena :=
  content A.slots.length (path.child tag)
    (attributes A.slots.length (path.child tag) variant e.attributes
      (A.push parent (elementNode path tag leaf membership e)))

/-- Stores the nodes of some elements beneath a path. The expansions of vocabularies are numbered as
they are met. -/
def elements (parent : Option Nat) (path : Path) (variant : Option Variant) :
    Forest Element → Arena → Arena
  | .nil, A => A
  | .tree e below next, A =>
    elements parent path variant next <|
      match e.vocabulary with
      | none =>
        element parent path e.tag below.isEmpty
          (variant.map (·.membershipAt (path.child e.tag))) variant e
          (fun i inner => elements (some i) inner variant below) A
      | some v =>
        (variants A.expansions v).foldl
          (fun B w =>
            element parent path (e.tag.withVariant w.choice.variantKey) below.isEmpty
              (some (w.withRole .root)) (some w) e
              (fun i inner => elements (some i) inner (some w) below) B)
          { A with expansions := A.expansions + 1 }

/-- The nodes of a resolved record definition. -/
def ofRecord (r : Record) : Arena := elements none Path.root none r.elements {}

variable {parent : Option Nat} {path : Path} {variant : Option Variant} {A : Arena}

theorem attributes_eq {i : Nat} {as : List Attribute} : ∀ {A : Arena},
    attributes i path variant as A =
      { A with slots := (attributeNodes path variant as).store (some i) A.slots } := by
  induction as with
  | nil => intro A; rfl
  | cons a as ih => intro A; rw [attributes, ih]; rfl

/-- An element stores the tree of its nodes, if its content stores that of its own. -/
theorem element_eq {tag : Tag} {leaf : Bool} {membership : Option Membership} {e : Element}
    {content : Nat → Path → Arena → Arena} {trees : Forest Node} {count : Nat}
    (hcontent : ∀ i (B : Arena), B.expansions = A.expansions →
      content i (path.child tag) B =
        ⟨trees.store (some i) B.slots, B.expansions + count⟩) :
    element parent path tag leaf membership variant e content A =
      ⟨(Forest.single (elementNode path tag leaf membership e)
        (attributeNodes (path.child tag) variant e.attributes ++ trees)).store parent A.slots,
        A.expansions + count⟩ := by
  rw [element, attributes_eq, hcontent]
  · rw [Forest.single, Forest.store, Forest.store, Forest.store_append]
    rfl
  · rfl

/-- The variants of a vocabulary store their trees in turn, if each stores its own. -/
theorem foldl_variants {v : Vocabulary} {add : Arena → Variant → Arena}
    {trees : Variant → Forest Node} {list count : Nat}
    (hadd : ∀ w (B : Arena), B.expansions = A.expansions + w.position * count →
      add B w = ⟨(trees w).store parent B.slots, B.expansions + count⟩) :
    (variants list v).foldl add A =
      ⟨(Forest.join ((variants list v).map trees)).store parent A.slots,
        A.expansions + v.choices.length * count⟩ := by
  rw [variants]
  generalize v.choices = cs
  have hfold : ∀ (k : Nat) (B : Arena), B.expansions = A.expansions + k * count →
      ((cs.zipIdx k).map fun p => (⟨v, list, p.2, p.1⟩ : Variant)).foldl add B =
        ⟨(Forest.join (((cs.zipIdx k).map fun p => (⟨v, list, p.2, p.1⟩ : Variant)).map
          trees)).store parent B.slots, A.expansions + (k + cs.length) * count⟩ := by
    induction cs with
    | nil =>
      intro k B hB
      rw [List.zipIdx_nil, List.map_nil, List.foldl_nil, List.map_nil, Forest.join, Forest.store,
        List.length_nil, Nat.add_zero, ← hB]
    | cons c cs ih =>
      intro k B hB
      rw [List.zipIdx_cons, List.map_cons, List.foldl_cons, List.map_cons, Forest.join,
        Forest.store_append, hadd _ B hB, ih (k + 1) _ ?_, List.length_cons]
      · have hk : k + 1 + cs.length = k + (cs.length + 1) := by omega
        rw [hk]
      · rw [hB, Nat.succ_mul, Nat.add_assoc]
  have hzero := hfold 0 A (by rw [Nat.zero_mul, Nat.add_zero])
  rw [Nat.zero_add] at hzero
  exact hzero

/-- Elements store the trees of their nodes. -/
theorem elements_eq {f : Forest Element} : ∀ {parent : Option Nat} {path : Path}
    {variant : Option Variant} {A : Arena}, elements parent path variant f A =
      ⟨(nodes path variant A.expansions f).store parent A.slots,
        A.expansions + Instance.expansions f⟩ := by
  induction f with
  | nil => intros; rfl
  | tree e below next hb hn =>
    intro parent path variant A
    rw [elements, hn, nodes, Instance.expansions]
    cases e.vocabulary with
    | none =>
      dsimp only
      rw [element_eq fun i B hB => by rw [hb, hB], Nat.add_assoc]
      rfl
    | some v =>
      dsimp only
      rw [foldl_variants fun w B hB => ?_]
      · rw [Forest.store_append, Nat.add_assoc, Nat.add_assoc, Nat.add_assoc]
      · exact element_eq fun i C hC => by rw [hb, hC, hB]

/-- The nodes that are stored are those of the tree, with the parents and the children that they have
in it. -/
theorem slots_ofRecord (r : Record) :
    (ofRecord r).slots = (MappingTree.ofRecord r).forest.slots none 0 := by
  rw [ofRecord, elements_eq, Forest.store_eq fun p hp => by cases hp]
  rfl

end Arena

end Crosswalk
