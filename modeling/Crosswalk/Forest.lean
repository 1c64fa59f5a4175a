/-!
Ordered forests of labelled trees. A forest is empty, or a label with the forest below it and the
forest of the trees that follow; so one recursion covers depth and breadth. The labels are listed
in pre-order, and a position in that list is the index of a tree.
-/

namespace Crosswalk

/-- An ordered forest: the first tree's label and subtrees, then the trees after it. -/
inductive Forest (α : Type) where
  | nil
  | tree (label : α) (below next : Forest α)
  deriving DecidableEq, Repr, Inhabited

namespace Forest

variable {α : Type}

/-- The trees of one forest followed by those of another. -/
def append : Forest α → Forest α → Forest α
  | nil, g => g
  | tree a below next, g => tree a below (append next g)

instance : Append (Forest α) := ⟨append⟩

/-- One tree. -/
def single (a : α) (below : Forest α) : Forest α := tree a below nil

/-- The trees of several forests in turn. -/
def join : List (Forest α) → Forest α
  | [] => nil
  | f :: fs => f ++ join fs

/-- The labels in pre-order. -/
def labels : Forest α → List α
  | nil => []
  | tree a below next => a :: (labels below ++ labels next)

/-- The number of labels. -/
def size : Forest α → Nat
  | nil => 0
  | tree _ below next => 1 + size below + size next

/-- The labels of the top trees. -/
def tops : Forest α → List α
  | nil => []
  | tree a _ next => a :: tops next

/-- Whether there is no tree. -/
def isEmpty : Forest α → Bool
  | nil => true
  | tree .. => false

/-- Replaces the label with a given index; an index beyond the forest changes nothing. -/
def modify (f : α → α) : Nat → Forest α → Forest α
  | _, nil => nil
  | 0, tree a below next => tree (f a) below next
  | i + 1, tree a below next =>
    if i < size below then tree a (modify f i below) next
    else tree a below (modify f (i - size below) next)

/-- The tree with a given index, as a label and what is below it. -/
def at? : Nat → Forest α → Option (α × Forest α)
  | _, nil => none
  | 0, tree a below _ => some (a, below)
  | i + 1, tree _ below next =>
    if i < size below then at? i below else at? (i - size below) next

/-- The indices of the top trees of a forest whose first label has index `first`. -/
def topIndices (first : Nat) : Forest α → List Nat
  | nil => []
  | tree _ below next => first :: topIndices (first + 1 + size below) next

/-- The parent index of each label in pre-order, in a forest whose first label has index `first`
and whose top trees have the parent `parent`. -/
def parents (parent : Option Nat) (first : Nat) : Forest α → List (Option Nat)
  | nil => []
  | tree _ below next =>
    parent :: (parents (some first) (first + 1) below
      ++ parents parent (first + 1 + size below) next)

/-- The child indices of each label in pre-order, in a forest whose first label has index `first`. -/
def children (first : Nat) : Forest α → List (List Nat)
  | nil => []
  | tree _ below next =>
    topIndices (first + 1) below
      :: (children (first + 1) below ++ children (first + 1 + size below) next)

/-- Whether some label satisfies `p`. -/
def any (p : α → Bool) : Forest α → Bool
  | nil => false
  | tree a below next => p a || any p below || any p next

@[simp] theorem length_labels (f : Forest α) : f.labels.length = f.size := by
  induction f with
  | nil => rfl
  | tree a below next hb hn => simp [labels, size, hb, hn]; omega

end Forest

end Crosswalk
