import Crosswalk.Tag

/-!
Paths: sequences of tags from a root, naming a node of the output schema or of the source record.
The algebra is that of list prefixes; the order compares tag by tag, so the paths beneath a path
follow it directly.
-/

namespace Crosswalk

/-- A sequence of tags, root first. -/
structure Path where
  tags : List Tag
  deriving DecidableEq, Repr, Inhabited

namespace Path

/-- The empty path. -/
def root : Path := ⟨[]⟩

/-- The source path that stands for a literal constant. -/
def constant : Path := ⟨[Tag.elem none "constant"]⟩

/-- The number of tags. -/
def length (p : Path) : Nat := p.tags.length

/-- Whether this is the root. -/
def isEmpty (p : Path) : Bool := p.tags.isEmpty

/-- Whether this path stands for a literal constant. -/
def isConstant (p : Path) : Bool := p == constant

/-- The path one tag further down. -/
def child (p : Path) (t : Tag) : Path := ⟨p.tags ++ [t]⟩

/-- The path without its last tag; the root has none. -/
def parent? (p : Path) : Option Path := if p.tags.isEmpty then none else some ⟨p.tags.dropLast⟩

/-- The last tag. -/
def last? (p : Path) : Option Tag := p.tags.getLast?

/-- The tag at a zero-based depth. -/
def tagAt? (p : Path) (depth : Nat) : Option Tag := p.tags[depth]?

/-- The first `n` tags, or all of them if there are fewer. -/
def take (p : Path) (n : Nat) : Path := ⟨p.tags.take n⟩

/-- The tags after the first `n`. -/
def drop (p : Path) (n : Nat) : Path := ⟨p.tags.drop n⟩

/-- The tags of `p` followed by those of `q`. -/
def join (p q : Path) : Path := ⟨p.tags ++ q.tags⟩

/-- Whether `p` is a proper prefix of `q`. -/
def isAncestorOf (p q : Path) : Bool := decide (p.length < q.length) && q.take p.length == p

/-- Whether one of two paths is a prefix of the other. -/
def isFamilyOf (p q : Path) : Bool := p == q || p.isAncestorOf q || q.isAncestorOf p

/-- The path whose tag at a zero-based depth selects the choice with a given key. -/
def withVariantAt? (p : Path) (depth : Nat) (key : String) : Option Path :=
  if depth < p.length then some ⟨p.tags.modify depth (·.withVariant key)⟩ else none

/-- The path with every variant key removed. -/
def withoutVariants (p : Path) : Path := ⟨p.tags.map Tag.withoutVariant⟩

/-- Paths are compared tag by tag; a prefix comes first. -/
instance : Ord Path := ⟨compareOn tags⟩

instance : Std.TransOrd Path := inferInstanceAs (Std.TransCmp (compareOn tags))

instance : Std.LawfulEqOrd Path where
  eq_of_compare {p q} h := by
    have h : compare p.tags q.tags = .eq := h
    cases p; cases q; simpa using h

end Path

end Crosswalk
