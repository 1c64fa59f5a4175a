import Crosswalk.Program.Block
import Crosswalk.Text.Literal

/-!
Open scopes: which source paths are bound to which variables where a statement stands. A mapping
starts from the deepest binding of its input or an ancestor of it, and the interpreter's own
variable is bound to the first tag of every source path. Fresh variables differ from all open ones.
-/

namespace Crosswalk

/-- The variable that the interpreter binds to the root of the source record. -/
def inputVar : String := "_input"

/-- What an open scope binds. -/
inductive BindingKey where
  | path (p : Path)
  /-- The children of one parent with some names, as one collection. -/
  | join (parent : Path) (keys : List Tag)
  deriving DecidableEq, Repr

/-- A variable of an open scope and what it is bound to. -/
structure Binding where
  key : BindingKey
  var : String
  deriving DecidableEq, Repr

/-- The open scopes, the innermost first. -/
abbrev Scopes := List Binding

namespace Scopes

/-- The path that a binding binds, if it is the given one or an ancestor of it. -/
def covers? (p : Path) (b : Binding) : Option Path :=
  match b.key with
  | .path q => if q = p ∨ q.isAncestorOf p then some q else none
  | .join .. => none

/-- The deepest bound path among `p` and its ancestors, with its variable. -/
def deepest? (p : Path) : Scopes → Option (Path × String)
  | [] => none
  | b :: outer =>
    match covers? p b, deepest? p outer with
    | none, found => found
    | some q, none => some (q, b.var)
    | some q, some (q', v) => if q.length < q'.length then some (q', v) else some (q, b.var)

/-- Where navigation to a path starts: the deepest bound path, or the first tag of the path. -/
def nearest (scopes : Scopes) (p : Path) : Path × String :=
  (scopes.deepest? p).getD (p.take 1, inputVar)

/-- The variable of an open join. -/
def joinVar? (scopes : Scopes) (parent : Path) (keys : List Tag) : Option String :=
  (scopes.find? fun b => b.key == .join parent keys).map Binding.var

/-- Whether a name is in use. -/
def isTaken (scopes : Scopes) (name : String) : Bool :=
  name == inputVar || scopes.any fun b => b.var == name

/-- The candidates for a fresh name: the name itself, then the name with a number from two on. -/
def candidate (base : String) (k : Nat) : String :=
  if k = 0 then base else base ++ "_" ++ toString (k + 1)

/-- The first free candidate from number `k` on; after `limit` taken ones the next is free. -/
def firstFree (taken : String → Bool) (base : String) : Nat → Nat → String
  | 0, k => candidate base k
  | limit + 1, k =>
    if taken (candidate base k) then firstFree taken base limit (k + 1) else candidate base k

/-- The name that a scope over a tag has unless it is taken. -/
def baseName (t : Tag) : String :=
  String.ofList
    ('_' :: (if t.isAttribute then "at_".toList else []) ++ Text.sanitize t.qname.toList)

/-- A variable for a scope over a tag. At most the open variables and the interpreter's are
taken. -/
def freshVar (scopes : Scopes) (t : Tag) : String :=
  firstFree scopes.isTaken (baseName t) (scopes.length + 1) 0

end Scopes

end Crosswalk
