import Crosswalk.Tree.Instance

/-!
Edits of a mapping tree. Each is a computation on the tree that checks and writes in turn, and what
it has written stays written if it fails later. It reports which mapping of which node changed.
-/

namespace Crosswalk

/-- What an edit reports: what happened, and the mapping that was taken away. -/
structure Report where
  event : ChangeEvent
  removed : Option Mapping := none
  deriving DecidableEq, Repr

/-- The outcome of an edit that succeeds: its report and the new tree. -/
structure Change extends Report where
  tree : MappingTree
  deriving DecidableEq, Repr

/-- An edit of a mapping tree. Nodes are named by their indices. -/
inductive Edit where
  /-- Attach a mapping to the node at its output path. -/
  | attach (m : Mapping)
  /-- Attach a mapping to a node. -/
  | add (node : Nat) (m : Mapping)
  /-- Detach the mapping from an input. -/
  | remove (node : Nat) (input : Path)
  | setSnippet (node : Nat) (input : Path) (snippet : Option Snippet)
  | setDictionary (node : Nat) (input : Path) (dictionary : Option Dictionary)
  | setDocumentation (node : Nat) (input : Path) (documentation : Option String)
  deriving DecidableEq, Repr

/-- The tree with the node at an index replaced. -/
def MappingTree.setNode (t : MappingTree) (i : Nat) (n : Node) : MappingTree :=
  { t with forest := t.forest.modify (fun _ => n) i }

/-- A computation on a mapping tree. It leaves a tree whether it fails or not. -/
abbrev Editing := ExceptT AttachError (StateM MappingTree)

namespace Editing

/-- What a computation on a tree comes to, and the tree that it leaves. -/
def runOn {α : Type} (x : Editing α) (t : MappingTree) : Except AttachError α × MappingTree :=
  Id.run (x.run.run t)

/-- The node with a given index. -/
def node (i : Nat) : Editing Node := do
  match (← get).nodes[i]? with
  | some n => return n
  | none => throw (.noNode i)

/-- Puts a node in the place of the one with a given index. -/
def write (i : Nat) (n : Node) : Editing Unit := modify fun t => t.setNode i n

/-- Attaches a mapping to a node that accepts it. -/
def add (i : Nat) (m : Mapping) : Editing Report := do
  let n ← node i
  MonadExcept.ofExcept (n.accept m)
  write i { n with mappings := n.mappings.insert m.input m }
  return { event := ⟨i, m.input, .mappingAdded⟩ }

/-- Attaches a mapping to the node at its output path. -/
def attach (m : Mapping) : Editing Report := do
  match (← get).nodeAt? m.output with
  | some i => add i m
  | none => throw (.unknownNode m.output)

/-- Detaches the mapping of a node from an input. What was there is looked at afterwards. -/
def remove (i : Nat) (input : Path) : Editing Report := do
  let n ← node i
  write i { n with mappings := n.mappings.erase input }
  match n.mapping? input with
  | some m => return { event := ⟨i, input, .mappingRemoved⟩, removed := some m }
  | none => throw (.notAttached n.path input)

/-- Changes the mapping of a node from an input. -/
def change (i : Nat) (input : Path) (kind : ChangeKind) (f : Mapping → Mapping) :
    Editing Report := do
  let n ← node i
  match n.mapping? input with
  | some _ => do
    write i { n with mappings := n.mappings.adjust input f }
    return { event := ⟨i, input, kind⟩ }
  | none => throw (.notAttached n.path input)

/-- The outcome of a computation on a tree. -/
def outcome (x : Editing Report) (t : MappingTree) : Except AttachError Change :=
  match x.runOn t with
  | (.ok r, u) => .ok { r with tree := u }
  | (.error e, _) => .error e

end Editing

/-- What an edit does to a tree. -/
def Edit.perform : Edit → Editing Report
  | attach m => .attach m
  | add i m => .add i m
  | remove i input => .remove i input
  | setSnippet i input snippet => .change i input .codeChanged fun m => { m with snippet }
  | setDictionary i input dictionary =>
    .change i input .dictionaryChanged fun m => { m with dictionary }
  | setDocumentation i input documentation =>
    .change i input .documentationChanged fun m => { m with documentation }

namespace MappingTree

/-- The outcome of an edit of a tree. -/
def edit (t : MappingTree) (e : Edit) : Except AttachError Change := e.perform.outcome t

/-- The tree that an edit leaves, whether it succeeds or fails. -/
def afterEdit (t : MappingTree) (e : Edit) : MappingTree := (e.perform.runOn t).2

/-- The tree after some edits in turn. -/
def afterEdits (t : MappingTree) (es : List Edit) : MappingTree := es.foldl afterEdit t

/-- Attaches a mapping to the node at its output path. -/
def attach (t : MappingTree) (m : Mapping) : Except AttachError Change := t.edit (.attach m)

/-- Attaches a mapping to a node. -/
def add (t : MappingTree) (i : Nat) (m : Mapping) : Except AttachError Change := t.edit (.add i m)

/-- Detaches the mapping of a node from an input. -/
def remove (t : MappingTree) (i : Nat) (input : Path) : Except AttachError Change :=
  t.edit (.remove i input)

/-- Replaces the code of a mapping. -/
def setSnippet (t : MappingTree) (i : Nat) (input : Path) (snippet : Option Snippet) :
    Except AttachError Change :=
  t.edit (.setSnippet i input snippet)

/-- Replaces the dictionary of a mapping. -/
def setDictionary (t : MappingTree) (i : Nat) (input : Path) (dictionary : Option Dictionary) :
    Except AttachError Change :=
  t.edit (.setDictionary i input dictionary)

/-- Replaces the documentation of a mapping. -/
def setDocumentation (t : MappingTree) (i : Nat) (input : Path) (documentation : Option String) :
    Except AttachError Change :=
  t.edit (.setDocumentation i input documentation)

/-- The tree with some mappings attached in turn; the first that cannot be attached is the error. -/
def attachAll (t : MappingTree) : List Mapping → Except AttachError MappingTree
  | [] => .ok t
  | m :: rest => do
    let c ← t.attach m
    c.tree.attachAll rest

end MappingTree

end Crosswalk
