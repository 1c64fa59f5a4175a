import Crosswalk.Program.Focus
import Crosswalk.Program.Numbering
import Crosswalk.Program.Scopes

/-!
Emission: what the nodes of a mapping tree come to in the program. A node is emitted by the first
rule that applies: a fixed field emits the text its choice fixes; a node with no mappings at or
below it emits nothing; a mapped node emits each mapping in the order of inputs; a branch whose
nearest mappings all draw on children of one source path is emitted as if it were mapped from that
path; and any other node emits its constructor around what is below it. Attributes are bound ahead
of the constructor of their element.
-/

namespace Crosswalk

/-- Code authored for output nodes. -/
abbrev SnippetStore := Path → Option Snippet

/-- The store of some entries; the last for a path counts. -/
def SnippetStore.ofList (entries : List (Path × Snippet)) : SnippetStore :=
  fun p => entries.reverse.lookup p

/-- What is the same for a whole generation. -/
structure Setting where
  snippets : SnippetStore
  focus : Option Focus

namespace Setting

/-- Whether something at a path may belong to the focus. -/
def inFocus (g : Setting) (p : Path) : Bool :=
  match g.focus with
  | some f => p.isFamilyOf f.output
  | none => true

/-- The mappings of a node that are emitted: at the focus only the one in focus. -/
def emitted (g : Setting) (n : NumberedNode) : List NumberedMapping :=
  match g.focus with
  | some f =>
    if f.output = n.path then n.numbered.filter fun nm => nm.mapping.input == f.input
    else n.numbered
  | none => n.numbered

/-- The code of a mapping: its own, or else what the store has for the node. -/
def snippetOf (g : Setting) (n : NumberedNode) (m : Mapping) : Option Snippet :=
  m.snippet.or (g.snippets n.path)

end Setting

/-! ### Names -/

namespace Emission

/-- The name of a table. -/
def tableName (k : Nat) : String := "Dictionary" ++ toString k

/-- The name of the function that consults a table. -/
def lookupName (k : Nat) : String := "lookup" ++ toString k

/-- The variable of what a table has for a value. -/
def termVar (k : Nat) : String := "_translated" ++ toString k

/-- The variable of a join. -/
def joinVar (k : Nat) : String := "_M" ++ toString k

/-- The characters of a tag in the variable of an attribute. -/
def attributeStep (t : Tag) : List Char :=
  '_' :: Text.strip (· == '_') (Text.sanitize (t.chars.dropWhile (· == '@')))

/-- The variable of the `k`th mapping of the attribute at a path. -/
def attributeVar (p : Path) (k : Nat) : String :=
  String.ofList ("_attr".toList ++ p.tags.flatMap attributeStep)
    ++ (if k = 0 then "" else "_" ++ toString (k + 1))

/-! ### Constructors -/

/-- What is bound ahead of a constructor and passed to it. -/
structure Arguments where
  lets : Block := .nil
  values : List (Tag × Expression) := []
  /-- Looked up values that have to be there for the element to be constructed. -/
  guards : List Expression := []

namespace Arguments

/-- The arguments of both, in order. -/
def append (a b : Arguments) : Arguments :=
  ⟨a.lets ++ b.lets, a.values ++ b.values, a.guards ++ b.guards⟩

instance : Append Arguments := ⟨append⟩

/-- A block within the guards, the first outermost. -/
def guarded (guards : List Expression) (inside : Block) : Block :=
  guards.foldr (fun e body => .around (.guarded (.present e)) body) inside

/-- The bindings followed by the constructor of an element. -/
def construct (a : Arguments) (tag : Tag) (value : Option Expression) (body : Block) : Block :=
  a.lets ++ guarded a.guards (.around (.element tag a.values value) body)

end Arguments

/-- The operator of a mapping: its own, or the schema's, or the first match of a singular node and
every match of another. -/
def operatorOf (n : NumberedNode) (m : Mapping) : Operator :=
  (m.operator.or n.operator).getD (if n.singular then .first else .all)

/-- The dictionary of a mapping onto a node. That of a node that stands for a choice is narrowed to
what selects the choice. -/
def dictionaryOf (n : Node) (d : Dictionary) : Dictionary :=
  match n.rootMembership? with
  | some m => d.withTerm m.choice.value
  | none => d

/-- The block that one mapping emits, with the mark by which a printer finds it. -/
def marked (m : Mapping) (body : Block) : Block := .around (.mapping m.output m.input) body

/-! ### Attributes -/

/-- What an attribute mapping reads: the first match, the joined text of all, or the collection,
from the nearest open scope. -/
def attributeSource (scopes : Scopes) (n : NumberedNode) (m : Mapping) : Expression :=
  let (bound, base) := scopes.nearest m.input
  match m.input.tags.drop bound.length with
  | [] => .var base
  | steps =>
    match operatorOf n m with
    | .first => .first (.nav base steps)
    | .array => .nav base steps
    | op => .joined (.nav base steps) (op.delimiter?.getD " ")

/-- The parameter of the code that computes an attribute. -/
def parameter (scopes : Scopes) (m : Mapping) : String :=
  match m.input.last? with
  | some t => scopes.freshVar t
  | none => inputVar

/-- The bindings of one attribute mapping's value to a variable. -/
def attributeBindings (g : Setting) (scopes : Scopes) (n : NumberedNode) (nm : NumberedMapping)
    (var : String) : Block :=
  let m := nm.mapping
  match m.literal? with
  | some s => .one (.define var (.literal s))
  | none =>
    let source := attributeSource scopes n m
    let compute (result : String) (s : Snippet) : Block :=
      .around (.compute result (parameter scopes m) source) (.one (.code s.code))
    let consult (k : Nat) (value : Expression) : Block :=
      .one (.define var (.call (lookupName k) [value]))
    match g.snippetOf n m, nm.table with
    | some s, some k => compute (var ++ "_code") s ++ consult k (.var (var ++ "_code"))
    | some s, none => compute var s
    | none, some k => consult k source
    | none, none => .one (.define var source)

/-- The bindings of the emitted mappings of an attribute, numbered from `k`. -/
def attributeLets (g : Setting) (scopes : Scopes) (n : NumberedNode) (k : Nat) :
    List NumberedMapping → Block
  | [] => .nil
  | nm :: rest =>
    marked nm.mapping (attributeBindings g scopes n nm (attributeVar n.path k))
      ++ attributeLets g scopes n (k + 1) rest

/-- The value of an attribute with some mappings: the first that is not empty. -/
def attributeValue? (p : Path) (ms : List NumberedMapping) : Option Expression :=
  match ms.zipIdx.map fun (_, k) => Expression.var (attributeVar p k) with
  | [] => none
  | [e] => some e
  | es => some (.alternatives es)

/-- The arguments that an attribute of an element comes to. -/
def attributeArguments (g : Setting) (scopes : Scopes) (n : NumberedNode) : Arguments :=
  match n.fixedMembership? with
  | some _ => { values := n.fixedValue?.toList.map fun s => (n.tag, .literal s) }
  | none =>
    let ms := g.emitted n
    match attributeValue? n.path ms with
    | none => {}
    | some value =>
      { lets := attributeLets g scopes n 0 ms
        values := [(n.tag, value)]
        guards := if ms.any fun nm => nm.table.isSome then [value] else [] }

/-- The arguments of an element with some child nodes. -/
def argumentsOf (g : Setting) (scopes : Scopes) : List NumberedNode → Arguments
  | [] => {}
  | n :: rest =>
    if n.isAttribute && g.inFocus n.path then
      attributeArguments g scopes n ++ argumentsOf g scopes rest
    else argumentsOf g scopes rest

/-! ### Scopes of a mapping -/

/-- A scope to be put around what a mapping emits. -/
structure Frame where
  operator : Operator
  var : String
  source : Expression

/-- The scopes that a mapping opens, outermost first, all that are open then, and the variable of
its input. -/
structure Opened where
  frames : List Frame
  scopes : Scopes
  var : String

/-- Opens a scope for each of some tags in turn, from a variable bound to a path. A path of `depth`
tags is bound by the operator `final`, and any other by all its matches. -/
def openSteps (final : Operator) (depth : Nat) (bound : Path) (var : String) (scopes : Scopes) :
    List Tag → Opened
  | [] => { frames := [], scopes, var }
  | t :: rest =>
    let path := bound.child t
    let fresh := scopes.freshVar t
    let frame : Frame := ⟨if path.length = depth then final else .all, fresh, .nav var [t]⟩
    let opened := openSteps final depth path fresh (⟨.path path, fresh⟩ :: scopes) rest
    { opened with frames := frame :: opened.frames }

/-- Opens the scopes from the deepest binding to a path. -/
def openPath (final : Operator) (depth : Nat) (scopes : Scopes) (target : Path) : Opened :=
  let (bound, var) := scopes.nearest target
  openSteps final depth bound var scopes (target.tags.drop bound.length)

/-- Opens the join of some keys of a parent unless it is open already. -/
def openJoin (op : Operator) (k : Nat) (parent : Path) (keys : List Tag) (o : Opened) : Opened :=
  match o.scopes.joinVar? parent keys with
  | some var => { o with var }
  | none =>
    { frames := o.frames ++ [⟨op, joinVar k, .mapJoin o.var keys⟩]
      scopes := ⟨.join parent keys, joinVar k⟩ :: o.scopes
      var := joinVar k }

/-- Opens the scopes that bind the input of a mapping, or the join of its inputs. -/
def openInput (scopes : Scopes) (n : NumberedNode) (nm : NumberedMapping) : Opened :=
  let m := nm.mapping
  let op := operatorOf n m
  match nm.join with
  | none => openPath op m.input.length scopes m.input
  | some k =>
    let target := m.input.parent?.getD m.input
    openJoin op k target (m.inputs.filterMap Path.last?)
      (openPath op m.input.length scopes target)

/-- A block within some scopes, the first outermost. -/
def wrap (frames : List Frame) (inside : Block) : Block :=
  frames.foldr (fun f body => Block.scope f.operator f.var f.source body) inside

/-! ### Elements -/

/-- The value of a node that stands for a choice and holds its value. -/
def choiceValue? (n : NumberedNode) : Option Expression :=
  match n.rootMembership? with
  | some m => if m.vocabulary.rootIsValue then some (.literal m.choice.value) else none
  | none => none

/-- The constructor of a mapped node for a value. Code takes the place of a leaf's value and comes
before what is below a branch. -/
def constructor (g : Setting) (scopes : Scopes) (n : NumberedNode) (children : List NumberedNode)
    (snippet : Option Snippet) (value : Expression) (inner : Scopes → Block) : Block :=
  let args := argumentsOf g scopes children
  let code := snippet.elim Block.nil fun s => .one (.code s.code)
  if n.leaf then
    match snippet with
    | some _ => args.construct n.tag none code
    | none => args.construct n.tag (some ((choiceValue? n).getD value)) .nil
  else args.construct n.tag (choiceValue? n) (code ++ inner scopes)

/-- The constructor of a mapped node. A value that a table stands for has to be there. -/
def emit (g : Setting) (scopes : Scopes) (n : NumberedNode) (children : List NumberedNode)
    (nm : NumberedMapping) (value : Expression) (inner : Scopes → Block) : Block :=
  let snippet := g.snippetOf n nm.mapping
  match nm.table with
  | some k =>
    let term := Expression.var (termVar k)
    .simple (.define (termVar k) (.call (lookupName k) [value]))
      (.around (.guarded (.present term))
        (constructor g scopes n children snippet term inner))
  | none => constructor g scopes n children snippet value inner

/-- The fallback of a mapping's code, for an element that has not been produced. -/
def fallback (n : NumberedNode) (snippet : Option Snippet) : Block :=
  match snippet.bind Snippet.absent with
  | some code =>
    .around (.guarded (.absent n.tag)) (.around (.element n.tag [] none) (.one (.code code)))
  | none => .nil

/-- What one mapping of a node emits. -/
def mappingBlock (g : Setting) (scopes : Scopes) (n : NumberedNode) (children : List NumberedNode)
    (nm : NumberedMapping) (inner : Scopes → Block) : Block :=
  let body :=
    match nm.mapping.literal? with
    | some s => emit g scopes n children nm (.literal s) inner
    | none =>
      let o := openInput scopes n nm
      wrap o.frames (emit g o.scopes n children nm (.var o.var) inner)
  body ++ fallback n (g.snippetOf n nm.mapping)

/-! ### Nodes -/

/-- The inputs of the nearest mappings below a node. Constants draw on no input. -/
def frontier : Forest NumberedNode → List Path
  | .nil => []
  | .tree n below next =>
    (if n.hasMappings then
      (n.mappingList.filter fun m => !m.isConstant).map Mapping.input
    else frontier below) ++ frontier next

/-- The one parent of the inputs of the nearest mappings below a node. The source root is none. -/
def commonParent? (below : Forest NumberedNode) : Option Path :=
  match frontier below with
  | [] => none
  | input :: others =>
    input.parent?.filter fun p =>
      decide (1 < p.length) && others.all fun other => other.parent? == some p

/-- Whether a node or one below it has a mapping. -/
def isPopulated (n : NumberedNode) (below : Forest NumberedNode) : Bool :=
  n.hasMappings || below.any fun m => m.hasMappings

/-- What a node emits that is neither mapped nor fixed. The root of the output is never emitted as
if it were mapped. -/
def branch (g : Setting) (isRoot : Bool) (scopes : Scopes) (n : NumberedNode)
    (below : Forest NumberedNode) (inner : Scopes → Block) : Block :=
  match if isRoot || n.leaf then none else commonParent? below with
  | some parent =>
    mappingBlock g scopes n below.tops { mapping := { output := n.path, input := parent } } inner
  | none =>
    let args := argumentsOf g scopes below.tops
    let body := inner scopes
    if args.values.isEmpty && body.isEmpty then .nil else args.construct n.tag none body

/-- What a node emits, when `inner` emits what is below it. -/
def nodeBlock (g : Setting) (isRoot : Bool) (scopes : Scopes) (n : NumberedNode)
    (below : Forest NumberedNode) (inner : Scopes → Block) : Block :=
  if n.isAttribute || !g.inFocus n.path then .nil
  else if n.fixedMembership?.isSome then
    match n.fixedValue? with
    | some s => (argumentsOf g scopes below.tops).construct n.tag (some (.literal s)) .nil
    | none => .nil
  else if !isPopulated n below then .nil
  else if n.hasMappings then
    .join ((g.emitted n).map fun nm =>
      marked nm.mapping (mappingBlock g scopes n below.tops nm inner))
  else branch g isRoot scopes n below inner

/-- What the trees of a forest emit within some scopes. -/
def blockOf (g : Setting) : Forest NumberedNode → Scopes → Block
  | .nil, _ => .nil
  | .tree n below next, scopes =>
    nodeBlock g false scopes n below (blockOf g below) ++ blockOf g next scopes

/-- What the output document comes to. It always has its root. -/
def outputOf (g : Setting) : Forest NumberedNode → Block
  | .nil => .nil
  | .tree n below _ =>
    let block := nodeBlock g true [] n below (blockOf g below)
    if block.isEmpty then (argumentsOf g [] below.tops).construct n.tag none .nil else block

/-! ### Declarations -/

/-- A dictionary that generated code consults. -/
structure HoistedTable where
  number : Nat
  dictionary : Dictionary

/-- The dictionaries that the mappings of a node consult. -/
def tablesOf (n : NumberedNode) : List HoistedTable :=
  n.numbered.filterMap fun nm =>
    match nm.table, nm.mapping.dictionary with
    | some number, some d => some { number, dictionary := dictionaryOf n.toNode d }
    | _, _ => none

/-- The declarations of a table and of the function that consults it. -/
def declarations (t : HoistedTable) : List Simple :=
  [.table (tableName t.number) t.dictionary.decided,
    .lookup (lookupName t.number) (tableName t.number)]

/-- The declarations of the tables that some code consults, in the order of the first calls. -/
def hoisted (tables : List HoistedTable) (code : Block) : List Simple :=
  code.calls.eraseDups.flatMap fun function =>
    match tables.find? fun t => lookupName t.number == function with
    | some t => declarations t
    | none => []

/-- The declarations of namespaces. -/
def namespaceDeclarations (ns : List Namespace) : List Simple :=
  ns.map fun n => .namespaceDecl n.qualifier n.uri

/-- The note about a field marker. -/
def markerNote (m : FieldMarker) : Simple :=
  .comment ("field " ++ m.name
    ++ (m.kind.elim "" fun kind => " (" ++ kind ++ ")") ++ ": " ++ m.path.text)

end Emission

open Emission in
/-- The program of a mapping tree. A focus that names no mapping is reported and disregarded. -/
def MappingTree.program (t : MappingTree) (snippets : SnippetStore) (focus : Option Focus) :
    Program × List GenerationGap :=
  let missing := focus.filter fun f => !t.has f
  let forest := t.numbered
  let output := outputOf { snippets, focus := focus.filter t.has } forest
  let tables := forest.labels.flatMap tablesOf
  ({ prologue :=
      .ofSimple (namespaceDeclarations t.namespaces ++ hoisted tables output)
     output
     epilogue :=
      .ofSimple (t.assertions.map (fun a => .assertion a.path a.condition)
        ++ t.fieldMarkers.map markerNote) },
    missing.toList.map fun f => ⟨f.output, f.input⟩)

end Crosswalk
