import Crosswalk.Program.Emission
import Crosswalk.Proofs.Context

/-!
Marks: the blocks of a program that mappings emit, in the order of the text. Scopes, guards and
constructors leave the marks of what is inside as they are, so those of a node are the marks of its
attributes and of what is below it, each within the node's own if it is mapped.
-/

namespace Crosswalk

/-- A block that a mapping emits. -/
structure Mark where
  output : Path
  input : Path
  body : Block

/-- The mark that a statement around a block is. -/
def Opening.marks (body : Block) : Opening → List Mark
  | .mapping output input => [⟨output, input, body⟩]
  | _ => []

/-- The marks of a block at any depth, in the order of the text. -/
def Block.marks : Block → List Mark
  | .nil => []
  | .simple _ rest => marks rest
  | .nested o body rest => o.marks body ++ marks body ++ marks rest

namespace Block

@[simp] theorem marks_nil : nil.marks = [] := rfl

@[simp] theorem marks_one (s : Simple) : (one s).marks = [] := rfl

@[simp] theorem marks_append (a b : Block) : (a ++ b).marks = a.marks ++ b.marks := by
  induction a with
  | nil => rfl
  | simple s rest ih => exact ih
  | nested o body rest _ ih => rw [nested_append, marks, ih, marks, List.append_assoc _ rest.marks]

@[simp] theorem marks_around (o : Opening) (body : Block) :
    (around o body).marks = o.marks body ++ body.marks := by
  simp [around, marks]

@[simp] theorem marks_join (bs : List Block) : (join bs).marks = bs.flatMap marks := by
  induction bs with
  | nil => rfl
  | cons b bs ih => simp [join, ih]

@[simp] theorem marks_scope (op : Operator) (var : String) (source : Expression) (body : Block) :
    (scope op var source body).marks = body.marks := by
  unfold scope
  split <;> simp [Opening.marks]

theorem marks_ofSimple (ss : List Simple) : (ofSimple ss).marks = [] := by
  simp [ofSimple]

theorem isEmpty_eq_true {b : Block} (h : b.isEmpty = true) : b = nil := by
  cases b <;> simp_all [isEmpty]

end Block

namespace Emission

variable {g : Setting} {n : NumberedNode}

/-! ### Constructors -/

@[simp] theorem marks_marked (m : Mapping) (b : Block) :
    (marked m b).marks = ⟨m.output, m.input, b⟩ :: b.marks := by
  simp [marked, Opening.marks]

theorem marks_guarded (guards : List Expression) (b : Block) :
    (Arguments.guarded guards b).marks = b.marks := by
  induction guards with
  | nil => rfl
  | cons e guards ih => simpa [Arguments.guarded, Opening.marks] using ih

@[simp] theorem marks_construct (a : Arguments) (tag : Tag) (value : Option Expression)
    (body : Block) : (a.construct tag value body).marks = a.lets.marks ++ body.marks := by
  simp [Arguments.construct, marks_guarded, Opening.marks]

theorem marks_wrap (frames : List Frame) (b : Block) : (wrap frames b).marks = b.marks := by
  induction frames with
  | nil => rfl
  | cons f frames ih => simpa [wrap] using ih

/-! ### Attributes -/

theorem marks_attributeBindings (scopes : Scopes) (nm : NumberedMapping) (var : String) :
    (attributeBindings g scopes n nm var).marks = [] := by
  simp only [attributeBindings]
  split
  · simp
  · split <;> simp [Opening.marks]

/-- Each emitted mapping of an attribute is a mark of its own. -/
theorem marks_attributeLets_cons (scopes : Scopes) (k : Nat) (nm : NumberedMapping)
    (ms : List NumberedMapping) : (attributeLets g scopes n k (nm :: ms)).marks =
      ⟨nm.mapping.output, nm.mapping.input,
        attributeBindings g scopes n nm (attributeVar n.path k)⟩ ::
        (attributeLets g scopes n (k + 1) ms).marks := by
  simp [attributeLets, marks_attributeBindings]

theorem attributeValue?_eq_none {p : Path} {ms : List NumberedMapping}
    (h : attributeValue? p ms = none) : ms = [] := by
  rw [attributeValue?] at h
  split at h
  · next heq => simpa using heq
  · cases h
  · cases h

theorem marks_attributeArguments (scopes : Scopes) :
    (attributeArguments g scopes n).lets.marks =
      if n.fixedMembership?.isSome then []
      else (attributeLets g scopes n 0 (g.emitted n)).marks := by
  rw [attributeArguments]
  cases n.fixedMembership? with
  | some _ => rfl
  | none =>
    simp only [Option.isSome_none, Bool.false_eq_true, if_false]
    split
    · next hvalue => rw [attributeValue?_eq_none hvalue]; rfl
    · rfl

theorem lets_append (a b : Arguments) : (a ++ b).lets = a.lets ++ b.lets := rfl

theorem values_append (a b : Arguments) : (a ++ b).values = a.values ++ b.values := rfl

theorem marks_argumentsOf (scopes : Scopes) (ns : List NumberedNode) :
    (argumentsOf g scopes ns).lets.marks = ns.flatMap fun n =>
      if n.isAttribute && g.inFocus n.path then (attributeArguments g scopes n).lets.marks
      else [] := by
  induction ns with
  | nil => rfl
  | cons n ns ih =>
    rw [argumentsOf, List.flatMap_cons, ← ih]
    split
    · rw [lets_append, Block.marks_append]
    · rw [List.nil_append]

theorem lets_attributeArguments_of_values {scopes : Scopes}
    (h : (attributeArguments g scopes n).values = []) :
    (attributeArguments g scopes n).lets = .nil := by
  rw [attributeArguments] at h ⊢
  split
  · rfl
  · next hfixed =>
    simp only [hfixed] at h ⊢
    split
    · rfl
    · next value hvalue => simp [hvalue] at h

/-- An element with no attributes to pass binds none. -/
theorem lets_argumentsOf_of_values {scopes : Scopes} {ns : List NumberedNode}
    (h : (argumentsOf g scopes ns).values = []) : (argumentsOf g scopes ns).lets = .nil := by
  induction ns with
  | nil => rfl
  | cons n ns ih =>
    rw [argumentsOf] at h ⊢
    split at h
    · rw [values_append, List.append_eq_nil_iff] at h
      rw [if_pos ‹_›, lets_append, lets_attributeArguments_of_values h.1, ih h.2]
      rfl
    · rw [if_neg ‹_›]
      exact ih h

/-! ### Elements -/

/-- The scopes that are open within what a mapping of a node emits. -/
def innerScopes (scopes : Scopes) (n : NumberedNode) (nm : NumberedMapping) : Scopes :=
  match nm.mapping.literal? with
  | some _ => scopes
  | none => (openInput scopes n nm).scopes

theorem marks_constructor (scopes : Scopes) (ns : List NumberedNode) (snippet : Option Snippet)
    (value : Expression) (inner : Scopes → Block) :
    (constructor g scopes n ns snippet value inner).marks =
      (argumentsOf g scopes ns).lets.marks ++ if n.leaf then [] else (inner scopes).marks := by
  have hcode : (snippet.elim Block.nil fun s => .one (.code s.code)).marks = [] := by
    cases snippet <;> rfl
  simp only [constructor]
  split
  · cases snippet <;> simp
  · simp [hcode]

theorem marks_emit (scopes : Scopes) (ns : List NumberedNode) (nm : NumberedMapping)
    (value : Expression) (inner : Scopes → Block) :
    (emit g scopes n ns nm value inner).marks =
      (argumentsOf g scopes ns).lets.marks ++ if n.leaf then [] else (inner scopes).marks := by
  simp only [emit]
  split
  · rw [Block.marks, Block.marks_around, marks_constructor]; rfl
  · rw [marks_constructor]

theorem marks_fallback (snippet : Option Snippet) : (fallback n snippet).marks = [] := by
  rw [fallback]
  split <;> simp [Opening.marks]

theorem marks_mappingBlock (scopes : Scopes) (ns : List NumberedNode) (nm : NumberedMapping)
    (inner : Scopes → Block) :
    (mappingBlock g scopes n ns nm inner).marks =
      (argumentsOf g (innerScopes scopes n nm) ns).lets.marks ++
        if n.leaf then [] else (inner (innerScopes scopes n nm)).marks := by
  simp only [mappingBlock, innerScopes, Block.marks_append, marks_fallback, List.append_nil]
  cases nm.mapping.literal? with
  | some s => exact marks_emit ..
  | none => rw [marks_wrap, marks_emit]

/-! ### Nodes -/

/-- The scopes that are open within what a node emits that is neither mapped nor fixed. -/
def branchScopes (isRoot : Bool) (scopes : Scopes) (n : NumberedNode)
    (below : Forest NumberedNode) : Scopes :=
  match if isRoot || n.leaf then none else commonParent? below with
  | some parent => innerScopes scopes n { mapping := { output := n.path, input := parent } }
  | none => scopes

theorem marks_branch (isRoot : Bool) (scopes : Scopes) (below : Forest NumberedNode)
    (inner : Scopes → Block) :
    (branch g isRoot scopes n below inner).marks =
      (argumentsOf g (branchScopes isRoot scopes n below) below.tops).lets.marks ++
        (inner (branchScopes isRoot scopes n below)).marks := by
  rw [branch, branchScopes]
  cases hcommon : if isRoot || n.leaf then none else commonParent? below with
  | some parent =>
    have hleaf : n.leaf = false := by
      split at hcommon
      · cases hcommon
      · next hneither => cases h : n.leaf <;> simp_all
    simp only [marks_mappingBlock, hleaf, Bool.false_eq_true, if_false]
  | none =>
    simp only
    split
    · next hnothing =>
      rw [Bool.and_eq_true, List.isEmpty_iff] at hnothing
      rw [lets_argumentsOf_of_values hnothing.1, Block.isEmpty_eq_true hnothing.2]
      rfl
    · rw [marks_construct]

/-- The marks of a node are those of its mappings, each with those of the node's attributes and of
what is below it inside, or else only the latter. -/
theorem marks_nodeBlock (isRoot : Bool) (scopes : Scopes) (below : Forest NumberedNode)
    (inner : Scopes → Block) :
    (nodeBlock g isRoot scopes n below inner).marks =
      if n.isAttribute || !g.inFocus n.path then []
      else if n.fixedMembership?.isSome then
        if n.fixedValue?.isSome then (argumentsOf g scopes below.tops).lets.marks else []
      else if !isPopulated n below then []
      else if n.hasMappings then
        (g.emitted n).flatMap fun nm =>
          ⟨nm.mapping.output, nm.mapping.input, mappingBlock g scopes n below.tops nm inner⟩ ::
            (mappingBlock g scopes n below.tops nm inner).marks
      else (branch g isRoot scopes n below inner).marks := by
  rw [nodeBlock]
  split
  · rfl
  split
  · cases n.fixedValue? with
    | some s => simp
    | none => rfl
  split
  · rfl
  split
  · rw [Block.marks_join, List.flatMap_map]
    simp only [marks_marked]
  · rfl

end Emission

end Crosswalk
