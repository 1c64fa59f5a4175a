import Crosswalk.Proofs.Marks
import Crosswalk.Proofs.Path

/-!
Elements of the output document. Constructors nest as the elements do that they construct, so each has
the place that the constructors around it give to it; scopes, guards and marks have no place of their own.
The elements of a block are its constructors in the order of the text, each with its path. What a mapping
emits is one element with the attributes that are bound for it, around what is emitted below it.
-/

namespace Crosswalk

/-- An element that a program constructs, with the arguments of its constructor. -/
structure BuiltElement where
  path : Path
  attributes : List (Tag × Expression)
  value : Option Expression

/-- The element that a statement at a place constructs. -/
def Opening.elements (place : Path) : Opening → List BuiltElement
  | .element tag attributes value => [⟨place.child tag, attributes, value⟩]
  | _ => []

/-- The place of what is inside a statement at a place. -/
def Opening.place (place : Path) : Opening → Path
  | .element tag _ _ => place.child tag
  | _ => place

/-- The elements that a block at a place constructs at any depth, in the order of the text. -/
def Block.elements : Path → Block → List BuiltElement
  | _, .nil => []
  | place, .simple _ rest => elements place rest
  | place, .nested o body rest =>
    o.elements place ++ elements (o.place place) body ++ elements place rest

namespace Block

variable {place : Path}

@[simp] theorem elements_nil : nil.elements place = [] := rfl

@[simp] theorem elements_append (a b : Block) :
    (a ++ b).elements place = a.elements place ++ b.elements place := by
  induction a with
  | nil => rfl
  | simple s rest ih => exact ih
  | nested o body rest _ ih =>
    rw [nested_append, elements, ih, elements, List.append_assoc _ (rest.elements place)]

@[simp] theorem elements_around (o : Opening) (body : Block) :
    (around o body).elements place = o.elements place ++ body.elements (o.place place) := by
  rw [around, elements, elements_nil, List.append_nil]

@[simp] theorem elements_join (bs : List Block) :
    (join bs).elements place = bs.flatMap (elements place) := by
  induction bs with
  | nil => rfl
  | cons b bs ih => rw [join, elements_append, ih, List.flatMap_cons]

@[simp] theorem elements_scope (op : Operator) (var : String) (source : Expression) (body : Block) :
    (scope op var source body).elements place = body.elements place := by
  unfold scope
  split <;> exact elements_around ..

/-- The elements of a block are beneath its place. -/
theorem isAncestorOf_of_mem_elements {b : Block} {x : BuiltElement} : ∀ {place : Path},
    x ∈ b.elements place → place.isAncestorOf x.path = true := by
  induction b with
  | nil => intro place h; cases h
  | simple s rest ih => exact ih
  | nested o body rest hbody hrest =>
    intro place h
    rw [elements, List.mem_append, List.mem_append] at h
    rcases h with (h | h) | h
    · cases o with
      | element tag attributes value =>
        obtain rfl := List.mem_singleton.mp h
        exact Path.isAncestorOf_child place tag
      | _ => cases h
    · cases o with
      | element tag attributes value =>
        exact Path.isAncestorOf_trans (Path.isAncestorOf_child place tag) (hbody h)
      | _ => exact hbody h
    · exact hrest h

end Block

namespace Emission

variable {g : Setting} {n : NumberedNode} {place : Path}

@[simp] theorem elements_marked (m : Mapping) (b : Block) :
    (marked m b).elements place = b.elements place :=
  Block.elements_around ..

theorem elements_guarded (guards : List Expression) (b : Block) :
    (Arguments.guarded guards b).elements place = b.elements place := by
  induction guards with
  | nil => rfl
  | cons e guards ih => exact (Block.elements_around ..).trans ih

theorem elements_wrap (frames : List Frame) (b : Block) :
    (wrap frames b).elements place = b.elements place := by
  induction frames with
  | nil => rfl
  | cons f frames ih => exact (Block.elements_scope ..).trans ih

/-! ### Attributes -/

theorem elements_attributeBindings (scopes : Scopes) (nm : NumberedMapping) (var : String) :
    (attributeBindings g scopes n nm var).elements place = [] := by
  simp only [attributeBindings]
  split
  · rfl
  · split <;> rfl

theorem elements_attributeLets (scopes : Scopes) (ms : List NumberedMapping) : ∀ (k : Nat),
    (attributeLets g scopes n k ms).elements place = [] := by
  induction ms with
  | nil => intro k; rfl
  | cons nm ms ih =>
    intro k
    rw [attributeLets, Block.elements_append, elements_marked, elements_attributeBindings, ih]
    rfl

theorem elements_attributeArguments (scopes : Scopes) :
    (attributeArguments g scopes n).lets.elements place = [] := by
  rw [attributeArguments]
  split
  · rfl
  · dsimp only
    split
    · rfl
    · exact elements_attributeLets ..

theorem elements_argumentsOf (scopes : Scopes) (ns : List NumberedNode) :
    (argumentsOf g scopes ns).lets.elements place = [] := by
  induction ns with
  | nil => rfl
  | cons n ns ih =>
    rw [argumentsOf]
    split
    · rw [lets_append, Block.elements_append, elements_attributeArguments, ih]
      rfl
    · exact ih

/-! ### Constructors -/

/-- A constructor constructs its element around those of its block. -/
theorem elements_construct (scopes : Scopes) (ns : List NumberedNode) (tag : Tag)
    (value : Option Expression) (body : Block) :
    ((argumentsOf g scopes ns).construct tag value body).elements place =
      ⟨place.child tag, (argumentsOf g scopes ns).values, value⟩ ::
        body.elements (place.child tag) := by
  rw [Arguments.construct, Block.elements_append, elements_argumentsOf, elements_guarded,
    Block.elements_around]
  rfl

/-- The value of the element that a mapping with some code emits for a value. -/
def elementValue (n : NumberedNode) (snippet : Option Snippet) (value : Expression) :
    Option Expression :=
  if n.leaf then if snippet.isSome then none else some ((choiceValue? n).getD value)
  else choiceValue? n

theorem elements_constructor (scopes : Scopes) (ns : List NumberedNode) (snippet : Option Snippet)
    (value : Expression) (inner : Scopes → Block) :
    (constructor g scopes n ns snippet value inner).elements place =
      ⟨place.child n.tag, (argumentsOf g scopes ns).values, elementValue n snippet value⟩ ::
        if n.leaf then [] else (inner scopes).elements (place.child n.tag) := by
  have hcode : (snippet.elim Block.nil fun s => .one (.code s.code)).elements
      (place.child n.tag) = [] := by
    cases snippet <;> rfl
  simp only [constructor, elementValue]
  split
  · cases snippet with
    | some s => exact elements_construct ..
    | none => exact elements_construct ..
  · rw [elements_construct, Block.elements_append, hcode, List.nil_append]

theorem elements_emit (scopes : Scopes) (ns : List NumberedNode) (nm : NumberedMapping)
    (value : Expression) (inner : Scopes → Block) (place : Path) : ∃ value',
    (emit g scopes n ns nm value inner).elements place =
      ⟨place.child n.tag, (argumentsOf g scopes ns).values,
        elementValue n (g.snippetOf n nm.mapping) value'⟩ ::
        if n.leaf then [] else (inner scopes).elements (place.child n.tag) := by
  rw [emit]
  dsimp only
  split
  · next k _ =>
    refine ⟨.var (termVar k), ?_⟩
    rw [Block.elements, Block.elements_around, ← elements_constructor]
    rfl
  · exact ⟨value, elements_constructor ..⟩

/-- A mapping emits one element around what is below it, and perhaps the fallback of its code. -/
theorem elements_mappingBlock (scopes : Scopes) (ns : List NumberedNode) (nm : NumberedMapping)
    (inner : Scopes → Block) (place : Path) : ∃ value,
    (mappingBlock g scopes n ns nm inner).elements place =
      (⟨place.child n.tag, (argumentsOf g (innerScopes scopes n nm) ns).values,
        elementValue n (g.snippetOf n nm.mapping) value⟩ ::
        if n.leaf then [] else (inner (innerScopes scopes n nm)).elements (place.child n.tag)) ++
      (fallback n (g.snippetOf n nm.mapping)).elements place := by
  simp only [mappingBlock, innerScopes, Block.elements_append]
  cases nm.mapping.literal? with
  | some s =>
    obtain ⟨value, hvalue⟩ := elements_emit (g := g) (n := n) scopes ns nm (.literal s) inner place
    exact ⟨value, by rw [hvalue]⟩
  | none =>
    obtain ⟨value, hvalue⟩ := elements_emit (g := g) (n := n) (openInput scopes n nm).scopes ns nm
      (.var (openInput scopes n nm).var) inner place
    exact ⟨value, by rw [elements_wrap, hvalue]⟩

theorem element_mem_mappingBlock (scopes : Scopes) (ns : List NumberedNode) (nm : NumberedMapping)
    (inner : Scopes → Block) (place : Path) : ∃ value,
    ⟨place.child n.tag, (argumentsOf g (innerScopes scopes n nm) ns).values,
        elementValue n (g.snippetOf n nm.mapping) value⟩ ∈
      (mappingBlock g scopes n ns nm inner).elements place := by
  obtain ⟨value, helements⟩ := elements_mappingBlock (g := g) (n := n) scopes ns nm inner place
  exact ⟨value, helements ▸ List.mem_append_left _ List.mem_cons_self⟩

/-- What is below a node that is not a leaf is emitted within each of its mappings. -/
theorem elements_inner_mappingBlock (hleaf : n.leaf = false) (scopes : Scopes)
    (ns : List NumberedNode) (nm : NumberedMapping) {inner : Scopes → Block} {place : Path} :
    (inner (innerScopes scopes n nm)).elements (place.child n.tag) ⊆
      (mappingBlock g scopes n ns nm inner).elements place := by
  obtain ⟨value, helements⟩ := elements_mappingBlock (g := g) (n := n) scopes ns nm inner place
  rw [helements, hleaf]
  exact fun x hx => List.mem_append_left _ (List.mem_cons_of_mem _ hx)

/-- Without code every element that a mapping emits for its node has the value that the node stands
for and holds. -/
theorem value_of_mem_mappingBlock {e : Expression} (hchoice : choiceValue? n = some e)
    {nm : NumberedMapping} (hsnippet : g.snippetOf n nm.mapping = none) {scopes : Scopes}
    {ns : List NumberedNode} {inner : Scopes → Block} {x : BuiltElement}
    (hx : x ∈ (mappingBlock g scopes n ns nm inner).elements place)
    (hpath : x.path = place.child n.tag) : x.value = some e := by
  obtain ⟨value, helements⟩ := elements_mappingBlock (g := g) (n := n) scopes ns nm inner place
  rw [helements, hsnippet] at hx
  rcases List.mem_append.mp hx with hx | hx
  · rcases List.mem_cons.mp hx with rfl | hx
    · simp only [elementValue, hchoice, Option.isSome_none, Option.getD_some]
      split <;> rfl
    · split at hx
      · cases hx
      · exact absurd hpath.symm (Path.ne_of_isAncestorOf (Block.isAncestorOf_of_mem_elements hx))
  · cases hx

end Emission

end Crosswalk
