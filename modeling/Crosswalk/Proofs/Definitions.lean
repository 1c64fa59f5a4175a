import Crosswalk.Proofs.Scoping
import Crosswalk.Proofs.Translation

/-!
Blocks that define no variable twice. The variables of tables never meet others, because each
table has a number of its own. The variables of attributes may: they are made of the attributes'
paths with characters left out and replaced, and an element constructed by several mappings in one
block has its attributes bound by each. So no block defines a variable twice exactly if the
attributes whose variables come into one block have different variables there, and no two mappings
of one element both bind them in the block around it.
-/

namespace Crosswalk

/-! ### Blocks of a program -/

/-- The block that a statement has inside, unless it is that of a mapping, which is part of the
block it stands in. -/
def Opening.blocks (inside : Block) : Opening → List Block
  | .mapping .. => []
  | _ => [inside]

namespace Block

/-- The blocks inside the statements of a block, at any depth. -/
def blocks : Block → List Block
  | .nil => []
  | .simple _ rest => blocks rest
  | .nested o body rest => o.blocks body ++ blocks body ++ blocks rest

/-- Whether no block, be it this one or one inside it, defines a variable twice. -/
def DefinesOnce (b : Block) : Prop := ∀ c ∈ b :: b.blocks, c.definitions.Nodup

instance (b : Block) : Decidable b.DefinesOnce := inferInstanceAs (Decidable (∀ c ∈ _, _))

/-- Whether no block inside a block defines a variable twice. -/
def InsideOnce (b : Block) : Prop := ∀ c ∈ b.blocks, c.definitions.Nodup

theorem definesOnce_iff {b : Block} : b.DefinesOnce ↔ b.definitions.Nodup ∧ b.InsideOnce :=
  List.forall_mem_cons

theorem blocks_append (a b : Block) : (a ++ b).blocks = a.blocks ++ b.blocks := by
  induction a with
  | nil => rfl
  | simple s rest ih => exact ih
  | nested o body rest _ ih =>
    rw [nested_append, blocks, ih, blocks, List.append_assoc _ rest.blocks]

theorem insideOnce_append {a b : Block} :
    (a ++ b).InsideOnce ↔ a.InsideOnce ∧ b.InsideOnce := by
  rw [InsideOnce, blocks_append, List.forall_mem_append]
  rfl

theorem insideOnce_of_blocks {b : Block} (h : b.blocks = []) : b.InsideOnce := by
  rw [InsideOnce, h]
  exact List.forall_mem_nil _

/-- A statement that is not a mapping has a block of its own. -/
theorem insideOnce_around {o : Opening} {body : Block} (ho : o.blocks body = [body]) :
    (around o body).InsideOnce ↔ body.DefinesOnce := by
  rw [InsideOnce, around, blocks, ho, blocks, List.append_nil]
  rfl

theorem scope_opens (op : Operator) (var : String) (source : Expression) (body : Block) :
    ∃ o : Opening, scope op var source body = around o body ∧ o.blocks body = [body] ∧
      o.definitions body.definitions = [] := by
  unfold scope
  split
  all_goals exact ⟨_, rfl, rfl, rfl⟩

end Block

namespace Emission

/-! ### Variables that come into one block -/

/-- Whether a name starts like those of attributes. -/
def startsAsAttribute (x : String) : Bool := "_attr".toList.isPrefixOf x.toList

theorem startsAsAttribute_attributeVar (p : Path) (k : Nat) (s : String) :
    startsAsAttribute (attributeVar p k ++ s) = true := by
  obtain ⟨r, hr, -⟩ := toList_attributeVar p k
  rw [startsAsAttribute, String.toList_append, hr]
  simp [List.isPrefixOf]

theorem startsAsAttribute_termVar (k : Nat) : startsAsAttribute (termVar k) = false := by
  rw [startsAsAttribute, toList_termVar]
  rfl

theorem startsAsAttribute_of_mem_variablesFrom {g : Setting} {a : NumberedNode} {x : String} :
    ∀ {ms : List NumberedMapping} {j : Nat}, x ∈ variablesFrom g a j ms → startsAsAttribute x = true
  | nm :: ms, j, h => by
    have hvar := startsAsAttribute_attributeVar a.path j ""
    rw [String.append_empty] at hvar
    rw [variablesFrom, mappingVariables, List.mem_append, List.mem_append, List.mem_singleton] at h
    rcases h with (h | rfl) | h
    · split at h
      · rw [List.mem_singleton.mp h]
        exact startsAsAttribute_attributeVar a.path j "_code"
      · cases h
    · exact hvar
    · exact startsAsAttribute_of_mem_variablesFrom h

theorem startsAsAttribute_of_mem {g : Setting} {ns : List NumberedNode} :
    ∀ x ∈ attributeVariables g ns, startsAsAttribute x = true := by
  intro x hx
  obtain ⟨a, -, hx⟩ := List.mem_flatMap.mp hx
  exact startsAsAttribute_of_mem_variablesFrom hx

/-- The scopes that a mapping opens, outermost first. -/
def openedFrames (scopes : Scopes) (n : NumberedNode) (nm : NumberedMapping) : List Frame :=
  match nm.mapping.literal? with
  | some _ => []
  | none => (openInput scopes n nm).frames

/-- Whether a mapping constructs its element in the very block it stands in: it opens no scope, and
no table stands for its value. -/
def isInPlace (scopes : Scopes) (n : NumberedNode) (nm : NumberedMapping) : Bool :=
  nm.table.isNone && (openedFrames scopes n nm).isEmpty

/-- The attribute variables that a mapping of an element defines in the block around it. -/
def mappingAhead (g : Setting) (scopes : Scopes) (n : NumberedNode) (ns : List NumberedNode)
    (nm : NumberedMapping) : List String :=
  if isInPlace scopes n nm then attributeVariables g ns else []

/-- The attribute variables that a node defines in the block around it. -/
def nodeAhead (g : Setting) (isRoot : Bool) (scopes : Scopes) (n : NumberedNode)
    (below : Forest NumberedNode) : List String :=
  if n.isAttribute || !g.inFocus n.path then []
  else if n.fixedMembership?.isSome then
    if n.fixedValue?.isSome then attributeVariables g below.tops else []
  else if !isPopulated n below then []
  else if n.hasMappings then (g.emitted n).flatMap (mappingAhead g scopes n below.tops)
  else
    match if isRoot || n.leaf then none else commonParent? below with
    | some parent =>
      mappingAhead g scopes n below.tops { mapping := { output := n.path, input := parent } }
    | none => attributeVariables g below.tops

/-- The attribute variables that the nodes of a forest define in the block around them. -/
def ahead (g : Setting) : Forest NumberedNode → Scopes → List String
  | .nil, _ => []
  | .tree n below next, scopes => nodeAhead g false scopes n below ++ ahead g next scopes

/-! ### Variables that differ -/

/-- Whether the variables of a mapping's element differ in each block inside the one around it,
given when those of what is below do. -/
def MappingDistinct (g : Setting) (scopes : Scopes) (n : NumberedNode) (ns : List NumberedNode)
    (nm : NumberedMapping) (R : Scopes → Prop) : Prop :=
  (isInPlace scopes n nm = false → (attributeVariables g ns).Nodup) ∧
    (n.leaf = false → R (innerScopes scopes n nm))

/-- Whether the variables of a node differ in each block inside the one around it, given when those
of what is below do. -/
def NodeDistinct (g : Setting) (isRoot : Bool) (scopes : Scopes) (n : NumberedNode)
    (below : Forest NumberedNode) (R : Scopes → Prop) : Prop :=
  if n.isAttribute || !g.inFocus n.path then True
  else if n.fixedMembership?.isSome then True
  else if !isPopulated n below then True
  else if n.hasMappings then ∀ nm ∈ g.emitted n, MappingDistinct g scopes n below.tops nm R
  else
    match if isRoot || n.leaf then none else commonParent? below with
    | some parent =>
      MappingDistinct g scopes n below.tops { mapping := { output := n.path, input := parent } } R
    | none => R scopes

/-- Whether the variables of the nodes of a forest differ in each block inside the one around
them. -/
def ForestDistinct (g : Setting) : Forest NumberedNode → Scopes → Prop
  | .nil, _ => True
  | .tree n below next, scopes =>
    NodeDistinct g false scopes n below
        (fun s => (ahead g below s).Nodup ∧ ForestDistinct g below s) ∧
      ForestDistinct g next scopes

/-- Whether the attribute variables that come into one block differ, in every block of the
output. -/
def OutputDistinct (g : Setting) : Forest NumberedNode → Prop
  | .nil => True
  | .tree n below _ =>
    (attributeVariables g below.tops).Nodup ∧ (nodeAhead g true [] n below).Nodup ∧
      NodeDistinct g true [] n below fun s => (ahead g below s).Nodup ∧ ForestDistinct g below s

/-! ### What a block defines -/

/-- What is known of a block: which attribute variables it defines, in order, that what else it
defines are variables of some tables, and when the blocks inside it define no variable twice. -/
structure Defines (b : Block) (attributes : List String) (tables : List Nat) (P : Prop) : Prop where
  attributes : b.definitions.filter startsAsAttribute = attributes
  tables : (b.definitions.filter fun x => !startsAsAttribute x).Sublist (tables.map termVar)
  inside : b.InsideOnce ↔ P

theorem termVar_injective {i j : Nat} (h : termVar i = termVar j) : i = j := by
  have hl := congrArg String.toList h
  simp only [toList_termVar, List.cons.injEq, List.append_cancel_left_eq, true_and] at hl
  exact toString_nat_injective (String.toList_injective hl)

namespace Defines

variable {a b : Block} {as as' : List String} {ks ks' : List Nat} {P Q : Prop}

/-- The variables of tables with different numbers differ from one another and from those of
attributes. -/
theorem definesOnce (h : Defines b as ks P) (hks : ks.Nodup) : b.DefinesOnce ↔ as.Nodup ∧ P := by
  have htables : (b.definitions.filter fun x => !startsAsAttribute x).Nodup :=
    h.tables.nodup (hks.map fun _ _ => termVar_injective)
  have hapart : ∀ x ∈ b.definitions.filter startsAsAttribute,
      ∀ y ∈ b.definitions.filter fun x => !startsAsAttribute x, x ≠ y := by
    rintro x hx _ hy rfl
    rw [List.mem_filter] at hx hy
    rw [hx.2] at hy
    cases hy.2
  rw [Block.definesOnce_iff, h.inside, ← (List.filter_append_perm startsAsAttribute _).nodup_iff,
    List.nodup_append, ← h.attributes]
  refine and_congr_left fun _ => ⟨fun hall => hall.1, fun hattributes => ?_⟩
  exact ⟨hattributes, htables, hapart⟩

theorem nil : Defines .nil [] [] True :=
  ⟨rfl, .slnil, iff_of_true (Block.insideOnce_of_blocks rfl) trivial⟩

theorem append (ha : Defines a as ks P) (hb : Defines b as' ks' Q) :
    Defines (a ++ b) (as ++ as') (ks ++ ks') (P ∧ Q) where
  attributes := by rw [Block.definitions_append, List.filter_append, ha.attributes, hb.attributes]
  tables := by
    rw [Block.definitions_append, List.filter_append, List.map_append]
    exact ha.tables.append hb.tables
  inside := by rw [Block.insideOnce_append, ha.inside, hb.inside]

theorem congr (h : Defines b as ks P) (hPQ : P ↔ Q) : Defines b as ks Q :=
  ⟨h.attributes, h.tables, h.inside.trans hPQ⟩

/-- What defines nothing, and has nothing to ask for inside, may follow. -/
theorem append_none (ha : Defines a as ks P) (hb : Defines b [] [] True) :
    Defines (a ++ b) as ks P := by
  have h := (ha.append hb).congr (and_iff_left trivial)
  rwa [List.append_nil, List.append_nil] at h

theorem allow (h : Defines b as ks P) (hks : ks.Sublist ks') : Defines b as ks' P :=
  ⟨h.attributes, h.tables.trans (hks.map termVar), h.inside⟩

/-- A statement that defines nothing, around a block of its own. -/
theorem around {o : Opening} (ho : o.blocks b = [b]) (hnone : o.definitions b.definitions = [])
    (hb : b.DefinesOnce ↔ P) : Defines (.around o b) [] [] P := by
  have hdefinitions : (Block.around o b).definitions = [] := by
    rw [Block.around, Block.definitions, hnone]
    rfl
  refine ⟨?_, ?_, (Block.insideOnce_around ho).trans hb⟩
  · rw [hdefinitions]
    rfl
  · rw [hdefinitions]
    exact .slnil

/-- The block of a mapping is part of the block around it. -/
theorem marked {m : Mapping} (h : Defines b as ks P) : Defines (marked m b) as ks P := by
  have hdefinitions : (Emission.marked m b).definitions = b.definitions := List.append_nil _
  have hblocks : (Emission.marked m b).blocks = b.blocks := List.append_nil _
  refine ⟨?_, ?_, ?_⟩
  · rw [hdefinitions]
    exact h.attributes
  · rw [hdefinitions]
    exact h.tables
  · rw [Block.InsideOnce, hblocks]
    exact h.inside

end Defines

/-! ### Attributes and constructors -/

section Constructors

variable {g : Setting} {n : NumberedNode} {scopes : Scopes} {ns : List NumberedNode}
  {nm : NumberedMapping} {inner : Scopes → Block} {R : Scopes → Prop}

theorem definesOnce_code {s : String} : (Block.one (.code s)).DefinesOnce :=
  List.forall_mem_singleton.mpr List.nodup_nil

theorem insideOnce_attributeBindings {var : String} :
    (attributeBindings g scopes n nm var).InsideOnce := by
  have hcode (result parameter : String) (source : Expression) (s : Snippet) :
      (Block.around (.compute result parameter source) (.one (.code s.code))).InsideOnce :=
    (Block.insideOnce_around rfl).mpr definesOnce_code
  simp only [attributeBindings]
  cases nm.mapping.literal? with
  | some s => exact Block.insideOnce_of_blocks rfl
  | none =>
    cases g.snippetOf n nm.mapping with
    | some s =>
      cases nm.table with
      | some k => exact Block.insideOnce_append.mpr ⟨hcode _ _ _ s, Block.insideOnce_of_blocks rfl⟩
      | none => exact hcode _ _ _ s
    | none => cases nm.table <;> exact Block.insideOnce_of_blocks rfl

theorem insideOnce_attributeLets : ∀ {ms : List NumberedMapping} {k : Nat},
    (attributeLets g scopes n k ms).InsideOnce
  | [], _ => Block.insideOnce_of_blocks rfl
  | nm :: ms, k => by
    rw [attributeLets, Block.insideOnce_append]
    refine ⟨?_, insideOnce_attributeLets⟩
    have hblocks (b : Block) : (marked nm.mapping b).blocks = b.blocks := List.append_nil _
    rw [Block.InsideOnce, hblocks]
    exact insideOnce_attributeBindings

theorem defines_argumentsOf :
    Defines (argumentsOf g scopes ns).lets (attributeVariables g ns) [] True where
  attributes := by
    rw [definitions_argumentsOf, List.filter_eq_self]
    exact startsAsAttribute_of_mem
  tables := by
    have hnone : (attributeVariables g ns).filter (fun x => !startsAsAttribute x) = [] :=
      List.filter_eq_nil_iff.mpr fun x hx => by simp [startsAsAttribute_of_mem x hx]
    rw [definitions_argumentsOf, hnone]
    exact .slnil
  inside := by
    refine iff_of_true ?_ trivial
    induction ns with
    | nil => exact Block.insideOnce_of_blocks rfl
    | cons a ns ih =>
      rw [lets_argumentsOf_cons, Block.insideOnce_append]
      refine ⟨?_, ih⟩
      split
      · exact insideOnce_attributeLets
      · exact Block.insideOnce_of_blocks rfl

theorem defines_guarded {b : Block} {P : Prop} (h : Defines b [] [] P) (guards : List Expression) :
    Defines (Arguments.guarded guards b) [] [] P := by
  induction guards with
  | nil => exact h
  | cons e guards ih =>
    have htail := ih.definesOnce List.nodup_nil
    exact .around rfl rfl (htail.trans (and_iff_right List.nodup_nil))

/-- The attributes of an element are bound ahead of its constructor, which has what is below the
element inside. -/
theorem defines_construct {tag : Tag} {value : Option Expression} {body : Block} {P : Prop}
    (hbody : body.DefinesOnce ↔ P) :
    Defines ((argumentsOf g scopes ns).construct tag value body) (attributeVariables g ns) []
      P := by
  have helement : Defines (.around (.element tag (argumentsOf g scopes ns).values value) body)
      [] [] P :=
    .around rfl rfl hbody
  have hlets : Defines (argumentsOf g scopes ns).lets (attributeVariables g ns) [] True :=
    defines_argumentsOf
  have h := hlets.append (defines_guarded helement (argumentsOf g scopes ns).guards)
  rw [List.append_nil] at h
  exact h.congr (and_iff_right trivial)

theorem definesOnce_nil : Block.nil.DefinesOnce :=
  List.forall_mem_singleton.mpr List.nodup_nil

theorem definesOnce_code_append {snippet : Option Snippet} {b : Block} :
    ((snippet.elim Block.nil fun s => .one (.code s.code)) ++ b).DefinesOnce ↔ b.DefinesOnce := by
  rw [Block.definesOnce_iff, Block.definesOnce_iff, Block.definitions_append,
    Block.insideOnce_append]
  cases snippet with
  | none => exact and_congr_right fun _ => and_iff_right (Block.insideOnce_of_blocks rfl)
  | some s => exact and_congr_right fun _ => and_iff_right (Block.insideOnce_of_blocks rfl)

theorem defines_fallback (snippet : Option Snippet) : Defines (fallback n snippet) [] [] True := by
  rw [fallback]
  split
  · next code _ =>
    have helement : Defines (.around (.element n.tag [] none) (.one (.code code))) [] [] True :=
      .around rfl rfl (iff_of_true definesOnce_code trivial)
    have hinside := (helement.definesOnce List.nodup_nil).mpr ⟨List.nodup_nil, trivial⟩
    exact .around rfl rfl (iff_of_true hinside trivial)
  · exact .nil

variable (hinner : ∀ scopes, (inner scopes).DefinesOnce ↔ R scopes)

include hinner

theorem defines_constructor {snippet : Option Snippet} {value : Expression} :
    Defines (constructor g scopes n ns snippet value inner) (attributeVariables g ns) []
      (n.leaf = false → R scopes) := by
  simp only [constructor]
  cases n.leaf with
  | true =>
    simp only [if_true, reduceCtorEq, false_implies]
    cases snippet with
    | some s => exact defines_construct (iff_of_true definesOnce_code trivial)
    | none => exact defines_construct (iff_of_true definesOnce_nil trivial)
  | false =>
    rw [if_neg Bool.false_ne_true]
    refine defines_construct (definesOnce_code_append.trans ((hinner scopes).trans ?_))
    simp

/-- A table's variable takes the place of those of the attributes, which are bound behind the
lookup. -/
theorem defines_emit {value : Expression} :
    Defines (emit g scopes n ns nm value inner)
      (if nm.table.isNone then attributeVariables g ns else []) nm.table.toList
      ((nm.table.isNone = false → (attributeVariables g ns).Nodup) ∧
        (n.leaf = false → R scopes)) := by
  simp only [emit]
  cases nm.table with
  | none => exact (defines_constructor hinner).congr (by simp)
  | some k =>
    have hdefine :
        Defines (.one (.define (termVar k) (.call (lookupName k) [value]))) [] [k] True := by
      refine ⟨?_, ?_, iff_of_true (Block.insideOnce_of_blocks rfl) trivial⟩
      · exact List.filter_cons_of_neg (by rw [startsAsAttribute_termVar]; exact Bool.false_ne_true)
      · exact List.filter_sublist
    refine (hdefine.append (.around rfl rfl ?_)).congr (and_iff_right trivial)
    rw [(defines_constructor hinner).definesOnce List.nodup_nil]
    simp

theorem definesOnce_emit {value : Expression} : (emit g scopes n ns nm value inner).DefinesOnce ↔
    (attributeVariables g ns).Nodup ∧ (n.leaf = false → R scopes) := by
  have hnumber : nm.table.toList.Nodup := by cases nm.table <;> simp
  rw [(defines_emit hinner).definesOnce hnumber]
  cases nm.table <;> simp

omit hinner

/-- A scope has a block of its own, so what is inside defines nothing around it. -/
theorem defines_scope {op : Operator} {var : String} {source : Expression} {b : Block} {P : Prop}
    (hb : b.DefinesOnce ↔ P) : Defines (Block.scope op var source b) [] [] P := by
  obtain ⟨o, ho, hblocks, hnone⟩ := Block.scope_opens op var source b
  rw [ho]
  exact .around hblocks hnone hb

theorem definesOnce_wrap {b : Block} (frames : List Frame) :
    (wrap frames b).DefinesOnce ↔ b.DefinesOnce := by
  induction frames with
  | nil => rfl
  | cons f frames ih =>
    exact ((defines_scope ih).definesOnce List.nodup_nil).trans (and_iff_right List.nodup_nil)

include hinner

/-- A mapping's element, with what is bound ahead of it, stands within the scopes that the mapping
opens. -/
theorem defines_mappingBlock :
    Defines (mappingBlock g scopes n ns nm inner) (mappingAhead g scopes n ns nm) nm.table.toList
      (MappingDistinct g scopes n ns nm R) := by
  have hblock : ∃ value, mappingBlock g scopes n ns nm inner =
      wrap (openedFrames scopes n nm) (emit g (innerScopes scopes n nm) n ns nm value inner) ++
        fallback n (g.snippetOf n nm.mapping) := by
    rw [openedFrames, innerScopes]
    simp only [mappingBlock]
    cases nm.mapping.literal? with
    | some s => exact ⟨_, rfl⟩
    | none => exact ⟨_, rfl⟩
  obtain ⟨value, hblock⟩ := hblock
  rw [hblock, mappingAhead, MappingDistinct, isInPlace]
  cases openedFrames scopes n nm with
  | nil =>
    rw [List.isEmpty_nil, Bool.and_true]
    exact (defines_emit hinner).append_none (defines_fallback _)
  | cons f frames =>
    rw [List.isEmpty_cons, Bool.and_false, if_neg Bool.false_ne_true]
    refine ((defines_scope ?_).append_none (defines_fallback _)).allow (List.nil_sublist _)
    refine (definesOnce_wrap frames).trans ((definesOnce_emit hinner).trans ?_)
    simp

/-! ### Nodes -/

theorem defines_branch {isRoot : Bool} {below : Forest NumberedNode} :
    Defines (branch g isRoot scopes n below inner)
      (match if isRoot || n.leaf then none else commonParent? below with
        | some parent =>
          mappingAhead g scopes n below.tops { mapping := { output := n.path, input := parent } }
        | none => attributeVariables g below.tops) []
      (match if isRoot || n.leaf then none else commonParent? below with
        | some parent =>
          MappingDistinct g scopes n below.tops { mapping := { output := n.path, input := parent } }
            R
        | none => R scopes) := by
  rw [branch]
  cases if isRoot || n.leaf then none else commonParent? below with
  | some parent => exact defines_mappingBlock hinner
  | none =>
    dsimp only
    split
    · next hnothing =>
      rw [Bool.and_eq_true, List.isEmpty_iff] at hnothing
      have hattributes : attributeVariables g below.tops = [] := by
        rw [← definitions_argumentsOf, lets_argumentsOf_of_values hnothing.1]
        rfl
      have hbody : R scopes := by
        rw [← hinner, Block.isEmpty_eq_true hnothing.2]
        exact definesOnce_nil
      rw [hattributes]
      exact Defines.nil.congr (iff_of_true trivial hbody)
    · exact defines_construct (hinner scopes)

omit hinner

theorem defines_join {block : NumberedMapping → Block} {as : NumberedMapping → List String}
    {P : NumberedMapping → Prop} {ms : List NumberedMapping}
    (h : ∀ nm ∈ ms, Defines (block nm) (as nm) nm.table.toList (P nm)) :
    Defines (.join (ms.map block)) (ms.flatMap as) (ms.filterMap NumberedMapping.table)
      (∀ nm ∈ ms, P nm) := by
  induction ms with
  | nil => exact Defines.nil.congr (by simp)
  | cons nm ms ih =>
    rw [List.forall_mem_cons] at h
    have hall := (h.1.append (ih h.2)).congr List.forall_mem_cons.symm
    rw [List.filterMap_cons]
    cases htable : nm.table <;> rw [htable] at hall <;> exact hall

include hinner

theorem defines_nodeBlock {isRoot : Bool} {below : Forest NumberedNode} :
    Defines (nodeBlock g isRoot scopes n below inner) (nodeAhead g isRoot scopes n below)
      (Numbering.tableNumbers n) (NodeDistinct g isRoot scopes n below R) := by
  have hnil : Defines .nil [] (Numbering.tableNumbers n) True :=
    Defines.nil.allow (List.nil_sublist _)
  rw [nodeBlock, nodeAhead, NodeDistinct]
  split
  · exact hnil
  split
  · cases n.fixedValue? with
    | some s =>
      exact (defines_construct (iff_of_true definesOnce_nil trivial)).allow (List.nil_sublist _)
    | none => exact hnil
  split
  · exact hnil
  split
  · refine (defines_join fun nm _ => ?_).allow ((emitted_sublist g n).filterMap _)
    exact (defines_mappingBlock hinner).marked
  · exact (defines_branch hinner).allow (List.nil_sublist _)

end Constructors

theorem defines_blockOf {g : Setting} {f : Forest NumberedNode}
    (hnodup : (f.labels.flatMap Numbering.tableNumbers).Nodup) (scopes : Scopes) :
    Defines (blockOf g f scopes) (ahead g f scopes) (f.tops.flatMap Numbering.tableNumbers)
      (ForestDistinct g f scopes) := by
  induction f generalizing scopes with
  | nil => exact .nil
  | tree n below next hb hn =>
    rw [Forest.labels, List.flatMap_cons, List.flatMap_append] at hnodup
    have hbelow := hnodup.of_append_right.of_append_left
    have hnext := hnodup.of_append_right.of_append_right
    have hinner : ∀ s, (blockOf g below s).DefinesOnce ↔
        (ahead g below s).Nodup ∧ ForestDistinct g below s := fun s =>
      (hb hbelow s).definesOnce (hbelow.sublist (below.tops_sublist_labels.flatMap _))
    exact (defines_nodeBlock hinner).append (hn hnext scopes)

/-- A root that emits something has the attributes it constructs bound somewhere. -/
theorem nodup_of_nodeDistinct {g : Setting} {n : NumberedNode} {below : Forest NumberedNode}
    {inner : Scopes → Block} {R : Scopes → Prop}
    (hblock : nodeBlock g true [] n below inner ≠ .nil)
    (hahead : (nodeAhead g true [] n below).Nodup) (hdistinct : NodeDistinct g true [] n below R) :
    (attributeVariables g below.tops).Nodup := by
  rw [nodeBlock] at hblock
  rw [nodeAhead] at hahead
  rw [NodeDistinct] at hdistinct
  split at hblock
  · exact absurd rfl hblock
  rw [if_neg ‹_›] at hahead hdistinct
  split at hblock
  · rw [if_pos ‹_›] at hahead
    cases hvalue : n.fixedValue? with
    | some s =>
      rw [hvalue] at hahead
      exact hahead
    | none =>
      rw [hvalue] at hblock
      exact absurd rfl hblock
  rw [if_neg ‹_›] at hahead hdistinct
  split at hblock
  · exact absurd rfl hblock
  rw [if_neg ‹_›] at hahead hdistinct
  split at hblock
  · rw [if_pos ‹_›] at hahead hdistinct
    cases hemitted : g.emitted n with
    | nil =>
      rw [hemitted] at hblock
      exact absurd rfl hblock
    | cons nm rest =>
      rw [hemitted, List.flatMap_cons] at hahead
      rw [hemitted] at hdistinct
      cases hplace : isInPlace [] n nm with
      | true =>
        rw [mappingAhead, if_pos hplace] at hahead
        exact hahead.of_append_left
      | false => exact (hdistinct nm List.mem_cons_self).1 hplace
  · rw [if_neg ‹_›] at hahead
    exact hahead

/-- The output defines no variable twice in a block exactly if no two attribute variables that come
into one block are the same. -/
theorem definesOnce_outputOf_iff {g : Setting} {f : Forest NumberedNode}
    (hnodup : (f.labels.flatMap Numbering.tableNumbers).Nodup) :
    (outputOf g f).DefinesOnce ↔ OutputDistinct g f := by
  cases f with
  | nil => exact iff_of_true definesOnce_nil trivial
  | tree n below next =>
    rw [Forest.labels, List.flatMap_cons, List.flatMap_append] at hnodup
    have hbelow := hnodup.of_append_right.of_append_left
    have hinner : ∀ s, (blockOf g below s).DefinesOnce ↔
        (ahead g below s).Nodup ∧ ForestDistinct g below s := fun s =>
      (defines_blockOf hbelow s).definesOnce (hbelow.sublist (below.tops_sublist_labels.flatMap _))
    have hnode : (nodeBlock g true [] n below (blockOf g below)).DefinesOnce ↔
        (nodeAhead g true [] n below).Nodup ∧ NodeDistinct g true [] n below fun s =>
          (ahead g below s).Nodup ∧ ForestDistinct g below s :=
      (defines_nodeBlock hinner).definesOnce hnodup.of_append_left
    rw [outputOf, OutputDistinct, ← hnode]
    split
    · next hempty =>
      have hattributes : ((argumentsOf g [] below.tops).construct n.tag none .nil).DefinesOnce ↔
          (attributeVariables g below.tops).Nodup ∧ True :=
        (defines_construct (iff_of_true definesOnce_nil trivial)).definesOnce List.nodup_nil
      rw [hattributes, Block.isEmpty_eq_true hempty]
      exact and_congr_right fun _ => iff_of_true trivial definesOnce_nil
    · next hempty =>
      refine (and_iff_right_of_imp fun honce => ?_).symm
      have hblock : nodeBlock g true [] n below (blockOf g below) ≠ .nil := fun hnil =>
        hempty (by rw [hnil]; rfl)
      obtain ⟨hahead, hdistinct⟩ := hnode.mp honce
      exact nodup_of_nodeDistinct hblock hahead hdistinct

/-! ### Trees without repeated variables -/

/-- Whether no element of some nodes has several mappings. -/
def SingleMapped (ns : List NumberedNode) : Prop :=
  ∀ n ∈ ns, n.isAttribute = false → n.numbered.length ≤ 1

section SingleMapped

variable {g : Setting} {isRoot : Bool} {scopes : Scopes} {n : NumberedNode}
  {f below : Forest NumberedNode}

theorem attributeVariables_sublist {ns ns' : List NumberedNode} (h : ns.Sublist ns') :
    (attributeVariables g ns).Sublist (attributeVariables g ns') :=
  (h.filter _).flatMap _

/-- A node with one mapping binds each of its attributes once. -/
theorem nodeAhead_sublist (h : n.isAttribute = false → n.numbered.length ≤ 1) :
    (nodeAhead g isRoot scopes n below).Sublist (attributeVariables g below.tops) := by
  have hmapping (nm : NumberedMapping) :
      (mappingAhead g scopes n below.tops nm).Sublist (attributeVariables g below.tops) := by
    rw [mappingAhead]
    split
    · exact .refl _
    · exact List.nil_sublist _
  rw [nodeAhead]
  split
  · exact List.nil_sublist _
  next hattr =>
  rw [Bool.or_eq_true, not_or, Bool.not_eq_true] at hattr
  have hlength := Nat.le_trans (emitted_sublist g n).length_le (h hattr.1)
  split
  · split
    · exact .refl _
    · exact List.nil_sublist _
  split
  · exact List.nil_sublist _
  split
  · cases hemitted : g.emitted n with
    | nil => exact List.nil_sublist _
    | cons nm rest =>
      rw [hemitted, List.length_cons] at hlength
      rw [List.length_eq_zero_iff.mp (Nat.le_zero.mp (Nat.le_of_succ_le_succ hlength)),
        List.flatMap_singleton]
      exact hmapping nm
  · split
    · exact hmapping _
    · exact .refl _

theorem attributeVariables_tree {next : Forest NumberedNode} :
    attributeVariables g (Forest.tree n below next).labels = attributeVariables g [n] ++
      (attributeVariables g below.labels ++ attributeVariables g next.labels) := by
  have happend (as bs : List NumberedNode) :
      attributeVariables g (as ++ bs) = attributeVariables g as ++ attributeVariables g bs := by
    rw [attributeVariables, List.filter_append, List.flatMap_append]
    rfl
  rw [Forest.labels, ← List.singleton_append, happend, happend]

theorem ahead_sublist (h : SingleMapped f.labels) (scopes : Scopes) :
    (ahead g f scopes).Sublist (attributeVariables g f.labels) := by
  induction f with
  | nil => exact List.nil_sublist _
  | tree n below next _ hn =>
    obtain ⟨hnode, -, hnext⟩ := Forest.forall_labels_tree.mp h
    have hbelow : (nodeAhead g false scopes n below).Sublist (attributeVariables g below.labels) :=
      (nodeAhead_sublist hnode).trans (attributeVariables_sublist below.tops_sublist_labels)
    rw [attributeVariables_tree]
    exact (hbelow.append (hn hnext)).trans (List.sublist_append_right ..)

theorem mappingDistinct_of {ns : List NumberedNode} {R : Scopes → Prop}
    (hns : (attributeVariables g ns).Nodup) (hR : ∀ s, R s) (nm : NumberedMapping) :
    MappingDistinct g scopes n ns nm R :=
  ⟨fun _ => hns, fun _ => hR _⟩

theorem nodeDistinct_of {R : Scopes → Prop} (hbelow : (attributeVariables g below.tops).Nodup)
    (hR : ∀ s, R s) : NodeDistinct g isRoot scopes n below R := by
  rw [NodeDistinct]
  split
  · trivial
  split
  · trivial
  split
  · trivial
  split
  · exact fun nm _ => mappingDistinct_of hbelow hR nm
  · split
    · exact mappingDistinct_of hbelow hR _
    · exact hR _

theorem distinct_of_singleMapped (h : SingleMapped f.labels)
    (hnodup : (attributeVariables g f.labels).Nodup) :
    ∀ scopes, (ahead g f scopes).Nodup ∧ ForestDistinct g f scopes := by
  refine fun scopes => ⟨hnodup.sublist (ahead_sublist h scopes), ?_⟩
  induction f generalizing scopes with
  | nil => trivial
  | tree n below next hb hn =>
    obtain ⟨-, hmapped, hnext⟩ := Forest.forall_labels_tree.mp h
    rw [attributeVariables_tree] at hnodup
    have hbelow := hnodup.of_append_right.of_append_left
    refine ⟨nodeDistinct_of ?_ fun s => ⟨?_, hb hmapped hbelow s⟩, ?_⟩
    · exact hbelow.sublist (attributeVariables_sublist below.tops_sublist_labels)
    · exact hbelow.sublist (ahead_sublist hmapped s)
    · exact hn hnext hnodup.of_append_right.of_append_right scopes

/-- The output is distinct if no element has several mappings and no two attribute variables of the
whole tree are the same. -/
theorem outputDistinct_of_singleMapped (h : SingleMapped f.labels)
    (hnodup : (attributeVariables g f.labels).Nodup) : OutputDistinct g f := by
  cases f with
  | nil => trivial
  | tree n below next =>
    obtain ⟨hnode, hmapped, -⟩ := Forest.forall_labels_tree.mp h
    rw [attributeVariables_tree] at hnodup
    have hbelow := hnodup.of_append_right.of_append_left
    have htops := hbelow.sublist (attributeVariables_sublist (g := g) below.tops_sublist_labels)
    exact ⟨htops, htops.sublist (nodeAhead_sublist hnode),
      nodeDistinct_of htops (distinct_of_singleMapped hmapped hbelow)⟩

end SingleMapped

end Emission

open Emission

/-- No block of the output defines a variable twice exactly if no two attribute variables that come
into one block are the same. -/
theorem MappingTree.definesOnce_output_iff (t : MappingTree) (snippets : SnippetStore)
    (focus : Option Focus) : (t.program snippets focus).1.output.DefinesOnce ↔
      OutputDistinct ⟨snippets, focus.filter t.has⟩ t.numbered :=
  definesOnce_outputOf_iff (Numbering.nodup_tableNumbers t)

/-- No block of the output defines a variable twice if no element has several mappings and no two
attribute variables of the whole tree are the same. -/
theorem MappingTree.definesOnce_output {t : MappingTree} {snippets : SnippetStore}
    {focus : Option Focus} (hmapped : SingleMapped t.numbered.labels)
    (hnodup : (attributeVariables ⟨snippets, focus.filter t.has⟩ t.numbered.labels).Nodup) :
    (t.program snippets focus).1.output.DefinesOnce :=
  (definesOnce_outputOf_iff (Numbering.nodup_tableNumbers t)).mpr
    (outputDistinct_of_singleMapped hmapped hnodup)

/-- Mappings of a creator from two whole records, and of its attribute. -/
def wholeRecordEdits : List Edit :=
  [.attach { output := .ofNames ["record", "creator"], input := .ofNames ["m"] },
    .attach { output := .ofNames ["record", "creator"], input := .ofNames ["n"] },
    .attach
      { output := (Path.ofNames ["record", "creator"]).child (.attr none "id")
        input := .ofNames ["m", "id"] }]

/-- Two attributes whose names differ in a mark between the words have one variable. So has an
attribute of an element that is constructed twice in one block. -/
theorem codedRecord_redefines :
    (codedDeclaration.resolve = .ok codedRecord ∧
      let output := (((MappingTree.ofRecord codedRecord).afterEdits codedEdits).program
        (fun _ => none) none).1.output
      output.definitions = ["_attr_record_type_id", "_attr_record_type_id"] ∧
        ¬output.DefinesOnce) ∧
    creatorDeclaration.resolve = .ok creatorRecord ∧
      let output := (((MappingTree.ofRecord creatorRecord).afterEdits wholeRecordEdits).program
        (fun _ => none) none).1.output
      (∃ b ∈ output.blocks,
        b.definitions = ["_attr_record_creator_id", "_attr_record_creator_id"]) ∧
        ¬output.DefinesOnce := by
  constructor
  · constructor
    · with_unfolding_all rfl
    · constructor <;> decide +kernel
  · constructor
    · with_unfolding_all rfl
    · constructor <;> decide +kernel

end Crosswalk
