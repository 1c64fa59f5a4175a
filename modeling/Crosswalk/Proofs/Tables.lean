import Crosswalk.Proofs.Dictionary
import Crosswalk.Proofs.Origin
import Crosswalk.Proofs.Scoping

/-!
Tables and the functions that consult them. A function that consults a table is called for the
mapping that the table has the number of and for no other; and a table answers for every value as
the dictionary of its mapping does.
-/

namespace Crosswalk

/-! ### Calls of blocks -/

namespace Block

@[simp] theorem calls_append (a b : Block) : (a ++ b).calls = a.calls ++ b.calls := by
  induction a with
  | nil => rfl
  | simple s rest ih => rw [simple_append, calls, ih, calls, List.append_assoc]
  | nested o body rest _ ih => simp only [nested_append, calls, ih, List.append_assoc]

@[simp] theorem calls_one (s : Simple) : (one s).calls = s.calls := by
  rw [one, calls, calls, List.append_nil]

@[simp] theorem calls_around (o : Opening) (body : Block) :
    (around o body).calls = o.calls ++ body.calls := by
  rw [around, calls, calls, List.append_nil]

@[simp] theorem calls_scope (op : Operator) (var : String) (source : Expression) (body : Block) :
    (scope op var source body).calls = source.calls ++ body.calls := by
  unfold scope
  split <;> simp [Opening.calls, Expression.calls]

end Block

namespace Emission

variable {g : Setting} {n : NumberedNode}

/-! ### Calls of constructors -/

/-- Whether what is passed to a constructor and what guards it call nothing. -/
structure Arguments.Plain (a : Arguments) : Prop where
  values : ∀ v ∈ a.values, v.2.calls = []
  guards : ∀ e ∈ a.guards, e.calls = []

theorem calls_guarded {b : Block} {guards : List Expression} (h : ∀ e ∈ guards, e.calls = []) :
    (Arguments.guarded guards b).calls = b.calls := by
  induction guards with
  | nil => rfl
  | cons e guards ih =>
    rw [List.forall_mem_cons] at h
    have hrest := ih h.2
    rw [Arguments.guarded, List.foldr_cons] at *
    rw [Block.calls_around, hrest, Opening.calls, Condition.calls, h.1, List.nil_append]

theorem calls_construct {a : Arguments} (ha : a.Plain) {tag : Tag} {value : Option Expression}
    (hvalue : ∀ e ∈ value, e.calls = []) (body : Block) :
    (a.construct tag value body).calls = a.lets.calls ++ body.calls := by
  have hvalues : Expression.callsOfAll (a.values.map Prod.snd) = [] :=
    Expression.callsOfAll_eq_nil (List.forall_mem_map.mpr ha.values)
  have hown : Expression.callsOfAll value.toList = [] :=
    Expression.callsOfAll_eq_nil fun e he => hvalue e (Option.mem_toList.mp he)
  rw [Arguments.construct, Block.calls_append, calls_guarded ha.guards, Block.calls_around,
    Opening.calls, hvalues, hown, List.append_nil, List.nil_append]

theorem calls_wrap {frames : List Frame} (h : ∀ f ∈ frames, f.source.calls = []) (b : Block) :
    (wrap frames b).calls = b.calls := by
  induction frames with
  | nil => rfl
  | cons f frames ih =>
    rw [List.forall_mem_cons] at h
    have hrest := ih h.2
    rw [wrap, List.foldr_cons] at *
    rw [Block.calls_scope, hrest, h.1, List.nil_append]

/-! ### Calls of scopes -/

theorem calls_source_openSteps {final : Operator} {depth : Nat} : ∀ {ts : List Tag} {bound : Path}
    {var : String} {scopes : Scopes},
      ∀ f ∈ (openSteps final depth bound var scopes ts).frames, f.source.calls = []
  | [], _, _, _ => by simp [openSteps]
  | _ :: _, _, _, _ => List.forall_mem_cons.mpr ⟨rfl, calls_source_openSteps⟩

theorem calls_source_openInput (scopes : Scopes) (nm : NumberedMapping) :
    ∀ f ∈ (openInput scopes n nm).frames, f.source.calls = [] := by
  rw [openInput]
  split
  · exact calls_source_openSteps
  · rw [openJoin]
    split
    · exact calls_source_openSteps
    · exact List.forall_mem_append.mpr
        ⟨calls_source_openSteps, List.forall_mem_singleton.mpr rfl⟩

/-! ### Calls of nodes -/

/-- Whether a function consults the table of a mapping. -/
def ConsultsFor (nm : NumberedMapping) (function : String) : Prop :=
  ∃ k, nm.table = some k ∧ lookupName k = function

/-- Whether a function consults the table of a mapping of a node. -/
def Consults (n : NumberedNode) (function : String) : Prop :=
  ∃ nm ∈ n.numbered, ConsultsFor nm function

variable {scopes : Scopes} {ns : List NumberedNode} {function : String}

theorem calls_attributeBindings {nm : NumberedMapping} {var : String} :
    (attributeBindings g scopes n nm var).calls =
      if nm.mapping.literal?.isSome then [] else nm.table.toList.map lookupName := by
  simp only [attributeBindings]
  cases nm.mapping.literal? with
  | some s => rfl
  | none =>
    cases g.snippetOf n nm.mapping <;> cases nm.table <;>
      simp [Simple.calls, Opening.calls, Expression.calls, Expression.callsOfAll,
        calls_attributeSource]

theorem consults_attributeBindings {nm : NumberedMapping} {var : String}
    (h : function ∈ (attributeBindings g scopes n nm var).calls) : ConsultsFor nm function := by
  rw [calls_attributeBindings] at h
  split at h
  · cases h
  · obtain ⟨k, hk, hname⟩ := List.mem_map.mp h
    exact ⟨k, Option.mem_toList.mp hk, hname⟩

theorem consults_attributeLets : ∀ {ms : List NumberedMapping} {k : Nat},
    function ∈ (attributeLets g scopes n k ms).calls → ∃ nm ∈ ms, ConsultsFor nm function
  | nm :: _, _, h => by
    rw [attributeLets, Block.calls_append, marked, Block.calls_around, List.mem_append] at h
    rcases h with h | h
    · exact ⟨nm, List.mem_cons_self, consults_attributeBindings h⟩
    · obtain ⟨nm', hnm', h⟩ := consults_attributeLets h
      exact ⟨nm', List.mem_cons_of_mem _ hnm', h⟩

theorem plain_argumentsOf : (argumentsOf g scopes ns).Plain := by
  have hall : (argumentsOf g scopes ns).All fun e => e.calls = [] :=
    all_argumentsOf (fun _ => rfl) calls_attributeValue?
  exact ⟨hall.values, hall.guards⟩

theorem consults_argumentsOf (h : function ∈ (argumentsOf g scopes ns).lets.calls) :
    ∃ n ∈ ns, Consults n function := by
  induction ns with
  | nil => cases h
  | cons n ns ih =>
    rw [lets_argumentsOf_cons, Block.calls_append, List.mem_append] at h
    rcases h with h | h
    · split at h
      · obtain ⟨nm, hnm, h⟩ := consults_attributeLets h
        exact ⟨n, List.mem_cons_self, nm, Setting.mem_numbered_of_mem_emitted hnm, h⟩
      · cases h
    · obtain ⟨n', hn', h⟩ := ih h
      exact ⟨n', List.mem_cons_of_mem _ hn', h⟩

theorem calls_choiceValue? {e : Expression} (h : e ∈ choiceValue? n) : e.calls = [] := by
  obtain ⟨m, -, rfl⟩ := rootMembership?_of_choiceValue? h
  rfl

theorem calls_constructor {snippet : Option Snippet} {value : Expression}
    (hvalue : value.calls = []) (inner : Scopes → Block) :
    (constructor g scopes n ns snippet value inner).calls =
      (argumentsOf g scopes ns).lets.calls ++ if n.leaf then [] else (inner scopes).calls := by
  have hcode : (snippet.elim Block.nil fun s => .one (.code s.code)).calls = [] := by
    cases snippet <;> rfl
  simp only [constructor]
  split
  · cases snippet with
    | some s => rw [calls_construct plain_argumentsOf (by simp), hcode]
    | none =>
      rw [calls_construct plain_argumentsOf]
      · rfl
      · intro e he
        obtain rfl := Option.some.inj he
        cases hchoice : choiceValue? n with
        | some e => exact calls_choiceValue? hchoice
        | none => exact hvalue
  · rw [calls_construct plain_argumentsOf fun e => calls_choiceValue?, Block.calls_append, hcode,
      List.nil_append]

theorem calls_emit {nm : NumberedMapping} {value : Expression} (hvalue : value.calls = [])
    (inner : Scopes → Block) : (emit g scopes n ns nm value inner).calls =
      nm.table.toList.map lookupName ++ ((argumentsOf g scopes ns).lets.calls ++
        if n.leaf then [] else (inner scopes).calls) := by
  simp only [emit]
  split
  · next k hk =>
    rw [Block.calls, Block.calls_around, calls_constructor rfl, hk]
    simp [Simple.calls, Opening.calls, Condition.calls, Expression.calls, Expression.callsOfAll,
      hvalue]
  · next hk =>
    rw [calls_constructor hvalue, hk]
    rfl

theorem calls_fallback (snippet : Option Snippet) : (fallback n snippet).calls = [] := by
  rw [fallback]
  split
  · rfl
  · rfl

theorem calls_mappingBlock (nm : NumberedMapping) (inner : Scopes → Block) :
    (mappingBlock g scopes n ns nm inner).calls =
      nm.table.toList.map lookupName ++
        ((argumentsOf g (innerScopes scopes n nm) ns).lets.calls ++
          if n.leaf then [] else (inner (innerScopes scopes n nm)).calls) := by
  simp only [mappingBlock, innerScopes, Block.calls_append, calls_fallback, List.append_nil]
  cases nm.mapping.literal? with
  | some s => exact calls_emit rfl inner
  | none => rw [calls_wrap (calls_source_openInput scopes nm), calls_emit rfl]

/-- What is called comes from the nodes whose tables are consulted for it. -/
theorem comesFrom_calls (g : Setting) (function : String) :
    ComesFrom g (fun b => function ∈ b.calls)
      fun n below => Consults n function ∨ ∃ a ∈ below.tops, Consults a function where
  nil := List.not_mem_nil
  append h := by rwa [Block.calls_append, List.mem_append] at h
  marked _ _ h := by
    rw [marked, Block.calls_around] at h
    exact .inr h
  mapping hnm h := by
    rw [calls_mappingBlock, List.mem_append, List.mem_append] at h
    rcases h with h | h | h
    · obtain ⟨k, hk, hf⟩ := List.mem_map.mp h
      rw [Option.mem_toList] at hk
      refine .inl (.inl ⟨_, hnm.resolve_left ?_, k, hk, hf⟩)
      rw [hk]
      exact Option.some_ne_none k
    · exact .inl (.inr (consults_argumentsOf h))
    · split at h
      · cases h
      · exact .inr ⟨_, h⟩
  construct hvalue h := by
    rw [calls_construct plain_argumentsOf hvalue, List.mem_append] at h
    exact h.imp_left fun h => .inr (consults_argumentsOf h)

/-- Every function that the output calls consults the table of a mapping. -/
theorem consults_outputOf {f : Forest NumberedNode} (h : function ∈ (outputOf g f).calls) :
    ∃ n ∈ f.labels, Consults n function :=
  Forest.exists_label_of_subtree ((comesFrom_calls g function).outputOf h)

end Emission

/-! ### Numbers of tables -/

namespace Numbering

/-- The numbers of the tables of a node's mappings. -/
def tableNumbers (n : NumberedNode) : List Nat := n.numbered.filterMap NumberedMapping.table

theorem filterMap_table_numberMappings {n : Node} {ms : List Mapping} : ∀ {tables joined : Nat},
    (numberMappings n tables joined ms).filterMap NumberedMapping.table =
      List.range' (tables + 1) (ms.countP consults) := by
  induction ms with
  | nil => intros; rfl
  | cons m ms ih =>
    intro tables joined
    rw [numberMappings, List.filterMap_cons, ih, List.countP_cons]
    cases consults m with
    | false => rfl
    | true =>
      simp only [next?, if_true, Bool.toNat_true]
      rw [List.range'_succ]

theorem tableNumbers_numberNode (tables joined : Nat) (n : Node) :
    tableNumbers (numberNode tables joined n) = List.range' (tables + 1) (tableCount n) :=
  filterMap_table_numberMappings

/-- The tables of a forest are numbered in the order of its nodes, one after the other. -/
theorem tableNumbers_number : ∀ {f : Forest Node} {tables joined : Nat},
    (number tables joined f).labels.flatMap tableNumbers =
      List.range' (tables + 1) (total tableCount f)
  | .nil, _, _ => rfl
  | .tree n below next, tables, joined => by
    rw [number, Forest.labels, List.flatMap_cons, List.flatMap_append, tableNumbers_number,
      tableNumbers_number, tableNumbers_numberNode, total]
    have hbelow : tables + tableCount n + 1 = tables + 1 + 1 * tableCount n := by omega
    have hnext : tables + tableCount n + total tableCount below + 1 =
        tables + 1 + 1 * (tableCount n + total tableCount below) := by omega
    rw [hbelow, hnext, ← List.append_assoc, List.range'_append, List.range'_append]

theorem nodup_tableNumbers (t : MappingTree) : (t.numbered.labels.flatMap tableNumbers).Nodup := by
  rw [MappingTree.numbered, tableNumbers_number]
  exact List.nodup_range'

theorem isSome_table {n : Node} {nm : NumberedMapping} :
    ∀ {ms : List Mapping} {tables joined : Nat},
    nm ∈ numberMappings n tables joined ms → nm.table.isSome = consults nm.mapping
  | m :: _, _, _, h => by
    rw [numberMappings] at h
    rcases List.mem_cons.mp h with rfl | h
    · dsimp only [next?]
      cases consults m <;> rfl
    · exact isSome_table h

/-- The mappings that consult a dictionary are those that have a number. -/
theorem isSome_table_of_mem {t : MappingTree} {n : NumberedNode} {nm : NumberedMapping}
    (hn : n ∈ t.numbered.labels) (hnm : nm ∈ n.numbered) :
    nm.table.isSome = consults nm.mapping := by
  obtain ⟨_, -, _, _, rfl⟩ := mem_labels_number hn
  exact isSome_table hnm

theorem dictionary_of_table {t : MappingTree} {n : NumberedNode} {nm : NumberedMapping} {k : Nat}
    (hn : n ∈ t.numbered.labels) (hnm : nm ∈ n.numbered) (hk : nm.table = some k) :
    ∃ d, nm.mapping.dictionary = some d := by
  have hconsults := isSome_table_of_mem hn hnm
  rw [hk, Option.isSome_some, consults, eq_comm, Bool.and_eq_true] at hconsults
  exact Option.isSome_iff_exists.mp hconsults.1

end Numbering

/-! ### Entries of tables -/

namespace Emission

/-- The table of a node's mapping has what its dictionary has for a value, if that is what the node
stands for. -/
theorem mem_decided_dictionaryOf {n : Node} {d : Dictionary} {s term : String} :
    (normalize s, term) ∈ (dictionaryOf n d).decided ↔
      d.lookup? s = some term ∧ ∀ m ∈ n.rootMembership?, term = m.choice.value := by
  rw [Dictionary.mem_decided_iff, dictionaryOf]
  cases n.rootMembership? with
  | none => simp
  | some m => simp [Dictionary.lookup?_withTerm]

theorem lookupName_injective {i j : Nat} (h : lookupName i = lookupName j) : i = j := by
  have hl := congrArg String.toList h
  simp only [lookupName, String.toList_append, List.append_cancel_left_eq] at hl
  exact toString_nat_injective (String.toList_injective hl)

end Emission

end Crosswalk
