import Crosswalk.Proofs.OpenScopes

/-!
Hoisted tables. A table is declared where a mapping first consults it, and never again; emission
visits some mappings several times and others not at all. What it has declared in the end is what
the calls in the output ask for, each table once and in the order of the first calls: a computation
that emits calls declares exactly the tables that they consult, in turn.
-/

namespace Crosswalk

namespace Emission

/-! ### Tables of nodes -/

theorem mem_tablesOf_iff {n : NumberedNode} {table : HoistedTable} : table ∈ tablesOf n ↔
    ∃ nm ∈ n.numbered, nm.table = some table.number ∧
      ∃ d, nm.mapping.dictionary = some d ∧ table.dictionary = dictionaryOf n.toNode d := by
  rw [tablesOf, List.mem_filterMap]
  refine exists_congr fun nm => and_congr_right fun _ => ?_
  cases nm.table with
  | none => simp
  | some k =>
    cases nm.mapping.dictionary with
    | none => simp
    | some d =>
      obtain ⟨number, dictionary⟩ := table
      simp [eq_comm]

theorem map_number_tablesOf {n : NumberedNode} (h : ∀ nm ∈ n.numbered, ∀ k, nm.table = some k →
    ∃ d, nm.mapping.dictionary = some d) :
    (tablesOf n).map HoistedTable.number = Numbering.tableNumbers n := by
  rw [tablesOf, Numbering.tableNumbers, List.map_filterMap]
  refine List.filterMap_congr fun nm hnm => ?_
  cases hk : nm.table with
  | none => rfl
  | some k =>
    obtain ⟨d, hd⟩ := h nm hnm k hk
    rw [hd]
    rfl

/-! ### Tables that calls consult -/

/-- The table that a function consults. -/
def tableFor? (tables : List HoistedTable) (function : String) : Option HoistedTable :=
  tables.find? fun table => lookupName table.number == function

/-- The tables that some functions consult, in the order of the first calls. -/
def consulted (tables : List HoistedTable) (functions : List String) : List HoistedTable :=
  functions.eraseDups.filterMap (tableFor? tables)

variable {tables : List HoistedTable} {functions : List String} {function : String}
  {table : HoistedTable}

theorem lookupName_of_tableFor? (h : tableFor? tables function = some table) :
    lookupName table.number = function := by
  simpa using List.find?_some h

/-- Among tables with numbers of their own, a function has the table with its number. -/
theorem tableFor?_eq_some_iff (hnodup : (tables.map HoistedTable.number).Nodup) :
    tableFor? tables function = some table ↔
      table ∈ tables ∧ lookupName table.number = function := by
  constructor
  · exact fun h => ⟨List.mem_of_find?_eq_some h, lookupName_of_tableFor? h⟩
  · rintro ⟨hmem, rfl⟩
    cases h : tableFor? tables (lookupName table.number) with
    | none => exact absurd (List.find?_eq_none.mp h table hmem) (by simp)
    | some found =>
      rw [List.inj_on_of_nodup_map hnodup (List.mem_of_find?_eq_some h) hmem
        (lookupName_injective (lookupName_of_tableFor? h))]

theorem hoisted_eq (tables : List HoistedTable) (code : Block) :
    hoisted tables code = (consulted tables code.calls).flatMap declarations := by
  rw [hoisted, consulted]
  induction code.calls.eraseDups with
  | nil => rfl
  | cons function rest ih =>
    rw [List.flatMap_cons, List.filterMap_cons, ih, tableFor?]
    cases tables.find? fun table => lookupName table.number == function with
    | none => rfl
    | some table => rfl

theorem mem_consulted_iff :
    table ∈ consulted tables functions ↔
      ∃ function ∈ functions, tableFor? tables function = some table := by
  simp only [consulted, List.mem_filterMap, List.mem_eraseDups]

/-- The number of the table that a function consults is consulted where the function is called. -/
theorem mem_numbers_consulted_iff (h : tableFor? tables function = some table) :
    table.number ∈ (consulted tables functions).map HoistedTable.number ↔
      function ∈ functions := by
  rw [List.mem_map]
  constructor
  · rintro ⟨other, hother, hnumber⟩
    obtain ⟨function', hmem, hfor⟩ := mem_consulted_iff.mp hother
    rwa [← lookupName_of_tableFor? h, ← hnumber, lookupName_of_tableFor? hfor]
  · exact fun hmem => ⟨table, mem_consulted_iff.mpr ⟨function, hmem, h⟩, rfl⟩

theorem nodup_eraseDups : ∀ names : List String, names.eraseDups.Nodup
  | [] => List.nodup_nil
  | name :: rest => by
    rw [List.eraseDups_cons, List.nodup_cons, List.mem_eraseDups]
    exact ⟨by simp, nodup_eraseDups _⟩
termination_by names => names.length
decreasing_by exact Nat.lt_succ_of_le (List.length_filter_le ..)

theorem nodup_consulted : ((consulted tables functions).map HoistedTable.number).Nodup := by
  rw [consulted, List.map_filterMap]
  refine List.Nodup.filterMap (fun f f' k hk hk' => ?_) (nodup_eraseDups _)
  have hname {f : String} (hk : k ∈ (tableFor? tables f).map HoistedTable.number) :
      lookupName k = f := by
    obtain ⟨table, hfound, rfl⟩ := Option.map_eq_some_iff.mp hk
    exact lookupName_of_tableFor? hfound
  rw [← hname hk, hname hk']

/-- One more call consults a table if the function has one and has not been called. -/
theorem consulted_concat : consulted tables (functions ++ [function]) =
    consulted tables functions ++
      if function ∈ functions then [] else (tableFor? tables function).toList := by
  rw [consulted, List.eraseDups_append, List.filterMap_append, ← consulted, List.removeAll]
  by_cases hmem : function ∈ functions
  · simp [hmem]
  · cases h : tableFor? tables function <;> simp [hmem, h, List.eraseDups_cons]

/-! ### Declarations for calls -/

/-- Declares the tables that some functions consult, in turn. -/
def Ledger.declareAll (tables : List HoistedTable) (l : Ledger) (functions : List String) :
    Ledger :=
  functions.foldl (fun l function => (tableFor? tables function).elim l l.declare) l

theorem Ledger.declareAll_append (l : Ledger) (functions functions' : List String) :
    l.declareAll tables (functions ++ functions') =
      (l.declareAll tables functions).declareAll tables functions' :=
  List.foldl_append

/-- What has been declared for some calls are the tables that they consult, each once. -/
theorem declareAll_start : Ledger.declareAll tables {} functions =
    ⟨((consulted tables functions).map HoistedTable.number).reverse,
      (consulted tables functions).flatMap declarations⟩ := by
  induction functions using List.reverseRecOn with
  | nil => rfl
  | append_singleton functions function ih =>
    rw [Ledger.declareAll_append, ih, consulted_concat]
    change (tableFor? tables function).elim _ _ = _
    cases h : tableFor? tables function with
    | none => simp
    | some table =>
      have hdeclared : table.number ∈ (consulted tables functions).map HoistedTable.number ↔
          function ∈ functions := mem_numbers_consulted_iff h
      rw [← List.mem_reverse] at hdeclared
      simp only [Option.elim_some, Ledger.declare, hdeclared]
      by_cases hmem : function ∈ functions <;> simp [hmem]

/-- Whether a computation declares the tables that some functions consult, in turn. -/
def Declares (tables : List HoistedTable) {α : Type} (x : Stacked α)
    (calls : Scopes → List String) : Prop :=
  ∀ m, (x m).2.ledger = m.ledger.declareAll tables (calls m.scopes)

namespace Declares

open Stacked

variable {α β : Type} {x : Stacked α} {y : Stacked β} {f : Scopes → α} {c d : Scopes → List String}

theorem congr (h : Declares tables x c) (hcalls : ∀ s, c s = d s) : Declares tables x d :=
  fun m => hcalls m.scopes ▸ h m

theorem const (a : α) : Declares tables (pure a) fun _ => [] := fun _ => rfl

theorem bind {k : α → Stacked β} (he : Emits x f) (hx : Declares tables x c)
    (hk : ∀ s, Declares tables (k (f s)) d) :
    Declares tables (do let a ← x; k a) fun s => c s ++ d s := fun m => by
  have hrest := hk m.scopes (x m).2
  rw [he.scopes, hx, ← Ledger.declareAll_append, ← he.result] at hrest
  exact hrest

theorem map (hx : Declares tables x c) (k : α → β) :
    Declares tables (do let a ← x; pure (k a)) c := hx

theorem map₂ {γ : Type} (he : Emits x f) (hx : Declares tables x c) (hy : Declares tables y d)
    (k : α → β → γ) :
    Declares tables (do let a ← x; let b ← y; pure (k a b)) fun s => c s ++ d s :=
  bind he hx fun _ => hy.map _

theorem joined {x : α → Stacked Block} {f : Scopes → α → Block} : ∀ {as : List α},
    (∀ a ∈ as, Emits (x a) fun s => f s a) →
    (∀ a ∈ as, Declares tables (x a) fun s => (f s a).calls) →
      Declares tables (Stacked.joined (as.map x)) fun s => (Block.join (as.map (f s))).calls
  | [], _, _ => const Block.nil
  | _ :: _, he, hx => by
    rw [List.forall_mem_cons] at he hx
    exact (map₂ he.1 hx.1 (joined he.2 hx.2) (· ++ ·)).congr fun s => (Block.calls_append ..).symm

end Declares

/-! ### Declarations of nodes -/

/-- Whether a table is there for a mapping of a node, if the mapping consults one. -/
def Listed (tables : List HoistedTable) (n : NumberedNode) (nm : NumberedMapping) : Prop :=
  ∀ k, nm.table = some k → ∃ d, nm.mapping.dictionary = some d ∧
    tableFor? tables (lookupName k) = some ⟨k, dictionaryOf n.toNode d⟩

theorem listed_of_none {n : NumberedNode} {nm : NumberedMapping} (h : nm.table = none) :
    Listed tables n nm := by
  intro k hk
  rw [h] at hk
  cases hk

/-- Whether the tables are there for all mappings of some nodes. -/
def Lists (tables : List HoistedTable) (ns : List NumberedNode) : Prop :=
  ∀ n ∈ ns, ∀ nm ∈ n.numbered, Listed tables n nm

theorem Lists.tops {f : Forest NumberedNode} (h : Lists tables f.labels) : Lists tables f.tops :=
  fun a ha => h a (Forest.mem_labels_of_mem_tops ha)

theorem Lists.of_tree {n : NumberedNode} {below next : Forest NumberedNode}
    (h : Lists tables (Forest.tree n below next).labels) :
    (∀ nm ∈ n.numbered, Listed tables n nm) ∧ Lists tables below.labels ∧
      Lists tables next.labels := by
  rwa [Lists, Forest.labels, List.forall_mem_cons, List.forall_mem_append] at h

namespace Stacked

variable {g : Setting} {n : NumberedNode} {ns : List NumberedNode} {nm : NumberedMapping}
  {below : Forest NumberedNode}

theorem declares_consult (h : Listed tables n nm) {k : Nat} (hk : nm.table = some k) :
    Declares tables (consult n nm k) fun _ => [lookupName k] := fun m => by
  obtain ⟨d, hd, htable⟩ := h k hk
  rw [consult, hd]
  change _ = (tableFor? tables (lookupName k)).elim _ _
  rw [htable]
  rfl

theorem declares_attributeBindings (h : Listed tables n nm) (var : String) :
    Declares tables (attributeBindings g n nm var) fun s =>
      (Emission.attributeBindings g s n nm var).calls := by
  simp only [calls_attributeBindings, attributeBindings]
  intro m
  cases nm.mapping.literal? with
  | some s => rfl
  | none =>
    cases hk : nm.table with
    | none => cases g.snippetOf n nm.mapping <;> rfl
    | some k => cases g.snippetOf n nm.mapping <;> exact declares_consult h hk m

theorem declares_attributeLets : ∀ {nms : List NumberedMapping} {k : Nat},
    (∀ nm ∈ nms, Listed tables n nm) → Declares tables (attributeLets g n k nms) fun s =>
      (Emission.attributeLets g s n k nms).calls
  | [], _, _ => .const Block.nil
  | nm :: rest, _, h => by
    rw [List.forall_mem_cons] at h
    refine (Declares.map₂ (reads_attributeBindings nm _).emits (declares_attributeBindings h.1 _)
      (declares_attributeLets h.2) fun block others => marked nm.mapping block ++ others).congr ?_
    intro s
    rw [Emission.attributeLets, Block.calls_append, marked, Block.calls_around]
    rfl

theorem declares_attributeArguments (h : ∀ nm ∈ n.numbered, Listed tables n nm) :
    Declares tables (attributeArguments g n) fun s =>
      (Emission.attributeArguments g s n).lets.calls := by
  simp only [attributeArguments, Emission.attributeArguments]
  cases n.fixedMembership? with
  | some m => exact .const _
  | none =>
    cases attributeValue? n.path (g.emitted n) with
    | none => exact .const _
    | some value =>
      exact declares_attributeLets fun nm hnm => h nm (Setting.mem_numbered_of_mem_emitted hnm)

theorem declares_argumentsOf : ∀ {ns : List NumberedNode}, Lists tables ns →
    Declares tables (argumentsOf g ns) fun s => (Emission.argumentsOf g s ns).lets.calls
  | [], _ => .const ({} : Arguments)
  | n :: rest, h => by
    rw [Lists, List.forall_mem_cons] at h
    simp only [argumentsOf, Emission.argumentsOf]
    split
    · refine (Declares.map₂ (reads_attributeArguments n).emits (declares_attributeArguments h.1)
        (declares_argumentsOf h.2) (· ++ ·)).congr fun s => ?_
      rw [lets_append, Block.calls_append]
    · exact declares_argumentsOf h.2

theorem ledger_openSteps {final : Operator} {depth : Nat} : ∀ (ts : List Tag) (bound : Path)
    (var : String) (m : Machine), (openSteps final depth bound var ts m).2.ledger = m.ledger
  | [], _, _, _ => rfl
  | t :: ts, bound, _, m =>
    let b : Binding := ⟨.path (bound.child t), m.scopes.freshVar t⟩
    ledger_openSteps ts (bound.child t) b.var (push b _ m).2

theorem ledger_openInput (m : Machine) : (openInput n nm m).2.ledger = m.ledger := by
  rw [openInput]
  cases nm.join with
  | none => exact ledger_openSteps ..
  | some k =>
    simp only [bind, pure, openJoin_eq]
    split <;> exact ledger_openSteps ..

theorem ledger_close : ∀ (frames : List Frame) (block : Block) (m : Machine),
    (close frames block m).2.ledger = m.ledger
  | [], _, _ => rfl
  | f :: frames, block, m =>
    ledger_close frames (Block.scope f.operator f.var f.source block) (pop m).2

variable {inner : Stacked Block} {f : Scopes → Block}

/-- The calls of a constructor of a node: those of its table, of its attributes and of what is below
it, in this order. -/
theorem declares_emit (hn : Listed tables n nm) (hns : Lists tables ns)
    (hinner : Declares tables inner fun s => (f s).calls) (value : Expression) :
    Declares tables (emit g n ns nm value inner) fun s =>
      nm.table.toList.map lookupName ++ ((Emission.argumentsOf g s ns).lets.calls ++
        if n.leaf then [] else (f s).calls) := by
  have hconstructor (value : Expression) :
      Declares tables (constructor g n ns (g.snippetOf n nm.mapping) value inner) fun s =>
        (Emission.argumentsOf g s ns).lets.calls ++ if n.leaf then [] else (f s).calls := by
    refine .bind (reads_argumentsOf ns).emits (declares_argumentsOf hns) fun s => ?_
    cases n.leaf with
    | true => cases g.snippetOf n nm.mapping <;> exact .const _
    | false => exact hinner
  rw [emit]
  cases hk : nm.table with
  | none => exact hconstructor value
  | some k =>
    exact .bind (reads_consult nm k).emits (declares_consult hn hk) fun _ => hconstructor _

theorem declares_mapping (hn : Listed tables n nm) (hns : Lists tables ns)
    (hinner : Declares tables inner fun s => (f s).calls) :
    Declares tables (mapping g n ns nm inner) fun s => (mappingBlock g s n ns nm f).calls := by
  simp only [calls_mappingBlock, innerScopes, mapping]
  intro m
  cases nm.mapping.literal? with
  | some s => exact declares_emit hn hns hinner _ m
  | none =>
    have hemit := declares_emit hn hns hinner (g := g) (.var (openInput n nm m).1.2)
      (openInput n nm m).2
    rw [ledger_openInput, (openInput_apply n nm m).2] at hemit
    exact (ledger_close ..).trans hemit

theorem declares_branch {isRoot : Bool} (h : Lists tables below.tops)
    (hinner : Declares tables inner fun s => (f s).calls) :
    Declares tables (branch g isRoot n below inner) fun s =>
      (Emission.branch g isRoot s n below f).calls := by
  simp only [branch, Emission.branch]
  cases if isRoot || n.leaf then none else commonParent? below with
  | some parent => exact declares_mapping (listed_of_none rfl) h hinner
  | none =>
    refine (Declares.map₂ (reads_argumentsOf below.tops).emits (declares_argumentsOf h) hinner
      fun args body => if args.values.isEmpty && body.isEmpty then Block.nil
        else args.construct n.tag none body).congr fun s => ?_
    dsimp only
    split
    · next hempty =>
      rw [Bool.and_eq_true, List.isEmpty_iff] at hempty
      rw [lets_argumentsOf_of_values hempty.1, Block.isEmpty_eq_true hempty.2]
      rfl
    · rw [calls_construct plain_argumentsOf (by simp)]

theorem declares_node {isRoot : Bool} (hn : ∀ nm ∈ n.numbered, Listed tables n nm)
    (h : Lists tables below.tops) (he : Emits inner f)
    (hinner : Declares tables inner fun s => (f s).calls) :
    Declares tables (node g isRoot n below inner) fun s =>
      (nodeBlock g isRoot s n below f).calls := by
  simp only [node, nodeBlock]
  split
  · exact .const Block.nil
  split
  · cases n.fixedValue? with
    | some text =>
      refine ((declares_argumentsOf h).map fun args =>
        args.construct n.tag (some (.literal text)) .nil).congr fun s => ?_
      rw [calls_construct plain_argumentsOf (by simp [Expression.calls]), Block.calls,
        List.append_nil]
    | none => exact .const Block.nil
  split
  · exact .const Block.nil
  split
  · refine .joined (fun nm _ => (emits_mapping he).map (marked nm.mapping)) fun nm hnm => ?_
    refine ((declares_mapping (hn nm (Setting.mem_numbered_of_mem_emitted hnm)) h hinner).map
      (marked nm.mapping)).congr fun s => ?_
    rw [marked, Block.calls_around]
    rfl
  · exact declares_branch h hinner

theorem declares_block : ∀ {f : Forest NumberedNode}, Lists tables f.labels →
    Declares tables (block g f) fun s => (blockOf g f s).calls
  | .nil, _ => .const Block.nil
  | .tree n below next, h => by
    obtain ⟨hn, hbelow, hnext⟩ := h.of_tree
    have hfirst : Declares tables (node g false n below (block g below)) _ :=
      declares_node hn hbelow.tops emits_block (declares_block hbelow)
    exact (Declares.map₂ (emits_node emits_block) hfirst (declares_block hnext)
      (· ++ ·)).congr fun s => (Block.calls_append ..).symm

theorem declares_output {f : Forest NumberedNode} (h : Lists tables f.labels) {m : Machine}
    (hm : m.scopes = []) :
    (output g f m).2.ledger = m.ledger.declareAll tables (outputOf g f).calls := by
  cases f with
  | nil => rfl
  | tree n below next =>
    obtain ⟨hn, hbelow, -⟩ := h.of_tree
    have hnode : Emits (node g true n below (block g below)) _ := emits_node emits_block
    have hdeclares : Declares tables (node g true n below (block g below)) _ :=
      declares_node hn hbelow.tops emits_block (declares_block hbelow)
    have hscopes := (hnode.scopes m).trans hm
    have hresult := hnode.result m
    have hledger := hdeclares m
    rw [hm] at hresult hledger
    have houtput : output g (.tree n below next) m =
        (if (nodeBlock g true [] n below (blockOf g below)).isEmpty then do
            let args ← argumentsOf g below.tops
            pure (args.construct n.tag none .nil)
          else pure (nodeBlock g true [] n below (blockOf g below)) : Stacked Block)
          (node g true n below (block g below) m).2 := by
      rw [← hresult]
      rfl
    simp only [houtput, outputOf]
    split
    · next hempty =>
      -- an empty block calls nothing, so all that is called is in the arguments
      rw [Block.isEmpty_eq_true hempty] at hledger
      have hargs := declares_argumentsOf (g := g) hbelow.tops
        (node g true n below (block g below) m).2
      rw [hscopes, hledger] at hargs
      rw [calls_construct plain_argumentsOf (by simp), Block.calls, List.append_nil]
      exact hargs
    · exact hledger

end Stacked

end Emission

open Emission Crosswalk.Numbering

/-! ### Tables of a mapping tree -/

namespace MappingTree

variable (t : MappingTree) (snippets : SnippetStore) (focus : Option Focus)

/-- The tables of all mappings of a tree. -/
def tables : List HoistedTable := t.numbered.labels.flatMap tablesOf

theorem map_number_tables :
    t.tables.map HoistedTable.number = t.numbered.labels.flatMap tableNumbers := by
  rw [tables, List.map_flatMap]
  exact List.flatMap_congr fun n hn =>
    map_number_tablesOf fun nm hnm k => dictionary_of_table hn hnm

theorem nodup_tables : (t.tables.map HoistedTable.number).Nodup :=
  t.map_number_tables ▸ nodup_tableNumbers t

theorem lists_tables : Lists t.tables t.numbered.labels := by
  intro n hn nm hnm k hk
  obtain ⟨d, hd⟩ := dictionary_of_table hn hnm hk
  refine ⟨d, hd, (tableFor?_eq_some_iff t.nodup_tables).mpr ⟨?_, rfl⟩⟩
  exact List.mem_flatMap.mpr ⟨n, hn, mem_tablesOf_iff.mpr ⟨nm, hnm, hk, d, hd, rfl⟩⟩

/-- What has been declared in the end are the tables that the calls in the output consult. -/
theorem ledger_emission : (t.emission snippets focus).2.ledger =
    let consulted := consulted t.tables (t.program snippets focus).1.output.calls
    ⟨(consulted.map HoistedTable.number).reverse, consulted.flatMap declarations⟩ := by
  have houtput := Stacked.declares_output (g := { snippets, focus := focus.filter t.has })
    t.lists_tables (m := {}) rfl
  exact houtput.trans declareAll_start

/-- A function that the output calls has a table. -/
theorem exists_table_of_call {function : String}
    (h : function ∈ (t.program snippets focus).1.output.calls) :
    ∃ table, tableFor? t.tables function = some table := by
  obtain ⟨n, hn, nm, hnm, k, hk, rfl⟩ := consults_outputOf h
  obtain ⟨d, -, htable⟩ := t.lists_tables n hn nm hnm k hk
  exact ⟨_, htable⟩

end MappingTree

/-- Whether numbered tables are those that the code of a mapping tree asks for, with what the
dictionaries of its mappings have for each value. -/
structure MappingTree.Hoists (t : MappingTree) (code : Block)
    (tables : List (Nat × List (String × String))) : Prop where
  distinct : (tables.map Prod.fst).Nodup
  called : ∀ k, k ∈ tables.map Prod.fst ↔ lookupName k ∈ code.calls
  owned : ∀ k ∈ tables.map Prod.fst, ∃ n ∈ t.numbered.labels, k ∈ tableNumbers n
  /-- At a node that stands for a choice only what selects the choice is there. -/
  agrees : ∀ n ∈ t.numbered.labels, ∀ nm ∈ n.numbered, ∀ k entries, nm.table = some k →
    (k, entries) ∈ tables → ∃ d, nm.mapping.dictionary = some d ∧ ∀ s term,
      (normalize s, term) ∈ entries ↔
        d.lookup? s = some term ∧ ∀ m ∈ n.rootMembership?, term = m.choice.value

/-- The tables that a program declares are those that its output consults, each once and after the
namespaces, and they answer as the dictionaries of their mappings do. Emission that declares a table
where it is first consulted has the same output, and has declared these tables and no others. The
mappings that consult a dictionary have numbers of their own. -/
theorem MappingTree.hoists_prologue (t : MappingTree) (snippets : SnippetStore)
    (focus : Option Focus) :
    (∃ tables, (t.program snippets focus).1.prologue =
        .ofSimple (namespaceDeclarations t.namespaces ++ tables.flatMap fun table =>
          [.table (tableName table.1) table.2, .lookup (lookupName table.1) (tableName table.1)]) ∧
      (t.emission snippets focus).1 = (t.program snippets focus).1.output ∧
      (t.emission snippets focus).2.ledger =
        { declared := (tables.map Prod.fst).reverse
          statements := tables.flatMap fun table =>
            [.table (tableName table.1) table.2,
              .lookup (lookupName table.1) (tableName table.1)] } ∧
      t.Hoists (t.program snippets focus).1.output tables) ∧
    (∀ n ∈ t.numbered.labels, ∀ nm ∈ n.numbered,
      nm.table.isSome = (nm.mapping.dictionary.isSome && !nm.mapping.isConstant)) ∧
    (t.numbered.labels.flatMap tableNumbers).Nodup := by
  let output := (t.program snippets focus).1.output
  let called := consulted t.tables output.calls
  let tables := called.map fun table => (table.number, table.dictionary.decided)
  have hfst : tables.map Prod.fst = called.map HoistedTable.number := List.map_map
  have hpairs : (tables.flatMap fun table => [Simple.table (tableName table.1) table.2,
      .lookup (lookupName table.1) (tableName table.1)]) = called.flatMap declarations :=
    List.flatMap_map ..
  have hmem {table : HoistedTable} (h : table ∈ called) : table ∈ t.tables := by
    obtain ⟨function, -, hfor⟩ := mem_consulted_iff.mp h
    exact ((tableFor?_eq_some_iff t.nodup_tables).mp hfor).1
  refine ⟨⟨tables, ?_, (Stacked.emits_output rfl .start).1, ?_,
    ⟨?_, fun k => ?_, fun k hk => ?_, ?_⟩⟩,
    fun n hn nm hnm => isSome_table_of_mem hn hnm, nodup_tableNumbers t⟩
  · rw [hpairs]
    exact congrArg Block.ofSimple (congrArg _ (hoisted_eq t.tables output))
  · rw [hpairs, hfst]
    exact t.ledger_emission snippets focus
  · rw [hfst]
    exact nodup_consulted
  · rw [hfst]
    constructor
    · intro hk
      obtain ⟨table, htable, rfl⟩ := List.mem_map.mp hk
      obtain ⟨function, hcall, hfor⟩ := mem_consulted_iff.mp htable
      exact lookupName_of_tableFor? hfor ▸ hcall
    · intro hcall
      obtain ⟨table, hfor⟩ := t.exists_table_of_call snippets focus hcall
      rw [← lookupName_injective (lookupName_of_tableFor? hfor)]
      exact (mem_numbers_consulted_iff hfor).mpr hcall
  · rw [hfst] at hk
    obtain ⟨table, htable, rfl⟩ := List.mem_map.mp hk
    have hmap := List.mem_map_of_mem (f := HoistedTable.number) (hmem htable)
    rw [t.map_number_tables] at hmap
    exact List.mem_flatMap.mp hmap
  · intro n hn nm hnm k entries hk hentries
    obtain ⟨d, hd, hown⟩ := t.lists_tables n hn nm hnm k hk
    obtain ⟨table, htable, heq⟩ := List.mem_map.mp hentries
    obtain ⟨rfl, rfl⟩ := Prod.mk.inj heq
    have hsame : some table = some ⟨table.number, dictionaryOf n.toNode d⟩ :=
      ((tableFor?_eq_some_iff t.nodup_tables).mpr ⟨hmem htable, rfl⟩).symm.trans hown
    refine ⟨d, hd, fun s term => ?_⟩
    rw [congrArg HoistedTable.dictionary (Option.some.inj hsame)]
    exact mem_decided_dictionaryOf

end Crosswalk
