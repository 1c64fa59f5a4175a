import Crosswalk.Proofs.Sites
import Crosswalk.Proofs.Tables
import Mathlib.Data.List.Flatten

/-!
Values that tables stand for. An element whose value a table stands for is constructed only behind
the lookup and only if that found something, and so is all that is below it. An element is
constructed only if each of its attributes that a table stands for has a value. The variable of such
an attribute is bound to the lookup last, but it may be bound again for another attribute of the
element before the element is constructed.
-/

namespace Crosswalk

open Emission

/-! ### Marks and the mappings that they are from -/

/-- Whether a mark is what a mapping of a node emits. -/
inductive Mark.IsFrom (g : Setting) (n : NumberedNode) (nm : NumberedMapping) : Mark → Prop where
  | ofAttribute {scopes : Scopes} {j : Nat} (hattr : n.isAttribute = true)
      (hj : (g.emitted n)[j]? = some nm) : IsFrom g n nm ⟨nm.mapping.output, nm.mapping.input,
        attributeBindings g scopes n nm (attributeVar n.path j)⟩
  | ofElement {scopes : Scopes} {ns : List NumberedNode} {inner : Scopes → Block}
      (hattr : n.isAttribute = false) : IsFrom g n nm ⟨nm.mapping.output, nm.mapping.input,
        mappingBlock g scopes n ns nm inner⟩

namespace Emission

variable {g : Setting} {n : NumberedNode} {scopes : Scopes} {ns : List NumberedNode} {K : Mark}

theorem isFrom_attributeLets (hattr : n.isAttribute = true) : ∀ {ms : List NumberedMapping} {k : Nat},
    (∀ i : Nat, ms[i]? = (g.emitted n)[k + i]?) → K ∈ (attributeLets g scopes n k ms).marks →
      ∃ nm ∈ ms, K.IsFrom g n nm
  | nm :: ms, k, hms, h => by
    rw [marks_attributeLets_cons] at h
    rcases List.mem_cons.mp h with rfl | h
    · exact ⟨nm, List.mem_cons_self, .ofAttribute hattr (hms 0).symm⟩
    · have hrest (i : Nat) : ms[i]? = (g.emitted n)[k + 1 + i]? := by
        rw [Nat.add_assoc, Nat.add_comm 1 i, ← hms (i + 1), List.getElem?_cons_succ]
      obtain ⟨nm', hnm', h⟩ := isFrom_attributeLets hattr hrest h
      exact ⟨nm', List.mem_cons_of_mem _ hnm', h⟩

theorem isFrom_argumentsOf (h : K ∈ (argumentsOf g scopes ns).lets.marks) :
    ∃ n ∈ ns, ∃ nm ∈ n.numbered, K.IsFrom g n nm := by
  rw [marks_argumentsOf] at h
  obtain ⟨n, hn, h⟩ := List.mem_flatMap.mp h
  split at h
  · next hshown =>
    rw [marks_attributeArguments] at h
    split at h
    · cases h
    · have hattr := (Bool.and_eq_true_iff.mp hshown).1
      obtain ⟨nm, hnm, h⟩ := isFrom_attributeLets hattr (fun i => by rw [Nat.zero_add]) h
      exact ⟨n, hn, nm, Setting.mem_numbered_of_mem_emitted hnm, h⟩
  · cases h

/-- Marks come from the nodes whose mappings they are from. -/
theorem comesFrom_marks (g : Setting) (K : Mark) :
    ComesFrom g (fun b => K ∈ b.marks) fun n below =>
      (∃ nm ∈ n.numbered, K.IsFrom g n nm) ∨ ∃ a ∈ below.tops, ∃ nm ∈ a.numbered, K.IsFrom g a nm where
  nil := List.not_mem_nil
  append h := by rwa [Block.marks_append, List.mem_append] at h
  marked hattr hnm h := by
    rw [marks_marked] at h
    rcases List.mem_cons.mp h with rfl | h
    · exact .inl (.inl ⟨_, hnm, .ofElement hattr⟩)
    · exact .inr h
  mapping _ h := by
    rw [marks_mappingBlock, List.mem_append] at h
    rcases h with h | h
    · exact .inl (.inr (isFrom_argumentsOf h))
    · split at h
      · cases h
      · exact .inr ⟨_, h⟩
  construct _ h := by
    rw [marks_construct, List.mem_append] at h
    exact h.imp_left fun h => .inr (isFrom_argumentsOf h)

/-- Every mark of the output is from a mapping. -/
theorem isFrom_outputOf {f : Forest NumberedNode} (h : K ∈ (outputOf g f).marks) :
    ∃ n ∈ f.labels, ∃ nm ∈ n.numbered, K.IsFrom g n nm :=
  Forest.exists_label_of_subtree ((comesFrom_marks g K).outputOf h)

end Emission

/-! ### Constructions of a node -/

/-- Whether a construction is the fallback for an element of some name within some statements. -/
structure Construction.IsFallback (x : Construction) (t : Tag)
    (outer : List (Option Simple × Opening)) : Prop where
  tag : x.tag = t
  attributes : x.attributes = []
  value : x.value = none
  around : ∃ p, x.around = (p, .guarded (.absent t)) :: outer

namespace Emission

variable {g : Setting} {n : NumberedNode} {scopes : Scopes} {ns : List NumberedNode}
  {nm : NumberedMapping} {x : Construction} {c : Site} {inner : Scopes → Block}

theorem constructions_attributeBindings {var : String} :
    (attributeBindings g scopes n nm var).constructions c = [] := by
  simp only [attributeBindings]
  split
  · rfl
  · split <;> rfl

theorem constructions_attributeLets : ∀ {ms : List NumberedMapping} {k : Nat} {c : Site},
    (attributeLets g scopes n k ms).constructions c = []
  | [], _, _ => rfl
  | nm :: ms, k, c => by
    rw [attributeLets, Block.constructions_append, constructions_attributeLets, marked,
      Block.around, Block.constructions, constructions_attributeBindings]
    rfl

theorem constructions_argumentsOf {c : Site} : (argumentsOf g scopes ns).lets.constructions c = [] := by
  induction ns generalizing c with
  | nil => rfl
  | cons n ns ih =>
    rw [lets_argumentsOf_cons, Block.constructions_append, ih, List.append_nil]
    split
    · exact constructions_attributeLets
    · rfl

theorem mem_constructions_constructor {snippet : Option Snippet} {value : Expression}
    (h : x ∈ (constructor g scopes n ns snippet value inner).constructions c) :
    (x.tag = n.tag ∧ (∀ e ∈ x.value, e = value ∨ e ∈ choiceValue? n) ∧
        x.Passes (argumentsOf g scopes ns) c.bindings) ∨
      ¬x.Outermost ∧ ∃ scopes' c', x ∈ (inner scopes').constructions c' := by
  have hcode (c' : Site) :
      (snippet.elim Block.nil fun s => .one (.code s.code)).constructions c' = [] := by
    cases snippet <;> rfl
  simp only [constructor] at h
  split at h
  · cases snippet with
    | some s =>
      rcases mem_constructions_construct (fun _ => constructions_argumentsOf) h with
        ⟨htag, hvalue, hpasses⟩ | ⟨-, c', h⟩
      · exact .inl ⟨htag, by simp [hvalue], hpasses⟩
      · rw [hcode] at h
        cases h
    | none =>
      rcases mem_constructions_construct (fun _ => constructions_argumentsOf) h with
        ⟨htag, hvalue, hpasses⟩ | ⟨-, c', h⟩
      · refine .inl ⟨htag, fun e he => ?_, hpasses⟩
        rw [hvalue] at he
        obtain rfl := Option.some.inj he
        cases hchoice : choiceValue? n with
        | some e => exact .inr rfl
        | none => exact .inl rfl
      · cases h
  · rcases mem_constructions_construct (fun _ => constructions_argumentsOf) h with
      ⟨htag, hvalue, hpasses⟩ | ⟨hinner, c', h⟩
    · exact .inl ⟨htag, fun e he => .inr (hvalue ▸ he), hpasses⟩
    · rw [Block.mem_constructions_append, hcode] at h
      exact .inr ⟨hinner, scopes, _, h.resolve_left List.not_mem_nil⟩

theorem isFallback_fallback {snippet : Option Snippet}
    (h : x ∈ (fallback n snippet).constructions c) : x.IsFallback n.tag c.around := by
  rw [fallback] at h
  split at h
  · have h := (Block.mem_constructions_around.mp h).resolve_left List.not_mem_nil
    rcases Block.mem_constructions_around.mp h with h | h
    · obtain rfl := List.mem_singleton.mp h
      exact ⟨rfl, rfl, rfl, _, rfl⟩
    · cases h
  · cases h

/-- A mapping constructs its element, what is below that and the fallback for it. -/
theorem mem_constructions_mappingBlock
    (h : x ∈ (mappingBlock g scopes n ns nm inner).constructions c) :
    x.IsFallback n.tag c.around ∨ ∃ scopes' value c',
      x ∈ (emit g scopes' n ns nm value inner).constructions c' := by
  simp only [mappingBlock, Block.mem_constructions_append] at h
  rcases h with h | h
  · right
    split at h
    · exact ⟨_, _, _, h⟩
    · obtain ⟨c', h⟩ := mem_constructions_wrap h
      exact ⟨_, _, c', h⟩
  · left
    have hfallback := isFallback_fallback h
    rwa [Site.around_past] at hfallback

end Emission

/-! ### Variables of attributes -/

namespace Emission

/-- The variables that the `j`th mapping of an attribute binds. Code that a table is consulted for
has one of its own. -/
def mappingVariables (g : Setting) (a : NumberedNode) (j : Nat) (nm : NumberedMapping) :
    List String :=
  (if nm.mapping.literal?.isNone && (g.snippetOf a nm.mapping).isSome && nm.table.isSome then
    [attributeVar a.path j ++ "_code"] else []) ++ [attributeVar a.path j]

/-- The variables that some mappings of an attribute bind, numbered from `j`. -/
def variablesFrom (g : Setting) (a : NumberedNode) (j : Nat) : List NumberedMapping → List String
  | [] => []
  | nm :: rest => mappingVariables g a j nm ++ variablesFrom g a (j + 1) rest

/-- The variables that some attributes bind, in order. -/
def attributeVariables (g : Setting) (attributes : List NumberedNode) : List String :=
  (attributes.filter g.binds).flatMap fun a => variablesFrom g a 0 (g.emitted a)

variable {g : Setting} {a : NumberedNode} {scopes : Scopes} {ns : List NumberedNode}

theorem definitions_attributeBindings (nm : NumberedMapping) (j : Nat) :
    (attributeBindings g scopes a nm (attributeVar a.path j)).definitions =
      mappingVariables g a j nm := by
  simp only [attributeBindings, mappingVariables]
  cases nm.mapping.literal? with
  | some s => rfl
  | none => cases g.snippetOf a nm.mapping <;> cases nm.table <;> rfl

theorem definitions_attributeLets : ∀ {ms : List NumberedMapping} {j : Nat},
    (attributeLets g scopes a j ms).definitions = variablesFrom g a j ms
  | [], _ => rfl
  | nm :: ms, j => by
    rw [attributeLets, Block.definitions_append, definitions_attributeLets, variablesFrom]
    exact congrArg (· ++ _) ((List.append_nil _).trans (definitions_attributeBindings nm j))

theorem definitions_argumentsOf :
    (argumentsOf g scopes ns).lets.definitions = attributeVariables g ns := by
  induction ns with
  | nil => rfl
  | cons a ns ih =>
    rw [lets_argumentsOf_cons, Block.definitions_append, ih, attributeVariables, attributeVariables,
      List.filter_cons]
    split
    · rw [definitions_attributeLets, List.flatMap_cons]
    · rfl

theorem bindings_argumentsOf_append {ns' : List NumberedNode} :
    (argumentsOf g scopes (ns ++ ns')).lets.bindings =
      (argumentsOf g scopes ns').lets.bindings ++ (argumentsOf g scopes ns).lets.bindings := by
  induction ns with
  | nil => exact (List.append_nil _).symm
  | cons a ns ih =>
    rw [List.cons_append, lets_argumentsOf_cons, lets_argumentsOf_cons, Block.bindings_append,
      Block.bindings_append, ih, List.append_assoc]

theorem bindings_attributeLets_append {ms' : List NumberedMapping} : ∀ {ms : List NumberedMapping}
    {j : Nat}, (attributeLets g scopes a j (ms ++ ms')).bindings =
      (attributeLets g scopes a (j + ms.length) ms').bindings ++
        (attributeLets g scopes a j ms).bindings
  | [], _ => (List.append_nil _).symm
  | nm :: ms, j => by
    rw [List.cons_append, attributeLets, attributeLets, Block.bindings_append,
      Block.bindings_append, bindings_attributeLets_append, List.append_assoc, List.length_cons,
      Nat.add_assoc, Nat.add_comm 1]

/-- The variable of a mapping that consults a table is bound to the lookup last. -/
theorem bindings_attributeBindings {nm : NumberedMapping} {k : Nat}
    (hliteral : nm.mapping.literal? = none) (hk : nm.table = some k) (g : Setting) (scopes : Scopes)
    (a : NumberedNode) (var : String) :
    ∃ v rest, (attributeBindings g scopes a nm var).bindings =
      (var, some (.call (lookupName k) [v])) :: rest := by
  simp only [attributeBindings, hliteral, hk]
  cases g.snippetOf a nm.mapping with
  | some s => exact ⟨_, _, rfl⟩
  | none => exact ⟨_, _, rfl⟩

end Emission

/-! ### What a construction has from its attributes -/

/-- What an attribute is passed as, if it is passed. -/
def Setting.passed? (g : Setting) (a : NumberedNode) : Option (Tag × Expression) :=
  if a.isAttribute && g.inFocus a.path then
    (if a.fixedMembership?.isSome then a.fixedValue?.map Expression.literal
      else attributeValue? a.path (g.emitted a)).map fun e => (a.tag, e)
  else none

/-- Whether a construction passes some attributes on and is guarded by those that a table stands for.
The variable of a mapping that consults a table is bound to the lookup unless one of the mappings
after it, of the same attribute or of a later one, binds it again. -/
structure Construction.Translates (x : Construction) (g : Setting) (attributes : List NumberedNode) :
    Prop where
  passed : x.attributes = attributes.filterMap g.passed?
  guarded : ∀ a ∈ attributes, g.binds a = true → (∃ nm ∈ g.emitted a, nm.table.isSome = true) →
    ∃ e, g.passed? a = some (a.tag, e) ∧ ∃ p, (p, .guarded (.present e)) ∈ x.around
  latest : ∀ before a after ms nm rest k, attributes = before ++ a :: after → g.binds a = true →
    g.emitted a = ms ++ nm :: rest → nm.table = some k →
      ((∃ v, x.bindings.lookup (attributeVar a.path ms.length) =
          some (some (.call (lookupName k) [v]))) ↔
        attributeVar a.path ms.length ∉
          variablesFrom g a (ms.length + 1) rest ++ attributeVariables g after)

namespace Emission

variable {g : Setting} {a : NumberedNode} {scopes : Scopes} {ns : List NumberedNode}

theorem values_attributeArguments (h : (a.isAttribute && g.inFocus a.path) = true) :
    (attributeArguments g scopes a).values = (g.passed? a).toList := by
  rw [attributeArguments, Setting.passed?, if_pos h]
  cases a.fixedMembership? with
  | some _ => cases a.fixedValue? <;> rfl
  | none =>
    dsimp only
    cases attributeValue? a.path (g.emitted a) <;> rfl

theorem values_argumentsOf : (argumentsOf g scopes ns).values = ns.filterMap g.passed? := by
  induction ns with
  | nil => rfl
  | cons a ns ih =>
    rw [argumentsOf, List.filterMap_cons]
    split
    · next h =>
      rw [values_append, values_attributeArguments h, ih]
      cases g.passed? a <;> rfl
    · next h =>
      rw [ih, Setting.passed?, if_neg h]

theorem guards_attributeArguments {nm : NumberedMapping} (hbinds : g.binds a = true)
    (hnm : nm ∈ g.emitted a) (htable : nm.table.isSome = true) :
    ∃ e, g.passed? a = some (a.tag, e) ∧ e ∈ (attributeArguments g scopes a).guards := by
  rw [Setting.binds, Bool.and_eq_true, Option.isNone_iff_eq_none] at hbinds
  obtain ⟨hshown, hfixed⟩ := hbinds
  rw [Setting.passed?, if_pos hshown, attributeArguments, hfixed]
  cases hvalue : attributeValue? a.path (g.emitted a) with
  | none =>
    rw [attributeValue?_eq_none hvalue] at hnm
    cases hnm
  | some e =>
    have hany : ((g.emitted a).any fun nm => nm.table.isSome) = true :=
      List.any_eq_true.mpr ⟨nm, hnm, htable⟩
    simp only [hvalue, hany, if_true]
    exact ⟨e, rfl, List.mem_singleton_self e⟩

theorem guards_argumentsOf {nm : NumberedMapping} (ha : a ∈ ns) (hbinds : g.binds a = true)
    (hnm : nm ∈ g.emitted a) (htable : nm.table.isSome = true) :
    ∃ e, g.passed? a = some (a.tag, e) ∧ e ∈ (argumentsOf g scopes ns).guards := by
  induction ns with
  | nil => cases ha
  | cons b ns ih =>
    rw [argumentsOf]
    rcases List.mem_cons.mp ha with rfl | ha
    · rw [if_pos (Bool.and_eq_true_iff.mp hbinds).1]
      obtain ⟨e, hpassed, he⟩ := guards_attributeArguments hbinds hnm htable
      exact ⟨e, hpassed, List.mem_append_left _ he⟩
    · obtain ⟨e, hpassed, he⟩ := ih ha
      split
      · exact ⟨e, hpassed, List.mem_append_right _ he⟩
      · exact ⟨e, hpassed, he⟩

variable {before after : List NumberedNode} {ms rest : List NumberedMapping} {nm : NumberedMapping}
  {k : Nat}

theorem emitted_sublist (g : Setting) (a : NumberedNode) : (g.emitted a).Sublist a.numbered := by
  rw [Setting.emitted]
  split
  · split
    · exact List.filter_sublist
    · exact .refl _
  · exact .refl _

/-- No mapping after one that consults a table consults the same. -/
theorem not_called_later (hnodup : ((a :: after).flatMap Numbering.tableNumbers).Nodup)
    (hemitted : g.emitted a = ms ++ nm :: rest) (hk : nm.table = some k) (scopes : Scopes)
    (j : Nat) : lookupName k ∉ (argumentsOf g scopes after).lets.calls ∧
      lookupName k ∉ (attributeLets g scopes a j rest).calls := by
  rw [List.flatMap_cons, List.nodup_append'] at hnodup
  obtain ⟨hown, -, hafter⟩ := hnodup
  constructor
  · intro h
    have hnm : nm ∈ g.emitted a := hemitted ▸ List.mem_append_right _ List.mem_cons_self
    have hnumber : k ∈ Numbering.tableNumbers a :=
      List.mem_filterMap.mpr ⟨nm, Setting.mem_numbered_of_mem_emitted hnm, hk⟩
    obtain ⟨b, hb, nm', hnm', i, hi, hname⟩ := consults_argumentsOf h
    rw [lookupName_injective hname] at hi
    exact hafter hnumber (List.mem_flatMap.mpr ⟨b, hb, List.mem_filterMap.mpr ⟨nm', hnm', hi⟩⟩)
  · intro h
    obtain ⟨nm', hnm', i, hi, hname⟩ := consults_attributeLets h
    rw [lookupName_injective hname] at hi
    have hemittedNumbers := hown.sublist ((emitted_sublist g a).filterMap NumberedMapping.table)
    rw [hemitted, List.filterMap_append, List.filterMap_cons_some hk, List.nodup_append',
      List.nodup_cons] at hemittedNumbers
    exact hemittedNumbers.2.1.1 (List.mem_filterMap.mpr ⟨nm', hnm', hi⟩)

/-- The bindings of some attributes are those of the mappings after a given one, ahead of which come
its own and the others. -/
theorem bindings_argumentsOf_at (hbinds : g.binds a = true) (hemitted : g.emitted a = ms ++ nm :: rest)
    (scopes : Scopes) (before after : List NumberedNode) :
    ∃ others, (argumentsOf g scopes (before ++ a :: after)).lets.bindings =
      ((argumentsOf g scopes after).lets.bindings ++
        (attributeLets g scopes a (ms.length + 1) rest).bindings) ++
      ((attributeBindings g scopes a nm (attributeVar a.path ms.length)).bindings ++ others) := by
  rw [bindings_argumentsOf_append, lets_argumentsOf_cons, if_pos hbinds, Block.bindings_append,
    hemitted, bindings_attributeLets_append, Nat.zero_add, attributeLets, Block.bindings_append]
  refine ⟨(attributeLets g scopes a 0 ms).bindings ++ (argumentsOf g scopes before).lets.bindings, ?_⟩
  simp only [marked, Block.bindings_around, Opening.bindings, List.append_assoc]

/-- Behind the bindings of some attributes, the variable of a mapping that consults a table is bound
to the lookup unless a later mapping has bound it again. -/
theorem lookup_argumentsOf (hnodup : ((before ++ a :: after).flatMap Numbering.tableNumbers).Nodup)
    (hbinds : g.binds a = true) (hemitted : g.emitted a = ms ++ nm :: rest)
    (hliteral : nm.mapping.literal? = none) (hk : nm.table = some k) (outer : Bindings) :
    (∃ v, ((argumentsOf g scopes (before ++ a :: after)).lets.bindings ++ outer).lookup
        (attributeVar a.path ms.length) = some (some (.call (lookupName k) [v]))) ↔
      attributeVar a.path ms.length ∉
        variablesFrom g a (ms.length + 1) rest ++ attributeVariables g after := by
  obtain ⟨others, hbindings⟩ := bindings_argumentsOf_at hbinds hemitted scopes before after
  obtain ⟨v, own, hown⟩ :=
    bindings_attributeBindings hliteral hk g scopes a (attributeVar a.path ms.length)
  rw [hbindings, hown, List.append_assoc, List.lookup_append]
  have hvariables (x : String) : x ∈ variablesFrom g a (ms.length + 1) rest ++
      attributeVariables g after ↔ x ∈ ((argumentsOf g scopes after).lets.bindings ++
        (attributeLets g scopes a (ms.length + 1) rest).bindings).map Prod.fst := by
    rw [List.map_append, Block.map_fst_bindings, Block.map_fst_bindings, definitions_argumentsOf,
      definitions_attributeLets, List.mem_append, List.mem_append, List.mem_reverse,
      List.mem_reverse, or_comm]
  rw [hvariables]
  cases hlookup : List.lookup (attributeVar a.path ms.length)
      ((argumentsOf g scopes after).lets.bindings ++
        (attributeLets g scopes a (ms.length + 1) rest).bindings) with
  | none =>
    rw [Option.none_or, List.cons_append, List.cons_append, List.lookup_cons_self]
    refine iff_of_true ⟨v, rfl⟩ fun h => ?_
    obtain ⟨p, hp, heq⟩ := List.mem_map.mp h
    simpa [heq] using List.lookup_eq_none_iff.mp hlookup p hp
  | some b =>
    obtain ⟨l, l', hsplit, -⟩ := List.lookup_eq_some_iff.mp hlookup
    have hmem := hsplit ▸ List.mem_append_right l List.mem_cons_self
    refine iff_of_false ?_ (not_not.mpr (List.mem_map_of_mem (f := Prod.fst) hmem))
    rintro ⟨v', h⟩
    obtain rfl := Option.some.inj h
    rw [List.flatMap_append, List.nodup_append'] at hnodup
    have hcalls := not_called_later hnodup.2.1 hemitted hk scopes (ms.length + 1)
    have hcall : lookupName k ∈ (Expression.call (lookupName k) [v']).calls := List.mem_cons_self
    exact (List.mem_append.mp hmem).elim
      (fun h => hcalls.1 (Block.calls_subset_of_mem_bindings h hcall))
      fun h => hcalls.2 (Block.calls_subset_of_mem_bindings h hcall)

/-- What an element has from its attributes when it passes their arguments on. -/
theorem translates_of_passes {x : Construction} {outer : Bindings}
    (hnodup : (ns.flatMap Numbering.tableNumbers).Nodup)
    (hliteral : ∀ a ∈ ns, ∀ nm ∈ a.numbered, nm.table.isSome = true → nm.mapping.literal? = none)
    (h : x.Passes (argumentsOf g scopes ns) outer) : x.Translates g ns where
  passed := h.attributes.trans values_argumentsOf
  guarded a ha hbinds htable := by
    obtain ⟨nm, hnm, htable⟩ := htable
    obtain ⟨e, hpassed, he⟩ := guards_argumentsOf ha hbinds hnm htable
    exact ⟨e, hpassed, h.guards e he⟩
  latest := by
    rintro before a after ms nm rest k rfl hbinds hemitted hk
    have hnm : nm ∈ g.emitted a := hemitted ▸ List.mem_append_right _ List.mem_cons_self
    have hnone := hliteral a (List.mem_append_right _ List.mem_cons_self) nm
      (Setting.mem_numbered_of_mem_emitted hnm) (Option.isSome_of_eq_some hk)
    rw [h.bindings]
    exact lookup_argumentsOf hnodup hbinds hemitted hnone hk outer

end Emission

/-! ### What an element has from a table -/

/-- Whether whatever a block constructs for a node, but for the fallback, stands behind the lookup of
a value in a table and depends on what was found. The element itself has that for a value, or else
the value that the node stands for. -/
def Block.TranslatesElement (b : Block) (n : Node) (k : Nat) : Prop :=
  ∀ x ∈ b.constructions {}, x.IsFallback n.tag [] ∨
    ∃ v, (some (Simple.define (termVar k) (.call (lookupName k) [v])),
        Opening.guarded (.present (.var (termVar k)))) ∈ x.around ∧
      (x.Outermost → x.tag = n.tag ∧
        x.bindings.lookup (termVar k) = some (some (.call (lookupName k) [v])) ∧
        ∀ e ∈ x.value, e = .var (termVar k) ∨ ∃ m ∈ n.rootMembership?, e = .literal m.choice.value)

namespace Emission

variable {g : Setting} {n : NumberedNode} {scopes : Scopes} {ns : List NumberedNode}
  {nm : NumberedMapping} {x : Construction} {c : Site} {inner : Scopes → Block}

theorem termVar_notMem_variablesFrom (k : Nat) : ∀ (ms : List NumberedMapping) (j : Nat),
    termVar k ∉ variablesFrom g n j ms
  | [], _ => List.not_mem_nil
  | nm :: ms, j => by
    obtain ⟨r, hr, -⟩ := toList_attributeVar n.path j
    have hne {y : String} {s : List Char} (hy : y.toList = '_' :: ("attr".toList ++ s)) :
        termVar k ≠ y := by
      intro h
      have hl := congrArg String.toList h
      simp [hy, toList_termVar] at hl
    have hvar : termVar k ≠ attributeVar n.path j := hne hr
    have hcode : termVar k ≠ attributeVar n.path j ++ "_code" :=
      hne (by rw [String.toList_append, hr]; rfl)
    have hrest := termVar_notMem_variablesFrom k ms (j + 1)
    rw [variablesFrom, mappingVariables]
    split <;> simp [hvar, hcode, hrest]

/-- The variable of what a table has is not one of an attribute. -/
theorem termVar_notMem_attributeVariables (k : Nat) : termVar k ∉ attributeVariables g ns := by
  intro h
  obtain ⟨a, -, h⟩ := List.mem_flatMap.mp h
  exact termVar_notMem_variablesFrom k _ _ h

theorem translatesElement_mappingBlock {k : Nat} (hk : nm.table = some k) :
    (mappingBlock g scopes n ns nm inner).TranslatesElement n.toNode k := by
  intro x hx
  refine (mem_constructions_mappingBlock hx).imp_right ?_
  rintro ⟨scopes', value, c', h⟩
  simp only [emit, hk] at h
  have h := (Block.mem_constructions_around.mp h).resolve_left List.not_mem_nil
  refine ⟨value, (Block.around_suffix h).subset List.mem_cons_self, fun houtermost => ?_⟩
  rcases mem_constructions_constructor h with ⟨htag, hvalue, hpasses⟩ | ⟨hinner, -⟩
  · refine ⟨htag, ?_, fun e he => (hvalue e he).imp_right rootMembership?_of_choiceValue?⟩
    have hlets : List.lookup (termVar k) (argumentsOf g scopes' ns).lets.bindings = none := by
      refine List.lookup_eq_none_iff.mpr fun p hp => bne_iff_ne.mpr ?_
      intro heq
      have hmem := List.mem_map_of_mem (f := Prod.fst) hp
      rw [Block.map_fst_bindings, List.mem_reverse, definitions_argumentsOf, ← heq] at hmem
      exact termVar_notMem_attributeVariables k hmem
    rw [hpasses.bindings, List.lookup_append, hlets, Option.none_or]
    exact List.lookup_cons_self
  · exact absurd houtermost hinner

theorem mem_constructions_emit {value : Expression}
    (h : x ∈ (emit g scopes n ns nm value inner).constructions c) : ∃ snippet value' c',
      x ∈ (constructor g scopes n ns snippet value' inner).constructions c' := by
  simp only [emit] at h
  split at h
  · exact ⟨_, _, _, (Block.mem_constructions_around.mp h).resolve_left List.not_mem_nil⟩
  · exact ⟨_, _, _, h⟩

end Emission

/-! ### Constructions of the output -/

/-- Whether a construction is made for a node with some attributes. -/
def Construction.IsOf (x : Construction) (g : Setting) (n : NumberedNode)
    (attributes : List NumberedNode) : Prop :=
  (∃ outer, x.IsFallback n.tag outer) ∨
    x.tag = n.tag ∧ ∃ scopes outer, x.Passes (argumentsOf g scopes attributes) outer

namespace Emission

/-- Constructions come from the nodes that they are made for. -/
theorem comesFrom_constructions (g : Setting) (x : Construction) :
    ComesFrom g (fun b => ∃ c, x ∈ b.constructions c) fun n below => x.IsOf g n below.tops where
  nil h := by
    obtain ⟨c, h⟩ := h
    cases h
  append h := by
    obtain ⟨c, h⟩ := h
    exact (Block.mem_constructions_append.mp h).imp (Exists.intro c) (Exists.intro _)
  marked _ _ h := by
    obtain ⟨c, h⟩ := h
    exact .inr ⟨_, (Block.mem_constructions_around.mp h).resolve_left List.not_mem_nil⟩
  mapping _ h := by
    obtain ⟨c, h⟩ := h
    rcases mem_constructions_mappingBlock h with h | ⟨scopes', value, c', h⟩
    · exact .inl (.inl ⟨_, h⟩)
    · obtain ⟨snippet, value', c'', h⟩ := mem_constructions_emit h
      rcases mem_constructions_constructor h with ⟨htag, -, hpasses⟩ | ⟨-, h⟩
      · exact .inl (.inr ⟨htag, scopes', _, hpasses⟩)
      · exact .inr h
  construct _ h := by
    obtain ⟨c, h⟩ := h
    rcases mem_constructions_construct (fun _ => constructions_argumentsOf) h with
      ⟨htag, -, hpasses⟩ | ⟨-, h⟩
    · exact .inl (.inr ⟨htag, _, _, hpasses⟩)
    · exact .inr h

end Emission

/-- What a table has for a value, and nothing else, reaches the output in the place of the value: the
marks of the output are those of its mappings; the mark of an element whose value a table stands for
constructs nothing but the fallback unless the lookup found something; that of an attribute binds the
variable of the attribute to the lookup last; and an element is constructed only if its attributes
that a table stands for have values. These are what the lookups found, except where a variable is
bound again for a later mapping of the element's attributes. -/
theorem MappingTree.translated_output (t : MappingTree) (snippets : SnippetStore)
    (focus : Option Focus) :
    let g : Setting := { snippets, focus := focus.filter t.has }
    let output := (t.program snippets focus).1.output
    (∀ K ∈ output.marks, ∃ n ∈ t.numbered.labels, ∃ nm ∈ n.numbered, K.IsFrom g n nm) ∧
    (∀ n ∈ t.numbered.labels, ∀ nm ∈ n.numbered, ∀ k, nm.table = some k →
      ∀ K ∈ output.marks, K.IsFrom g n nm →
        (n.isAttribute = false → K.body.TranslatesElement n.toNode k) ∧
        (n.isAttribute = true → ∃ j, (g.emitted n)[j]? = some nm ∧ ∃ v earlier,
          K.body.bindings = (attributeVar n.path j, some (.call (lookupName k) [v])) :: earlier)) ∧
    ∀ x ∈ output.constructions {}, ∃ p ∈ t.numbered.subtrees,
      (∃ outer, x.IsFallback p.1.tag outer) ∨ x.tag = p.1.tag ∧ x.Translates g p.2.tops := by
  intro g output
  have hliteral {n : NumberedNode} (hn : n ∈ t.numbered.labels) {nm : NumberedMapping}
      (hnm : nm ∈ n.numbered) (htable : nm.table.isSome = true) : nm.mapping.literal? = none := by
    rw [Numbering.isSome_table_of_mem hn hnm, Numbering.consults, Bool.and_eq_true,
      Bool.not_eq_true'] at htable
    rw [Mapping.literal?, htable.2, if_neg Bool.false_ne_true]
  refine ⟨fun K hK => isFrom_outputOf hK, ?_, fun x hx => ?_⟩
  · rintro n hn nm hnm k hk K - hfrom
    cases hfrom with
    | @ofAttribute scopes j hattr hj =>
      refine ⟨fun h => absurd (h.symm.trans hattr) Bool.false_ne_true, fun _ => ⟨j, hj, ?_⟩⟩
      exact bindings_attributeBindings (hliteral hn hnm (Option.isSome_of_eq_some hk)) hk g scopes n _
    | ofElement hattr =>
      refine ⟨fun _ => translatesElement_mappingBlock hk, fun h => ?_⟩
      exact absurd (hattr.symm.trans h) Bool.false_ne_true
  · obtain ⟨p, hp, h⟩ := (comesFrom_constructions g x).outputOf ⟨{}, hx⟩
    refine ⟨p, hp, h.imp_right ?_⟩
    rintro ⟨htag, scopes, outer, hpasses⟩
    have htops := Forest.tops_sublist_of_mem_subtrees hp
    refine ⟨htag, translates_of_passes ?_ (fun a ha nm => ?_) hpasses⟩
    · exact (Numbering.nodup_tableNumbers t).sublist (htops.flatMap _)
    · exact hliteral (htops.subset ha)

/-- A record with two attributes whose names differ in a mark between the words. -/
def codedDeclaration : Declaration where
  root := { tag := .elem none "record" }
  content := .attr { tag := .attr none "type-id" } (.attr { tag := .attr none "type.id" } .nil)

/-- What the record with two attributes is resolved to. -/
def codedRecord : Record where
  qualifier := ""
  version := ""
  namespaces := []
  root :=
    { tag := .elem none "record"
      attributes := [{ tag := .attr none "type-id" }, { tag := .attr none "type.id" }] }
  below := .nil
  fieldMarkers := []
  assertions := []

/-- Mappings of the two attributes, of the first with a dictionary. -/
def codedEdits : List Edit :=
  [.attach
      { output := ⟨[.elem none "record", .attr none "type-id"]⟩
        input := .ofNames ["m", "a"]
        dictionary := some (.ofPairs [("book", "Book")]) },
    .attach
      { output := ⟨[.elem none "record", .attr none "type.id"]⟩
        input := .ofNames ["m", "b"] }]

/-- The attribute that a table stands for is passed as a variable that is bound to what is read for
the other attribute. -/
theorem codedRecord_rebound : codedDeclaration.resolve = .ok codedRecord ∧
    let t := (MappingTree.ofRecord codedRecord).afterEdits codedEdits
    (∃ n ∈ t.numbered.labels, ∃ nm ∈ n.numbered, n.tag = .attr none "type-id" ∧
      nm.table = some 1 ∧ attributeVar n.path 0 = "_attr_record_type_id") ∧
    ∃ x ∈ (t.program (fun _ => none) none).1.output.constructions {},
      x.attributes.lookup (.attr none "type-id") = some (.var "_attr_record_type_id") ∧
      x.bindings.lookup "_attr_record_type_id" =
        some (some (.first (.nav "_input" [.elem none "b"]))) := by
  refine ⟨by with_unfolding_all rfl, by decide +kernel, ?_⟩
  with_unfolding_all exact ⟨_, List.mem_cons_self, rfl, rfl⟩

end Crosswalk
