import Crosswalk.Proofs.Numbering
import Crosswalk.Proofs.Path
import Crosswalk.Proofs.Tracking
import Crosswalk.Schema.Resolution
import Crosswalk.Tree.Edit

/-!
Scoping of generated programs. Every block that a mapping tree comes to is safe, so every variable
is read where it has been bound, and a bound name can only meet one that generated code makes for
itself: a scope or a parameter named after a source tag may have the name of a variable defined
ahead, and a join may have the name of a scope around that is named after a source tag.
-/

namespace Crosswalk

open Scopes

namespace Emission

variable {S : Sources} {used : Nat} {scopes : Scopes} {known : List String} {c : Context}

/-! ### Where navigation starts -/

theorem covers?_eq_some_iff {p q : Path} {b : Binding} :
    covers? p b = some q ↔ b.key = .path q ∧ (q = p ∨ q.isAncestorOf p = true) := by
  rw [covers?]
  cases b.key with
  | path q' =>
    dsimp only
    split
    · next hcovers =>
      constructor
      · rintro ⟨⟩
        exact ⟨rfl, hcovers⟩
      · rintro ⟨⟨⟩, -⟩
        rfl
    · next hcovers =>
      constructor
      · rintro ⟨⟩
      · rintro ⟨⟨⟩, h⟩
        exact absurd h hcovers
  | join parent keys => simp

theorem deepest?_eq_none_iff {p : Path} {scopes : Scopes} :
    scopes.deepest? p = none ↔ ∀ b ∈ scopes, covers? p b = none := by
  induction scopes with
  | nil => simp [deepest?]
  | cons b outer ih =>
    rw [deepest?, List.forall_mem_cons, ← ih]
    cases covers? p b with
    | none => simp
    | some q =>
      cases deepest? p outer with
      | none => simp
      | some found =>
        dsimp only
        split <;> simp

/-- The deepest binding of a path or an ancestor of it is one, and none is deeper. -/
theorem deepest?_eq_some {p q : Path} {x : String} {scopes : Scopes}
    (h : scopes.deepest? p = some (q, x)) :
    (∃ b ∈ scopes, b.var = x ∧ covers? p b = some q) ∧
      ∀ b ∈ scopes, ∀ q', covers? p b = some q' → q'.length ≤ q.length := by
  induction scopes generalizing q x with
  | nil => cases h
  | cons b outer ih =>
    rw [deepest?] at h
    rw [List.exists_mem_cons_iff, List.forall_mem_cons]
    cases hcover : covers? p b with
    | none =>
      rw [hcover] at h
      obtain ⟨hfound, hdeepest⟩ := ih h
      exact ⟨.inr hfound, by simp, hdeepest⟩
    | some q₁ =>
      rw [hcover] at h
      cases hrest : deepest? p outer with
      | none =>
        rw [hrest] at h
        obtain ⟨rfl, rfl⟩ := Prod.mk.inj (Option.some.inj h)
        refine ⟨.inl ⟨rfl, rfl⟩, by simp, fun b' hb' q' hq' => ?_⟩
        rw [deepest?_eq_none_iff.mp hrest b' hb'] at hq'
        cases hq'
      | some found =>
        obtain ⟨hfound, hdeepest⟩ := ih hrest
        rw [hrest] at h
        dsimp only at h
        split at h
        · next hlt =>
          obtain ⟨rfl, rfl⟩ := Prod.mk.inj (Option.some.inj h)
          exact ⟨.inr hfound, by rintro _ ⟨⟩; exact Nat.le_of_lt hlt, hdeepest⟩
        · next hle =>
          obtain ⟨rfl, rfl⟩ := Prod.mk.inj (Option.some.inj h)
          exact ⟨.inl ⟨rfl, rfl⟩, by rintro _ ⟨⟩; exact Nat.le_refl _,
            fun b' hb' q' hq' => Nat.le_trans (hdeepest b' hb' q' hq') (Nat.le_of_not_lt hle)⟩

theorem knows_nearest (scopes : Scopes) (p : Path) : Knows scopes known (scopes.nearest p).2 := by
  rw [nearest]
  cases h : scopes.deepest? p with
  | none => exact .inl rfl
  | some found =>
    obtain ⟨⟨b, hb, hvar, -⟩, -⟩ := deepest?_eq_some h
    exact .inr (.inl ⟨b, hb, hvar⟩)

theorem knows_joinVar? {parent : Path} {keys : List Tag} {x : String}
    (h : scopes.joinVar? parent keys = some x) : Knows scopes known x := by
  obtain ⟨b, hb, rfl⟩ := Option.map_eq_some_iff.mp h
  exact .inr (.inl ⟨b, List.mem_of_find?_eq_some hb, rfl⟩)

/-! ### Attributes -/

theorem variables_attributeSource (scopes : Scopes) (n : NumberedNode) (m : Mapping) :
    (attributeSource scopes n m).variables = [(scopes.nearest m.input).2] := by
  simp only [attributeSource]
  split
  · rfl
  · split <;> rfl

theorem calls_attributeSource (scopes : Scopes) (n : NumberedNode) (m : Mapping) :
    (attributeSource scopes n m).calls = [] := by
  simp only [attributeSource]
  split
  · rfl
  · split <;> rfl

theorem knows_attributeSource (scopes : Scopes) (n : NumberedNode) (m : Mapping) :
    ∀ x ∈ (attributeSource scopes n m).variables, Knows scopes known x := by
  rw [variables_attributeSource, List.forall_mem_singleton]
  exact knows_nearest scopes m.input

/-- The parameter of an attribute's code is made from the last tag of what the code reads, unless it
reads the whole record. -/
theorem Tracks.apart_parameter (h : Tracks S used scopes c) {m : Mapping} (hm : S.Allow m.input)
    (var : String) (arg : Expression) : Apart S c (.compute var (parameter scopes m) arg) := by
  rw [parameter]
  split
  · next t ht => exact h.apart_freshVar (hm.1 t (List.mem_of_getLast? ht)) rfl rfl
  · next hlast => exact .record (hm.2 (List.getLast?_eq_none_iff.mp hlast)) h.inputVar_new

variable {g : Setting} {n : NumberedNode}

theorem safe_attributeBindings {nm : NumberedMapping} (hm : S.Allow nm.mapping.input) (p : Path)
    (k : Nat) :
    Safe S used scopes known (attributeBindings g scopes n nm (attributeVar p k)) := by
  have hsource : ∀ x ∈ (attributeSource scopes n nm.mapping).variables, Knows scopes known x :=
    knows_attributeSource scopes n nm.mapping
  have hcomputed (var text) (hvar : IsDefinition var) : Safe S used scopes known
      (.around (.compute var (parameter scopes nm.mapping) (attributeSource scopes n nm.mapping))
        (.one (.code text))) :=
    .compute hvar hsource (calls_attributeSource ..) fun c hc => hc.apart_parameter hm var _
  simp only [attributeBindings]
  split
  · exact .define (.value p k) (by simp [Expression.variables]) (by simp [Expression.calls])
  · split
    · next s j _ _ =>
      refine (hcomputed _ s.code (.code p k)).append (.define (.value p k) ?_ ?_)
      · -- The table is consulted for what the code has computed just before.
        simp [Expression.variables, Expression.variablesOfAll, Knows, Block.around,
          Block.definitions, Opening.definitions]
      · simpa [Expression.calls, Expression.callsOfAll] using .lookup j
    · next s _ _ => exact hcomputed _ s.code (.value p k)
    · next j _ _ =>
      refine .define (.value p k) ?_ ?_
      · simpa [Expression.variables, Expression.variablesOfAll] using hsource
      · simpa [Expression.calls, Expression.callsOfAll, calls_attributeSource] using .lookup j
    · exact .define (.value p k) hsource (by simp [calls_attributeSource])

theorem mem_definitions_attributeBindings (nm : NumberedMapping) (var : String) :
    var ∈ (attributeBindings g scopes n nm var).definitions := by
  simp only [attributeBindings]
  split
  · simp [Block.one, Block.definitions, Simple.definitions]
  · split <;> simp [Block.one, Block.around, Block.definitions, Simple.definitions,
      Opening.definitions]

theorem safe_attributeLets (k : Nat) : ∀ {ms : List NumberedMapping},
    (∀ nm ∈ ms, S.Allow nm.mapping.input) →
      Safe S used scopes known (attributeLets g scopes n k ms)
  | [], _ => .nil
  | nm :: _, h =>
    (safe_attributeBindings (h nm List.mem_cons_self) n.path k).marked.seq
      (safe_attributeLets (k + 1) fun nm' hnm' => h nm' (List.mem_cons_of_mem _ hnm'))

theorem mem_definitions_attributeLets (k : Nat) : ∀ {ms : List NumberedMapping} {i : Nat},
    i < ms.length → attributeVar n.path (k + i) ∈ (attributeLets g scopes n k ms).definitions
  | nm :: _, i, hi => by
    rw [attributeLets, Block.definitions_append, List.mem_append]
    rcases i with _ | i
    · left
      simpa [marked, Block.around, Block.definitions, Opening.definitions]
        using mem_definitions_attributeBindings nm (attributeVar n.path k)
    · right
      have := mem_definitions_attributeLets (k + 1) (Nat.lt_of_succ_lt_succ hi)
      rwa [Nat.add_assoc, Nat.add_comm 1 i] at this

variable (S used scopes) in
/-- Whether the bindings of some arguments are safe and define what the arguments read. -/
structure SafeArguments (a : Arguments) : Prop where
  lets : Safe S used scopes [] a.lets
  values : ∀ v ∈ a.values, ∀ x ∈ v.2.variables, x ∈ a.lets.definitions
  guards : ∀ e ∈ a.guards, ∀ x ∈ e.variables, x ∈ a.lets.definitions
  valueCalls : ∀ v ∈ a.values, v.2.calls = []
  guardCalls : ∀ e ∈ a.guards, e.calls = []

theorem SafeArguments.none : SafeArguments S used scopes {} :=
  ⟨.nil, by simp, by simp, by simp, by simp⟩

theorem SafeArguments.append {a b : Arguments} (ha : SafeArguments S used scopes a)
    (hb : SafeArguments S used scopes b) : SafeArguments S used scopes (a ++ b) := by
  have hdefinitions : (a ++ b).lets.definitions = a.lets.definitions ++ b.lets.definitions :=
    Block.definitions_append ..
  refine ⟨ha.lets.seq hb.lets, ?_, ?_, fun v hv => ?_, fun e he => ?_⟩
  · intro v hv x hx
    rw [hdefinitions, List.mem_append]
    exact (List.mem_append.mp hv).imp (fun h => ha.values v h x hx) fun h => hb.values v h x hx
  · intro e he x hx
    rw [hdefinitions, List.mem_append]
    exact (List.mem_append.mp he).imp (fun h => ha.guards e h x hx) fun h => hb.guards e h x hx
  · exact (List.mem_append.mp hv).elim (ha.valueCalls v) (hb.valueCalls v)
  · exact (List.mem_append.mp he).elim (ha.guardCalls e) (hb.guardCalls e)

/-- The value of an attribute is one of its variables, or some of them one after the other. -/
theorem attributeValue?_eq_some {p : Path} {ms : List NumberedMapping} {value : Expression}
    (h : attributeValue? p ms = some value) :
    ∃ es, (value ∈ es ∨ value = .alternatives es) ∧
      ∀ e ∈ es, ∃ i < ms.length, e = .var (attributeVar p i) := by
  rw [attributeValue?] at h
  generalize hes : List.map _ ms.zipIdx = es at h
  refine ⟨es, ?_, ?_⟩
  · split at h
    · cases h
    · obtain rfl := Option.some.inj h
      exact .inl List.mem_cons_self
    · exact .inr (Option.some.inj h).symm
  · intro e he
    rw [← hes] at he
    obtain ⟨⟨nm, i⟩, hi, rfl⟩ := List.mem_map.mp he
    exact ⟨i, by simpa using List.snd_lt_of_mem_zipIdx hi, rfl⟩

/-- What the variables of its mappings have, and what some have one after the other if each of them
has it, the value of an attribute has too. -/
theorem attributeValue?_holds {P : Expression → Prop} {p : Path} {ms : List NumberedMapping}
    (hvar : ∀ i < ms.length, P (.var (attributeVar p i)))
    (halternatives : ∀ es, (∀ e ∈ es, P e) → P (.alternatives es)) {value : Expression}
    (h : attributeValue? p ms = some value) : P value := by
  obtain ⟨es, hvalue, hes⟩ := attributeValue?_eq_some h
  have hall : ∀ e ∈ es, P e := by
    intro e he
    obtain ⟨i, hi, rfl⟩ := hes e he
    exact hvar i hi
  rcases hvalue with hmem | rfl
  · exact hall value hmem
  · exact halternatives es hall

/-- The value of an attribute reads the variables of its mappings and no others. -/
theorem variables_attributeValue? {p : Path} {ms : List NumberedMapping} {value : Expression}
    (h : attributeValue? p ms = some value) :
    ∀ x ∈ value.variables, ∃ i < ms.length, x = attributeVar p i := by
  refine attributeValue?_holds (P := fun e => ∀ x ∈ e.variables, ∃ i < ms.length, x = attributeVar p i)
    (fun i hi x hx => ⟨i, hi, List.mem_singleton.mp hx⟩) (fun es hes x hx => ?_) h
  rw [Expression.variables, Expression.mem_variablesOfAll] at hx
  obtain ⟨e, he, hx⟩ := hx
  exact hes e he x hx

theorem calls_attributeValue? {p : Path} {ms : List NumberedMapping} {value : Expression}
    (h : attributeValue? p ms = some value) : value.calls = [] :=
  attributeValue?_holds (P := fun e => e.calls = []) (fun _ _ => rfl)
    (fun _ => Expression.callsOfAll_eq_nil) h

/-- Whether what is passed to a constructor and what guards it have a property. -/
structure Arguments.All (P : Expression → Prop) (a : Arguments) : Prop where
  values : ∀ v ∈ a.values, P v.2
  guards : ∀ e ∈ a.guards, P e

theorem Arguments.All.append {P : Expression → Prop} {a b : Arguments} (ha : a.All P)
    (hb : b.All P) : (a ++ b).All P :=
  ⟨List.forall_mem_append.mpr ⟨ha.values, hb.values⟩,
    List.forall_mem_append.mpr ⟨ha.guards, hb.guards⟩⟩

section All

variable {P : Expression → Prop} (hliteral : ∀ s, P (.literal s))
  (hvalue : ∀ {p ms value}, attributeValue? p ms = some value → P value)

include hliteral hvalue

theorem all_attributeArguments : (attributeArguments g scopes n).All P := by
  rw [attributeArguments]
  split
  · refine ⟨fun v hv => ?_, by simp⟩
    obtain ⟨s, -, rfl⟩ := List.mem_map.mp hv
    exact hliteral s
  · dsimp only
    split
    · exact ⟨by simp, by simp⟩
    · next value hsome =>
      refine ⟨List.forall_mem_singleton.mpr (hvalue hsome), fun e he => ?_⟩
      split at he
      · rw [List.mem_singleton.mp he]
        exact hvalue hsome
      · cases he

/-- What is passed to a constructor is made of fixed texts and of the values of attributes. -/
theorem all_argumentsOf {ns : List NumberedNode} : (argumentsOf g scopes ns).All P := by
  induction ns with
  | nil => exact ⟨by simp [argumentsOf], by simp [argumentsOf]⟩
  | cons n ns ih =>
    rw [argumentsOf]
    split
    · exact (all_attributeArguments hliteral hvalue).append ih
    · exact ih

end All

variable (S) in
/-- Whether the mappings of a node draw on the inputs. -/
structure DrawsOn (n : NumberedNode) : Prop where
  mappings : ∀ m ∈ n.mappingList, S.Allow m.input
  numbered : ∀ nm ∈ n.numbered, nm.mapping ∈ n.mappingList

theorem DrawsOn.allow (h : DrawsOn S n) {nm : NumberedMapping} (hnm : nm ∈ n.numbered) :
    S.Allow nm.mapping.input :=
  h.mappings _ (h.numbered nm hnm)

theorem safe_attributeArguments (hn : DrawsOn S n) :
    SafeArguments S used scopes (attributeArguments g scopes n) := by
  rw [attributeArguments]
  split
  · refine ⟨.nil, ?_, by simp, fun v hv => ?_, by simp⟩
    · intro v hv x hx
      obtain ⟨s, -, rfl⟩ := List.mem_map.mp hv
      simp [Expression.variables] at hx
    · obtain ⟨s, -, rfl⟩ := List.mem_map.mp hv
      rfl
  · simp only
    split
    · exact .none
    · next value hvalue =>
      have hreads : ∀ x ∈ value.variables,
          x ∈ (attributeLets g scopes n 0 (g.emitted n)).definitions := by
        intro x hx
        obtain ⟨i, hi, rfl⟩ := variables_attributeValue? hvalue x hx
        rw [← Nat.zero_add i]
        exact mem_definitions_attributeLets 0 hi
      have hguards : ∀ e ∈ (if (g.emitted n).any fun nm => nm.table.isSome then [value] else []),
          e = value := by
        intro e he
        split at he
        · exact List.mem_singleton.mp he
        · cases he
      refine ⟨safe_attributeLets 0 fun nm hnm =>
        hn.allow (Setting.mem_numbered_of_mem_emitted hnm), ?_, ?_, ?_, ?_⟩
      · simpa using hreads
      · exact fun e he => hguards e he ▸ hreads
      · simpa using calls_attributeValue? hvalue
      · exact fun e he => hguards e he ▸ calls_attributeValue? hvalue

theorem safe_argumentsOf : ∀ {ns : List NumberedNode}, (∀ n ∈ ns, DrawsOn S n) →
    SafeArguments S used scopes (argumentsOf g scopes ns)
  | [], _ => .none
  | n :: rest, h => by
    have hrest : SafeArguments S used scopes (argumentsOf g scopes rest) :=
      safe_argumentsOf fun n' hn' => h n' (List.mem_cons_of_mem _ hn')
    rw [argumentsOf]
    split
    · exact (safe_attributeArguments (h n List.mem_cons_self)).append hrest
    · exact hrest

/-! ### Constructors -/

theorem Safe.guardedBy {body : Block} : ∀ {guards : List Expression},
    (∀ e ∈ guards, ∀ x ∈ e.variables, Knows scopes known x) → (∀ e ∈ guards, e.calls = []) →
      Safe S used scopes known body → Safe S used scopes known (Arguments.guarded guards body)
  | [], _, _, h => h
  | _ :: _, hguards, hcalls, h =>
    .guarded (hguards _ List.mem_cons_self) (hcalls _ List.mem_cons_self)
      (guardedBy (fun e he => hguards e (List.mem_cons_of_mem _ he))
        (fun e he => hcalls e (List.mem_cons_of_mem _ he)) h)

/-- A constructor reads what its arguments bind ahead of it and what is known. -/
theorem safe_construct {a : Arguments} (ha : SafeArguments S used scopes a) {tag : Tag}
    {value : Option Expression} {body : Block}
    (hvalue : ∀ e ∈ value, (∀ x ∈ e.variables, Knows scopes known x) ∧ e.calls = [])
    (hbody : Safe S used scopes known body) :
    Safe S used scopes known (a.construct tag value body) := by
  have hbound : ∀ x ∈ a.lets.definitions, Knows scopes (known ++ a.lets.definitions) x :=
    fun x hx => .inr (.inr (List.mem_append_right _ hx))
  have hknown : ∀ x, Knows scopes known x → Knows scopes (known ++ a.lets.definitions) x :=
    fun x hx => hx.imp_right (Or.imp_right (List.mem_append_left _))
  refine (ha.lets.weaken (List.nil_subset _)).append
    (.guardedBy ?_ ha.guardCalls (.around rfl ?_ ?_ ?_ ?_))
  · exact fun e he x hx => hbound x (ha.guards e he x hx)
  · intro x hx
    rw [Opening.variables, List.mem_append, Expression.mem_variablesOfAll,
      Expression.mem_variablesOfAll] at hx
    rcases hx with ⟨e, he, hx⟩ | ⟨e, he, hx⟩
    · obtain ⟨v, hv, rfl⟩ := List.mem_map.mp he
      exact hbound x (ha.values v hv x hx)
    · exact hknown x ((hvalue e (Option.mem_toList.mp he)).1 x hx)
  · intro f hf
    simp only [Opening.ownNames, Opening.calls] at hf
    rw [List.mem_append, Expression.mem_callsOfAll, Expression.mem_callsOfAll] at hf
    rcases hf with ⟨e, he, hf⟩ | ⟨e, he, hf⟩
    · obtain ⟨v, hv, rfl⟩ := List.mem_map.mp he
      rw [ha.valueCalls v hv] at hf
      cases hf
    · rw [(hvalue e (Option.mem_toList.mp he)).2] at hf
      cases hf
  · exact hbody.weaken (List.subset_append_left ..)
  · exact List.nil_subset _

/-! ### Opening scopes -/

theorem scope_eq_around (op : Operator) (var : String) (source : Expression) (body : Block) :
    ∃ o : Opening, Block.scope op var source body = .around o body ∧ o.scopeVar? = some var ∧
      o.variables = source.variables ∧ o.ownNames = source.calls ∧ o.isJoin = source.isJoin ∧
      o.definitions body.definitions = [] := by
  unfold Block.scope
  split
  · exact ⟨_, rfl, rfl, rfl, rfl, rfl, rfl⟩
  · exact ⟨_, rfl, rfl, rfl, rfl, rfl, rfl⟩
  · exact ⟨_, rfl, rfl, rfl, rfl, rfl, rfl⟩
  · exact ⟨_, rfl, rfl, rfl, rfl, rfl, rfl⟩

/-- A scope that is opened for a safe block. -/
theorem Safe.opened {used' : Nat} {b : Binding} {o : Opening} {body : Block}
    (hreads : ∀ x ∈ o.variables, Knows scopes known x) (hown : o.ownNames = [])
    (hdefined : o.definitions body.definitions = [])
    (hpush : ∀ c, Tracks S used scopes c → Apart S c o ∧ Tracks S used' (b :: scopes) (c.enter o))
    (hbody : Safe S used' (b :: scopes) known body) :
    Safe S used scopes known (.around o body) where
  meets c hc hknown := Block.meets_around.mpr
    ⟨⟨fun x hx => hc.sees hknown (hreads x hx), (hpush c hc).1, by simp [hown]⟩,
      hbody.meets _ (hpush c hc).2 fun x hx => (hknown x hx).enter o⟩
  defined := by simp [Block.around, Block.definitions, hdefined]

theorem knows_head (b : Binding) : Knows (b :: scopes) known b.var :=
  .inr (.inl ⟨b, List.mem_cons_self, rfl⟩)

/-- A scope over a tag, navigated from a known variable. -/
theorem Safe.tagScope {t : Tag} (ht : S.tag t) {op : Operator} {key : BindingKey} {var : String}
    {body : Block} (hvar : Knows scopes known var)
    (hbody : Safe S used (⟨key, scopes.freshVar t⟩ :: scopes) known body) :
    Safe S used scopes known (Block.scope op (scopes.freshVar t) (.nav var [t]) body) := by
  obtain ⟨o, ho, hscope, hreads, hown, hjoin, hdefined⟩ :=
    scope_eq_around op (scopes.freshVar t) (.nav var [t]) body
  rw [ho]
  refine .opened ?_ hown hdefined (fun c hc => ⟨?_, ?_⟩) hbody
  · rw [hreads, Expression.variables, List.forall_mem_singleton]
    exact hvar
  · exact hc.apart_freshVar ht (o.binder?_of_scopeVar? hscope) hjoin
  · exact hc.push (Nat.le_refl _) hscope (freshVar_ne_inputVar scopes t) (by simp [hjoin,
      Expression.isJoin]) fun _ => madeFrom_freshVar scopes ht

/-- A scope over a join with a number beyond those in use. -/
theorem Safe.joinScope {k used' : Nat} (hlow : used < k) (hhigh : k ≤ used') {op : Operator}
    {key : BindingKey} {var : String} {keys : List Tag} {body : Block}
    (hvar : Knows scopes known var)
    (hbody : Safe S used' (⟨key, joinVar k⟩ :: scopes) known body) :
    Safe S used scopes known (Block.scope op (joinVar k) (.mapJoin var keys) body) := by
  obtain ⟨o, ho, hscope, hreads, hown, hjoin, hdefined⟩ :=
    scope_eq_around op (joinVar k) (.mapJoin var keys) body
  rw [ho]
  refine .opened ?_ hown hdefined (fun c hc => ⟨?_, ?_⟩) hbody
  · rw [hreads, Expression.variables, List.forall_mem_singleton]
    exact hvar
  · refine .join (o.binder?_of_scopeVar? hscope) hjoin (fun o' ho' hx => ?_) fun hmem =>
      (hc.defined _ hmem).ne_joinVar k rfl
    cases hjoin' : o'.isJoin with
    | true =>
      obtain ⟨j, hj, heq⟩ := hc.joined o' ho' _ hx hjoin'
      have := joinVar_injective heq
      omega
    | false => exact ⟨rfl, hc.made o' ho' _ hx hjoin'⟩
  · exact hc.push (by omega) hscope (joinVar_ne_inputVar k) (fun _ => ⟨k, hhigh, rfl⟩)
      (by simp [hjoin, Expression.isJoin])

/-- The scopes over some tags in turn are safe around what is safe within them. -/
theorem safe_openSteps {final : Operator} {depth : Nat} : ∀ {ts : List Tag} {bound : Path}
    {var : String} {scopes : Scopes} {b : Block}, Knows scopes known var → (∀ t ∈ ts, S.tag t) →
      Safe S used (openSteps final depth bound var scopes ts).scopes known b →
      Safe S used scopes known (wrap (openSteps final depth bound var scopes ts).frames b)
  | [], _, _, _, _, _, _, h => h
  | t :: _, _, _, _, _, hvar, hts, h =>
    .tagScope (hts t List.mem_cons_self) hvar
      (safe_openSteps (knows_head _) (fun t' ht' => hts t' (List.mem_cons_of_mem _ ht')) h)

theorem knows_openSteps {final : Operator} {depth : Nat} : ∀ {ts : List Tag} {bound : Path}
    {var : String} {scopes : Scopes}, Knows scopes known var →
      Knows (openSteps final depth bound var scopes ts).scopes known
        (openSteps final depth bound var scopes ts).var
  | [], _, _, _, h => h
  | t :: _, bound, _, scopes, _ => by
    rw [openSteps]
    exact knows_openSteps (knows_head ⟨.path (bound.child t), scopes.freshVar t⟩)

theorem safe_openPath {final : Operator} {depth : Nat} {target : Path} {b : Block}
    (htags : ∀ t ∈ target.tags, S.tag t)
    (h : Safe S used (openPath final depth scopes target).scopes known b) :
    Safe S used scopes known (wrap (openPath final depth scopes target).frames b) :=
  safe_openSteps (knows_nearest scopes target) (fun t ht => htags t (List.mem_of_mem_drop ht)) h

theorem knows_openPath {final : Operator} {depth : Nat} {target : Path} :
    Knows (openPath final depth scopes target).scopes known
      (openPath final depth scopes target).var :=
  knows_openSteps (knows_nearest scopes target)

/-- The tags of the parent of a path are among those of the path. -/
theorem tags_parent? {p q : Path} (h : p.parent? = some q) : ∀ t ∈ q.tags, t ∈ p.tags := by
  rw [Path.parent?] at h
  split at h
  · simp at h
  · rw [Option.some.injEq] at h
    subst h
    exact fun t ht => List.dropLast_subset _ ht

theorem wrap_concat (frames : List Frame) (f : Frame) (b : Block) :
    wrap (frames ++ [f]) b = wrap frames (Block.scope f.operator f.var f.source b) := by
  rw [wrap, wrap, List.foldr_append]; rfl

theorem tags_parentOrSelf (p : Path) : ∀ t ∈ (p.parent?.getD p).tags, t ∈ p.tags := by
  cases h : p.parent? with
  | none => exact fun _ ht => ht
  | some q => exact tags_parent? h

/-- The scopes that bind a mapping's input are safe around what is safe within them. The number of
the mapping's join is beyond those in use. -/
theorem safe_openInput {used' : Nat} {nm : NumberedMapping} {b : Block}
    (hm : ∀ t ∈ nm.mapping.input.tags, S.tag t) (hle : used ≤ used')
    (hjoin : ∀ k, nm.join = some k → used < k ∧ k ≤ used')
    (h : Safe S used' (openInput scopes n nm).scopes known b) :
    Safe S used scopes known (wrap (openInput scopes n nm).frames b) := by
  have htarget := fun t ht => hm t (tags_parentOrSelf nm.mapping.input t ht)
  rw [openInput] at h ⊢
  cases hk : nm.join with
  | none =>
    simp only [hk] at h ⊢
    exact safe_openPath hm (h.mono hle)
  | some k =>
    obtain ⟨hlow, hhigh⟩ := hjoin k hk
    simp only [hk, openJoin] at h ⊢
    split at h
    · exact safe_openPath htarget (h.mono hle)
    · rw [wrap_concat]
      exact safe_openPath htarget (.joinScope hlow hhigh knows_openPath h)

theorem knows_openInput {nm : NumberedMapping} :
    Knows (openInput scopes n nm).scopes known (openInput scopes n nm).var := by
  rw [openInput]
  cases nm.join with
  | none => exact knows_openPath
  | some k =>
    simp only [openJoin]
    split
    · next x hx => exact knows_joinVar? hx
    · exact knows_head _

/-! ### Mapped nodes -/

theorem rootMembership?_of_choiceValue? {e : Expression} (h : e ∈ choiceValue? n) :
    ∃ m ∈ n.rootMembership?, e = .literal m.choice.value := by
  rw [choiceValue?] at h
  split at h
  · next m hm =>
    split at h
    · exact ⟨m, hm, (Option.some.inj h).symm⟩
    · cases h
  · cases h

theorem safe_constructor {ns : List NumberedNode} (hns : ∀ n' ∈ ns, DrawsOn S n')
    {snippet : Option Snippet} {value : Expression} {inner : Scopes → Block}
    (hvalue : ∀ x ∈ value.variables, Knows scopes known x) (hcalls : value.calls = [])
    (hinner : Safe S used scopes [] (inner scopes)) :
    Safe S used scopes known (constructor g scopes n ns snippet value inner) := by
  have hargs : SafeArguments S used scopes (argumentsOf g scopes ns) := safe_argumentsOf hns
  have hchoice : ∀ e ∈ choiceValue? n, e.variables = [] ∧ e.calls = [] := by
    intro e he
    obtain ⟨m, -, rfl⟩ := rootMembership?_of_choiceValue? he
    exact ⟨rfl, rfl⟩
  have hcode : Safe S used scopes known (snippet.elim .nil fun s => .one (.code s.code)) := by
    cases snippet with
    | none => exact .nil
    | some s => exact .code s.code
  simp only [constructor]
  split
  · cases snippet with
    | some s => exact safe_construct hargs (by simp) hcode
    | none =>
      refine safe_construct hargs (fun e he => ?_) .nil
      rw [Option.mem_some] at he
      subst he
      cases hc : choiceValue? n with
      | none => exact ⟨hvalue, hcalls⟩
      | some e => simp [hchoice e hc]
  · refine safe_construct hargs (fun e he => by simp [hchoice e he]) (hcode.seq ?_)
    exact hinner.weaken (List.nil_subset _)

theorem safe_emit {ns : List NumberedNode} (hns : ∀ n' ∈ ns, DrawsOn S n')
    {nm : NumberedMapping} {value : Expression} {inner : Scopes → Block}
    (hvalue : ∀ x ∈ value.variables, Knows scopes [] x) (hcalls : value.calls = [])
    (hinner : Safe S used scopes [] (inner scopes)) :
    Safe S used scopes [] (emit g scopes n ns nm value inner) := by
  simp only [emit]
  split
  · next k _ =>
    -- The term is defined ahead, and read by the guard and the constructor.
    have hterm : ∀ x ∈ (Expression.var (termVar k)).variables, Knows scopes [termVar k] x := by
      simp [Expression.variables, Knows]
    refine (Safe.define (.term k) ?_ ?_).append
      (.guarded hterm rfl (safe_constructor hns hterm rfl hinner))
    · simpa [Expression.variables, Expression.variablesOfAll] using hvalue
    · simpa [Expression.calls, Expression.callsOfAll, hcalls] using .lookup k
  · exact safe_constructor hns hvalue hcalls hinner

theorem safe_fallback (snippet : Option Snippet) :
    Safe S used scopes known (fallback n snippet) := by
  rw [fallback]
  split
  · refine .around rfl (by simp [Opening.variables, Condition.variables])
      (by simp [Opening.ownNames, Opening.calls, Condition.calls]) ?_ (List.nil_subset _)
    exact .around rfl (by simp [Opening.variables, Expression.variablesOfAll])
      (by simp [Opening.ownNames, Opening.calls, Expression.callsOfAll]) (.code _)
      (List.nil_subset _)
  · exact .nil

theorem safe_mappingBlock {ns : List NumberedNode} (hns : ∀ n' ∈ ns, DrawsOn S n') {used' : Nat}
    {nm : NumberedMapping} {inner : Scopes → Block} (hm : ∀ t ∈ nm.mapping.input.tags, S.tag t)
    (hle : used ≤ used') (hjoin : ∀ k, nm.join = some k → used < k ∧ k ≤ used')
    (hinner : ∀ scopes, Safe S used' scopes [] (inner scopes)) :
    Safe S used scopes [] (mappingBlock g scopes n ns nm inner) := by
  refine Safe.seq ?_ (safe_fallback _)
  cases nm.mapping.literal? with
  | some s => exact safe_emit hns (by simp [Expression.variables]) rfl ((hinner scopes).mono hle)
  | none =>
    refine safe_openInput hm hle hjoin (safe_emit hns ?_ rfl (hinner _))
    rw [Expression.variables, List.forall_mem_singleton]
    exact knows_openInput

/-! ### Nodes -/

/-- The inputs of the nearest mappings below a node are inputs of its labels' mappings. -/
theorem mem_frontier {p : Path} : ∀ {f : Forest NumberedNode}, p ∈ frontier f →
    ∃ n ∈ f.labels, ∃ m ∈ n.mappingList, m.isConstant = false ∧ p = m.input
  | .nil, h => by simp [frontier] at h
  | .tree n below next, h => by
    rw [frontier, List.mem_append] at h
    rcases h with h | h
    · split at h
      · obtain ⟨m, hm, rfl⟩ := List.mem_map.mp h
        obtain ⟨hm, hdrawn⟩ := List.mem_filter.mp hm
        rw [Bool.not_eq_true'] at hdrawn
        exact ⟨n, List.mem_cons_self, m, hm, hdrawn, rfl⟩
      · obtain ⟨n', hn', hm⟩ := mem_frontier h
        exact ⟨n', Forest.mem_labels_of_mem_below hn', hm⟩
    · obtain ⟨n', hn', hm⟩ := mem_frontier h
      exact ⟨n', Forest.mem_labels_of_mem_next hn', hm⟩

/-- The common parent of the nearest mappings is that of the input of some mapping. -/
theorem exists_mapping_of_commonParent? {f : Forest NumberedNode} {p : Path}
    (h : commonParent? f = some p) : ∃ n ∈ f.labels, ∃ m ∈ n.mappingList,
      m.isConstant = false ∧ m.input.parent? = some p := by
  rw [commonParent?] at h
  split at h
  · cases h
  · next input others hfrontier =>
    obtain ⟨hparent, -⟩ := Option.filter_eq_some_iff.mp h
    obtain ⟨n, hn, m, hm, hdrawn, rfl⟩ := mem_frontier (hfrontier ▸ List.mem_cons_self)
    exact ⟨n, hn, m, hm, hdrawn, hparent⟩

/-- The common parent of the nearest mappings is made of tags that their inputs have. -/
theorem tags_commonParent? {f : Forest NumberedNode} (hf : ∀ n ∈ f.labels, DrawsOn S n) {p : Path}
    (h : commonParent? f = some p) : ∀ t ∈ p.tags, S.tag t := by
  obtain ⟨n, hn, m, hm, -, hparent⟩ := exists_mapping_of_commonParent? h
  exact fun t ht => ((hf n hn).mappings m hm).1 t (tags_parent? hparent t ht)

theorem safe_branch {isRoot : Bool} {below : Forest NumberedNode}
    (hbelow : ∀ n' ∈ below.labels, DrawsOn S n') {inner : Scopes → Block}
    (hinner : ∀ scopes, Safe S used scopes [] (inner scopes)) :
    Safe S used scopes [] (branch g isRoot scopes n below inner) := by
  have htops := fun n' hn' => hbelow n' (Forest.mem_labels_of_mem_tops hn')
  rw [branch]
  split
  · next parent hparent =>
    have hcommon : commonParent? below = some parent := by
      split at hparent
      · simp at hparent
      · exact hparent
    exact safe_mappingBlock htops (tags_commonParent? hbelow hcommon) (Nat.le_refl _) (by simp)
      hinner
  · simp only
    split
    · exact .nil
    · exact safe_construct (safe_argumentsOf htops) (by simp) (hinner scopes)

/-- What a node emits is safe if what is below it is, with the numbers of the node's own joins in
use besides. -/
theorem safe_nodeBlock {isRoot : Bool} {below : Forest NumberedNode} {used' : Nat}
    (hn : DrawsOn S n) (hbelow : ∀ n' ∈ below.labels, DrawsOn S n') (hle : used ≤ used')
    (hjoin : ∀ nm ∈ n.numbered, ∀ k, nm.join = some k → used < k ∧ k ≤ used')
    {inner : Scopes → Block} (hinner : ∀ scopes, Safe S used' scopes [] (inner scopes)) :
    Safe S used scopes [] (nodeBlock g isRoot scopes n below inner) := by
  have htops := fun n' hn' => hbelow n' (Forest.mem_labels_of_mem_tops hn')
  rw [nodeBlock]
  split
  · exact .nil
  split
  · split
    · exact safe_construct (safe_argumentsOf htops)
        (by simp [Expression.variables, Expression.calls]) .nil
    · exact .nil
  split
  · exact .nil
  split
  · refine .join fun b hb => ?_
    obtain ⟨nm, hnm, rfl⟩ := List.mem_map.mp hb
    have hnumbered := Setting.mem_numbered_of_mem_emitted hnm
    exact .marked (safe_mappingBlock htops (hn.allow hnumbered).1 hle (hjoin nm hnumbered) hinner)
  · exact safe_branch hbelow fun scopes => (hinner scopes).mono hle

/-! ### Numbered trees -/

open Crosswalk.Numbering

theorem drawsOn_numberNode {n : Node} (h : ∀ m ∈ n.mappingList, S.Allow m.input)
    (tables joined : Nat) : DrawsOn S (numberNode tables joined n) :=
  ⟨h, fun _ hnm => mapping_mem_of_mem_numbered hnm⟩

theorem drawsOn_number {f : Forest Node}
    (h : ∀ n ∈ f.labels, ∀ m ∈ n.mappingList, S.Allow m.input) {tables joined : Nat} :
    ∀ n ∈ (number tables joined f).labels, DrawsOn S n := by
  intro n hn
  obtain ⟨n', hn', i, j, rfl⟩ := mem_labels_number hn
  exact drawsOn_numberNode (h n' hn') i j

/-- The induction is on the forest: the joins of a node have smaller numbers than those below it,
so the scopes around any statement bind joins of different numbers. -/
theorem safe_blockOf : ∀ {f : Forest Node} {tables joined : Nat} (scopes : Scopes),
    (∀ n ∈ f.labels, ∀ m ∈ n.mappingList, S.Allow m.input) →
      Safe S joined scopes [] (blockOf g (number tables joined f) scopes)
  | .nil, _, _, _, _ => .nil
  | .tree n below next, tables, joined, scopes, h => by
    obtain ⟨hn, hbelow, hnext⟩ := Forest.forall_labels_tree.mp h
    rw [number, blockOf]
    refine Safe.seq ?_ ((safe_blockOf scopes hnext).mono (by omega))
    exact safe_nodeBlock (drawsOn_numberNode hn _ _) (drawsOn_number hbelow) (Nat.le_add_right ..)
      (fun nm hnm k => join_mem_numberMappings hnm) fun scopes => safe_blockOf scopes hbelow

theorem safe_outputOf {f : Forest Node}
    (h : ∀ n ∈ f.labels, ∀ m ∈ n.mappingList, S.Allow m.input) :
    Safe S 0 [] [] (outputOf g (number 0 0 f)) := by
  cases f with
  | nil => exact .nil
  | tree n below next =>
    obtain ⟨hn, hbelow, -⟩ := Forest.forall_labels_tree.mp h
    simp only [number, outputOf]
    split
    · refine safe_construct (safe_argumentsOf fun n' hn' => ?_) (by simp) .nil
      exact drawsOn_number hbelow n' (Forest.mem_labels_of_mem_tops hn')
    · exact safe_nodeBlock (drawsOn_numberNode hn _ _) (drawsOn_number hbelow)
        (Nat.le_add_right ..) (fun nm hnm k => join_mem_numberMappings hnm)
        fun scopes => safe_blockOf scopes hbelow

end Emission

open Emission

/-! ### Reading -/

/-- The inputs that some tree has mappings from. -/
def MappingTree.sources (t : MappingTree) : Sources where
  tag tag := ∃ n ∈ t.nodes, ∃ m ∈ n.mappingList, tag ∈ m.input.tags
  whole := ∃ n ∈ t.nodes, ∃ m ∈ n.mappingList, m.input.tags = []

theorem MappingTree.meets_output (t : MappingTree) (snippets : SnippetStore)
    (focus : Option Focus) :
    (t.program snippets focus).1.output.Meets (sound t.sources) {} := by
  have hdraws : ∀ n ∈ t.forest.labels, ∀ m ∈ n.mappingList, t.sources.Allow m.input :=
    fun n hn m hm => ⟨fun tag htag => ⟨n, hn, m, hm, htag⟩, fun h => ⟨n, hn, m, hm, h⟩⟩
  exact (safe_outputOf hdraws).meets {} .start (by simp)

/-- Whatever is mapped, every variable of a generated program is the interpreter's, or that of a
scope around it, or one defined ahead of it. -/
theorem MappingTree.wellScoped_output (t : MappingTree) (snippets : SnippetStore)
    (focus : Option Focus) : (t.program snippets focus).1.output.WellScoped := by
  refine Block.Meets.imp ?_ ?_ (t.meets_output snippets focus)
  · exact fun _ _ h => h.1
  · exact fun _ _ h => h.1

/-! ### Names -/

theorem Emission.Apart.isPlainName {S : Sources} {c : Context} {o : Opening} (h : Apart S c o)
    {x : String} (hx : x ∈ o.binder?) : Text.isPlainName x = true := by
  cases h with
  | silent h => simp [h] at hx
  | record =>
    obtain rfl := Option.some.inj hx
    decide
  | tag h _ hmade =>
    obtain rfl := Option.some.inj (h.symm.trans hx)
    obtain ⟨t, j, -, rfl⟩ := hmade
    exact isPlainName_candidate t j
  | @join o k h =>
    obtain rfl := Option.some.inj (h.symm.trans hx)
    exact Text.isPlainName_append (by decide) (Text.isWord_numeral k)

/-- Where all that has a meaning has a plain name, a sound block has plain names only. -/
theorem Emission.isPlainName_of_sound {S : Sources} {b : Block} : ∀ {c : Context},
    b.Meets (sound S) c → (∀ x, c.Has x → Text.isPlainName x = true) →
      ∀ x ∈ b.names, Text.isPlainName x = true := by
  induction b with
  | nil => intro c _ _ x hx; cases hx
  | simple s rest ih =>
    rintro c ⟨⟨hreads, hown⟩, hrest⟩ hc x hx
    have hs : ∀ x ∈ s.variables ++ s.ownNames, Text.isPlainName x = true := by
      intro x hx
      rcases List.mem_append.mp hx with hx | hx
      · exact hc x (hreads x hx).has
      · exact (hown x hx).isPlainName
    rcases List.mem_append.mp hx with hx | hx
    · exact hs x hx
    · refine ih hrest (fun y hy => (Context.has_define hy).elim (fun hy => ?_) (hc y)) x hx
      cases s with
      | define var value =>
        rw [List.mem_singleton.mp hy]
        exact hs _ (List.mem_append_right _ List.mem_cons_self)
      | _ => cases hy
  | nested o body rest hbody hrest =>
    rintro c ⟨⟨hreads, hapart, hown⟩, hinside, hafter⟩ hc
    have hin : ∀ x ∈ body.names, Text.isPlainName x = true :=
      hbody hinside fun y hy => (Context.has_enter hy).elim hapart.isPlainName (hc y)
    have hdefined : ∀ x ∈ o.definitions body.definitions, Text.isPlainName x = true := by
      intro x hx
      cases o with
      | mapping => exact hin x (Block.mem_names_of_mem_definitions hx)
      | compute var param arg =>
        rw [List.mem_singleton.mp hx]
        exact (hown var List.mem_cons_self).isPlainName
      | _ => cases hx
    intro x hx
    simp only [Block.names, List.mem_append, Option.mem_toList] at hx
    rcases hx with (((hx | hx) | hx) | hx) | hx
    · exact hc x (hreads x hx).has
    · exact hapart.isPlainName hx
    · exact (hown x hx).isPlainName
    · exact hin x hx
    · exact hrest hafter (fun y hy => (Context.has_define hy).elim (hdefined y) (hc y)) x hx

/-- Every variable, function and table of a generated program has a plain name. -/
theorem MappingTree.isPlainName_output (t : MappingTree) (snippets : SnippetStore)
    (focus : Option Focus) :
    ∀ x ∈ (t.program snippets focus).1.output.names, Text.isPlainName x = true := by
  refine isPlainName_of_sound (t.meets_output snippets focus) fun x hx => ?_
  rcases hx with rfl | ⟨o, ho, -⟩ | hx
  · decide
  · cases ho
  · cases hx

theorem Emission.isPlainName_hoisted {tables : List HoistedTable} {code : Block} {x : String}
    {s : Simple} (hs : s ∈ hoisted tables code) (hx : x ∈ s.variables ++ s.ownNames) :
    Text.isPlainName x = true := by
  obtain ⟨function, -, hs⟩ := List.mem_flatMap.mp hs
  split at hs
  · next table _ =>
    have htable : Text.isPlainName (tableName table.number) = true :=
      Text.isPlainName_append (by decide) (Text.isWord_numeral _)
    have hlookup : Text.isPlainName (lookupName table.number) = true :=
      (IsOwn.lookup table.number).isPlainName
    simp only [declarations, List.mem_cons, List.not_mem_nil, or_false] at hs
    rcases hs with rfl | rfl
    · rw [List.mem_singleton.mp hx]
      exact htable
    · simp only [Simple.variables, Simple.ownNames, List.nil_append, List.mem_cons,
        List.not_mem_nil, or_false] at hx
      rcases hx with rfl | rfl
      · exact hlookup
      · exact htable
  · cases hs

/-- Every name in a generated program is plain. -/
theorem MappingTree.isPlainName_program (t : MappingTree) (snippets : SnippetStore)
    (focus : Option Focus) :
    ∀ x ∈ (t.program snippets focus).1.names, Text.isPlainName x = true := by
  intro x hx
  rcases List.mem_append.mp hx with hx | hx
  · simp only [program, Block.names_ofSimple] at hx
    obtain ⟨s, hs, hx⟩ := List.mem_flatMap.mp hx
    rcases List.mem_append.mp hs with hs | hs
    · obtain ⟨n, -, rfl⟩ := List.mem_map.mp hs
      cases hx
    · exact isPlainName_hoisted hs hx
  rcases List.mem_append.mp hx with hx | hx
  · exact t.isPlainName_output snippets focus x hx
  · simp only [program, Block.names_ofSimple] at hx
    obtain ⟨s, hs, hx⟩ := List.mem_flatMap.mp hx
    rcases List.mem_append.mp hs with hs | hs
    · obtain ⟨a, -, rfl⟩ := List.mem_map.mp hs
      cases hx
    · obtain ⟨m, -, rfl⟩ := List.mem_map.mp hs
      cases hx

/-! ### Shadowing -/

/-- Whether the name that a statement binds meets one that generated code makes for itself. A scope
or parameter named after a source tag meets a variable defined ahead; a join meets a scope around it
that is named after a source tag; and the parameter of code that reads the whole record is named
like the interpreter's variable. -/
def Context.Clash (c : Context) : Opening → Prop
  | .compute _ param _ => param = inputVar ∨ param ∈ c.defined
  | o => ∃ x ∈ o.scopeVar?,
      if o.isJoin then ∃ o' ∈ c.around, o'.isJoin = false ∧ o'.binder? = some x else x ∈ c.defined

/-- Whether no bound name meets one that generated code makes for itself. -/
def Block.NoClash (b : Block) : Prop := b.Meets { opening := fun c o => ¬c.Clash o } {}

theorem Context.Clash.has {c : Context} {o : Opening} (h : c.Clash o) :
    ∃ x ∈ o.binder?, c.Has x := by
  unfold Clash at h
  split at h
  · next param _ =>
    exact ⟨param, rfl, h.imp_right .inr⟩
  · obtain ⟨x, hx, h⟩ := h
    refine ⟨x, o.binder?_of_scopeVar? hx, .inr ?_⟩
    split at h
    · obtain ⟨o', ho', -, hx'⟩ := h
      exact .inl ⟨o', ho', hx'⟩
    · exact .inr h

/-- A name that stands apart has a meaning only if it clashes. -/
theorem Emission.Apart.clash {S : Sources} {c : Context} {o : Opening} (h : Apart S c o)
    {x : String} (hx : x ∈ o.binder?) (hhas : c.Has x) : c.Clash o := by
  cases h with
  | silent h => simp [h] at hx
  | record => exact .inl rfl
  | tag h hjoin _ hinput hnew _ =>
    obtain rfl := Option.some.inj (h.symm.trans hx)
    have hmem : _ ∈ c.defined := (hhas.resolve_left hinput).resolve_left
      fun ⟨o', ho', hx'⟩ => hnew o' ho' hx'
    cases o with
    | compute => obtain rfl := Option.some.inj hx; exact .inr hmem
    | loop | bind => exact ⟨_, hx, by rw [if_neg (by simp [hjoin])]; exact hmem⟩
    | _ => simp [Opening.binder?] at hx
  | @join o k h hjoin hnew hdefined =>
    obtain rfl := Option.some.inj (h.symm.trans hx)
    obtain ⟨o', ho', hx'⟩ := (hhas.resolve_left (joinVar_ne_inputVar k)).resolve_right hdefined
    cases o with
    | loop | bind =>
      exact ⟨_, hx, by rw [if_pos hjoin]; exact ⟨o', ho', (hnew o' ho' hx').1, hx'⟩⟩
    | _ => simp [Opening.isJoin] at hjoin

/-- A name that stands apart has no meaning if no source tag spells a generated name and no input is
the whole record. -/
theorem Emission.Apart.not_has {S : Sources} {c : Context} {o : Opening} (h : Apart S c o)
    (htags : ∀ t, S.tag t → ¬t.SpellsGenerated) (hwhole : ¬S.whole) {x : String}
    (hx : x ∈ o.binder?) : ¬c.Has x := by
  intro hhas
  cases h with
  | silent h => simp [h] at hx
  | record hrecord => exact hwhole hrecord
  | tag h _ hmade hinput hnew hdefined =>
    obtain rfl := Option.some.inj (h.symm.trans hx)
    have hmem : _ ∈ c.defined := (hhas.resolve_left hinput).resolve_left
      fun ⟨o', ho', hx'⟩ => hnew o' ho' hx'
    obtain ⟨t, j, ht, rfl⟩ := hmade
    exact htags t ht (spellsGenerated_of_isDefinition rfl (hdefined hmem))
  | @join o k h _ hnew hdefined =>
    obtain rfl := Option.some.inj (h.symm.trans hx)
    obtain ⟨o', ho', hx'⟩ := (hhas.resolve_left (joinVar_ne_inputVar k)).resolve_right hdefined
    obtain ⟨t, j, ht, hmade⟩ := (hnew o' ho' hx').2
    exact htags t ht (spellsGenerated_of_eq_joinVar hmade.symm)

/-- Bound names of a generated program shadow nothing exactly if none meets a name that generated
code makes for itself: those of the scopes around never recur among the names made from tags. None
does if no source tag spells a generated name and no input is the whole record. -/
theorem MappingTree.noShadowing_output_iff (t : MappingTree) (snippets : SnippetStore)
    (focus : Option Focus) :
    ((t.program snippets focus).1.output.NoShadowing ↔
      (t.program snippets focus).1.output.NoClash) ∧
    ((∀ tag, t.sources.tag tag → ¬tag.SpellsGenerated) → ¬t.sources.whole →
      (t.program snippets focus).1.output.NoShadowing) := by
  refine ⟨⟨?_, fun h => ?_⟩, fun htags hwhole => ?_⟩
  · refine Block.Meets.imp (fun _ _ _ => trivial) fun c o hfree hclash => ?_
    obtain ⟨x, hx, hhas⟩ := hclash.has
    exact hfree x hx hhas
  · refine Block.Meets.imp (fun _ _ _ => trivial) ?_ ((t.meets_output snippets focus).and h)
    rintro c o ⟨⟨-, hapart, -⟩, hfree⟩ x hx hhas
    exact hfree (hapart.clash hx hhas)
  · refine Block.Meets.imp (fun _ _ _ => trivial) ?_ (t.meets_output snippets focus)
    rintro c o ⟨-, hapart, -⟩ x hx
    exact hapart.not_has htags hwhole hx

/-- A record of a creator with an identifier and a name. -/
def creatorDeclaration : Declaration where
  root := { tag := .elem none "record" }
  content :=
    .elem { tag := .elem none "creator" }
      (.attr { tag := .attr none "id" } (.elem { tag := .elem none "name" } .nil .nil)) .nil

/-- What the record of a creator is resolved to. -/
def creatorRecord : Record where
  qualifier := ""
  version := ""
  namespaces := []
  root := { tag := .elem none "record" }
  below :=
    .single { tag := .elem none "creator", attributes := [{ tag := .attr none "id" }] }
      (.single { tag := .elem none "name" } .nil)
  fieldMarkers := []
  assertions := []

/-- Mappings of a creator from a source element that is named like the first join, and of its name
from two of the children together. -/
def joinNamedEdits : List Edit :=
  [.attach
      { output := .ofNames ["record", "creator"]
        input := .ofNames ["m", "M1"] },
    .attach
      { output := .ofNames ["record", "creator", "name"]
        input := .ofNames ["m", "M1", "a"]
        siblings := [.ofNames ["m", "M1", "b"]] }]

/-- The join shadows the scope around it that is named after the source element. -/
theorem creatorRecord_shadowing : creatorDeclaration.resolve = .ok creatorRecord ∧
    ¬(((MappingTree.ofRecord creatorRecord).afterEdits joinNamedEdits).program
      (fun _ => none) none).1.output.NoShadowing :=
  ⟨by with_unfolding_all rfl, by decide +kernel⟩

end Crosswalk
