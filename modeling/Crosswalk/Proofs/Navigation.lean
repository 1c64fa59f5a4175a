import Crosswalk.Proofs.Tables

/-!
Navigation. What is navigated from a variable is there only if the variable stands for nodes of the
record. A scope stands for the joined text of its matches if the operator of its mapping has a
delimiter, and all that draws on something beneath the same source path within it is navigated from
the text. Which paths are bound to text is a matter of the mappings around alone: so whether a block
navigates from nodes is decided of the nodes and mappings that it is emitted for, one function of the
emission after another.
-/

namespace Crosswalk

open Scopes

/-! ### Where navigation starts -/

mutual

/-- The variables that an expression navigates from. -/
def Expression.bases : Expression → List String
  | .var _ | .literal _ => []
  | .nav base _ | .mapJoin base _ => [base]
  | .joined e _ => e.bases
  | .first e => e.bases
  | .call _ args => basesOfAll args
  | .alternatives es => basesOfAll es

/-- The variables that some expressions navigate from. -/
def Expression.basesOfAll : List Expression → List String
  | [] => []
  | e :: es => e.bases ++ basesOfAll es

end

theorem Expression.basesOfAll_eq_nil {es : List Expression} (h : ∀ e ∈ es, e.bases = []) :
    basesOfAll es = [] := by
  induction es with
  | nil => rfl
  | cons e es ih =>
    rw [List.forall_mem_cons] at h
    rw [basesOfAll, h.1, ih h.2, List.nil_append]

/-- The variables that a condition navigates from. -/
def Condition.bases : Condition → List String
  | .present e => e.bases
  | .absent _ => []

/-- The variables that a statement with nothing inside navigates from. -/
def Simple.bases : Simple → List String
  | .define _ value => value.bases
  | _ => []

/-- The variables that the head of a statement navigates from. -/
def Opening.bases : Opening → List String
  | .loop _ source _ => source.bases
  | .bind _ value => value.bases
  | .compute _ _ arg => arg.bases
  | .guarded condition => condition.bases
  | .element _ attributes value =>
    Expression.basesOfAll (attributes.map Prod.snd) ++ Expression.basesOfAll value.toList
  | .mapping .. => []

/-- Whether what a statement binds are nodes of the record: it iterates, or binds what is navigated
to and not the joined text of it. -/
def Opening.bindsNodes : Opening → Bool
  | .loop .. => true
  | .bind _ (.nav ..) => true
  | _ => false

namespace Context

/-- The innermost statement around that binds a name. -/
def binderOf? (c : Context) (x : String) : Option Opening :=
  c.around.find? fun o => o.binder? == some x

/-- Whether a variable stands for nodes of the record: it is the interpreter's, or the innermost
statement around that binds it binds nodes. -/
def IsNodes (c : Context) (x : String) : Prop :=
  x = inputVar ∨ (c.binderOf? x).any Opening.bindsNodes = true

instance (c : Context) (x : String) : Decidable (c.IsNodes x) :=
  inferInstanceAs (Decidable (_ ∨ _))

variable {c : Context} {o : Opening} {x : String}

theorem binderOf?_enter_self (h : o.binder? = some x) : (c.enter o).binderOf? x = some o := by
  rw [binderOf?, enter, List.find?_cons, h, beq_self_eq_true]

theorem binderOf?_enter_of_ne (h : o.binder? ≠ some x) :
    (c.enter o).binderOf? x = c.binderOf? x := by
  rw [binderOf?, enter, List.find?_cons, beq_false_of_ne h, binderOf?]

end Context

/-- That all is navigated from nodes of the record. -/
def navigation : Judgment where
  simple c s := ∀ x ∈ s.bases, c.IsNodes x
  opening c o := ∀ x ∈ o.bases, c.IsNodes x

/-- Whether all that is navigated in a block is navigated from nodes of the record. -/
def Block.NavigatesNodes (b : Block) : Prop := b.Meets navigation {}

instance (b : Block) : Decidable b.NavigatesNodes :=
  inferInstanceAs (Decidable (b.Meets ⟨fun c s => ∀ x ∈ s.bases, c.IsNodes x, _⟩ _))

/-! ### Paths that are bound to text -/

namespace Emission

/-- Whether a path is navigated to from nodes, where some paths are bound to text: it is bound
itself, or what is bound above it are nodes. -/
def StartsAtNodes (scopes : Scopes) (texts : List Path) (p : Path) : Prop :=
  p.tags.drop (scopes.nearest p).1.length = [] ∨ (scopes.nearest p).1 ∉ texts

/-- The parent of the inputs that a mapping joins. -/
def joinedParent (nm : NumberedMapping) : Path :=
  nm.mapping.input.parent?.getD nm.mapping.input

/-- Whether a mapping navigates to its input, or to those it joins, from nodes. -/
def InputNavigable (scopes : Scopes) (texts : List Path) (nm : NumberedMapping) : Prop :=
  match nm.join with
  | none => StartsAtNodes scopes texts nm.mapping.input
  | some _ => StartsAtNodes scopes texts (joinedParent nm) ∧
      ((scopes.joinVar? (joinedParent nm) (nm.mapping.inputs.filterMap Path.last?)).isSome = true ∨
        joinedParent nm ∉ texts)

/-- The paths that are bound to text within the scopes of a mapping. It binds its input to text if
its operator has a delimiter and the input is not bound already. -/
def openedTexts (scopes : Scopes) (texts : List Path) (n : NumberedNode) (nm : NumberedMapping) :
    List Path :=
  if nm.join = none ∧ (operatorOf n nm.mapping).delimiter?.isSome = true ∧
      nm.mapping.input.tags.drop (scopes.nearest nm.mapping.input).1.length ≠ [] then
    nm.mapping.input :: texts
  else texts

/-- The paths that are bound to text within what a mapping emits. -/
def innerTexts (scopes : Scopes) (texts : List Path) (n : NumberedNode) (nm : NumberedMapping) :
    List Path :=
  match nm.mapping.literal? with
  | some _ => texts
  | none => openedTexts scopes texts n nm

/-- Whether the attributes among some nodes are navigated to from nodes of the record. -/
def AttributesNavigable (g : Setting) (scopes : Scopes) (texts : List Path)
    (ns : List NumberedNode) : Prop :=
  ∀ a ∈ ns, g.binds a = true → ∀ nm ∈ g.emitted a, nm.mapping.literal? = none →
    StartsAtNodes scopes texts nm.mapping.input

/-- Whether what a mapping emits is navigated to from nodes, if what is below its node is. -/
def MappingNavigable (g : Setting) (scopes : Scopes) (texts : List Path) (n : NumberedNode)
    (children : List NumberedNode) (nm : NumberedMapping)
    (inner : Scopes → List Path → Prop) : Prop :=
  (nm.mapping.literal? = none → InputNavigable scopes texts nm) ∧
    AttributesNavigable g (innerScopes scopes n nm) (innerTexts scopes texts n nm) children ∧
      (n.leaf = false → inner (innerScopes scopes n nm) (innerTexts scopes texts n nm))

/-- Whether what a node that is neither mapped nor fixed emits is navigated to from nodes, if what is
below it is. -/
def BranchNavigable (g : Setting) (isRoot : Bool) (scopes : Scopes) (texts : List Path)
    (n : NumberedNode) (below : Forest NumberedNode) (inner : Scopes → List Path → Prop) : Prop :=
  match if isRoot || n.leaf then none else commonParent? below with
  | some parent =>
    MappingNavigable g scopes texts n below.tops { mapping := { output := n.path, input := parent } }
      inner
  | none => AttributesNavigable g scopes texts below.tops ∧ inner scopes texts

/-- Whether what a node emits is navigated to from nodes of the record, if what is below it is. -/
def NodeNavigable (g : Setting) (isRoot : Bool) (scopes : Scopes) (texts : List Path)
    (n : NumberedNode) (below : Forest NumberedNode) (inner : Scopes → List Path → Prop) : Prop :=
  if n.isAttribute || !g.inFocus n.path then True
  else if n.fixedMembership?.isSome then
    n.fixedValue?.isSome = true → AttributesNavigable g scopes texts below.tops
  else if !isPopulated n below then True
  else if n.hasMappings then
    ∀ nm ∈ g.emitted n, MappingNavigable g scopes texts n below.tops nm inner
  else BranchNavigable g isRoot scopes texts n below inner

/-- Whether what a forest emits within some scopes is navigated to from nodes of the record. -/
def Navigable (g : Setting) : Forest NumberedNode → Scopes → List Path → Prop
  | .nil, _, _ => True
  | .tree n below next, scopes, texts =>
    NodeNavigable g false scopes texts n below (Navigable g below) ∧ Navigable g next scopes texts

/-- Whether what an output emits is navigated to from nodes of the record. -/
def OutputNavigable (g : Setting) : Forest NumberedNode → Prop
  | .nil => True
  | .tree n below _ => NodeNavigable g true [] [] n below (Navigable g below)

/-! ### Scopes and the statements around -/

/-- Some open scopes are those of the statements around, and bind nodes but for some paths that are
bound to text. -/
structure Mirrors (scopes : Scopes) (texts : List Path) (c : Context) : Prop where
  bound : ∀ b ∈ scopes, ∀ p, b.key = .path p → b.var ≠ inputVar ∧ (∀ k, b.var ≠ joinVar k) ∧
    ∃ o, c.binderOf? b.var = some o ∧ (o.bindsNodes = true ↔ p ∉ texts)
  opened : ∀ p ∈ texts, ∃ b ∈ scopes, b.key = .path p

/-- Whether a variable stands for a path, either the interpreter's or that of a scope over the
path. -/
def StandsFor (scopes : Scopes) (x : String) (p : Path) : Prop :=
  (x = inputVar ∧ ∀ b ∈ scopes, b.key ≠ .path p) ∨ ∃ b ∈ scopes, b.key = .path p ∧ b.var = x

variable {scopes : Scopes} {texts : List Path} {c : Context}

theorem Mirrors.start : Mirrors [] [] {} := ⟨by simp, by simp⟩

theorem Mirrors.define (h : Mirrors scopes texts c) (xs : List String) :
    Mirrors scopes texts (c.define xs) :=
  ⟨h.bound, h.opened⟩

theorem Mirrors.enter (h : Mirrors scopes texts c) {o : Opening} (ho : o.binder? = none) :
    Mirrors scopes texts (c.enter o) where
  bound b hb p hp := by
    rw [Context.binderOf?_enter_of_ne (by rw [ho]; rintro ⟨⟩)]
    exact h.bound b hb p hp
  opened := h.opened

theorem Mirrors.isNodes_iff (h : Mirrors scopes texts c) {x : String} {p : Path}
    (hx : StandsFor scopes x p) : c.IsNodes x ↔ p ∉ texts := by
  rcases hx with ⟨rfl, hfree⟩ | ⟨b, hb, hp, rfl⟩
  · refine iff_of_true (.inl rfl) fun hp => ?_
    obtain ⟨b, hb, hkey⟩ := h.opened p hp
    exact hfree b hb hkey
  · obtain ⟨hinput, -, o, ho, hnodes⟩ := h.bound b hb p hp
    rw [Context.IsNodes, ho, ← hnodes]
    exact or_iff_right hinput

/-- A scope over a path that is not bound yet is one more statement around. -/
theorem Mirrors.pushPath (h : Mirrors scopes texts c) {t : Tag}
    (ht : ∀ k, baseName t ≠ joinVar k) {p : Path} (hnew : ∀ b ∈ scopes, b.key ≠ .path p)
    {o : Opening} (ho : o.scopeVar? = some (scopes.freshVar t)) :
    Mirrors (⟨.path p, scopes.freshVar t⟩ :: scopes)
      (if o.bindsNodes then texts else p :: texts) (c.enter o) where
  bound := by
    have hp : p ∉ texts := fun hp => by
      obtain ⟨b, hb, hkey⟩ := h.opened p hp
      exact hnew b hb hkey
    refine List.forall_mem_cons.mpr ⟨?_, fun b hb q hq => ?_⟩
    · rintro _ ⟨⟩
      refine ⟨freshVar_ne_inputVar scopes t, fun k hk => ?_, o,
        Context.binderOf?_enter_self (o.binder?_of_scopeVar? ho), ?_⟩
      · obtain ⟨j, hj⟩ := freshVar_eq_candidate scopes t
        exact ht k (baseName_eq_joinVar (hj ▸ hk))
      · cases o.bindsNodes <;> simp [hp]
    · obtain ⟨hinput, hjoin, o', ho', hnodes⟩ := h.bound b hb q hq
      have hne : b.var ≠ scopes.freshVar t := fun hvar =>
        freshVar_notMem_takenNames scopes t
          (List.mem_cons_of_mem _ (hvar ▸ List.mem_map_of_mem hb))
      have hpq : q ≠ p := fun hqp => hnew b hb (hqp ▸ hq)
      refine ⟨hinput, hjoin, o', ?_, ?_⟩
      · rw [Context.binderOf?_enter_of_ne, ho']
        rw [o.binder?_of_scopeVar? ho]
        exact fun hvar => hne (Option.some.inj hvar).symm
      · cases o.bindsNodes <;> simp [hnodes, hpq]
  opened q hq := by
    have hq : q = p ∨ q ∈ texts := by
      split at hq
      · exact .inr hq
      · exact List.mem_cons.mp hq
    rcases hq with rfl | hq
    · exact ⟨_, List.mem_cons_self, rfl⟩
    · obtain ⟨b, hb, hkey⟩ := h.opened q hq
      exact ⟨b, List.mem_cons_of_mem _ hb, hkey⟩

/-- The scope of a join is none over a path. -/
theorem Mirrors.pushJoin (h : Mirrors scopes texts c) (parent : Path) (keys : List Tag) {k : Nat}
    {o : Opening} (ho : o.scopeVar? = some (joinVar k)) :
    Mirrors (⟨.join parent keys, joinVar k⟩ :: scopes) texts (c.enter o) where
  bound := by
    refine List.forall_mem_cons.mpr ⟨by rintro q ⟨⟩, fun b hb q hq => ?_⟩
    obtain ⟨hinput, hjoin, o', ho', hnodes⟩ := h.bound b hb q hq
    refine ⟨hinput, hjoin, o', ?_, hnodes⟩
    rw [Context.binderOf?_enter_of_ne, ho']
    rw [o.binder?_of_scopeVar? ho]
    exact fun hvar => hjoin k (Option.some.inj hvar).symm
  opened q hq := by
    obtain ⟨b, hb, hkey⟩ := h.opened q hq
    exact ⟨b, List.mem_cons_of_mem _ hb, hkey⟩

/-- The nearest binding of a path, or the interpreter's variable, stands for a prefix of the path, and
no longer prefix is bound. -/
theorem standsFor_nearest (scopes : Scopes) (p : Path) :
    StandsFor scopes (scopes.nearest p).2 (scopes.nearest p).1 ∧
      (scopes.nearest p).1.tags ++ p.tags.drop (scopes.nearest p).1.length = p.tags ∧
      ∀ b ∈ scopes, ∀ q, b.key = .path q → q.tags <+: p.tags →
        q.length ≤ (scopes.nearest p).1.length := by
  have hcovers {b : Binding} {q : Path} (hkey : b.key = .path q) (hq : q.tags <+: p.tags) :
      covers? p b = some q :=
    covers?_eq_some_iff.mpr ⟨hkey, Path.eq_or_isAncestorOf_iff.mpr hq⟩
  rw [nearest]
  cases hfound : scopes.deepest? p with
  | none =>
    rw [deepest?_eq_none_iff] at hfound
    have hnone : ∀ b ∈ scopes, ∀ q, b.key = .path q → ¬q.tags <+: p.tags := by
      intro b hb q hkey hq
      have hnone := hfound b hb
      rw [hcovers hkey hq] at hnone
      cases hnone
    have htake : (p.take 1).tags <+: p.tags := List.take_prefix 1 p.tags
    exact ⟨.inl ⟨rfl, fun b hb hkey => hnone b hb _ hkey htake⟩,
      List.prefix_iff_eq_append.mp htake,
      fun b hb q hkey hq => absurd hq (hnone b hb q hkey)⟩
  | some found =>
    obtain ⟨⟨b, hb, hvar, hcover⟩, hdeepest⟩ := deepest?_eq_some hfound
    obtain ⟨hkey, hprefix⟩ := covers?_eq_some_iff.mp hcover
    exact ⟨.inr ⟨b, hb, hkey, hvar⟩,
      List.prefix_iff_eq_append.mp (Path.eq_or_isAncestorOf_iff.mp hprefix),
      fun b' hb' q hkey hq => hdeepest b' hb' q (hcovers hkey hq)⟩

theorem length_nearest (scopes : Scopes) (p : Path) :
    (scopes.nearest p).1.length + (p.tags.drop (scopes.nearest p).1.length).length = p.length := by
  obtain ⟨-, happend, -⟩ := standsFor_nearest scopes p
  have hlength := congrArg List.length happend
  rwa [List.length_append] at hlength

/-! ### Blocks that navigate from nodes under a condition -/

/-- Whether a block navigates from nodes exactly on some condition, wherever its open scopes are those
of the statements around and some paths are bound to text. -/
def Decides (scopes : Scopes) (texts : List Path) (P : Prop) (b : Block) : Prop :=
  ∀ c, Mirrors scopes texts c → (b.Meets navigation c ↔ P)

variable {P Q : Prop} {b : Block}

namespace Decides

theorem nil : Decides scopes texts True .nil := fun _ _ => Iff.rfl

theorem congr (h : Decides scopes texts P b) (hPQ : P ↔ Q) : Decides scopes texts Q b :=
  fun c hc => (h c hc).trans hPQ

theorem append {b' : Block} (h : Decides scopes texts P b) (h' : Decides scopes texts Q b') :
    Decides scopes texts (P ∧ Q) (b ++ b') := fun c hc => by
  rw [Block.meets_append, h c hc, h' _ (hc.define _)]

theorem join {α : Type} {as : List α} {R : α → Prop} {f : α → Block}
    (h : ∀ a ∈ as, Decides scopes texts (R a) (f a)) :
    Decides scopes texts (∀ a ∈ as, R a) (.join (as.map f)) := by
  induction as with
  | nil => exact nil.congr (by simp)
  | cons a as ih =>
    rw [List.forall_mem_cons] at h
    rw [List.forall_mem_cons]
    exact h.1.append (ih h.2)

/-- A statement that navigates nowhere. -/
theorem one {s : Simple} (hs : s.bases = []) : Decides scopes texts True (.one s) := fun c _ => by
  rw [Block.meets_one, iff_true]
  change ∀ x ∈ s.bases, c.IsNodes x
  rw [hs]
  exact fun _ => nofun

/-- A statement that navigates nowhere and binds nothing. -/
theorem around {o : Opening} (hbinder : o.binder? = none) (hbases : o.bases = [])
    (h : Decides scopes texts P b) : Decides scopes texts P (.around o b) := fun c hc => by
  rw [Block.meets_around, h _ (hc.enter hbinder)]
  refine and_iff_right ?_
  change ∀ x ∈ o.bases, c.IsNodes x
  rw [hbases]
  exact fun _ => nofun

end Decides

/-! ### Attributes and constructors -/

variable {g : Setting} {n : NumberedNode} {ns : List NumberedNode}

theorem bases_attributeSource (scopes : Scopes) (n : NumberedNode) (m : Mapping) :
    (attributeSource scopes n m).bases =
      if m.input.tags.drop (scopes.nearest m.input).1.length = [] then []
      else [(scopes.nearest m.input).2] := by
  simp only [attributeSource]
  split
  · next hsteps => rw [if_pos hsteps]; rfl
  · next hsteps =>
    rw [if_neg hsteps]
    split <;> rfl

/-- What an attribute mapping reads is navigated to from nodes if its input is. -/
theorem Mirrors.attributeSource_iff (h : Mirrors scopes texts c) (n : NumberedNode) (m : Mapping) :
    (∀ x ∈ (attributeSource scopes n m).bases, c.IsNodes x) ↔ StartsAtNodes scopes texts m.input := by
  rw [bases_attributeSource, StartsAtNodes]
  split
  · next hsteps => simp [hsteps]
  · next hsteps =>
    rw [List.forall_mem_singleton, h.isNodes_iff (standsFor_nearest scopes m.input).1]
    exact (or_iff_right hsteps).symm

theorem decides_attributeBindings (n : NumberedNode) (nm : NumberedMapping) (var : String) :
    Decides scopes texts
      (nm.mapping.literal? = none → StartsAtNodes scopes texts nm.mapping.input)
      (attributeBindings g scopes n nm var) := by
  have hcompute (result : String) (s : Snippet) : Decides scopes texts
      (StartsAtNodes scopes texts nm.mapping.input)
      (.around (.compute result (parameter scopes nm.mapping) (attributeSource scopes n nm.mapping))
        (.one (.code s.code))) := fun c hc => by
    rw [Block.meets_around, Block.meets_one, ← hc.attributeSource_iff n nm.mapping]
    exact and_iff_left fun _ => nofun
  have hdefine (e : Expression) (he : e.bases = (attributeSource scopes n nm.mapping).bases) :
      Decides scopes texts (StartsAtNodes scopes texts nm.mapping.input) (.one (.define var e)) :=
    fun c hc => by
      rw [Block.meets_one, ← hc.attributeSource_iff n nm.mapping, ← he]
      rfl
  simp only [attributeBindings]
  split
  · next s hs => exact (Decides.one rfl).congr (by simp [hs])
  · next hnone =>
    simp only [hnone, forall_const]
    split
    · next s k _ _ => exact ((hcompute _ s).append (.one rfl)).congr (and_iff_left trivial)
    · next s _ _ => exact hcompute _ s
    · exact hdefine _ (List.append_nil _)
    · exact hdefine _ rfl

theorem decides_attributeLets {ms : List NumberedMapping} : ∀ {k : Nat},
    Decides scopes texts
      (∀ nm ∈ ms, nm.mapping.literal? = none → StartsAtNodes scopes texts nm.mapping.input)
      (attributeLets g scopes n k ms) := by
  induction ms with
  | nil => exact fun {_} => Decides.nil.congr (by simp)
  | cons nm ms ih =>
    intro k
    rw [attributeLets, List.forall_mem_cons]
    exact (Decides.around rfl rfl (decides_attributeBindings n nm _)).append ih

theorem decides_argumentsOf :
    Decides scopes texts (AttributesNavigable g scopes texts ns) (argumentsOf g scopes ns).lets := by
  induction ns with
  | nil => exact Decides.nil.congr (by simp [AttributesNavigable])
  | cons a ns ih =>
    rw [lets_argumentsOf_cons, AttributesNavigable, List.forall_mem_cons]
    refine Decides.append ?_ ih
    cases hbinds : g.binds a with
    | true => exact decides_attributeLets.congr (by simp)
    | false => exact Decides.nil.congr (by simp)

theorem bases_attributeValue? {p : Path} {ms : List NumberedMapping} {value : Expression}
    (h : attributeValue? p ms = some value) : value.bases = [] :=
  attributeValue?_holds (P := fun e => e.bases = []) (fun _ _ => rfl)
    (fun _ => Expression.basesOfAll_eq_nil) h

theorem Decides.guarded {guards : List Expression} (hguards : ∀ e ∈ guards, e.bases = [])
    (h : Decides scopes texts P b) : Decides scopes texts P (Arguments.guarded guards b) := by
  induction guards with
  | nil => exact h
  | cons e guards ih =>
    rw [List.forall_mem_cons] at hguards
    exact .around rfl hguards.1 (ih hguards.2)

theorem decides_construct {tag : Tag} {value : Option Expression}
    (hvalue : ∀ e ∈ value, e.bases = []) (h : Decides scopes texts P b) :
    Decides scopes texts (AttributesNavigable g scopes texts ns ∧ P)
      ((argumentsOf g scopes ns).construct tag value b) := by
  have hall : (argumentsOf g scopes ns).All fun e => e.bases = [] :=
    all_argumentsOf (fun _ => rfl) bases_attributeValue?
  have hvalues : Expression.basesOfAll ((argumentsOf g scopes ns).values.map Prod.snd) = [] :=
    Expression.basesOfAll_eq_nil (List.forall_mem_map.mpr hall.values)
  have hown : Expression.basesOfAll value.toList = [] :=
    Expression.basesOfAll_eq_nil fun e he => hvalue e (Option.mem_toList.mp he)
  refine decides_argumentsOf.append (.guarded hall.guards (.around rfl ?_ h))
  rw [Opening.bases, hvalues, hown, List.append_nil]

/-! ### Scopes -/

/-- What a scope opens with: it navigates as its source does, and binds nodes if it has no
delimiter. -/
theorem scope_opening (op : Operator) (var : String) (source : Expression) :
    ∃ o, (∀ body, Block.scope op var source body = .around o body) ∧ o.scopeVar? = some var ∧
      o.bases = source.bases ∧
        ∀ base steps, source = .nav base steps → o.bindsNodes = op.delimiter?.isNone := by
  cases op <;> exact ⟨_, fun _ => rfl, rfl, rfl, by rintro base steps rfl; rfl⟩

/-- A scope over a path that is not bound yet navigates from nodes if the path that it starts from is
not bound to text. -/
theorem decides_tagScope {op : Operator} {t : Tag} (ht : ∀ k, baseName t ≠ joinVar k) {p bound : Path}
    {var : String} (hnew : ∀ b ∈ scopes, b.key ≠ .path p) (hvar : StandsFor scopes var bound)
    (h : Decides (⟨.path p, scopes.freshVar t⟩ :: scopes)
      (if op.delimiter?.isNone then texts else p :: texts) P b) :
    Decides scopes texts (bound ∉ texts ∧ P)
      (Block.scope op (scopes.freshVar t) (.nav var [t]) b) := fun c hc => by
  obtain ⟨o, hbody, hscope, hbases, hnodes⟩ :=
    scope_opening op (scopes.freshVar t) (.nav var [t])
  have hpush := hc.pushPath ht hnew hscope
  rw [hnodes _ _ rfl] at hpush
  rw [hbody, Block.meets_around, h _ hpush, ← hc.isNodes_iff hvar]
  refine and_congr_left fun _ => ?_
  change (∀ x ∈ o.bases, c.IsNodes x) ↔ _
  rw [hbases]
  exact List.forall_mem_singleton

/-- The operator of the scope over a path among those over some tags in turn. -/
def stepOperator (final : Operator) (depth : Nat) (p : Path) : Operator :=
  if p.length = depth then final else .all

/-- The paths that are bound to text within the scopes over some tags in turn. Above the last all are
bound to nodes. -/
def stepTexts (final : Operator) (depth : Nat) (bound : Path) (texts : List Path) (ts : List Tag) :
    List Path :=
  if ts ≠ [] ∧ bound.length + ts.length = depth ∧ final.delimiter?.isSome = true then
    ⟨bound.tags ++ ts⟩ :: texts
  else texts

theorem stepTexts_cons {final : Operator} {depth : Nat} {bound : Path} {t : Tag} {ts : List Tag}
    (hdepth : bound.length + (t :: ts).length ≤ depth) :
    stepTexts final depth bound texts (t :: ts) =
      stepTexts final depth (bound.child t)
        (if (stepOperator final depth (bound.child t)).delimiter?.isNone then texts
          else bound.child t :: texts) ts := by
  rw [List.length_cons] at hdepth
  rw [stepTexts, stepTexts, stepOperator, Path.length_child, List.length_cons]
  cases ts with
  | nil =>
    by_cases hlast : bound.length + 1 = depth
    · cases hfinal : final.delimiter? <;> simp [hlast, hfinal, Path.child]
    · simp [hlast, Operator.delimiter?]
  | cons t' ts =>
    rw [List.length_cons] at hdepth
    have hlast : bound.length + 1 ≠ depth := by omega
    have hsum : bound.length + (ts.length + 1 + 1) = bound.length + 1 + (ts.length + 1) := by omega
    simp [hlast, hsum, Operator.delimiter?, Path.child]

/-- The scopes over some tags in turn navigate from nodes if the path that they start from is not bound
to text. -/
theorem decides_openSteps {final : Operator} {depth : Nat} {ts : List Tag} {bound : Path}
    {var : String} (htags : ∀ t ∈ ts, ∀ k, baseName t ≠ joinVar k)
    (hdeepest : ∀ b ∈ scopes, ∀ q, b.key = .path q → q.tags <+: bound.tags ++ ts →
      q.length ≤ bound.length)
    (hdepth : bound.length + ts.length ≤ depth) (hvar : StandsFor scopes var bound)
    (h : Decides (openSteps final depth bound var scopes ts).scopes
      (stepTexts final depth bound texts ts) P b) :
    Decides scopes texts ((ts = [] ∨ bound ∉ texts) ∧ P)
      (wrap (openSteps final depth bound var scopes ts).frames b) := by
  induction ts generalizing bound var scopes texts with
  | nil => exact h.congr (by simp)
  | cons t ts ih =>
    rw [stepTexts_cons hdepth] at h
    rw [List.length_cons] at hdepth
    rw [List.forall_mem_cons] at htags
    have hchild : (bound.child t).tags ++ ts = bound.tags ++ t :: ts := by
      rw [Path.tags_child, List.append_assoc, List.singleton_append]
    have hnew : ∀ b ∈ scopes, b.key ≠ .path (bound.child t) := by
      intro b hb hkey
      have hle := hdeepest b hb _ hkey (hchild ▸ List.prefix_append ..)
      rw [Path.length_child] at hle
      omega
    have hdeepest' : ∀ b ∈ (⟨.path (bound.child t), scopes.freshVar t⟩ :: scopes : Scopes), ∀ q,
        b.key = .path q → q.tags <+: (bound.child t).tags ++ ts →
          q.length ≤ (bound.child t).length := by
      refine List.forall_mem_cons.mpr ⟨by rintro _ ⟨⟩ -; exact Nat.le_refl _, ?_⟩
      intro b hb q hkey hq
      rw [Path.length_child]
      exact Nat.le_succ_of_le (hdeepest b hb q hkey (hchild ▸ hq))
    have hinner := ih htags.2 hdeepest' (by rw [Path.length_child]; omega)
      (.inr ⟨_, List.mem_cons_self, rfl, rfl⟩) h
    refine fun c hc => (decides_tagScope htags.1 hnew hvar hinner c hc).trans ?_
    have hfree : bound.child t ∉ texts := fun hmem => by
      obtain ⟨b, hb, hkey⟩ := hc.opened _ hmem
      exact hnew b hb hkey
    -- only the last scope may bind text, and nothing more is navigated from it
    have hnodes : ts = [] ∨ bound.child t ∉
        if (stepOperator final depth (bound.child t)).delimiter?.isNone then texts
          else bound.child t :: texts := by
      refine or_iff_not_imp_left.mpr fun hts => ?_
      have hpos := List.length_pos_iff.mpr hts
      have hall : stepOperator final depth (bound.child t) = .all :=
        if_neg (by rw [Path.length_child]; omega)
      rw [hall]
      exact hfree
    simp only [hnodes, true_and, reduceCtorEq, false_or]

theorem decides_openPath {final : Operator} {depth : Nat} {target : Path}
    (htags : ∀ t ∈ target.tags, ∀ k, baseName t ≠ joinVar k) (hdepth : target.length ≤ depth)
    (h : Decides (openPath final depth scopes target).scopes
      (stepTexts final depth (scopes.nearest target).1 texts
        (target.tags.drop (scopes.nearest target).1.length)) P b) :
    Decides scopes texts (StartsAtNodes scopes texts target ∧ P)
      (wrap (openPath final depth scopes target).frames b) := by
  obtain ⟨hvar, happend, hdeepest⟩ := standsFor_nearest scopes target
  refine decides_openSteps (fun t ht => htags t (List.mem_of_mem_drop ht)) ?_ ?_ hvar h
  · intro b hb q hkey hq
    exact hdeepest b hb q hkey (happend ▸ hq)
  · rwa [length_nearest]

/-- Opening the scopes over a path leaves the joins that are open. -/
theorem joinVar?_openSteps {final : Operator} {depth : Nat} {parent : Path} {keys : List Tag}
    {ts : List Tag} : ∀ {bound : Path} {var : String} {scopes : Scopes},
    (openSteps final depth bound var scopes ts).scopes.joinVar? parent keys =
      scopes.joinVar? parent keys := by
  induction ts with
  | nil => exact fun {_ _ _} => rfl
  | cons t ts ih =>
    intro bound var scopes
    rw [openSteps]
    exact ih

theorem standsFor_openSteps {final : Operator} {depth : Nat} {ts : List Tag} : ∀ {bound : Path}
    {var : String} {scopes : Scopes}, StandsFor scopes var bound →
      StandsFor (openSteps final depth bound var scopes ts).scopes
        (openSteps final depth bound var scopes ts).var ⟨bound.tags ++ ts⟩ := by
  induction ts with
  | nil => exact fun {_ _ _} h => by rwa [List.append_nil]
  | cons t ts ih =>
    intro bound var scopes _
    have hfresh : StandsFor (⟨.path (bound.child t), scopes.freshVar t⟩ :: scopes)
        (scopes.freshVar t) (bound.child t) :=
      .inr ⟨_, List.mem_cons_self, rfl, rfl⟩
    have hrest := ih hfresh
    rw [Path.tags_child, List.append_assoc, List.singleton_append] at hrest
    exact hrest

theorem standsFor_openPath {final : Operator} {depth : Nat} {target : Path} :
    StandsFor (openPath final depth scopes target).scopes
      (openPath final depth scopes target).var target := by
  obtain ⟨hvar, happend, -⟩ := standsFor_nearest scopes target
  have htarget : StandsFor (openPath final depth scopes target).scopes
      (openPath final depth scopes target).var
      ⟨(scopes.nearest target).1.tags ++ target.tags.drop (scopes.nearest target).1.length⟩ :=
    standsFor_openSteps hvar
  rwa [happend] at htarget

/-- Only the path itself may be bound to text by the scopes that are opened for it. -/
theorem stepTexts_nearest (final : Operator) (depth : Nat) (scopes : Scopes) (texts : List Path)
    (target : Path) :
    stepTexts final depth (scopes.nearest target).1 texts
        (target.tags.drop (scopes.nearest target).1.length) =
      if target.tags.drop (scopes.nearest target).1.length ≠ [] ∧ target.length = depth ∧
        final.delimiter?.isSome = true then target :: texts else texts := by
  obtain ⟨-, happend, -⟩ := standsFor_nearest scopes target
  rw [stepTexts, length_nearest, happend]

/-- A join navigates from nodes if the parent of its inputs is not bound to text. -/
theorem decides_joinScope {op : Operator} {parent : Path} {keys : List Tag} {k : Nat} {var : String}
    (hvar : StandsFor scopes var parent)
    (h : Decides (⟨.join parent keys, joinVar k⟩ :: scopes) texts P b) :
    Decides scopes texts (parent ∉ texts ∧ P)
      (Block.scope op (joinVar k) (.mapJoin var keys) b) := fun c hc => by
  obtain ⟨o, hbody, hscope, hbases, -⟩ := scope_opening op (joinVar k) (.mapJoin var keys)
  rw [hbody, Block.meets_around, h _ (hc.pushJoin parent keys hscope), ← hc.isNodes_iff hvar]
  refine and_congr_left fun _ => ?_
  change (∀ x ∈ o.bases, c.IsNodes x) ↔ _
  rw [hbases]
  exact List.forall_mem_singleton

/-- The parent of the inputs of a join is above them, unless they are the whole record. -/
theorem joinedParent_cases (nm : NumberedMapping) :
    (joinedParent nm).isAncestorOf nm.mapping.input = true ∨
      joinedParent nm = nm.mapping.input ∧ (joinedParent nm).tags = [] := by
  rw [joinedParent]
  cases hparent : nm.mapping.input.parent? with
  | some p => exact .inl (Path.isAncestorOf_of_parent? hparent)
  | none =>
    rw [Path.parent?] at hparent
    split at hparent
    · next hempty => exact .inr ⟨rfl, List.isEmpty_iff.mp hempty⟩
    · cases hparent

/-- The scopes down to the parent of the inputs of a join all bind nodes. -/
theorem decides_openParent {op : Operator} {nm : NumberedMapping}
    (htags : ∀ t ∈ nm.mapping.input.tags, ∀ k, baseName t ≠ joinVar k)
    (h : Decides (openPath op nm.mapping.input.length scopes (joinedParent nm)).scopes texts P b) :
    Decides scopes texts (StartsAtNodes scopes texts (joinedParent nm) ∧ P)
      (wrap (openPath op nm.mapping.input.length scopes (joinedParent nm)).frames b) := by
  rcases joinedParent_cases nm with habove | ⟨hwhole, hnil⟩
  · have hlength := Path.length_lt_of_isAncestorOf habove
    refine decides_openPath (fun t ht => htags t (tags_parentOrSelf _ t ht))
      (Nat.le_of_lt hlength) ?_
    rwa [stepTexts_nearest, if_neg fun hopens => Nat.ne_of_lt hlength hopens.2.1]
  · refine decides_openPath (by simp [hnil]) (Nat.le_of_eq (congrArg Path.length hwhole)) ?_
    rwa [stepTexts_nearest, if_neg fun hopens => hopens.1 (by simp [hnil])]

/-- The scopes that bind a mapping's input navigate from nodes if the input is navigated to from
nodes. -/
theorem decides_openInput {nm : NumberedMapping}
    (htags : ∀ t ∈ nm.mapping.input.tags, ∀ k, baseName t ≠ joinVar k)
    (h : Decides (openInput scopes n nm).scopes (openedTexts scopes texts n nm) P b) :
    Decides scopes texts (InputNavigable scopes texts nm ∧ P)
      (wrap (openInput scopes n nm).frames b) := by
  rw [openedTexts] at h
  rw [InputNavigable]
  cases hjoin : nm.join with
  | none =>
    simp only [openInput, hjoin, true_and] at h ⊢
    refine decides_openPath htags (Nat.le_refl _) ?_
    rw [stepTexts_nearest]
    simpa only [true_and, and_comm] using h
  | some k =>
    have hvar : (openPath (operatorOf n nm.mapping) nm.mapping.input.length scopes
        (joinedParent nm)).scopes.joinVar? (joinedParent nm)
          (nm.mapping.inputs.filterMap Path.last?) =
        scopes.joinVar? (joinedParent nm) (nm.mapping.inputs.filterMap Path.last?) :=
      joinVar?_openSteps
    have hinput : openInput scopes n nm = openJoin (operatorOf n nm.mapping) k (joinedParent nm)
        (nm.mapping.inputs.filterMap Path.last?)
        (openPath (operatorOf n nm.mapping) nm.mapping.input.length scopes (joinedParent nm)) := by
      rw [openInput, hjoin]
      rfl
    rw [hinput, openJoin, hvar] at h ⊢
    rw [hjoin, if_neg (fun hall => Option.some_ne_none k hall.1)] at h
    dsimp only
    cases hopen : scopes.joinVar? (joinedParent nm) (nm.mapping.inputs.filterMap Path.last?) with
    | some x =>
      rw [hopen] at h
      exact (decides_openParent htags h).congr (by simp)
    | none =>
      rw [hopen] at h
      dsimp only
      rw [wrap_concat]
      refine (decides_openParent htags (decides_joinScope standsFor_openPath h)).congr ?_
      simp [and_assoc]

/-! ### Nodes -/

variable {inner : Scopes → Block}

theorem decides_constructor {snippet : Option Snippet} {value : Expression}
    (hvalue : value.bases = []) (hinner : Decides scopes texts Q (inner scopes)) :
    Decides scopes texts (AttributesNavigable g scopes texts ns ∧ (n.leaf = false → Q))
      (constructor g scopes n ns snippet value inner) := by
  have hchoice : ∀ e ∈ choiceValue? n, e.bases = [] := by
    intro e he
    obtain ⟨m, -, rfl⟩ := rootMembership?_of_choiceValue? he
    rfl
  have hcode : Decides scopes texts True (snippet.elim .nil fun s => .one (.code s.code)) := by
    cases snippet with
    | none => exact .nil
    | some s => exact .one rfl
  simp only [constructor]
  cases hleaf : n.leaf with
  | true =>
    simp only [if_true, reduceCtorEq, false_implies]
    cases snippet with
    | some s => exact decides_construct (by simp) hcode
    | none =>
      refine decides_construct (fun e he => ?_) .nil
      obtain rfl := Option.some.inj he
      cases hc : choiceValue? n with
      | none => exact hvalue
      | some e => exact hchoice e hc
  | false =>
    rw [if_neg Bool.false_ne_true]
    exact decides_construct hchoice ((hcode.append hinner).congr (by simp))

theorem decides_emit {nm : NumberedMapping} {value : Expression} (hvalue : value.bases = [])
    (hinner : Decides scopes texts Q (inner scopes)) :
    Decides scopes texts (AttributesNavigable g scopes texts ns ∧ (n.leaf = false → Q))
      (emit g scopes n ns nm value inner) := by
  simp only [emit]
  split
  · next k _ =>
    have hdefine : Decides scopes texts True
        (.one (.define (termVar k) (.call (lookupName k) [value]))) :=
      .one (Expression.basesOfAll_eq_nil (List.forall_mem_singleton.mpr hvalue))
    exact (hdefine.append (.around rfl rfl (decides_constructor rfl hinner))).congr
      (and_iff_right trivial)
  · exact decides_constructor hvalue hinner

theorem decides_fallback (snippet : Option Snippet) :
    Decides scopes texts True (fallback n snippet) := by
  rw [fallback]
  split
  · exact .around rfl rfl (.around rfl rfl (.one rfl))
  · exact .nil

variable {R : Scopes → List Path → Prop}
  (hinner : ∀ scopes texts, Decides scopes texts (R scopes texts) (inner scopes))

include hinner

theorem decides_mappingBlock {nm : NumberedMapping}
    (htags : ∀ t ∈ nm.mapping.input.tags, ∀ k, baseName t ≠ joinVar k) :
    Decides scopes texts (MappingNavigable g scopes texts n ns nm R)
      (mappingBlock g scopes n ns nm inner) := by
  rw [MappingNavigable, innerScopes, innerTexts]
  simp only [mappingBlock]
  cases nm.mapping.literal? with
  | some s =>
    exact ((decides_emit rfl (hinner _ _)).append (decides_fallback _)).congr (by simp)
  | none =>
    have hemit : Decides (openInput scopes n nm).scopes (openedTexts scopes texts n nm) _
        (emit g (openInput scopes n nm).scopes n ns nm (.var (openInput scopes n nm).var) inner) :=
      decides_emit rfl (hinner _ _)
    exact ((decides_openInput htags hemit).append (decides_fallback _)).congr (by simp)

/-- Inputs whose tags do not spell the variables of joins. -/
def unjoined : Sources where
  tag t := ∀ k, baseName t ≠ joinVar k
  whole := True

theorem decides_branch {isRoot : Bool} {below : Forest NumberedNode}
    (hbelow : ∀ n' ∈ below.labels, DrawsOn unjoined n') :
    Decides scopes texts (BranchNavigable g isRoot scopes texts n below R)
      (branch g isRoot scopes n below inner) := by
  rw [branch, BranchNavigable]
  cases hparent : if isRoot || n.leaf then none else commonParent? below with
  | some parent =>
    have hcommon : commonParent? below = some parent := by
      split at hparent
      · cases hparent
      · exact hparent
    have htags : ∀ t ∈ parent.tags, ∀ k, baseName t ≠ joinVar k := tags_commonParent? hbelow hcommon
    exact decides_mappingBlock hinner htags
  | none =>
    dsimp only
    split
    · next hnothing =>
      rw [Bool.and_eq_true, List.isEmpty_iff] at hnothing
      have hattributes : Decides scopes texts (AttributesNavigable g scopes texts below.tops) .nil :=
        lets_argumentsOf_of_values hnothing.1 ▸ decides_argumentsOf
      have hbody : Decides scopes texts (R scopes texts) .nil :=
        Block.isEmpty_eq_true hnothing.2 ▸ hinner scopes texts
      exact hattributes.append hbody
    · exact decides_construct (by simp) (hinner scopes texts)

theorem decides_nodeBlock {isRoot : Bool} {below : Forest NumberedNode} (hn : DrawsOn unjoined n)
    (hbelow : ∀ n' ∈ below.labels, DrawsOn unjoined n') :
    Decides scopes texts (NodeNavigable g isRoot scopes texts n below R)
      (nodeBlock g isRoot scopes n below inner) := by
  rw [nodeBlock, NodeNavigable]
  split
  · exact .nil
  split
  · cases n.fixedValue? with
    | some s => exact (decides_construct (by simp [Expression.bases]) .nil).congr (by simp)
    | none => exact Decides.nil.congr (by simp)
  split
  · exact .nil
  split
  · refine .join fun nm hnm => .around rfl rfl (decides_mappingBlock hinner ?_)
    exact (hn.allow (Setting.mem_numbered_of_mem_emitted hnm)).1
  · exact decides_branch hinner hbelow

omit hinner

theorem decides_blockOf {f : Forest NumberedNode} (h : ∀ n ∈ f.labels, DrawsOn unjoined n) :
    ∀ (scopes : Scopes) (texts : List Path),
      Decides scopes texts (Navigable g f scopes texts) (blockOf g f scopes) := by
  induction f with
  | nil => exact fun _ _ => .nil
  | tree n below next hb hn =>
    obtain ⟨hown, hbelow, hnext⟩ := Forest.forall_labels_tree.mp h
    exact fun scopes texts =>
      (decides_nodeBlock (hb hbelow) hown hbelow).append (hn hnext scopes texts)

/-- The output navigates from nodes exactly if the nodes that it is emitted for do. -/
theorem decides_outputOf {f : Forest NumberedNode} (h : ∀ n ∈ f.labels, DrawsOn unjoined n) :
    Decides [] [] (OutputNavigable g f) (outputOf g f) := by
  cases f with
  | nil => exact .nil
  | tree n below next =>
    obtain ⟨hown, hbelow, -⟩ := Forest.forall_labels_tree.mp h
    have hnode : Decides [] [] (OutputNavigable g (.tree n below next))
        (nodeBlock g true [] n below (blockOf g below)) :=
      decides_nodeBlock (decides_blockOf hbelow) hown hbelow
    rw [outputOf]
    split
    · next hempty =>
      rw [Block.isEmpty_eq_true hempty] at hnode
      have hattributes : AttributesNavigable g [] [] below.tops := fun _ _ _ _ _ _ => .inr (by simp)
      intro c hc
      refine (decides_construct (by simp) .nil c hc).trans ?_
      exact iff_of_true ⟨hattributes, trivial⟩ ((hnode c hc).mp trivial)
    · exact hnode

end Emission

end Crosswalk
