import Crosswalk.Proofs.Navigation

/-!
The stack of open scopes. Emission hands the scopes that are open down the tree; here the same
emission keeps them on a stack that lasts, pushes each scope that it opens, pops as many as it has
opened when it closes them, and notes every move. It declares a table where a mapping first
consults it, and keeps what has been declared. Both emit the same, and what a node opens it has
closed when it is done. At every moment no two scopes bind the same, a scope over a path stands
within the scope over the path's parent and is one step of navigation from there, and scopes over
paths have variables of their own. So what an enclosing scope iterates is not iterated again.
-/

namespace Crosswalk

open Scopes

namespace Emission

/-! ### The stack -/

/-- What is done with the stack of open scopes. -/
inductive Move where
  /-- A scope is opened on top of a stack, by a statement that binds its variable. -/
  | opening (outer : Scopes) (binding : Binding) (frame : Frame)
  /-- The innermost scope of a stack is closed. -/
  | closing (scopes : Scopes)

namespace Move

/-- The scopes that are open before a move. -/
def before : Move → Scopes
  | opening outer _ _ => outer
  | closing scopes => scopes

/-- The scopes that are open after a move. -/
def after : Move → Scopes
  | opening outer binding _ => binding :: outer
  | closing scopes => scopes.tail

end Move

/-- Whether some moves, the latest first, lead from no open scopes to those that are open. -/
inductive Leads : List Move → Scopes → Prop
  | start : Leads [] []
  | move {moves : List Move} {move : Move} (h : Leads moves move.before) :
      Leads (move :: moves) move.after

/-- The numbers of the tables that have been declared, and their declarations in the order in which
they are to be printed. -/
structure Ledger where
  declared : List Nat := []
  statements : List Simple := []

/-- Adds the declarations of a table, unless it has been declared. -/
def Ledger.declare (l : Ledger) (table : HoistedTable) : Ledger :=
  if table.number ∈ l.declared then l
  else ⟨table.number :: l.declared, l.statements ++ declarations table⟩

/-- The stack of open scopes, the moves that led to it, the latest first, and what has been declared
on the way. -/
structure Machine where
  scopes : Scopes := []
  moves : List Move := []
  ledger : Ledger := {}

/-- A computation that works on the stack and declares tables. -/
def Stacked (α : Type) : Type := Machine → α × Machine

namespace Stacked

variable {α β : Type}

instance : Monad Stacked where
  pure a := fun m => (a, m)
  bind x f := fun m => f (x m).1 (x m).2

/-- The scopes that are open. -/
def scopes : Stacked Scopes := fun m => (m.scopes, m)

/-- Opens a scope. -/
def push (binding : Binding) (frame : Frame) : Stacked Unit := fun m =>
  ((), { m with
    scopes := binding :: m.scopes, moves := .opening m.scopes binding frame :: m.moves })

/-- Closes the innermost scope. -/
def pop : Stacked Unit := fun m =>
  ((), { m with scopes := m.scopes.tail, moves := .closing m.scopes :: m.moves })

/-- Declares a table unless it has been declared. What comes of it is the name of the function that
consults the table. -/
def declare (table : HoistedTable) : Stacked String := fun m =>
  (lookupName table.number, { m with ledger := m.ledger.declare table })

/-- The function that consults the table with a number for a mapping, which is declared for it. -/
def consult (n : NumberedNode) (nm : NumberedMapping) (k : Nat) : Stacked String :=
  match nm.mapping.dictionary with
  | some d => declare ⟨k, dictionaryOf n.toNode d⟩
  | none => pure (lookupName k)

/-- The blocks of several computations in turn. -/
def joined : List (Stacked Block) → Stacked Block
  | [] => pure .nil
  | x :: xs => do
    let block ← x
    let others ← joined xs
    pure (block ++ others)

/-! ### Emission on the stack -/

/-- Opens a scope for each of some tags in turn. The statements and the last variable are what comes
of it. -/
def openSteps (final : Operator) (depth : Nat) : Path → String → List Tag →
    Stacked (List Frame × String)
  | _, var, [] => pure ([], var)
  | bound, var, t :: rest => do
    let path := bound.child t
    let fresh := (← scopes).freshVar t
    let frame : Frame := ⟨if path.length = depth then final else .all, fresh, .nav var [t]⟩
    push ⟨.path path, fresh⟩ frame
    let opened ← openSteps final depth path fresh rest
    pure (frame :: opened.1, opened.2)

/-- Opens the scopes from the deepest binding to a path. -/
def openPath (final : Operator) (depth : Nat) (target : Path) : Stacked (List Frame × String) := do
  let found := (← scopes).nearest target
  openSteps final depth found.1 found.2 (target.tags.drop found.1.length)

/-- Opens the join of some keys of a parent unless it is open already. -/
def openJoin (op : Operator) (k : Nat) (parent : Path) (keys : List Tag) (var : String) :
    Stacked (List Frame × String) := do
  match (← scopes).joinVar? parent keys with
  | some open' => pure ([], open')
  | none =>
    let frame : Frame := ⟨op, joinVar k, .mapJoin var keys⟩
    push ⟨.join parent keys, joinVar k⟩ frame
    pure ([frame], joinVar k)

/-- Opens the scopes that bind the input of a mapping, or the join of its inputs. -/
def openInput (n : NumberedNode) (nm : NumberedMapping) : Stacked (List Frame × String) :=
  let m := nm.mapping
  let op := operatorOf n m
  match nm.join with
  | none => openPath op m.input.length m.input
  | some k => do
    let target := m.input.parent?.getD m.input
    let opened ← openPath op m.input.length target
    let joined ← openJoin op k target (m.inputs.filterMap Path.last?) opened.2
    pure (opened.1 ++ joined.1, joined.2)

/-- Puts the statements of some scopes around a block, the last innermost, and closes each. -/
def close : List Frame → Block → Stacked Block
  | [], block => pure block
  | f :: outer, block => do
    pop
    close outer (Block.scope f.operator f.var f.source block)

/-- The bindings of one attribute mapping's value to a variable. -/
def attributeBindings (g : Setting) (n : NumberedNode) (nm : NumberedMapping) (var : String) :
    Stacked Block := do
  let around ← scopes
  let m := nm.mapping
  match m.literal? with
  | some s => pure (.one (.define var (.literal s)))
  | none =>
    let source := attributeSource around n m
    let compute (result : String) (s : Snippet) : Block :=
      .around (.compute result (parameter around m) source) (.one (.code s.code))
    match g.snippetOf n m, nm.table with
    | some s, some k => do
      let function ← consult n nm k
      pure (compute (var ++ "_code") s ++
        .one (.define var (.call function [.var (var ++ "_code")])))
    | some s, none => pure (compute var s)
    | none, some k => do
      let function ← consult n nm k
      pure (.one (.define var (.call function [source])))
    | none, none => pure (.one (.define var source))

/-- The bindings of the emitted mappings of an attribute, numbered from `k`. -/
def attributeLets (g : Setting) (n : NumberedNode) (k : Nat) :
    List NumberedMapping → Stacked Block
  | [] => pure .nil
  | nm :: rest => do
    let block ← attributeBindings g n nm (attributeVar n.path k)
    let others ← attributeLets g n (k + 1) rest
    pure (marked nm.mapping block ++ others)

/-- The arguments that an attribute of an element comes to. -/
def attributeArguments (g : Setting) (n : NumberedNode) : Stacked Arguments :=
  match n.fixedMembership? with
  | some _ => pure { values := n.fixedValue?.toList.map fun s => (n.tag, .literal s) }
  | none =>
    let ms := g.emitted n
    match attributeValue? n.path ms with
    | none => pure {}
    | some value => do
      let lets ← attributeLets g n 0 ms
      pure
        { lets
          values := [(n.tag, value)]
          guards := if ms.any fun nm => nm.table.isSome then [value] else [] }

/-- The arguments of an element with some child nodes. -/
def argumentsOf (g : Setting) : List NumberedNode → Stacked Arguments
  | [] => pure {}
  | n :: rest =>
    if n.isAttribute && g.inFocus n.path then do
      let args ← attributeArguments g n
      let others ← argumentsOf g rest
      pure (args ++ others)
    else argumentsOf g rest

/-- The constructor of a mapped node for a value, with what is below it inside unless it is a
leaf. -/
def constructor (g : Setting) (n : NumberedNode) (children : List NumberedNode)
    (snippet : Option Snippet) (value : Expression) (inner : Stacked Block) : Stacked Block := do
  let args ← argumentsOf g children
  let code := snippet.elim Block.nil fun s => .one (.code s.code)
  if n.leaf then
    match snippet with
    | some _ => pure (args.construct n.tag none code)
    | none => pure (args.construct n.tag (some ((choiceValue? n).getD value)) .nil)
  else do
    let body ← inner
    pure (args.construct n.tag (choiceValue? n) (code ++ body))

/-- The constructor of a mapped node. A table that stands for the value is declared ahead of what
else the constructor declares. -/
def emit (g : Setting) (n : NumberedNode) (children : List NumberedNode) (nm : NumberedMapping)
    (value : Expression) (inner : Stacked Block) : Stacked Block :=
  let snippet := g.snippetOf n nm.mapping
  match nm.table with
  | some k => do
    let function ← consult n nm k
    let term := Expression.var (termVar k)
    let element ← constructor g n children snippet term inner
    pure (.simple (.define (termVar k) (.call function [value]))
      (.around (.guarded (.present term)) element))
  | none => constructor g n children snippet value inner

/-- What is emitted for the matches of a mapping's input, within the scopes that bind it. -/
def matched (g : Setting) (n : NumberedNode) (children : List NumberedNode) (nm : NumberedMapping)
    (inner : Stacked Block) : Stacked Block := do
  let opened ← openInput n nm
  let body ← emit g n children nm (.var opened.2) inner
  close opened.1.reverse body

/-- What one mapping of a node emits. -/
def mapping (g : Setting) (n : NumberedNode) (children : List NumberedNode) (nm : NumberedMapping)
    (inner : Stacked Block) : Stacked Block := do
  let block ← nm.mapping.literal?.elim (matched g n children nm inner) fun s =>
    emit g n children nm (.literal s) inner
  pure (block ++ fallback n (g.snippetOf n nm.mapping))

/-- What a node emits that is neither mapped nor fixed. -/
def branch (g : Setting) (isRoot : Bool) (n : NumberedNode) (below : Forest NumberedNode)
    (inner : Stacked Block) : Stacked Block :=
  match if isRoot || n.leaf then none else commonParent? below with
  | some parent =>
    mapping g n below.tops { mapping := { output := n.path, input := parent } } inner
  | none => do
    let args ← argumentsOf g below.tops
    let body ← inner
    pure (if args.values.isEmpty && body.isEmpty then .nil else args.construct n.tag none body)

/-- What a node emits, when `inner` emits what is below it. -/
def node (g : Setting) (isRoot : Bool) (n : NumberedNode) (below : Forest NumberedNode)
    (inner : Stacked Block) : Stacked Block := do
  if n.isAttribute || !g.inFocus n.path then pure .nil
  else if n.fixedMembership?.isSome then
    match n.fixedValue? with
    | some s => do
      let args ← argumentsOf g below.tops
      pure (args.construct n.tag (some (.literal s)) .nil)
    | none => pure .nil
  else if !isPopulated n below then pure .nil
  else if n.hasMappings then
    joined ((g.emitted n).map fun nm => marked nm.mapping <$> mapping g n below.tops nm inner)
  else branch g isRoot n below inner

/-- What the trees of a forest emit. -/
def block (g : Setting) : Forest NumberedNode → Stacked Block
  | .nil => pure .nil
  | .tree n below next => do
    let first ← node g false n below (block g below)
    let others ← block g next
    pure (first ++ others)

/-- What the output document comes to. -/
def output (g : Setting) : Forest NumberedNode → Stacked Block
  | .nil => pure .nil
  | .tree n below _ => do
    let block ← node g true n below (block g below)
    if block.isEmpty then do
      let args ← argumentsOf g below.tops
      pure (args.construct n.tag none .nil)
    else pure block

end Stacked

end Emission

/-! ### What holds of open scopes -/

theorem Path.parent?_child (p : Path) (t : Tag) : (p.child t).parent? = some p := by
  simp [Path.parent?]

/-- Whether a binding binds a path. -/
def Binding.isPath (b : Binding) : Bool :=
  match b.key with
  | .path _ => true
  | .join .. => false

namespace Scopes

/-- Whether a variable has what a path stands for: the interpreter's has what a first tag stands
for, and that of a scope what the scope binds. -/
def Holds (scopes : Scopes) (p : Path) (var : String) : Prop :=
  if p.length ≤ 1 then var = inputVar else ⟨.path p, var⟩ ∈ scopes

/-- Open scopes bind no path or join twice, and no path of fewer than two tags. A path of more is
bound within the scope of its parent, and each path has a variable of its own. -/
structure WellOpened (scopes : Scopes) : Prop where
  keys : (scopes.map Binding.key).Nodup
  long : ∀ b ∈ scopes, ∀ p, b.key = .path p → 2 ≤ p.length
  parents : ∀ b outer p, b :: outer <:+ scopes → b.key = .path p → 3 ≤ p.length →
    ∃ q v, p.parent? = some q ∧ ⟨.path q, v⟩ ∈ outer
  vars : ((scopes.filter Binding.isPath).map Binding.var).Nodup

/-- Whether an expression is what is bound within some scopes: for a path one step of navigation by
its last tag from the variable of its parent, and for a join the keys from that of the parent. -/
inductive Binds (outer : Scopes) : BindingKey → Expression → Prop
  | path {p : Path} {t : Tag} {var : String} (hne : 1 ≤ p.length) (hvar : outer.Holds p var) :
      Binds outer (.path (p.child t)) (.nav var [t])
  | join {parent : Path} {keys : List Tag} {var : String} (hvar : outer.Holds parent var) :
      Binds outer (.join parent keys) (.mapJoin var keys)

variable {scopes outer : Scopes}

theorem WellOpened.nil : WellOpened [] where
  keys := List.nodup_nil
  long := nofun
  parents b outer p h := absurd (List.suffix_nil.mp h) (by simp)
  vars := List.nodup_nil

theorem WellOpened.of_suffix (h : scopes.WellOpened) (hsuffix : outer <:+ scopes) :
    outer.WellOpened where
  keys := h.keys.sublist (hsuffix.sublist.map _)
  long b hb := h.long b (hsuffix.subset hb)
  parents b inner p hb := h.parents b inner p (hb.trans hsuffix)
  vars := h.vars.sublist ((hsuffix.sublist.filter _).map _)

/-- A scope over a path that is not bound yet, within the scope of the path's parent. -/
theorem WellOpened.pushPath (h : scopes.WellOpened) {p : Path} {t : Tag} {var : String}
    (hne : 1 ≤ p.length) (hvar : scopes.Holds p var)
    (hnew : ∀ b ∈ scopes, b.key ≠ .path (p.child t)) :
    WellOpened (⟨.path (p.child t), scopes.freshVar t⟩ :: scopes) where
  keys := by
    refine List.nodup_cons.mpr ⟨fun hmem => ?_, h.keys⟩
    obtain ⟨b, hb, hkey⟩ := List.mem_map.mp hmem
    exact hnew b hb hkey
  long := by
    refine List.forall_mem_cons.mpr ⟨?_, h.long⟩
    rintro _ ⟨⟩
    rw [Path.length_child]
    omega
  parents b outer q hsuffix hkey hlength := by
    rcases List.suffix_cons_iff.mp hsuffix with heq | hsuffix
    · obtain ⟨rfl, rfl⟩ := List.cons.inj heq
      cases hkey
      rw [Path.length_child] at hlength
      rw [Holds, if_neg (by omega)] at hvar
      exact ⟨p, var, Path.parent?_child p t, hvar⟩
    · exact h.parents b outer q hsuffix hkey hlength
  vars := by
    refine List.nodup_cons.mpr ⟨fun hmem => ?_, h.vars⟩
    have hmem : scopes.freshVar t ∈ scopes.map Binding.var :=
      (List.filter_sublist.map Binding.var).subset hmem
    exact freshVar_notMem_takenNames scopes t (List.mem_cons_of_mem _ hmem)

/-- A scope over a join that is not open yet. -/
theorem WellOpened.pushJoin (h : scopes.WellOpened) {parent : Path} {keys : List Tag} {var : String}
    (hnew : ∀ b ∈ scopes, b.key ≠ .join parent keys) :
    WellOpened (⟨.join parent keys, var⟩ :: scopes) where
  keys := by
    refine List.nodup_cons.mpr ⟨fun hmem => ?_, h.keys⟩
    obtain ⟨b, hb, hkey⟩ := List.mem_map.mp hmem
    exact hnew b hb hkey
  long := List.forall_mem_cons.mpr ⟨nofun, h.long⟩
  parents b outer q hsuffix hkey hlength := by
    rcases List.suffix_cons_iff.mp hsuffix with heq | hsuffix
    · obtain ⟨rfl, rfl⟩ := List.cons.inj heq
      cases hkey
    · exact h.parents b outer q hsuffix hkey hlength
  vars := h.vars

/-- Navigation to a path starts from a variable that has what a prefix of it stands for. -/
theorem WellOpened.holds_nearest (h : scopes.WellOpened) (p : Path) :
    scopes.Holds (scopes.nearest p).1 (scopes.nearest p).2 ∧
      (p.tags ≠ [] → 1 ≤ (scopes.nearest p).1.length) := by
  rw [nearest]
  cases hfound : scopes.deepest? p with
  | none =>
    have hlength : (p.take 1).length = min 1 p.length := List.length_take
    change scopes.Holds (p.take 1) inputVar ∧ (p.tags ≠ [] → 1 ≤ (p.take 1).length)
    rw [Holds, hlength, if_pos (Nat.min_le_left ..)]
    exact ⟨rfl, fun hne => Nat.le_min.mpr ⟨Nat.le_refl 1, List.length_pos_iff.mpr hne⟩⟩
  | some found =>
    obtain ⟨⟨b, hb, hvar, hcover⟩, -⟩ := Emission.deepest?_eq_some hfound
    obtain ⟨hkey, -⟩ := Emission.covers?_eq_some_iff.mp hcover
    have hlong := h.long b hb _ hkey
    rw [Option.getD_some]
    refine ⟨?_, fun _ => by omega⟩
    rw [Holds, if_neg (by omega), ← hvar, ← hkey]
    exact hb

end Scopes

namespace Emission

/-- Whether scopes are well opened before and after a move, and what is opened is bound so. -/
structure Move.Sound (move : Move) : Prop where
  before : move.before.WellOpened
  after : move.after.WellOpened
  binds : ∀ outer b frame, move = opening outer b frame →
    frame.var = b.var ∧ outer.Binds b.key frame.source

/-- Whether the moves lead to the scopes that are open, which are well opened, and all are sound. -/
structure Machine.Sound (m : Machine) : Prop where
  leads : Leads m.moves m.scopes
  scopes : m.scopes.WellOpened
  moves : ∀ move ∈ m.moves, move.Sound

theorem Machine.Sound.start : Machine.Sound {} := ⟨.start, .nil, nofun⟩

namespace Stacked

variable {m : Machine} {g : Setting} {n : NumberedNode}

/-! ### Opening and closing -/

theorem sound_push (h : m.Sound) {b : Binding} {frame : Frame} (hopen : WellOpened (b :: m.scopes))
    (hvar : frame.var = b.var) (hbinds : m.scopes.Binds b.key frame.source) :
    (push b frame m).2.Sound where
  leads := .move h.leads
  scopes := hopen
  moves := by
    refine List.forall_mem_cons.mpr ⟨⟨h.scopes, hopen, ?_⟩, h.moves⟩
    rintro _ _ _ ⟨⟩
    exact ⟨hvar, hbinds⟩

theorem sound_pop (h : m.Sound) : (pop m).2.Sound where
  leads := .move h.leads
  scopes := h.scopes.of_suffix (List.tail_suffix _)
  moves := by
    have hclosed := h.scopes.of_suffix (List.tail_suffix m.scopes)
    refine List.forall_mem_cons.mpr ⟨⟨h.scopes, hclosed, ?_⟩, h.moves⟩
    rintro _ _ _ ⟨⟩

theorem openSteps_apply {final : Operator} {depth : Nat} {ts : List Tag} :
    ∀ (bound : Path) (var : String) (m : Machine),
    (openSteps final depth bound var ts m).1 =
        ((Emission.openSteps final depth bound var m.scopes ts).frames,
          (Emission.openSteps final depth bound var m.scopes ts).var) ∧
      (openSteps final depth bound var ts m).2.scopes =
        (Emission.openSteps final depth bound var m.scopes ts).scopes := by
  induction ts with
  | nil => exact fun _ _ _ => ⟨rfl, rfl⟩
  | cons t ts ih =>
    intro bound var m
    let frame : Frame :=
      ⟨if (bound.child t).length = depth then final else .all, m.scopes.freshVar t, .nav var [t]⟩
    have hcons : openSteps final depth bound var (t :: ts) m =
        let rest := openSteps final depth (bound.child t) (m.scopes.freshVar t) ts
          (push ⟨.path (bound.child t), m.scopes.freshVar t⟩ frame m).2
        ((frame :: rest.1.1, rest.1.2), rest.2) := rfl
    obtain ⟨hresult, hscopes⟩ := ih (bound.child t) (m.scopes.freshVar t)
      (push ⟨.path (bound.child t), m.scopes.freshVar t⟩ frame m).2
    rw [hcons]
    simp only [hresult]
    exact ⟨rfl, hscopes⟩

/-- The scopes over some tags in turn, where no more of the path that they lead to is bound. -/
theorem sound_openSteps {final : Operator} {depth : Nat} {ts : List Tag} : ∀ {bound : Path}
    {var : String} {m : Machine}, m.Sound → (ts ≠ [] → 1 ≤ bound.length) →
    m.scopes.Holds bound var →
    (∀ b ∈ m.scopes, ∀ q, b.key = .path q → q.tags <+: bound.tags ++ ts →
      q.length ≤ bound.length) →
    (openSteps final depth bound var ts m).2.Sound ∧
      (openSteps final depth bound var ts m).2.scopes.Holds ⟨bound.tags ++ ts⟩
        (openSteps final depth bound var ts m).1.2 := by
  induction ts with
  | nil =>
    intro bound var m h _ hvar _
    exact ⟨h, by rwa [List.append_nil]⟩
  | cons t ts ih =>
    intro bound var m h hne hvar hdeepest
    have hne := hne (List.cons_ne_nil t ts)
    have hchild : (bound.child t).tags ++ ts = bound.tags ++ t :: ts := by
      rw [Path.tags_child, List.append_assoc, List.singleton_append]
    -- nothing that leads to the target is bound beyond where the steps start
    have hnew : ∀ b ∈ m.scopes, b.key ≠ .path (bound.child t) := by
      intro b hb hkey
      have hle := hdeepest b hb _ hkey (hchild ▸ List.prefix_append ..)
      rw [Path.length_child] at hle
      omega
    let frame : Frame :=
      ⟨if (bound.child t).length = depth then final else .all, m.scopes.freshVar t, .nav var [t]⟩
    have hpush : (push _ frame m).2.Sound :=
      sound_push h (h.scopes.pushPath hne hvar hnew) rfl (.path hne hvar)
    rw [← hchild]
    refine ih hpush (fun _ => ?_) ?_ ?_
    · rw [Path.length_child]
      omega
    · rw [Holds, if_neg (by rw [Path.length_child]; omega)]
      exact List.mem_cons_self
    · refine List.forall_mem_cons.mpr ⟨by rintro _ ⟨⟩ -; exact Nat.le_refl _, ?_⟩
      intro b hb q hkey hq
      rw [Path.length_child]
      exact Nat.le_succ_of_le (hdeepest b hb q hkey (hchild ▸ hq))

theorem openPath_apply (final : Operator) (depth : Nat) (target : Path) (m : Machine) :
    (openPath final depth target m).1 =
        ((Emission.openPath final depth m.scopes target).frames,
          (Emission.openPath final depth m.scopes target).var) ∧
      (openPath final depth target m).2.scopes =
        (Emission.openPath final depth m.scopes target).scopes :=
  openSteps_apply ..

theorem sound_openPath (h : m.Sound) (final : Operator) (depth : Nat) (target : Path) :
    (openPath final depth target m).2.Sound ∧
      (openPath final depth target m).2.scopes.Holds target
        (openPath final depth target m).1.2 := by
  obtain ⟨-, happend, hdeepest⟩ := standsFor_nearest m.scopes target
  obtain ⟨hvar, hne⟩ := h.scopes.holds_nearest target
  have hopen := @sound_openSteps final depth (target.tags.drop (m.scopes.nearest target).1.length)
    _ _ m h (fun hdrop => hne fun hnil => hdrop (by simp [hnil])) hvar
    fun b hb q hkey hq => hdeepest b hb q hkey (happend ▸ hq)
  rwa [happend] at hopen

theorem openJoin_eq {op : Operator} {k : Nat} {parent : Path} {keys : List Tag} {var : String} :
    openJoin op k parent keys var m =
      match m.scopes.joinVar? parent keys with
      | some joined => (([], joined), m)
      | none => (([⟨op, joinVar k, .mapJoin var keys⟩], joinVar k),
          (push ⟨.join parent keys, joinVar k⟩ ⟨op, joinVar k, .mapJoin var keys⟩ m).2) := by
  simp only [openJoin, bind, scopes]
  cases m.scopes.joinVar? parent keys <;> rfl

theorem openJoin_apply (op : Operator) (k : Nat) (parent : Path) (keys : List Tag) {o : Opened}
    (hscopes : m.scopes = o.scopes) :
    (o.frames ++ (openJoin op k parent keys o.var m).1.1, (openJoin op k parent keys o.var m).1.2) =
        ((Emission.openJoin op k parent keys o).frames,
          (Emission.openJoin op k parent keys o).var) ∧
      (openJoin op k parent keys o.var m).2.scopes =
        (Emission.openJoin op k parent keys o).scopes := by
  rw [openJoin_eq, Emission.openJoin, hscopes]
  cases o.scopes.joinVar? parent keys with
  | some joined => exact ⟨congrArg (·, joined) (List.append_nil _), hscopes⟩
  | none => exact ⟨rfl, congrArg (_ :: ·) hscopes⟩

theorem sound_openJoin {op : Operator} {k : Nat} {parent : Path} {keys : List Tag} {var : String}
    (h : m.Sound) (hvar : m.scopes.Holds parent var) :
    (openJoin op k parent keys var m).2.Sound := by
  rw [openJoin_eq]
  cases hjoin : m.scopes.joinVar? parent keys with
  | some joined => exact h
  | none =>
    have hnew : ∀ b ∈ m.scopes, b.key ≠ .join parent keys := by
      simpa [joinVar?] using hjoin
    exact sound_push h (h.scopes.pushJoin hnew) rfl (.join hvar)

theorem openInput_apply (n : NumberedNode) (nm : NumberedMapping) (m : Machine) :
    (openInput n nm m).1 =
        ((Emission.openInput m.scopes n nm).frames, (Emission.openInput m.scopes n nm).var) ∧
      (openInput n nm m).2.scopes = (Emission.openInput m.scopes n nm).scopes := by
  rw [openInput, Emission.openInput]
  cases nm.join with
  | none => exact openPath_apply ..
  | some k =>
    obtain ⟨hresult, hscopes⟩ := openPath_apply (operatorOf n nm.mapping) nm.mapping.input.length
      (nm.mapping.input.parent?.getD nm.mapping.input) m
    simp only [bind, pure, hresult]
    exact openJoin_apply (operatorOf n nm.mapping) k _ _ hscopes

theorem sound_openInput {nm : NumberedMapping} (h : m.Sound) : (openInput n nm m).2.Sound := by
  rw [openInput]
  cases nm.join with
  | none => exact (sound_openPath h ..).1
  | some k =>
    have hpath := sound_openPath h (operatorOf n nm.mapping) nm.mapping.input.length
      (nm.mapping.input.parent?.getD nm.mapping.input)
    exact sound_openJoin hpath.1 hpath.2

theorem close_apply : ∀ (frames : List Frame) (block : Block) (m : Machine),
    (close frames block m).1 =
        frames.foldl (fun body f => Block.scope f.operator f.var f.source body) block ∧
      (close frames block m).2.scopes = m.scopes.drop frames.length
  | [], _, _ => ⟨rfl, rfl⟩
  | f :: frames, block, m => by
    obtain ⟨hresult, hscopes⟩ :=
      close_apply frames (Block.scope f.operator f.var f.source block) (pop m).2
    exact ⟨hresult, hscopes.trans List.drop_tail⟩

theorem sound_close : ∀ (frames : List Frame) (block : Block) {m : Machine}, m.Sound →
    (close frames block m).2.Sound
  | [], _, _, h => h
  | f :: frames, block, _, h =>
    sound_close frames (Block.scope f.operator f.var f.source block) (sound_pop h)

/-- As many scopes as are opened lie on top of those that were open. -/
theorem drop_openSteps (final : Operator) (depth : Nat) :
    ∀ (ts : List Tag) (bound : Path) (var : String) (scopes : Scopes),
    (Emission.openSteps final depth bound var scopes ts).scopes.drop
      (Emission.openSteps final depth bound var scopes ts).frames.length = scopes
  | [], _, _, _ => rfl
  | t :: ts, bound, var, scopes => by
    have hrest := drop_openSteps final depth ts (bound.child t) (scopes.freshVar t)
      (⟨.path (bound.child t), scopes.freshVar t⟩ :: scopes)
    rw [Emission.openSteps, List.length_cons, ← List.tail_drop, hrest, List.tail_cons]

theorem drop_openInput {nm : NumberedMapping} {scopes : Scopes} :
    (Emission.openInput scopes n nm).scopes.drop
      (Emission.openInput scopes n nm).frames.length = scopes := by
  rw [Emission.openInput]
  cases nm.join with
  | none => exact drop_openSteps ..
  | some k =>
    simp only [Emission.openJoin]
    split
    · exact drop_openSteps ..
    · rw [List.length_append, List.length_singleton, List.drop_succ_cons]
      exact drop_openSteps ..

/-! ### Both ways to emit -/

/-- Whether a computation comes to what a function of the open scopes does, and makes no move. -/
structure Reads {α : Type} (x : Stacked α) (f : Scopes → α) : Prop where
  result : ∀ m, (x m).1 = f m.scopes
  scopes : ∀ m, (x m).2.scopes = m.scopes
  moves : ∀ m, (x m).2.moves = m.moves

/-- Whether a computation comes to what a function of the open scopes does, leaves the stack as it
finds it, and makes sound moves only. -/
structure Emits {α : Type} (x : Stacked α) (f : Scopes → α) : Prop where
  result : ∀ m, (x m).1 = f m.scopes
  scopes : ∀ m, (x m).2.scopes = m.scopes
  sound : ∀ m, m.Sound → (x m).2.Sound

section

variable {α β γ : Type} {x : Stacked α} {y : Stacked β} {k : α → Stacked β} {f : Scopes → α}
  {f' : Scopes → β}

namespace Reads

theorem emits (h : Reads x f) : Emits x f where
  result := h.result
  scopes := h.scopes
  sound m hm := by
    obtain ⟨hleads, hscopes, hmoves⟩ := hm
    rw [← h.scopes m] at hleads hscopes
    rw [← h.moves m] at hleads hmoves
    exact ⟨hleads, hscopes, hmoves⟩

theorem const (a : α) : Reads (pure a) fun _ => a := ⟨fun _ => rfl, fun _ => rfl, fun _ => rfl⟩

/-- A computation may go by the scopes that are open. -/
theorem read {x : Scopes → Stacked α} (h : ∀ s, Reads (x s) fun _ => f s) :
    Reads (do let s ← Stacked.scopes; x s) f where
  result m := (h m.scopes).result m
  scopes m := (h m.scopes).scopes m
  moves m := (h m.scopes).moves m

theorem map (hx : Reads x f) (k : α → β) :
    Reads (do let a ← x; pure (k a)) fun s => k (f s) where
  result m := congrArg k (hx.result m)
  scopes := hx.scopes
  moves := hx.moves

theorem map₂ (hx : Reads x f) (hy : Reads y f') (k : α → β → γ) :
    Reads (do let a ← x; let b ← y; pure (k a b)) fun s => k (f s) (f' s) where
  result m := by
    have hresult : (y (x m).2).1 = f' m.scopes := by rw [hy.result, hx.scopes]
    exact congr (congrArg k (hx.result m)) hresult
  scopes m := (hy.scopes _).trans (hx.scopes m)
  moves m := (hy.moves _).trans (hx.moves m)

end Reads

namespace Emits

theorem const (a : α) : Emits (pure a) fun _ => a := (Reads.const a).emits

/-- What comes next goes by what a computation comes to, and by the same scopes. -/
theorem bind {h : α → Scopes → β} (hx : Emits x f) (hk : ∀ a, Emits (k a) (h a)) :
    Emits (do let a ← x; k a) fun s => h (f s) s where
  result m := by
    have hresult := (hk (x m).1).result (x m).2
    rw [hx.scopes] at hresult
    exact hresult.trans (congrArg (h · m.scopes) (hx.result m))
  scopes m := ((hk _).scopes _).trans (hx.scopes m)
  sound m h := (hk _).sound _ (hx.sound m h)

theorem map (hx : Emits x f) (k : α → β) :
    Emits (do let a ← x; pure (k a)) fun s => k (f s) :=
  hx.bind fun a => const (k a)

theorem map₂ (hx : Emits x f) (hy : Emits y f') (k : α → β → γ) :
    Emits (do let a ← x; let b ← y; pure (k a b)) fun s => k (f s) (f' s) :=
  hx.bind fun a => hy.map (k a)

theorem joined {x : α → Stacked Block} {f : Scopes → α → Block} : ∀ {as : List α},
    (∀ a ∈ as, Emits (x a) fun s => f s a) →
      Emits (Stacked.joined (as.map x)) fun s => .join (as.map (f s))
  | [], _ => const Block.nil
  | _ :: _, h => by
    rw [List.forall_mem_cons] at h
    exact h.1.map₂ (joined h.2) (· ++ ·)

end Emits

end

/-! ### Tables and attributes -/

theorem reads_declare (table : HoistedTable) :
    Reads (declare table) fun _ => lookupName table.number :=
  ⟨fun _ => rfl, fun _ => rfl, fun _ => rfl⟩

theorem reads_consult (nm : NumberedMapping) (k : Nat) :
    Reads (consult n nm k) fun _ => lookupName k := by
  rw [consult]
  cases nm.mapping.dictionary with
  | some d => exact reads_declare _
  | none => exact .const _

theorem reads_attributeBindings (nm : NumberedMapping) (var : String) :
    Reads (attributeBindings g n nm var) fun s => Emission.attributeBindings g s n nm var := by
  simp only [attributeBindings, Emission.attributeBindings]
  refine .read fun s => ?_
  cases nm.mapping.literal? with
  | some text => exact .const _
  | none =>
    cases g.snippetOf n nm.mapping with
    | some code =>
      cases nm.table with
      | some k =>
        exact (reads_consult nm k).map fun function =>
          _ ++ Block.one (.define var (.call function [.var (var ++ "_code")]))
      | none => exact .const _
    | none =>
      cases nm.table with
      | some k =>
        exact (reads_consult nm k).map fun function =>
          Block.one (.define var (.call function [attributeSource s n nm.mapping]))
      | none => exact .const _

theorem reads_attributeLets : ∀ (k : Nat) (nms : List NumberedMapping),
    Reads (attributeLets g n k nms) fun s => Emission.attributeLets g s n k nms
  | _, [] => .const Block.nil
  | k, nm :: rest => (reads_attributeBindings nm _).map₂ (reads_attributeLets (k + 1) rest)
      fun block others => marked nm.mapping block ++ others

theorem reads_attributeArguments (n : NumberedNode) :
    Reads (attributeArguments g n) fun s => Emission.attributeArguments g s n := by
  simp only [attributeArguments, Emission.attributeArguments]
  cases n.fixedMembership? with
  | some m => exact .const _
  | none =>
    cases attributeValue? n.path (g.emitted n) with
    | none => exact .const _
    | some value =>
      exact (reads_attributeLets 0 _).map fun lets =>
        { lets, values := _, guards := _ : Arguments }

/-- Attributes open no scopes. -/
theorem reads_argumentsOf : ∀ ns : List NumberedNode,
    Reads (argumentsOf g ns) fun s => Emission.argumentsOf g s ns
  | [] => .const ({} : Arguments)
  | n :: rest => by
    simp only [argumentsOf, Emission.argumentsOf]
    split
    · exact (reads_attributeArguments n).map₂ (reads_argumentsOf rest) (· ++ ·)
    · exact reads_argumentsOf rest

/-! ### Elements -/

variable {inner : Stacked Block} {f : Scopes → Block}

theorem emits_constructor (hinner : Emits inner f) (ns : List NumberedNode)
    (snippet : Option Snippet) (value : Expression) :
    Emits (constructor g n ns snippet value inner) fun s =>
      Emission.constructor g s n ns snippet value f := by
  simp only [constructor, Emission.constructor]
  cases n.leaf with
  | true =>
    cases snippet with
    | some code => exact (reads_argumentsOf ns).emits.map fun args => args.construct n.tag none _
    | none => exact (reads_argumentsOf ns).emits.map fun args => args.construct n.tag (some _) .nil
  | false =>
    exact (reads_argumentsOf ns).emits.map₂ hinner fun args body =>
      args.construct n.tag (choiceValue? n) (_ ++ body)

theorem emits_emit (hinner : Emits inner f) (ns : List NumberedNode) (nm : NumberedMapping)
    (value : Expression) :
    Emits (emit g n ns nm value inner) fun s => Emission.emit g s n ns nm value f := by
  simp only [emit, Emission.emit]
  cases nm.table with
  | some k =>
    exact (reads_consult nm k).emits.map₂ (emits_constructor hinner ns _ _) fun function element =>
      Block.simple (.define (termVar k) (.call function [value]))
        (.around (.guarded (.present (.var (termVar k)))) element)
  | none => exact emits_constructor hinner ns _ value

theorem emits_matched {ns : List NumberedNode} {nm : NumberedMapping} (hinner : Emits inner f) :
    Emits (matched g n ns nm inner) fun s =>
      wrap (Emission.openInput s n nm).frames
        (Emission.emit g (Emission.openInput s n nm).scopes n ns nm
          (.var (Emission.openInput s n nm).var) f) where
  result m := by
    obtain ⟨hopened, hscopes⟩ := openInput_apply n nm m
    have hemit := (emits_emit (g := g) (n := n) hinner ns nm
      (.var (openInput n nm m).1.2)).result (openInput n nm m).2
    refine (close_apply ..).1.trans ?_
    rw [hemit, hscopes, hopened, List.foldl_reverse]
    rfl
  scopes m := by
    obtain ⟨hopened, hscopes⟩ := openInput_apply n nm m
    have hemit := (emits_emit (g := g) (n := n) hinner ns nm
      (.var (openInput n nm m).1.2)).scopes (openInput n nm m).2
    refine (close_apply ..).2.trans ?_
    rw [hemit, hscopes, hopened, List.length_reverse]
    exact drop_openInput
  sound m h := sound_close _ _ ((emits_emit hinner ..).sound _ (sound_openInput h))

theorem emits_mapping {ns : List NumberedNode} {nm : NumberedMapping} (hinner : Emits inner f) :
    Emits (mapping g n ns nm inner) fun s => mappingBlock g s n ns nm f := by
  simp only [mappingBlock, mapping]
  cases nm.mapping.literal? with
  | some s => exact (emits_emit hinner ..).map (· ++ fallback n (g.snippetOf n nm.mapping))
  | none => exact (emits_matched hinner).map (· ++ fallback n (g.snippetOf n nm.mapping))

theorem emits_branch {isRoot : Bool} {below : Forest NumberedNode} (hinner : Emits inner f) :
    Emits (branch g isRoot n below inner) fun s => Emission.branch g isRoot s n below f := by
  simp only [branch, Emission.branch]
  cases if isRoot || n.leaf then none else commonParent? below with
  | some parent => exact emits_mapping hinner
  | none =>
    exact (reads_argumentsOf below.tops).emits.map₂ hinner fun args body =>
      if args.values.isEmpty && body.isEmpty then .nil else args.construct n.tag none body

theorem emits_node {isRoot : Bool} {below : Forest NumberedNode} (hinner : Emits inner f) :
    Emits (node g isRoot n below inner) fun s => nodeBlock g isRoot s n below f := by
  simp only [node, nodeBlock]
  split
  · exact .const Block.nil
  split
  · cases n.fixedValue? with
    | some s =>
      exact (reads_argumentsOf below.tops).emits.map fun args => args.construct n.tag _ .nil
    | none => exact .const Block.nil
  split
  · exact .const Block.nil
  split
  · exact .joined fun nm _ => (emits_mapping hinner).map (marked nm.mapping)
  · exact emits_branch hinner

theorem emits_block : ∀ {f : Forest NumberedNode}, Emits (block g f) (blockOf g f)
  | .nil => .const Block.nil
  | .tree _ _ _ => (emits_node emits_block).map₂ emits_block (· ++ ·)

/-- The root whose block is empty has its arguments emitted once more. -/
theorem emits_root (n : NumberedNode) (below : Forest NumberedNode) (block : Block) :
    Emits (if block.isEmpty then do
        let args ← argumentsOf g below.tops
        pure (args.construct n.tag none .nil)
      else pure block) fun s =>
        if block.isEmpty then (Emission.argumentsOf g s below.tops).construct n.tag none .nil
        else block := by
  split
  · exact (reads_argumentsOf below.tops).emits.map fun args => args.construct n.tag none .nil
  · exact .const block

theorem emits_output {f : Forest NumberedNode} (hm : m.scopes = []) (h : m.Sound) :
    (output g f m).1 = outputOf g f ∧ (output g f m).2.scopes = [] ∧ (output g f m).2.Sound := by
  cases f with
  | nil => exact ⟨rfl, hm, h⟩
  | tree n below next =>
    have hnode : Emits (node g true n below (block g below)) _ := emits_node emits_block
    have houtput := hnode.bind (emits_root (g := g) n below)
    have hresult := houtput.result m
    rw [hm] at hresult
    exact ⟨hresult, (houtput.scopes m).trans hm, houtput.sound m h⟩

end Stacked

end Emission

open Emission

/-- What a mapping tree comes to when the open scopes are kept on a stack. -/
def MappingTree.emission (t : MappingTree) (snippets : SnippetStore) (focus : Option Focus) :
    Block × Machine :=
  Stacked.output { snippets, focus := focus.filter t.has } t.numbered {}

/-- A mapping tree comes to the same on a stack, which is empty again in the end, and well opened
before and after every move. What a node opens it has closed when it is done. -/
theorem MappingTree.sound_emission (t : MappingTree) (snippets : SnippetStore)
    (focus : Option Focus) :
    ((t.emission snippets focus).1 = (t.program snippets focus).1.output ∧
        (t.emission snippets focus).2.scopes = [] ∧ (t.emission snippets focus).2.Sound) ∧
      ∀ g isRoot n below m,
        (Stacked.node g isRoot n below (Stacked.block g below) m).2.scopes = m.scopes :=
  ⟨Stacked.emits_output rfl .start,
    fun _ _ _ _ => (Stacked.emits_node Stacked.emits_block).scopes⟩

end Crosswalk
