import Crosswalk.Proofs.Navigation

/-!
What the scopes of a mapping iterate over. A program is read over a source record: navigation yields
the children of a name in document order, a loop runs its block for each match, and a bind runs it
once for the whole. Read so, the nest of one-step loops that a mapping opens comes to all that
navigation through its tags at once finds, in the same order and as often, starting from the deepest
path of its input that is bound. Names are fresh, so what was open before keeps its nodes.
-/

namespace Crosswalk

variable {α : Type}

/-! ### Source records -/

/-- The trees of a forest, each as its label and what is below it. -/
def Forest.trees : Forest α → List (α × Forest α)
  | nil => []
  | tree a below next => (a, below) :: trees next

/-- A node of a source record with what is below it. The labels may be anything that has a name. -/
abbrev SourceNode (α : Type) := α × Forest α

/-- What a variable stands for, or what an expression yields. -/
inductive Value (α : Type) where
  | node (x : SourceNode α)
  /-- Several nodes as a whole. -/
  | collection (xs : List (SourceNode α))
  | text (s : String)

namespace Value

/-- The nodes that a loop iterates over and that navigation starts from. -/
def nodes : Value α → List (SourceNode α)
  | node x => [x]
  | collection xs => xs
  | text _ => []

/-- Whether there is nothing in it. -/
def isEmpty : Value α → Bool
  | node _ => false
  | collection xs => xs.isEmpty
  | text s => s.isEmpty

end Value

/-- What variables stand for. -/
abbrev Environment (α : Type) := String → Value α

/-- How the labels of source records and the functions of a program are read. -/
structure Reading (α : Type) where
  /-- Whether a tag names nodes with a label. -/
  names : Tag → α → Bool
  text : SourceNode α → String
  call : String → List (Value α) → Value α

namespace Reading

variable (R : Reading α)

/-- The children of a name in document order. -/
def children (t : Tag) (x : SourceNode α) : List (SourceNode α) :=
  x.2.trees.filter fun child => R.names t child.1

/-- The nodes that navigation through some tags finds, from some nodes. -/
def follow (steps : List Tag) (xs : List (SourceNode α)) : List (SourceNode α) :=
  steps.foldl (fun found t => found.flatMap (R.children t)) xs

mutual

/-- What an expression yields. -/
def value (env : Environment α) : Expression → Value α
  | .var x => env x
  | .literal s => .text s
  | .nav base steps => .collection (R.follow steps (env base).nodes)
  | .joined e delimiter => .text (delimiter.intercalate ((value env e).nodes.map R.text))
  | .first e => .text (((value env e).nodes.head?.map R.text).getD "")
  | .call function args => R.call function (values env args)
  | .mapJoin base keys =>
    .collection ((env base).nodes.flatMap fun x =>
      x.2.trees.filter fun child => keys.any fun key => R.names key child.1)
  | .alternatives es => ((values env es).find? fun v => !v.isEmpty).getD (.text "")

/-- What some expressions yield. -/
def values (env : Environment α) : List Expression → List (Value α)
  | [] => []
  | e :: es => value env e :: values env es

end

/-- The environments in which the block inside a scope runs, in turn. Other statements leave the
environment as it is. -/
def rounds (env : Environment α) : Opening → List (Environment α)
  | .loop var source first =>
    let found := (R.value env source).nodes
    (if first then found.take 1 else found).map fun x => Function.update env var (.node x)
  | .bind var e =>
    if (R.value env e).isEmpty then [] else [Function.update env var (R.value env e)]
  | _ => [env]

/-- The environments in which what is inside some statements runs, the first statement outermost. -/
def runs : List Opening → Environment α → List (Environment α)
  | [], env => [env]
  | o :: inner, env => (R.rounds env o).flatMap (runs inner)

/-! ### Navigation in several steps -/

theorem follow_cons (t : Tag) (ts : List Tag) (xs : List (SourceNode α)) :
    R.follow (t :: ts) xs = R.follow ts (xs.flatMap (R.children t)) := rfl

/-- What is found from some nodes is what is found from each in turn. -/
theorem follow_eq_flatMap {ts : List Tag} : ∀ {xs : List (SourceNode α)},
    R.follow ts xs = xs.flatMap fun x => R.follow ts [x] := by
  induction ts with
  | nil => intro xs; exact (List.flatMap_singleton' xs).symm
  | cons t ts ih =>
    intro xs
    rw [follow_cons, ih, List.flatMap_assoc]
    refine List.flatMap_congr fun x _ => ?_
    rw [follow_cons, List.flatMap_singleton, ← ih]

theorem follow_concat (ts : List Tag) (t : Tag) (xs : List (SourceNode α)) :
    R.follow (ts ++ [t]) xs = (R.follow ts xs).flatMap (R.children t) := by
  rw [follow, List.foldl_append]
  rfl

/-- A scope changes the variable that it binds and no other. -/
theorem rounds_eq {env env' : Environment α} {o : Opening} {var : String}
    (ho : o.scopeVar? = some var) (h : env' ∈ R.rounds env o) {x : String} (hx : x ≠ var) :
    env' x = env x := by
  cases o with
  | loop y source first =>
    obtain rfl := Option.some.inj ho
    obtain ⟨found, -, rfl⟩ := List.mem_map.mp h
    exact Function.update_of_ne hx ..
  | bind y e =>
    obtain rfl := Option.some.inj ho
    rw [rounds] at h
    split at h
    · cases h
    · rw [List.mem_singleton.mp h]
      exact Function.update_of_ne hx ..
  | _ => cases ho

end Reading

namespace Emission

/-! ### Frames as statements -/

/-- The head of the statement that a frame comes to. -/
def Frame.head (f : Frame) : Opening :=
  match f.operator, f.operator.delimiter? with
  | .all, _ => .loop f.var f.source false
  | .first, _ => .loop f.var f.source true
  | _, some delimiter => .bind f.var (.joined f.source delimiter)
  | _, none => .bind f.var f.source

theorem Frame.scopeVar?_head (f : Frame) : f.head.scopeVar? = some f.var := by
  obtain ⟨op, var, source⟩ := f
  cases op <;> rfl

theorem scope_eq_head (f : Frame) (inside : Block) :
    Block.scope f.operator f.var f.source inside = .around f.head inside := by
  obtain ⟨op, var, source⟩ := f
  cases op <;> rfl

/-- The statements of some frames stand one inside the other. -/
theorem wrap_eq_heads (frames : List Frame) (inside : Block) :
    wrap frames inside = (frames.map Frame.head).foldr .around inside := by
  rw [wrap, List.foldr_map]
  exact congrArg (fun k => frames.foldr k inside)
    (funext fun f => funext fun body => scope_eq_head f body)

/-! ### The nest of loops -/

variable (R : Reading α) {scopes : Scopes}

/-- The children of a name that a scope with some iterating operator runs for. -/
def matched (op : Operator) (t : Tag) (x : SourceNode α) : List (SourceNode α) :=
  if op = .first then (R.children t x).take 1 else R.children t x

/-- A loop over one step of navigation. -/
theorem runs_step {op : Operator} (hop : op.iterates = true) {x var : String} {t : Tag}
    {inner : List Opening} {env : Environment α} {start : SourceNode α}
    (hx : env x = .node start) :
    R.runs (Frame.head ⟨op, var, .nav x [t]⟩ :: inner) env =
      (matched R op t start).flatMap fun y =>
        R.runs inner (Function.update env var (.node y)) := by
  have hfound : (R.value env (.nav x [t])).nodes = R.children t start := by
    rw [Reading.value, hx]
    exact List.flatMap_singleton ..
  rw [Reading.runs]
  cases op with
  | all => rw [Frame.head, Reading.rounds, hfound, List.flatMap_map]; rfl
  | first => rw [Frame.head, Reading.rounds, hfound, List.flatMap_map]; rfl
  | _ => cases hop

/-- The loops over some tags in turn, the last of which has the operator, run for the matches of the
last tag under each node that the others lead to. -/
theorem runs_openSteps {final : Operator} (hfinal : final.iterates = true) {last : Tag}
    {above : List Tag} : ∀ {bound : Path} {x : String} {scopes : Scopes} {env : Environment α}
    {start : SourceNode α}, env x = .node start →
    let o := openSteps final (bound.length + above.length + 1) bound x scopes (above ++ [last])
    (R.runs (o.frames.map Frame.head) env).map (· o.var) =
      ((R.follow above [start]).flatMap (matched R final last)).map .node := by
  induction above with
  | nil =>
    intro bound x scopes env start hx
    have hdepth : (bound.child last).length = bound.length + ([] : List Tag).length + 1 :=
      Path.length_child ..
    simp only [List.nil_append, openSteps, List.map_cons, List.map_nil, if_pos hdepth,
      runs_step R hfinal hx, List.map_flatMap, Reading.runs, Function.update_self, Reading.follow,
      List.foldl_nil, List.flatMap_singleton]
    rw [← List.map_eq_flatMap]
  | cons t ts ih =>
    intro bound x scopes env start hx
    have hdepth : (bound.child t).length ≠ bound.length + (t :: ts).length + 1 := by
      rw [Path.length_child, List.length_cons]
      omega
    have hrest : bound.length + (t :: ts).length + 1 = (bound.child t).length + ts.length + 1 := by
      rw [Path.length_child, List.length_cons]
      omega
    simp only [List.cons_append, openSteps, List.map_cons, if_neg hdepth]
    rw [runs_step R rfl hx, List.map_flatMap, Reading.follow_cons, Reading.follow_eq_flatMap,
      List.flatMap_singleton, List.flatMap_assoc, List.map_flatMap, hrest]
    exact List.flatMap_congr fun y _ => ih (Function.update_self ..)

/-- Fresh variables are bound, so no variable that was in use changes. -/
theorem runs_openSteps_eq {final : Operator} {depth : Nat} {ts : List Tag} : ∀ {bound : Path}
    {var : String} {scopes : Scopes} {env env' : Environment α},
    env' ∈ R.runs ((openSteps final depth bound var scopes ts).frames.map Frame.head) env →
      ∀ x ∈ scopes.takenNames, env' x = env x := by
  induction ts with
  | nil =>
    intro bound var scopes env env' h x _
    rw [List.mem_singleton.mp h]
  | cons t ts ih =>
    intro bound var scopes env env' h x hx
    rw [openSteps, List.map_cons, Reading.runs] at h
    obtain ⟨between, hbetween, h⟩ := List.mem_flatMap.mp h
    have hfresh : x ≠ scopes.freshVar t := by
      rintro rfl
      exact Scopes.freshVar_notMem_takenNames scopes t hx
    have hstep : between x = env x := R.rounds_eq (Frame.scopeVar?_head _) hbetween hfresh
    rw [← hstep]
    refine ih h x ?_
    rcases List.mem_cons.mp hx with rfl | hx
    · exact List.mem_cons_self
    · exact List.mem_cons_of_mem _ (List.mem_cons_of_mem _ hx)

theorem matched_all (t : Tag) : matched R .all t = R.children t :=
  funext fun _ => if_neg (by decide)

end Emission

open Emission

/-- Whether a mapping is one of a tree's node with its numbers, or an implicit one without. -/
def MappingTree.Draws (t : MappingTree) (n : NumberedNode) (nm : NumberedMapping) : Prop :=
  (n ∈ t.numbered.labels ∧ nm ∈ n.numbered) ∨ nm = { mapping := nm.mapping }

/-- A mapping without siblings joins nothing. -/
theorem MappingTree.Draws.join_eq_none {t : MappingTree} {n : NumberedNode} {nm : NumberedMapping}
    (h : t.Draws n nm) (hsiblings : nm.mapping.siblings = []) : nm.join = none := by
  rcases h with ⟨hn, hnm⟩ | hnm
  · obtain ⟨n', -, i, j, rfl⟩ := Numbering.mem_labels_number hn
    rw [← Option.not_isSome_iff_eq_none, Numbering.isSome_join hnm, Numbering.joins, hsiblings]
    exact Bool.false_ne_true
  · rw [hnm]

/-- The scopes of a mapping without siblings bind its variable to what navigation through all tags
of its input beyond the deepest bound path finds, in order; or with the first match as its operator,
to the first under each node that the input's parent leads to. All that was in use stays as it is.
-/
theorem MappingTree.iterates_openInput (t : MappingTree) {n : NumberedNode} {nm : NumberedMapping}
    (hnm : t.Draws n nm) (hsiblings : nm.mapping.siblings = []) (R : Reading α) (scopes : Scopes)
    (env : Environment α) (hnodes : ∀ x ∈ scopes.takenNames, ∃ y, env x = .node y) :
    let input := nm.mapping.input
    let bound := (scopes.nearest input).1
    let base := (scopes.nearest input).2
    let o := openInput scopes n nm
    let runs := R.runs (o.frames.map Frame.head) env
    (∀ inside, wrap o.frames inside = (o.frames.map Frame.head).foldr .around inside) ∧
      (StandsFor scopes base bound ∧ ∀ b ∈ scopes, ∀ q, b.key = .path q → q.tags <+: input.tags →
        q.length ≤ bound.length) ∧
      ∃ start rest, env base = .node start ∧ input.tags = bound.tags ++ rest ∧
        (operatorOf n nm.mapping = .all →
          runs.map (· o.var) = (R.follow rest [start]).map .node) ∧
        (operatorOf n nm.mapping = .first → ∀ above last, rest = above ++ [last] →
          runs.map (· o.var) =
            ((R.follow above [start]).flatMap fun x => (R.children last x).take 1).map .node) ∧
        ∀ env' ∈ runs, ∀ x ∈ scopes.takenNames, env' x = env x := by
  intro input bound base o runs
  obtain ⟨hbase, happend, hdeepest⟩ := standsFor_nearest scopes input
  have htaken : base ∈ scopes.takenNames := by
    rcases hbase with ⟨hinput, -⟩ | ⟨b, hb, -, hvar⟩
    · exact List.mem_cons.mpr (.inl hinput)
    · exact List.mem_cons_of_mem _ (List.mem_map.mpr ⟨b, hb, hvar⟩)
  obtain ⟨start, hstart⟩ := hnodes base htaken
  have hopen : o = openSteps (operatorOf n nm.mapping) input.length bound base scopes
      (input.tags.drop bound.length) := by
    simp only [o, openInput, hnm.join_eq_none hsiblings]
    rfl
  -- the last of the tags is the one at the depth of the input
  have hlast {above : List Tag} {last : Tag} (h : input.tags.drop bound.length = above ++ [last])
      (hiterates : (operatorOf n nm.mapping).iterates = true) : runs.map (· o.var) =
        ((R.follow above [start]).flatMap
          (matched R (operatorOf n nm.mapping) last)).map .node := by
    have hdepth : input.length = bound.length + above.length + 1 := by
      have hlength : bound.length + (input.tags.drop bound.length).length = input.length :=
        length_nearest scopes input
      rw [h, List.length_append, List.length_singleton] at hlength
      omega
    have hruns := @runs_openSteps α R _ hiterates last above bound base scopes env start hstart
    simp only [runs, hopen, h, hdepth]
    exact hruns
  refine ⟨wrap_eq_heads _, ⟨hbase, hdeepest⟩, start, _, hstart, happend.symm, fun hall => ?_,
    fun hfirst above last h => ?_, fun env' h => ?_⟩
  · rcases List.eq_nil_or_concat (input.tags.drop bound.length) with hnil | ⟨above, last, h⟩
    · have hvar : o.var = base := by rw [hopen, hnil]; rfl
      have hruns : runs = [env] := by simp only [runs, hopen, hnil]; rfl
      rw [hruns, List.map_singleton, hvar, hnil, hstart]
      rfl
    · rw [List.concat_eq_append] at h
      rw [hlast h (by rw [hall]; rfl), hall, matched_all, h, R.follow_concat]
  · rw [hlast h (by rw [hfirst]; rfl), hfirst]
    rfl
  · simp only [runs, hopen] at h
    exact runs_openSteps_eq R h

/-- A source element with repeated names below it, its labels numbered. -/
def repeatedSource : SourceNode (String × Nat) :=
  (("a", 0),
    .tree ("b", 1) (.tree ("c", 2) .nil (.tree ("d", 3) .nil (.single ("c", 4) .nil)))
      (.tree ("d", 5) (.single ("c", 6) .nil) (.single ("b", 7) (.single ("c", 8) .nil))))

/-- A reading by qualified names. -/
def namedReading : Reading (String × Nat) where
  names t label := t.qname == label.1
  text x := x.1.1
  call _ _ := .text ""

/-- Within a scope over `a`, the names from `a/b/c` are all those below each `b`, in order. -/
theorem creatorRecord_iterates :
    let t := (MappingTree.ofRecord creatorRecord).afterEdits
      [.attach
        { output := .ofNames ["record", "creator", "name"]
          input := .ofNames ["m", "a", "b", "c"], operator := some .all }]
    let scopes : Scopes := [⟨.path (.ofNames ["m", "a"]), "_a"⟩]
    let env : Environment (String × Nat) := fun _ => .node repeatedSource
    let values (n : NumberedNode) (nm : NumberedMapping) := (namedReading.runs
      ((openInput scopes n nm).frames.map Frame.head) env).map (· (openInput scopes n nm).var)
    ∃ n ∈ t.numbered.labels, ∃ nm ∈ n.numbered, nm.mapping.siblings = [] ∧
      values n nm = [2, 4, 8].map fun k => .node (("c", k), .nil) := by
  intro t scopes env values
  let n := t.numbered.labels.get ⟨3, by decide +kernel⟩
  let nm := n.numbered.get ⟨0, by decide +kernel⟩
  have hn : n ∈ t.numbered.labels := List.get_mem ..
  have hnm : nm ∈ n.numbered := List.get_mem ..
  have hsiblings : nm.mapping.siblings = [] := by decide +kernel
  have hall : operatorOf n nm.mapping = .all := by decide +kernel
  have hinput : nm.mapping.input = .ofNames ["m", "a", "b", "c"] := by decide +kernel
  refine ⟨n, hn, nm, hnm, hsiblings, ?_⟩
  obtain ⟨-, -, start, rest, hstart, happend, hvalues, -, -⟩ :=
    t.iterates_openInput (.inl ⟨hn, hnm⟩) hsiblings namedReading scopes env fun _ _ => ⟨_, rfl⟩
  obtain rfl : repeatedSource = start := by injection hstart
  have hbound : (scopes.nearest nm.mapping.input).1 = .ofNames ["m", "a"] := by
    rw [hinput]
    decide +kernel
  obtain rfl : rest = [.elem none "b", .elem none "c"] := by
    rw [hbound, hinput] at happend
    have htags : (Path.ofNames ["m", "a"]).tags ++ rest =
        (Path.ofNames ["m", "a"]).tags ++ [.elem none "b", .elem none "c"] := happend.symm
    exact List.append_cancel_left htags
  rw [show values n nm = _ from hvalues hall]
  rfl

end Crosswalk
