import Crosswalk.Proofs.Iteration
import Crosswalk.Proofs.OpenScopes
import Crosswalk.Proofs.Origin

/-!
Scopes that several mappings share. The statements that a computation on the stack emits are those
of the scopes that it opens, in the order of its moves, and it opens them on top of what was open
before. So what is open around a node stays open for all that is emitted below it. A branch whose
nearest mappings draw on children of one path opens the scopes over that path before anything below
it does, and nothing below it opens them again.
-/

namespace Crosswalk

open Scopes

/-! ### Statements that open scopes -/

namespace Block

/-- The statements of a block that iterate or bind, at any depth, in the order of the text. -/
def scopeHeads : Block → List Opening
  | nil => []
  | simple _ rest => scopeHeads rest
  | nested o body rest => (if bindsScope o then [o] else []) ++ scopeHeads body ++ scopeHeads rest

@[simp] theorem scopeHeads_append (a b : Block) :
    (a ++ b).scopeHeads = a.scopeHeads ++ b.scopeHeads := by
  induction a with
  | nil => rfl
  | simple s rest ih => exact ih
  | nested o body rest _ ih =>
    rw [nested_append, scopeHeads, scopeHeads, ih, ← List.append_assoc]

theorem isEmpty_append (a b : Block) : (a ++ b).isEmpty = (a.isEmpty && b.isEmpty) := by
  cases a <;> rfl

@[simp] theorem scopeHeads_one (s : Simple) : (one s).scopeHeads = [] := rfl

@[simp] theorem scopeHeads_around (o : Opening) (body : Block) :
    (around o body).scopeHeads = (if bindsScope o then [o] else []) ++ body.scopeHeads :=
  List.append_nil _

end Block

namespace Emission

open Block

variable {g : Setting} {n : NumberedNode} {scopes : Scopes}

theorem bindsScope_head (f : Frame) : bindsScope f.head = true := by
  obtain ⟨op, var, source⟩ := f
  cases op <;> rfl

theorem scopeHeads_scope (f : Frame) (inside : Block) :
    (Block.scope f.operator f.var f.source inside).scopeHeads = f.head :: inside.scopeHeads := by
  rw [scope_eq_head, scopeHeads_around, if_pos (bindsScope_head f)]
  rfl

theorem scopeHeads_wrap (frames : List Frame) (inside : Block) :
    (wrap frames inside).scopeHeads = frames.map Frame.head ++ inside.scopeHeads := by
  induction frames with
  | nil => rfl
  | cons frame frames ih => exact (scopeHeads_scope ..).trans (congrArg (_ :: ·) ih)

theorem scopeHeads_marked (m : Mapping) (body : Block) :
    (marked m body).scopeHeads = body.scopeHeads := by
  rw [marked, scopeHeads_around]
  rfl

theorem scopeHeads_attributeBindings (nm : NumberedMapping) (var : String) :
    (attributeBindings g scopes n nm var).scopeHeads = [] := by
  simp only [attributeBindings]
  split
  · rfl
  · split <;> rfl

theorem scopeHeads_attributeLets {ms : List NumberedMapping} : ∀ {k : Nat},
    (attributeLets g scopes n k ms).scopeHeads = [] := by
  induction ms with
  | nil => intro k; rfl
  | cons nm ms ih =>
    intro k
    rw [attributeLets, scopeHeads_append, scopeHeads_marked, scopeHeads_attributeBindings, ih]
    rfl

theorem scopeHeads_argumentsOf {ns : List NumberedNode} :
    (argumentsOf g scopes ns).lets.scopeHeads = [] := by
  induction ns with
  | nil => rfl
  | cons a ns ih =>
    rw [lets_argumentsOf_cons, scopeHeads_append, ih, List.append_nil]
    cases hbinds : g.binds a with
    | true => exact scopeHeads_attributeLets
    | false => rfl

theorem scopeHeads_guarded (guards : List Expression) (inside : Block) :
    (Arguments.guarded guards inside).scopeHeads = inside.scopeHeads := by
  induction guards with
  | nil => rfl
  | cons e guards ih => exact (scopeHeads_around ..).trans ih

/-- An element is constructed in the scopes around it. -/
theorem scopeHeads_construct {ns : List NumberedNode} {tag : Tag} {value : Option Expression}
    {body : Block} :
    ((argumentsOf g scopes ns).construct tag value body).scopeHeads = body.scopeHeads := by
  rw [Arguments.construct, scopeHeads_append, scopeHeads_argumentsOf, scopeHeads_guarded,
    scopeHeads_around]
  rfl

theorem scopeHeads_code (snippet : Option Snippet) :
    (snippet.elim Block.nil fun s => .one (.code s.code)).scopeHeads = [] := by
  cases snippet <;> rfl

theorem scopeHeads_fallback (snippet : Option Snippet) : (fallback n snippet).scopeHeads = [] := by
  rw [fallback]
  split <;> rfl

/-! ### Moves and statements -/

/-- The statement that opens a scope. -/
def Move.head? : Move → Option Opening
  | .opening _ _ frame => some frame.head
  | .closing _ => none

/-- Whether the moves between two states open the scopes of some statements, in order, and all are
made on top of some scopes. -/
def Machine.Writes (outer : Scopes) (m m' : Machine) (heads : List Opening) : Prop :=
  ∃ made, m'.moves = made ++ m.moves ∧ made.reverse.filterMap Move.head? = heads ∧
    ∀ move ∈ made, outer <:+ move.before ∧ outer <:+ move.after

namespace Machine.Writes

variable {outer inner : Scopes} {m m' m'' : Machine} {hs hs' : List Opening}

theorem refl (m : Machine) : Writes outer m m [] := ⟨[], rfl, rfl, nofun⟩

theorem trans (h : Writes outer m m' hs) (h' : Writes outer m' m'' hs') :
    Writes outer m m'' (hs ++ hs') := by
  obtain ⟨made, hmoves, rfl, hmade⟩ := h
  obtain ⟨made', hmoves', rfl, hmade'⟩ := h'
  refine ⟨made' ++ made, ?_, ?_, List.forall_mem_append.mpr ⟨hmade', hmade⟩⟩
  · rw [hmoves', hmoves, List.append_assoc]
  · rw [List.reverse_append, List.filterMap_append]

theorem mono (h : Writes inner m m' hs) (hsuffix : outer <:+ inner) : Writes outer m m' hs := by
  obtain ⟨made, hmoves, hheads, hmade⟩ := h
  exact ⟨made, hmoves, hheads, fun move hmove =>
    (hmade move hmove).imp hsuffix.trans hsuffix.trans⟩

end Machine.Writes

namespace Stacked

variable {outer : Scopes} {m : Machine} {below : Forest NumberedNode} {x y : Stacked Block}
  {f k : Scopes → Block}

theorem writes_push (b : Binding) (frame : Frame) :
    m.Writes m.scopes (push b frame m).2 [frame.head] :=
  ⟨[_], rfl, rfl, List.forall_mem_singleton.mpr ⟨List.suffix_refl _, List.suffix_cons ..⟩⟩

theorem writes_openSteps {final : Operator} {depth : Nat} {ts : List Tag} :
    ∀ (bound : Path) (var : String) (m : Machine),
      m.Writes m.scopes (openSteps final depth bound var ts m).2
        ((openSteps final depth bound var ts m).1.1.map Frame.head) := by
  induction ts with
  | nil => exact fun _ _ m => .refl m
  | cons t ts ih =>
    intro bound var m
    let frame : Frame :=
      ⟨if (bound.child t).length = depth then final else .all, m.scopes.freshVar t, .nav var [t]⟩
    let b : Binding := ⟨.path (bound.child t), m.scopes.freshVar t⟩
    have hrest := ih (bound.child t) (m.scopes.freshVar t) (push b frame m).2
    exact (writes_push b frame).trans (hrest.mono (List.suffix_cons ..))

theorem suffix_openSteps {final : Operator} {depth : Nat} {ts : List Tag} :
    ∀ (bound : Path) (var : String) (m : Machine),
      m.scopes <:+ (openSteps final depth bound var ts m).2.scopes := by
  induction ts with
  | nil => exact fun _ _ _ => List.suffix_refl _
  | cons t ts ih =>
    intro bound var m
    let b : Binding := ⟨.path (bound.child t), m.scopes.freshVar t⟩
    exact (List.suffix_cons b m.scopes).trans (ih (bound.child t) b.var (push b _ m).2)

theorem writes_openJoin (op : Operator) (k : Nat) (parent : Path) (keys : List Tag) (var : String) :
    m.Writes m.scopes (openJoin op k parent keys var m).2
      ((openJoin op k parent keys var m).1.1.map Frame.head) := by
  rw [openJoin_eq]
  split
  · exact .refl m
  · exact writes_push ..

theorem writes_openInput (n : NumberedNode) (nm : NumberedMapping) (m : Machine) :
    m.Writes m.scopes (openInput n nm m).2 ((openInput n nm m).1.1.map Frame.head) := by
  rw [openInput]
  cases nm.join with
  | none => exact writes_openSteps ..
  | some k =>
    simp only [bind, pure, List.map_append]
    exact .trans (writes_openSteps ..) ((writes_openJoin ..).mono (suffix_openSteps ..))

theorem suffix_openInput (n : NumberedNode) (nm : NumberedMapping) (m : Machine) :
    m.scopes <:+ (openInput n nm m).2.scopes := by
  rw [(openInput_apply n nm m).2]
  have hdrop : (Emission.openInput m.scopes n nm).scopes.drop
      (Emission.openInput m.scopes n nm).frames.length = m.scopes := drop_openInput
  conv_lhs => rw [← hdrop]
  exact List.drop_suffix ..

/-- What is closed was opened on top of what stays open. -/
theorem writes_close : ∀ (frames : List Frame) (block : Block) (m : Machine),
    m.scopes.drop frames.length = outer → m.Writes outer (close frames block m).2 []
  | [], _, m, _ => .refl m
  | frame :: frames, block, m, h => by
    have htail : (pop m).2.scopes.drop frames.length = outer := h ▸ List.drop_tail
    have hpop : m.Writes outer (pop m).2 [] :=
      ⟨[_], rfl, rfl, List.forall_mem_singleton.mpr
        ⟨h ▸ List.drop_suffix .., htail ▸ List.drop_suffix ..⟩⟩
    exact hpop.trans (writes_close frames _ (pop m).2 htail)

/-- Whether what a computation emits has the statements of the scopes that it opens, in order, and
it opens all on top of what was open. -/
def Notes (x : Stacked Block) : Prop :=
  ∀ m : Machine, m.Writes m.scopes (x m).2 (x m).1.scopeHeads

namespace Notes

theorem const {b : Block} (hb : b.scopeHeads = []) : Notes (pure b) := fun m => by
  simp only [pure, hb]
  exact .refl m

theorem append (he : Emits x f) (hx : Notes x) (hy : Notes y) :
    Notes (do let a ← x; let b ← y; pure (a ++ b)) := fun m => by
  simp only [bind, pure, scopeHeads_append]
  refine (hx m).trans ?_
  have hrest := hy (x m).2
  rwa [he.scopes] at hrest

/-- What is put around a block opens no scope. -/
theorem map (hx : Notes x) (k : Block → Block) (hk : ∀ b, (k b).scopeHeads = b.scopeHeads) :
    Notes (do let b ← x; pure (k b)) := fun m => by
  simp only [bind, pure, hk]
  exact hx m

/-- A computation may follow one that moves no scope. -/
theorem after {α : Type} {x : Stacked α} {f : Scopes → α} {y : α → Stacked Block}
    (hx : Reads x f) (hy : ∀ s, Notes (y (f s))) : Notes (do let a ← x; y a) := fun m => by
  have hrest := hy m.scopes (x m).2
  rw [← hx.result, hx.scopes] at hrest
  obtain ⟨made, hmoves, hrest⟩ := hrest
  exact ⟨made, hx.moves m ▸ hmoves, hrest⟩

theorem joined {α : Type} {x : α → Stacked Block} {f : Scopes → α → Block} : ∀ {as : List α},
    (∀ a ∈ as, Emits (x a) fun s => f s a) → (∀ a ∈ as, Notes (x a)) →
      Notes (Stacked.joined (as.map x))
  | [], _, _ => const rfl
  | _ :: _, he, hx => by
    rw [List.forall_mem_cons] at he hx
    exact append he.1 hx.1 (joined he.2 hx.2)

end Notes

theorem notes_constructor {inner : Stacked Block} (hinner : Notes inner) (ns : List NumberedNode)
    (snippet : Option Snippet) (value : Expression) :
    Notes (constructor g n ns snippet value inner) := by
  refine .after (reads_argumentsOf ns) fun s => ?_
  cases n.leaf with
  | true =>
    cases snippet with
    | none => exact .const scopeHeads_construct
    | some code => exact .const (scopeHeads_construct.trans (scopeHeads_code (some code)))
  | false =>
    refine hinner.map (fun body => (Emission.argumentsOf g s ns).construct n.tag (choiceValue? n)
      (snippet.elim Block.nil (fun code => .one (.code code.code)) ++ body)) fun body => ?_
    rw [scopeHeads_construct, scopeHeads_append, scopeHeads_code, List.nil_append]

theorem notes_emit {inner : Stacked Block} (hinner : Notes inner) (ns : List NumberedNode)
    (nm : NumberedMapping) (value : Expression) : Notes (emit g n ns nm value inner) := by
  rw [emit]
  cases nm.table with
  | none => exact notes_constructor hinner ns _ value
  | some k =>
    exact .after (reads_consult nm k) fun _ => (notes_constructor hinner ns _ _).map
      (fun element => .simple _ (.around (.guarded _) element)) fun _ => scopeHeads_around ..

theorem notes_matched {ns : List NumberedNode} {nm : NumberedMapping} {inner : Stacked Block}
    (he : Emits inner f) (hinner : Notes inner) : Notes (matched g n ns nm inner) := fun m => by
  obtain ⟨hopened, hscopes⟩ := openInput_apply n nm m
  let opened := openInput n nm m
  let body := emit g n ns nm (.var opened.1.2) inner opened.2
  have hopen : m.Writes m.scopes opened.2 (opened.1.1.map Frame.head) := writes_openInput n nm m
  have hbody : opened.2.Writes m.scopes body.2 body.1.scopeHeads :=
    (notes_emit hinner ns nm _ opened.2).mono (suffix_openInput n nm m)
  have hdrop : body.2.scopes.drop opened.1.1.reverse.length = m.scopes := by
    rw [(emits_emit he ns nm _).scopes, hscopes, List.length_reverse, hopened]
    exact drop_openInput
  have hclose := writes_close opened.1.1.reverse body.1 body.2 hdrop
  have hblock : (matched g n ns nm inner m).1 = wrap opened.1.1 body.1 := by
    refine (close_apply ..).1.trans ?_
    rw [List.foldl_reverse]
    rfl
  rw [hblock, scopeHeads_wrap, ← List.append_nil (_ ++ _)]
  exact (hopen.trans hbody).trans hclose

theorem notes_mapping {ns : List NumberedNode} {nm : NumberedMapping} {inner : Stacked Block}
    (he : Emits inner f) (hinner : Notes inner) : Notes (mapping g n ns nm inner) := by
  have hfallback (b : Block) :
      (b ++ fallback n (g.snippetOf n nm.mapping)).scopeHeads = b.scopeHeads := by
    rw [scopeHeads_append, scopeHeads_fallback, List.append_nil]
  rw [mapping]
  cases nm.mapping.literal? with
  | some s => exact (notes_emit hinner ns nm (.literal s)).map _ hfallback
  | none => exact (notes_matched he hinner).map _ hfallback

theorem notes_branch {isRoot : Bool} {inner : Stacked Block} (he : Emits inner f)
    (hinner : Notes inner) : Notes (branch g isRoot n below inner) := by
  rw [branch]
  split
  · exact notes_mapping he hinner
  · refine .after (reads_argumentsOf below.tops) fun s => ?_
    refine hinner.map (fun body =>
      if (Emission.argumentsOf g s below.tops).values.isEmpty && body.isEmpty then .nil
      else (Emission.argumentsOf g s below.tops).construct n.tag none body) fun body => ?_
    split
    · next hempty =>
      cases body with
      | nil => rfl
      | _ => simp [Block.isEmpty] at hempty
    · exact scopeHeads_construct

theorem notes_node {isRoot : Bool} {inner : Stacked Block} (he : Emits inner f)
    (hinner : Notes inner) : Notes (node g isRoot n below inner) := by
  rw [node]
  split
  · exact .const rfl
  split
  · split
    · exact .after (reads_argumentsOf below.tops) fun _ => .const scopeHeads_construct
    · exact .const rfl
  split
  · exact .const rfl
  split
  · exact .joined (fun nm _ => (emits_mapping he).map (marked nm.mapping))
      fun nm _ => (notes_mapping he hinner).map (marked nm.mapping) (scopeHeads_marked _)
  · exact notes_branch he hinner

theorem notes_block : ∀ {f : Forest NumberedNode}, Notes (block g f)
  | .nil => .const rfl
  | .tree _ _ _ => .append (emits_node emits_block) (notes_node emits_block notes_block) notes_block

end Stacked

/-! ### What is bound stays bound -/

end Emission

theorem Path.parent?_eq_some_iff {p q : Path} : p.parent? = some q ↔ ∃ t, p = q.child t := by
  constructor
  · intro h
    rw [parent?] at h
    split at h
    · cases h
    · next hne =>
      obtain ⟨ts, t, hts⟩ :=
        (List.eq_nil_or_concat p.tags).resolve_left (by simpa [List.isEmpty_iff] using hne)
      rw [List.concat_eq_append] at hts
      rw [hts, List.dropLast_concat] at h
      obtain rfl := Option.some.inj h
      exact ⟨t, congrArg Path.mk hts⟩
  · rintro ⟨t, rfl⟩
    exact parent?_child q t

namespace Scopes

variable {scopes outer : Scopes} {p q : Path} {v : String}

/-- With a path all its ancestors of two tags and more are bound. -/
theorem WellOpened.exists_ancestor (h : scopes.WellOpened) (hp : ⟨.path p, v⟩ ∈ scopes)
    (hq : q.tags <+: p.tags) (hlong : 2 ≤ q.length) : ∃ w, ⟨.path q, w⟩ ∈ scopes := by
  obtain ⟨k, hk⟩ : ∃ k, p.length = q.length + k := Nat.exists_eq_add_of_le hq.length_le
  induction k generalizing p v with
  | zero =>
    obtain rfl : q = p := congrArg Path.mk (hq.eq_of_length hk.symm)
    exact ⟨v, hp⟩
  | succ k ih =>
    obtain ⟨inner, outer, rfl⟩ := List.append_of_mem hp
    obtain ⟨parent, w, hparent, hw⟩ := h.parents _ outer p (List.suffix_append ..) rfl (by omega)
    obtain ⟨t, rfl⟩ := Path.parent?_eq_some_iff.mp hparent
    rw [Path.length_child] at hk
    refine ih (List.mem_append_right _ (List.mem_cons_of_mem _ hw)) ?_ (by omega)
    have hparent : parent.tags <+: (parent.child t).tags := List.prefix_append ..
    refine List.prefix_of_prefix_length_le hq hparent ?_
    change q.length ≤ parent.length
    omega

/-- A path is bound to one variable. -/
theorem WellOpened.var_eq (h : scopes.WellOpened) {w : String} (hv : ⟨.path p, v⟩ ∈ scopes)
    (hw : ⟨.path p, w⟩ ∈ scopes) : v = w :=
  congrArg Binding.var (List.inj_on_of_nodup_map h.keys hv hw rfl)

end Scopes

namespace Emission

/-- Nothing that is opened where a path is bound is a scope over the path or an ancestor of it. -/
theorem Move.Sound.key_ne {outer : Scopes} {b : Binding} {frame : Frame} {p q : Path} {v : String}
    (h : (Move.opening outer b frame).Sound) (hp : ⟨.path p, v⟩ ∈ outer) (hq : q.tags <+: p.tags) :
    b.key ≠ .path q := by
  intro hkey
  have hlong : 2 ≤ q.length := h.after.long b List.mem_cons_self q hkey
  obtain ⟨w, hw⟩ := h.before.exists_ancestor hp hq hlong
  have hkeys := h.after.keys
  rw [Move.after, List.map_cons, List.nodup_cons, hkey] at hkeys
  exact hkeys.1 (List.mem_map.mpr ⟨_, hw, rfl⟩)

/-! ### Steps of navigation -/

/-- Whether some scopes, the first outermost, navigate by some tags in turn, each from the variable
of the scope around it, and so lead from a variable to another. -/
inductive Steps : String → List Tag → List Frame → String → Prop
  | nil {x : String} : Steps x [] [] x
  | cons {x y : String} {t : Tag} {ts : List Tag} {frame : Frame} {frames : List Frame}
      (hsource : frame.source = .nav x [t]) (h : Steps frame.var ts frames y) :
      Steps x (t :: ts) (frame :: frames) y

theorem steps_openSteps {final : Operator} {depth : Nat} {ts : List Tag} :
    ∀ {bound : Path} {var : String} {scopes : Scopes},
      Steps var ts (openSteps final depth bound var scopes ts).frames
        (openSteps final depth bound var scopes ts).var := by
  induction ts with
  | nil => exact .nil
  | cons t ts ih => exact .cons rfl ih

theorem Steps.frames_eq_nil {x y : String} {frames : List Frame} (h : Steps x [] frames y) :
    frames = [] ∧ y = x := by
  cases h
  exact ⟨rfl, rfl⟩

end Emission

/-- Whether a path is the deepest one that is open among another and its ancestors, with its
variable. The first tag is always open. -/
structure Scopes.Deepest (scopes : Scopes) (p bound : Path) (var : String) : Prop where
  ancestor : bound.tags <+: p.tags
  holds : scopes.Holds bound var
  deepest : ∀ b ∈ scopes, ∀ q, b.key = .path q → q.tags <+: p.tags → q.length ≤ bound.length

theorem Scopes.WellOpened.deepest_nearest {scopes : Scopes} (h : scopes.WellOpened) (p : Path) :
    scopes.Deepest p (scopes.nearest p).1 (scopes.nearest p).2 := by
  obtain ⟨-, happend, hdeepest⟩ := Emission.standsFor_nearest scopes p
  exact ⟨happend ▸ List.prefix_append .., (h.holds_nearest p).1, hdeepest⟩

/-- A bound path is the deepest one of its own. -/
theorem Scopes.Deepest.eq_of_mem {scopes : Scopes} {p bound : Path} {var v : String}
    (h : scopes.Deepest p bound var) (hp : ⟨.path p, v⟩ ∈ scopes) : bound = p :=
  congrArg Path.mk (h.ancestor.eq_of_length_le (h.deepest _ hp p rfl (List.prefix_refl _)))

/-! ### The nearest mappings -/

/-- The nearest mapped nodes of a forest: the mapped nodes with none above them. -/
def Forest.nearestMapped : Forest NumberedNode → List NumberedNode
  | nil => []
  | tree n below next =>
    (if n.hasMappings then [n] else nearestMapped below) ++ nearestMapped next

theorem Forest.nearestMapped_subset : ∀ f : Forest NumberedNode, f.nearestMapped ⊆ f.labels
  | nil => List.Subset.refl _
  | tree n below next => by
    refine List.append_subset.mpr ⟨?_, fun a ha =>
      List.mem_cons_of_mem _ (List.mem_append_right _ (nearestMapped_subset next ha))⟩
    split
    · exact List.cons_subset.mpr ⟨List.mem_cons_self, List.nil_subset _⟩
    · exact fun a ha =>
        List.mem_cons_of_mem _ (List.mem_append_left _ (nearestMapped_subset below ha))

theorem Forest.labels_subset_of_mem_subtrees {α : Type} {p : α × Forest α} : ∀ {f : Forest α},
    p ∈ f.subtrees → p.2.labels ⊆ f.labels
  | tree a below next, h, b, hb => by
    rcases List.mem_cons.mp h with rfl | h
    · exact mem_labels_of_mem_below hb
    rcases List.mem_append.mp h with h | h
    · exact mem_labels_of_mem_below (labels_subset_of_mem_subtrees h hb)
    · exact mem_labels_of_mem_next (labels_subset_of_mem_subtrees h hb)

/-- Whether the nearest mappings of a forest, constants apart, are some and draw on children of one
path of two tags or more. -/
structure Forest.DrawsFrom (f : Forest NumberedNode) (p : Path) : Prop where
  long : 2 ≤ p.length
  nonempty : ∃ a ∈ f.nearestMapped, ∃ m ∈ a.mappingList, m.isConstant = false
  all : ∀ a ∈ f.nearestMapped, ∀ m ∈ a.mappingList, m.isConstant = false → m.input.parent? = some p

namespace Emission

theorem mem_frontier_iff {input : Path} : ∀ {f : Forest NumberedNode}, input ∈ frontier f ↔
    ∃ a ∈ f.nearestMapped, ∃ m ∈ a.mappingList, m.isConstant = false ∧ m.input = input := by
  intro f
  induction f with
  | nil => simp [frontier, Forest.nearestMapped]
  | tree n below next hb hn =>
    rw [frontier, Forest.nearestMapped, List.mem_append, hn]
    simp only [List.mem_append, or_and_right, exists_or]
    refine or_congr ?_ Iff.rfl
    split
    · simp [and_assoc]
    · exact hb

/-- The common parent is the path that the nearest mappings draw from. -/
theorem commonParent?_eq_some_iff {f : Forest NumberedNode} {p : Path} :
    commonParent? f = some p ↔ f.DrawsFrom p := by
  have hdraws : f.DrawsFrom p ↔ 2 ≤ p.length ∧ (∃ input, input ∈ frontier f) ∧
      ∀ input ∈ frontier f, input.parent? = some p := by
    constructor
    · rintro ⟨hlong, ⟨a, ha, m, hm, hconstant⟩, hall⟩
      have hinput : m.input ∈ frontier f := mem_frontier_iff.mpr ⟨a, ha, m, hm, hconstant, rfl⟩
      refine ⟨hlong, ⟨m.input, hinput⟩, fun input h => ?_⟩
      obtain ⟨a, ha, m, hm, hconstant, rfl⟩ := mem_frontier_iff.mp h
      exact hall a ha m hm hconstant
    · rintro ⟨hlong, ⟨input, hinput⟩, hall⟩
      obtain ⟨a, ha, m, hm, hconstant, rfl⟩ := mem_frontier_iff.mp hinput
      exact ⟨hlong, ⟨a, ha, m, hm, hconstant⟩, fun a ha m hm hconstant =>
        hall _ (mem_frontier_iff.mpr ⟨a, ha, m, hm, hconstant, rfl⟩)⟩
  rw [hdraws, commonParent?]
  cases frontier f with
  | nil => simp
  | cons input others =>
    simp only [Option.filter_eq_some_iff, Bool.and_eq_true, decide_eq_true_eq, List.all_eq_true,
      beq_iff_eq, List.forall_mem_cons]
    constructor
    · rintro ⟨hinput, hlong, hothers⟩
      exact ⟨hlong, ⟨input, List.mem_cons_self⟩, hinput, hothers⟩
    · rintro ⟨hlong, -, hinput, hothers⟩
      exact ⟨hinput, hlong, hothers⟩

end Emission

open Emission

/-- Whether a node is an element with child elements that is neither mapped nor fixed. -/
structure Node.IsBranch (n : Node) : Prop where
  element : n.isAttribute = false
  branch : n.leaf = false
  unmapped : n.hasMappings = false
  free : n.fixedMembership? = none

/-- The constructor of a branch with its bindings, code of its own before what is below it. -/
def Emission.branchConstructor (g : Setting) (n : NumberedNode) (below : Forest NumberedNode)
    (scopes : Scopes) (inner : Block) : Block :=
  (argumentsOf g scopes below.tops).construct n.tag (choiceValue? n)
    (((g.snippets n.path).elim .nil fun s => .one (.code s.code)) ++ inner)

/-- Whether a branch that is emitted from a state shares the scopes over a path among all that is
below it: some frames open them, a variable is bound to the path, and the rest is emitted inside. -/
structure Emission.Shares (g : Setting) (n : NumberedNode) (below : Forest NumberedNode) (p : Path)
    (m : Machine) (frames : List Frame) (var : String) (inside : Machine) : Prop where
  /-- The scopes are those for the tags beyond the deepest open ancestor, one inside the other. -/
  opened : ∃ bound start, m.scopes.Deepest p bound start ∧
    Steps start (p.tags.drop bound.length) frames var
  /-- Nothing is opened where the path is bound. -/
  reused : ∀ v, ⟨.path p, v⟩ ∈ m.scopes → frames = [] ∧ var = v
  state : inside.Sound ∧ inside.scopes.drop frames.length = m.scopes ∧
    ⟨.path p, var⟩ ∈ inside.scopes
  /-- The scopes are around the bindings and the constructor, with the fallback after them. -/
  emitted : (Stacked.node g false n below (Stacked.block g below) m).1 =
    wrap frames (branchConstructor g n below inside.scopes (Stacked.block g below inside).1) ++
      fallback n (g.snippets n.path)
  /-- The statements inside that open scopes are those of moves on top of the scopes around, and
  none of these opens the path or an ancestor of it. -/
  once : ∃ made, (Stacked.block g below inside).2.moves = made ++ inside.moves ∧
    (branchConstructor g n below inside.scopes (Stacked.block g below inside).1).scopeHeads =
      made.reverse.filterMap Move.head? ∧
    ∀ move ∈ made, inside.scopes <:+ move.before ∧ inside.scopes <:+ move.after ∧
      ∀ outer b frame, move = .opening outer b frame → ∀ q, q.tags <+: p.tags → b.key ≠ .path q
  /-- In every state on top of the scopes around, a nearest mapping without siblings opens at most
  one scope, for the last tag of its input. -/
  single : ∀ m' : Machine, m'.Sound → inside.scopes <:+ m'.scopes → ∀ a ∈ below.nearestMapped,
    ∀ nm ∈ a.numbered, nm.mapping.isConstant = false → nm.mapping.siblings = [] →
      ∃ t, nm.mapping.input = p.child t ∧ ((Stacked.openInput a nm m').1.1 = [] ∨
        ∃ frame, (Stacked.openInput a nm m').1.1 = [frame] ∧ frame.source = .nav var [t])

namespace Emission

variable {g : Setting} {n : NumberedNode} {below : Forest NumberedNode} {m : Machine} {p : Path}
  {var : String}

theorem isEmpty_construct {args : Arguments} {tag : Tag} {value : Option Expression}
    {body : Block} : (args.construct tag value body).isEmpty = false := by
  rw [Arguments.construct, Block.isEmpty_append]
  cases args.guards <;> exact Bool.and_false _

theorem isEmpty_wrap {frames : List Frame} {inside : Block} (h : inside.isEmpty = false) :
    (wrap frames inside).isEmpty = false := by
  cases frames with
  | nil => exact h
  | cons f frames =>
    change (Block.scope f.operator f.var f.source (wrap frames inside)).isEmpty = false
    rw [scope_eq_head]
    rfl

/-- A branch that shares scopes is emitted. -/
theorem Shares.isEmpty_eq_false {frames : List Frame} {inside : Machine}
    (h : Shares g n below p m frames var inside) :
    (Stacked.node g false n below (Stacked.block g below) m).1.isEmpty = false := by
  rw [h.emitted, Block.isEmpty_append, branchConstructor, isEmpty_wrap isEmpty_construct,
    Bool.false_and]

/-- Where the parent of its input is bound, a mapping without siblings opens one scope or none. -/
theorem frames_openInput {t : Tag} {nm : NumberedMapping} (hjoin : nm.join = none)
    (hinput : nm.mapping.input = p.child t) (h : m.Sound) (hp : ⟨.path p, var⟩ ∈ m.scopes) :
    (Stacked.openInput n nm m).1.1 = [] ∨
      ∃ frame, (Stacked.openInput n nm m).1.1 = [frame] ∧ frame.source = .nav var [t] := by
  have hdeepest := h.scopes.deepest_nearest (p.child t)
  have hlong : p.length ≤ (m.scopes.nearest (p.child t)).1.length :=
    hdeepest.deepest _ hp p rfl (List.prefix_append ..)
  have hframes : (Stacked.openInput n nm m).1.1 =
      (Emission.openSteps (operatorOf n nm.mapping) (p.child t).length
        (m.scopes.nearest (p.child t)).1 (m.scopes.nearest (p.child t)).2 m.scopes
        ((p.child t).tags.drop (m.scopes.nearest (p.child t)).1.length)).frames := by
    rw [(Stacked.openInput_apply n nm m).1, Emission.openInput, hjoin, hinput]
    rfl
  rcases List.prefix_concat_iff.mp hdeepest.ancestor with hall | hpart
  · left
    have hnil : (p.child t).tags.drop (m.scopes.nearest (p.child t)).1.length = [] := by
      rw [Path.length, hall, Path.tags_child, List.drop_length]
    rw [hframes, hnil]
    rfl
  · right
    have hbound : (m.scopes.nearest (p.child t)).1 = p :=
      congrArg Path.mk (hpart.eq_of_length_le hlong)
    have hlast : (p.child t).tags.drop p.length = [t] := List.drop_left
    have hholds := hdeepest.holds
    have hvar : (m.scopes.nearest (p.child t)).2 = var := by
      rw [hbound, Holds, if_neg] at hholds
      · exact h.scopes.var_eq hholds hp
      · have := h.scopes.long _ hp p rfl
        omega
    rw [hframes, hbound, hlast, hvar]
    exact ⟨_, rfl, rfl⟩

theorem isPopulated_of_drawsFrom (h : below.DrawsFrom p) : isPopulated n below = true := by
  obtain ⟨a, ha, m, hm, -⟩ := h.nonempty
  have hmapped : a.hasMappings = true := by
    rw [Node.mappingList, SortedMap.values] at hm
    obtain ⟨entry, hentry, -⟩ := List.mem_map.mp hm
    simpa [Node.hasMappings, SortedMap.isEmpty] using List.ne_nil_of_mem hentry
  rw [isPopulated, Bool.or_eq_true, Forest.any_iff]
  exact .inr ⟨a, below.nearestMapped_subset ha, hmapped⟩

/-- Within the scopes over the path that the nearest mappings draw from, a branch is constructed. -/
theorem nodeBlock_of_drawsFrom {scopes : Scopes} {inner : Scopes → Block} (hn : n.IsBranch)
    (hfocus : g.inFocus n.path = true) (h : below.DrawsFrom p) :
    let o := openInput scopes n { mapping := { output := n.path, input := p } }
    nodeBlock g false scopes n below inner =
      wrap o.frames (branchConstructor g n below o.scopes (inner o.scopes)) ++
        fallback n (g.snippets n.path) := by
  have hparent := commonParent?_eq_some_iff.mpr h
  simp only [nodeBlock, hn.element, hfocus, hn.free, isPopulated_of_drawsFrom h, hn.unmapped,
    branch, hn.branch, hparent]
  simp [mappingBlock, Mapping.literal?, emit, constructor, hn.branch, branchConstructor,
    Setting.snippetOf]

/-- Where the nearest mappings draw from no one path, a branch opens no scope. -/
theorem nodeBlock_of_not_drawsFrom {scopes : Scopes} {inner : Scopes → Block} (hn : n.IsBranch)
    (h : ∀ p, ¬below.DrawsFrom p) :
    nodeBlock g false scopes n below inner = .nil ∨ nodeBlock g false scopes n below inner =
      (argumentsOf g scopes below.tops).construct n.tag none (inner scopes) := by
  have hparent : commonParent? below = none :=
    Option.eq_none_iff_forall_ne_some.mpr fun p hp => h p (commonParent?_eq_some_iff.mp hp)
  simp only [nodeBlock, hn.element, hn.free, hn.unmapped, branch, hn.branch, hparent]
  cases g.inFocus n.path with
  | false => exact .inl rfl
  | true =>
    cases isPopulated n below with
    | false => exact .inl rfl
    | true =>
      cases (argumentsOf g scopes below.tops).values.isEmpty && (inner scopes).isEmpty with
      | true => exact .inl rfl
      | false => exact .inr rfl

theorem shares_of_drawsFrom {t : MappingTree} (hp : (n, below) ∈ t.numbered.subtrees)
    (hn : n.IsBranch) (hfocus : g.inFocus n.path = true) (h : below.DrawsFrom p) (hm : m.Sound) :
    ∃ frames var inside, Shares g n below p m frames var inside := by
  let nm : NumberedMapping := { mapping := { output := n.path, input := p } }
  obtain ⟨hopened, hscopes⟩ := Stacked.openInput_apply n nm m
  obtain ⟨hinside, hholds⟩ := Stacked.sound_openPath hm (operatorOf n nm.mapping) p.length p
  have hbound :
      ⟨.path p, (Stacked.openInput n nm m).1.2⟩ ∈ (Stacked.openInput n nm m).2.scopes := by
    have hlong := h.long
    rwa [Holds, if_neg (by omega)] at hholds
  have hdeepest := hm.scopes.deepest_nearest p
  have hsteps : Steps (m.scopes.nearest p).2 (p.tags.drop (m.scopes.nearest p).1.length)
      (Stacked.openInput n nm m).1.1 (Stacked.openInput n nm m).1.2 := by
    rw [hopened]
    exact steps_openSteps
  have hinner : Stacked.Emits (Stacked.block g below) (blockOf g below) := Stacked.emits_block
  refine ⟨(Stacked.openInput n nm m).1.1, (Stacked.openInput n nm m).1.2,
    (Stacked.openInput n nm m).2, ⟨_, _, hdeepest, hsteps⟩, fun v hv => ?_,
    ⟨hinside, ?_, hbound⟩, ?_, ?_, fun m' hm' hsuffix a ha nm' hnm' hconstant hsiblings => ?_⟩
  · have hall := hdeepest.eq_of_mem hv
    rw [hall, Path.length, List.drop_length] at hsteps
    obtain ⟨hframes, hvar⟩ := hsteps.frames_eq_nil
    have hlong := h.long
    have hstart := hdeepest.holds
    rw [hall, Holds, if_neg (by omega)] at hstart
    exact ⟨hframes, hvar.trans (hm.scopes.var_eq hstart hv)⟩
  · rw [hopened, hscopes]
    exact Stacked.drop_openInput
  · rw [(Stacked.emits_node hinner).result, nodeBlock_of_drawsFrom hn hfocus h, hopened,
      hinner.result, hscopes]
  · obtain ⟨made, hmoves, hheads, hmade⟩ := Stacked.notes_block (g := g) (f := below)
      (Stacked.openInput n nm m).2
    refine ⟨made, hmoves, ?_, fun move hmove => ⟨(hmade move hmove).1, (hmade move hmove).2, ?_⟩⟩
    · rw [branchConstructor, scopeHeads_construct, Block.scopeHeads_append, scopeHeads_code, hheads]
      rfl
    · rintro outer b frame rfl q hq
      have hsound : (Move.opening outer b frame).Sound :=
        (hinner.sound _ hinside).moves _ (hmoves ▸ List.mem_append_left _ hmove)
      exact hsound.key_ne ((hmade _ hmove).1.subset hbound) hq
  · have hlabel : a ∈ t.numbered.labels :=
      Forest.labels_subset_of_mem_subtrees hp (below.nearestMapped_subset ha)
    have hmapping : nm'.mapping ∈ a.mappingList := by
      obtain ⟨n', -, i, j, rfl⟩ := Numbering.mem_labels_number hlabel
      exact Numbering.mapping_mem_of_mem_numbered hnm'
    have hjoin : nm'.join = none :=
      MappingTree.Draws.join_eq_none (t := t) (.inl ⟨hlabel, hnm'⟩) hsiblings
    obtain ⟨tag, hinput⟩ := Path.parent?_eq_some_iff.mp (h.all a ha _ hmapping hconstant)
    exact ⟨tag, hinput, frames_openInput hjoin hinput hm' (hsuffix.subset hbound)⟩

end Emission

/-- A branch that is neither mapped nor fixed emits nothing out of focus. In focus, if the nearest
mappings below it draw on children of one path, it opens the scopes over that path that are not open
yet and is constructed within them, and none is opened again for what is below it. In every other
case it opens no scope. -/
theorem MappingTree.shares_branch (t : MappingTree) (g : Setting) {n : NumberedNode}
    {below : Forest NumberedNode} (hp : (n, below) ∈ t.numbered.subtrees) (hn : n.IsBranch)
    {m : Machine} (hm : m.Sound) :
    let emitted := (Stacked.node g false n below (Stacked.block g below) m).1
    (g.inFocus n.path = false → emitted = .nil) ∧
      (g.inFocus n.path = true → ∀ p, below.DrawsFrom p →
        ∃ frames var inside, Shares g n below p m frames var inside) ∧
      ((∀ p, ¬below.DrawsFrom p) → emitted = .nil ∨ emitted =
        (argumentsOf g m.scopes below.tops).construct n.tag none (Stacked.block g below m).1) := by
  have hinner : Stacked.Emits (Stacked.block g below) (blockOf g below) := Stacked.emits_block
  intro emitted
  have hemitted : emitted = nodeBlock g false m.scopes n below (blockOf g below) :=
    (Stacked.emits_node hinner).result m
  refine ⟨fun hfocus => ?_, fun hfocus p h => shares_of_drawsFrom hp hn hfocus h hm, fun h => ?_⟩
  · rw [hemitted, nodeBlock, hfocus, Bool.not_false, Bool.or_true]
    rfl
  · rw [hemitted, hinner.result]
    exact nodeBlock_of_not_drawsFrom hn h

/-- A record with a title and an author that has a name and a mail address. -/
def articleRecord : Record where
  qualifier := ""
  version := ""
  namespaces := []
  root := { tag := .elem none "article" }
  below := .tree { tag := .elem none "title" } .nil
    (.single { tag := .elem none "author" }
      (.tree { tag := .elem none "name" } .nil (.single { tag := .elem none "mail" } .nil)))
  fieldMarkers := []
  assertions := []

/-- Mappings of the title, and of the name and the mail address from children of one element. -/
def articleEdits : List Edit :=
  [.attach { output := .ofNames ["article", "title"], input := .ofNames ["m", "t"] },
    .attach
      { output := .ofNames ["article", "author", "name"], input := .ofNames ["m", "a", "n"] },
    .attach
      { output := .ofNames ["article", "author", "mail"], input := .ofNames ["m", "a", "e"] }]

/-- The author shares one scope for its name and its mail address. -/
theorem articleRecord_shares :
    let t := (MappingTree.ofRecord articleRecord).afterEdits articleEdits
    let p : Path := .ofNames ["m", "a"]
    ∃ a ∈ t.numbered.subtrees, a.1.IsBranch ∧ a.2.DrawsFrom p ∧
      ∃ frames var inside, Shares ⟨fun _ => none, none⟩ a.1 a.2 p {} frames var inside := by
  intro t p
  let a := t.numbered.subtrees.get ⟨2, by decide +kernel⟩
  have ha : a ∈ t.numbered.subtrees := List.get_mem ..
  have hbranch : a.1.IsBranch :=
    ⟨by decide +kernel, by decide +kernel, by decide +kernel, by decide +kernel⟩
  have hdraws : a.2.DrawsFrom p := commonParent?_eq_some_iff.mp (by decide +kernel)
  exact ⟨a, ha, hbranch, hdraws,
    (t.shares_branch ⟨fun _ => none, none⟩ ha hbranch .start).2.1 rfl p hdraws⟩

/-- With the title in focus nothing is emitted for the author. -/
theorem articleRecord_unshared :
    let t := (MappingTree.ofRecord articleRecord).afterEdits articleEdits
    let p : Path := .ofNames ["m", "a"]
    let f : Focus := ⟨.ofNames ["article", "title"], .ofNames ["m", "t"]⟩
    t.has f = true ∧ ∃ a ∈ t.numbered.subtrees, a.1.IsBranch ∧ a.2.DrawsFrom p ∧
      ¬∃ frames var inside, Shares ⟨fun _ => none, some f⟩ a.1 a.2 p {} frames var inside := by
  intro t p f
  let a := t.numbered.subtrees.get ⟨2, by decide +kernel⟩
  have ha : a ∈ t.numbered.subtrees := List.get_mem ..
  have hbranch : a.1.IsBranch :=
    ⟨by decide +kernel, by decide +kernel, by decide +kernel, by decide +kernel⟩
  have hdraws : a.2.DrawsFrom p := commonParent?_eq_some_iff.mp (by decide +kernel)
  refine ⟨by decide +kernel, a, ha, hbranch, hdraws, ?_⟩
  rintro ⟨frames, var, inside, hshares⟩
  have hnone : (Stacked.node ⟨fun _ => none, some f⟩ false a.1 a.2
      (Stacked.block ⟨fun _ => none, some f⟩ a.2) {}).1.isEmpty = true := by decide +kernel
  exact Bool.false_ne_true (hshares.isEmpty_eq_false.symm.trans hnone)

end Crosswalk
