import Crosswalk.Proofs.Document
import Crosswalk.Proofs.SharedScopes

/-!
Joined inputs. A mapping of an element that has siblings draws on a join: the children of one path
that have the last tags of its inputs for names, as one collection. The join is a scope over the
parent of the inputs like that of a path, and one that is open is used again. Every open scope was
opened by a statement around, so the variable of a join is that of a statement which joins; and what
is emitted within gives no other thing the name of the join. The mappings of attributes are not
joined.
-/

namespace Crosswalk

open Scopes

/-! ### Paths of the inputs -/

theorem Path.last?_child (p : Path) (t : Tag) : (p.child t).last? = some t := by
  simp [Path.last?]

/-- Children of one path are found again from their last tags. -/
theorem Path.map_child_last? {q : Path} : ∀ {ps : List Path}, (∀ p ∈ ps, p.parent? = some q) →
    (ps.filterMap Path.last?).map q.child = ps
  | [], _ => rfl
  | p :: ps, h => by
    rw [List.forall_mem_cons] at h
    obtain ⟨t, rfl⟩ := Path.parent?_eq_some_iff.mp h.1
    rw [List.filterMap_cons_some (Path.last?_child q t), List.map_cons, Path.map_child_last? h.2]

namespace Emission

/-- The last tags of the inputs that a mapping joins. -/
def joinedKeys (nm : NumberedMapping) : List Tag := nm.mapping.inputs.filterMap Path.last?

/-- The inputs that a mapping joins are the children of their parent that have the keys for names.
-/
theorem map_child_joinedKeys {nm : NumberedMapping} (hne : nm.mapping.input.tags ≠ [])
    (hakin : ∀ p ∈ nm.mapping.inputs, p.parent? = nm.mapping.input.parent?) :
    (joinedKeys nm).map (joinedParent nm).child = nm.mapping.inputs := by
  obtain ⟨q, hq⟩ : ∃ q, nm.mapping.input.parent? = some q := by
    rw [Path.parent?, if_neg (by simpa [List.isEmpty_iff] using hne)]
    exact ⟨_, rfl⟩
  rw [joinedParent, hq, Option.getD_some]
  exact Path.map_child_last? fun p hp => (hakin p hp).trans hq

/-! ### What opened a scope -/

/-- Every open scope was opened on top of those below it. -/
theorem Leads.opened {moves : List Move} {scopes outer : Scopes} {b : Binding}
    (h : Leads moves scopes) (hb : b :: outer <:+ scopes) :
    ∃ frame, .opening outer b frame ∈ moves := by
  -- Only the last move can have opened the top; what is below it was opened before.
  induction h with
  | start => cases List.suffix_nil.mp hb
  | @move moves move _ ih =>
    cases move with
    | opening below b' frame =>
      rcases List.suffix_cons_iff.mp hb with heq | hb
      · obtain ⟨rfl, rfl⟩ := List.cons.inj heq
        exact ⟨frame, List.mem_cons_self⟩
      · obtain ⟨frame', hframe⟩ := ih hb
        exact ⟨frame', List.mem_cons_of_mem _ hframe⟩
    | closing scopes =>
      obtain ⟨frame, hframe⟩ := ih (hb.trans (List.tail_suffix scopes))
      exact ⟨frame, List.mem_cons_of_mem _ hframe⟩

/-- Whether a variable is that of an open scope, opened by a statement that joins some keys from the
variable of the path whose children they name. -/
def Machine.Joins (m : Machine) (parent : Path) (keys : List Tag) (var : String) : Prop :=
  ∃ (outer : Scopes) (operator : Operator) (base : String),
    ⟨.join parent keys, var⟩ :: outer <:+ m.scopes ∧
    .opening outer ⟨.join parent keys, var⟩ ⟨operator, var, .mapJoin base keys⟩ ∈ m.moves ∧
    outer.Holds parent base

theorem Machine.Sound.joins {m : Machine} (h : m.Sound) {parent : Path} {keys : List Tag}
    {var : String} (hvar : ⟨.join parent keys, var⟩ ∈ m.scopes) : m.Joins parent keys var := by
  obtain ⟨inner, outer, hscopes⟩ := List.append_of_mem hvar
  have hsuffix : ⟨.join parent keys, var⟩ :: outer <:+ m.scopes := hscopes ▸ List.suffix_append ..
  obtain ⟨⟨operator, x, source⟩, hmove⟩ := h.leads.opened hsuffix
  obtain ⟨hx, hbinds⟩ := (h.moves _ hmove).binds _ _ _ rfl
  obtain rfl : x = var := hx
  have hbinds : Scopes.Binds outer (.join parent keys) source := hbinds
  cases hbinds with
  | join hbase => exact ⟨outer, operator, _, hsuffix, hmove, hbase⟩

end Emission

namespace Scopes

variable {scopes outer : Scopes} {p : Path} {x : String}

theorem Holds.mono (h : outer.Holds p x) (hsub : outer ⊆ scopes) : scopes.Holds p x := by
  by_cases hlong : p.length ≤ 1
  · rwa [Holds, if_pos hlong] at h ⊢
  · rw [Holds, if_neg hlong] at h ⊢
    exact hsub h

theorem WellOpened.joinVar?_eq_some_iff (h : scopes.WellOpened) {parent : Path} {keys : List Tag} :
    scopes.joinVar? parent keys = some x ↔ ⟨.join parent keys, x⟩ ∈ scopes := by
  rw [joinVar?, Option.map_eq_some_iff]
  constructor
  · rintro ⟨⟨key, var⟩, hfound, rfl⟩
    obtain rfl : key = .join parent keys := by simpa using List.find?_some hfound
    exact List.mem_of_find?_eq_some hfound
  · intro hx
    obtain ⟨b, hfound⟩ : ∃ b, scopes.find? (fun b => b.key == .join parent keys) = some b :=
      Option.isSome_iff_exists.mp (List.find?_isSome.mpr ⟨_, hx, beq_self_eq_true _⟩)
    have hkey : b.key = .join parent keys := by simpa using List.find?_some hfound
    have hb := List.inj_on_of_nodup_map h.keys (List.mem_of_find?_eq_some hfound) hx hkey
    exact ⟨b, hfound, congrArg Binding.var hb⟩

/-- Nothing is left to open to a path that a variable stands for. -/
theorem WellOpened.drop_nearest (h : scopes.WellOpened) (hp : scopes.Holds p x) :
    p.tags.drop (scopes.nearest p).1.length = [] := by
  rw [List.drop_eq_nil_iff]
  by_cases hlong : p.length ≤ 1
  · by_cases hne : p.tags = []
    · rw [hne]
      exact Nat.zero_le _
    · exact Nat.le_trans hlong ((h.holds_nearest p).2 hne)
  · rw [Holds, if_neg hlong] at hp
    exact (h.deepest_nearest p).deepest _ hp p rfl (List.prefix_refl _)

end Scopes

namespace Emission

variable {g : Setting} {n : NumberedNode} {below : Forest NumberedNode} {nm : NumberedMapping}
  {m : Machine} {k : Nat}

/-! ### The scopes of a join -/

/-- Whether a mapping that is emitted from a state draws on the join of its inputs: some frames open
its scopes, a variable is that of the join, and the value is drawn from it inside. -/
structure Combines (g : Setting) (n : NumberedNode) (below : Forest NumberedNode)
    (nm : NumberedMapping) (m : Machine) (frames : List Frame) (var : String) (inside : Machine) :
    Prop where
  state : inside.Sound ∧ inside.scopes.drop frames.length = m.scopes
  /-- The variable is that of a statement around that joins the last tags of the inputs. -/
  joined : inside.Joins (joinedParent nm) (joinedKeys nm) var
  /-- A join that is open is used again, and nothing is opened. -/
  reused : ∀ v, ⟨.join (joinedParent nm) (joinedKeys nm), v⟩ ∈ m.scopes → frames = [] ∧ var = v
  /-- Otherwise it is opened within the scopes for the tags of the parent that are not open yet. -/
  opened : (∀ v, ⟨.join (joinedParent nm) (joinedKeys nm), v⟩ ∉ m.scopes) →
    ∃ steps bound start base,
      frames = steps ++ [⟨operatorOf n nm.mapping, var, .mapJoin base (joinedKeys nm)⟩] ∧
        m.scopes.Deepest (joinedParent nm) bound start ∧
        Steps start ((joinedParent nm).tags.drop bound.length) steps base
  /-- The value that is emitted inside is the variable's, with the fallback after it. -/
  emitted : (Stacked.mapping g n below.tops nm (Stacked.block g below) m).1 =
    wrap frames (emit g inside.scopes n below.tops nm (.var var) (blockOf g below)) ++
      fallback n (g.snippetOf n nm.mapping)

/-- The scopes that are opened to the parent of joined inputs, and the variable that has it. -/
def Stacked.openParent (n : NumberedNode) (nm : NumberedMapping) :
    Stacked (List Frame × String) :=
  openPath (operatorOf n nm.mapping) nm.mapping.input.length (joinedParent nm)

theorem joinVar?_openParent :
    (Stacked.openParent n nm m).2.scopes.joinVar? (joinedParent nm) (joinedKeys nm) =
      m.scopes.joinVar? (joinedParent nm) (joinedKeys nm) := by
  rw [Stacked.openParent, (Stacked.openPath_apply ..).2]
  exact joinVar?_openSteps

theorem steps_openParent :
    Steps (m.scopes.nearest (joinedParent nm)).2
      ((joinedParent nm).tags.drop (m.scopes.nearest (joinedParent nm)).1.length)
      (Stacked.openParent n nm m).1.1 (Stacked.openParent n nm m).1.2 := by
  rw [Stacked.openParent, (Stacked.openPath_apply ..).1]
  exact steps_openSteps

/-- The join of a mapping is opened within the scopes to the parent, unless it is open. -/
theorem openInput_of_join (hjoin : nm.join = some k) : Stacked.openInput n nm m =
    match m.scopes.joinVar? (joinedParent nm) (joinedKeys nm) with
    | some v => (((Stacked.openParent n nm m).1.1, v), (Stacked.openParent n nm m).2)
    | none =>
      let frame : Frame := ⟨operatorOf n nm.mapping, joinVar k,
        .mapJoin (Stacked.openParent n nm m).1.2 (joinedKeys nm)⟩
      (((Stacked.openParent n nm m).1.1 ++ [frame], joinVar k),
        (Stacked.push ⟨.join (joinedParent nm) (joinedKeys nm), joinVar k⟩ frame
          (Stacked.openParent n nm m).2).2) := by
  have hopen : Stacked.openInput n nm m = (do
      let opened ← Stacked.openParent n nm
      let joined ← Stacked.openJoin (operatorOf n nm.mapping) k (joinedParent nm) (joinedKeys nm)
        opened.2
      pure (opened.1 ++ joined.1, joined.2) : Stacked _) m := by
    rw [Stacked.openInput, hjoin]
    rfl
  rw [hopen]
  simp only [bind, pure, Stacked.openJoin_eq, joinVar?_openParent]
  cases m.scopes.joinVar? (joinedParent nm) (joinedKeys nm) with
  | some v => exact congrArg (fun frames => ((frames, v), _)) (List.append_nil _)
  | none => rfl

/-- Where the join is open nothing is opened. -/
theorem openInput_reused (hjoin : nm.join = some k) (h : m.Sound) {v : String}
    (hv : ⟨.join (joinedParent nm) (joinedKeys nm), v⟩ ∈ m.scopes) :
    (Stacked.openInput n nm m).1 = ([], v) := by
  -- The join stands within the scope of its parent, so no step to the parent is left.
  obtain ⟨outer, -, base, hsuffix, -, hbase⟩ := h.joins hv
  have hdrop : (joinedParent nm).tags.drop (m.scopes.nearest (joinedParent nm)).1.length = [] :=
    h.scopes.drop_nearest (hbase.mono fun b hb => hsuffix.subset (List.mem_cons_of_mem _ hb))
  have hsteps := @steps_openParent n nm m
  rw [hdrop] at hsteps
  rw [openInput_of_join hjoin, h.scopes.joinVar?_eq_some_iff.mpr hv, hsteps.frames_eq_nil.1]

/-- Where the join is not open it is opened after the scopes to the parent. -/
theorem openInput_opened (hjoin : nm.join = some k) (h : m.Sound)
    (hnew : ∀ v, ⟨.join (joinedParent nm) (joinedKeys nm), v⟩ ∉ m.scopes) :
    (Stacked.openInput n nm m).1 = ((Stacked.openParent n nm m).1.1 ++
      [⟨operatorOf n nm.mapping, joinVar k,
        .mapJoin (Stacked.openParent n nm m).1.2 (joinedKeys nm)⟩], joinVar k) := by
  have hnone : m.scopes.joinVar? (joinedParent nm) (joinedKeys nm) = none :=
    Option.eq_none_iff_forall_ne_some.mpr fun v hv =>
      hnew v (h.scopes.joinVar?_eq_some_iff.mp hv)
  rw [openInput_of_join hjoin, hnone]

/-- The variable of the inputs is that of their join. -/
theorem mem_scopes_openInput (hjoin : nm.join = some k) (h : m.Sound) :
    ⟨.join (joinedParent nm) (joinedKeys nm), (Stacked.openInput n nm m).1.2⟩ ∈
      (Stacked.openInput n nm m).2.scopes := by
  have hparent : (Stacked.openParent n nm m).2.Sound := (Stacked.sound_openPath h ..).1
  rw [openInput_of_join hjoin]
  cases hopen : m.scopes.joinVar? (joinedParent nm) (joinedKeys nm) with
  | some v => exact hparent.scopes.joinVar?_eq_some_iff.mp (joinVar?_openParent.trans hopen)
  | none => exact List.mem_cons_self

theorem combines_openInput (hjoin : nm.join = some k) (hliteral : nm.mapping.literal? = none)
    (h : m.Sound) :
    Combines g n below nm m (Stacked.openInput n nm m).1.1 (Stacked.openInput n nm m).1.2
      (Stacked.openInput n nm m).2 where
  state := by
    obtain ⟨hopened, hscopes⟩ := Stacked.openInput_apply n nm m
    refine ⟨Stacked.sound_openInput h, ?_⟩
    rw [hopened, hscopes]
    exact Stacked.drop_openInput
  joined := (Stacked.sound_openInput h).joins (mem_scopes_openInput hjoin h)
  reused v hv := by
    rw [openInput_reused hjoin h hv]
    exact ⟨rfl, rfl⟩
  opened hnew := by
    rw [openInput_opened hjoin h hnew]
    exact ⟨_, _, _, _, rfl, h.scopes.deepest_nearest _, steps_openParent⟩
  emitted := by
    obtain ⟨hopened, hscopes⟩ := Stacked.openInput_apply n nm m
    have hinner : Stacked.Emits (Stacked.block g below) (blockOf g below) := Stacked.emits_block
    rw [(Stacked.emits_mapping hinner).result, mappingBlock, hliteral, hopened, hscopes]

theorem isSome_join_of_mem {t : MappingTree} (hp : (n, below) ∈ t.numbered.subtrees)
    (hnm : nm ∈ n.numbered) : nm.join.isSome = Numbering.joins n.toNode nm.mapping := by
  obtain ⟨n', -, i, j, rfl⟩ := Numbering.mem_labels_number (Forest.mem_labels_of_mem_subtrees hp)
  exact Numbering.isSome_join hnm

end Emission

/-! ### Names of joins -/

/-- Whether a name is that of a join around. -/
def Context.IsJoin (c : Context) (x : String) : Prop :=
  ∃ o ∈ c.around, o.isJoin = true ∧ o.binder? = some x

/-- Whether no name that is bound or defined within a join is the join's. -/
def Block.KeepsJoins (b : Block) : Prop :=
  b.Meets
    { simple := fun c s => ∀ x ∈ s.definitions, ¬c.IsJoin x
      opening := fun c o => ∀ x ∈ o.binder?.toList ++ o.definitions [], ¬c.IsJoin x } {}

/-- What a judgment says of each statement holds of all statements around. -/
theorem Block.Meets.around {J : Judgment} {P : Opening → Prop} (hP : ∀ c o, J.opening c o → P o) :
    ∀ {b : Block} {c : Context}, b.Meets J c → (∀ o ∈ c.around, P o) →
      b.Meets ⟨fun c s => J.simple c s ∧ ∀ o ∈ c.around, P o,
        fun c o => J.opening c o ∧ ∀ o' ∈ c.around, P o'⟩ c
  | .nil, _, _, _ => trivial
  | .simple .., _, h, hc => ⟨⟨h.1, hc⟩, h.2.around hP hc⟩
  | .nested .., c, h, hc =>
    ⟨⟨h.1, hc⟩, h.2.1.around hP (List.forall_mem_cons.mpr ⟨hP c _ h.1, hc⟩), h.2.2.around hP hc⟩

namespace Emission

variable {S : Sources} {c : Context} {o : Opening}

theorem IsOwn.ne_joinVar {x : String} (h : IsOwn x) (k : Nat) : x ≠ joinVar k := by
  cases h with
  | definition h => exact h.ne_joinVar k
  | lookup j =>
    intro hx
    have hl := congrArg String.toList hx
    simp [lookupName, toList_joinVar] at hl

/-- A statement that joins has a numbered name. -/
theorem Apart.binder?_of_isJoin (h : Apart S c o) (ho : o.isJoin = true) :
    ∃ k, o.binder? = some (joinVar k) := by
  cases h with
  | silent h => cases o <;> simp_all [Opening.binder?, Opening.isJoin]
  | tag _ hjoin => exact absurd (hjoin.symm.trans ho) Bool.false_ne_true
  | @join _ k h => exact ⟨k, h⟩
  | record => cases ho

/-- A name that stands apart is not that of a join around. -/
theorem Apart.not_isJoin (h : Apart S c o) {x : String} (hx : o.binder? = some x) :
    ¬c.IsJoin x := by
  rintro ⟨o', ho', hjoin, hx'⟩
  cases h with
  | silent h => exact absurd (h.symm.trans hx) nofun
  | tag h _ _ _ hnew =>
    obtain rfl := Option.some.inj (h.symm.trans hx)
    exact hnew o' ho' hx'
  | join h _ hnew =>
    obtain rfl := Option.some.inj (h.symm.trans hx)
    exact absurd ((hnew o' ho' hx').1.symm.trans hjoin) Bool.false_ne_true
  | record _ hnew =>
    obtain rfl := Option.some.inj hx
    exact hnew o' ho' hx'

/-- A name of generated code's own is not that of a join around. -/
theorem IsOwn.not_isJoin {x : String} (h : IsOwn x)
    (hc : ∀ o ∈ c.around, o.isJoin = true → ∃ k, o.binder? = some (joinVar k)) : ¬c.IsJoin x := by
  rintro ⟨o, ho, hjoin, hx⟩
  obtain ⟨k, hk⟩ := hc o ho hjoin
  exact h.ne_joinVar k (Option.some.inj (hx.symm.trans hk))

end Emission

open Emission

/-- Nothing that is emitted within a join takes the join's name. -/
theorem MappingTree.keepsJoins_output (t : MappingTree) (snippets : SnippetStore)
    (focus : Option Focus) : (t.program snippets focus).1.output.KeepsJoins := by
  have hnamed : ∀ c o, (sound t.sources).opening c o → o.isJoin = true →
      ∃ k, o.binder? = some (joinVar k) := fun _ _ h => h.2.1.binder?_of_isJoin
  refine ((t.meets_output snippets focus).around hnamed nofun).imp ?_ ?_
  · rintro c s ⟨⟨-, hown⟩, hc⟩ x hx
    cases s with
    | define var value =>
      rw [List.mem_singleton.mp hx]
      exact (hown var List.mem_cons_self).not_isJoin hc
    | _ => cases hx
  · rintro c o ⟨⟨-, hapart, hown⟩, hc⟩ x hx
    rcases List.mem_append.mp hx with hx | hx
    · exact hapart.not_isJoin (Option.mem_toList.mp hx)
    · cases o with
      | compute var param arg =>
        rw [List.mem_singleton.mp hx]
        exact (hown var List.mem_cons_self).not_isJoin hc
      | _ => cases hx

/-- A mapping of an element that has siblings draws on the join of the last tags of its inputs, from
the variable of their parent. A join that is open is used again; and what is emitted within a join
gives no other thing its name. A mapping of an attribute draws on its primary input alone. -/
theorem MappingTree.combines_siblings (r : Record) (es : List Edit) (snippets : SnippetStore)
    (focus : Option Focus) :
    let t := (ofRecord r).afterEdits es
    let g : Setting := { snippets, focus := focus.filter t.has }
    (∀ n below, (n, below) ∈ t.numbered.subtrees → ∀ nm ∈ n.numbered,
      nm.mapping.isConstant = false → nm.mapping.siblings ≠ [] →
        (∀ p ∈ nm.mapping.inputs, p.parent? = nm.mapping.input.parent?) ∧
        (nm.mapping.input.tags ≠ [] →
          (joinedKeys nm).map (joinedParent nm).child = nm.mapping.inputs) ∧
        (n.isAttribute = false → ∀ m : Machine, m.Sound → ∃ frames var inside,
          Combines g n below nm m frames var inside) ∧
        (n.isAttribute = true → nm.join = none ∧ ∀ scopes var siblings,
          attributeBindings g scopes n { nm with mapping := { nm.mapping with siblings } } var =
            attributeBindings g scopes n nm var)) ∧
    (t.program snippets focus).1.output.KeepsJoins := by
  intro t g
  refine ⟨fun n below hp nm hnm hconstant hsiblings => ?_, t.keepsJoins_output snippets focus⟩
  have hjoins := isSome_join_of_mem hp hnm
  have hakin : ∀ p ∈ nm.mapping.inputs, p.parent? = nm.mapping.input.parent? := by
    obtain ⟨n', hn', i, j, rfl⟩ :=
      Numbering.mem_labels_number (Forest.mem_labels_of_mem_subtrees hp)
    obtain ⟨e, he, hm⟩ := List.mem_map.mp (Numbering.mapping_mem_of_mem_numbered hnm)
    refine List.forall_mem_cons.mpr ⟨rfl, ?_⟩
    rw [← hm]
    exact (wellMapped_afterEdits r es n' hn').akin e he
  refine ⟨hakin, fun hne => map_child_joinedKeys hne hakin, fun helement m hm => ?_,
    fun hattr => ?_⟩
  · have hsome : nm.join.isSome = true := by
      rw [hjoins, Numbering.joins, helement]
      simpa [List.isEmpty_iff] using hsiblings
    obtain ⟨k, hk⟩ := Option.isSome_iff_exists.mp hsome
    have hliteral : nm.mapping.literal? = none := by
      rw [Mapping.literal?, hconstant]
      rfl
    exact ⟨_, _, _, combines_openInput hk hliteral hm⟩
  · refine ⟨?_, fun _ _ _ => rfl⟩
    rw [← Option.not_isSome_iff_eq_none, hjoins, Numbering.joins, hattr]
    simp

/-- Mappings of the name and of the identifier of a creator, each from two children of one element.
-/
def siblingEdits : List Edit :=
  [.attach
      { output := .ofNames ["record", "creator", "name"]
        input := .ofNames ["m", "a", "x"]
        siblings := [.ofNames ["m", "a", "y"]] },
    .attach
      { output := ⟨[.elem none "record", .elem none "creator", .attr none "id"]⟩
        input := .ofNames ["m", "a", "k"]
        siblings := [.ofNames ["m", "a", "l"]] }]

/-- The name of a creator is a join. -/
theorem creatorRecord_combines :
    let t := (MappingTree.ofRecord creatorRecord).afterEdits siblingEdits
    ∃ a ∈ t.numbered.subtrees, ∃ nm ∈ a.1.numbered, a.1.isAttribute = false ∧
      nm.mapping.isConstant = false ∧ nm.mapping.siblings ≠ [] ∧
      (joinedKeys nm).map (joinedParent nm).child = nm.mapping.inputs ∧
      ∃ frames var inside, Combines ⟨fun _ => none, none⟩ a.1 a.2 nm {} frames var inside := by
  intro t
  let a := t.numbered.subtrees.get ⟨3, by decide +kernel⟩
  let nm := a.1.numbered.get ⟨0, by decide +kernel⟩
  have ha : a ∈ t.numbered.subtrees := List.get_mem ..
  have hnm : nm ∈ a.1.numbered := List.get_mem ..
  have helement : a.1.isAttribute = false := by decide +kernel
  have hconstant : nm.mapping.isConstant = false := by decide +kernel
  have hsiblings : nm.mapping.siblings ≠ [] := by decide +kernel
  have hne : nm.mapping.input.tags ≠ [] := by decide +kernel
  obtain ⟨-, hinputs, hcombines, -⟩ :=
    (MappingTree.combines_siblings creatorRecord siblingEdits (fun _ => none) none).1
      a.1 a.2 ha nm hnm hconstant hsiblings
  exact ⟨a, ha, nm, hnm, helement, hconstant, hsiblings, hinputs hne,
    hcombines helement {} .start⟩

/-- The identifier of a creator is what the first of its inputs has. -/
theorem creatorRecord_uncombined :
    let t := (MappingTree.ofRecord creatorRecord).afterEdits siblingEdits
    let id : Path := ⟨[.elem none "record", .elem none "creator", .attr none "id"]⟩
    ∃ n ∈ t.numbered.labels, ∃ nm ∈ n.numbered, n.path = id ∧ nm.mapping.isConstant = false ∧
      nm.mapping.siblings ≠ [] ∧
      (t.program (fun _ => none) none).1.output = .around (.element (.elem none "record") [] none)
        (.around (.loop "_a" (.nav "_input" [.elem none "a"]) false)
          (.nested (.mapping id (.ofNames ["m", "a", "k"]))
            (.one (.define "_attr_record_creator_id" (.first (.nav "_a" [.elem none "k"]))))
            (.around (.element (.elem none "creator")
                [(.attr none "id", .var "_attr_record_creator_id")] none)
              (.around
                (.mapping (.ofNames ["record", "creator", "name"]) (.ofNames ["m", "a", "x"]))
                (.around
                  (.loop "_M1" (.mapJoin "_a" [.elem none "x", .elem none "y"]) false)
                  (.around (.element (.elem none "name") [] (some (.var "_M1"))) .nil)))))) := by
  intro t id
  refine ⟨t.numbered.labels.get ⟨2, by decide +kernel⟩, List.get_mem .., ?_⟩
  refine ⟨List.get _ ⟨0, by decide +kernel⟩, List.get_mem .., by decide +kernel,
    by decide +kernel, by decide +kernel, ?_⟩
  with_unfolding_all rfl

end Crosswalk
