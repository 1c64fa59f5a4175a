import Crosswalk.Proofs.Context
import Crosswalk.Proofs.Names

/-!
Open scopes and the statements around. While a tree is emitted, the open scopes are exactly those of
the statements around, so what is navigated from an open scope reads a variable that stands around
it. A name made from a source tag is none of theirs, the names of joins are numbered upwards on
every way down the tree, and all that is defined ahead has a name that generated code makes for
itself. Blocks that keep to this are safe, and safe blocks compose.
-/

namespace Crosswalk

open Scopes

/-! ### What holds of each statement -/

/-- Whether an expression is a join of children, or the joined text of one. -/
def Expression.isJoin : Expression → Bool
  | .mapJoin .. => true
  | .joined e _ => e.isJoin
  | _ => false

/-- Whether a statement's scope binds a join. -/
def Opening.isJoin : Opening → Bool
  | .loop _ source _ => source.isJoin
  | .bind _ value => value.isJoin
  | _ => false

namespace Emission

/-- What the inputs of some mappings are made of. -/
structure Sources where
  tag : Tag → Prop
  /-- Whether an input may be the whole record. -/
  whole : Prop

/-- Whether a path is one of the inputs. -/
def Sources.Allow (S : Sources) (p : Path) : Prop :=
  (∀ t ∈ p.tags, S.tag t) ∧ (p.tags = [] → S.whole)

variable (S : Sources)

/-- Whether a name is a candidate for a tag of the inputs. -/
def MadeFrom (x : String) : Prop := ∃ t j, S.tag t ∧ x = candidate (baseName t) j

/-- How the name that a statement binds stands to the names around it. -/
inductive Apart (c : Context) : Opening → Prop where
  /-- Nothing is bound. -/
  | silent {o : Opening} (h : o.binder? = none) : Apart c o
  /-- The name is made from a tag and new among the scopes around. -/
  | tag {o : Opening} {x : String} (h : o.binder? = some x) (hjoin : o.isJoin = false)
      (hmade : MadeFrom S x) (hinput : x ≠ inputVar) (hnew : ∀ o' ∈ c.around, o'.binder? ≠ some x)
      (hdefined : x ∈ c.defined → IsDefinition x) : Apart c o
  /-- The name is that of a join and new among the joins around. -/
  | join {o : Opening} {k : Nat} (h : o.binder? = some (joinVar k)) (hjoin : o.isJoin = true)
      (hnew : ∀ o' ∈ c.around, o'.binder? = some (joinVar k) →
        o'.isJoin = false ∧ MadeFrom S (joinVar k))
      (hdefined : joinVar k ∉ c.defined) : Apart c o
  /-- Code reads the whole record and names it like the interpreter. -/
  | record {var : String} {arg : Expression} (hwhole : S.whole)
      (hnew : ∀ o' ∈ c.around, o'.binder? ≠ some inputVar) : Apart c (.compute var inputVar arg)

/-- Every variable is seen where it is read, every bound name stands apart, and every other name is
one of generated code's own. -/
def sound : Judgment where
  simple c s := (∀ x ∈ s.variables, c.Sees x) ∧ ∀ x ∈ s.ownNames, IsOwn x
  opening c o := (∀ x ∈ o.variables, c.Sees x) ∧ Apart S c o ∧ ∀ x ∈ o.ownNames, IsOwn x

/-! ### Open scopes and the statements around -/

/-- Some open scopes are those of the statements around, and the numbers of the joins among them
are at most `used`. -/
structure Tracks (used : Nat) (scopes : Scopes) (c : Context) : Prop where
  bound : ∀ b ∈ scopes, ∃ o ∈ c.around, o.scopeVar? = some b.var
  tracked : ∀ o ∈ c.around, ∀ x, o.binder? = some x → ∃ b ∈ scopes, b.var = x
  named : ∀ b ∈ scopes, b.var ≠ inputVar
  joined : ∀ o ∈ c.around, ∀ x, o.binder? = some x → o.isJoin = true → ∃ k ≤ used, x = joinVar k
  made : ∀ o ∈ c.around, ∀ x, o.binder? = some x → o.isJoin = false → MadeFrom S x
  defined : ∀ x ∈ c.defined, IsDefinition x

/-- Whether a variable is the interpreter's, that of an open scope, or one defined before. -/
def Knows (scopes : Scopes) (known : List String) (x : String) : Prop :=
  x = inputVar ∨ (∃ b ∈ scopes, b.var = x) ∨ x ∈ known

variable {S} {used : Nat} {scopes : Scopes} {known : List String} {c : Context}

theorem Tracks.start : Tracks S used [] {} where
  bound := by simp
  tracked := by simp
  named := by simp
  joined := by simp
  made := by simp
  defined := by simp

theorem Tracks.sees (h : Tracks S used scopes c) (hknown : ∀ x ∈ known, c.Sees x) {x : String}
    (hx : Knows scopes known x) : c.Sees x := by
  rcases hx with rfl | ⟨b, hb, rfl⟩ | hx
  · exact .inl rfl
  · exact .inr (.inl (h.bound b hb))
  · exact hknown x hx

theorem Tracks.mono {used' : Nat} (h : Tracks S used scopes c) (hle : used ≤ used') :
    Tracks S used' scopes c where
  bound := h.bound
  tracked := h.tracked
  named := h.named
  joined o ho x hx hj := by
    obtain ⟨k, hk, rfl⟩ := h.joined o ho x hx hj
    exact ⟨k, Nat.le_trans hk hle, rfl⟩
  made := h.made
  defined := h.defined

theorem Tracks.define (h : Tracks S used scopes c) {xs : List String}
    (hxs : ∀ x ∈ xs, IsDefinition x) : Tracks S used scopes (c.define xs) where
  bound := h.bound
  tracked := h.tracked
  named := h.named
  joined := h.joined
  made := h.made
  defined x hx := (List.mem_append.mp hx).elim (h.defined x) (hxs x)

theorem Tracks.enter (h : Tracks S used scopes c) {o : Opening} (ho : o.binder? = none) :
    Tracks S used scopes (c.enter o) where
  bound b hb := by
    obtain ⟨o', ho', hvar⟩ := h.bound b hb
    exact ⟨o', List.mem_cons_of_mem _ ho', hvar⟩
  tracked := List.forall_mem_cons.mpr ⟨by simp [ho], h.tracked⟩
  named := h.named
  joined := List.forall_mem_cons.mpr ⟨by simp [ho], h.joined⟩
  made := List.forall_mem_cons.mpr ⟨by simp [ho], h.made⟩
  defined := h.defined

/-- A scope that is opened is one more statement around. -/
theorem Tracks.push (h : Tracks S used scopes c) {used' : Nat} (hle : used ≤ used') {o : Opening}
    {b : Binding} (hvar : o.scopeVar? = some b.var) (hinput : b.var ≠ inputVar)
    (hjoin : o.isJoin = true → ∃ k ≤ used', b.var = joinVar k)
    (hmade : o.isJoin = false → MadeFrom S b.var) :
    Tracks S used' (b :: scopes) (c.enter o) where
  bound := by
    refine List.forall_mem_cons.mpr ⟨⟨o, List.mem_cons_self, hvar⟩, fun b' hb' => ?_⟩
    obtain ⟨o', ho', hvar'⟩ := h.bound b' hb'
    exact ⟨o', List.mem_cons_of_mem _ ho', hvar'⟩
  tracked := by
    refine List.forall_mem_cons.mpr ⟨fun x hx => ?_, fun o' ho' x hx => ?_⟩
    · rw [o.binder?_of_scopeVar? hvar, Option.some.injEq] at hx
      exact ⟨b, List.mem_cons_self, hx⟩
    · obtain ⟨b', hb', rfl⟩ := h.tracked o' ho' x hx
      exact ⟨b', List.mem_cons_of_mem _ hb', rfl⟩
  named := List.forall_mem_cons.mpr ⟨hinput, h.named⟩
  joined := by
    refine List.forall_mem_cons.mpr ⟨fun x hx hj => ?_, (h.mono hle).joined⟩
    rw [o.binder?_of_scopeVar? hvar, Option.some.injEq] at hx
    exact hx ▸ hjoin hj
  made := by
    refine List.forall_mem_cons.mpr ⟨fun x hx hj => ?_, h.made⟩
    rw [o.binder?_of_scopeVar? hvar, Option.some.injEq] at hx
    exact hx ▸ hmade hj
  defined := h.defined

/-- A fresh variable is new among the statements around. -/
theorem Tracks.freshVar_new (h : Tracks S used scopes c) (t : Tag) :
    ∀ o ∈ c.around, o.binder? ≠ some (scopes.freshVar t) := by
  intro o ho hx
  obtain ⟨b, hb, hvar⟩ := h.tracked o ho _ hx
  refine freshVar_notMem_takenNames scopes t (List.mem_cons_of_mem _ ?_)
  exact hvar ▸ List.mem_map_of_mem hb

theorem freshVar_ne_inputVar (scopes : Scopes) (t : Tag) : scopes.freshVar t ≠ inputVar :=
  fun h => freshVar_notMem_takenNames scopes t (h ▸ List.mem_cons_self)

theorem madeFrom_freshVar (scopes : Scopes) {t : Tag} (ht : S.tag t) :
    MadeFrom S (scopes.freshVar t) := by
  obtain ⟨j, hj⟩ := freshVar_eq_candidate scopes t
  exact ⟨t, j, ht, hj⟩

/-- A head that binds a fresh variable stands apart. -/
theorem Tracks.apart_freshVar (h : Tracks S used scopes c) {t : Tag} (ht : S.tag t) {o : Opening}
    (ho : o.binder? = some (scopes.freshVar t)) (hjoin : o.isJoin = false) : Apart S c o :=
  .tag ho hjoin (madeFrom_freshVar scopes ht) (freshVar_ne_inputVar scopes t) (h.freshVar_new t)
    (h.defined _)

/-- The interpreter's variable is bound by no statement around. -/
theorem Tracks.inputVar_new (h : Tracks S used scopes c) :
    ∀ o ∈ c.around, o.binder? ≠ some inputVar := by
  intro o ho hx
  obtain ⟨b, hb, hvar⟩ := h.tracked o ho _ hx
  exact h.named b hb hvar

/-! ### Safe blocks -/

variable (S used scopes known) in
/-- Whether a block is sound wherever its open scopes are those of the statements around and some
variables are seen, and defines only names that generated code makes for itself. -/
structure Safe (b : Block) : Prop where
  meets : ∀ c, Tracks S used scopes c → (∀ x ∈ known, c.Sees x) → b.Meets (sound S) c
  defined : ∀ x ∈ b.definitions, IsDefinition x

namespace Safe

theorem nil : Safe S used scopes known .nil :=
  ⟨fun _ _ _ => trivial, by simp [Block.definitions]⟩

theorem append {a b : Block} (ha : Safe S used scopes known a)
    (hb : Safe S used scopes (known ++ a.definitions) b) : Safe S used scopes known (a ++ b) where
  meets c hc hknown := by
    refine Block.meets_append.mpr ⟨ha.meets c hc hknown, hb.meets _ (hc.define ha.defined) ?_⟩
    intro x hx
    rcases List.mem_append.mp hx with hx | hx
    · exact (hknown x hx).define _
    · exact c.sees_define_of_mem hx
  defined x hx := by
    rw [Block.definitions_append] at hx
    exact (List.mem_append.mp hx).elim (ha.defined x) (hb.defined x)

theorem weaken {known' : List String} {b : Block} (h : Safe S used scopes known b)
    (hsub : known ⊆ known') : Safe S used scopes known' b :=
  ⟨fun c hc hknown => h.meets c hc fun x hx => hknown x (hsub hx), h.defined⟩

/-- A block may ignore what the block ahead of it defines. -/
theorem seq {a b : Block} (ha : Safe S used scopes known a) (hb : Safe S used scopes known b) :
    Safe S used scopes known (a ++ b) :=
  ha.append (hb.weaken (List.subset_append_left ..))

theorem mono {used' : Nat} {b : Block} (h : Safe S used' scopes known b) (hle : used ≤ used') :
    Safe S used scopes known b :=
  ⟨fun c hc => h.meets c (hc.mono hle), h.defined⟩

theorem join : ∀ {bs : List Block}, (∀ b ∈ bs, Safe S used scopes known b) →
    Safe S used scopes known (.join bs)
  | [], _ => nil
  | _ :: _, h =>
    (h _ List.mem_cons_self).seq (join fun b hb => h b (List.mem_cons_of_mem _ hb))

theorem define {var : String} {value : Expression} (hvar : IsDefinition var)
    (hvalue : ∀ x ∈ value.variables, Knows scopes known x) (hcalls : ∀ f ∈ value.calls, IsOwn f) :
    Safe S used scopes known (.one (.define var value)) where
  meets c hc hknown := Block.meets_one.mpr
    ⟨fun x hx => hc.sees hknown (hvalue x hx), List.forall_mem_cons.mpr ⟨.definition hvar, hcalls⟩⟩
  defined := by simpa [Block.one, Block.definitions, Simple.definitions] using hvar

theorem code (text : String) : Safe S used scopes known (.one (.code text)) where
  meets c _ _ := Block.meets_one.mpr (by simp [sound, Simple.variables, Simple.ownNames])
  defined := by simp [Block.one, Block.definitions, Simple.definitions]

/-- A statement that binds nothing reads what is known and is as safe as what is inside. -/
theorem around {o : Opening} {body : Block} (hbinder : o.binder? = none)
    (hreads : ∀ x ∈ o.variables, Knows scopes known x) (hown : ∀ x ∈ o.ownNames, IsOwn x)
    (hbody : Safe S used scopes known body)
    (hdefined : o.definitions body.definitions ⊆ body.definitions) :
    Safe S used scopes known (.around o body) where
  meets c hc hknown := Block.meets_around.mpr
    ⟨⟨fun x hx => hc.sees hknown (hreads x hx), .silent hbinder, hown⟩,
      hbody.meets _ (hc.enter hbinder) fun x hx => (hknown x hx).enter o⟩
  defined x hx := by
    rw [Block.around, Block.definitions, Block.definitions, List.append_nil] at hx
    exact hbody.defined x (hdefined hx)

/-- The block of a mapping is part of the block around it. -/
theorem marked {m : Mapping} {b : Block} (h : Safe S used scopes known b) :
    Safe S used scopes known (marked m b) :=
  around rfl (by simp [Opening.variables]) (by simp [Opening.ownNames, Opening.calls]) h
    (List.Subset.refl _)

theorem guarded {e : Expression} {b : Block} (he : ∀ x ∈ e.variables, Knows scopes known x)
    (hcalls : e.calls = []) (h : Safe S used scopes known b) :
    Safe S used scopes known (.around (.guarded (.present e)) b) :=
  around rfl he (by simp [Opening.ownNames, Opening.calls, Condition.calls, hcalls]) h
    (List.nil_subset _)

/-- Code that computes the value of an attribute. -/
theorem compute {var param text : String} {arg : Expression} (hvar : IsDefinition var)
    (harg : ∀ x ∈ arg.variables, Knows scopes known x) (hcalls : arg.calls = [])
    (hparam : ∀ c, Tracks S used scopes c → Apart S c (.compute var param arg)) :
    Safe S used scopes known (.around (.compute var param arg) (.one (.code text))) where
  meets c hc hknown := Block.meets_around.mpr
    ⟨⟨fun x hx => hc.sees hknown (harg x hx), hparam c hc,
        by simpa [Opening.ownNames, hcalls] using .definition hvar⟩,
      Block.meets_one.mpr (by simp [sound, Simple.variables, Simple.ownNames])⟩
  defined := by simpa [Block.around, Block.definitions, Opening.definitions] using hvar

end Safe

end Emission

end Crosswalk
