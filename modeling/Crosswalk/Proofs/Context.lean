import Crosswalk.Program.Scopes

/-!
Where statements stand. The context of a statement is made of the heads of the statements around it
and of the variables defined ahead of it, in its own block or in one around it; the block of a
mapping is part of the block it stands in. A judgment about statements in their contexts holds of a
block if it holds of every statement at any depth.
-/

namespace Crosswalk

/-! ### Blocks in a row -/

namespace Block

@[simp] theorem nil_append (b : Block) : nil ++ b = b := rfl

@[simp] theorem simple_append (s : Simple) (a b : Block) :
    simple s a ++ b = simple s (a ++ b) := rfl

@[simp] theorem nested_append (o : Opening) (body a b : Block) :
    nested o body a ++ b = nested o body (a ++ b) := rfl

theorem ofSimple_cons (s : Simple) (ss : List Simple) :
    ofSimple (s :: ss) = simple s (ofSimple ss) := rfl

end Block

/-! ### Variables of statements -/

mutual

/-- The variables that an expression reads. -/
def Expression.variables : Expression → List String
  | .var name => [name]
  | .literal _ => []
  | .nav base _ | .mapJoin base _ => [base]
  | .joined e _ => e.variables
  | .first e => e.variables
  | .call _ args => variablesOfAll args
  | .alternatives es => variablesOfAll es

/-- The variables that some expressions read. -/
def Expression.variablesOfAll : List Expression → List String
  | [] => []
  | e :: es => e.variables ++ variablesOfAll es

end

theorem Expression.mem_variablesOfAll {x : String} {es : List Expression} :
    x ∈ variablesOfAll es ↔ ∃ e ∈ es, x ∈ e.variables := by
  induction es with
  | nil => simp [variablesOfAll]
  | cons e es ih => simp [variablesOfAll, ih]

/-- The variables that a condition reads. -/
def Condition.variables : Condition → List String
  | .present e => e.variables
  | .absent _ => []

/-- The variables that a statement with nothing inside reads. -/
def Simple.variables : Simple → List String
  | .define _ value => value.variables
  | _ => []

/-- The variables that the head of a statement reads. -/
def Opening.variables : Opening → List String
  | .loop _ source _ => source.variables
  | .bind _ value => value.variables
  | .compute _ _ arg => arg.variables
  | .guarded condition => condition.variables
  | .element _ attributes value =>
    Expression.variablesOfAll (attributes.map Prod.snd) ++ Expression.variablesOfAll value.toList
  | .mapping .. => []

/-- The variable that a statement's scope binds for the block inside. -/
def Opening.scopeVar? : Opening → Option String
  | .loop var _ _ => some var
  | .bind var _ => some var
  | _ => none

/-- The name that a statement binds for the block inside: the variable of a scope or the parameter
of code. -/
def Opening.binder? : Opening → Option String
  | .loop var _ _ => some var
  | .bind var _ => some var
  | .compute _ param _ => some param
  | _ => none

theorem Opening.binder?_of_scopeVar? {o : Opening} {x : String} (h : o.scopeVar? = some x) :
    o.binder? = some x := by
  cases o <;> simp_all [scopeVar?, binder?]

/-! ### Names of a program -/

theorem Expression.mem_callsOfAll {f : String} {es : List Expression} :
    f ∈ callsOfAll es ↔ ∃ e ∈ es, f ∈ e.calls := by
  induction es with
  | nil => simp [callsOfAll]
  | cons e es ih => simp [callsOfAll, ih]

theorem Expression.callsOfAll_eq_nil {es : List Expression} (h : ∀ e ∈ es, e.calls = []) :
    callsOfAll es = [] := by
  induction es with
  | nil => rfl
  | cons e es ih =>
    rw [List.forall_mem_cons] at h
    rw [callsOfAll, h.1, ih h.2, List.nil_append]

/-- The names that a statement with nothing inside introduces or calls. -/
def Simple.ownNames : Simple → List String
  | .table name _ => [name]
  | .lookup name t => [name, t]
  | .define var value => var :: value.calls
  | _ => []

/-- The names that the head of a statement introduces or calls, but for those bound inside. -/
def Opening.ownNames : Opening → List String
  | .compute var _ arg => var :: arg.calls
  | o => o.calls

/-- The names of variables, functions and tables in a block. -/
def Block.names : Block → List String
  | .nil => []
  | .simple s rest => s.variables ++ s.ownNames ++ names rest
  | .nested o body rest =>
    o.variables ++ o.binder?.toList ++ o.ownNames ++ names body ++ names rest

theorem Block.names_ofSimple (ss : List Simple) :
    (ofSimple ss).names = ss.flatMap fun s => s.variables ++ s.ownNames := by
  induction ss with
  | nil => rfl
  | cons s ss ih => rw [List.flatMap_cons, ← ih, ofSimple_cons, names]

/-- The names of variables, functions and tables in a program. -/
def Program.names (p : Program) : List String :=
  p.prologue.names ++ (p.output.names ++ p.epilogue.names)

/-! ### Definitions of a block -/

/-- The variable that a statement with nothing inside defines. -/
def Simple.definitions : Simple → List String
  | .define var _ => [var]
  | _ => []

/-- The variables that a statement defines for those after it, when the block inside defines
`inside`. -/
def Opening.definitions (inside : List String) : Opening → List String
  | .compute var _ _ => [var]
  | .mapping .. => inside
  | _ => []

/-- The variables that a block defines for what follows it. -/
def Block.definitions : Block → List String
  | .nil => []
  | .simple s rest => s.definitions ++ definitions rest
  | .nested o body rest => o.definitions (definitions body) ++ definitions rest

theorem Block.mem_names_of_mem_definitions {b : Block} {x : String} (h : x ∈ b.definitions) :
    x ∈ b.names := by
  induction b with
  | nil => cases h
  | simple s rest ih =>
    rw [names, List.mem_append, List.mem_append]
    refine (List.mem_append.mp h).imp (fun h => .inr ?_) ih
    cases s <;> simp_all [Simple.definitions, Simple.ownNames]
  | nested o body rest hbody hrest =>
    simp only [names, List.mem_append]
    rcases List.mem_append.mp h with h | h
    · cases o with
      | mapping => exact .inl (.inr (hbody h))
      | compute var _ _ =>
        rw [List.mem_singleton.mp h]
        exact .inl (.inl (.inr List.mem_cons_self))
      | _ => cases h
    · exact .inr (hrest h)

/-! ### Contexts -/

/-- Where a statement stands. -/
structure Context where
  /-- The heads of the statements around, the innermost first. -/
  around : List Opening := []
  /-- The variables defined ahead, in this block or in one around it. -/
  defined : List String := []

namespace Context

/-- The context inside a statement. -/
def enter (c : Context) (o : Opening) : Context := { c with around := o :: c.around }

/-- The context after a statement that defines some variables. -/
def define (c : Context) (xs : List String) : Context := { c with defined := c.defined ++ xs }

/-- Whether a statement may read a variable: the interpreter's, that of a scope around it, or one
defined ahead of it. -/
def Sees (c : Context) (x : String) : Prop :=
  x = inputVar ∨ (∃ o ∈ c.around, o.scopeVar? = some x) ∨ x ∈ c.defined

/-- Whether a name has a meaning where a statement stands. -/
def Has (c : Context) (x : String) : Prop :=
  x = inputVar ∨ (∃ o ∈ c.around, o.binder? = some x) ∨ x ∈ c.defined

instance (c : Context) (x : String) : Decidable (c.Sees x) :=
  inferInstanceAs (Decidable (_ ∨ _ ∨ _))

instance (c : Context) (x : String) : Decidable (c.Has x) :=
  inferInstanceAs (Decidable (_ ∨ _ ∨ _))

@[simp] theorem define_nil (c : Context) : c.define [] = c := by simp [define]

@[simp] theorem define_define (c : Context) (xs ys : List String) :
    (c.define xs).define ys = c.define (xs ++ ys) := by
  simp [define]

theorem Sees.enter {c : Context} {x : String} (h : c.Sees x) (o : Opening) :
    (c.enter o).Sees x := by
  rcases h with h | ⟨o', ho', h⟩ | h
  · exact .inl h
  · exact .inr (.inl ⟨o', List.mem_cons_of_mem _ ho', h⟩)
  · exact .inr (.inr h)

theorem Sees.define {c : Context} {x : String} (h : c.Sees x) (xs : List String) :
    (c.define xs).Sees x := by
  rcases h with h | h | h
  · exact .inl h
  · exact .inr (.inl h)
  · exact .inr (.inr (List.mem_append_left _ h))

theorem sees_define_of_mem (c : Context) {x : String} {xs : List String} (h : x ∈ xs) :
    (c.define xs).Sees x :=
  .inr (.inr (List.mem_append_right _ h))

theorem Sees.has {c : Context} {x : String} (h : c.Sees x) : c.Has x :=
  h.imp_right (Or.imp_left fun ⟨o, ho, hx⟩ => ⟨o, ho, o.binder?_of_scopeVar? hx⟩)

theorem has_enter {c : Context} {o : Opening} {x : String} (h : (c.enter o).Has x) :
    x ∈ o.binder? ∨ c.Has x := by
  rcases h with h | ⟨o', ho', hx⟩ | h
  · exact .inr (.inl h)
  · rcases List.mem_cons.mp ho' with rfl | ho'
    · exact .inl hx
    · exact .inr (.inr (.inl ⟨o', ho', hx⟩))
  · exact .inr (.inr (.inr h))

theorem has_define {c : Context} {xs : List String} {x : String} (h : (c.define xs).Has x) :
    x ∈ xs ∨ c.Has x := by
  rcases h with h | h | h
  · exact .inr (.inl h)
  · exact .inr (.inr (.inl h))
  · exact (List.mem_append.mp h).symm.imp_right fun h => .inr (.inr h)

end Context

/-! ### Judgments -/

/-- What is to hold of each statement in its context. -/
structure Judgment where
  simple : Context → Simple → Prop := fun _ _ => True
  opening : Context → Opening → Prop

/-- Whether a judgment holds of every statement of a block that stands in a context. -/
def Block.Meets (J : Judgment) : Context → Block → Prop
  | _, .nil => True
  | c, .simple s rest => J.simple c s ∧ Meets J (c.define s.definitions) rest
  | c, .nested o body rest =>
    J.opening c o ∧ Meets J (c.enter o) body ∧
      Meets J (c.define (o.definitions body.definitions)) rest

namespace Block

@[simp] theorem definitions_append (a b : Block) :
    (a ++ b).definitions = a.definitions ++ b.definitions := by
  induction a with
  | nil => rfl
  | simple s rest ih => simp [definitions, ih]
  | nested o body rest _ ih => simp [definitions, ih]

/-- What follows a block stands behind the variables that the block defines. -/
theorem meets_append {J : Judgment} {b : Block} : ∀ {a : Block} {c : Context},
    (a ++ b).Meets J c ↔ a.Meets J c ∧ b.Meets J (c.define a.definitions)
  | .nil, c => by simp [Meets, definitions]
  | .simple s rest, c => by
    simp only [simple_append, Meets, definitions, meets_append (a := rest), Context.define_define,
      and_assoc]
  | .nested o body rest, c => by
    simp only [nested_append, Meets, definitions, meets_append (a := rest), Context.define_define,
      and_assoc]

theorem meets_one {J : Judgment} {s : Simple} {c : Context} :
    (one s).Meets J c ↔ J.simple c s := by
  simp [one, Meets]

theorem meets_around {J : Judgment} {o : Opening} {body : Block} {c : Context} :
    (around o body).Meets J c ↔ J.opening c o ∧ body.Meets J (c.enter o) := by
  simp [around, Meets]

/-- A judgment may be weakened statement by statement. -/
theorem Meets.imp {J K : Judgment} (hs : ∀ c s, J.simple c s → K.simple c s)
    (ho : ∀ c o, J.opening c o → K.opening c o) :
    ∀ {b : Block} {c : Context}, b.Meets J c → b.Meets K c
  | .nil, _, _ => trivial
  | .simple s _, c, h => ⟨hs c s h.1, h.2.imp hs ho⟩
  | .nested o _ _, c, h => ⟨ho c o h.1, h.2.1.imp hs ho, h.2.2.imp hs ho⟩

/-- Two judgments that hold of every statement hold together. -/
theorem Meets.and {J K : Judgment} :
    ∀ {b : Block} {c : Context}, b.Meets J c → b.Meets K c →
      b.Meets ⟨fun c s => J.simple c s ∧ K.simple c s, fun c o => J.opening c o ∧ K.opening c o⟩ c
  | .nil, _, _, _ => trivial
  | .simple .., _, h, h' => ⟨⟨h.1, h'.1⟩, h.2.and h'.2⟩
  | .nested .., _, h, h' => ⟨⟨h.1, h'.1⟩, h.2.1.and h'.2.1, h.2.2.and h'.2.2⟩

/-- A judgment that can be decided of each statement can be decided of a block. -/
instance Meets.decidable (J : Judgment) [∀ c s, Decidable (J.simple c s)]
    [∀ c o, Decidable (J.opening c o)] : ∀ (c : Context) (b : Block), Decidable (b.Meets J c)
  | _, .nil => inferInstanceAs (Decidable True)
  | c, .simple s rest =>
    have := Meets.decidable J (c.define s.definitions) rest
    inferInstanceAs (Decidable (_ ∧ _))
  | c, .nested o body rest =>
    have := Meets.decidable J (c.enter o) body
    have := Meets.decidable J (c.define (o.definitions body.definitions)) rest
    inferInstanceAs (Decidable (_ ∧ _ ∧ _))

/-- Whether every variable is read where it has been bound. -/
def WellScoped (b : Block) : Prop :=
  b.Meets
    { simple := fun c s => ∀ x ∈ s.variables, c.Sees x
      opening := fun c o => ∀ x ∈ o.variables, c.Sees x } {}

/-- Whether every name that a statement binds for the block inside has no meaning where it is
bound. -/
def NoShadowing (b : Block) : Prop :=
  b.Meets { opening := fun c o => ∀ x ∈ o.binder?, ¬c.Has x } {}

instance (b : Block) : Decidable b.WellScoped :=
  inferInstanceAs (Decidable (b.Meets ⟨_, _⟩ _))

instance (b : Block) : Decidable b.NoShadowing :=
  inferInstanceAs (Decidable (b.Meets ⟨_, _⟩ _))

end Block

end Crosswalk
