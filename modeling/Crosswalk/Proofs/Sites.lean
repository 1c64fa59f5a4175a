import Crosswalk.Proofs.Marks

/-!
Where elements are constructed. The site of a statement is made of the statement just ahead of it, of
the heads of the statements around it, each with the statement just ahead of that, and of what the
variables in its reach are bound to. The constructions of a block are the constructors in it at any
depth, each with its site.
-/

namespace Crosswalk

/-! ### Bindings of a block -/

/-- Variables and what they are bound to, the latest first. What code computes and what a scope runs
over is left open. -/
abbrev Bindings := List (String × Option Expression)

/-- What a statement with nothing inside binds. -/
def Simple.bindings : Simple → Bindings
  | .define var value => [(var, some value)]
  | _ => []

/-- What a statement binds for those after it, when the block inside binds `inside`. -/
def Opening.bindings (inside : Bindings) : Opening → Bindings
  | .compute var _ _ => [(var, none)]
  | .mapping .. => inside
  | _ => []

/-- What a block binds for what follows it. -/
def Block.bindings : Block → Bindings
  | .nil => []
  | .simple s rest => bindings rest ++ s.bindings
  | .nested o body rest => bindings rest ++ o.bindings (bindings body)

namespace Block

@[simp] theorem bindings_append (a b : Block) : (a ++ b).bindings = b.bindings ++ a.bindings := by
  induction a with
  | nil => rw [nil_append, bindings, List.append_nil]
  | simple s rest ih => rw [simple_append, bindings, ih, bindings, List.append_assoc]
  | nested o body rest _ ih => rw [nested_append, bindings, ih, bindings, List.append_assoc]

@[simp] theorem bindings_around (o : Opening) (body : Block) :
    (around o body).bindings = o.bindings body.bindings := rfl

/-- A block binds the variables that it defines. -/
theorem map_fst_bindings (b : Block) : b.bindings.map Prod.fst = b.definitions.reverse := by
  induction b with
  | nil => rfl
  | simple s rest ih =>
    rw [bindings, definitions, List.map_append, ih, List.reverse_append]
    cases s <;> rfl
  | nested o body rest hbody hrest =>
    rw [bindings, definitions, List.map_append, hrest, List.reverse_append]
    cases o with
    | mapping => exact congrArg _ hbody
    | _ => rfl

/-- What a variable is bound to calls what the block calls. -/
theorem calls_subset_of_mem_bindings {b : Block} {y : String} {e : Expression}
    (h : (y, some e) ∈ b.bindings) : e.calls ⊆ b.calls := by
  induction b with
  | nil => cases h
  | simple s rest ih =>
    rw [calls]
    rcases List.mem_append.mp h with h | h
    · exact List.subset_append_of_subset_right _ (ih h)
    · cases s with
      | define var value =>
        obtain rfl := Option.some.inj (Prod.mk.inj (List.mem_singleton.mp h)).2
        exact List.subset_append_left ..
      | _ => cases h
  | nested o body rest hbody hrest =>
    rw [calls]
    rcases List.mem_append.mp h with h | h
    · exact List.subset_append_of_subset_right _ (hrest h)
    · cases o with
      | mapping =>
        exact List.subset_append_of_subset_left _ (List.subset_append_of_subset_right _ (hbody h))
      | compute => cases List.mem_singleton.mp h
      | _ => cases h

end Block

/-! ### Sites -/

/-- Where a statement stands and what is in its reach. -/
structure Site where
  /-- The statement just ahead, if there is one and nothing is inside it. -/
  previous : Option Simple := none
  /-- The heads of the statements around, the innermost first, each with the statement just ahead. -/
  around : List (Option Simple × Opening) := []
  bindings : Bindings := []

namespace Site

/-- The site behind a statement with nothing inside. -/
def after (c : Site) (s : Simple) : Site :=
  { c with previous := some s, bindings := s.bindings ++ c.bindings }

/-- The site at the start of the block inside a statement. -/
def inside (c : Site) (o : Opening) : Site where
  around := (c.previous, o) :: c.around
  bindings := o.binder?.toList.map (fun x => (x, none)) ++ c.bindings

/-- The site behind a statement with a block inside. -/
def behind (c : Site) (o : Opening) (body : Block) : Site :=
  { c with previous := none, bindings := o.bindings body.bindings ++ c.bindings }

/-- The site behind a block. -/
def past (c : Site) : Block → Site
  | .nil => c
  | .simple s rest => (c.after s).past rest
  | .nested o body rest => (c.behind o body).past rest

@[simp] theorem around_past {b : Block} : ∀ {c : Site}, (c.past b).around = c.around := by
  induction b with
  | nil => intro c; rfl
  | simple s rest ih => intro c; rw [past, ih, after]
  | nested o body rest _ ih => intro c; rw [past, ih, behind]

@[simp] theorem bindings_past {b : Block} : ∀ {c : Site},
    (c.past b).bindings = b.bindings ++ c.bindings := by
  induction b with
  | nil => intro c; rfl
  | simple s rest ih => intro c; rw [past, ih, after, Block.bindings, List.append_assoc]
  | nested o body rest _ ih => intro c; rw [past, ih, behind, Block.bindings, List.append_assoc]

end Site

/-! ### Constructions -/

/-- A constructor of an element and where it stands. -/
structure Construction extends Site where
  tag : Tag
  attributes : List (Tag × Expression)
  value : Option Expression

/-- Whether no element is constructed around a construction. -/
def Construction.Outermost (x : Construction) : Prop :=
  ∀ a ∈ x.around, ∀ tag attributes value, a.2 ≠ .element tag attributes value

/-- Whether a construction passes some arguments on, behind what `outer` binds. -/
structure Construction.Passes (x : Construction) (a : Emission.Arguments) (outer : Bindings) :
    Prop where
  attributes : x.attributes = a.values
  bindings : x.bindings = a.lets.bindings ++ outer
  guards : ∀ e ∈ a.guards, ∃ p, (p, .guarded (.present e)) ∈ x.around

/-- The construction that a statement is. -/
def Opening.constructions (c : Site) : Opening → List Construction
  | .element tag attributes value => [{ toSite := c, tag, attributes, value }]
  | _ => []

/-- The constructions of a block at any depth. -/
def Block.constructions : Site → Block → List Construction
  | _, .nil => []
  | c, .simple s rest => constructions (c.after s) rest
  | c, .nested o body rest =>
    o.constructions c ++ constructions (c.inside o) body ++ constructions (c.behind o body) rest

namespace Block

variable {c : Site} {x : Construction}

theorem constructions_append {b : Block} : ∀ {a : Block} {c : Site},
    (a ++ b).constructions c = a.constructions c ++ b.constructions (c.past a)
  | .nil, _ => rfl
  | .simple _ rest, _ => constructions_append (a := rest)
  | .nested _ _ rest, _ => by
    rw [nested_append, constructions, constructions_append (a := rest), constructions,
      List.append_assoc, List.append_assoc, List.append_assoc]
    rfl

theorem mem_constructions_append {a b : Block} : x ∈ (a ++ b).constructions c ↔
    x ∈ a.constructions c ∨ x ∈ b.constructions (c.past a) := by
  rw [constructions_append, List.mem_append]

theorem mem_constructions_around {o : Opening} {body : Block} :
    x ∈ (around o body).constructions c ↔
      x ∈ o.constructions c ∨ x ∈ body.constructions (c.inside o) := by
  rw [around, constructions, constructions, List.append_nil, List.mem_append]

theorem mem_constructions_scope {op : Operator} {var : String} {source : Expression} {body : Block}
    (h : x ∈ (scope op var source body).constructions c) : ∃ c', x ∈ body.constructions c' := by
  unfold scope at h
  split at h
  all_goals exact ⟨_, (mem_constructions_around.mp h).resolve_left List.not_mem_nil⟩

/-- What is around a block is around every construction in it. -/
theorem around_suffix {b : Block} : ∀ {c : Site}, x ∈ b.constructions c → c.around <:+ x.around := by
  induction b with
  | nil => intro c h; cases h
  | simple s rest ih =>
    intro c h
    have hrest : (c.after s).around <:+ x.around := ih h
    exact hrest
  | nested o body rest hbody hrest =>
    intro c h
    rcases List.mem_append.mp h with h | h
    · rcases List.mem_append.mp h with h | h
      · cases o with
        | element =>
          obtain rfl := List.mem_singleton.mp h
          exact List.suffix_rfl
        | _ => cases h
      · exact (List.suffix_cons ..).trans (hbody h)
    · have hbehind : (c.behind o body).around <:+ x.around := hrest h
      exact hbehind

end Block

namespace Emission

variable {c : Site} {x : Construction}

theorem mem_constructions_wrap {b : Block} {frames : List Frame} : ∀ {c : Site},
    x ∈ (wrap frames b).constructions c → ∃ c', x ∈ b.constructions c' := by
  induction frames with
  | nil => exact fun h => ⟨_, h⟩
  | cons f frames ih =>
    intro c h
    obtain ⟨c', h⟩ := Block.mem_constructions_scope h
    exact ih h

/-- What stands within guards has each of them around it. -/
theorem mem_constructions_guarded {b : Block} {guards : List Expression} : ∀ {c : Site},
    x ∈ (Arguments.guarded guards b).constructions c →
      ∃ c', x ∈ b.constructions c' ∧ c'.bindings = c.bindings ∧
        ∀ e ∈ guards, ∃ p, (p, .guarded (.present e)) ∈ x.around := by
  induction guards with
  | nil => exact fun h => ⟨_, h, rfl, by simp⟩
  | cons e guards ih =>
    intro c h
    have h := (Block.mem_constructions_around.mp h).resolve_left List.not_mem_nil
    obtain ⟨c', hx, hbindings, hguards⟩ := ih h
    have hmem : (c.previous, Opening.guarded (.present e)) ∈ x.around :=
      (Block.around_suffix h).subset List.mem_cons_self
    exact ⟨c', hx, hbindings, List.forall_mem_cons.mpr ⟨⟨_, hmem⟩, hguards⟩⟩

/-- A constructor stands within its guards and right behind its bindings. Whatever is below it is not
outermost. -/
theorem mem_constructions_construct {a : Arguments} {tag : Tag} {value : Option Expression}
    {body : Block} (hlets : ∀ c, a.lets.constructions c = [])
    (h : x ∈ (a.construct tag value body).constructions c) :
    (x.tag = tag ∧ x.value = value ∧ x.Passes a c.bindings) ∨
      ¬x.Outermost ∧ ∃ c', x ∈ body.constructions c' := by
  rw [Arguments.construct, Block.mem_constructions_append, hlets] at h
  obtain ⟨c', hx, hbindings, hguards⟩ :=
    mem_constructions_guarded (h.resolve_left List.not_mem_nil)
  rw [Site.bindings_past] at hbindings
  rcases Block.mem_constructions_around.mp hx with h | h
  · obtain rfl := List.mem_singleton.mp h
    exact .inl ⟨rfl, rfl, rfl, hbindings, hguards⟩
  · have hmem : (c'.previous, Opening.element tag a.values value) ∈ x.around :=
      (Block.around_suffix h).subset List.mem_cons_self
    exact .inr ⟨fun houtermost => houtermost _ hmem tag a.values value rfl, _, h⟩

end Emission

end Crosswalk
