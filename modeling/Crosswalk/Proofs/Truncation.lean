import Crosswalk.Proofs.Writing

/-!
Documents that end too early. A document is read from front to back, and every reader that comes to
the place where it breaks off reports that place, whatever it is in: only an end tag ends an element.
So from a document that breaks off within the document element nothing is read, and what is read from
any other depends on the events up to the end tag of that element alone.
-/

namespace Crosswalk

namespace Markup.Content

/-! ### Contents that break off -/

/-- Whether content reaches the end tag of its element, and that of every element in it. -/
def Complete : Content → Prop
  | .closed => True
  | .cut _ => False
  | .text _ rest => Complete rest
  | .element _ below rest => Complete below ∧ Complete rest

/-- Whether content is that of another up to where it breaks off. Behind an element that breaks off
there may be anything, as nothing there is read. -/
inductive BreaksOff (fault : Fault) : Content → Content → Prop where
  | cut (c : Content) : BreaksOff fault c (.cut fault)
  | text (s : String) {rest rest' : Content} (h : BreaksOff fault rest rest') :
      BreaksOff fault (.text s rest) (.text s rest')
  | within (head : Head) {below below' : Content} (rest rest' : Content)
      (h : BreaksOff fault below below') :
      BreaksOff fault (.element head below rest) (.element head below' rest')
  | after (head : Head) (below : Content) {rest rest' : Content} (h : BreaksOff fault rest rest') :
      BreaksOff fault (.element head below rest) (.element head below rest')

theorem complete_or_breaksOff (c : Content) : c.Complete ∨ ∃ fault, BreaksOff fault c c := by
  induction c with
  | closed => exact .inl trivial
  | cut fault => exact .inr ⟨fault, .cut _⟩
  | text s rest ih => exact ih.imp id (Exists.imp fun _ => .text s)
  | element head below rest hbelow hrest =>
    rcases hbelow with hbelow | ⟨fault, h⟩
    · exact hrest.imp (And.intro hbelow) (Exists.imp fun _ => .after head below)
    · exact .inr ⟨fault, .within head rest rest h⟩

/-! ### Events of a content -/

/-- The content of the element that is open ahead of some events. -/
def inside (es : List Event) : Content := (ofEvents es).headD (.cut .ended)

/-- The content that follows the element that is open ahead of some events. -/
def behind (es : List Event) : Content := (ofEvents es).tail.headD (.cut .ended)

variable {es : List Event} {c : Content} {h : Head}

theorem ofEvents_text {s : String} :
    ofEvents (.text s :: es) = .text s (inside es) :: (ofEvents es).tail := by
  rw [ofEvents, inside]
  cases ofEvents es <;> rfl

theorem ofEvents_empty :
    ofEvents (.empty h :: es) = .element h .closed (inside es) :: (ofEvents es).tail := by
  rw [ofEvents, inside]
  cases ofEvents es <;> rfl

theorem ofEvents_opening :
    ofEvents (.opening h :: es) =
      .element h (inside es) (behind es) :: (ofEvents es).tail.tail := by
  rw [ofEvents, inside, behind]
  rcases ofEvents es with _ | ⟨below, _ | ⟨rest, outer⟩⟩ <;> rfl

theorem inside_text {s : String} : inside (.text s :: es) = .text s (inside es) := by
  rw [inside, ofEvents_text, List.headD_cons]

theorem inside_empty : inside (.empty h :: es) = .element h .closed (inside es) := by
  rw [inside, ofEvents_empty, List.headD_cons]

theorem inside_opening :
    inside (.opening h :: es) = .element h (inside es) (behind es) := by
  rw [inside, ofEvents_opening, List.headD_cons]

/-- Whether some events make up some content, the last of them the end tag of its element. -/
inductive MakeUp : List Event → Content → Prop where
  | closing : MakeUp [.closing] .closed
  | aside {es : List Event} {c : Content} (h : MakeUp es c) : MakeUp (.aside :: es) c
  | text (s : String) {es : List Event} {rest : Content} (h : MakeUp es rest) :
      MakeUp (.text s :: es) (.text s rest)
  | empty (head : Head) {es : List Event} {rest : Content} (h : MakeUp es rest) :
      MakeUp (.empty head :: es) (.element head .closed rest)
  | opening (head : Head) {es es' : List Event} {below rest : Content} (hbelow : MakeUp es below)
      (hrest : MakeUp es' rest) : MakeUp (.opening head :: (es ++ es')) (.element head below rest)

/-- The events of a content leave those that follow to what is around. -/
theorem MakeUp.ofEvents_append (h : MakeUp es c) : ∀ {after : List Event},
    ofEvents (es ++ after) = c :: ofEvents after := by
  induction h with
  | closing => exact rfl
  | aside _ ih => exact ih
  | text s _ ih =>
    intro after
    rw [List.cons_append, ofEvents_text, inside, ih, List.headD_cons, List.tail_cons]
  | empty head _ ih =>
    intro after
    rw [List.cons_append, ofEvents_empty, inside, ih, List.headD_cons, List.tail_cons]
  | opening head _ _ hbelow hrest =>
    intro after
    rw [List.cons_append, List.append_assoc, ofEvents_opening, inside, behind, hbelow,
      List.headD_cons, List.tail_cons, hrest, List.headD_cons, List.tail_cons]

theorem MakeUp.inside_append {after : List Event} (h : MakeUp es c) : inside (es ++ after) = c := by
  rw [inside, h.ofEvents_append, List.headD_cons]

theorem MakeUp.behind_append {after : List Event} (h : MakeUp es c) :
    behind (es ++ after) = inside after := by
  rw [behind, h.ofEvents_append, List.tail_cons, inside]

/-- Complete content is made up of the first events. -/
theorem exists_makeUp : ∀ {es : List Event}, (inside es).Complete →
    ∃ own after, es = own ++ after ∧ MakeUp own (inside es)
  | [], h => h.elim
  | .malformed :: _, h => h.elim
  | .closing :: es, _ => ⟨[.closing], es, rfl, .closing⟩
  | .aside :: es, h => by
    obtain ⟨own, after, rfl, hown⟩ : ∃ own after, es = own ++ after ∧ MakeUp own (inside es) :=
      exists_makeUp h
    exact ⟨.aside :: own, after, rfl, hown.aside⟩
  | .text s :: es, h => by
    rw [inside_text] at h ⊢
    obtain ⟨own, after, rfl, hown⟩ := exists_makeUp h
    exact ⟨.text s :: own, after, rfl, hown.text s⟩
  | .empty head :: es, h => by
    rw [inside_empty] at h ⊢
    obtain ⟨own, after, rfl, hown⟩ := exists_makeUp h.2
    exact ⟨.empty head :: own, after, rfl, hown.empty head⟩
  | .opening head :: es, h => by
    rw [inside_opening] at h ⊢
    obtain ⟨own, after, rfl, hown⟩ := exists_makeUp h.1
    -- what is below takes up its own events, so the rest begins behind them
    rw [hown.behind_append] at h ⊢
    obtain ⟨own', after', rfl, hown'⟩ := exists_makeUp h.2
    exact ⟨.opening head :: (own ++ own'), after', by simp, .opening head hown hown'⟩
  termination_by es => es.length

/-- Content of which the last events are missing breaks off, and closes no element around. -/
theorem MakeUp.breaksOff_take (h : MakeUp es c) : ∀ {j : Nat}, j < es.length →
    BreaksOff .ended c (inside (es.take j)) ∧ (ofEvents (es.take j)).tail = [] := by
  induction h with
  | closing =>
    intro j hj
    obtain rfl : j = 0 := by simpa using hj
    exact ⟨.cut _, rfl⟩
  | aside _ ih =>
    intro j hj
    cases j with
    | zero => exact ⟨.cut _, rfl⟩
    | succ j => exact ih (Nat.lt_of_succ_lt_succ hj)
  | text s _ ih =>
    intro j hj
    cases j with
    | zero => exact ⟨.cut _, rfl⟩
    | succ j =>
      obtain ⟨hrest, hnone⟩ := ih (Nat.lt_of_succ_lt_succ hj)
      rw [List.take_succ_cons, inside_text, ofEvents_text]
      exact ⟨.text s hrest, hnone⟩
  | empty head _ ih =>
    intro j hj
    cases j with
    | zero => exact ⟨.cut _, rfl⟩
    | succ j =>
      obtain ⟨hrest, hnone⟩ := ih (Nat.lt_of_succ_lt_succ hj)
      rw [List.take_succ_cons, inside_empty, ofEvents_empty]
      exact ⟨.after head .closed hrest, hnone⟩
  | @opening head es es' below rest hbelow _ ihbelow ihrest =>
    intro j hj
    cases j with
    | zero => exact ⟨.cut _, rfl⟩
    | succ j =>
      rw [List.length_cons, List.length_append] at hj
      rw [List.take_succ_cons, inside_opening, ofEvents_opening, behind]
      rcases Nat.lt_or_ge j es.length with hlt | hge
      · obtain ⟨hb, hnone⟩ := ihbelow hlt
        rw [List.take_append_of_le_length (Nat.le_of_lt hlt), hnone]
        exact ⟨.within head rest _ hb, rfl⟩
      · obtain ⟨hr, hnone⟩ := ihrest (j := j - es.length) (by omega)
        rw [List.take_append, List.take_of_length_le hge, hbelow.inside_append,
          hbelow.ofEvents_append]
        exact ⟨.after head below hr, hnone⟩

end Markup.Content

/-! ### Readers -/

namespace Reading

open Markup (Fault Head)
open Markup.Content

/-- Whether a reader that accepts some content reports why it breaks off where it does. -/
structure Detects {α : Type} (f : Markup.Content → Except SchemaError α) : Prop where
  fails : ∀ {fault : Fault} {c c' : Markup.Content} {a : α}, f c = .ok a → BreaksOff fault c c' →
    f c' = .error (faultError fault)

namespace Detects

variable {α β : Type} {f : Markup.Content → Except SchemaError α}

/-- Accepted content is complete. -/
theorem complete (hf : Detects f) {c : Markup.Content} {a : α} (h : f c = .ok a) : c.Complete := by
  refine (complete_or_breaksOff c).resolve_right ?_
  rintro ⟨fault, hc⟩
  rw [hf.fails h hc] at h
  cases h

/-- Checks of the start tag go ahead. -/
theorem ahead {x : Except SchemaError β} {f : β → Markup.Content → Except SchemaError α}
    (hf : ∀ b, Detects (f b)) : Detects fun c => x >>= fun b => f b c := by
  refine ⟨fun h hc => ?_⟩
  obtain ⟨b, rfl, h⟩ := bind_eq_ok_iff.mp h
  exact (hf b).fails h hc

theorem behind (hf : Detects f) {g : α → Except SchemaError β} : Detects fun c => f c >>= g := by
  refine ⟨fun h hc => ?_⟩
  obtain ⟨a, ha, -⟩ := bind_eq_ok_iff.mp h
  exact bind_eq_error_iff.mpr (.inl (hf.fails ha hc))

theorem map (hf : Detects f) {g : α → β} : Detects fun c => g <$> f c := by
  refine ⟨fun h hc => ?_⟩
  obtain ⟨a, ha, -⟩ := map_eq_ok_iff.mp h
  rw [hf.fails ha hc]
  rfl

theorem error {e : SchemaError} : Detects fun _ => (.error e : Except SchemaError α) :=
  ⟨nofun⟩

theorem ite {p : Prop} [Decidable p] {g : Markup.Content → Except SchemaError α} (hf : Detects f)
    (hg : Detects g) : Detects fun c => if p then f c else g c := by
  split
  · exact hf
  · exact hg

end Detects

variable {h : Head}

theorem detects_noElements {parent : String} : Detects (noElements parent) := by
  refine ⟨fun {fault c c' a} hc hbreak => ?_⟩
  induction hbreak with
  | cut c => rfl
  | text s _ ih => exact ih hc
  | within | after => cases hc

theorem detects_allText {parent : String} : Detects (allText parent) := by
  refine ⟨fun {fault c c' a} hc hbreak => ?_⟩
  induction hbreak generalizing a with
  | cut c => rfl
  | text s _ ih =>
    obtain ⟨t, ht, -⟩ := map_eq_ok_iff.mp hc
    rw [allText, ih ht]
    rfl
  | within | after => cases hc

theorem detects_mapElements {α : Type} {f : Head → Markup.Content → Except SchemaError α}
    (hf : ∀ h, Detects (f h)) : Detects (mapElements f) := by
  refine ⟨fun {fault c c' as} hc hbreak => ?_⟩
  induction hbreak generalizing as with
  | cut c => rfl
  | text s _ ih => exact ih hc
  | within head rest rest' hbelow _ =>
    obtain ⟨a, ha, -⟩ := bind_eq_ok_iff.mp hc
    exact bind_eq_error_iff.mpr (.inl ((hf head).fails ha hbelow))
  | after head below _ ih =>
    obtain ⟨a, ha, hc⟩ := bind_eq_ok_iff.mp hc
    obtain ⟨others, hothers, -⟩ := bind_eq_ok_iff.mp hc
    refine bind_eq_error_iff.mpr (.inr ⟨a, ha, ?_⟩)
    exact bind_eq_error_iff.mpr (.inl (ih hothers))

theorem detects_mapNamed {α : Type} {parent name : String}
    {f : Head → Markup.Content → Except SchemaError α} (hf : ∀ h, Detects (f h)) :
    Detects (mapNamed parent name f) :=
  detects_mapElements fun h => (hf h).ite .error

theorem detects_attributeDoc : Detects attributeDoc :=
  (detects_mapNamed fun _ => detects_allText).behind

theorem detects_attributeDecl : Detects (attributeDecl h) :=
  .ahead fun _ => .ahead fun _ => .behind detects_attributeDoc

theorem detects_choice : Detects (choice h) :=
  .ahead fun _ => .ahead fun _ => .behind detects_noElements

theorem detects_vocabulary : Detects (vocabulary h) :=
  .ahead fun _ => .ahead fun _ => .ahead fun _ => .ahead fun _ => .ahead fun _ => .ahead fun _ =>
    .behind (detects_mapNamed fun _ => detects_choice)

theorem detects_reference {kind : DefinitionKind} : Detects (reference kind h) :=
  .ahead fun _ => .behind detects_noElements

theorem detects_simpleEntry {parent : String} {inElement : Bool} :
    Detects (simpleEntry parent inElement h) := by
  refine .ite (.map detects_attributeDecl) <| .ite (.map detects_allText) <|
    .ite (.map detects_vocabulary) ?_
  cases groupKind? h.name with
  | some kind => exact detects_reference
  | none => exact .error

theorem detects_entries {parent : String} {inElement : Bool} :
    Detects (entries parent inElement) := by
  refine ⟨fun {fault c c' as} hc hbreak => ?_⟩
  induction hbreak generalizing parent inElement as with
  | cut c => rfl
  | text s _ ih => exact ih hc
  | within head rest rest' hbelow ih =>
    rw [entries] at hc ⊢
    split at hc
    · next helem =>
      obtain ⟨e, he, hc⟩ := bind_eq_ok_iff.mp hc
      obtain ⟨inner, hinner, -⟩ := bind_eq_ok_iff.mp hc
      rw [if_pos helem]
      refine bind_eq_error_iff.mpr (.inr ⟨e, he, ?_⟩)
      exact bind_eq_error_iff.mpr (.inl (ih hinner))
    · next helem =>
      obtain ⟨entry, hentry, -⟩ := bind_eq_ok_iff.mp hc
      rw [if_neg helem]
      exact bind_eq_error_iff.mpr (.inl (detects_simpleEntry.fails hentry hbelow))
  | after head below _ ih =>
    rw [entries] at hc ⊢
    split at hc
    · next helem =>
      obtain ⟨e, he, hc⟩ := bind_eq_ok_iff.mp hc
      obtain ⟨inner, hinner, hc⟩ := bind_eq_ok_iff.mp hc
      obtain ⟨others, hothers, -⟩ := bind_eq_ok_iff.mp hc
      rw [if_pos helem]
      refine bind_eq_error_iff.mpr (.inr ⟨e, he, ?_⟩)
      refine bind_eq_error_iff.mpr (.inr ⟨inner, hinner, ?_⟩)
      exact bind_eq_error_iff.mpr (.inl (ih hothers))
    · next helem =>
      obtain ⟨entry, hentry, hc⟩ := bind_eq_ok_iff.mp hc
      obtain ⟨others, hothers, -⟩ := bind_eq_ok_iff.mp hc
      rw [if_neg helem]
      refine bind_eq_error_iff.mpr (.inr ⟨entry, hentry, ?_⟩)
      exact bind_eq_error_iff.mpr (.inl (ih hothers))

theorem detects_namespaceDecl : Detects (namespaceDecl h) :=
  .ahead fun _ => .ahead fun _ => .behind detects_noElements

theorem detects_fieldMarker : Detects (fieldMarker h) :=
  .ahead fun _ => .ahead fun _ => .behind detects_noElements

theorem detects_assertion : Detects (assertion h) :=
  .ahead fun _ => .behind detects_allText

theorem detects_definition {kind : DefinitionKind} : Detects (definition kind h) :=
  .ahead fun _ => .behind detects_entries

theorem detects_rootElement : Detects (rootElement h) :=
  .ahead fun _ => .behind detects_entries

theorem detects_part : Detects (part h) := by
  refine ⟨fun {fault c c' s} hc hbreak => ?_⟩
  rw [part.eq_def] at hc ⊢
  split at hc
  case h_1 => exact (Detects.map (detects_mapNamed fun _ => detects_namespaceDecl)).fails hc hbreak
  case h_2 | h_3 | h_4 => exact (Detects.map detects_definition).fails hc hbreak
  case h_5 => exact detects_rootElement.fails hc hbreak
  case h_6 => exact (Detects.map (detects_mapNamed fun _ => detects_fieldMarker)).fails hc hbreak
  case h_7 => exact (Detects.map (detects_mapNamed fun _ => detects_assertion)).fails hc hbreak
  case h_8 => cases hc

theorem detects_recordDefinition : Detects (recordDefinition h) :=
  .ahead fun _ => .behind (detects_mapElements fun _ => detects_part)

end Reading

/-! ### Documents -/

namespace Markup

/-- The number of events up to the end tag of the outermost of some open elements. -/
def consumedWithin : Nat → List Event → Nat
  | 0, _ | _, [] => 0
  | depth + 1, .opening _ :: es => consumedWithin (depth + 2) es + 1
  | depth + 1, .closing :: es => consumedWithin depth es + 1
  | depth + 1, _ :: es => consumedWithin (depth + 1) es + 1

/-- The number of events up to the end of the first element, with all that is ahead of it. -/
def consumed : List Event → Nat
  | [] => 0
  | .opening _ :: es => consumedWithin 1 es + 1
  | .empty _ :: _ => 1
  | _ :: es => consumed es + 1

theorem Content.MakeUp.consumedWithin_append {es : List Event} {c : Content} (h : MakeUp es c) :
    ∀ {depth : Nat} {after : List Event},
      consumedWithin (depth + 1) (es ++ after) = es.length + consumedWithin depth after := by
  induction h with
  | closing =>
    intro depth after
    rw [List.singleton_append, consumedWithin, List.length_singleton, Nat.add_comm]
  | aside _ ih | text _ _ ih | empty _ _ ih =>
    intro depth after
    rw [List.cons_append, consumedWithin, ih, List.length_cons]
    · omega
    all_goals nofun
  | opening head _ _ hbelow hrest =>
    intro depth after
    rw [List.cons_append, List.append_assoc, consumedWithin, hbelow, hrest, List.length_cons,
      List.length_append]
    omega

end Markup

namespace Declaration

open Markup (Event Head consumed consumedWithin)
open Markup.Content

theorem ofEvents_opening {h : Head} {es : List Event} :
    ofEvents (.opening h :: es) =
      if h.name = "record-definition" then Reading.recordDefinition h (inside es)
      else .error (Reading.unexpected "document" h) := by
  rw [ofEvents, document_opening, ← inside, inside_opening, Reading.document]

theorem ofEvents_empty {h : Head} {es : List Event} :
    ofEvents (.empty h :: es) =
      if h.name = "record-definition" then Reading.recordDefinition h .closed
      else .error (Reading.unexpected "document" h) := by
  rw [ofEvents, document_empty, ← inside, inside_empty, Reading.document]

/-- What is read from a document is read from the events up to the end of its element, whatever
follows them. If any of these events is missing the document is refused for its end. -/
theorem ofEvents_truncated {es : List Event} {d : Declaration} (hd : ofEvents es = .ok d) :
    consumed es ≤ es.length ∧
      (∀ after, ofEvents (es.take (consumed es) ++ after) = .ok d) ∧
      ∀ j < consumed es, ofEvents (es.take j) = .error .unexpectedEnd := by
  induction es with
  | nil => cases hd
  | cons e es ih =>
    cases e with
    | malformed => cases hd
    | closing | text s | aside =>
      obtain ⟨hlength, hread, hcut⟩ := ih hd
      refine ⟨Nat.succ_le_succ hlength, hread, fun j hj => ?_⟩
      cases j with
      | zero => rfl
      | succ j => exact hcut j (Nat.lt_of_succ_lt_succ hj)
    | empty h =>
      refine ⟨Nat.succ_le_succ (Nat.zero_le _), fun after => ?_, fun j hj => ?_⟩
      · rw [ofEvents_empty] at hd
        rw [consumed, List.take_succ_cons, List.cons_append, ofEvents_empty]
        exact hd
      · obtain rfl : j = 0 := Nat.lt_one_iff.mp hj
        rfl
    | opening h =>
      rw [ofEvents_opening] at hd
      split at hd
      · next hname =>
        have hcomplete := Reading.detects_recordDefinition.complete hd
        obtain ⟨own, others, hes, hown⟩ := exists_makeUp hcomplete
        generalize inside es = c at hd hown
        subst hes
        have hconsumed : consumed (.opening h :: (own ++ others)) = own.length + 1 := by
          rw [consumed, hown.consumedWithin_append, consumedWithin, Nat.add_zero]
        rw [hconsumed]
        refine ⟨?_, fun after => ?_, fun j hj => ?_⟩
        · rw [List.length_cons, List.length_append]
          omega
        · rw [List.take_succ_cons, List.take_left, List.cons_append, ofEvents_opening, if_pos hname,
            hown.inside_append]
          exact hd
        · cases j with
          | zero => rfl
          | succ j =>
            have hj : j < own.length := Nat.lt_of_succ_lt_succ hj
            rw [List.take_succ_cons, List.take_append_of_le_length (Nat.le_of_lt hj),
              ofEvents_opening, if_pos hname]
            exact Reading.detects_recordDefinition.fails hd (hown.breaksOff_take hj).1
      · cases hd

end Declaration

open Declaration in
/-- The document of titles and creators behind a comment, ahead of something not well-formed. -/
theorem demoDeclaration_truncated :
    let es := .aside :: .text "\n" :: demoDeclaration.document.events ++ [.malformed]
    ofEvents es = .ok demoDeclaration ∧ Markup.consumed es = 40 ∧
      ofEvents (es.take 40) = .ok demoDeclaration ∧
      ∀ j < 40, ofEvents (es.take j) = .error .unexpectedEnd := by
  intro es
  have hread : ofEvents es = .ok demoDeclaration := by decide +kernel
  have hconsumed : Markup.consumed es = 40 := by decide +kernel
  obtain ⟨-, hprefix, hcut⟩ := ofEvents_truncated hread
  rw [hconsumed] at hprefix hcut
  exact ⟨hread, hconsumed, by simpa using hprefix [], hcut⟩

end Crosswalk
