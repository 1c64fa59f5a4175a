import Crosswalk.Program.Script
import Crosswalk.Proofs.Context
import Crosswalk.Proofs.Marks
import Crosswalk.Proofs.Text

/-!
Layout of printed programs. A block of one-line names is printed on lines, and at a depth its lines
are those of depth zero moved inwards; so what is captured of a mapping is the same text at whatever
depth it stands.
-/

namespace Crosswalk

open Text

/-! ### One-line texts -/

/-- A property of texts that putting two together keeps is that of a navigation if it is that of its
base and of all names. -/
theorem Expression.navText_of_append {P : String → Prop}
    (happend : ∀ {s t}, P s → P t → P (s ++ t)) (hdot : P ".") (hname : ∀ s, P (identifier s))
    {base : String} (hbase : P base) {ts : List Tag} : P (navText base ts) := by
  induction ts generalizing base with
  | nil => exact hbase
  | cons t ts ih =>
    rw [navText]
    exact ih (happend (happend hbase hdot) (hname _))

theorem Expression.oneLine_navText {base : String} (hbase : OneLine base) {ts : List Tag} :
    OneLine (navText base ts) :=
  navText_of_append (P := OneLine) OneLine.append (by decide) oneLine_identifier hbase

mutual

/-- An expression of one-line names is written on one line. -/
theorem Expression.oneLine_text : ∀ {e : Expression}, (∀ x ∈ e.variables, OneLine x) →
    (∀ f ∈ e.calls, OneLine f) → OneLine e.text
  | .var _, hvars, _ => by
    rw [text]
    exact hvars _ List.mem_cons_self
  | .literal s, _, _ => by
    rw [text]
    exact oneLine_quote s
  | .nav _ _, hvars, _ => by
    rw [text]
    exact oneLine_navText (hvars _ List.mem_cons_self)
  | .joined e delimiter, hvars, hcalls => by
    have htext : OneLine e.text := oneLine_text hvars hcalls
    rw [text]
    exact ((htext.append (by decide)).append (oneLine_quote delimiter)).append (by decide)
  | .first e, hvars, hcalls => by
    have htext : OneLine e.text := oneLine_text hvars hcalls
    rw [text]
    exact htext.append (by decide)
  | .call _ args, hvars, hcalls => by
    have hargs : ∀ s ∈ textsOf args, OneLine s :=
      oneLine_textsOf hvars fun f hf => hcalls f (List.mem_cons_of_mem _ hf)
    have hhead := (hcalls _ List.mem_cons_self).append (by decide : OneLine "(")
    rw [text]
    exact (hhead.append (oneLine_joinWith (by decide) hargs)).append (by decide)
  | .mapJoin _ keys, hvars, _ => by
    have hkeys : ∀ s ∈ keys.map fun t => quote t.sourceName, OneLine s := by
      intro s hs
      obtain ⟨t, -, rfl⟩ := List.mem_map.mp hs
      exact oneLine_quote _
    have hhead := (by decide : OneLine "mapJoin(").append (hvars _ List.mem_cons_self)
    rw [text]
    have hjoined := oneLine_joinWith (by decide : OneLine ", ") hkeys
    exact ((hhead.append (by decide)).append hjoined).append (by decide)
  | .alternatives es, hvars, hcalls => by
    have htexts : ∀ s ∈ textsOf es, OneLine s := oneLine_textsOf hvars hcalls
    rw [text]
    exact oneLine_joinWith (by decide) htexts

theorem Expression.oneLine_textsOf : ∀ {es : List Expression},
    (∀ x ∈ variablesOfAll es, OneLine x) → (∀ f ∈ callsOfAll es, OneLine f) →
      ∀ s ∈ textsOf es, OneLine s
  | _ :: _, hvars, hcalls, s, hs => by
    rcases List.mem_cons.mp hs with rfl | hs
    · exact oneLine_text (fun x hx => hvars x (List.mem_append_left _ hx))
        fun f hf => hcalls f (List.mem_append_left _ hf)
    · exact oneLine_textsOf (fun x hx => hvars x (List.mem_append_right _ hx))
        (fun f hf => hcalls f (List.mem_append_right _ hf)) s hs

end

namespace Script

theorem oneLine_ofList {cs : List Char} {s : String} (hs : OneLine s) (hsub : cs ⊆ s.toList) :
    OneLine (String.ofList cs) := by
  rw [OneLine]
  rw [String.toList_ofList]
  exact fun h => hs (hsub h)

theorem oneLine_rtrim {s : String} (h : OneLine s) : OneLine (rtrim s) :=
  oneLine_ofList h fun _ hc => mem_of_mem_dropEnd hc

theorem oneLine_trim {s : String} (h : OneLine s) : OneLine (trim s) :=
  oneLine_ofList h fun _ hc => mem_of_mem_strip hc

/-- A statement of one-line names with nothing inside is printed line by line. -/
theorem oneLine_simpleLines {s : Simple} (h : ∀ x ∈ s.variables ++ s.ownNames, OneLine x)
    (depth : Nat) : ∀ l ∈ simpleLines depth s, OneLine l.text := by
  intro l hl
  cases s with
  | comment s =>
    obtain ⟨line, hline, rfl⟩ := List.mem_map.mp hl
    exact oneLine_rtrim (OneLine.append (by decide) (oneLine_of_mem_linesOf hline))
  | namespaceDecl qualifier uri =>
    rw [List.mem_singleton.mp hl]
    have hhead := (by decide : OneLine "namespace(").append (oneLine_quote qualifier)
    exact ((hhead.append (by decide)).append (oneLine_quote uri)).append (by decide)
  | table name entries =>
    have hhead := (by decide : OneLine "def ").append (h name List.mem_cons_self)
    rw [simpleLines, tableLines] at hl
    split at hl
    · rw [List.mem_singleton.mp hl]
      exact hhead.append (by decide)
    · simp only [List.cons_append, List.mem_cons, List.mem_append, List.not_mem_nil, or_false] at hl
      rcases hl with rfl | hl | rfl
      · exact hhead.append (by decide)
      · obtain ⟨e, -, rfl⟩ := List.mem_map.mp hl
        have hentry := ((oneLine_quote e.1).append (by decide : OneLine ": ")).append
          (oneLine_quote e.2)
        exact hentry.append (by decide)
      · exact (by decide : OneLine "]")
  | lookup name table =>
    have hname := (by decide : OneLine "def ").append (h name List.mem_cons_self)
    have htable := (by decide : OneLine "def translated = ").append
      (h table (List.mem_cons_of_mem _ List.mem_cons_self))
    simp only [simpleLines, List.mem_cons, List.not_mem_nil, or_false] at hl
    rcases hl with rfl | rfl | rfl | rfl
    · exact hname.append (by decide)
    · exact htable.append (by decide)
    · exact (by decide : OneLine "translated ? translated : ''")
    · exact (by decide : OneLine "\x7d")
  | define var value =>
    have hvar := (by decide : OneLine "def ").append
      (h var (List.mem_append_right _ List.mem_cons_self))
    have hvalue : OneLine value.text :=
      Expression.oneLine_text (fun x hx => h x (List.mem_append_left _ hx))
        fun f hf => h f (List.mem_append_right _ (List.mem_cons_of_mem _ hf))
    rw [List.mem_singleton.mp hl]
    exact (hvar.append (by decide)).append hvalue
  | code s =>
    obtain ⟨line, hline, rfl⟩ := List.mem_map.mp hl
    exact oneLine_rtrim (oneLine_of_mem_linesOf hline)
  | assertion path condition =>
    have hhead := (by decide : OneLine "assertion(").append (oneLine_quote path.text)
    simp only [simpleLines, List.cons_append, List.mem_cons, List.mem_append, List.not_mem_nil,
      or_false] at hl
    rcases hl with rfl | hl | rfl
    · exact hhead.append (by decide)
    · obtain ⟨line, hline, rfl⟩ := List.mem_map.mp hl
      exact oneLine_trim (oneLine_of_mem_linesOf hline)
    · exact (by decide : OneLine "\x7d")

theorem oneLine_argumentText {attributes : List (Tag × Expression)} {value : Option Expression}
    (h : ∀ e ∈ attributes.map Prod.snd ++ value.toList, OneLine e.text) :
    OneLine (argumentText attributes value) := by
  refine oneLine_joinWith (by decide) fun s hs => ?_
  rcases List.mem_append.mp hs with hs | hs
  · obtain ⟨a, ha, rfl⟩ := List.mem_map.mp hs
    exact ((oneLine_identifier _).append (by decide)).append
      (h a.2 (List.mem_append_left _ (List.mem_map_of_mem ha)))
  · obtain ⟨e, he, rfl⟩ := List.mem_map.mp hs
    exact h e (List.mem_append_right _ he)

theorem oneLine_elementText {tag : Tag} {args : String} (h : OneLine args) (isEmpty : Bool) :
    OneLine (elementText tag args isEmpty) := by
  have hname := oneLine_identifier tag.qname
  unfold elementText
  split
  · exact ((hname.append (by decide)).append h).append (by decide)
  · exact hname.append (by decide)
  · exact ((hname.append (by decide)).append h).append (by decide)

/-- The names of the head of a statement. -/
abbrev headNames (o : Opening) : List String := o.variables ++ o.binder?.toList ++ o.ownNames

theorem oneLine_element {tag : Tag} {attributes : List (Tag × Expression)}
    {value : Option Expression} (h : ∀ x ∈ headNames (.element tag attributes value), OneLine x)
    (isEmpty : Bool) : OneLine (elementText tag (argumentText attributes value) isEmpty) := by
  refine oneLine_elementText (oneLine_argumentText fun e he => ?_) isEmpty
  have he := List.mem_append.mp he
  refine Expression.oneLine_text (fun x hx => h x ?_) fun f hf => h f ?_
  · have hreads : x ∈ (Opening.element tag attributes value).variables :=
      List.mem_append.mpr (he.imp (fun he => Expression.mem_variablesOfAll.mpr ⟨e, he, hx⟩)
        fun he => Expression.mem_variablesOfAll.mpr ⟨e, he, hx⟩)
    simp [headNames, hreads]
  · have hcalls : f ∈ (Opening.element tag attributes value).calls :=
      List.mem_append.mpr (he.imp (fun he => Expression.mem_callsOfAll.mpr ⟨e, he, hf⟩)
        fun he => Expression.mem_callsOfAll.mpr ⟨e, he, hf⟩)
    simp [headNames, Opening.ownNames, hcalls]

theorem oneLine_headText {o : Opening} (h : ∀ x ∈ headNames o, OneLine x) :
    OneLine (headText o) := by
  cases o with
  | loop var source first =>
    have hsource : OneLine source.text :=
      Expression.oneLine_text (fun x hx => h x (by simp [headNames, Opening.variables, hx]))
        fun f hf => h f (by simp [headNames, Opening.ownNames, Opening.calls, hf])
    have hvar : OneLine var := h var (by simp [headNames, Opening.binder?])
    have hfirst : OneLine (if first then "[0]" else "") := by cases first <;> decide
    exact (((hsource.append hfirst).append (by decide)).append hvar).append (by decide)
  | bind var value =>
    have hvalue : OneLine value.text :=
      Expression.oneLine_text (fun x hx => h x (by simp [headNames, Opening.variables, hx]))
        fun f hf => h f (by simp [headNames, Opening.ownNames, Opening.calls, hf])
    have hvar : OneLine var := h var (by simp [headNames, Opening.binder?])
    have hhead := (by decide : OneLine "ifPresent(").append hvalue
    exact ((hhead.append (by decide)).append hvar).append (by decide)
  | compute var param arg =>
    have hvar : OneLine var := h var (by simp [headNames, Opening.ownNames])
    have hparam : OneLine param := h param (by simp [headNames, Opening.binder?])
    have hhead := (by decide : OneLine "def ").append hvar
    exact ((hhead.append (by decide)).append hparam).append (by decide)
  | guarded condition =>
    have hcondition : OneLine condition.text := by
      cases condition with
      | present e =>
        refine Expression.oneLine_text (fun x hx => h x ?_) fun f hf => h f ?_
        · simp [headNames, Opening.variables, Condition.variables, hx]
        · simp [headNames, Opening.ownNames, Opening.calls, Condition.calls, hf]
      | absent t =>
        exact ((by decide : OneLine "absent(").append (oneLine_quote t.qname)).append (by decide)
    have hhead := (by decide : OneLine "if (").append hcondition
    exact hhead.append (by decide)
  | element tag attributes value => exact oneLine_element h false
  | mapping => exact (by decide : OneLine "")

theorem oneLine_tailText {o : Opening} (h : ∀ x ∈ headNames o, OneLine x) :
    OneLine (tailText o) := by
  cases o with
  | compute var param arg =>
    have harg : OneLine arg.text :=
      Expression.oneLine_text (fun x hx => h x (by simp [headNames, Opening.variables, hx]))
        fun f hf => h f (by simp [headNames, Opening.ownNames, hf])
    exact ((by decide : OneLine "\x7d(").append harg).append (by decide)
  | _ => exact (by decide : OneLine "\x7d")

/-- What holds of each line of a statement, if the names of the statement are of some kind, holds of
each line of a block of such names. -/
theorem forall_blockLines {P Q : String → Prop}
    (hsimple : ∀ s : Simple, (∀ x ∈ s.variables ++ s.ownNames, Q x) → ∀ depth,
      ∀ l ∈ simpleLines depth s, P l.text)
    (helement : ∀ tag attributes value, (∀ x ∈ headNames (.element tag attributes value), Q x) →
      P (elementText tag (argumentText attributes value) true))
    (hhead : ∀ o, (∀ x ∈ headNames o, Q x) → P (headText o))
    (htail : ∀ o, (∀ x ∈ headNames o, Q x) → P (tailText o))
    {b : Block} (h : ∀ x ∈ b.names, Q x) :
    ∀ {depth : Nat}, ∀ l ∈ blockLines depth b, P l.text := by
  induction b with
  | nil => intro depth l hl; cases hl
  | simple s rest ih =>
    intro depth l hl
    rcases List.mem_append.mp hl with hl | hl
    · exact hsimple s (fun x hx => h x (List.mem_append_left _ hx)) depth l hl
    · exact ih (fun x hx => h x (List.mem_append_right _ hx)) l hl
  | nested o body rest hbody hrest =>
    have ho : ∀ x ∈ headNames o, Q x := fun x hx =>
      h x (List.mem_append_left _ (List.mem_append_left _ hx))
    have hinside : ∀ {depth : Nat}, ∀ l ∈ blockLines depth body, P l.text :=
      hbody fun x hx => h x (List.mem_append_left _ (List.mem_append_right _ hx))
    intro depth l hl
    rcases List.mem_append.mp hl with hl | hl
    · unfold nestedLines at hl
      split at hl
      · exact hinside l hl
      · rw [List.mem_singleton.mp hl]
        exact helement _ _ _ ho
      · simp only [List.cons_append, List.mem_cons, List.mem_append, List.not_mem_nil,
          or_false] at hl
        rcases hl with rfl | hl | rfl
        · exact hhead _ ho
        · exact hinside l hl
        · exact htail _ ho
    · exact hrest (fun x hx => h x (List.mem_append_right _ hx)) l hl

/-- A block of one-line names is printed line by line. -/
theorem oneLine_blockLines {b : Block} (h : ∀ x ∈ b.names, OneLine x) :
    ∀ {depth : Nat}, ∀ l ∈ blockLines depth b, OneLine l.text :=
  forall_blockLines (fun _ => oneLine_simpleLines) (fun _ _ _ ho => oneLine_element ho true)
    (fun _ => oneLine_headText) (fun _ => oneLine_tailText) h

/-! ### Depth -/

/-- A line some levels further in. -/
def shift (depth : Nat) (l : ScriptLine) : ScriptLine := ⟨depth + l.depth, l.text⟩

theorem shift_zero (l : ScriptLine) : shift 0 l = l := by
  simp [shift]

theorem shift_shift (i j : Nat) (l : ScriptLine) : shift i (shift j l) = shift (i + j) l := by
  simp [shift, Nat.add_assoc]

/-- The lines of a statement with nothing inside move with its depth. -/
theorem simpleLines_eq_map (depth : Nat) (s : Simple) :
    simpleLines depth s = (simpleLines 0 s).map (shift depth) := by
  cases s with
  | table name entries =>
    simp only [simpleLines, tableLines]
    split <;> simp [shift, Function.comp_def]
  | _ => simp [simpleLines, commentLines, shift, Function.comp_def]

/-- The lines of a block move with its depth. -/
theorem blockLines_eq_map {b : Block} : ∀ (depth : Nat),
    blockLines depth b = (blockLines 0 b).map (shift depth) := by
  induction b with
  | nil => intro depth; rfl
  | simple s rest ih =>
    intro depth
    rw [blockLines, blockLines, List.map_append, ← simpleLines_eq_map, ← ih]
  | nested o body rest hbody hrest =>
    intro depth
    have hinside : (blockLines 1 body).map (shift depth) = blockLines (depth + 1) body := by
      rw [hbody (depth + 1), hbody 1, List.map_map]
      exact List.map_congr_left fun l _ => shift_shift depth 1 l
    rw [blockLines, blockLines, List.map_append, ← hrest]
    congr 1
    unfold nestedLines
    split
    · exact hbody depth
    · simp [shift]
    · simp [shift, hinside]

/-! ### Printed lines -/

/-- A line without its line break. -/
def lineChars (unit : Nat) (l : ScriptLine) : List Char :=
  if l.text.isEmpty then [] else ScriptLine.indentation unit l.depth ++ l.text.toList

/-- What is left of a line that a line feed ends. -/
def endLine (cs : List Char) : List Char := if cs.getLast? = some '\r' then cs.dropLast else cs

theorem newline_notMem_lineChars {unit : Nat} {l : ScriptLine} (h : OneLine l.text) :
    '\n' ∉ lineChars unit l := by
  rw [lineChars]
  split
  · simp
  · rw [List.mem_append]
    rintro (hmem | hmem)
    · exact absurd (List.eq_of_mem_replicate hmem) (by decide)
    · exact h hmem

theorem endLines_concat {ps : List (List Char)} : endLines (ps ++ [[]]) = ps.map endLine := by
  induction ps with
  | nil => rfl
  | cons p ps ih =>
    cases ps with
    | nil => rfl
    | cons q ps => rw [List.cons_append, List.cons_append, endLines, ← List.cons_append, ih]; rfl

/-- The lines of a text are those that it was printed from. -/
theorem lines_charsOf {unit : Nat} {ls : List ScriptLine} (h : ∀ l ∈ ls, OneLine l.text) :
    lines (ScriptLine.charsOf unit ls) = ls.map fun l => endLine (lineChars unit l) := by
  have hpieces : pieces '\n' (ScriptLine.charsOf unit ls) = ls.map (lineChars unit) ++ [[]] := by
    induction ls with
    | nil => rfl
    | cons l ls ih =>
      have hline : ScriptLine.charsOf unit (l :: ls) =
          lineChars unit l ++ '\n' :: ScriptLine.charsOf unit ls := by
        simp [ScriptLine.charsOf, ScriptLine.chars, lineChars]
      rw [hline, pieces_append (newline_notMem_lineChars (h l List.mem_cons_self)),
        ih fun l hl => h l (List.mem_cons_of_mem _ hl)]
      rfl
  rw [lines, hpieces, endLines_concat, List.map_map]
  rfl

theorem endLine_append {as bs : List Char} (h : bs ≠ []) :
    endLine (as ++ bs) = as ++ endLine bs := by
  have hlast : (as ++ bs).getLast? = bs.getLast? := by
    rw [List.getLast?_append, List.getLast?_eq_some_getLast h, Option.some_or]
  unfold endLine
  rw [hlast]
  split
  · rw [List.dropLast_append_of_ne_nil h]
  · rfl

/-- Dropping the margin undoes moving a line inwards. -/
theorem dropMargin_lineChars (unit depth : Nat) (l : ScriptLine) :
    dropMargin (ScriptLine.indentation unit depth) (endLine (lineChars unit (shift depth l))) =
      endLine (lineChars unit l) := by
  unfold lineChars
  rw [shift]
  split
  · have hnil : endLine [] = [] := rfl
    rw [hnil, dropMargin]
    split <;> simp
  · next htext =>
    have hne : l.text.toList ≠ [] := by simpa [String.isEmpty_iff] using htext
    have hsplit : ScriptLine.indentation unit (depth + l.depth) =
        ScriptLine.indentation unit depth ++ ScriptLine.indentation unit l.depth := by
      simp only [ScriptLine.indentation, Nat.add_mul, List.replicate_append_replicate]
    rw [hsplit, List.append_assoc, endLine_append (by simp [hne]), dropMargin,
      if_pos (List.isPrefixOf_iff_prefix.mpr (List.prefix_append ..)), List.drop_left]

/-- The lines of a block of one-line names without the margin of their depth are those of depth
zero. -/
theorem map_dropMargin_lines {b : Block} (h : ∀ x ∈ b.names, OneLine x) (unit depth : Nat) :
    (lines (ScriptLine.charsOf unit (blockLines depth b))).map (fun line =>
        String.ofList (dropMargin (ScriptLine.indentation unit depth) line)) =
      (blockLines 0 b).map fun l => String.ofList (endLine (lineChars unit l)) := by
  rw [lines_charsOf (oneLine_blockLines h), blockLines_eq_map depth, List.map_map, List.map_map]
  exact List.map_congr_left fun l _ => congrArg String.ofList (dropMargin_lineChars unit depth l)

/-- What is captured of a block of one-line names is its text at depth zero. -/
theorem captured_eq {b : Block} (h : ∀ x ∈ b.names, OneLine x) (unit depth : Nat) :
    captured unit depth b = captured unit 0 b := by
  simp only [captured, map_dropMargin_lines h]

end Script

/-! ### Captured mappings -/

/-- Whether a mark is that of the mapping in focus. -/
def Mark.isFocus (f : Focus) (k : Mark) : Bool := decide (f.output = k.output ∧ f.input = k.input)

/-- The marks of a program, in the order of the text. -/
def Program.marks (p : Program) : List Mark :=
  p.prologue.marks ++ (p.output.marks ++ p.epilogue.marks)

/-- The names in the block of a mapping are names of the block it stands in. -/
theorem Block.names_subset_of_mem_marks {b : Block} {k : Mark} (h : k ∈ b.marks) :
    k.body.names ⊆ b.names := by
  induction b with
  | nil => cases h
  | simple s rest ih => exact fun x hx => List.mem_append_right _ (ih h hx)
  | nested o body rest hbody hrest =>
    intro x hx
    simp only [names, List.mem_append]
    simp only [marks, List.mem_append] at h
    rcases h with (h | h) | h
    · cases o with
      | mapping output input =>
        rw [List.mem_singleton.mp h] at hx
        exact .inl (.inr hx)
      | _ => cases h
    · exact .inl (.inr (hbody h hx))
    · exact .inr (hrest h hx)

theorem Program.names_subset_of_mem_marks {p : Program} {k : Mark} (h : k ∈ p.marks) :
    k.body.names ⊆ p.names := by
  intro x hx
  simp only [marks, names, List.mem_append] at h ⊢
  exact h.imp (fun h => Block.names_subset_of_mem_marks h hx)
    (Or.imp (fun h => Block.names_subset_of_mem_marks h hx)
      fun h => Block.names_subset_of_mem_marks h hx)

namespace Script

/-- The search for the mapping in focus finds the first mark of it. -/
theorem findMapping?_eq (f : Focus) {b : Block} : ∀ (depth : Nat),
    (findMapping? f depth b).map Prod.snd = (b.marks.find? (Mark.isFocus f)).map Mark.body := by
  induction b with
  | nil => intro depth; rfl
  | simple s rest ih => exact ih
  | nested o body rest hbody hrest =>
    intro depth
    cases o with
    | mapping output input =>
      rw [findMapping?, Block.marks, Opening.marks, List.cons_append, List.cons_append,
        List.nil_append, List.find?_cons]
      by_cases hfocus : f.output = output ∧ f.input = input
      · have hmark : Mark.isFocus f ⟨output, input, body⟩ = true := decide_eq_true hfocus
        rw [if_pos hfocus, hmark]
        rfl
      · have hmark : Mark.isFocus f ⟨output, input, body⟩ = false := decide_eq_false hfocus
        rw [if_neg hfocus, hmark, List.find?_append, Option.map_or, Option.map_or, hbody, hrest]
    | _ =>
      simp only [findMapping?, Block.marks, Opening.marks, List.nil_append]
      rw [List.find?_append, Option.map_or, Option.map_or, hbody, hrest]

theorem findInProgram?_eq (f : Focus) (p : Program) :
    (findInProgram? f p).map Prod.snd = (p.marks.find? (Mark.isFocus f)).map Mark.body := by
  simp only [findInProgram?, Program.marks, Option.map_or, List.find?_append, findMapping?_eq]

/-- What is captured of a program of one-line names is the first mark of the mapping in focus,
printed at depth zero. -/
theorem capture?_eq (layout : Layout) (f : Focus) {p : Program} (h : ∀ x ∈ p.names, OneLine x) :
    capture? layout f p = (p.marks.find? (Mark.isFocus f)).map fun k =>
      captured layout.indent 0 k.body := by
  have hbody : ∀ k ∈ p.marks, ∀ x ∈ k.body.names, OneLine x := fun k hk x hx =>
    h x (Program.names_subset_of_mem_marks hk hx)
  have hfind := findInProgram?_eq f p
  rw [capture?]
  cases hfound : findInProgram? f p with
  | none =>
    rw [hfound, Option.map_none, eq_comm, Option.map_eq_none_iff] at hfind
    rw [hfind]
    rfl
  | some found =>
    obtain ⟨depth, body⟩ := found
    rw [hfound, Option.map_some, eq_comm, Option.map_eq_some_iff] at hfind
    obtain ⟨k, hk, rfl⟩ := hfind
    rw [hk, Option.map_some, Option.map_some]
    exact congrArg some (captured_eq (hbody k (List.mem_of_find?_eq_some hk)) layout.indent depth)

end Script

end Crosswalk
