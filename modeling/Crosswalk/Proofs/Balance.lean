import Crosswalk.Proofs.Brackets
import Crosswalk.Proofs.Path

/-!
Balanced scripts. What is printed of an expression leaves a reader where it was; the head of a
statement with a block awaits the brackets that its tail closes. So a program is printed with all its
brackets nested and closed, if its names are and its authored texts.
-/

namespace Crosswalk

open Text Brackets

/-! ### Texts of code -/

namespace Brackets

variable {as bs cs below : List Char} {s t : String}

/-- Whether a text of code takes a reader from some awaited brackets to others. -/
def Turns (as bs : List Char) (s : String) : Prop := read ⟨.code, as⟩ s.toList = some ⟨.code, bs⟩

instance : Decidable (Turns as bs s) := inferInstanceAs (Decidable (_ = _))

/-- Whether a text of code leaves a reader where it was. -/
abbrev IsClosed (s : String) : Prop := Turns [] [] s

theorem Turns.append (hs : Turns as bs s) (ht : Turns bs cs t) : Turns as cs (s ++ t) := by
  rw [Turns, String.toList_append, read_append, hs]
  exact ht

theorem Turns.around (h : Turns as bs s) : Turns (as ++ below) (bs ++ below) s := read_around h

theorem IsClosed.inside (h : IsClosed s) : Turns as as s := h.around

theorem closed_of_isWord (h : IsWord s.toList) : IsClosed s :=
  read_ordinary fun c hc => notMem_marks_of_isWordChar (h c hc)

theorem closed_quote (s : String) : IsClosed (quote s) := by
  have hopen : step ⟨.code, []⟩ '\'' = some ⟨.literal, []⟩ := rfl
  rw [IsClosed, Turns, quote, String.toList_ofList, List.cons_append, read, hopen, Option.bind_some,
    read_append, read_escaped (escaped_escapeQuoted s.toList)]
  rfl

theorem closed_identifier (s : String) : IsClosed (identifier s) := by
  rw [identifier]
  split
  · next h => exact closed_of_isWord (isWord_of_isPlainName h)
  · exact closed_quote s

theorem closed_joinWith {sep : String} (hsep : IsClosed sep) {ss : List String}
    (h : ∀ s ∈ ss, IsClosed s) : IsClosed (joinWith sep ss) :=
  joinWith_of_append (P := IsClosed) (by decide) Turns.append hsep h

end Brackets

/-! ### Expressions -/

theorem Expression.closed_navText {base : String} (hbase : IsClosed base) {ts : List Tag} :
    IsClosed (navText base ts) :=
  navText_of_append (P := IsClosed) Turns.append (by decide) closed_identifier hbase

mutual

/-- An expression of closed names is written as a closed text. -/
theorem Expression.closed_text : ∀ {e : Expression}, (∀ x ∈ e.variables, IsClosed x) →
    (∀ f ∈ e.calls, IsClosed f) → IsClosed e.text
  | .var _, hvars, _ => by
    rw [text]
    exact hvars _ List.mem_cons_self
  | .literal s, _, _ => by
    rw [text]
    exact closed_quote s
  | .nav _ _, hvars, _ => by
    rw [text]
    exact closed_navText (hvars _ List.mem_cons_self)
  | .joined e delimiter, hvars, hcalls => by
    have htext : IsClosed e.text := closed_text hvars hcalls
    have hopen := htext.append (by decide : Turns [] [')'] "*.text().join(")
    rw [text]
    exact (hopen.append (closed_quote delimiter).inside).append (by decide)
  | .first e, hvars, hcalls => by
    have htext : IsClosed e.text := closed_text hvars hcalls
    rw [text]
    exact htext.append (by decide)
  | .call _ args, hvars, hcalls => by
    have hargs : ∀ s ∈ textsOf args, IsClosed s :=
      closed_textsOf hvars fun f hf => hcalls f (List.mem_cons_of_mem _ hf)
    have hopen := (hcalls _ List.mem_cons_self).append (by decide : Turns [] [')'] "(")
    rw [text]
    exact (hopen.append (closed_joinWith (by decide) hargs).inside).append (by decide)
  | .mapJoin _ keys, hvars, _ => by
    have hkeys : ∀ s ∈ keys.map fun t => quote t.sourceName, IsClosed s := by
      rw [List.forall_mem_map]
      exact fun t _ => closed_quote _
    have hbase : IsClosed _ := hvars _ List.mem_cons_self
    have hopen := (by decide : Turns [] [')'] "mapJoin(").append hbase.inside
    have hcomma := hopen.append (by decide : Turns [')'] [')'] ", ")
    rw [text]
    exact (hcomma.append (closed_joinWith (by decide) hkeys).inside).append (by decide)
  | .alternatives es, hvars, hcalls => by
    have htexts : ∀ s ∈ textsOf es, IsClosed s := closed_textsOf hvars hcalls
    rw [text]
    exact closed_joinWith (by decide) htexts

theorem Expression.closed_textsOf : ∀ {es : List Expression},
    (∀ x ∈ variablesOfAll es, IsClosed x) → (∀ f ∈ callsOfAll es, IsClosed f) →
      ∀ s ∈ textsOf es, IsClosed s
  | _ :: _, hvars, hcalls, s, hs => by
    rcases List.mem_cons.mp hs with rfl | hs
    · exact closed_text (fun x hx => hvars x (List.mem_append_left _ hx))
        fun f hf => hcalls f (List.mem_append_left _ hf)
    · exact closed_textsOf (fun x hx => hvars x (List.mem_append_right _ hx))
        (fun f hf => hcalls f (List.mem_append_right _ hf)) s hs

end

/-! ### Statements -/

/-- The authored texts of a statement with nothing inside. -/
def Simple.authored : Simple → List String
  | .code s => [s]
  | .assertion _ condition => [condition]
  | _ => []

/-- The authored texts of a block. -/
def Block.authored : Block → List String
  | .nil => []
  | .simple s rest => s.authored ++ authored rest
  | .nested _ body rest => authored body ++ authored rest

/-- The authored texts of a program. -/
def Program.authored (p : Program) : List String :=
  p.prologue.authored ++ (p.output.authored ++ p.epilogue.authored)

/-- The authored texts in the block of a mapping are those of the block it stands in. -/
theorem Block.authored_subset_of_mem_marks {b : Block} {k : Mark} (h : k ∈ b.marks) :
    k.body.authored ⊆ b.authored := by
  induction b with
  | nil => cases h
  | simple s rest ih => exact fun x hx => List.mem_append_right _ (ih h hx)
  | nested o body rest hbody hrest =>
    intro x hx
    rw [authored, List.mem_append]
    simp only [marks, List.mem_append] at h
    rcases h with (h | h) | h
    · cases o with
      | mapping output input =>
        rw [List.mem_singleton.mp h] at hx
        exact .inl hx
      | _ => cases h
    · exact .inl (hbody h hx)
    · exact .inr (hrest h hx)

theorem Program.authored_subset_of_mem_marks {p : Program} {k : Mark} (h : k ∈ p.marks) :
    k.body.authored ⊆ p.authored := by
  intro t ht
  simp only [marks, authored, List.mem_append] at h ⊢
  exact h.imp (fun h => Block.authored_subset_of_mem_marks h ht)
    (Or.imp (fun h => Block.authored_subset_of_mem_marks h ht)
      fun h => Block.authored_subset_of_mem_marks h ht)

namespace Script

variable {as bs cs below : List Char} {ls ls' : List ScriptLine} {depth : Nat} {text : String}

/-- Whether some lines take a reader from some awaited brackets to others. -/
def Prints (as bs : List Char) (ls : List ScriptLine) : Prop :=
  read ⟨.code, as⟩ (ls.flatMap fun l => l.text.toList ++ ['\n']) = some ⟨.code, bs⟩

theorem Prints.append (h : Prints as bs ls) (h' : Prints bs cs ls') : Prints as cs (ls ++ ls') := by
  rw [Prints, List.flatMap_append, read_append, h]
  exact h'

theorem Prints.around (h : Prints as bs ls) : Prints (as ++ below) (bs ++ below) ls := read_around h

theorem prints_line (h : Turns as bs text) : Prints as bs [⟨depth, text⟩] := by
  rw [Prints, List.flatMap_singleton, read_append, h]
  rfl

theorem Prints.cons (h : Turns as bs text) (h' : Prints bs cs ls) :
    Prints as cs (⟨depth, text⟩ :: ls) :=
  (prints_line h).append h'

/-- Lines that each leave a reader where it was do so together. -/
theorem prints_of_forall (h : ∀ l ∈ ls, Prints as as [l]) : Prints as as ls := by
  induction ls with
  | nil => rfl
  | cons l ls ih =>
    obtain ⟨hl, hls⟩ := List.forall_mem_cons.mp h
    exact hl.append (ih hls)

/-- The lines of a block between the lines that open and close it. -/
theorem Prints.between {opening ending : String} (h : Prints [] [] ls) (hopening : Turns [] as opening)
    (hending : Turns as [] ending) :
    Prints [] [] (⟨depth, opening⟩ :: ls ++ [⟨depth, ending⟩]) := by
  have hinside : Prints as as ls := h.around
  rw [List.cons_append]
  exact Prints.cons hopening (hinside.append (prints_line hending))

theorem prints_commentLines {s : String} : Prints [] [] (commentLines depth s) := by
  refine prints_of_forall fun l hl => ?_
  obtain ⟨line, hline, rfl⟩ := List.mem_map.mp hl
  have hslashes : read ⟨.code, []⟩ "// ".toList = some ⟨.comment, []⟩ := by decide
  have hcomment : read ⟨.code, []⟩ (("// " ++ line).toList ++ ['\n']) = some ⟨.code, []⟩ := by
    rw [String.toList_append, read_append, read_append, hslashes, Option.bind_some,
      read_comment (oneLine_of_mem_linesOf hline)]
    rfl
  rw [Prints, List.flatMap_singleton, rtrim, String.toList_ofList]
  exact (trims_dropEnd.read_eq Mode.startsLine_code).trans hcomment

/-- An authored text is printed as it is, but for blanks at the ends of its lines. -/
theorem prints_authored {s : String} {trimmed : String → String}
    (htrimmed : ∀ line : String, Trims line.toList (trimmed line).toList)
    (h : isBalanced s = true) :
    Prints [] [] ((linesOf s).map fun line => ⟨depth, trimmed line⟩) := by
  have htext : ∀ line : List Char, Trims line (trimmed (String.ofList line)).toList := by
    intro line
    have hline := htrimmed (String.ofList line)
    rwa [String.toList_ofList] at hline
  rw [Prints, linesOf, List.map_map, List.flatMap_map]
  exact (read_lines htext Mode.startsLine_code).trans (isBalanced_iff.mp h)

theorem prints_tableLines {name : String} (h : IsClosed name)
    (entries : List (String × String)) : Prints [] [] (tableLines depth name entries) := by
  have hname := (by decide : IsClosed "def ").append h
  rw [tableLines]
  split
  · exact prints_line (hname.append (by decide))
  · refine Prints.between (prints_of_forall fun l hl => ?_)
      (hname.append (by decide : Turns [] [']'] " = [")) (by decide : Turns [']'] [] "]")
    obtain ⟨e, -, rfl⟩ := List.mem_map.mp hl
    have hentry := ((closed_quote e.1).append (by decide : IsClosed ": ")).append (closed_quote e.2)
    exact prints_line (hentry.append (by decide))

/-- A statement of closed names and balanced authored texts with nothing inside is printed balanced. -/
theorem prints_simpleLines {s : Simple} (hnames : ∀ x ∈ s.variables ++ s.ownNames, IsClosed x)
    (hauthored : ∀ t ∈ s.authored, isBalanced t = true) :
    Prints [] [] (simpleLines depth s) := by
  cases s with
  | comment => exact prints_commentLines
  | namespaceDecl qualifier uri =>
    have hopen := (by decide : Turns [] [')'] "namespace(").append (closed_quote qualifier).inside
    have hcomma := hopen.append (by decide : Turns [')'] [')'] ", ")
    exact prints_line ((hcomma.append (closed_quote uri).inside).append (by decide))
  | table name entries => exact prints_tableLines (hnames name List.mem_cons_self) entries
  | lookup name table =>
    have hname := (by decide : IsClosed "def ").append (hnames name List.mem_cons_self)
    have htable := (by decide : IsClosed "def translated = ").append
      (hnames table (List.mem_cons_of_mem _ List.mem_cons_self))
    have hconsulted := htable.append (by decide : IsClosed "[value.toString().trim()]")
    have hchosen : IsClosed "translated ? translated : ''" := by decide
    exact Prints.between (Prints.cons hconsulted (prints_line hchosen))
      (hname.append (by decide : Turns [] ['\x7d'] " = \x7b value ->"))
      (by decide : Turns ['\x7d'] [] "\x7d")
  | define var value =>
    have hvar := (by decide : IsClosed "def ").append
      (hnames var (List.mem_append_right _ List.mem_cons_self))
    have hvalue : IsClosed value.text :=
      Expression.closed_text (fun x hx => hnames x (List.mem_append_left _ hx))
        fun f hf => hnames f (List.mem_append_right _ (List.mem_cons_of_mem _ hf))
    exact prints_line ((hvar.append (by decide)).append hvalue)
  | code s =>
    refine prints_authored (fun line => ?_) (hauthored s List.mem_cons_self)
    rw [rtrim, String.toList_ofList]
    exact trims_dropEnd
  | assertion path condition =>
    have hopen := (by decide : Turns [] [')'] "assertion(").append (closed_quote path.text).inside
    refine Prints.between (prints_authored (fun line => ?_) (hauthored _ List.mem_cons_self))
      (hopen.append (by decide : Turns [')'] ['\x7d'] ") \x7b")) (by decide : Turns ['\x7d'] [] "\x7d")
    rw [trim, String.toList_ofList]
    exact trims_strip

theorem closed_argumentText {attributes : List (Tag × Expression)} {value : Option Expression}
    (h : ∀ e ∈ attributes.map Prod.snd ++ value.toList, IsClosed e.text) :
    IsClosed (argumentText attributes value) := by
  obtain ⟨hattributes, hvalue⟩ := List.forall_mem_append.mp h
  refine closed_joinWith (by decide) (List.forall_mem_append.mpr ⟨?_, ?_⟩)
  · rw [List.forall_mem_map] at hattributes ⊢
    exact fun a ha => ((closed_identifier _).append (by decide)).append (hattributes a ha)
  · rw [List.forall_mem_map]
    exact hvalue

/-- What the head of a constructor awaits. -/
def elementAwaits (isEmpty : Bool) : List Char := if isEmpty then [] else ['\x7d']

theorem turns_elementText {tag : Tag} {args : String} (h : IsClosed args) (isEmpty : Bool) :
    Turns [] (elementAwaits isEmpty) (elementText tag args isEmpty) := by
  have hname := closed_identifier tag.qname
  have hargs := (hname.append (by decide : Turns [] [')'] "(")).append h.inside
  unfold elementText
  split
  · exact hargs.append (by decide)
  · exact hname.append (by decide)
  · exact hargs.append (by decide)

/-- The arguments of a constructor of closed names are closed. -/
theorem closed_arguments {tag : Tag} {attributes : List (Tag × Expression)}
    {value : Option Expression} (h : ∀ x ∈ headNames (.element tag attributes value), IsClosed x) :
    IsClosed (argumentText attributes value) := by
  refine closed_argumentText fun e he => ?_
  have he := List.mem_append.mp he
  refine Expression.closed_text (fun x hx => h x ?_) fun f hf => h f ?_
  · have hreads : x ∈ (Opening.element tag attributes value).variables :=
      List.mem_append.mpr (he.imp (fun he => Expression.mem_variablesOfAll.mpr ⟨e, he, hx⟩)
        fun he => Expression.mem_variablesOfAll.mpr ⟨e, he, hx⟩)
    simp [headNames, hreads]
  · have hcalls : f ∈ (Opening.element tag attributes value).calls :=
      List.mem_append.mpr (he.imp (fun he => Expression.mem_callsOfAll.mpr ⟨e, he, hf⟩)
        fun he => Expression.mem_callsOfAll.mpr ⟨e, he, hf⟩)
    simp [headNames, Opening.ownNames, hcalls]

theorem closed_conditionText {condition : Condition}
    (h : ∀ x ∈ headNames (.guarded condition), IsClosed x) : IsClosed condition.text := by
  cases condition with
  | present e =>
    refine Expression.closed_text (fun x hx => h x ?_) fun f hf => h f ?_
    · simp [headNames, Opening.variables, Condition.variables, hx]
    · simp [headNames, Opening.ownNames, Opening.calls, Condition.calls, hf]
  | absent t =>
    have hopen := (by decide : Turns [] [')'] "absent(").append (closed_quote t.qname).inside
    exact hopen.append (by decide)

theorem turns_headText {o : Opening} (h : ∀ x ∈ headNames o, IsClosed x)
    (hblock : ∀ output input, o ≠ .mapping output input) : Turns [] ['\x7d'] (headText o) := by
  have harrow : Turns ['\x7d'] ['\x7d'] " ->" := by decide
  cases o with
  | loop var source first =>
    have hsource : IsClosed source.text :=
      Expression.closed_text (fun x hx => h x (by simp [headNames, Opening.variables, hx]))
        fun f hf => h f (by simp [headNames, Opening.ownNames, Opening.calls, hf])
    have hvar : IsClosed var := h var (by simp [headNames, Opening.binder?])
    have hfirst : IsClosed (if first then "[0]" else "") := by cases first <;> decide
    have hopen := (hsource.append hfirst).append (by decide : Turns [] ['\x7d'] " * \x7b ")
    exact (hopen.append hvar.inside).append harrow
  | bind var value =>
    have hvalue : IsClosed value.text :=
      Expression.closed_text (fun x hx => h x (by simp [headNames, Opening.variables, hx]))
        fun f hf => h f (by simp [headNames, Opening.ownNames, Opening.calls, hf])
    have hvar : IsClosed var := h var (by simp [headNames, Opening.binder?])
    have hopen := (by decide : Turns [] [')'] "ifPresent(").append hvalue.inside
    have hblock := hopen.append (by decide : Turns [')'] ['\x7d'] ") \x7b ")
    exact (hblock.append hvar.inside).append harrow
  | compute var param arg =>
    have hvar : IsClosed var := h var (by simp [headNames, Opening.ownNames])
    have hparam : IsClosed param := h param (by simp [headNames, Opening.binder?])
    have hopen := ((by decide : IsClosed "def ").append hvar).append
      (by decide : Turns [] ['\x7d'] " = \x7b ")
    exact (hopen.append hparam.inside).append harrow
  | guarded condition =>
    have hopen := (by decide : Turns [] [')'] "if (").append (closed_conditionText h).inside
    exact hopen.append (by decide)
  | element tag attributes value => exact turns_elementText (closed_arguments h) false
  | mapping output input => exact absurd rfl (hblock output input)

theorem turns_tailText {o : Opening} (h : ∀ x ∈ headNames o, IsClosed x) :
    Turns ['\x7d'] [] (tailText o) := by
  cases o with
  | compute var param arg =>
    have harg : IsClosed arg.text :=
      Expression.closed_text (fun x hx => h x (by simp [headNames, Opening.variables, hx]))
        fun f hf => h f (by simp [headNames, Opening.ownNames, hf])
    exact ((by decide : Turns ['\x7d'] [')'] "\x7d(").append harg.inside).append (by decide)
  | _ => exact (by decide : Turns ['\x7d'] [] "\x7d")

/-! ### Blocks and programs -/

theorem prints_nestedLines {o : Opening} {isEmpty : Bool}
    {inside : Nat → List ScriptLine} (hnames : ∀ x ∈ headNames o, IsClosed x)
    (hinside : ∀ depth, Prints [] [] (inside depth)) :
    Prints [] [] (nestedLines depth o isEmpty inside) := by
  have hblock (h : ∀ output input, o ≠ .mapping output input) :
      Prints [] [] (⟨depth, headText o⟩ :: inside (depth + 1) ++ [⟨depth, tailText o⟩]) :=
    (hinside (depth + 1)).between (turns_headText hnames h) (turns_tailText hnames)
  cases o with
  | mapping => exact hinside depth
  | element tag attributes value =>
    cases isEmpty with
    | true => exact prints_line (turns_elementText (closed_arguments hnames) true)
    | false => exact hblock (by simp)
  | _ => exact hblock (by simp)

/-- A block of closed names and balanced authored texts is printed balanced. -/
theorem prints_blockLines {b : Block} (hnames : ∀ x ∈ b.names, IsClosed x)
    (hauthored : ∀ t ∈ b.authored, isBalanced t = true) : ∀ depth,
      Prints [] [] (blockLines depth b) := by
  induction b with
  | nil => exact fun _ => rfl
  | simple s rest ih =>
    rw [Block.names, List.forall_mem_append] at hnames
    rw [Block.authored, List.forall_mem_append] at hauthored
    exact fun depth =>
      (prints_simpleLines hnames.1 hauthored.1).append (ih hnames.2 hauthored.2 depth)
  | nested o body rest hbody hrest =>
    rw [Block.names, List.forall_mem_append, List.forall_mem_append] at hnames
    rw [Block.authored, List.forall_mem_append] at hauthored
    obtain ⟨⟨ho, hinside⟩, hnext⟩ := hnames
    exact fun depth => (prints_nestedLines ho (hbody hinside hauthored.1)).append
      (hrest hnext hauthored.2 depth)

variable {p : Program}

theorem prints_blankLine : Prints [] [] [blankLine] := prints_line (by decide : IsClosed "")

theorem prints_programLines (header : Option String) (hnames : ∀ x ∈ p.names, IsClosed x)
    (hauthored : ∀ t ∈ p.authored, isBalanced t = true) :
    Prints [] [] (programLines header p) := by
  rw [Program.names, List.forall_mem_append, List.forall_mem_append] at hnames
  rw [Program.authored, List.forall_mem_append, List.forall_mem_append] at hauthored
  obtain ⟨hprologue, houtput, hepilogue⟩ := hnames
  obtain ⟨hprologue', houtput', hepilogue'⟩ := hauthored
  have hheader : Prints [] [] (headerLines header) := by
    cases header with
    | none => rfl
    | some s => exact prints_commentLines.append prints_blankLine
  have hdeclared : Prints [] [] (prologueLines p.prologue) := by
    rw [prologueLines]
    split
    · rfl
    · exact (prints_blockLines hprologue hprologue' 0).append prints_blankLine
  have hbuilt : Prints [] [] (⟨0, "output \x7b"⟩ :: blockLines 1 p.output ++ [⟨0, "\x7d"⟩]) :=
    (prints_blockLines houtput houtput' 1).between (by decide : Turns [] ['\x7d'] "output \x7b")
      (by decide : Turns ['\x7d'] [] "\x7d")
  have hchecked : Prints [] [] (epilogueLines p.epilogue) := by
    rw [epilogueLines]
    split
    · rfl
    · exact prints_blankLine.append (prints_blockLines hepilogue hepilogue' 0)
  have hparts := ((hheader.append hdeclared).append hbuilt).append hchecked
  rwa [← List.append_assoc] at hparts

/-- A program of closed names and balanced authored texts is printed balanced. -/
theorem isBalanced_print (layout : Layout) (hnames : ∀ x ∈ p.names, IsClosed x)
    (hauthored : ∀ t ∈ p.authored, isBalanced t = true) : isBalanced (print layout p) = true := by
  have hread : read {} (print layout p).toList = some {} := by
    rw [print, String.toList_ofList, read_charsOf Mode.startsLine_code]
    exact prints_programLines layout.header hnames hauthored
  rw [isBalanced, hread]
  rfl

/-! ### Captured mappings -/

theorem trims_dropMargin {unit depth : Nat} {line : List Char} :
    Trims line (dropMargin (ScriptLine.indentation unit depth) line) := by
  rw [dropMargin]
  split
  · next h =>
    obtain ⟨text, rfl⟩ := List.isPrefixOf_iff_prefix.mp h
    rw [List.drop_left]
    exact trims_front isBlank_indentation
  · exact trims_self

/-- A block of closed names and balanced authored texts is captured balanced. -/
theorem isBalanced_captured {b : Block} {unit depth : Nat} (hnames : ∀ x ∈ b.names, IsClosed x)
    (hauthored : ∀ t ∈ b.authored, isBalanced t = true) :
    isBalanced (captured unit depth b) = true := by
  let printed := lines (ScriptLine.charsOf unit (blockLines depth b))
  let margin := ScriptLine.indentation unit depth
  have hprinted : read {} (ScriptLine.charsOf unit (blockLines depth b)) = some {} :=
    (read_charsOf Mode.startsLine_code).trans (prints_blockLines hnames hauthored depth)
  have hread : read {} (printed.flatMap fun line => dropMargin margin line ++ ['\n']) = some {} := by
    rw [read_lines (fun _ => trims_dropMargin) Mode.startsLine_code, read_append, hprinted]
    rfl
  have hcaptured : captured unit depth b =
      joinWith "\n" (printed.map fun line => String.ofList (dropMargin margin line)) := rfl
  rw [hcaptured]
  by_cases hempty : printed = []
  · rw [hempty]
    rfl
  · rw [isBalanced_iff, toList_joinWith_newline (by simpa using hempty), List.flatMap_map]
    simpa only [String.toList_ofList] using hread

/-- What is captured of a program of closed names and balanced authored texts is balanced. -/
theorem isBalanced_capture? {layout : Layout} {f : Focus} {s : String}
    (hnames : ∀ x ∈ p.names, IsClosed x) (hauthored : ∀ t ∈ p.authored, isBalanced t = true)
    (h : capture? layout f p = some s) : isBalanced s = true := by
  obtain ⟨⟨depth, body⟩, hfound, rfl⟩ := Option.map_eq_some_iff.mp h
  have hfind := findInProgram?_eq f p
  rw [hfound, Option.map_some, eq_comm, Option.map_eq_some_iff] at hfind
  obtain ⟨k, hk, rfl⟩ := hfind
  have hmark := List.mem_of_find?_eq_some hk
  exact isBalanced_captured (fun x hx => hnames x (Program.names_subset_of_mem_marks hmark hx))
    fun t ht => hauthored t (Program.authored_subset_of_mem_marks hmark ht)

/-- A program is printed balanced, whatever its data and its layout, and so is the text of the mapping
in focus, if its names have only characters of plain names and its authored texts are nested. -/
theorem balanced_print (layout : Layout) (f : Focus) (hnames : ∀ x ∈ p.names, IsWord x.toList)
    (hauthored : ∀ t ∈ p.authored, IsNested t) :
    isBalanced (print layout p) = true ∧
      ∀ s, capture? layout f p = some s → isBalanced s = true := by
  have hclosed : ∀ x ∈ p.names, IsClosed x := fun x hx => closed_of_isWord (hnames x hx)
  have hbalanced : ∀ t ∈ p.authored, isBalanced t = true := fun t ht => (hauthored t ht).isBalanced
  exact ⟨isBalanced_print layout hclosed hbalanced,
    fun _ hs => isBalanced_capture? hclosed hbalanced hs⟩

end Script

/-- A mapping from an element of the source with a bracket in its name onto one of the output. -/
def bracketedFocus : Focus where
  output := .ofNames ["a(b"]
  input := .ofNames ["x\x7d"]

/-- A program with brackets, quotes and slashes in its data, and code in several lines. -/
def bracketedProgram : Program where
  prologue := .ofSimple [.comment "(", .table "table1" [("a)", "'b("), ("//", "\\")]]
  output :=
    .around (.element (.elem none "a(b") [(.attr none "c[", .literal "\x7d'")] none)
      (.around (.mapping bracketedFocus.output bracketedFocus.input)
        (.around (.loop "_x" (.nav "_input" [.elem none "x\x7d"]) true)
          (.ofSimple
            [.code "it.each \x7b\n  f(it[0] / 2)\n\x7d ", .define "_v" (.alternatives [.var "_x"])])))
  epilogue := .one (.assertion bracketedFocus.output " (it.size() > 0)\n && it[1] ")

theorem bracketedProgram_balanced :
    let layout : Script.Layout := { header := some "made \x7bby\nhand (" }
    (∀ x ∈ bracketedProgram.names, IsWord x.toList) ∧
      (∀ t ∈ bracketedProgram.authored, IsNested t) ∧
      isBalanced (Script.print layout bracketedProgram) = true ∧
      ∃ s, Script.capture? layout bracketedFocus bracketedProgram = some s ∧
        isBalanced s = true := by
  intro layout
  have hnames : ∀ x ∈ bracketedProgram.names, IsWord x.toList := by decide
  have hauthored : ∀ t ∈ bracketedProgram.authored, IsNested t := by decide +kernel
  have hbalanced := Script.balanced_print layout bracketedFocus hnames hauthored
  have hfound : (Script.capture? layout bracketedFocus bracketedProgram).isSome = true := by
    rw [Script.capture?, Option.isSome_map]
    rfl
  obtain ⟨s, hs⟩ := Option.isSome_iff_exists.mp hfound
  exact ⟨hnames, hauthored, hbalanced.1, s, hs, hbalanced.2 s hs⟩

end Crosswalk
