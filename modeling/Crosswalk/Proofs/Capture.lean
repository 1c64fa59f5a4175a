import Crosswalk.Proofs.Layout
import Crosswalk.Proofs.Path
import Crosswalk.Proofs.Trimming

/-!
The text of the mapping in focus. A program can be written in one pass over a text that grows; what a
mapping in focus has added to it is then cut out, line by line and without the margin of its depth.
That is what is captured, and no line of plain names is changed by it: it is the block of the first
such mapping, written on its own, without its last line break.
-/

namespace Crosswalk.Script

open Text ScriptLine

variable {unit depth : Nat} {focus : Option Focus} {b body rest : Block} {ls : List ScriptLine}

/-! ### Writing in one pass -/

/-- A text that is being written. -/
structure Draft where
  text : List Char := []
  /-- The depth of the next line. -/
  depth : Nat := 0
  /-- The text of the mapping in focus, once it has been written. -/
  capture : Option String := none

namespace Draft

/-- Writes lines whose depths count from that of the draft. -/
def put (unit : Nat) (ls : List ScriptLine) (w : Draft) : Draft :=
  { w with text := w.text ++ charsOf unit (ls.map (shift w.depth)) }

/-- Writes what opens a block and goes one level in. -/
def enter (unit : Nat) (head : String) (w : Draft) : Draft :=
  { put unit [⟨0, head⟩] w with depth := w.depth + 1 }

/-- Goes one level out and writes what closes a block. -/
def leave (unit : Nat) (tail : String) (w : Draft) : Draft :=
  put unit [⟨0, tail⟩] { w with depth := w.depth - 1 }

/-- What has been written after the first `start` characters, without the margin of the depth. -/
def since (unit start : Nat) (w : Draft) : String :=
  joinWith "\n" <| (lines (w.text.drop start)).map fun line =>
    String.ofList (dropMargin (indentation unit w.depth) line)

/-- Writes a statement around what is inside. A mapping in focus is captured when its end is
reached, in place of any inside it, if nothing had been captured at its start. -/
def around (unit : Nat) (focus : Option Focus) (o : Opening) (isEmpty : Bool)
    (inside : Draft → Draft) (w : Draft) : Draft :=
  match o, isEmpty with
  | .mapping output input, _ =>
    if w.capture.isNone && focus.any fun f => f.output = output ∧ f.input = input then
      { inside w with capture := some (since unit w.text.length (inside w)) }
    else inside w
  | .element tag attributes value, true =>
    put unit [⟨0, elementText tag (argumentText attributes value) true⟩] w
  | _, _ => leave unit (tailText o) (inside (enter unit (headText o) w))

/-- Writes a block. -/
def write (unit : Nat) (focus : Option Focus) : Block → Draft → Draft
  | .nil, w => w
  | .simple s rest, w => write unit focus rest (put unit (simpleLines 0 s) w)
  | .nested o body rest, w =>
    write unit focus rest (around unit focus o body.isEmpty (write unit focus body) w)

/-- Writes the declarations. -/
def prologue (unit : Nat) (focus : Option Focus) (b : Block) (w : Draft) : Draft :=
  if b.isEmpty then w else put unit [blankLine] (write unit focus b w)

/-- Writes what comes after the output. -/
def epilogue (unit : Nat) (focus : Option Focus) (b : Block) (w : Draft) : Draft :=
  if b.isEmpty then w else write unit focus b (put unit [blankLine] w)

/-- Writes a program. -/
def program (layout : Layout) (focus : Option Focus) (p : Program) (w : Draft) : Draft :=
  let unit := layout.indent
  let opened := enter unit "output \x7b"
    (prologue unit focus p.prologue (put unit (headerLines layout.header) w))
  epilogue unit focus p.epilogue (leave unit "\x7d" (write unit focus p.output opened))

/-! ### What is written -/

/-- Whether a step adds lines to a text and goes back to its depth, and captures something only if
nothing has been. Lines and what is captured depend on the depth. -/
def Writes (unit : Nat) (step : Draft → Draft) (ls : Nat → List ScriptLine)
    (found : Nat → Option String) : Prop :=
  ∀ w, step w = ⟨w.text ++ charsOf unit (ls w.depth), w.depth, w.capture.or (found w.depth)⟩

theorem charsOf_append {ls ms : List ScriptLine} :
    charsOf unit (ls ++ ms) = charsOf unit ls ++ charsOf unit ms := List.flatMap_append

theorem writes_self : Writes unit id (fun _ => []) fun _ => none := by
  intro w
  simp [charsOf]

theorem writes_put : Writes unit (put unit ls) (fun d => ls.map (shift d)) fun _ => none := by
  intro w
  rw [put, Option.or_none]

theorem Writes.comp {f g : Draft → Draft} {ls ms : Nat → List ScriptLine}
    {found found' : Nat → Option String} (hf : Writes unit f ls found)
    (hg : Writes unit g ms found') :
    Writes unit (g ∘ f) (fun d => ls d ++ ms d) fun d => (found d).or (found' d) := by
  intro w
  rw [Function.comp_apply, hf, hg, charsOf_append, List.append_assoc, Option.or_assoc]

theorem Writes.congr {f : Draft → Draft} {ls ms : Nat → List ScriptLine}
    {found found' : Nat → Option String} (h : Writes unit f ls found) (hls : ∀ d, ms d = ls d)
    (hfound : ∀ d, found' d = found d) : Writes unit f ms found' := by
  intro w
  rw [hls, hfound]
  exact h w

/-- A block goes one level in and out again. -/
theorem Writes.block {inside : Draft → Draft} {ls : Nat → List ScriptLine}
    {found : Nat → Option String} (h : Writes unit inside ls found) (head tail : String) :
    Writes unit (fun w => leave unit tail (inside (enter unit head w)))
      (fun d => ⟨d, head⟩ :: ls (d + 1) ++ [⟨d, tail⟩]) fun d => found (d + 1) := by
  intro w
  change leave unit tail (inside (enter unit head w)) = _
  rw [h]
  simp [leave, enter, put, shift, charsOf]

/-- What is captured of a block at a depth. -/
def captureIn (unit : Nat) (focus : Option Focus) (depth : Nat) (b : Block) : Option String :=
  (focus.bind fun f => findMapping? f depth b).map fun found => captured unit found.1 found.2

theorem captureIn_nil : captureIn unit focus depth .nil = none := by
  cases focus <;> rfl

/-- What is inside a statement comes before what is behind it. -/
theorem captureIn_nested {o : Opening} : captureIn unit focus depth (.nested o body rest) =
    (captureIn unit focus depth (.nested o body .nil)).or (captureIn unit focus depth rest) := by
  cases focus with
  | none => rfl
  | some f =>
    have hfind : findMapping? f depth (.nested o body rest) =
        (findMapping? f depth (.nested o body .nil)).or (findMapping? f depth rest) := by
      cases o <;> simp only [findMapping?, Option.or_none]
      split <;> rfl
    simp only [captureIn, Option.bind_some, hfind, Option.map_or]

theorem captureIn_mapping {output input : Path} (hfocus : focus = some ⟨output, input⟩) :
    captureIn unit focus depth (.nested (.mapping output input) body .nil) =
      some (captured unit depth body) := by
  simp [captureIn, hfocus, findMapping?]

theorem captureIn_mapping_of_ne {output input : Path} (hfocus : focus ≠ some ⟨output, input⟩) :
    captureIn unit focus depth (.nested (.mapping output input) body .nil) =
      captureIn unit focus depth body := by
  cases focus with
  | none => rfl
  | some f =>
    have hne : ¬(f.output = output ∧ f.input = input) := by
      rintro ⟨rfl, rfl⟩
      exact hfocus rfl
    simp [captureIn, findMapping?, hne]

/-- A mapping is captured behind all that is inside it, but in place of it. -/
theorem writes_mapping {output input : Path}
    (h : Writes unit (write unit focus body) (fun d => blockLines d body)
      fun d => captureIn unit focus d body) :
    Writes unit (around unit focus (.mapping output input) body.isEmpty (write unit focus body))
      (fun d => blockLines d body)
      fun d => captureIn unit focus d (.nested (.mapping output input) body .nil) := by
  intro w
  have hsince : since unit w.text.length (write unit focus body w) =
      captured unit w.depth body := by
    rw [since, h w, List.drop_left]
    rfl
  by_cases hfocus : focus = some ⟨output, input⟩
  · have hmatches : (focus.any fun f => decide (f.output = output ∧ f.input = input)) = true := by
      simp [hfocus]
    simp only [captureIn_mapping hfocus, around, hsince, hmatches, Bool.and_true]
    rw [h w]
    -- What has been captured inside is replaced, unless there was something before.
    cases w.capture <;> rfl
  · have hother : (focus.any fun f => decide (f.output = output ∧ f.input = input)) = false := by
      cases focus with
      | none => rfl
      | some f =>
        refine decide_eq_false ?_
        rintro ⟨rfl, rfl⟩
        exact hfocus rfl
    simp only [captureIn_mapping_of_ne hfocus, around, hother, Bool.and_false]
    exact h w

theorem writes_around {o : Opening}
    (h : Writes unit (write unit focus body) (fun d => blockLines d body)
      fun d => captureIn unit focus d body) :
    Writes unit (around unit focus o body.isEmpty (write unit focus body))
      (fun d => nestedLines d o body.isEmpty fun d => blockLines d body)
      fun d => captureIn unit focus d (.nested o body .nil) := by
  cases o with
  | mapping output input => exact writes_mapping h
  | element tag attributes value =>
    cases hempty : body.isEmpty with
    | true =>
      refine writes_put.congr (fun _ => rfl) fun _ => ?_
      rw [Block.isEmpty_eq_true hempty]
      cases focus <;> rfl
    | false =>
      refine (h.block _ _).congr (fun _ => rfl) fun _ => ?_
      cases focus <;> simp [captureIn, findMapping?]
  | _ =>
    refine (h.block _ _).congr (fun _ => rfl) fun _ => ?_
    cases focus <;> simp [captureIn, findMapping?]

/-- Writing a block adds its lines, and captures the first mapping in focus. -/
theorem writes_write {b : Block} : Writes unit (write unit focus b) (fun d => blockLines d b)
    fun d => captureIn unit focus d b := by
  -- The hypotheses are about any draft, so they serve at every depth and after every capture.
  induction b with
  | nil => exact writes_self.congr (fun _ => rfl) fun _ => captureIn_nil
  | simple s rest ih =>
    refine (writes_put.comp ih).congr (fun d => ?_) fun d => ?_
    · rw [blockLines, simpleLines_eq_map]
    · rfl
  | nested o body rest hbody hrest =>
    exact ((writes_around hbody).comp hrest).congr (fun _ => rfl) fun _ => captureIn_nested

theorem Writes.unlessEmpty {step : Draft → Draft} {ls : Nat → List ScriptLine}
    (h : Writes unit step ls fun d => captureIn unit focus d b) :
    Writes unit (fun w => if b.isEmpty then w else step w)
      (fun d => if b.isEmpty then [] else ls d) fun d => captureIn unit focus d b := by
  cases hempty : b.isEmpty with
  | true =>
    rw [Block.isEmpty_eq_true hempty]
    exact writes_self.congr (fun _ => rfl) fun _ => captureIn_nil
  | false => exact h

theorem writes_prologue : Writes unit (prologue unit focus b)
    (fun d => (prologueLines b).map (shift d)) fun d => captureIn unit focus d b := by
  have hstep : Writes unit (put unit [blankLine] ∘ write unit focus b)
      (fun d => blockLines d b ++ [blankLine].map (shift d)) fun d => captureIn unit focus d b :=
    (writes_write.comp writes_put).congr (fun _ => rfl) fun _ => Option.or_none.symm
  refine hstep.unlessEmpty.congr (fun d => ?_) fun _ => rfl
  rw [prologueLines]
  split
  · rfl
  · rw [List.map_append, ← blockLines_eq_map]

theorem writes_epilogue : Writes unit (epilogue unit focus b)
    (fun d => (epilogueLines b).map (shift d)) fun d => captureIn unit focus d b := by
  have hstep : Writes unit (write unit focus b ∘ put unit [blankLine])
      (fun d => [blankLine].map (shift d) ++ blockLines d b) fun d => captureIn unit focus d b :=
    (writes_put.comp writes_write).congr (fun _ => rfl) fun _ => Option.none_or.symm
  refine hstep.unlessEmpty.congr (fun d => ?_) fun _ => rfl
  rw [epilogueLines]
  split
  · rfl
  · rw [List.map_cons, ← blockLines_eq_map]
    rfl

/-- A program that is written in one pass is printed, and what is captured is the text of the
mapping in focus. -/
theorem program_start (layout : Layout) (focus : Option Focus) (p : Program) :
    program layout focus p {} =
      ⟨charsOf layout.indent (programLines layout.header p), 0,
        focus.bind fun f => capture? layout f p⟩ := by
  have hheader : Writes layout.indent (put layout.indent (headerLines layout.header)) _ _ :=
    writes_put
  have hprologue : Writes layout.indent (prologue layout.indent focus p.prologue) _ _ :=
    writes_prologue
  have houtput : Writes layout.indent (write layout.indent focus p.output) _ _ := writes_write
  have hepilogue : Writes layout.indent (epilogue layout.indent focus p.epilogue) _ _ :=
    writes_epilogue
  have hwrites := (hheader.comp hprologue).comp
    ((houtput.block "output \x7b" "\x7d").comp hepilogue)
  have hshift (ls : List ScriptLine) : ls.map (shift 0) = ls :=
    (List.map_congr_left fun l _ => shift_zero l).trans (List.map_id ls)
  have hcapture : (focus.bind fun f => capture? layout f p) =
      (captureIn layout.indent focus 0 p.prologue).or
        ((captureIn layout.indent focus 1 p.output).or
          (captureIn layout.indent focus 0 p.epilogue)) := by
    cases focus with
    | none => rfl
    | some f => simp [captureIn, capture?, findInProgram?, Option.map_or]
  rw [hcapture]
  refine (hwrites {}).trans ?_
  simp [hshift, programLines]

end Draft

/-- A printed program, with the text of the mapping in focus. -/
structure Printed where
  text : String
  focus : Option String

/-- A program printed in one pass. -/
def printed (layout : Layout) (focus : Option Focus) (p : Program) : Printed :=
  let w := Draft.program layout focus p {}
  ⟨String.ofList w.text, w.capture⟩

theorem printed_eq (layout : Layout) (focus : Option Focus) (p : Program) :
    printed layout focus p = ⟨print layout p, focus.bind fun f => capture? layout f p⟩ := by
  rw [printed, Draft.program_start]
  rfl

/-! ### Lines without a carriage return at the end -/

/-- Whether a text does not end in a carriage return, which would be taken for a part of the line
break behind it. -/
def Unreturned (s : String) : Prop := s.toList.getLast? ≠ some '\r'

instance (s : String) : Decidable (Unreturned s) := inferInstanceAs (Decidable (¬_))

variable {s t : String}

theorem Unreturned.append (hs : Unreturned s) (ht : Unreturned t) : Unreturned (s ++ t) := by
  rw [Unreturned] at hs ht ⊢
  rw [String.toList_append, List.getLast?_append]
  cases hlast : t.toList.getLast? with
  | none => exact hs
  | some c => rwa [hlast] at ht

/-- Only the end of a text counts. -/
theorem unreturned_append (ht : Unreturned t) (hne : t.toList ≠ []) : Unreturned (s ++ t) := by
  rw [Unreturned] at ht ⊢
  rw [String.toList_append, List.getLast?_append]
  rwa [List.getLast?_eq_some_getLast hne] at ht ⊢

theorem unreturned_of_trimmed (h : trimEnd s.toList = s.toList) : Unreturned s :=
  fun hlast => absurd (dropEnd_eq_self_iff.mp h _ hlast) (by decide)

theorem unreturned_joinWith {sep : String} (hsep : Unreturned sep) {ss : List String}
    (h : ∀ s ∈ ss, Unreturned s) : Unreturned (joinWith sep ss) :=
  joinWith_of_append (P := Unreturned) (by decide) Unreturned.append hsep h

theorem unreturned_quote (s : String) : Unreturned (quote s) := by
  rw [Unreturned, quote, String.toList_ofList, List.getLast?_concat]
  decide

theorem unreturned_of_isPlainName (h : isPlainName s = true) : Unreturned s := fun hlast => by
  have hword := isWord_of_isPlainName h _ (List.mem_of_getLast? hlast)
  revert hword
  decide

theorem unreturned_identifier (s : String) : Unreturned (identifier s) := by
  rw [identifier]
  split
  · next h => exact unreturned_of_isPlainName h
  · exact unreturned_quote s

theorem unreturned_navText {base : String} (hbase : Unreturned base) {ts : List Tag} :
    Unreturned (Expression.navText base ts) :=
  Expression.navText_of_append (P := Unreturned) Unreturned.append (by decide)
    unreturned_identifier hbase

mutual

/-- Of an expression only the names can end in a carriage return. -/
theorem unreturned_text : ∀ {e : Expression}, (∀ x ∈ e.variables, Unreturned x) →
    Unreturned e.text
  | .var _, h => by
    rw [Expression.text]
    exact h _ List.mem_cons_self
  | .literal s, _ => by
    rw [Expression.text]
    exact unreturned_quote s
  | .nav _ _, h => by
    rw [Expression.text]
    exact unreturned_navText (h _ List.mem_cons_self)
  | .joined .., _ => by
    rw [Expression.text]
    exact unreturned_append (by decide) (by decide)
  | .first _, _ => by
    rw [Expression.text]
    exact unreturned_append (by decide) (by decide)
  | .call .., _ => by
    rw [Expression.text]
    exact unreturned_append (by decide) (by decide)
  | .mapJoin .., _ => by
    rw [Expression.text]
    exact unreturned_append (by decide) (by decide)
  | .alternatives _, h => by
    rw [Expression.text]
    exact unreturned_joinWith (by decide) (unreturned_textsOf h)

theorem unreturned_textsOf : ∀ {es : List Expression},
    (∀ x ∈ Expression.variablesOfAll es, Unreturned x) → ∀ s ∈ Expression.textsOf es, Unreturned s
  | _ :: _, h, s, hs => by
    rcases List.mem_cons.mp hs with rfl | hs
    · exact unreturned_text fun x hx => h x (List.mem_append_left _ hx)
    · exact unreturned_textsOf (fun x hx => h x (List.mem_append_right _ hx)) s hs

end

theorem unreturned_rtrim (s : String) : Unreturned (rtrim s) :=
  unreturned_of_trimmed (by rw [rtrim, String.toList_ofList]; exact dropEnd_dropEnd)

theorem unreturned_trim (s : String) : Unreturned (trim s) :=
  unreturned_of_trimmed (by rw [trim, String.toList_ofList]; exact dropEnd_dropEnd)

theorem unreturned_simpleLines {s : Simple} (h : ∀ x ∈ s.variables ++ s.ownNames, Unreturned x)
    (depth : Nat) : ∀ l ∈ simpleLines depth s, Unreturned l.text := by
  intro l hl
  cases s with
  | comment s =>
    obtain ⟨line, -, rfl⟩ := List.mem_map.mp hl
    exact unreturned_rtrim _
  | namespaceDecl qualifier uri =>
    rw [List.mem_singleton.mp hl]
    exact unreturned_append (by decide) (by decide)
  | table name entries =>
    rw [simpleLines, tableLines] at hl
    split at hl
    · rw [List.mem_singleton.mp hl]
      exact unreturned_append (by decide) (by decide)
    · simp only [List.cons_append, List.mem_cons, List.mem_append, List.not_mem_nil, or_false] at hl
      rcases hl with rfl | hl | rfl
      · exact unreturned_append (by decide) (by decide)
      · obtain ⟨e, -, rfl⟩ := List.mem_map.mp hl
        exact unreturned_append (by decide) (by decide)
      · exact (by decide : Unreturned "]")
  | lookup name table =>
    simp only [simpleLines, List.mem_cons, List.not_mem_nil, or_false] at hl
    rcases hl with rfl | rfl | rfl | rfl
    · exact unreturned_append (by decide) (by decide)
    · exact unreturned_append (by decide) (by decide)
    · exact (by decide : Unreturned "translated ? translated : ''")
    · exact (by decide : Unreturned "\x7d")
  -- The one line that ends in an expression.
  | define var value =>
    have hvalue : Unreturned value.text :=
      unreturned_text fun x hx => h x (List.mem_append_left _ hx)
    have hvar : Unreturned var := h var (List.mem_append_right _ List.mem_cons_self)
    rw [List.mem_singleton.mp hl]
    exact (((by decide : Unreturned "def ").append hvar).append (by decide)).append hvalue
  | code s =>
    obtain ⟨line, -, rfl⟩ := List.mem_map.mp hl
    exact unreturned_rtrim line
  | assertion path condition =>
    simp only [simpleLines, List.cons_append, List.mem_cons, List.mem_append, List.not_mem_nil,
      or_false] at hl
    rcases hl with rfl | hl | rfl
    · exact unreturned_append (by decide) (by decide)
    · obtain ⟨line, -, rfl⟩ := List.mem_map.mp hl
      exact unreturned_trim line
    · exact (by decide : Unreturned "\x7d")

theorem unreturned_elementText (tag : Tag) (args : String) (isEmpty : Bool) :
    Unreturned (elementText tag args isEmpty) := by
  unfold elementText
  split <;> exact unreturned_append (by decide) (by decide)

theorem unreturned_headText (o : Opening) : Unreturned (headText o) := by
  cases o with
  | element tag attributes value => exact unreturned_elementText _ _ _
  | mapping => exact (by decide : Unreturned "")
  | _ => exact unreturned_append (by decide) (by decide)

theorem unreturned_tailText (o : Opening) : Unreturned (tailText o) := by
  cases o with
  | compute => exact unreturned_append (by decide) (by decide)
  | _ => exact (by decide : Unreturned "\x7d")

theorem unreturned_blockLines {b : Block} (h : ∀ x ∈ b.names, Unreturned x) :
    ∀ {depth : Nat}, ∀ l ∈ blockLines depth b, Unreturned l.text :=
  forall_blockLines (P := Unreturned) (fun _ => unreturned_simpleLines)
    (fun _ _ _ _ => unreturned_elementText _ _ _) (fun o _ => unreturned_headText o)
    (fun o _ => unreturned_tailText o) h

/-! ### The text of a mapping on its own -/

theorem endLine_lineChars {l : ScriptLine} (h : Unreturned l.text) :
    endLine (lineChars unit l) = lineChars unit l := by
  rw [lineChars]
  split
  · rfl
  · next htext =>
    have hne : l.text.toList ≠ [] := by simpa [String.isEmpty_iff] using htext
    rw [endLine_append hne, endLine, if_neg h]

/-- A text without its last line break. -/
def withoutBreak (cs : List Char) : List Char := if cs.getLast? = some '\n' then cs.dropLast else cs

/-- Lines without their line breaks, put together, have no line break at the end. -/
theorem toList_joinWith_lineChars (unit : Nat) (ls : List ScriptLine) :
    (joinWith "\n" (ls.map fun l => String.ofList (lineChars unit l))).toList =
      withoutBreak (charsOf unit ls) := by
  by_cases hnil : ls = []
  · rw [hnil]
    rfl
  · have hne : (ls.map fun l => String.ofList (lineChars unit l)) ≠ [] := by simpa using hnil
    have hchars : charsOf unit ls =
        (joinWith "\n" (ls.map fun l => String.ofList (lineChars unit l))).toList ++ ['\n'] := by
      rw [toList_joinWith_newline hne, List.flatMap_map, charsOf]
      exact List.flatMap_congr fun l _ => by rw [String.toList_ofList]; rfl
    rw [hchars, withoutBreak, List.getLast?_concat, if_pos rfl, List.dropLast_concat]

/-- What is captured of a block of plain names, at whatever depth, is its text at depth zero without
the last line break. -/
theorem captured_eq_withoutBreak (h : ∀ x ∈ b.names, isPlainName x = true) (unit depth : Nat) :
    captured unit depth b = String.ofList (withoutBreak (charsOf unit (blockLines 0 b))) := by
  have hlines : (blockLines 0 b).map (fun l => String.ofList (endLine (lineChars unit l))) =
      (blockLines 0 b).map fun l => String.ofList (lineChars unit l) :=
    List.map_congr_left fun l hl => congrArg String.ofList <| endLine_lineChars <|
      unreturned_blockLines (fun x hx => unreturned_of_isPlainName (h x hx)) l hl
  rw [captured, map_dropMargin_lines fun x hx => oneLine_of_isPlainName (h x hx), hlines,
    ← toList_joinWith_lineChars, String.ofList_toList]

/-- Printing in one pass gives the same text whatever is in focus. It captures something exactly if a
mapping of the program is in focus, and then what the block of the first one is printed as at depth
zero, without the last line break. -/
theorem printed_focus (layout : Layout) (p : Program)
    (h : ∀ x ∈ p.names, isPlainName x = true) :
    (∀ focus, printed layout focus p = ⟨print layout p, focus.bind fun f => capture? layout f p⟩) ∧
    ∀ f, ((capture? layout f p).isSome = true ↔
        ∃ k ∈ p.marks, k.output = f.output ∧ k.input = f.input) ∧
      ∀ k, p.marks.find? (Mark.isFocus f) = some k → capture? layout f p =
        some (String.ofList (withoutBreak (charsOf layout.indent (blockLines 0 k.body)))) := by
  have hcapture (f : Focus) : capture? layout f p =
      (p.marks.find? (Mark.isFocus f)).map fun k => captured layout.indent 0 k.body :=
    capture?_eq layout f fun x hx => oneLine_of_isPlainName (h x hx)
  refine ⟨fun focus => printed_eq layout focus p, fun f => ⟨?_, fun k hk => ?_⟩⟩
  · rw [hcapture, Option.isSome_map, List.find?_isSome]
    refine exists_congr fun k => and_congr_right fun _ => ?_
    rw [Mark.isFocus, decide_eq_true_iff]
    exact and_congr eq_comm eq_comm
  · have hnames : ∀ x ∈ k.body.names, isPlainName x = true := fun x hx =>
      h x (Program.names_subset_of_mem_marks (List.mem_of_find?_eq_some hk) hx)
    rw [hcapture, hk, Option.map_some, captured_eq_withoutBreak hnames]

/-- The mapping of which there are several. -/
def nestedFocus : Focus where
  output := .ofNames ["a"]
  input := .ofNames ["m"]

/-- What it emits, with a further mapping of the same output and input inside. -/
def nestedBody : Block :=
  .one (.code "f(_x)\r\n\n") ++ .around (.mapping nestedFocus.output nestedFocus.input)
    (.one (.define "_v" (.literal "a\r\n")))

/-- A program in which the mapping stands again behind the first one. -/
def nestedProgram : Program where
  prologue := .nil
  output :=
    .around (.loop "_x" (.nav "_input" [.elem none "m"]) false)
        (.around (.mapping nestedFocus.output nestedFocus.input) nestedBody)
      ++ .around (.mapping nestedFocus.output nestedFocus.input) (.one (.code "g()"))
  epilogue := .one (.comment "end\r")

theorem nestedProgram_focus :
    (∀ x ∈ nestedProgram.names, isPlainName x = true) ∧
      capture? {} nestedFocus nestedProgram = some "f(_x)\n\ndef _v = 'a\r\\n'" := by
  have hnames : ∀ x ∈ nestedProgram.names, isPlainName x = true := by decide
  have hfirst : nestedProgram.marks.find? (Mark.isFocus nestedFocus) =
      some ⟨nestedFocus.output, nestedFocus.input, nestedBody⟩ :=
    List.find?_cons_of_pos (decide_eq_true ⟨rfl, rfl⟩)
  have hcapture := ((printed_focus {} nestedProgram hnames).2 nestedFocus).2 _ hfirst
  exact ⟨hnames, hcapture.trans (by decide +kernel)⟩

end Crosswalk.Script
