import Crosswalk.Proofs.Layout
import Crosswalk.Proofs.Trimming
import Mathlib.Data.List.Infix

/-!
Brackets of a script. A reader goes through a script with the brackets that it awaits and counts those
of code alone: neither those of literals between single quotes, in which a backslash escapes the next
character, nor those of comments, which go from two slashes to the end of their line. Where lines are
printed, indented and trimmed, the reader sees the same as in the text that they come from.
-/

namespace Crosswalk.Brackets

open Text

/-! ### Readers -/

/-- What a reader is in. -/
inductive Mode where
  | code
  /-- Code, directly after a slash. -/
  | slash
  | comment
  | literal
  /-- A literal, directly after a backslash. -/
  | escape
  deriving DecidableEq, Repr

/-- Where a reader is, with the closing brackets that it awaits, the innermost first. -/
structure Reader where
  mode : Mode := .code
  awaited : List Char := []
  deriving DecidableEq, Repr

namespace Mode

/-- What a reader is in after one more character. -/
def next : Mode → Char → Mode
  | code, c => if c = '/' then slash else if c = '\'' then literal else code
  | slash, c => if c = '/' then comment else if c = '\'' then literal else code
  | comment, c => if c = '\n' then code else comment
  | literal, c => if c = '\'' then code else if c = '\\' then escape else literal
  | escape, _ => literal

/-- Whether brackets count. -/
def isCode : Mode → Bool
  | code | slash => true
  | _ => false

/-- Whether a literal has not ended. -/
def isLiteral : Mode → Bool
  | literal | escape => true
  | _ => false

end Mode

/-- The bracket that closes one that opens. -/
def closer? (c : Char) : Option Char :=
  if c = '(' then some ')' else if c = '[' then some ']' else if c = '\x7b' then some '\x7d' else none

/-- What is awaited after a closing bracket, which has to be the innermost awaited one. -/
def close : List Char → Char → Option (List Char)
  | [], _ => none
  | d :: rest, c => if c = d then some rest else none

/-- What is awaited after a character of code. -/
def await (awaited : List Char) (c : Char) : Option (List Char) :=
  match closer? c with
  | some d => some (d :: awaited)
  | none => if c = ')' ∨ c = ']' ∨ c = '\x7d' then close awaited c else some awaited

/-- Reads one character. -/
def step (r : Reader) (c : Char) : Option Reader :=
  (if r.mode.isCode then await r.awaited c else some r.awaited).map (⟨r.mode.next c, ·⟩)

/-- Reads some characters in turn. -/
def read (r : Reader) : List Char → Option Reader
  | [] => some r
  | c :: cs => (step r c).bind (read · cs)

/-- Whether the brackets of a script are properly nested and all closed, and its literals too. -/
def isBalanced (s : String) : Bool :=
  (read {} s.toList).any fun r => r.awaited.isEmpty && !r.mode.isLiteral

variable {m : Mode} {as bs below : List Char} {r r' : Reader} {c : Char} {cs ds : List Char}

theorem read_append : read r (cs ++ ds) = (read r cs).bind (read · ds) := by
  induction cs generalizing r with
  | nil => rfl
  | cons c cs ih =>
    rw [List.cons_append, read, read, Option.bind_assoc]
    exact Option.bind_congr fun r' _ => ih

/-- Texts are read the same way part by part. -/
theorem read_append_congr {cs' ds' : List Char} (hcs : read r cs = read r cs')
    (hds : ∀ r', read r cs' = some r' → read r' ds = read r' ds') :
    read r (cs ++ ds) = read r (cs' ++ ds') := by
  rw [read_append, read_append, hcs]
  exact Option.bind_congr hds

/-! ### What is awaited around -/

theorem close_append (h : close as c = some bs) : close (as ++ below) c = some (bs ++ below) := by
  cases as with
  | nil => cases h
  | cons d as =>
    rw [close] at h
    rw [List.cons_append, close]
    split at h
    · next hd => cases h; rw [if_pos hd]
    · cases h

theorem await_append (h : await as c = some bs) : await (as ++ below) c = some (bs ++ below) := by
  rw [await] at h ⊢
  split at h
  · cases h; rfl
  · split at h
    · next hc => rw [if_pos hc, close_append h]
    · next hc => cases h; rw [if_neg hc]

/-- A reader that gets through a text gets through it the same way with more awaited around it. -/
theorem read_around {m' : Mode} (h : read ⟨m, as⟩ cs = some ⟨m', bs⟩) :
    read ⟨m, as ++ below⟩ cs = some ⟨m', bs ++ below⟩ := by
  induction cs generalizing m as with
  | nil => cases h; rfl
  | cons c cs ih =>
    obtain ⟨⟨m₁, as₁⟩, hstep, hrest⟩ := Option.bind_eq_some_iff.mp h
    obtain ⟨as₂, hawait, heq⟩ := Option.map_eq_some_iff.mp hstep
    cases heq
    have hstep' : step ⟨m, as ++ below⟩ c = some ⟨m.next c, as₁ ++ below⟩ := by
      -- Only code looks at what is awaited, and there it needs no more than the innermost bracket.
      dsimp only at hawait
      rw [step]
      dsimp only
      split at hawait
      · next hcode => rw [if_pos hcode, await_append hawait, Option.map_some]
      · next hcode => cases hawait; rw [if_neg hcode, Option.map_some]
    rw [read, hstep', Option.bind_some]
    exact ih hrest

/-! ### Ordinary characters -/

/-- The characters that mean something to a reader, apart from line feeds. -/
def marks : List Char := ['/', '\'', '\\', '(', ')', '[', ']', '\x7b', '\x7d']

theorem notMem_marks_iff : c ∉ marks ↔ c ≠ '/' ∧ c ≠ '\'' ∧ c ≠ '\\' ∧ c ≠ '(' ∧ c ≠ ')' ∧ c ≠ '[' ∧
    c ≠ ']' ∧ c ≠ '\x7b' ∧ c ≠ '\x7d' := by
  simp [marks]

theorem step_of_notMem (h : c ∉ marks) : step r c = some ⟨r.mode.next c, r.awaited⟩ := by
  have hawait : await r.awaited c = some r.awaited := by
    simp [await, closer?, notMem_marks_iff.mp h]
  rw [step, hawait, ite_self]
  rfl

theorem Mode.next_code (h : c ∉ marks) : code.next c = code := by
  simp [next, notMem_marks_iff.mp h]

theorem notMem_marks_of_all {p : Char → Bool} (hmarks : marks.all (fun c => !p c) = true)
    (h : p c = true) : c ∉ marks := by
  intro hc
  have hmark := List.all_eq_true.mp hmarks c hc
  rw [h] at hmark
  cases hmark

theorem notMem_marks_of_isWordChar (h : isWordChar c = true) : c ∉ marks :=
  notMem_marks_of_all (by decide) h

theorem notMem_marks_of_isBlank (h : isBlank c = true) : c ∉ marks :=
  notMem_marks_of_all (by decide) h

/-- Code without marks is read over. -/
theorem read_ordinary (h : ∀ c ∈ cs, c ∉ marks) : read ⟨.code, as⟩ cs = some ⟨.code, as⟩ := by
  induction cs with
  | nil => rfl
  | cons c cs ih =>
    obtain ⟨hc, hcs⟩ := List.forall_mem_cons.mp h
    rw [read, step_of_notMem hc, Mode.next_code hc, Option.bind_some, ih hcs]

/-! ### Literals and comments -/

theorem read_escaped (h : Escaped cs ds) : read ⟨.literal, as⟩ ds = some ⟨.literal, as⟩ := by
  induction h with
  | nil => rfl
  | escape _ _ ih => exact ih
  | @ordinary c _ _ hslash hquote _ _ ih =>
    have hnext : Mode.literal.next c = .literal := by simp [Mode.next, hslash, hquote]
    rw [read, step, hnext]
    exact ih

theorem read_comment (h : '\n' ∉ cs) : read ⟨.comment, as⟩ cs = some ⟨.comment, as⟩ := by
  induction cs with
  | nil => rfl
  | cons c cs ih =>
    rw [List.mem_cons, not_or] at h
    have hnext : Mode.comment.next c = .comment := by simp [Mode.next, Ne.symm h.1]
    rw [read, step, hnext]
    exact ih h.2

/-! ### Lines -/

/-- Whether a reader can be in a mode where a line starts: a line feed would leave it there. -/
def Mode.StartsLine (m : Mode) : Prop := m.next '\n' = m

theorem Mode.startsLine_code : code.StartsLine := rfl

theorem Mode.startsLine_next (m : Mode) : (m.next '\n').StartsLine := by
  cases m <;> rfl

theorem Mode.next_blank (hm : m.StartsLine) (h : isBlank c = true) : m.next c = m := by
  have hc := notMem_marks_iff.mp (notMem_marks_of_isBlank h)
  cases m with
  | code => exact next_code (notMem_marks_of_isBlank h)
  | literal => simp [next, hc]
  | _ => cases hm

theorem Mode.next_blank_newline (m : Mode) (h : isBlank c = true) :
    (m.next c).next '\n' = m.next '\n' := by
  have hc := notMem_marks_iff.mp (notMem_marks_of_isBlank h)
  cases m with
  | comment =>
    rw [next]
    split <;> rfl
  | _ => simp [next, hc]

theorem read_newline : read r ['\n'] = some ⟨r.mode.next '\n', r.awaited⟩ := by
  rw [read, step_of_notMem (by decide)]
  rfl

theorem startsLine_of_read (h : read r (cs ++ ['\n']) = some r') : r'.mode.StartsLine := by
  obtain ⟨q, -, hq⟩ := Option.bind_eq_some_iff.mp (read_append ▸ h)
  rw [read_newline] at hq
  cases hq
  exact Mode.startsLine_next q.mode

/-- Blanks where a line starts are read over. -/
theorem read_blanks (hr : r.mode.StartsLine) (h : ∀ c ∈ cs, isBlank c = true) :
    read r cs = some r := by
  induction cs with
  | nil => rfl
  | cons c cs ih =>
    obtain ⟨hc, hcs⟩ := List.forall_mem_cons.mp h
    rw [read, step_of_notMem (notMem_marks_of_isBlank hc), Mode.next_blank hr hc, Option.bind_some,
      ih hcs]

/-- Blanks where a line ends are read over. -/
theorem read_blanks_newline (h : ∀ c ∈ cs, isBlank c = true) :
    read r (cs ++ ['\n']) = read r ['\n'] := by
  induction cs generalizing r with
  | nil => rfl
  | cons c cs ih =>
    obtain ⟨hc, hcs⟩ := List.forall_mem_cons.mp h
    rw [List.cons_append, read, step_of_notMem (notMem_marks_of_isBlank hc), Option.bind_some, ih hcs,
      read_newline, read_newline, Mode.next_blank_newline _ hc]

/-- Whether a text is a line without some of the blanks at its ends. -/
def Trims (line text : List Char) : Prop :=
  ∃ front back, line = front ++ text ++ back ∧ (∀ c ∈ front, isBlank c = true) ∧
    ∀ c ∈ back, isBlank c = true

theorem trims_self {line : List Char} : Trims line line :=
  ⟨[], [], (List.append_nil line).symm, List.forall_mem_nil _, List.forall_mem_nil _⟩

theorem trims_front {front text : List Char} (h : ∀ c ∈ front, isBlank c = true) :
    Trims (front ++ text) text :=
  ⟨front, [], (List.append_nil _).symm, h, List.forall_mem_nil _⟩

theorem trims_back {text back : List Char} (h : ∀ c ∈ back, isBlank c = true) :
    Trims (text ++ back) text :=
  ⟨[], back, rfl, List.forall_mem_nil _, h⟩

/-- A trimmed line is read as the line is. -/
theorem Trims.read_eq {line text : List Char} (h : Trims line text) (hr : r.mode.StartsLine) :
    read r (text ++ ['\n']) = read r (line ++ ['\n']) := by
  obtain ⟨front, back, rfl, hfront, hback⟩ := h
  calc read r (text ++ ['\n'])
      = read r (text ++ (back ++ ['\n'])) :=
        read_append_congr rfl fun _ _ => (read_blanks_newline hback).symm
    _ = read r (front ++ (text ++ (back ++ ['\n']))) :=
        (read_append.trans (by rw [read_blanks hr hfront, Option.bind_some])).symm
    _ = read r (front ++ text ++ back ++ ['\n']) := by simp only [List.append_assoc]

theorem trims_dropEnd {line : List Char} : Trims line (dropEnd isBlank line) := by
  obtain ⟨back, heq, hback⟩ := exists_dropEnd isBlank line
  have htrims : Trims (dropEnd isBlank line ++ back) (dropEnd isBlank line) := trims_back hback
  rwa [← heq] at htrims

theorem trims_strip {line : List Char} : Trims line (strip isBlank line) := by
  obtain ⟨back, heq, hback⟩ := exists_dropEnd isBlank (line.dropWhile isBlank)
  refine ⟨line.takeWhile isBlank, back, ?_, List.all_eq_true.mp List.all_takeWhile, hback⟩
  rw [List.append_assoc, strip, ← heq, List.takeWhile_append_dropWhile]

theorem trims_endLine {line : List Char} : Trims line (Script.endLine line) := by
  rw [Script.endLine]
  split
  · next hlast =>
    obtain ⟨front, rfl⟩ := List.getLast?_eq_some_iff.mp hlast
    rw [List.dropLast_concat]
    exact trims_back (List.forall_mem_singleton.mpr rfl)
  · exact trims_self

theorem flatMap_consFirst {ps : List (List Char)} (h : ps ≠ []) :
    (consFirst c ps).flatMap (· ++ ['\n']) = c :: ps.flatMap (· ++ ['\n']) := by
  cases ps with
  | nil => exact absurd rfl h
  | cons p ps => rfl

theorem flatMap_pieces : (pieces '\n' cs).flatMap (· ++ ['\n']) = cs ++ ['\n'] := by
  induction cs with
  | nil => rfl
  | cons c cs ih =>
    have hne : pieces '\n' cs ≠ [] := by
      intro hnil
      rw [hnil] at ih
      exact List.append_ne_nil_of_right_ne_nil cs (List.cons_ne_nil _ _) ih.symm
    rw [pieces]
    split
    · next hc => rw [List.flatMap_cons, ih, hc]; rfl
    · rw [flatMap_consFirst hne, ih]; rfl

/-- Line breaks are read alike. -/
theorem read_endLines {ps : List (List Char)} (hr : r.mode.StartsLine) :
    read r ((endLines ps).flatMap (· ++ ['\n'])) = read r (ps.flatMap (· ++ ['\n'])) := by
  fun_induction endLines ps generalizing r with
  | case1 => rfl
  | case2 last hempty =>
    -- An empty piece at the end is a line feed where a line starts, which changes nothing.
    rw [List.isEmpty_iff.mp hempty]
    exact (read_newline.trans (by rw [hr]; rfl)).symm
  | case3 => rfl
  | case4 line next rest ih =>
    rw [List.flatMap_cons, List.flatMap_cons]
    exact read_append_congr (trims_endLine.read_eq hr) fun _ hr' => ih (startsLine_of_read hr')

/-- Lines are read alike if each of them is. -/
theorem read_flatMap_congr {α : Type} {ls : List α} {f g : α → List Char}
    (h : ∀ l ∈ ls, ∀ r : Reader, r.mode.StartsLine →
      read r (f l ++ ['\n']) = read r (g l ++ ['\n'])) (hr : r.mode.StartsLine) :
    read r (ls.flatMap fun l => f l ++ ['\n']) = read r (ls.flatMap fun l => g l ++ ['\n']) := by
  induction ls generalizing r with
  | nil => rfl
  | cons l ls ih =>
    obtain ⟨hl, hls⟩ := List.forall_mem_cons.mp h
    rw [List.flatMap_cons, List.flatMap_cons]
    exact read_append_congr (hl r hr) fun _ hr' => ih hls (startsLine_of_read hr')

/-- The lines of a text are read as the text is, trimmed or not. -/
theorem read_lines {trimmed : List Char → List Char} (h : ∀ line, Trims line (trimmed line))
    (hr : r.mode.StartsLine) :
    read r ((lines cs).flatMap fun line => trimmed line ++ ['\n']) = read r (cs ++ ['\n']) := by
  rw [read_flatMap_congr (fun line _ _ hr => (h line).read_eq hr) hr, lines, read_endLines hr,
    flatMap_pieces]

/-! ### Printed lines -/

theorem isBlank_indentation {unit depth : Nat} :
    ∀ c ∈ ScriptLine.indentation unit depth, isBlank c = true := by
  intro c hc
  rw [List.eq_of_mem_replicate hc]
  rfl

theorem trims_lineChars {unit : Nat} {l : ScriptLine} :
    Trims (Script.lineChars unit l) l.text.toList := by
  rw [Script.lineChars]
  split
  · next hempty =>
    rw [String.isEmpty_iff.mp hempty]
    exact trims_self
  · exact trims_front isBlank_indentation

/-- Indentation is read over. -/
theorem read_charsOf {unit : Nat} {ls : List ScriptLine} (hr : r.mode.StartsLine) :
    read r (ScriptLine.charsOf unit ls) = read r (ls.flatMap fun l => l.text.toList ++ ['\n']) :=
  (read_flatMap_congr (fun _ _ _ hr => trims_lineChars.read_eq hr) hr).symm

/-! ### Balanced texts -/

/-- A text is balanced if a reader awaits nothing after it and the end of its line. -/
theorem isBalanced_iff {s : String} : isBalanced s = true ↔ read {} (s.toList ++ ['\n']) = some {} := by
  rw [isBalanced, read_append]
  cases read {} s.toList with
  | none => simp
  | some r =>
    rw [Option.any_some, Option.bind_some, read_newline]
    cases hmode : r.mode <;> simp [Mode.isLiteral, Mode.next]

/-- Whether a text has neither quotes nor comments, and its brackets are nested and closed. -/
structure IsNested (s : String) : Prop where
  quotes : '\'' ∉ s.toList
  comments : ¬ ['/', '/'] <:+: s.toList
  brackets : s.toList.foldlM await [] = some []

theorem isNested_iff {s : String} : IsNested s ↔
    '\'' ∉ s.toList ∧ ¬ ['/', '/'] <:+: s.toList ∧ s.toList.foldlM await [] = some [] := by
  constructor
  · exact fun h => ⟨h.quotes, h.comments, h.brackets⟩
  · rintro ⟨hquotes, hcomments, hbrackets⟩
    exact ⟨hquotes, hcomments, hbrackets⟩

instance (s : String) : Decidable (IsNested s) := decidable_of_iff _ isNested_iff.symm

/-- Without quotes and comments every bracket counts. -/
theorem read_eq_foldlM (hquotes : '\'' ∉ cs) (hcomments : ¬ ['/', '/'] <:+: cs) :
    ∀ {m : Mode} {as bs : List Char}, m.isCode = true → (m = .slash → cs.head? ≠ some '/') →
      cs.foldlM await as = some bs → ∃ m', m'.isCode = true ∧ read ⟨m, as⟩ cs = some ⟨m', bs⟩ := by
  induction cs with
  | nil =>
    intro m as bs hm _ h
    cases h
    exact ⟨m, hm, rfl⟩
  | cons c cs ih =>
    intro m as bs hm hslash h
    rw [List.mem_cons, not_or] at hquotes
    obtain ⟨as', hawait, hrest⟩ := Option.bind_eq_some_iff.mp h
    have hstep : step ⟨m, as⟩ c = some ⟨m.next c, as'⟩ := by
      rw [step, if_pos hm, hawait, Option.map_some]
    have hquote : c ≠ '\'' := Ne.symm hquotes.1
    have hcode : (m.next c).isCode = true := by
      cases m with
      | code =>
        rw [Mode.next, if_neg hquote]
        split <;> rfl
      | slash =>
        have hfirst : c ≠ '/' := fun hc => hslash rfl (congrArg some hc)
        rw [Mode.next, if_neg hfirst, if_neg hquote]
        rfl
      | _ => cases hm
    -- A slash after this one would be a comment in the text.
    have hnext : m.next c = .slash → cs.head? ≠ some '/' := by
      intro hnext hhead
      obtain ⟨ds, rfl⟩ := List.head?_eq_some_iff.mp hhead
      have hfirst : c ≠ '/' := fun hc => hcomments ⟨[], ds, by rw [hc]; rfl⟩
      cases m <;> simp [Mode.next, hfirst, hquote, Mode.isCode] at hnext hm
    have hcomments' : ¬ ['/', '/'] <:+: cs := fun h =>
      hcomments (h.trans (List.suffix_cons c cs).isInfix)
    obtain ⟨m', hm', hread⟩ := ih hquotes.2 hcomments' hcode hnext hrest
    exact ⟨m', hm', by rw [read, hstep, Option.bind_some, hread]⟩

theorem IsNested.isBalanced {s : String} (h : IsNested s) : isBalanced s = true := by
  obtain ⟨m, hm, hread⟩ := read_eq_foldlM h.quotes h.comments (m := .code) rfl nofun h.brackets
  rw [Brackets.isBalanced, hread, Option.any_some]
  cases m <;> trivial

end Crosswalk.Brackets
