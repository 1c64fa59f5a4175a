import Crosswalk.Proofs.SnippetText
import Mathlib.Data.List.Flatten

/-!
What parsing keeps of a text. Code is taken over up to blanks, and so is the block behind the guard,
but for two things: the line that closes the block goes as a whole, and a line of the block goes if
the common margin, which is counted in bytes, ends within one of its characters.
-/

namespace Crosswalk.Text

open Brackets

variable {as cs line : List Char}

/-- The characters of a text that are not blank. -/
def ink (cs : List Char) : List Char := cs.filter fun c => !isBlank c

@[simp] theorem ink_append : ink (as ++ cs) = ink as ++ ink cs := List.filter_append ..

theorem ink_eq_nil_iff : ink cs = [] ↔ allBlank cs = true := by
  rw [ink, List.filter_eq_nil_iff, allBlank, List.all_eq_true]
  simp

theorem ink_of_trims (h : Trims line cs) : ink line = ink cs := by
  obtain ⟨front, back, rfl, hfront, hback⟩ := h
  rw [ink_append, ink_append, ink_eq_nil_iff.mpr (List.all_eq_true.mpr hfront),
    ink_eq_nil_iff.mpr (List.all_eq_true.mpr hback), List.nil_append, List.append_nil]

theorem ink_trimEnd : ink (trimEnd cs) = ink cs := (ink_of_trims trims_dropEnd).symm

end Crosswalk.Text

namespace Crosswalk.Snippet

open Text Script Brackets

variable {as bs cs line : List Char} {ls block : List (List Char)} {depth : Int} {n : Nat}

/-! ### Lines -/

theorem ink_unlines : ink (unlines ls) = ls.flatMap ink := by
  induction ls with
  | nil => rfl
  | cons line ls ih =>
    rw [List.flatMap_cons]
    by_cases hnil : ls = []
    · rw [hnil, unlines, List.intercalate_singleton, List.flatMap_nil, List.append_nil]
    · rw [unlines_cons hnil, ink_append, ← ih]
      rfl

/-- Cutting a text into lines loses blanks only. -/
theorem flatMap_ink_lines : (lines cs).flatMap ink = ink cs := by
  obtain ⟨front, last, hpieces, hlines⟩ := exists_lines_eq cs
  have hfront : (front.map endLine).flatMap ink = front.flatMap ink := by
    rw [List.flatMap_map]
    exact List.flatMap_congr fun l _ => (ink_of_trims trims_endLine).symm
  calc (lines cs).flatMap ink
      = (front ++ [last]).flatMap ink := by
        rw [hlines, List.flatMap_append, hfront, List.flatMap_append]
        split
        · next hlast => rw [hlast]; rfl
        · rfl
    _ = ink cs := by rw [← ink_unlines, ← hpieces, unlines_pieces]

/-! ### Margins -/

/-- What is dropped is a text of that many bytes, or all of the line. -/
theorem dropBytes_cases (n : Nat) (cs : List Char) :
    (∃ front, cs = front ++ dropBytes n cs ∧ byteLength front = n) ∨ dropBytes n cs = [] := by
  induction cs generalizing n with
  | nil => exact .inr dropBytes_nil
  | cons c cs ih =>
    cases n with
    | zero => exact .inl ⟨[], rfl, rfl⟩
    | succ n =>
      rw [dropBytes]
      split
      · next hsize =>
        refine (ih (n + 1 - c.utf8Size)).imp_left ?_
        rintro ⟨front, heq, hlength⟩
        exact ⟨c :: front, congrArg (c :: ·) heq, by rw [byteLength, hlength]; omega⟩
      · exact .inr rfl

theorem prefix_of_byteLength_le (has : as <+: cs) (hbs : bs <+: cs)
    (h : byteLength as ≤ byteLength bs) : as <+: bs := by
  rcases List.prefix_or_prefix_of_prefix has hbs with hle | ⟨rest, rfl⟩
  · exact hle
  · cases rest with
    | nil => rw [List.append_nil]
    | cons c rest =>
      have hsize := c.utf8Size_pos
      rw [byteLength_append, byteLength] at h
      omega

/-- Whether the first `n` bytes of a line are whole characters. -/
def IsBoundary (n : Nat) (line : List Char) : Prop :=
  ∃ front, front <+: line ∧ byteLength front = n

/-- A margin of whole characters, no longer than the indentation, is blank. -/
theorem ink_dropBytes (h : allBlank line = true ∨ IsBoundary n line ∧ n ≤ indentation line) :
    ink (dropBytes n line) = ink line := by
  rcases h with hblank | ⟨⟨front, hfront, hlength⟩, hle⟩
  · have hdropped : allBlank (dropBytes n line) = true :=
      List.all_eq_true.mpr fun c hc => List.all_eq_true.mp hblank c (dropBytes_suffix.subset hc)
    rw [ink_eq_nil_iff.mpr hblank, ink_eq_nil_iff.mpr hdropped]
  · have hinside : front <+: line.takeWhile isBlank :=
      prefix_of_byteLength_le hfront (List.takeWhile_prefix _) (hlength ▸ hle)
    obtain ⟨rest, rfl⟩ := hfront
    have hblank : allBlank front = true :=
      List.all_eq_true.mpr fun c hc => List.mem_takeWhile_imp (hinside.subset hc)
    rw [← hlength, dropBytes_byteLength, ink_append, ink_eq_nil_iff.mpr hblank, List.nil_append]

theorem ink_dropBytes_sublist : (ink (dropBytes n line)).Sublist (ink line) :=
  dropBytes_suffix.sublist.filter _

/-- A line that is not lost with its margin has a margin of whole characters. -/
theorem isBoundary_of_ink_dropBytes (hline : allBlank line = false)
    (h : ink (dropBytes n line) = ink line) : IsBoundary n line := by
  rcases dropBytes_cases n line with ⟨front, heq, hlength⟩ | hnone
  · exact ⟨front, ⟨_, heq.symm⟩, hlength⟩
  · rw [hnone] at h
    rw [ink_eq_nil_iff.mp h.symm] at hline
    cases hline

theorem flatMap_ink_dedent : (dedent block).flatMap ink =
    block.flatMap fun line => ink (dropBytes (commonMargin block) line) := by
  rw [dedent, List.flatMap_map]
  exact List.flatMap_congr fun line _ => ink_trimEnd

/-- Lines that are kept at most line by line are all kept if they are no longer in all. -/
theorem forall_eq_of_length_flatMap {f g : List Char → List Char}
    (hsub : ∀ line ∈ ls, (f line).Sublist (g line))
    (h : (ls.flatMap g).length ≤ (ls.flatMap f).length) : ∀ line ∈ ls, f line = g line := by
  induction ls with
  | nil => exact fun _ hline => by cases hline
  | cons line ls ih =>
    obtain ⟨hline, hls⟩ := List.forall_mem_cons.mp hsub
    have hfirst := hline.length_le
    have hrest := (List.Sublist.flatMap_right ls hls).length_le
    rw [List.flatMap_cons, List.flatMap_cons, List.length_append, List.length_append] at h
    exact List.forall_mem_cons.mpr ⟨hline.eq_of_length_le (by omega), ih hls (by omega)⟩

theorem braceBalance_nonneg (h : '\x7d' ∉ cs) : 0 ≤ braceBalance cs := by
  induction cs with
  | nil => exact Int.le_refl 0
  | cons c cs ih =>
    rw [List.mem_cons, not_or] at h
    have hrest := ih h.2
    rw [braceBalance, if_neg (Ne.symm h.1)]
    split <;> omega

/-! ### The parts of a text -/

/-- The lines of a text with a block behind a guard. There is no closing line if the text ends
first. -/
structure Fallback where
  before : List (List Char)
  guard : List Char
  block : List (List Char)
  closer : Option (List Char)
  after : List (List Char)

/-- The brace that ends the block. -/
def Fallback.brace (f : Fallback) : List Char := if f.closer.isSome then ['\x7d'] else []

/-- Whether lines are those of a text with a block behind its first guard at brace depth zero. -/
structure Fallback.StandsIn (f : Fallback) (ls : List (List Char)) : Prop where
  lines : ls = f.before ++ f.guard :: (f.block ++ (f.closer.toList ++ f.after))
  first : Unguarded 0 f.before
  outermost : balance f.before = 0
  guard : isGuard f.guard = true
  stays : StaysOpen 1 f.block
  closes : ∀ c ∈ f.closer, 1 + balance (f.block ++ [c]) ≤ 0
  ends : f.closer = none → f.after = []

variable {f : Fallback} {s : String}

theorem Fallback.StandsIn.takeBlock_eq (h : f.StandsIn ls) :
    takeBlock 1 (f.block ++ (f.closer.toList ++ f.after)) = (f.block, f.after) := by
  cases hcloser : f.closer with
  | none =>
    rw [h.ends hcloser, Option.toList_none, List.append_nil, List.append_nil]
    exact takeBlock_self h.stays
  | some c => exact Snippet.takeBlock_eq h.stays (h.closes c hcloser)

theorem Fallback.StandsIn.parse_eq (h : f.StandsIn (Text.lines s.toList)) :
    parse s = ⟨String.ofList (trimEnd (unlines (f.before ++ f.after))),
      some (String.ofList (unlines (dedent f.block)))⟩ := by
  rw [parse_of_isGuard h.lines h.first h.outermost h.guard, h.takeBlock_eq]

/-- All lines of a text are code, or there is a block behind a guard. -/
theorem parse_cases (s : String) :
    Unguarded 0 (lines s.toList) ∨ ∃ f : Fallback, f.StandsIn (lines s.toList) := by
  refine unguarded_or_exists_guard.imp_right ?_
  rintro ⟨before, guard, rest, hlines, hbefore, hzero, hguard⟩
  have hbalance : balance before = 0 := by simpa using hzero
  obtain ⟨hstays, ⟨hrest, hafter⟩ | ⟨closer, hrest, hcloser⟩⟩ :=
    takeBlock_cases Int.one_pos (rfl : takeBlock 1 rest = (_, _))
  · refine ⟨⟨before, guard, rest, none, []⟩, ?_, hbefore, hbalance, hguard, hrest ▸ hstays,
      fun c hc => (by cases hc), fun _ => rfl⟩
    simpa using hlines
  · refine ⟨⟨before, guard, (takeBlock 1 rest).1, some closer, (takeBlock 1 rest).2⟩, ?_, hbefore,
      hbalance, hguard, hstays, fun c hc => Option.some.inj hc ▸ hcloser, fun h => (by cases h)⟩
    exact hlines.trans (congrArg (fun rest => before ++ guard :: rest) hrest)

/-- A snippet has a fallback exactly if there is a block behind a guard. -/
theorem isSome_absent_iff :
    (parse s).absent.isSome = true ↔ ∃ f : Fallback, f.StandsIn (lines s.toList) := by
  constructor
  · intro h
    refine (parse_cases s).resolve_left fun hplain => ?_
    rw [parse_of_unguarded hplain] at h
    cases h
  · rintro ⟨f, hf⟩
    rw [hf.parse_eq]
    rfl

/-! ### What is kept -/

theorem ink_code_of_unguarded (h : Unguarded 0 (lines s.toList)) :
    ink (parse s).code.toList = ink s.toList := by
  rw [parse_of_unguarded h, String.toList_ofList, ink_trimEnd, ink_unlines, flatMap_ink_lines]

namespace Fallback.StandsIn

theorem ink_guard (h : f.StandsIn ls) : ink f.guard = ink guardLine.toList :=
  ink_of_trims (isGuard_iff_trims.mp h.guard)

theorem ink_code (h : f.StandsIn (Text.lines s.toList)) :
    ink (parse s).code.toList = f.before.flatMap ink ++ f.after.flatMap ink := by
  rw [h.parse_eq, String.toList_ofList, ink_trimEnd, ink_unlines, List.flatMap_append]

theorem ink_absent {a : String} (h : f.StandsIn (Text.lines s.toList))
    (ha : a ∈ (parse s).absent) : ink a.toList = f.block.flatMap fun line =>
      ink (dropBytes (commonMargin f.block) line) := by
  rw [h.parse_eq] at ha
  rw [← Option.some.inj ha, String.toList_ofList, ink_unlines, flatMap_ink_dedent]

/-- Nothing but blanks is anywhere else than in the code, the guard, the block and the line that
closes it. -/
theorem ink_perm (h : f.StandsIn (Text.lines s.toList)) :
    (ink s.toList).Perm (ink (parse s).code.toList ++ f.block.flatMap ink ++ ink guardLine.toList ++
      f.closer.toList.flatMap ink) := by
  rw [← flatMap_ink_lines, h.lines, h.ink_code, ← h.ink_guard]
  refine List.perm_iff_count.mpr fun c => ?_
  simp only [List.flatMap_append, List.flatMap_cons, List.count_append]
  omega

/-- The line that closes a block holds a closing brace. -/
theorem closingBrace_mem {c : List Char} (h : f.StandsIn ls) (hc : c ∈ f.closer) :
    '\x7d' ∈ ink c := by
  have hopen := h.stays f.block (List.prefix_refl _)
  have hcloses := h.closes c hc
  rw [balance_append, balance_cons, balance_nil] at hcloses
  refine List.mem_filter.mpr ⟨?_, by decide⟩
  by_contra hmem
  have := braceBalance_nonneg hmem
  omega

theorem length_brace_le (h : f.StandsIn ls) :
    f.brace.length ≤ (f.closer.toList.flatMap ink).length := by
  cases hcloser : f.closer with
  | none => rw [Fallback.brace, hcloser]; rfl
  | some c =>
    rw [Fallback.brace, hcloser, Option.toList_some, List.flatMap_singleton]
    exact List.length_pos_of_mem (h.closingBrace_mem hcloser)

end Fallback.StandsIn

/-- Whether the line that closes the block is one brace, and every line of the block starts with
the characters of the common margin. -/
structure Fallback.Intact (f : Fallback) : Prop where
  closer : ∀ c ∈ f.closer, ink c = ['\x7d']
  margin : ∀ line ∈ f.block, allBlank line = false → IsBoundary (commonMargin f.block) line

/-- Whether every character of a text that is not blank is in the code or in the fallback of its
snippet, the guard and the brace that closes the block apart. -/
structure Keeps (s : String) : Prop where
  plain : (parse s).absent = none → (ink s.toList).Perm (ink (parse s).code.toList)
  lifted : ∀ f : Fallback, f.StandsIn (lines s.toList) → ∀ a ∈ (parse s).absent,
    (ink s.toList).Perm
      (ink (parse s).code.toList ++ ink a.toList ++ ink guardLine.toList ++ f.brace)

theorem Fallback.Intact.brace_eq (h : f.Intact) : f.brace = f.closer.toList.flatMap ink := by
  rw [Fallback.brace]
  cases hcloser : f.closer with
  | none => rfl
  | some c =>
    rw [Option.toList_some, List.flatMap_singleton, h.closer c hcloser]
    rfl

theorem Fallback.Intact.ink_block (h : f.Intact) :
    (f.block.flatMap fun line => ink (dropBytes (commonMargin f.block) line)) =
      f.block.flatMap ink := by
  refine List.flatMap_congr fun line hline => ink_dropBytes ?_
  cases hblank : allBlank line with
  | true => exact .inl rfl
  | false => exact .inr ⟨h.margin line hline hblank, commonMargin_le hline hblank⟩

theorem keeps_of_intact (h : ∀ f : Fallback, f.StandsIn (lines s.toList) → f.Intact) :
    Keeps s where
  plain hnone := by
    rcases parse_cases s with hplain | ⟨f, hf⟩
    · rw [ink_code_of_unguarded hplain]
    · rw [hf.parse_eq] at hnone
      cases hnone
  lifted f hf a ha := by
    rw [hf.ink_absent ha, (h f hf).ink_block, (h f hf).brace_eq]
    exact hf.ink_perm

/-- What is kept of a text is at most the block and the closing line, so each of its lines is kept
if all of it is. -/
theorem Keeps.intact (h : Keeps s) (hf : f.StandsIn (lines s.toList)) : f.Intact := by
  obtain ⟨a, ha⟩ := Option.isSome_iff_exists.mp (isSome_absent_iff.mpr ⟨f, hf⟩)
  have hkept := (h.lifted f hf a ha).length_eq
  have hall := hf.ink_perm.length_eq
  rw [hf.ink_absent ha] at hkept
  simp only [List.length_append] at hkept hall
  have hsub : ∀ line ∈ f.block,
      (ink (dropBytes (commonMargin f.block) line)).Sublist (ink line) :=
    fun line _ => ink_dropBytes_sublist
  have hblock := (List.Sublist.flatMap_right f.block hsub).length_le
  have hbrace := hf.length_brace_le
  constructor
  · intro c hc
    have hlength : (ink c).length ≤ 1 := by
      have hone : f.brace.length = 1 := by rw [Fallback.brace, Option.mem_def.mp hc]; rfl
      rw [Option.mem_def.mp hc, Option.toList_some, List.flatMap_singleton] at hbrace hall
      omega
    have hmem := hf.closingBrace_mem hc
    obtain ⟨d, hd⟩ :=
      List.length_eq_one_iff.mp (Nat.le_antisymm hlength (List.length_pos_of_mem hmem))
    rw [hd] at hmem ⊢
    rw [List.mem_singleton.mp hmem]
  · intro line hline hblank
    exact isBoundary_of_ink_dropBytes hblank (forall_eq_of_length_flatMap hsub (by omega) line hline)

/-- A snippet has a fallback exactly if there is a block behind a guard, and parsing loses no
character exactly if the line that closes this block is one brace and the margin of the block ends
between characters in each of its lines. -/
theorem parse_keeps_iff (s : String) :
    ((parse s).absent.isSome = true ↔ ∃ f : Fallback, f.StandsIn (lines s.toList)) ∧
      (Keeps s ↔ ∀ f : Fallback, f.StandsIn (lines s.toList) → f.Intact) :=
  ⟨isSome_absent_iff, fun h _ hf => h.intact hf, keeps_of_intact⟩

/-- What stands behind the brace that closes the block is lost, and so is a line of the block where
its margin ends within a character. -/
theorem closingLine_not_kept :
    ¬Keeps "if (_absent_) \x7b\n    x\n\x7d y" ∧
      ¬Keeps "if (_absent_) \x7b\n\u00a0x\n \u2003y\n\x7d" := by
  constructor <;> intro h
  · have hopen : StaysOpen 1 ["    x".toList] :=
      staysOpen_cons.mpr ⟨by decide, staysOpen_nil.mpr (by decide)⟩
    have hf : Fallback.StandsIn
        ⟨[], guardLine.toList, ["    x".toList], some "\x7d y".toList, []⟩
        (lines "if (_absent_) \x7b\n    x\n\x7d y".toList) :=
      ⟨by decide, unguarded_nil, rfl, by decide, hopen,
        fun c hc => Option.some.inj hc ▸ by decide, fun h => by cases h⟩
    exact absurd ((h.intact hf).closer _ rfl) (by decide)
  -- The first line is indented by the two bytes of U+00A0, the other by one and then three.
  · have hopen : StaysOpen 1 ["\u00a0x".toList, " \u2003y".toList] :=
      staysOpen_cons.mpr
        ⟨by decide, staysOpen_cons.mpr ⟨by decide, staysOpen_nil.mpr (by decide)⟩⟩
    have hf : Fallback.StandsIn
        ⟨[], guardLine.toList, ["\u00a0x".toList, " \u2003y".toList], some ['\x7d'], []⟩
        (lines "if (_absent_) \x7b\n\u00a0x\n \u2003y\n\x7d".toList) :=
      ⟨by decide, unguarded_nil, rfl, by decide, hopen,
        fun c hc => Option.some.inj hc ▸ by decide, fun h => by cases h⟩
    have hsplits := (h.intact hf).margin " \u2003y".toList (by simp) (by decide)
    exact absurd (ink_dropBytes (.inr ⟨hsplits, by decide⟩)) (by decide)

end Crosswalk.Snippet
