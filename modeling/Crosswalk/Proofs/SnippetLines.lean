import Crosswalk.Proofs.Brackets
import Crosswalk.Snippet
import Mathlib.Data.List.Basic
import Mathlib.Data.List.TakeWhile

/-!
The lines of a snippet. A text is the lines that it is cut into with line feeds between them;
trimming its end drops its last blank lines and trims the one before. The guard that counts is the
first one at brace depth zero, and its block goes on for as long as a brace is open. A block without
its margin and its trailing blanks is flush, and is had back from its lines moved inwards.
-/

namespace Crosswalk.Text

variable {sep : Char} {as bs cs line : List Char} {ls : List (List Char)}

/-! ### Cutting a text into lines -/

/-- Only the line after the last line feed keeps a carriage return at its end, and is none if it is
empty. -/
theorem endLines_concat_of_ne_nil (h : line ≠ []) :
    endLines (ls ++ [line]) = ls.map Script.endLine ++ [line] := by
  induction ls with
  | nil => simp [endLines, h]
  | cons l ls ih =>
    cases ls with
    | nil => rw [List.cons_append, List.nil_append, endLines, ← List.nil_append [line], ih]; rfl
    | cons m ms => rw [List.cons_append, List.cons_append, endLines, ← List.cons_append, ih]; rfl

end Crosswalk.Text

namespace Crosswalk.Brackets

open Text

theorem Trims.trans {line text inner : List Char} (h : Trims line text) (h' : Trims text inner) :
    Trims line inner := by
  obtain ⟨front, back, rfl, hfront, hback⟩ := h
  obtain ⟨front', back', rfl, hfront', hback'⟩ := h'
  exact ⟨front ++ front', back' ++ back, by simp only [List.append_assoc],
    List.forall_mem_append.mpr ⟨hfront, hfront'⟩, List.forall_mem_append.mpr ⟨hback', hback⟩⟩

end Crosswalk.Brackets

namespace Crosswalk.Snippet

open Text Script Brackets

variable {as cs line guard : List Char} {ls ms before block after : List (List Char)} {depth : Int}
  {n : Nat}

/-! ### Lines as one text -/

theorem unlines_cons (h : ls ≠ []) : unlines (line :: ls) = line ++ '\n' :: unlines ls := by
  cases ls with
  | nil => exact absurd rfl h
  | cons l ls => rw [unlines, List.intercalate_cons_cons, List.append_assoc]; rfl

theorem unlines_concat (h : ls ≠ []) : unlines (ls ++ [line]) = unlines ls ++ '\n' :: line := by
  induction ls with
  | nil => exact absurd rfl h
  | cons l ls ih =>
    cases ls with
    | nil =>
      rw [List.cons_append, List.nil_append, unlines_cons (List.cons_ne_nil _ _)]
      simp [unlines]
    | cons m ms =>
      rw [List.cons_append, unlines_cons (by simp), ih (List.cons_ne_nil _ _),
        unlines_cons (List.cons_ne_nil _ _), List.append_assoc, List.cons_append]

theorem unlines_pieces : unlines (pieces '\n' cs) = cs := by
  induction cs with
  | nil => rfl
  | cons c cs ih =>
    rw [pieces]
    split
    · next hc => rw [unlines_cons pieces_ne_nil, ih, hc]; rfl
    · cases hpieces : pieces '\n' cs with
      | nil => exact absurd hpieces pieces_ne_nil
      | cons l ls =>
        rw [hpieces] at ih
        cases ls with
        | nil => simpa [consFirst, unlines] using ih
        | cons m ms =>
          rw [unlines_cons (List.cons_ne_nil _ _)] at ih
          rw [consFirst, unlines_cons (List.cons_ne_nil _ _), ← ih]
          rfl

theorem pieces_unlines (h : ∀ l ∈ ls, '\n' ∉ l) (hne : ls ≠ []) :
    pieces '\n' (unlines ls) = ls := by
  induction ls with
  | nil => exact absurd rfl hne
  | cons l ls ih =>
    obtain ⟨hl, hls⟩ := List.forall_mem_cons.mp h
    by_cases hnil : ls = []
    · rw [hnil, unlines, List.intercalate_singleton, pieces_of_notMem hl]
    · rw [unlines_cons hnil, pieces_append hl, ih hls hnil]

/-- The end of a text is trimmed line by line. -/
theorem trimEnd_unlines_concat :
    trimEnd (unlines (ls ++ [line])) =
      if trimEnd line = [] then trimEnd (unlines ls) else unlines (ls ++ [trimEnd line]) := by
  by_cases hnil : ls = []
  · subst hnil
    simp only [List.nil_append, unlines, List.intercalate_singleton]
    split
    · next hblank => rw [hblank]; rfl
    · rfl
  rw [unlines_concat hnil]
  split
  · next hblank =>
    exact dropEnd_append_of_forall (List.forall_mem_cons.mpr ⟨rfl, dropEnd_eq_nil_iff.mp hblank⟩)
  · next hne =>
    obtain ⟨ds, d, heq, hd⟩ := exists_concat_of_dropEnd_ne_nil hne
    obtain ⟨back, hline, hback⟩ := exists_dropEnd isBlank line
    have htrim : trimEnd line = ds ++ [d] := heq
    rw [unlines_concat hnil, htrim]
    conv_lhs => rw [hline, heq]
    calc trimEnd (unlines ls ++ '\n' :: (ds ++ [d] ++ back))
        = trimEnd ((unlines ls ++ '\n' :: (ds ++ [d])) ++ back) := by simp
      _ = trimEnd ((unlines ls ++ '\n' :: ds) ++ d :: []) := by
          rw [trimEnd, trimEnd, dropEnd_append_of_forall hback]; simp
      _ = unlines ls ++ '\n' :: (ds ++ [d]) := by
          rw [trimEnd, dropEnd_append_cons hd]; simp [dropEnd]

/-! ### Braces -/

theorem braceBalance_append : braceBalance (as ++ cs) = braceBalance as + braceBalance cs := by
  induction as with
  | nil => simp [braceBalance]
  | cons a as ih => rw [List.cons_append, braceBalance, braceBalance, ih, Int.add_assoc]

theorem braceBalance_of_blank (h : ∀ c ∈ cs, isBlank c = true) : braceBalance cs = 0 := by
  induction cs with
  | nil => rfl
  | cons c cs ih =>
    obtain ⟨hc, hcs⟩ := List.forall_mem_cons.mp h
    have hopening : c ≠ '\x7b' := fun heq => absurd (heq ▸ hc) (by decide)
    have hclosing : c ≠ '\x7d' := fun heq => absurd (heq ▸ hc) (by decide)
    rw [braceBalance, ih hcs, if_neg hopening, if_neg hclosing]
    rfl

/-- Blanks at the ends of a line do not count. -/
theorem braceBalance_of_trims (h : Trims line cs) : braceBalance line = braceBalance cs := by
  obtain ⟨front, back, rfl, hfront, hback⟩ := h
  rw [braceBalance_append, braceBalance_append, braceBalance_of_blank hfront,
    braceBalance_of_blank hback, Int.zero_add, Int.add_zero]

/-- A guard is the guard line between blanks. -/
theorem isGuard_iff_trims : isGuard line = true ↔ Trims line guardLine.toList := by
  constructor
  · intro h
    exact eq_of_beq h ▸ trims_strip
  · rintro ⟨front, back, rfl, hfront, hback⟩
    have hdrop : (front ++ guardLine.toList ++ back).dropWhile isBlank =
        guardLine.toList ++ back := by
      rw [List.append_assoc, List.dropWhile_append_of_pos hfront]
      rfl
    rw [isGuard, strip, hdrop, dropEnd_append_of_forall hback]
    decide

/-- What lines add to the brace depth. -/
def balance : List (List Char) → Int
  | [] => 0
  | line :: ls => braceBalance line + balance ls

@[simp] theorem balance_nil : balance [] = 0 := rfl

@[simp] theorem balance_cons : balance (line :: ls) = braceBalance line + balance ls := rfl

@[simp] theorem balance_append : balance (ls ++ ms) = balance ls + balance ms := by
  induction ls with
  | nil => simp
  | cons line ls ih => rw [List.cons_append, balance_cons, balance_cons, ih, Int.add_assoc]

/-! ### The block behind a guard -/

/-- Whether a block that is open `depth` deep is still open after each of some lines. -/
def StaysOpen (depth : Int) (ls : List (List Char)) : Prop :=
  ∀ before, before <+: ls → 0 < depth + balance before

theorem staysOpen_cons : StaysOpen depth (line :: ls) ↔
    0 < depth ∧ StaysOpen (depth + braceBalance line) ls := by
  constructor
  · intro h
    refine ⟨by simpa using h [] ⟨_, rfl⟩, fun before hbefore => ?_⟩
    have hline := h (line :: before) (List.cons_prefix_cons.mpr ⟨rfl, hbefore⟩)
    rwa [balance_cons, ← Int.add_assoc] at hline
  · rintro ⟨hdepth, hrest⟩ before hbefore
    cases before with
    | nil => simpa using hdepth
    | cons l before =>
      obtain ⟨rfl, hinitial⟩ := List.cons_prefix_cons.mp hbefore
      rw [balance_cons, ← Int.add_assoc]
      exact hrest before hinitial

theorem staysOpen_nil : StaysOpen depth [] ↔ 0 < depth := by
  constructor
  · intro h
    simpa using h [] (List.prefix_refl _)
  · intro h before hbefore
    rw [List.prefix_nil.mp hbefore, balance_nil, Int.add_zero]
    exact h

/-- A block goes on up to the line that closes it, or up to the end. -/
theorem takeBlock_cases (hdepth : 0 < depth) (h : takeBlock depth ls = (block, after)) :
    StaysOpen depth block ∧
      (ls = block ∧ after = [] ∨
        ∃ closer, ls = block ++ closer :: after ∧ depth + balance (block ++ [closer]) ≤ 0) := by
  induction ls generalizing depth block with
  | nil =>
    cases h
    exact ⟨staysOpen_nil.mpr hdepth, .inl ⟨rfl, rfl⟩⟩
  | cons line rest ih =>
    rw [takeBlock] at h
    split at h
    · next hclosed =>
      cases h
      exact ⟨staysOpen_nil.mpr hdepth, .inr ⟨line, rfl, by simpa using hclosed⟩⟩
    · next hopen =>
      cases h
      obtain ⟨hstays, hend⟩ := ih (by omega) rfl
      refine ⟨staysOpen_cons.mpr ⟨hdepth, hstays⟩, ?_⟩
      rcases hend with ⟨hrest, hafter⟩ | ⟨closer, hrest, hcloser⟩
      · exact .inl ⟨congrArg (line :: ·) hrest, hafter⟩
      · refine .inr ⟨closer, congrArg (line :: ·) hrest, ?_⟩
        rwa [List.cons_append, balance_cons, ← Int.add_assoc]

theorem takeBlock_eq {closer : List Char} (hopen : StaysOpen depth block)
    (hcloser : depth + balance (block ++ [closer]) ≤ 0) :
    takeBlock depth (block ++ closer :: after) = (block, after) := by
  induction block generalizing depth with
  | nil => rw [List.nil_append, takeBlock, if_pos (by simpa using hcloser)]
  | cons line block ih =>
    obtain ⟨-, hrest⟩ := staysOpen_cons.mp hopen
    have hline : ¬depth + braceBalance line ≤ 0 := by
      have := hrest [] ⟨_, rfl⟩
      rw [balance_nil] at this
      omega
    rw [List.cons_append, balance_cons, ← Int.add_assoc] at hcloser
    rw [List.cons_append, takeBlock, if_neg hline, ih hrest hcloser]

/-- Without a closing line the block goes on to the end. -/
theorem takeBlock_self (h : StaysOpen depth block) : takeBlock depth block = (block, []) := by
  induction block generalizing depth with
  | nil => rfl
  | cons line block ih =>
    obtain ⟨-, hrest⟩ := staysOpen_cons.mp h
    have hline := hrest [] (List.nil_prefix)
    rw [balance_nil] at hline
    rw [takeBlock, if_neg (by omega), ih hrest]

/-! ### The guard that counts -/

/-- Whether no line at brace depth zero is a guard. -/
def Unguarded (depth : Int) (ls : List (List Char)) : Prop :=
  ∀ before line, before ++ [line] <+: ls → depth + balance before = 0 → isGuard line = false

theorem unguarded_cons : Unguarded depth (line :: ls) ↔
    (depth = 0 → isGuard line = false) ∧ Unguarded (depth + braceBalance line) ls := by
  constructor
  · intro h
    refine ⟨fun hdepth => ?_, fun before l hbefore hzero => ?_⟩
    · exact h [] line (List.prefix_append [line] ls) (by simpa using hdepth)
    · exact h (line :: before) l (List.cons_prefix_cons.mpr ⟨rfl, hbefore⟩)
        (by rwa [balance_cons, ← Int.add_assoc])
  · rintro ⟨hline, hrest⟩ before l hbefore hzero
    cases before with
    | nil =>
      obtain ⟨rfl, -⟩ := List.cons_prefix_cons.mp hbefore
      exact hline (by simpa using hzero)
    | cons m before =>
      obtain ⟨rfl, hinitial⟩ := List.cons_prefix_cons.mp hbefore
      exact hrest before l hinitial (by rwa [balance_cons, ← Int.add_assoc] at hzero)

theorem Unguarded.initial (h : Unguarded depth ls) (hms : ms <+: ls) : Unguarded depth ms :=
  fun before line hbefore => h before line (hbefore.trans hms)

theorem unguarded_nil : Unguarded depth [] := fun before line hbefore => by
  have := List.prefix_nil.mp hbefore
  simp at this

/-- Lines without a guard are all code. -/
theorem splitGuard_of_unguarded (h : Unguarded depth ls) : splitGuard depth ls = (ls, none) := by
  induction ls generalizing depth with
  | nil => rfl
  | cons line ls ih =>
    obtain ⟨hline, hrest⟩ := unguarded_cons.mp h
    rw [splitGuard, if_neg (by simpa using hline), ih hrest]

/-- The first guard opens the block; what comes before and after it is code. -/
theorem splitGuard_of_isGuard (hbefore : Unguarded depth before)
    (hzero : depth + balance before = 0) (hguard : isGuard guard = true) :
    splitGuard depth (before ++ guard :: ls) =
      (before ++ (takeBlock 1 ls).2, some (takeBlock 1 ls).1) := by
  induction before generalizing depth with
  | nil =>
    have hdepth : depth = 0 := by simpa using hzero
    rw [List.nil_append, splitGuard, hguard, hdepth]
    rfl
  | cons line before ih =>
    obtain ⟨hline, hrest⟩ := unguarded_cons.mp hbefore
    rw [balance_cons, ← Int.add_assoc] at hzero
    rw [List.cons_append, splitGuard, if_neg (by simpa using hline), ih hrest hzero]
    rfl

/-- There is a guard at brace depth zero, or all lines are code. -/
theorem unguarded_or_exists_guard : Unguarded depth ls ∨ ∃ before guard after,
    ls = before ++ guard :: after ∧ Unguarded depth before ∧ depth + balance before = 0 ∧
      isGuard guard = true := by
  induction ls generalizing depth with
  | nil => exact .inl unguarded_nil
  | cons line ls ih =>
    by_cases hline : depth = 0 ∧ isGuard line = true
    · exact .inr ⟨[], line, ls, rfl, unguarded_nil, by simpa using hline.1, hline.2⟩
    have hplain : depth = 0 → isGuard line = false := by simpa using hline
    rcases @ih (depth + braceBalance line) with
      hrest | ⟨before, g, after, rfl, hbefore, hzero, hg⟩
    · exact .inl (unguarded_cons.mpr ⟨hplain, hrest⟩)
    · refine .inr ⟨line :: before, g, after, rfl, unguarded_cons.mpr ⟨hplain, hbefore⟩, ?_, hg⟩
      rwa [balance_cons, ← Int.add_assoc]

/-! ### Margins -/

theorem byteLength_append : byteLength (as ++ cs) = byteLength as + byteLength cs := by
  induction as with
  | nil => simp [byteLength]
  | cons a as ih => rw [List.cons_append, byteLength, byteLength, ih, Nat.add_assoc]

theorem dropBytes_byteLength : dropBytes (byteLength as) (as ++ cs) = cs := by
  induction as with
  | nil => rw [byteLength, dropBytes]; rfl
  | cons a as ih =>
    have hsize := a.utf8Size_pos
    obtain ⟨m, hm⟩ : ∃ m, byteLength (a :: as) = m + 1 :=
      ⟨byteLength (a :: as) - 1, by rw [byteLength]; omega⟩
    rw [hm, List.cons_append, dropBytes, ← hm, byteLength, if_pos (Nat.le_add_right ..),
      Nat.add_sub_cancel_left, ih]

theorem dropBytes_zero : dropBytes 0 cs = cs := by cases cs <;> rfl

theorem dropBytes_nil : dropBytes n [] = [] := by cases n <;> rfl

theorem dropBytes_suffix : dropBytes n cs <:+ cs := by
  induction cs generalizing n with
  | nil => rw [dropBytes_nil]
  | cons c cs ih =>
    cases n with
    | zero => exact List.suffix_refl _
    | succ n =>
      rw [dropBytes]
      split
      · exact ih.trans (List.suffix_cons c cs)
      · exact List.nil_suffix

theorem dropBytes_indentation : dropBytes (indentation line) line = line.dropWhile isBlank := by
  have hdrop : dropBytes (byteLength (line.takeWhile isBlank))
      (line.takeWhile isBlank ++ line.dropWhile isBlank) = line.dropWhile isBlank :=
    dropBytes_byteLength
  rwa [List.takeWhile_append_dropWhile] at hdrop

theorem mem_indentations {m : Nat} :
    m ∈ (ls.filter fun line => !allBlank line).map indentation ↔
      ∃ l ∈ ls, allBlank l = false ∧ indentation l = m := by
  simp [and_assoc]

theorem commonMargin_le (hmem : line ∈ ls) (h : allBlank line = false) :
    commonMargin ls ≤ indentation line := by
  have hline := mem_indentations.mpr ⟨line, hmem, h, rfl⟩
  rw [commonMargin]
  cases hmin : ((ls.filter fun line => !allBlank line).map indentation).min? with
  | none => exact Nat.zero_le _
  | some m => exact (List.min?_eq_some_iff.mp hmin).2 _ hline

theorem exists_commonMargin (hmem : line ∈ ls) (h : allBlank line = false) :
    ∃ l ∈ ls, allBlank l = false ∧ indentation l = commonMargin ls := by
  have hline := mem_indentations.mpr ⟨line, hmem, h, rfl⟩
  rw [commonMargin]
  cases hmin : ((ls.filter fun line => !allBlank line).map indentation).min? with
  | none =>
    rw [List.min?_eq_none_iff.mp hmin] at hline
    cases hline
  | some m => exact mem_indentations.mp (List.min?_eq_some_iff.mp hmin).1

theorem commonMargin_of_allBlank (h : ∀ l ∈ ls, allBlank l = true) : commonMargin ls = 0 := by
  have hnone : (ls.filter fun line => !allBlank line) = [] :=
    List.filter_eq_nil_iff.mpr fun l hl => by simp [h l hl]
  rw [commonMargin, hnone]
  rfl

theorem commonMargin_eq_zero (hmem : line ∈ ls) (hblank : allBlank line = false)
    (hindentation : indentation line = 0) : commonMargin ls = 0 :=
  Nat.le_zero.mp (hindentation ▸ commonMargin_le hmem hblank)

/-- Where a line is not indented, only the ends of the lines are trimmed. -/
theorem dedent_of_commonMargin (h : commonMargin ls = 0) : dedent ls = ls.map trimEnd := by
  simp only [dedent, h, dropBytes_zero]

/-- Whether lines have neither a common margin nor trailing blanks. -/
structure Flush (ls : List (List Char)) : Prop where
  trimmed : ∀ l ∈ ls, trimEnd l = l
  margin : commonMargin ls = 0

theorem trimEnd_eq_nil_iff : trimEnd line = [] ↔ allBlank line = true :=
  dropEnd_eq_nil_iff.trans List.all_eq_true.symm

theorem flush_dedent : Flush (dedent ls) where
  trimmed l hl := by
    obtain ⟨line, -, rfl⟩ := List.mem_map.mp hl
    exact dropEnd_dropEnd
  margin := by
    by_cases hblank : ∀ l ∈ ls, allBlank l = true
    · refine commonMargin_of_allBlank fun l hl => ?_
      obtain ⟨line, hline, rfl⟩ := List.mem_map.mp hl
      have hdropped : allBlank (dropBytes (commonMargin ls) line) = true :=
        List.all_eq_true.mpr fun c hc =>
          List.all_eq_true.mp (hblank line hline) c (dropBytes_suffix.subset hc)
      rw [trimEnd_eq_nil_iff.mpr hdropped]
      rfl
    -- A line with the least indentation starts with its first character that is not blank.
    · push Not at hblank
      obtain ⟨line, hline, hline'⟩ := hblank
      obtain ⟨l, hl, hlblank, hleast⟩ := exists_commonMargin hline (by simpa using hline')
      have hdropped : dropBytes (indentation l) l = l.dropWhile isBlank := dropBytes_indentation
      rw [hleast] at hdropped
      cases hfirst : l.dropWhile isBlank with
      | nil =>
        rw [allBlank, List.all_eq_true.mpr (List.dropWhile_eq_nil_iff.mp hfirst)] at hlblank
        cases hlblank
      | cons c rest =>
        have hc : isBlank c = false := by
          have := List.head?_dropWhile_not isBlank l
          simpa [hfirst] using this
        have hflush : trimEnd (dropBytes (commonMargin ls) l) = c :: trimEnd rest := by
          rw [hdropped, hfirst]
          have hfirst : dropEnd isBlank ([] ++ c :: rest) = [] ++ c :: dropEnd isBlank rest :=
            dropEnd_append_cons hc
          exact hfirst
        refine commonMargin_eq_zero (List.mem_map.mpr ⟨l, hl, hflush⟩) ?_ ?_
        · simp [allBlank, hc]
        · simp [indentation, hc, byteLength]

theorem indentation_margin : indentation (margin ++ line) = 4 + indentation line := by
  have hmargin : (margin ++ line).takeWhile isBlank = margin ++ line.takeWhile isBlank :=
    List.takeWhile_append_of_pos (List.all_eq_true.mp (by decide))
  rw [indentation, hmargin, byteLength_append]
  rfl

/-- Dedenting undoes moving lines inwards. -/
theorem dedent_margin (h : Flush ls) : dedent (ls.map (margin ++ ·)) = ls := by
  rw [dedent, List.map_map]
  refine (List.map_congr_left fun l hl => ?_).trans (List.map_id ls)
  change trimEnd (dropBytes (commonMargin (ls.map (margin ++ ·))) (margin ++ l)) = l
  by_cases hblank : ∀ l ∈ ls, allBlank l = true
  · have hzero : commonMargin (ls.map (margin ++ ·)) = 0 := by
      refine commonMargin_of_allBlank fun l hl => ?_
      obtain ⟨line, hline, rfl⟩ := List.mem_map.mp hl
      exact hblank line hline
    have hempty : l = [] := (h.trimmed l hl).symm.trans (trimEnd_eq_nil_iff.mpr (hblank l hl))
    rw [hzero, dropBytes_zero, hempty]
    rfl
  · push Not at hblank
    obtain ⟨line, hline, hline'⟩ := hblank
    have hline' : allBlank line = false := by simpa using hline'
    have hfour : commonMargin (ls.map (margin ++ ·)) = byteLength margin := by
      refine Nat.le_antisymm ?_ ?_
      · obtain ⟨k, hk, hkblank, hkzero⟩ := exists_commonMargin hline hline'
        have := commonMargin_le (List.mem_map_of_mem (f := (margin ++ ·)) hk) hkblank
        rw [indentation_margin, hkzero, h.margin] at this
        exact this
      · obtain ⟨k, hk, -, hkleast⟩ :=
          exists_commonMargin (List.mem_map_of_mem (f := (margin ++ ·)) hline) hline'
        obtain ⟨k', -, rfl⟩ := List.mem_map.mp hk
        rw [← hkleast, indentation_margin]
        exact Nat.le_add_right ..
    rw [hfour, dropBytes_byteLength, h.trimmed l hl]

end Crosswalk.Snippet
