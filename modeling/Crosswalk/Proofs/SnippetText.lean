import Crosswalk.Proofs.SnippetLines

/-!
Snippets as texts. A written snippet is its code, followed by its fallback behind a guard and four
spaces inwards. It is read back where the written block is closed by its own last line and the guard
that counts is the written one, or that of a copy of the written block. What is read as code and
what is read as the block are the lines that were written, in another order: where the guard is not
the written one, the block is a rotation of the written block, and only copies of it leave the code
as it was.
-/

namespace Crosswalk.Snippet

open Text Script Brackets

variable {cs line : List Char} {ls ms : List (List Char)}

/-! ### The lines that are read -/

theorem newline_notMem_of_mem_lines (h : line ∈ lines cs) : '\n' ∉ line := by
  obtain ⟨piece, hpiece, hsub⟩ := mem_endLines h
  exact fun hmem => notMem_of_mem_pieces hpiece (hsub hmem)

/-- The last piece of a text is a line of its own only if it is not empty. -/
theorem exists_lines_eq (cs : List Char) : ∃ front last, pieces '\n' cs = front ++ [last] ∧
    lines cs = front.map endLine ++ if last = [] then [] else [last] := by
  obtain ⟨front, last, hpieces⟩ : ∃ front last, pieces '\n' cs = front ++ [last] :=
    ⟨_, _, (List.dropLast_append_getLast pieces_ne_nil).symm⟩
  refine ⟨front, last, hpieces, ?_⟩
  rw [lines, hpieces]
  split
  · next hlast => rw [hlast, endLines_concat, List.append_nil]
  · next hlast => exact endLines_concat_of_ne_nil hlast

theorem endLine_of_trimmed (h : trimEnd line = line) : endLine line = line :=
  if_neg fun hlast => absurd (dropEnd_eq_self_iff.mp h _ hlast) (by decide)

theorem map_endLine_of_trimmed (h : ∀ l ∈ ls, trimEnd l = l) : ls.map endLine = ls :=
  (List.map_congr_left fun l hl => endLine_of_trimmed (h l hl)).trans (List.map_id ls)

theorem map_endLine_eq_self_iff :
    ls.map endLine = ls ↔ ∀ l ∈ ls, l.getLast? ≠ some '\r' := by
  have hself := List.map_inj_left (l := ls) (f := endLine) (g := id)
  rw [List.map_id] at hself
  refine hself.trans (forall₂_congr fun l _ => ⟨fun h hlast => ?_, fun h => if_neg h⟩)
  obtain ⟨front, rfl⟩ := List.getLast?_eq_some_iff.mp hlast
  rw [endLine, if_pos hlast, List.dropLast_concat] at h
  simpa using congrArg List.length h

/-- The last line of a text that is trimmed at its end is so too, and only that of the empty text is
empty. -/
theorem exists_pieces_of_trimmed (h : trimEnd cs = cs) : cs = [] ∨ ∃ front last,
    pieces '\n' cs = front ++ [last] ∧ trimEnd last = last ∧ last ≠ [] ∧
      lines cs = front.map endLine ++ [last] := by
  obtain ⟨front, last, hpieces, hlines⟩ := exists_lines_eq cs
  have hcs : cs = unlines (front ++ [last]) := by rw [← hpieces, unlines_pieces]
  by_cases hlast : last = []
  · left
    rcases List.eq_nil_or_concat front with rfl | ⟨front, l, rfl⟩
    · rw [hcs, hlast]; rfl
    · rw [hlast, unlines_concat (by simp)] at hcs
      have hblank := dropEnd_eq_self_iff.mp h '\n' (by simp [hcs])
      exact absurd hblank (by decide)
  · rw [if_neg hlast] at hlines
    refine .inr ⟨front, last, hpieces, dropEnd_eq_self_iff.mpr fun c hc => ?_, hlast, hlines⟩
    refine dropEnd_eq_self_iff.mp h c ?_
    by_cases hfront : front = []
    · rwa [hcs, hfront, List.nil_append, unlines, List.intercalate_singleton]
    · rw [hcs, unlines_concat hfront, List.getLast?_append, List.getLast?_cons]
      rw [Option.mem_def.mp hc]
      rfl

theorem unlines_injective (hls : ∀ l ∈ ls, '\n' ∉ l) (hms : ∀ m ∈ ms, '\n' ∉ m) (hls' : ls ≠ [])
    (hms' : ms ≠ []) (h : unlines ls = unlines ms) : ls = ms := by
  rw [← pieces_unlines hls hls', h, pieces_unlines hms hms']

/-- Trimming the end of a text drops its last lines and trims the one before. -/
theorem pieces_trimEnd_unlines (h : ∀ l ∈ ls, '\n' ∉ l) :
    pieces '\n' (trimEnd (unlines ls)) = [[]] ∨ ∃ front line, front ++ [line] <+: ls ∧
      pieces '\n' (trimEnd (unlines ls)) = front ++ [trimEnd line] := by
  induction ls using List.reverseRecOn with
  | nil => exact .inl rfl
  | append_singleton ls line ih =>
    obtain ⟨hls, hline⟩ := List.forall_mem_append.mp h
    rw [trimEnd_unlines_concat]
    split
    · refine (ih hls).imp_right ?_
      rintro ⟨front, l, hinitial, heq⟩
      exact ⟨front, l, hinitial.trans (List.prefix_append ..), heq⟩
    · refine .inr ⟨ls, line, List.prefix_refl _, pieces_unlines ?_ (by simp)⟩
      refine List.forall_mem_append.mpr ⟨hls, List.forall_mem_singleton.mpr fun hmem => ?_⟩
      exact List.forall_mem_singleton.mp hline (mem_of_mem_dropEnd hmem)

/-- A line that is not blank keeps the lines before it from being trimmed away. -/
theorem length_lt_of_trimEnd_unlines (hls : ∀ l ∈ ls ++ line :: ms, '\n' ∉ l)
    (hline : trimEnd line ≠ []) :
    ls.length < (pieces '\n' (trimEnd (unlines (ls ++ line :: ms)))).length := by
  induction ms using List.reverseRecOn with
  | nil =>
    obtain ⟨hfront, hlast⟩ := List.forall_mem_append.mp hls
    have hlast := List.forall_mem_singleton.mp hlast
    rw [trimEnd_unlines_concat, if_neg hline, pieces_unlines _ (by simp)]
    · simp
    · exact List.forall_mem_append.mpr
        ⟨hfront, List.forall_mem_singleton.mpr fun hmem => hlast (mem_of_mem_dropEnd hmem)⟩
  | append_singleton ms m ih =>
    rw [← List.cons_append, ← List.append_assoc] at hls ⊢
    obtain ⟨hfront, hlast⟩ := List.forall_mem_append.mp hls
    have hlast := List.forall_mem_singleton.mp hlast
    rw [trimEnd_unlines_concat]
    split
    · exact ih hfront
    · rw [pieces_unlines _ (by simp)]
      · simp only [List.length_append, List.length_cons]
        omega
      · exact List.forall_mem_append.mpr
          ⟨hfront, List.forall_mem_singleton.mpr fun hmem => hlast (mem_of_mem_dropEnd hmem)⟩

/-! ### Reading a snippet -/

theorem parse_of_unguarded {s : String} (h : Unguarded 0 (lines s.toList)) :
    parse s = ⟨String.ofList (trimEnd (unlines (lines s.toList))), none⟩ := by
  rw [parse, splitGuard_of_unguarded h]
  rfl

theorem parse_of_isGuard {s : String} {before rest : List (List Char)} {guard : List Char}
    (hlines : lines s.toList = before ++ guard :: rest) (hbefore : Unguarded 0 before)
    (hzero : balance before = 0) (hguard : isGuard guard = true) :
    parse s = ⟨String.ofList (trimEnd (unlines (before ++ (takeBlock 1 rest).2))),
      some (String.ofList (unlines (dedent (takeBlock 1 rest).1)))⟩ := by
  rw [parse, hlines, splitGuard_of_isGuard hbefore (by simpa using hzero) hguard]
  rfl

/-- What every snippet that is read from a text is like. -/
structure Tidy (s : Snippet) : Prop where
  code : trimEnd s.code.toList = s.code.toList
  unguarded : s.absent = none → Unguarded 0 (pieces '\n' s.code.toList)
  absent : ∀ a ∈ s.absent, Flush (pieces '\n' a.toList)

theorem Unguarded.trimEnd (hls : ∀ l ∈ ls, '\n' ∉ l) (h : Unguarded 0 ls) :
    Unguarded 0 (pieces '\n' (Text.trimEnd (unlines ls))) := by
  rcases pieces_trimEnd_unlines hls with heq | ⟨front, line, hinitial, heq⟩ <;> rw [heq]
  · exact unguarded_cons.mpr ⟨fun _ => by decide, unguarded_nil⟩
  · intro before l hbefore hzero
    rcases List.prefix_concat_iff.mp hbefore with hlast | hinside
    · obtain ⟨rfl, hl⟩ := List.append_inj' hlast rfl
      obtain rfl := List.singleton_inj.mp hl
      refine Bool.eq_false_iff.mpr fun hguard => ?_
      have hline := h before line hinitial hzero
      rw [isGuard_iff_trims.mpr (trims_dropEnd.trans (isGuard_iff_trims.mp hguard))] at hline
      cases hline
    · exact h before l (hinside.trans ((List.prefix_append front [line]).trans hinitial)) hzero

theorem flush_pieces_unlines_dedent (h : ∀ l ∈ ls, '\n' ∉ l) :
    Flush (pieces '\n' (unlines (dedent ls))) := by
  by_cases hnil : dedent ls = []
  · rw [hnil]
    exact ⟨fun l hl => by rw [List.mem_singleton.mp hl]; rfl, by decide⟩
  · rw [pieces_unlines _ hnil]
    · exact flush_dedent
    · intro l hl
      obtain ⟨line, hline, rfl⟩ := List.mem_map.mp hl
      exact fun hmem => h line hline (dropBytes_suffix.subset (mem_of_mem_dropEnd hmem))

theorem tidy_parse (s : String) : (parse s).Tidy := by
  have hlines : ∀ l ∈ lines s.toList, '\n' ∉ l := fun l => newline_notMem_of_mem_lines
  rcases @unguarded_or_exists_guard (lines s.toList) 0 with
    hplain | ⟨before, guard, rest, heq, hbefore, hzero, hguard⟩
  · rw [parse_of_unguarded hplain]
    refine ⟨?_, fun _ => ?_, fun a ha => by cases ha⟩
    · rw [String.toList_ofList]
      exact dropEnd_dropEnd
    · rw [String.toList_ofList]
      exact hplain.trimEnd hlines
  · rw [parse_of_isGuard heq hbefore (by simpa using hzero) hguard]
    refine ⟨?_, fun h => (by cases h), ?_⟩
    · rw [String.toList_ofList]
      exact dropEnd_dropEnd
    · rintro _ ⟨⟩
      rw [String.toList_ofList]
      refine flush_pieces_unlines_dedent fun l hl => hlines l ?_
      have hblock : l ∈ rest := by
        rcases (@takeBlock_cases rest _ _ 1 Int.one_pos rfl).2 with ⟨hrest, -⟩ | ⟨closer, hrest, -⟩
        · exact hrest ▸ hl
        · rw [hrest]
          exact List.mem_append_left _ hl
      rw [heq]
      exact List.mem_append_right _ (List.mem_cons_of_mem _ hblock)

/-! ### The lines that are written -/

/-- The lines of a written fallback. -/
def guarded (ls : List (List Char)) : List (List Char) :=
  guardLine.toList :: ls.map (margin ++ ·) ++ [['\x7d']]

theorem pieces_indented (h : ∀ l ∈ ls, '\n' ∉ l) :
    pieces '\n' (ls.flatMap (fun l => margin ++ (l ++ ['\n'])) ++ ['\x7d']) =
      ls.map (margin ++ ·) ++ [['\x7d']] := by
  induction ls with
  | nil => rfl
  | cons l ls ih =>
    obtain ⟨hl, hls⟩ := List.forall_mem_cons.mp h
    have hmargin : '\n' ∉ margin ++ l := by
      rw [List.mem_append, not_or]
      exact ⟨by decide, hl⟩
    simp only [List.flatMap_cons, List.append_assoc, List.map_cons, List.cons_append,
      List.nil_append] at ih ⊢
    rw [← List.append_assoc, pieces_append hmargin, ih hls]

/-- A fallback that is flush is written in the lines that are read of it. -/
theorem lines_text {s : Snippet} {a : String} (habsent : s.absent = some a)
    (hflush : ∀ l ∈ lines a.toList, trimEnd l = l) :
    lines (text s).toList =
      (pieces '\n' s.code.toList).map endLine ++ guarded (lines a.toList) := by
  have hpieces : pieces '\n' (text s).toList =
      pieces '\n' s.code.toList ++ guarded (lines a.toList) := by
    have hguard : '\n' ∉ guardLine.toList := by decide
    rw [text, habsent, String.toList_ofList, Option.map_some, Option.getD_some, guardedBlock]
    simp only [List.append_assoc, List.cons_append, List.nil_append]
    rw [pieces_append_cons, pieces_append hguard,
      pieces_indented fun l => newline_notMem_of_mem_lines]
    rfl
  have hguarded : guarded (lines a.toList) =
      (guardLine.toList :: (lines a.toList).map (margin ++ ·)) ++ [['\x7d']] := rfl
  have hkept : ∀ l ∈ guardLine.toList :: (lines a.toList).map (margin ++ ·), endLine l = l := by
    refine List.forall_mem_cons.mpr ⟨by decide, List.forall_mem_map.mpr fun l hl => ?_⟩
    by_cases hnil : l = []
    · rw [hnil]
      rfl
    · rw [endLine_append hnil, endLine_of_trimmed (hflush l hl)]
  have hwritten := (List.map_congr_left hkept).trans (List.map_id _)
  rw [lines, hpieces, hguarded, ← List.append_assoc, endLines_concat_of_ne_nil (by simp),
    List.map_append, hwritten, List.append_assoc]

theorem lines_text_of_none {s : Snippet} (habsent : s.absent = none) :
    lines (text s).toList = lines s.code.toList := by
  rw [text, habsent, String.toList_ofList, Option.map_none, Option.getD_none, List.append_nil]

/-! ### Lines of a fallback -/

/-- Of a text with no trailing blanks in its lines only an empty last line is not read. -/
theorem exists_lines_of_trimmed (h : ∀ l ∈ pieces '\n' cs, trimEnd l = l) :
    ∃ front last, pieces '\n' cs = front ++ [last] ∧
      lines cs = front ++ if last = [] then [] else [last] := by
  obtain ⟨front, last, hpieces, hlines⟩ := exists_lines_eq cs
  refine ⟨front, last, hpieces, hlines.trans ?_⟩
  rw [map_endLine_of_trimmed fun l hl => h l (by rw [hpieces]; exact List.mem_append_left _ hl)]

theorem Flush.lines (h : Flush (pieces '\n' cs)) : Flush (Text.lines cs) := by
  obtain ⟨front, last, hpieces, hlines⟩ := exists_lines_of_trimmed h.trimmed
  rw [hlines]
  split
  · next hlast =>
    subst hlast
    rw [hpieces] at h
    refine ⟨fun l hl => h.trimmed l (List.mem_append_left _ (by simpa using hl)), ?_⟩
    have hmargin := h.margin
    rw [commonMargin, List.filter_append] at hmargin
    simpa [commonMargin, allBlank] using hmargin
  · exact hpieces ▸ h

theorem unlines_lines (h : ∀ l ∈ pieces '\n' cs, trimEnd l = l) :
    unlines (lines cs) = cs ↔ cs.getLast? ≠ some '\n' := by
  obtain ⟨front, last, hpieces, hlines⟩ := exists_lines_of_trimmed h
  have hcs : cs = unlines (front ++ [last]) := by rw [← hpieces, unlines_pieces]
  rw [hlines]
  split
  · next hlast =>
    rw [List.append_nil]
    subst hlast
    by_cases hfront : front = []
    · rw [hcs, hfront]
      simp [unlines]
    · rw [unlines_concat hfront] at hcs
      rw [hcs]
      simp
  · next hlast =>
    rw [← hcs]
    refine iff_of_true rfl fun hnewline => ?_
    obtain ⟨ds, rfl⟩ := List.getLast?_eq_some_iff.mp hnewline
    rw [pieces_append_cons] at hpieces
    exact hlast (List.singleton_inj.mp (List.append_inj_right' hpieces rfl)).symm

/-! ### Braces of a fallback -/

/-- Whether lines close every brace that they open, and no other. -/
def Closed (ls : List (List Char)) : Prop :=
  (∀ before, before <+: ls → 0 ≤ balance before) ∧ balance ls = 0

theorem balance_map {f : List Char → List Char} (h : ∀ l, braceBalance (f l) = braceBalance l) :
    balance (ls.map f) = balance ls := by
  induction ls with
  | nil => rfl
  | cons line ls ih => rw [List.map_cons, balance_cons, balance_cons, h, ih]

theorem balance_map_margin : balance (ls.map (margin ++ ·)) = balance ls :=
  balance_map fun _ => braceBalance_of_trims (trims_front fun _ hc =>
    by rw [List.eq_of_mem_replicate hc]; rfl)

theorem balance_map_trimEnd : balance (ls.map trimEnd) = balance ls :=
  balance_map fun _ => (braceBalance_of_trims trims_dropEnd).symm

/-- A written fallback ends with its own last line exactly if its braces are closed. -/
theorem closed_iff : Closed ls ↔ StaysOpen 1 (ls.map (margin ++ ·)) ∧
    1 + balance (ls.map (margin ++ ·) ++ [['\x7d']]) ≤ 0 := by
  have hbrace : balance [['\x7d']] = -1 := by decide
  rw [balance_append, balance_map_margin, hbrace]
  constructor
  · rintro ⟨hopen, hzero⟩
    refine ⟨fun before hbefore => ?_, by omega⟩
    obtain ⟨rest, hrest⟩ := hbefore
    obtain ⟨ls₁, ls₂, rfl, rfl, -⟩ := List.map_eq_append_iff.mp hrest.symm
    have := hopen ls₁ (List.prefix_append ..)
    rw [balance_map_margin]
    omega
  · rintro ⟨hopen, hclosed⟩
    have hinitial : ∀ before, before <+: ls → 0 ≤ balance before := fun before hbefore => by
      have := hopen _ (hbefore.map (margin ++ ·))
      rw [balance_map_margin] at this
      omega
    refine ⟨hinitial, ?_⟩
    have := hinitial ls (List.prefix_refl _)
    omega

/-! ### Snippets that are read back -/

/-- Whether a snippet is written in a text that stands for it. -/
structure Rereads (s : Snippet) : Prop where
  /-- No line break of the code is preceded by a carriage return. -/
  breaks : ∀ l ∈ pieces '\n' s.code.toList, l.getLast? ≠ some '\r'
  /-- The fallback does not end in a line break, and its braces are closed. -/
  closed : ∀ a ∈ s.absent, a.toList.getLast? ≠ some '\n' ∧ Closed (lines a.toList)
  /-- What is written of the fallback is its first guarded block, or a copy of it. -/
  first : ∀ a ∈ s.absent, ∃ front k, pieces '\n' s.code.toList =
    front ++ (List.replicate k (guarded (lines a.toList))).flatten ∧ Unguarded 0 front ∧
      balance front = 0

theorem trimEnd_unlines_map_endLine (h : trimEnd cs = cs) :
    trimEnd (unlines ((pieces '\n' cs).map endLine)) = unlines ((pieces '\n' cs).map endLine) := by
  rcases exists_pieces_of_trimmed h with rfl | ⟨front, last, hpieces, hlast, hne, -⟩
  · rfl
  · rw [hpieces, List.map_append, List.map_singleton, endLine_of_trimmed hlast,
      trimEnd_unlines_concat, hlast, if_neg hne]

theorem trimEnd_unlines_lines (h : trimEnd cs = cs) :
    trimEnd (unlines (lines cs)) = unlines ((pieces '\n' cs).map endLine) := by
  rcases exists_pieces_of_trimmed h with rfl | ⟨front, last, hpieces, hlast, hne, hlines⟩
  · rfl
  · rw [hlines, hpieces, List.map_append, List.map_singleton, endLine_of_trimmed hlast,
      trimEnd_unlines_concat, hlast, if_neg hne]

/-- Line breaks are kept exactly if no carriage return stands before one. -/
theorem unlines_map_endLine_iff : unlines ((pieces '\n' cs).map endLine) = cs ↔
    ∀ l ∈ pieces '\n' cs, l.getLast? ≠ some '\r' := by
  rw [← map_endLine_eq_self_iff]
  refine ⟨fun h => ?_, fun h => by rw [h, unlines_pieces]⟩
  refine unlines_injective (fun l hl => ?_) (fun l => notMem_of_mem_pieces) ?_ pieces_ne_nil
    (h.trans unlines_pieces.symm)
  · obtain ⟨piece, hpiece, rfl⟩ := List.mem_map.mp hl
    refine fun hmem => notMem_of_mem_pieces hpiece ?_
    rw [endLine] at hmem
    split at hmem
    · exact List.dropLast_subset _ hmem
    · exact hmem
  · simpa using pieces_ne_nil

theorem Tidy.parse_text {s : Snippet} (h : s.Tidy) (hr : s.Rereads) : parse (text s) = s := by
  obtain ⟨code, absent⟩ := s
  have hcode : unlines ((pieces '\n' code.toList).map endLine) = code.toList :=
    unlines_map_endLine_iff.mpr hr.breaks
  cases absent with
  | none =>
    have hlines := lines_text_of_none (s := ⟨code, none⟩) rfl
    have hinitial : lines code.toList <+: pieces '\n' code.toList := by
      obtain ⟨front, last, hpieces, hlines⟩ := exists_lines_eq code.toList
      have hfront : front.map endLine = front := map_endLine_eq_self_iff.mpr fun l hl =>
        hr.breaks l (by rw [hpieces]; exact List.mem_append_left _ hl)
      rw [hlines, hpieces, hfront]
      split
      · rw [List.append_nil]
        exact List.prefix_append ..
      · exact List.prefix_refl _
    have hplain : Unguarded 0 (lines (text ⟨code, none⟩).toList) := by
      rw [hlines]
      exact (h.unguarded rfl).initial hinitial
    rw [parse_of_unguarded hplain, hlines, trimEnd_unlines_lines h.code, hcode,
      String.ofList_toList]
  | some a =>
    obtain ⟨hnewline, hclosed⟩ := hr.closed a rfl
    obtain ⟨front, k, hpieces, hfront, hzero⟩ := hr.first a rfl
    have hflush := (h.absent a rfl).lines
    obtain ⟨hopen, hcloser⟩ := closed_iff.mp hclosed
    have hkept : (pieces '\n' code.toList).map endLine = pieces '\n' code.toList :=
      map_endLine_eq_self_iff.mpr hr.breaks
    -- The first of the copies is the block that is read, and the last one becomes code.
    have hlines : lines (text ⟨code, some a⟩).toList =
        front ++ guardLine.toList :: ((lines a.toList).map (margin ++ ·) ++
          ['\x7d'] :: (List.replicate k (guarded (lines a.toList))).flatten) := by
      have hcopies : (List.replicate k (guarded (lines a.toList))).flatten ++
          guarded (lines a.toList) =
            (List.replicate (k + 1) (guarded (lines a.toList))).flatten := by
        rw [List.replicate_succ', List.flatten_concat]
      rw [lines_text rfl hflush.trimmed, hkept, hpieces, List.append_assoc, hcopies,
        List.replicate_succ, List.flatten_cons]
      simp [guarded]
    rw [parse_of_isGuard hlines hfront hzero (by decide), takeBlock_eq hopen hcloser,
      dedent_margin hflush, (unlines_lines (h.absent a rfl).trimmed).mpr hnewline, ← hpieces,
      unlines_pieces, h.code, String.ofList_toList, String.ofList_toList]

/-! ### Copies of the fallback -/

/-- A list that moves past another is a rotation of it, and the other repeats it. -/
theorem exists_rotation {α : Type} : ∀ {as u w : List α}, u ++ as = as ++ w → u ≠ [] →
    ∃ k front back, u = front ++ back ∧ w = back ++ front ∧ back ≠ [] ∧
      as = (List.replicate k u).flatten ++ front := by
  intro as
  induction hn : as.length using Nat.strong_induction_on generalizing as with
  | _ n ih =>
    intro u w h hu
    rcases List.append_eq_append_iff.mp h with ⟨rest, has, hrest⟩ | ⟨back, hback, hw⟩
    · have hlength : rest.length < n := by
        rw [← hn, has, List.length_append]
        have := List.length_pos_iff.mpr hu
        omega
      obtain ⟨k, front, back, hfront, hback, hne, hcopies⟩ :=
        ih _ hlength rfl (has.symm.trans hrest) hu
      refine ⟨k + 1, front, back, hfront, hback, hne, ?_⟩
      rw [has, hcopies, List.replicate_succ, List.flatten_cons, List.append_assoc]
    · by_cases hnil : back = []
      · subst hnil
        rw [List.append_nil] at hback
        exact ⟨1, [], u, rfl, by rw [hw, ← hback, List.append_nil]; rfl, hu, by simp [hback]⟩
      · exact ⟨0, as, back, hback, hw, hnil, rfl⟩

/-- The carriage returns of some lines. -/
def returns (ls : List (List Char)) : Nat := ls.flatten.count '\r'

@[simp] theorem returns_nil : returns [] = 0 := rfl

@[simp] theorem returns_append : returns (ls ++ ms) = returns ls + returns ms := by
  simp [returns]

@[simp] theorem returns_cons : returns (line :: ls) = line.count '\r' + returns ls := by
  simp [returns]

theorem returns_map_margin : returns (ls.map (margin ++ ·)) = returns ls := by
  induction ls with
  | nil => rfl
  | cons l ls ih =>
    have hmargin : margin.count '\r' = 0 := by decide
    rw [List.map_cons, returns_cons, returns_cons, ih, List.count_append, hmargin, Nat.zero_add]

theorem returns_dedent_le : returns (dedent ls) ≤ returns ls := by
  rw [dedent]
  generalize commonMargin ls = n
  induction ls with
  | nil => exact Nat.le_refl _
  | cons l ls ih =>
    obtain ⟨back, heq, -⟩ := exists_dropEnd isBlank (dropBytes n l)
    have hkept : trimEnd (dropBytes n l) <+: dropBytes n l := ⟨back, heq.symm⟩
    rw [List.map_cons, returns_cons, returns_cons]
    exact Nat.add_le_add
      ((hkept.sublist.trans dropBytes_suffix.sublist).count_le '\r') ih

/-- A line break takes a carriage return away or leaves the line as it is. -/
theorem getLast?_ne_of_returns_le (h : returns ls ≤ returns (ls.map endLine)) :
    ∀ l ∈ ls, l.getLast? ≠ some '\r' := by
  have hle : ∀ l : List Char, (endLine l).count '\r' ≤ l.count '\r' := fun l => by
    rw [endLine]
    split
    · exact (List.dropLast_sublist l).count_le '\r'
    · exact Nat.le_refl _
  have hlt : ∀ l : List Char, l.getLast? = some '\r' → (endLine l).count '\r' < l.count '\r' := by
    intro l hlast
    obtain ⟨front, rfl⟩ := List.getLast?_eq_some_iff.mp hlast
    rw [endLine, if_pos hlast, List.dropLast_concat, List.count_append]
    simp
  induction ls with
  | nil => exact fun l hl => absurd hl List.not_mem_nil
  | cons l ls ih =>
    have hrest : returns (ls.map endLine) ≤ returns ls := by
      clear h ih
      induction ls with
      | nil => exact Nat.le_refl _
      | cons m ms ih =>
        rw [List.map_cons, returns_cons, returns_cons]
        exact Nat.add_le_add (hle m) ih
    rw [List.map_cons, returns_cons, returns_cons] at h
    refine List.forall_mem_cons.mpr ⟨fun hlast => ?_, ih ?_⟩
    · have := hlt l hlast
      omega
    · have := hle l
      omega

/-! ### What is read back -/

section Reread

/- A written snippet is cut at a guard, and gives the same code and the same fallback. -/
variable {code a guard : List Char} {before rest block after : List (List Char)}
  (hwhole : (pieces '\n' code).map endLine ++ guarded (lines a) = before ++ guard :: rest)
  (hlines : ∀ l ∈ before ++ guard :: rest, '\n' ∉ l) (hguard : isGuard guard = true)
  (htake : takeBlock 1 rest = (block, after)) (hcode : trimEnd (unlines (before ++ after)) = code)
  (habsent : unlines (dedent block) = a) (hflush : Flush (pieces '\n' a))

theorem guarded_eq : guarded ls = (guardLine.toList :: ls.map (margin ++ ·)) ++ [['\x7d']] := rfl

include hwhole htake in
/-- What is read after the block ends in the last line that is written. -/
theorem eq_nil_or_exists_concat : after = [] ∨ ∃ front, after = front ++ [['\x7d']] := by
  rcases List.eq_nil_or_concat after with hnil | ⟨front, last, hlast⟩
  · exact .inl hnil
  rw [List.concat_eq_append] at hlast
  rcases (takeBlock_cases Int.one_pos htake).2 with ⟨-, hafter⟩ | ⟨closer, hrest, -⟩
  · exact .inl hafter
  · rw [hrest, hlast, guarded_eq, ← List.append_assoc] at hwhole
    have hends : before ++ guard :: (block ++ closer :: (front ++ [last])) =
        before ++ guard :: (block ++ closer :: front) ++ [last] := by simp
    rw [hends] at hwhole
    have hbrace := List.singleton_inj.mp (List.append_inj_right' hwhole rfl)
    exact .inr ⟨front, hbrace ▸ hlast⟩

include hlines htake in
theorem newline_notMem_of_reread : ∀ l ∈ before ++ (block ++ after), '\n' ∉ l := by
  intro l hl
  refine hlines l ?_
  rcases List.mem_append.mp hl with hl | hl
  · exact List.mem_append_left _ hl
  refine List.mem_append_right _ (List.mem_cons_of_mem _ ?_)
  rcases (takeBlock_cases Int.one_pos htake).2 with ⟨hrest, hnil⟩ | ⟨closer, hrest, -⟩
  · rwa [hrest, ← List.append_nil block, ← hnil]
  · rw [hrest]
    rcases List.mem_append.mp hl with hl | hl
    · exact List.mem_append_left _ hl
    · exact List.mem_append_right _ (List.mem_cons_of_mem _ hl)

include hlines htake hcode in
/-- What is read after the block belongs to the code line by line. -/
theorem pieces_code {front : List (List Char)} (hafter : after = front ++ [['\x7d']]) :
    pieces '\n' code = before ++ after := by
  have hsub : ∀ l ∈ before ++ after, '\n' ∉ l := fun l hl =>
    newline_notMem_of_reread hlines htake l (by
      rcases List.mem_append.mp hl with hl | hl <;> simp [hl])
  have hbrace : trimEnd ['\x7d'] = ['\x7d'] := by decide
  rw [← hcode]
  rw [hafter, ← List.append_assoc] at hsub ⊢
  rw [trimEnd_unlines_concat, hbrace, if_neg (List.cons_ne_nil _ _), pieces_unlines hsub (by simp)]

include hlines htake habsent in
/-- A block that is not indented is a fallback line by line. -/
theorem pieces_absent (hbrace : ['\x7d'] ∈ block) : pieces '\n' a = block.map trimEnd := by
  rw [← habsent, dedent_of_commonMargin
    (commonMargin_eq_zero hbrace (by decide) (by decide)), pieces_unlines]
  · intro l hl
    obtain ⟨line, hline, rfl⟩ := List.mem_map.mp hl
    exact fun hmem => newline_notMem_of_reread hlines htake line (by simp [hline])
      (mem_of_mem_dropEnd hmem)
  · simpa using List.ne_nil_of_mem hbrace

include hwhole hlines htake hcode in
/-- The guard that is read is not beyond the one that is written. -/
theorem exists_later : ∃ later, (pieces '\n' code).map endLine = before ++ later ∧
    guard :: rest = later ++ guarded (lines a) := by
  rcases List.append_eq_append_iff.mp hwhole with ⟨more, hmore, hguarded⟩ | hlater
  · cases more with
    | nil => exact ⟨[], by simp [hmore], hguarded.symm⟩
    | cons g more =>
      obtain ⟨rfl, -⟩ := List.cons.inj hguarded
      have hsub : ∀ l ∈ before ++ after, '\n' ∉ l := fun l hl =>
        newline_notMem_of_reread hlines htake l (by
          rcases List.mem_append.mp hl with hl | hl <;> simp [hl])
      rw [hmore, List.append_assoc, List.cons_append] at hsub hcode
      have hlength := length_lt_of_trimEnd_unlines hsub (by decide)
      rw [hcode, List.length_map] at hlength
      exact absurd hlength (Nat.lt_irrefl _)
  · exact hlater

theorem closed_of_reread (hblock : block = (lines a).map (margin ++ ·))
    (hopen : StaysOpen 1 block) (hcloser : 1 + balance (block ++ [['\x7d']]) ≤ 0)
    (habsent : unlines (dedent block) = a) (hflush : Flush (pieces '\n' a)) :
    a.getLast? ≠ some '\n' ∧ Closed (lines a) := by
  rw [hblock, dedent_margin hflush.lines] at habsent
  exact ⟨(unlines_lines hflush.trimmed).mp habsent, closed_iff.mpr (hblock ▸ ⟨hopen, hcloser⟩)⟩

include hlines htake hcode habsent hflush in
/-- The written guard is the one that is read: then all of the text is as it was written. -/
theorem reread_last (hbefore : before = (pieces '\n' code).map endLine)
    (hrest : rest = (lines a).map (margin ++ ·) ++ [['\x7d']]) (htrim : trimEnd code = code) :
    (∀ l ∈ pieces '\n' code, l.getLast? ≠ some '\r') ∧ a.getLast? ≠ some '\n' ∧
      Closed (lines a) := by
  have hwhole : (pieces '\n' code).map endLine ++ guarded (lines a) =
      before ++ guardLine.toList :: rest := by rw [hbefore, hrest]; rfl
  have hafter : after = [] := by
    rcases eq_nil_or_exists_concat hwhole htake with hnil | ⟨front, hfront⟩
    · exact hnil
    · have hlength := congrArg List.length (pieces_code hlines htake hcode hfront)
      rw [hbefore, List.length_append, List.length_map, hfront] at hlength
      simp at hlength
  obtain ⟨hopen, ⟨hblock, -⟩ | ⟨closer, hblock, hcloser⟩⟩ := takeBlock_cases Int.one_pos htake
  -- The block cannot hold the closing brace: that would be one more line of the fallback.
  · rw [hrest] at hblock
    have hpieces := pieces_absent hlines htake habsent (by simp [← hblock])
    obtain ⟨front, last, hfront, hread⟩ := exists_lines_of_trimmed hflush.trimmed
    rw [← hblock, List.map_append, List.map_map, List.map_singleton, hfront] at hpieces
    obtain ⟨hlines', hlast⟩ := List.append_inj' hpieces rfl
    have hbrace : last ≠ [] := by
      rw [List.singleton_inj.mp hlast]
      decide
    have hlength := congrArg List.length hread
    rw [if_neg hbrace, hlines'] at hlength
    simp at hlength
  · rw [hafter, hrest] at hblock
    obtain ⟨hblock, hclose⟩ := List.append_inj' hblock rfl
    rw [← List.singleton_inj.mp hclose] at hcloser
    refine ⟨unlines_map_endLine_iff.mp ?_,
      closed_of_reread hblock.symm hopen hcloser habsent hflush⟩
    rw [hafter, List.append_nil, hbefore, trimEnd_unlines_map_endLine htrim] at hcode
    exact hcode

include hlines hguard htake hcode in
/-- Code that goes on after the guard that is read goes on after the block. -/
theorem after_ne_nil {later : List (List Char)}
    (hbefore : (pieces '\n' code).map endLine = before ++ guard :: later) : after ≠ [] := by
  rintro rfl
  have hlength := congrArg List.length hbefore
  rw [List.length_map, List.length_append, List.length_cons] at hlength
  rw [List.append_nil] at hcode
  have hnewline : ∀ l ∈ before, '\n' ∉ l := fun l hl => hlines l (List.mem_append_left _ hl)
  rcases pieces_trimEnd_unlines hnewline with heq | ⟨front, line, hinitial, heq⟩ <;>
    rw [hcode] at heq
  · have hnil : before = [] := by
      rw [heq, List.length_singleton] at hlength
      exact List.length_eq_zero_iff.mp (by omega)
    rw [heq, hnil] at hbefore
    obtain ⟨rfl, -⟩ := List.cons.inj hbefore
    exact absurd hguard (by decide)
  · have hshort := hinitial.length_le
    rw [heq] at hlength
    rw [List.length_append, List.length_singleton] at hlength hshort
    omega

include hlines htake habsent hflush in
theorem returns_lines_le : returns (lines a) ≤ returns block := by
  have hread : returns (lines a) ≤ returns (pieces '\n' a) := by
    obtain ⟨front, last, hpieces, hread⟩ := exists_lines_of_trimmed hflush.trimmed
    rw [hpieces, hread]
    split <;> simp
  refine hread.trans (le_trans ?_ (returns_dedent_le : returns (dedent block) ≤ returns block))
  rw [← habsent]
  by_cases hnil : dedent block = []
  · rw [hnil]
    decide
  · rw [pieces_unlines _ hnil]
    intro l hl
    obtain ⟨line, hline, rfl⟩ := List.mem_map.mp hl
    exact fun hmem => newline_notMem_of_reread hlines htake line (by simp [hline])
      (dropBytes_suffix.subset (mem_of_mem_dropEnd hmem))

include hlines htake habsent hflush in
/-- The block that is read is not a proper rotation of the written one: after each of its lines but
the last a brace is open. -/
theorem not_rotation {closer : List Char} {front back : List (List Char)}
    (hopen : StaysOpen 1 block) (hcloser : 1 + balance (block ++ [closer]) ≤ 0)
    (hfront : guard :: block ++ [closer] = front ++ back)
    (hback : guarded (lines a) = back ++ front) (hends : ∃ inner, front = inner ++ [['\x7d']])
    (hne : back ≠ []) (hguard : isGuard guard = true) : False := by
  obtain ⟨inner, rfl⟩ := hends
  cases inner with
  | nil =>
    obtain ⟨rfl, -⟩ := List.cons.inj hfront
    exact absurd hguard (by decide)
  | cons g inner =>
  obtain ⟨start, back, rfl⟩ := List.exists_cons_of_ne_nil hne
  have hinside : block ++ [closer] = inner ++ [['\x7d']] ++ start :: back :=
    (List.cons.inj hfront).2
  have hstart : guardLine.toList = start := (List.cons.inj hback).1
  have hwritten : (lines a).map (margin ++ ·) ++ [['\x7d']] = back ++ (g :: inner ++ [['\x7d']]) :=
    (List.cons.inj hback).2
  -- The part in front holds the last written line, so that the block is not indented.
  have hblock : inner ++ [['\x7d']] <+: block := by
    refine (List.prefix_concat_iff.mp ⟨_, hinside.symm⟩).resolve_left fun hall => ?_
    rw [hall] at hinside
    simp at hinside
  have hpieces := pieces_absent hlines htake habsent (hblock.subset (by simp))
  have hread : lines a = block.map trimEnd := by
    obtain ⟨front, last, hfront, hread⟩ := exists_lines_of_trimmed hflush.trimmed
    have hlength : (lines a).length = block.length := by
      have hin := congrArg List.length hinside
      have hout := congrArg List.length hwritten
      simp at hin hout
      omega
    have htrim : (block.map trimEnd).length = block.length := List.length_map ..
    rw [← htrim, ← hpieces, hread, hfront] at hlength
    have hlast : last ≠ [] := by
      rintro rfl
      simp at hlength
    rw [← hpieces, hread, hfront, if_neg hlast]
  have hrest : (lines a).map (margin ++ ·) = back ++ g :: inner :=
    (List.append_inj' (hwritten.trans (List.append_assoc back (g :: inner) _).symm) rfl).1
  obtain ⟨part, others, hparts, rfl, -⟩ := List.map_eq_append_iff.mp hrest
  obtain ⟨first, second, hsplit, rfl, -⟩ := List.map_eq_append_iff.mp (hread.symm.trans hparts)
  have hfirst := hopen first ⟨second, hsplit.symm⟩
  have hopened := hopen _ hblock
  have hbrace : braceBalance guardLine.toList = 1 := by decide
  rw [hinside, ← hstart, balance_append, balance_cons, hbrace, balance_map_margin,
    balance_map_trimEnd] at hcloser
  omega

include hwhole hlines hguard htake hcode habsent hflush in
/-- The code goes on after the guard that is read: then it ends in copies of the written block. -/
theorem reread_copy {later : List (List Char)}
    (hbefore : (pieces '\n' code).map endLine = before ++ guard :: later)
    (hrest : rest = later ++ guarded (lines a)) :
    (∀ l ∈ pieces '\n' code, l.getLast? ≠ some '\r') ∧
      (a.getLast? ≠ some '\n' ∧ Closed (lines a)) ∧
      ∃ k, pieces '\n' code = before ++ (List.replicate k (guarded (lines a))).flatten := by
  have hafter := after_ne_nil hlines hguard htake hcode hbefore
  obtain ⟨inner, hinner⟩ := (eq_nil_or_exists_concat hwhole htake).resolve_left hafter
  have hpieces := pieces_code hlines htake hcode hinner
  obtain ⟨hopen, ⟨-, hnil⟩ | ⟨closer, hblock, hcloser⟩⟩ := takeBlock_cases Int.one_pos htake
  · exact absurd hnil hafter
  have hbreaks : ∀ l ∈ pieces '\n' code, l.getLast? ≠ some '\r' := by
    refine getLast?_ne_of_returns_le ?_
    have hreturns := congrArg returns (hrest.symm.trans hblock)
    have hblock := returns_lines_le hlines htake habsent hflush
    rw [hbefore, hpieces]
    simp only [guarded, returns_append, returns_cons, returns_nil, returns_map_margin] at hreturns ⊢
    have hguardLine : guardLine.toList.count '\r' = 0 := by decide
    have hbrace : ['\x7d'].count '\r' = 0 := by decide
    omega
  refine ⟨hbreaks, ?_⟩
  have hkept : guard :: later = after := by
    rw [map_endLine_eq_self_iff.mpr hbreaks, hpieces] at hbefore
    exact (List.append_cancel_left hbefore).symm
  have hmoved : (guard :: block ++ [closer]) ++ after = after ++ guarded (lines a) := by
    calc (guard :: block ++ [closer]) ++ after
        = guard :: rest := by rw [hblock]; simp
      _ = (guard :: later) ++ guarded (lines a) := by rw [hrest, List.cons_append]
      _ = after ++ guarded (lines a) := by rw [hkept]
  obtain ⟨k, front, back, hfront, hback, hne, hcopies⟩ := exists_rotation hmoved (by simp)
  have hnone : front = [] := by
    by_contra hsome
    refine not_rotation hlines htake habsent hflush hopen hcloser hfront hback ?_ hne hguard
    obtain ⟨rest, last, rfl⟩ := (List.eq_nil_or_concat front).resolve_left hsome
    rw [List.concat_eq_append] at hcopies ⊢
    rw [hinner, ← List.append_assoc] at hcopies
    exact ⟨rest, by rw [List.singleton_inj.mp (List.append_inj_right' hcopies rfl)]⟩
  subst hnone
  rw [List.nil_append] at hfront
  rw [List.append_nil] at hback hcopies
  have hsame : guard :: block ++ [closer] = guarded (lines a) := hfront.trans hback.symm
  obtain ⟨hstart, hclose⟩ := List.append_inj' (hsame.trans guarded_eq) rfl
  obtain ⟨-, hinside⟩ := List.cons.inj hstart
  rw [List.singleton_inj.mp hclose] at hcloser
  refine ⟨closed_of_reread hinside hopen hcloser habsent hflush, k, ?_⟩
  rw [hpieces, hcopies, hsame]

end Reread

theorem eq_toList_of_ofList_eq {s : String} (h : String.ofList cs = s) : cs = s.toList := by
  rw [← h, String.toList_ofList]

theorem Tidy.rereads {s : Snippet} (h : s.Tidy) (hread : parse (text s) = s) : s.Rereads := by
  obtain ⟨code, absent⟩ := s
  cases absent with
  | none =>
    have hlines := lines_text_of_none (s := ⟨code, none⟩) rfl
    rcases @unguarded_or_exists_guard (lines (text ⟨code, none⟩).toList) 0 with
      hplain | ⟨before, guard, rest, heq, hbefore, hzero, hguard⟩
    · rw [parse_of_unguarded hplain, hlines] at hread
      have hcode := eq_toList_of_ofList_eq (congrArg Snippet.code hread)
      rw [trimEnd_unlines_lines h.code] at hcode
      exact ⟨unlines_map_endLine_iff.mp hcode, fun a ha => (by cases ha), fun a ha => (by cases ha)⟩
    · rw [parse_of_isGuard heq hbefore (by simpa using hzero) hguard] at hread
      cases congrArg Snippet.absent hread
  | some a =>
    have hflush := h.absent a rfl
    have hwhole := lines_text (s := ⟨code, some a⟩) rfl hflush.lines.trimmed
    have hnewline : ∀ l ∈ lines (text ⟨code, some a⟩).toList, '\n' ∉ l :=
      fun l => newline_notMem_of_mem_lines
    rcases @unguarded_or_exists_guard (lines (text ⟨code, some a⟩).toList) 0 with
      hplain | ⟨before, guard, rest, heq, hbefore, hzero, hguard⟩
    · rw [parse_of_unguarded hplain] at hread
      cases congrArg Snippet.absent hread
    have hbalance : balance before = 0 := by simpa using hzero
    rw [parse_of_isGuard heq hbefore hbalance hguard] at hread
    have hcode := eq_toList_of_ofList_eq (congrArg Snippet.code hread)
    have habsent := eq_toList_of_ofList_eq (Option.some.inj (congrArg Snippet.absent hread))
    rw [hwhole] at heq
    rw [hwhole, heq] at hnewline
    obtain ⟨later, hlater, hrest⟩ := exists_later heq hnewline rfl hcode
    cases later with
    | nil =>
      rw [List.append_nil] at hlater
      obtain ⟨-, hblock⟩ := List.cons.inj hrest
      obtain ⟨hbreaks, hclosed⟩ :=
        reread_last hnewline rfl hcode habsent hflush hlater.symm hblock h.code
      refine ⟨hbreaks, fun _ ha => Option.some.inj ha ▸ hclosed, fun _ _ => ⟨before, 0, ?_, hbefore,
        hbalance⟩⟩
      rw [List.replicate_zero, List.flatten_nil, List.append_nil, ← hlater]
      exact (map_endLine_eq_self_iff.mpr hbreaks).symm
    | cons g later =>
      obtain ⟨rfl, hblock⟩ := List.cons.inj hrest
      obtain ⟨hbreaks, hclosed, k, hpieces⟩ :=
        reread_copy heq hnewline hguard rfl hcode habsent hflush hlater hblock
      exact ⟨hbreaks, fun _ ha => Option.some.inj ha ▸ hclosed, fun _ ha =>
        Option.some.inj ha ▸ ⟨before, k, hpieces, hbefore, hbalance⟩⟩

/-- What is read from a text is read back from its own text exactly if no line of its code ends in a
carriage return, its fallback has closed braces and no line break at its end, and no guarded block
stands in the code but copies of the fallback's at its end. -/
theorem parse_text_parse_iff (s : String) :
    parse (text (parse s)) = parse s ↔ (parse s).Rereads :=
  ⟨(tidy_parse s).rereads, (tidy_parse s).parse_text⟩

/-- A blank line at the end of a fallback is lost. -/
theorem blankLine_not_reread :
    let s := "if (_absent_) \x7b\n    x\n\n\x7d"
    parse (text (parse s)) ≠ parse s := by decide +kernel

end Crosswalk.Snippet
