import HamlFormat.Print.Markup
import HamlFormat.Proofs.Text.Margin

/-!
# HamlFormat.Proofs.Print.Block

Comments written as a block, and written again. A block is read off the lines of the
comment (`blockLines_eq_blockOf`): the lines of spaces and tabs around it go, and the rest
lose the margin and the white space at their ends. Two classes of white space meet here. A
line of other white space, such as a carriage return alone, counts for the margin and keeps
its place, yet it is empty once written; then it no longer counts.

Main statement: a written block is written the same again exactly if its comment is steady
(`blockLines_blockText_eq_iff`): no such line stands at either end, and without those
in between the margin is the same. Writing it once more never changes it further.
-/

namespace HamlFormat

namespace Text

/-- A space or a tab is white space. -/
theorem isBlank_of_isIndent {c : CodePoint} (h : isIndent c = true) : isBlank c = true := by
  rw [isIndent, Bool.or_eq_true, beq_iff_eq, beq_iff_eq] at h
  rcases h with rfl | rfl <;> decide

/-- Whether a line holds more than white space. -/
def isFilled (line : Text) : Bool :=
  !line.all isBlank

/-- Whether a line holds more than spaces and tabs, and so counts for the margin. -/
def isCounted (line : Text) : Bool :=
  !line.all isIndent

theorem isCounted_of_isFilled {line : Text} (h : line.isFilled = true) :
    line.isCounted = true := by
  simp only [isFilled, isCounted, Bool.not_eq_true', List.all_eq_false] at *
  obtain ⟨c, hc, hblank⟩ := h
  exact ⟨c, hc, fun hindent => hblank (isBlank_of_isIndent hindent)⟩

/-- A text without white space at its end holds more than white space unless it is empty. -/
theorem isFilled_stripRight (t : Text) :
    (stripRight isBlank t).isFilled = !(stripRight isBlank t).isEmpty := by
  cases hstrip : stripRight isBlank t using List.reverseRecOn with
  | nil => rfl
  | append_singleton front c =>
      have hc : isBlank c = false := getLast?_stripRight t c (by simp [hstrip])
      simp [isFilled, hc]

/-- In a text without white space at its end there is no difference. -/
theorem isCounted_stripRight (t : Text) :
    (stripRight isBlank t).isCounted = (stripRight isBlank t).isFilled := by
  cases hfilled : (stripRight isBlank t).isFilled with
  | true => exact isCounted_of_isFilled hfilled
  | false =>
      have hempty : stripRight isBlank t = [] := by
        simpa [isFilled_stripRight] using hfilled
      rw [hempty]
      rfl

/-- Whether the outer lines of a comment that count hold more than white space, and the lines
that hold more share no more than the margin. -/
def isSteady (t : Text) : Bool :=
  let counted := (lines t).filter isCounted
  counted.head?.all isFilled && counted.getLast?.all isFilled &&
    marginOf ((lines t).filter isFilled) == marginOf (lines t)

/-! ## A block line by line -/

/-- A line as a block has it. -/
def blockLine (margin line : Text) : Text :=
  stripRight isBlank (line.drop margin.length)

/-- The block of some lines. -/
def blockOf (ls : List Text) : List Text :=
  (trimBlock (·.all isIndent) ls).map (blockLine (marginOf ls))

variable {ls : List Text} {line : Text}

theorem marginOf_eq (ls : List Text) :
    marginOf ls = commonStartOf ((ls.filter isCounted).map (·.takeWhile isIndent)) :=
  rfl

/-- A line of the block is its line without the margin. -/
theorem blockLine_append (margin rest : Text) :
    blockLine margin (margin ++ rest) = stripRight isBlank rest := by
  simp [blockLine]

/-- Lines of spaces and tabs need no case of their own, as white space at their ends goes. -/
theorem stripRight_dedentLine (margin line : Text) :
    stripRight isBlank (dedentLine margin line) = blockLine margin line := by
  rw [dedentLine]
  split
  · next hindent =>
      refine (stripRight_eq_nil_iff.mpr fun c hc => ?_).symm
      exact isBlank_of_isIndent (List.all_eq_true.mp hindent c (List.mem_of_mem_drop hc))
  · rfl

/-- A line is written empty exactly if there is only white space on it. -/
theorem isEmpty_blockLine (hline : line ∈ ls) :
    (blockLine (marginOf ls) line).isEmpty = !line.isFilled := by
  rw [Bool.eq_iff_iff, List.isEmpty_iff]
  cases hcounts : line.all isIndent with
  | true =>
      have hblank : ∀ c ∈ line, isBlank c = true := fun c hc =>
        isBlank_of_isIndent (List.all_eq_true.mp hcounts c hc)
      have hempty : blockLine (marginOf ls) line = [] :=
        stripRight_eq_nil_iff.mpr fun c hc => hblank c (List.mem_of_mem_drop hc)
      simpa [hempty, isFilled] using hblank
  | false =>
      obtain ⟨rest, hrest, -⟩ := exists_eq_marginOf_append hline hcounts
      have hmargin : (marginOf ls).all isBlank = true :=
        List.all_eq_true.mpr fun c hc =>
          isBlank_of_isIndent (List.all_eq_true.mp (all_isIndent_marginOf ls) c hc)
      rw [hrest, blockLine_append, stripRight_eq_nil_iff]
      simp [isFilled, hmargin]

/-- What follows a text that is not all of one kind does not lengthen its start of that
kind. -/
theorem takeWhile_append_of_all_eq_false {p : CodePoint → Bool} {s : Text}
    (h : s.all p = false) (t : Text) : (s ++ t).takeWhile p = s.takeWhile p := by
  rw [List.takeWhile_append, if_neg]
  intro hlength
  have hwhole : s.takeWhile p = s := (List.takeWhile_prefix p).eq_of_length hlength
  rw [← hwhole, List.all_takeWhile] at h
  cases h

/-- A line of the block counts exactly if there is more than white space on it. -/
theorem isCounted_blockLine (hline : line ∈ ls) :
    (blockLine (marginOf ls) line).isCounted = line.isFilled := by
  have hstrip : (blockLine (marginOf ls) line).isCounted =
      !(blockLine (marginOf ls) line).isEmpty :=
    (isCounted_stripRight _).trans (isFilled_stripRight _)
  rw [hstrip, isEmpty_blockLine hline, Bool.not_not]

/-- The indentation of a line is the margin and what its line of the block has left. -/
theorem takeWhile_isIndent_eq (hline : line ∈ ls) (hfilled : line.isFilled = true) :
    line.takeWhile isIndent =
      marginOf ls ++ (blockLine (marginOf ls) line).takeWhile isIndent := by
  have hcounts : line.all isIndent = false := by
    simpa [isCounted] using isCounted_of_isFilled hfilled
  obtain ⟨rest, hrest, -⟩ := exists_eq_marginOf_append hline hcounts
  have hkept : blockLine (marginOf ls) line = stripRight isBlank rest := by
    rw [hrest, blockLine_append]
  -- Indentation ends before the white space at the end of the line starts.
  have hstop : (stripRight isBlank rest).all isIndent = false := by
    simpa [isCounted, hkept, hfilled] using isCounted_blockLine hline
  have hindent : rest.takeWhile isIndent = (stripRight isBlank rest).takeWhile isIndent := by
    have hsplit : stripRight isBlank rest ++ rest.rtakeWhile isBlank = rest :=
      List.rdropWhile_append_rtakeWhile
    rw [← takeWhile_append_of_all_eq_false hstop (rest.rtakeWhile isBlank), hsplit]
  have hmargin := List.all_eq_true.mp (all_isIndent_marginOf ls)
  calc line.takeWhile isIndent
      = (marginOf ls ++ rest).takeWhile isIndent := by rw [← hrest]
    _ = marginOf ls ++ rest.takeWhile isIndent := List.takeWhile_append_of_pos hmargin
    _ = _ := by rw [hindent, hkept]

/-! ## The margin of a block -/

/-- The lines of a block that count are those that hold more than white space. -/
theorem filter_isCounted_blockOf (ls : List Text) :
    (blockOf ls).filter isCounted = (ls.filter isFilled).map (blockLine (marginOf ls)) := by
  have hblank : ∀ line : Text, line.all isIndent = true → line.isFilled = false := by
    intro line hindent
    cases hfilled : line.isFilled with
    | false => rfl
    | true =>
        have hcounts := isCounted_of_isFilled hfilled
        simp [isCounted, hindent] at hcounts
  have hcounted : ∀ line ∈ trimBlock (·.all isIndent) ls,
      (isCounted ∘ blockLine (marginOf ls)) line = line.isFilled := fun line hline =>
    isCounted_blockLine (trimBlock_sublist.subset hline)
  rw [blockOf, List.filter_map, List.filter_congr hcounted, filter_trimBlock hblank]

/-- A line of a block that counts holds more than white space. -/
theorem isFilled_of_mem_blockOf (hline : line ∈ blockOf ls) (hcounts : line.isCounted = true) :
    line.isFilled = true := by
  obtain ⟨source, -, rfl⟩ := List.mem_map.mp hline
  exact (isCounted_stripRight _).symm.trans hcounts

theorem exists_isFilled_blockOf (hsome : ∃ line ∈ ls, line.isFilled = true) :
    ∃ line ∈ blockOf ls, line.isFilled = true := by
  obtain ⟨line, hline, hfilled⟩ := hsome
  have hmem : blockLine (marginOf ls) line ∈ (blockOf ls).filter isCounted := by
    rw [filter_isCounted_blockOf]
    exact List.mem_map_of_mem (List.mem_filter.mpr ⟨hline, hfilled⟩)
  have hboth := List.mem_filter.mp hmem
  exact ⟨_, hboth.1, isFilled_of_mem_blockOf hboth.1 hboth.2⟩

/-- **A block is left with the margin that only white space hid**: its lines share what the
lines with more than white space share beyond the margin of all. -/
theorem marginOf_filter_isFilled (hsome : ∃ line ∈ ls, line.isFilled = true) :
    marginOf (ls.filter isFilled) = marginOf ls ++ marginOf (blockOf ls) := by
  have hcounted : (ls.filter isFilled).filter isCounted = ls.filter isFilled := by
    rw [List.filter_eq_self]
    intro line hline
    exact isCounted_of_isFilled (List.mem_filter.mp hline).2
  have hindents : (ls.filter isFilled).map (·.takeWhile isIndent) =
      (((blockOf ls).filter isCounted).map (·.takeWhile isIndent)).map (marginOf ls ++ ·) := by
    rw [filter_isCounted_blockOf, List.map_map, List.map_map]
    refine List.map_congr_left fun line hline => ?_
    have hmem := List.mem_filter.mp hline
    exact takeWhile_isIndent_eq hmem.1 hmem.2
  have hne : ((blockOf ls).filter isCounted).map (·.takeWhile isIndent) ≠ [] := by
    obtain ⟨line, hline, hfilled⟩ := hsome
    rw [filter_isCounted_blockOf]
    simpa using ⟨line, hline, hfilled⟩
  rw [marginOf_eq, hcounted, hindents, commonStartOf_map_append hne, ← marginOf_eq]

/-! ## A block written again -/

/-- A line written at either end of a block counts if there was more than white space on it. -/
theorem all_isCounted_map_blockLine {found : Option Text} (h : ∀ line ∈ found, line ∈ ls) :
    (found.map (blockLine (marginOf ls))).all isCounted = found.all isFilled := by
  cases found with
  | none => rfl
  | some line => exact isCounted_blockLine (h line rfl)

theorem all_head?_blockOf (ls : List Text) :
    (blockOf ls).head?.all isCounted = (ls.filter isCounted).head?.all isFilled := by
  have hhead : (trimBlock (·.all isIndent) ls).head? = (ls.filter isCounted).head? :=
    head?_trimBlock _ ls
  rw [blockOf, List.head?_map, hhead]
  exact all_isCounted_map_blockLine fun line hline =>
    (List.mem_filter.mp (List.mem_of_mem_head? hline)).1

theorem all_getLast?_blockOf (ls : List Text) :
    (blockOf ls).getLast?.all isCounted = (ls.filter isCounted).getLast?.all isFilled := by
  have hlast : (trimBlock (·.all isIndent) ls).getLast? = (ls.filter isCounted).getLast? :=
    getLast?_trimBlock _ ls
  rw [blockOf, List.getLast?_map, hlast]
  exact all_isCounted_map_blockLine fun line hline =>
    (List.mem_filter.mp (List.mem_of_mem_getLast? hline)).1

/-- Lines without white space at their ends are their own block exactly if the outer ones
count and there is no margin. -/
theorem blockOf_eq_self_iff (hstripped : ∀ line ∈ ls, stripRight isBlank line = line)
    (hsome : ∃ line ∈ ls, line ≠ []) :
    blockOf ls = ls ↔
      (ls.head?.all isCounted = true ∧ ls.getLast?.all isCounted = true) ∧ marginOf ls = [] := by
  constructor
  · intro hfixed
    have hwhole : trimBlock (·.all isIndent) ls = ls := by
      refine trimBlock_sublist.eq_of_length ?_
      rw [← List.length_map (blockLine (marginOf ls))]
      exact congrArg List.length hfixed
    refine ⟨⟨?_, ?_⟩, ?_⟩
    · rw [← hwhole, Option.all_eq_true]
      intro line hline
      simpa [isCounted] using of_mem_head?_trimBlock hline
    · rw [← hwhole, Option.all_eq_true]
      intro line hline
      simpa [isCounted] using of_mem_getLast?_trimBlock hline
    · -- A line that is not empty would get shorter with a margin.
      obtain ⟨line, hline, hne⟩ := hsome
      rw [blockOf, hwhole] at hfixed
      have hsame : blockLine (marginOf ls) line = line := by
        have hmap : ls.map (blockLine (marginOf ls)) = ls.map id := by rw [hfixed, List.map_id]
        exact List.map_inj_left.mp hmap line hline
      have hle : (blockLine (marginOf ls) line).length ≤ line.length - (marginOf ls).length := by
        rw [← List.length_drop]
        exact (List.rdropWhile_prefix isBlank _).length_le
      have hpos : 0 < line.length := List.length_pos_of_ne_nil hne
      rw [hsame] at hle
      exact List.eq_nil_of_length_eq_zero (by omega)
  · rintro ⟨⟨hhead, hlast⟩, hmargin⟩
    have hwhole : trimBlock (·.all isIndent) ls = ls := by
      rw [Option.all_eq_true] at hhead hlast
      refine trimBlock_eq_self (fun line hline => ?_) fun line hline => ?_
      · simpa [isCounted] using hhead line hline
      · simpa [isCounted] using hlast line hline
    have hlines : ∀ line ∈ ls, blockLine [] line = id line := hstripped
    rw [blockOf, hwhole, hmargin, List.map_congr_left hlines, List.map_id]

/-- A block is written the same again exactly if the outer lines that count hold more than
white space and the lines that hold more have the margin of all. -/
theorem blockOf_blockOf_eq_iff (hsome : ∃ line ∈ ls, line.isFilled = true) :
    blockOf (blockOf ls) = blockOf ls ↔
      ((ls.filter isCounted).head?.all isFilled = true ∧
          (ls.filter isCounted).getLast?.all isFilled = true) ∧
        marginOf (ls.filter isFilled) = marginOf ls := by
  have hstripped : ∀ line ∈ blockOf ls, stripRight isBlank line = line := by
    intro line hline
    obtain ⟨source, -, rfl⟩ := List.mem_map.mp hline
    exact stripRight_eq_self (getLast?_stripRight _)
  have hfilled : ∃ line ∈ blockOf ls, line ≠ [] := by
    obtain ⟨line, hline, hfilled⟩ := exists_isFilled_blockOf hsome
    refine ⟨line, hline, ?_⟩
    rintro rfl
    cases hfilled
  rw [blockOf_eq_self_iff hstripped hfilled, all_head?_blockOf, all_getLast?_blockOf,
    marginOf_filter_isFilled hsome, List.append_right_eq_self]

/-- A comment in which the lines that count hold more than white space is steady. -/
theorem isSteady_of_forall_isFilled {t : Text}
    (h : ∀ line ∈ lines t, line.isCounted = true → line.isFilled = true) : t.isSteady = true := by
  have hsame : (lines t).filter isFilled = (lines t).filter isCounted := by
    refine List.filter_congr fun line hline => ?_
    rw [Bool.eq_iff_iff]
    exact ⟨isCounted_of_isFilled, h line hline⟩
  have hmargin : marginOf ((lines t).filter isFilled) = marginOf (lines t) := by
    rw [hsame, marginOf_eq, List.filter_filter, marginOf_eq]
    simp
  have hfilled : ∀ line ∈ (lines t).filter isCounted, line.isFilled = true := by
    rw [← hsame]
    exact fun line hline => (List.mem_filter.mp hline).2
  simp only [isSteady, Bool.and_eq_true, beq_iff_eq, Option.all_eq_true]
  exact ⟨⟨fun line hline => hfilled line (List.mem_of_mem_head? hline),
    fun line hline => hfilled line (List.mem_of_mem_getLast? hline)⟩, hmargin⟩

/-- A text that is not all white space has a line that is not. -/
theorem exists_isFilled_of_strip {t : Text} (h : strip isBlank t ≠ []) :
    ∃ line ∈ lines t, line.isFilled = true := by
  have hsome : ∃ c ∈ t, isBlank c = false := by
    by_contra hnone
    have hall : ∀ c ∈ t, isBlank c = true := by simpa using hnone
    rw [strip, List.dropWhile_eq_nil_iff.mpr hall] at h
    exact h rfl
  obtain ⟨c, hc, hblank⟩ := hsome
  have hnewline : c ≠ newline := by
    rintro rfl
    cases hblank
  obtain ⟨line, hline, hmem⟩ := exists_mem_lines hc hnewline
  refine ⟨line, hline, ?_⟩
  simpa [isFilled] using ⟨c, hmem, hblank⟩

end Text

open Text

variable {t : Text}

theorem blockLines_ne_nil (t : Text) : blockLines t ≠ [] :=
  List.map_eq_nil_iff.not.mpr (lines_ne_nil _)

theorem isOneLine_of_mem_blockLines {line : Text} (h : line ∈ blockLines t) :
    line.isOneLine = true := by
  obtain ⟨source, hsource, rfl⟩ := List.mem_map.mp h
  have hstart : stripRight isBlank source <+: source := List.rdropWhile_prefix isBlank source
  exact isOneLine_of_subset hstart.subset (isOneLine_of_mem_lines hsource)

/-- A block as the text of a comment. -/
def blockText (t : Text) : Text :=
  List.intercalate "\n" (blockLines t)

@[simp] theorem lines_blockText (t : Text) : lines (blockText t) = blockLines t :=
  lines_intercalate_newline (blockLines_ne_nil t) fun _ => isOneLine_of_mem_blockLines

/-- **A comment's block is the block of its lines**, unless there is only white space in it. -/
theorem blockLines_eq_blockOf (hsome : ∃ line ∈ lines t, line.isFilled = true) :
    blockLines t = blockOf (lines t) := by
  have hcounted : ∃ line ∈ lines t, line.all isIndent = false := by
    obtain ⟨line, hline, hfilled⟩ := hsome
    exact ⟨line, hline, by simpa [isCounted] using isCounted_of_isFilled hfilled⟩
  have hlines : lines (strip (· == newline) (dedent t)) =
      (trimBlock (·.all isIndent) (lines t)).map (dedentLine (marginOf (lines t))) :=
    lines_strip_dedent hcounted
  calc blockLines t
      = (lines (strip (· == newline) (dedent t))).map (stripRight isBlank) := rfl
    _ = (trimBlock (·.all isIndent) (lines t)).map
          (stripRight isBlank ∘ dedentLine (marginOf (lines t))) := by rw [hlines, List.map_map]
    _ = blockOf (lines t) := List.map_congr_left fun line _ => stripRight_dedentLine _ line

/-- There is more than white space in a block that is written again. -/
theorem exists_isFilled_lines_blockText (hsome : ∃ line ∈ lines t, line.isFilled = true) :
    ∃ line ∈ lines (blockText t), line.isFilled = true := by
  rw [lines_blockText, blockLines_eq_blockOf hsome]
  exact exists_isFilled_blockOf hsome

/-- **A block is written the same again exactly for a steady comment.** -/
theorem blockLines_blockText_eq_iff (hsome : ∃ line ∈ lines t, line.isFilled = true) :
    blockLines (blockText t) = blockLines t ↔ t.isSteady = true := by
  have hagain : blockLines (blockText t) = blockOf (blockOf (lines t)) := by
    rw [blockLines_eq_blockOf (exists_isFilled_lines_blockText hsome), lines_blockText,
      blockLines_eq_blockOf hsome]
  rw [hagain, blockLines_eq_blockOf hsome, blockOf_blockOf_eq_iff hsome]
  simp only [isSteady, Bool.and_eq_true, beq_iff_eq]

/-- A block is a steady comment. -/
theorem isSteady_blockText (hsome : ∃ line ∈ lines t, line.isFilled = true) :
    (blockText t).isSteady = true := by
  refine isSteady_of_forall_isFilled fun line hline => ?_
  rw [lines_blockText, blockLines_eq_blockOf hsome] at hline
  exact isFilled_of_mem_blockOf hline

/-- **Writing a block again.** It stays the same exactly if the comment is steady, which it is
if its lines of white space hold spaces and tabs alone; and from the second writing on it
stays the same in any case. -/
theorem blockLines_blockText (ht : strip isBlank t ≠ []) :
    (blockLines (blockText t) = blockLines t ↔ t.isSteady = true) ∧
      ((∀ line ∈ lines t, line.all isBlank = true → line.all isIndent = true) →
        blockLines (blockText t) = blockLines t) ∧
      blockLines (blockText (blockText t)) = blockLines (blockText t) := by
  have hsome : ∃ line ∈ lines t, line.isFilled = true := exists_isFilled_of_strip ht
  refine ⟨blockLines_blockText_eq_iff hsome, fun hblank => ?_, ?_⟩
  · refine (blockLines_blockText_eq_iff hsome).mpr (isSteady_of_forall_isFilled ?_)
    intro line hline hcounts
    by_contra hfilled
    simp only [isFilled, isCounted, Bool.not_eq_true', Bool.not_eq_false] at hcounts hfilled
    rw [hblank line hline hfilled] at hcounts
    cases hcounts
  · exact (blockLines_blockText_eq_iff (exists_isFilled_lines_blockText hsome)).mpr
      (isSteady_blockText hsome)

/-- Between carriage returns a margin shows only once the line that held one alone is empty; with
spaces in its place the block is written the same again. -/
theorem blockLines_blockText_carriageReturns :
    (strip isBlank "  a\r\n\r\n  b\r\n" ≠ [] ∧
        blockLines (blockText "  a\r\n\r\n  b\r\n") ≠ blockLines "  a\r\n\r\n  b\r\n" ∧
        blockLines (blockText (blockText "  a\r\n\r\n  b\r\n")) =
          blockLines (blockText "  a\r\n\r\n  b\r\n")) ∧
      strip isBlank "  a\n \n  b\n" ≠ [] ∧
        blockLines (blockText "  a\n \n  b\n") = blockLines "  a\n \n  b\n" := by
  have hreturns : strip isBlank "  a\r\n\r\n  b\r\n" ≠ [] := by decide
  have hspaces : strip isBlank "  a\n \n  b\n" ≠ [] := by decide
  refine ⟨⟨hreturns, fun hsame => ?_, (blockLines_blockText hreturns).2.2⟩, hspaces, ?_⟩
  · have hsteady := (blockLines_blockText hreturns).1.mp hsame
    revert hsteady
    decide
  · exact (blockLines_blockText hspaces).2.1 (by decide)

end HamlFormat
