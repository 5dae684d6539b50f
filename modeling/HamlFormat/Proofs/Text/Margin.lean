import HamlFormat.Proofs.Text.Lines
import HamlFormat.Text.Margin

/-!
# HamlFormat.Proofs.Text.Margin

The margin of a block and the lines around it. The margin is made of spaces and
tabs and starts every line that counts for it (`exists_eq_marginOf_append`); a
start that all lines share is part of it (`commonStartOf_map_append`). Stripping
line ends off a block drops the empty lines around it and leaves the lines between
them (`strip_newline_intercalate`).
-/

namespace HamlFormat.Text

/-! ## The start that texts share -/

theorem commonStart_isPrefix (a b : Text) : commonStart a b <+: a ∧ commonStart a b <+: b := by
  fun_induction commonStart a b with
  | case1 a as b bs h ih =>
      obtain rfl : a = b := eq_of_beq h
      simpa using ih
  | case2 => simp
  | case3 => simp

/-- What texts share starts each of them. -/
theorem commonStartOf_isPrefix {texts : List Text} {t : Text} (h : t ∈ texts) :
    commonStartOf texts <+: t := by
  fun_induction commonStartOf texts with
  | case1 => cases h
  | case2 a => simp [List.mem_singleton.mp h]
  | case3 a rest _ ih =>
      have hboth := commonStart_isPrefix a (commonStartOf rest)
      rcases List.mem_cons.mp h with rfl | h
      · exact hboth.1
      · exact hboth.2.trans (ih h)

theorem commonStart_append (front a b : Text) :
    commonStart (front ++ a) (front ++ b) = front ++ commonStart a b := by
  induction front with
  | nil => rfl
  | cons c front ih => simp [commonStart, ih]

/-- A text in front of all of them is part of what they share. -/
theorem commonStartOf_map_append {texts : List Text} (hne : texts ≠ []) (front : Text) :
    commonStartOf (texts.map (front ++ ·)) = front ++ commonStartOf texts := by
  fun_induction commonStartOf texts with
  | case1 => exact absurd rfl hne
  | case2 a => rfl
  | case3 a rest hrest ih =>
      obtain ⟨b, others, rfl⟩ := List.exists_cons_of_ne_nil hrest
      have htail := ih (List.cons_ne_nil _ _)
      rw [List.map_cons] at htail
      rw [List.map_cons, List.map_cons, commonStartOf, htail, commonStart_append]
      exact List.cons_ne_nil _ _

/-! ## The margin -/

/-- The margin is made of spaces and tabs. -/
theorem all_isIndent_marginOf (ls : List Text) : (marginOf ls).all isIndent = true := by
  rw [marginOf]
  cases hcounted : ls.filter (!·.all isIndent) with
  | nil => rfl
  | cons line others =>
      have hstart : commonStartOf ((line :: others).map (·.takeWhile isIndent)) <+:
          line.takeWhile isIndent := commonStartOf_isPrefix List.mem_cons_self
      rw [List.all_eq_true]
      intro c hc
      exact List.mem_takeWhile_imp (hstart.subset hc)

/-- The margin starts every line that holds more than spaces and tabs, and there is more on
the line. -/
theorem exists_eq_marginOf_append {ls : List Text} {line : Text} (hline : line ∈ ls)
    (hcounts : line.all isIndent = false) : ∃ rest, line = marginOf ls ++ rest ∧ rest ≠ [] := by
  have hmem : line.takeWhile isIndent ∈
      (ls.filter (!·.all isIndent)).map (·.takeWhile isIndent) := by
    refine List.mem_map_of_mem ?_
    simp [List.mem_filter, hline, hcounts]
  have hstart : marginOf ls <+: line :=
    (commonStartOf_isPrefix hmem).trans (List.takeWhile_prefix isIndent)
  obtain ⟨rest, hrest⟩ := hstart
  refine ⟨rest, hrest.symm, ?_⟩
  rintro rfl
  rw [List.append_nil] at hrest
  rw [← hrest, all_isIndent_marginOf] at hcounts
  cases hcounts

/-! ## The lines around a block -/

/-- Lines without those at either end that satisfy `p`. -/
def trimBlock (p : Text → Bool) (ls : List Text) : List Text :=
  (ls.dropWhile p).rdropWhile p

section Trim

variable {p q : Text → Bool} {ls : List Text}

theorem trimBlock_sublist : (trimBlock p ls).Sublist ls :=
  (List.rdropWhile_prefix p _).sublist.trans (List.dropWhile_sublist p)

/-- A trimmed block starts with a line to keep. -/
theorem of_mem_head?_trimBlock {line : Text} (h : line ∈ (trimBlock p ls).head?) :
    p line = false := by
  obtain ⟨rest, hrest⟩ : trimBlock p ls <+: ls.dropWhile p := List.rdropWhile_prefix p _
  have hhead := List.head?_dropWhile_not p ls
  rw [← hrest, List.head?_append, Option.mem_def.mp h] at hhead
  exact hhead

/-- A trimmed block ends with a line to keep. -/
theorem of_mem_getLast?_trimBlock {line : Text} (h : line ∈ (trimBlock p ls).getLast?) :
    p line = false := by
  obtain ⟨hne, rfl⟩ := List.mem_getLast?_eq_getLast h
  exact Bool.eq_false_iff.mpr (List.rdropWhile_last_not p _ hne)

/-- A block that starts and ends with a line to keep has nothing to trim. -/
theorem trimBlock_eq_self (hhead : ∀ line ∈ ls.head?, p line = false)
    (hlast : ∀ line ∈ ls.getLast?, p line = false) : trimBlock p ls = ls := by
  have hfront : ls.dropWhile p = ls := by
    cases ls with
    | nil => rfl
    | cons line others => simp [hhead line rfl]
  rw [trimBlock, hfront, List.rdropWhile_eq_self_iff]
  intro hne
  simp [hlast _ (List.getLast?_eq_some_getLast hne)]

/-- Trimming removes none of the lines that a filter keeps, if it keeps none that may be
trimmed. -/
theorem filter_trimBlock (h : ∀ line, p line = true → q line = false) :
    (trimBlock p ls).filter q = ls.filter q := by
  have hfront : (ls.takeWhile p).filter q = [] := by
    simpa using fun line hline => h line (List.mem_takeWhile_imp hline)
  have hback : ((ls.dropWhile p).rtakeWhile p).filter q = [] := by
    simpa using fun line hline => h line (List.mem_rtakeWhile_imp hline)
  calc (trimBlock p ls).filter q
      = (trimBlock p ls ++ (ls.dropWhile p).rtakeWhile p).filter q := by
        rw [List.filter_append, hback, List.append_nil]
    _ = (ls.dropWhile p).filter q := by rw [trimBlock, List.rdropWhile_append_rtakeWhile]
    _ = (ls.takeWhile p ++ ls.dropWhile p).filter q := by rw [List.filter_append, hfront]; rfl
    _ = ls.filter q := by rw [List.takeWhile_append_dropWhile]

theorem mem_trimBlock {line : Text} (hline : line ∈ ls) (hp : p line = false) :
    line ∈ trimBlock p ls := by
  have hkept : line ∈ ls.filter (!p ·) := by simp [hline, hp]
  rw [← filter_trimBlock (p := p) (by simp)] at hkept
  exact (List.mem_filter.mp hkept).1

/-- A trimmed block starts with the first of all lines to keep. -/
theorem head?_trimBlock (p : Text → Bool) (ls : List Text) :
    (trimBlock p ls).head? = (ls.filter (!p ·)).head? := by
  have hkept : (trimBlock p ls).filter (!p ·) = ls.filter (!p ·) :=
    filter_trimBlock (by simp)
  rw [← hkept]
  cases htrim : trimBlock p ls with
  | nil => rfl
  | cons line others =>
      have hline : p line = false := by
        apply of_mem_head?_trimBlock (p := p)
        rw [htrim, List.head?_cons, Option.mem_some_iff]
      simp [hline]

/-- A trimmed block ends with the last of all lines to keep. -/
theorem getLast?_trimBlock (p : Text → Bool) (ls : List Text) :
    (trimBlock p ls).getLast? = (ls.filter (!p ·)).getLast? := by
  have hkept : (trimBlock p ls).filter (!p ·) = ls.filter (!p ·) :=
    filter_trimBlock (by simp)
  rw [← hkept]
  cases htrim : trimBlock p ls using List.reverseRecOn with
  | nil => rfl
  | append_singleton others line =>
      have hline : p line = false := by
        apply of_mem_getLast?_trimBlock (p := p)
        rw [htrim, List.getLast?_concat, Option.mem_some_iff]
      simp [hline]

theorem dropWhile_map_of_mem {f : Text → Text} (h : ∀ line ∈ ls, q (f line) = p line) :
    (ls.map f).dropWhile q = (ls.dropWhile p).map f := by
  induction ls with
  | nil => rfl
  | cons line ls ih =>
      rw [List.forall_mem_cons] at h
      rw [List.map_cons, List.dropWhile_cons, List.dropWhile_cons, h.1]
      split
      · exact ih h.2
      · rfl

/-- Lines are trimmed alike before and after a change that keeps what is trimmed. -/
theorem trimBlock_map {f : Text → Text} (h : ∀ line ∈ ls, q (f line) = p line) :
    trimBlock q (ls.map f) = (trimBlock p ls).map f := by
  have hback : ∀ line ∈ (ls.dropWhile p).reverse, q (f line) = p line := fun line hline =>
    h line ((List.dropWhile_sublist p).subset (List.mem_reverse.mp hline))
  rw [trimBlock, dropWhile_map_of_mem h, List.rdropWhile, ← List.map_reverse,
    dropWhile_map_of_mem hback, ← List.map_reverse]
  rfl

end Trim

section Strip

variable {ls : List Text} (hls : ∀ line ∈ ls, line.isOneLine = true)
  (hsome : ∃ line ∈ ls, line ≠ [])

theorem intercalate_concat (separator : Text) (hne : ls ≠ []) (line : Text) :
    List.intercalate separator (ls ++ [line]) =
      List.intercalate separator ls ++ separator ++ line := by
  induction ls with
  | nil => exact absurd rfl hne
  | cons first ls ih =>
      cases ls with
      | nil => simp
      | cons second ls =>
          have hrest := ih (List.cons_ne_nil _ _)
          simp only [List.cons_append, List.intercalate_cons_cons] at hrest ⊢
          rw [hrest]
          simp

include hls hsome

theorem dropWhile_newline_intercalate :
    (List.intercalate [newline] ls).dropWhile (· == newline) =
      List.intercalate [newline] (ls.dropWhile List.isEmpty) := by
  induction ls with
  | nil => simp at hsome
  | cons line ls ih =>
      rw [List.forall_mem_cons] at hls
      cases line with
      | nil =>
          have hrest : ∃ line ∈ ls, line ≠ [] := by simpa using hsome
          obtain ⟨next, others, rfl⟩ : ∃ next others, ls = next :: others := by
            obtain ⟨line, hline, -⟩ := hrest
            exact List.exists_cons_of_ne_nil (List.ne_nil_of_mem hline)
          rw [List.intercalate_cons_cons]
          simpa using ih hls.2 hrest
      | cons c line =>
          have hc : (c == newline) = false := by
            have hline := hls.1
            simp only [isOneLine, List.all_cons, Bool.and_eq_true, bne_iff_ne] at hline
            simpa using hline.1
          cases ls <;> simp [List.intercalate_cons_cons, hc]

theorem stripRight_newline_intercalate :
    stripRight (· == newline) (List.intercalate [newline] ls) =
      List.intercalate [newline] (ls.rdropWhile List.isEmpty) := by
  induction ls using List.reverseRecOn with
  | nil => simp at hsome
  | append_singleton ls line ih =>
      rw [List.forall_mem_append, List.forall_mem_singleton] at hls
      by_cases hline : line = []
      · have hrest : ∃ line ∈ ls, line ≠ [] := by simpa [hline, or_and_right] using hsome
        have hne : ls ≠ [] := by
          obtain ⟨line, hmem, -⟩ := hrest
          exact List.ne_nil_of_mem hmem
        have hend : stripRight (· == newline) [newline] = [] := rfl
        rw [hline, intercalate_concat _ hne, List.append_nil, stripRight_append, hend,
          List.rdropWhile_concat_pos _ _ _ rfl]
        exact ih hls.1 hrest
      · -- The last line is kept, and its last character ends no line.
        obtain ⟨front, hfront⟩ : ∃ front,
            List.intercalate [newline] (ls ++ [line]) = front ++ line := by
          by_cases hne : ls = []
          · exact ⟨[], by simp [hne]⟩
          · exact ⟨_, intercalate_concat _ hne line⟩
        rw [List.rdropWhile_concat_neg _ _ _ (by simpa using hline)]
        refine stripRight_eq_self fun c hc => ?_
        rw [hfront, List.getLast?_append_of_ne_nil _ hline] at hc
        have hone := hls.2
        simp only [isOneLine, List.all_eq_true, bne_iff_ne] at hone
        simpa using hone c (List.mem_of_mem_getLast? hc)

/-- **Stripping line ends off a block drops the empty lines around it.** -/
theorem strip_newline_intercalate :
    strip (· == newline) (List.intercalate [newline] ls) =
      List.intercalate [newline] (trimBlock List.isEmpty ls) := by
  have hsub : (ls.dropWhile List.isEmpty).Sublist ls := List.dropWhile_sublist _
  have hrest : ∃ line ∈ ls.dropWhile List.isEmpty, line ≠ [] := by
    obtain ⟨line, hline, hne⟩ := hsome
    rw [← List.takeWhile_append_dropWhile (p := List.isEmpty) (l := ls), List.mem_append] at hline
    rcases hline with hline | hline
    · exact absurd (List.isEmpty_iff.mp (List.mem_takeWhile_imp hline)) hne
    · exact ⟨line, hline, hne⟩
  rw [strip, dropWhile_newline_intercalate hls hsome,
    stripRight_newline_intercalate (fun line hline => hls line (hsub.subset hline)) hrest]
  rfl

end Strip

/-! ## A block without its margin -/

/-- A line without the margin, or without all it holds if that is spaces and tabs. -/
def dedentLine (margin line : Text) : Text :=
  if line.all isIndent then [] else line.drop margin.length

/-- The margin never takes all of a line that holds more than spaces and tabs. -/
theorem isEmpty_dedentLine {ls : List Text} {line : Text} (hline : line ∈ ls) :
    (dedentLine (marginOf ls) line).isEmpty = line.all isIndent := by
  rw [dedentLine]
  cases hcounts : line.all isIndent with
  | true => rfl
  | false =>
      obtain ⟨rest, hrest, hne⟩ := exists_eq_marginOf_append hline hcounts
      have hdrop : line.drop (marginOf ls).length = rest := by
        rw [hrest]
        simp
      simpa [hdrop] using hne

/-- **The lines of a block without its margin and the empty lines around it**: those around
it hold spaces and tabs at most, and each of the rest has lost the margin. -/
theorem lines_strip_dedent {t : Text} (hsome : ∃ line ∈ lines t, line.all isIndent = false) :
    lines (strip (· == newline) (dedent t)) =
      (trimBlock (·.all isIndent) (lines t)).map (dedentLine (marginOf (lines t))) := by
  have hdedent : dedent t =
      List.intercalate [newline] ((lines t).map (dedentLine (marginOf (lines t)))) := rfl
  have hone : ∀ line ∈ (lines t).map (dedentLine (marginOf (lines t))),
      line.isOneLine = true := by
    intro line hline
    obtain ⟨source, hsource, rfl⟩ := List.mem_map.mp hline
    refine isOneLine_of_subset (t := source) ?_ (isOneLine_of_mem_lines hsource)
    rw [dedentLine]
    split
    · exact List.nil_subset _
    · exact List.drop_subset _ _
  have hleft : ∃ line ∈ (lines t).map (dedentLine (marginOf (lines t))), line ≠ [] := by
    obtain ⟨line, hline, hcounts⟩ := hsome
    refine ⟨_, List.mem_map_of_mem hline, fun hnil => ?_⟩
    rw [← isEmpty_dedentLine hline, hnil] at hcounts
    cases hcounts
  have hne : trimBlock List.isEmpty ((lines t).map (dedentLine (marginOf (lines t)))) ≠ [] := by
    obtain ⟨line, hline, hnil⟩ := hleft
    exact List.ne_nil_of_mem (mem_trimBlock hline (by simpa using hnil))
  rw [hdedent, strip_newline_intercalate hone hleft,
    lines_intercalate_newline hne fun line hline => hone line (trimBlock_sublist.subset hline)]
  exact trimBlock_map fun _ => isEmpty_dedentLine

end HamlFormat.Text
