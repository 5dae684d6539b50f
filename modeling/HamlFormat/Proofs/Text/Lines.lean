import HamlFormat.Text.Trim
import Mathlib.Data.List.DropRight

/-!
# HamlFormat.Proofs.Text.Lines

Line ends and the blanks before them. Stripping a text removes exactly its last
run of the characters to strip; trimming a buffer of fragments is stripping the
text that the fragments make up (`flatten_trimNewest`), so it stops at a line
end. A text without line ends is one line, and what stands before the first line
end of a text is its first line (`lines_append`). Texts without line ends are the
lines of what they make up when line ends join them (`lines_intercalate_newline`).
-/

namespace HamlFormat.Text

/-- The character that ends a line. -/
def newline : CodePoint := '\n'

/-- Whether a text stays on one line. -/
def isOneLine (t : Text) : Bool :=
  t.all (· != newline)

@[simp] theorem isOneLine_append (s t : Text) :
    isOneLine (s ++ t) = (isOneLine s && isOneLine t) :=
  List.all_append

/-- A text made of characters of one line stays on one line. -/
theorem isOneLine_of_subset {s t : Text} (h : s ⊆ t) (ht : t.isOneLine = true) :
    s.isOneLine = true := by
  rw [isOneLine, List.all_eq_true] at *
  exact fun c hc => ht c (h hc)

/-- A line end is neither a space nor a tab. -/
@[simp] theorem isIndent_newline : isIndent newline = false := by decide

/-! ## Stripping -/

variable {p : CodePoint → Bool}

/-- What is stripped off is gone. -/
theorem stripRight_eq_nil_iff {t : Text} : stripRight p t = [] ↔ ∀ c ∈ t, p c = true :=
  List.rdropWhile_eq_nil_iff

/-- A stripped text does not end in a character to strip. -/
theorem getLast?_stripRight (t : Text) : ∀ c ∈ (stripRight p t).getLast?, p c = false := by
  intro c hc
  have hne : stripRight p t ≠ [] := by
    intro hnil
    rw [hnil] at hc
    cases hc
  rw [List.getLast?_eq_some_getLast hne, Option.mem_some_iff] at hc
  have hlast : ¬ p ((stripRight p t).getLast hne) := List.rdropWhile_last_not p t hne
  rw [hc] at hlast
  simpa using hlast

/-- A text that ends in a character to keep has nothing to strip. -/
theorem stripRight_eq_self {t : Text} (h : ∀ c ∈ t.getLast?, p c = false) :
    stripRight p t = t := by
  refine List.rdropWhile_eq_self_iff.mpr fun hne => ?_
  rw [h _ (List.getLast?_eq_some_getLast hne)]
  exact Bool.false_ne_true

/-- Stripping goes on into the front of a text only if the rest is stripped off
whole. -/
theorem stripRight_append (s t : Text) :
    stripRight p (s ++ t) =
      if (stripRight p t).isEmpty then stripRight p s else s ++ stripRight p t := by
  simp only [stripRight, List.reverse_append, List.dropWhile_append, List.isEmpty_reverse]
  split
  · rfl
  · rw [List.reverse_append, List.reverse_reverse]

/-- Stripping stops where a text ends in a character to keep. -/
theorem stripRight_append_of_keep {s : Text} (h : ∀ c ∈ s.getLast?, p c = false) (t : Text) :
    stripRight p (s ++ t) = s ++ stripRight p t := by
  rw [stripRight_append, stripRight_eq_self h]
  split
  · next hempty => rw [List.isEmpty_iff.mp hempty, List.append_nil]
  · rfl

/-- Whether a character shows: it is no space, tab or line end. -/
def isInk (c : CodePoint) : Bool :=
  !isIndent c && c != newline

/-- Spaces and tabs do not show. -/
theorem filter_isInk_of_indent {t : Text} (h : ∀ c ∈ t, isIndent c = true) :
    t.filter isInk = [] := by
  rw [List.filter_eq_nil_iff]
  intro c hc
  simp [isInk, h c hc]

/-- Stripping spaces and tabs removes nothing that shows. -/
theorem filter_stripRight (t : Text) : (stripRight isIndent t).filter isInk = t.filter isInk := by
  have hsplit : stripRight isIndent t ++ t.rtakeWhile isIndent = t :=
    List.rdropWhile_append_rtakeWhile
  have hrest : (t.rtakeWhile isIndent).filter isInk = [] :=
    filter_isInk_of_indent fun c hc => List.mem_rtakeWhile_imp hc
  calc (stripRight isIndent t).filter isInk
      = (stripRight isIndent t ++ t.rtakeWhile isIndent).filter isInk := by
        rw [List.filter_append, hrest, List.append_nil]
    _ = t.filter isInk := by rw [hsplit]

/-- **Trimming a buffer strips the text it holds**, however the text is cut into
fragments. -/
theorem flatten_trimNewest (buffer : List Text) :
    (trimNewest buffer).1.reverse.flatten = stripRight isIndent buffer.reverse.flatten := by
  induction buffer with
  | nil => rfl
  | cons newest older ih =>
      rw [trimNewest, List.reverse_cons, List.flatten_append, List.flatten_singleton,
        stripRight_append]
      split
      · exact ih
      · simp

/-! ## Lines -/

/-- Every text has a line, if an empty one. -/
theorem lines_ne_nil (t : Text) : lines t ≠ [] := by
  cases t with
  | nil => exact List.cons_ne_nil _ _
  | cons c t =>
      rw [lines, splitWhere]
      split
      · exact List.cons_ne_nil _ _
      · split <;> exact List.cons_ne_nil _ _

/-- A line end in front of a text starts it with an empty line. -/
theorem lines_newline_cons (t : Text) : lines (newline :: t) = [] :: lines t := by
  rw [lines, splitWhere, if_pos (by rfl)]
  rfl

/-- A character that ends no line joins the first line of what follows it. -/
theorem exists_lines_cons {c : CodePoint} (hc : c ≠ newline) (t : Text) :
    ∃ first others, lines t = first :: others ∧ lines (c :: t) = (c :: first) :: others := by
  obtain ⟨first, others, hlines⟩ := List.exists_cons_of_ne_nil (lines_ne_nil t)
  refine ⟨first, others, hlines, ?_⟩
  rw [lines, splitWhere, if_neg (by simpa [newline] using hc)]
  rw [show splitWhere _ t = first :: others from hlines]

/-- A text without line ends in front of a text joins its first line. -/
theorem lines_append_left {s t first : Text} {others : List Text} (hs : s.isOneLine = true)
    (ht : lines t = first :: others) : lines (s ++ t) = (s ++ first) :: others := by
  induction s with
  | nil => exact ht
  | cons c s ih =>
      rw [isOneLine, List.all_cons, Bool.and_eq_true, bne_iff_ne] at hs
      obtain ⟨first', others', hlines, hcons⟩ := exists_lines_cons hs.1 (s ++ t)
      rw [ih hs.2] at hlines
      cases hlines
      exact hcons

/-- A text without line ends is one line. -/
theorem lines_of_isOneLine {t : Text} (h : t.isOneLine = true) : lines t = [t] := by
  have hempty : lines [] = [[]] := rfl
  simpa using lines_append_left h hempty

/-- The lines of two texts with a line end between them are the lines of both. -/
theorem lines_append_newline (s t : Text) : lines (s ++ newline :: t) = lines s ++ lines t := by
  induction s with
  | nil => exact lines_newline_cons t
  | cons c s ih =>
      by_cases hc : c = newline
      · rw [hc, List.cons_append, lines_newline_cons, ih, lines_newline_cons]
        rfl
      · obtain ⟨first, others, hlines, hcons⟩ := exists_lines_cons hc s
        obtain ⟨first', others', hlines', hcons'⟩ := exists_lines_cons hc (s ++ newline :: t)
        rw [ih, hlines] at hlines'
        cases hlines'
        rw [List.cons_append, hcons', hcons]
        rfl

/-- What stands before the first line end of a text is its first line. -/
theorem lines_append {s : Text} (h : s.isOneLine = true) (t : Text) :
    lines (s ++ newline :: t) = s :: lines t := by
  rw [lines_append_newline, lines_of_isOneLine h, List.singleton_append]

/-- The lines of texts that a separator and a line end join, once the last has its separator
too. -/
theorem lines_intercalate {separator : Text} (hseparator : separator.isOneLine = true)
    {texts : List Text} (hne : texts ≠ []) (htexts : ∀ t ∈ texts, t.isOneLine = true) :
    lines (List.intercalate (separator ++ ("\n" : Text)) texts ++ separator) =
      texts.map (· ++ separator) := by
  induction texts with
  | nil => exact absurd rfl hne
  | cons t texts ih =>
      rw [List.forall_mem_cons] at htexts
      have hline : (t ++ separator).isOneLine = true := by
        rw [isOneLine_append, htexts.1, hseparator]
        rfl
      cases texts with
      | nil =>
          rw [List.intercalate_singleton, lines_of_isOneLine hline]
          rfl
      | cons u texts =>
          rw [List.intercalate_cons_cons, List.map_cons,
            ← ih (List.cons_ne_nil _ _) htexts.2, ← lines_append hline]
          refine congrArg lines ?_
          simp only [List.append_assoc]
          rfl

/-- What line ends join, in lines. -/
theorem lines_intercalate_newline {texts : List Text} (hne : texts ≠ [])
    (htexts : ∀ t ∈ texts, t.isOneLine = true) :
    lines (List.intercalate [newline] texts) = texts := by
  have hnone : isOneLine [] = true := rfl
  have hlines : lines (List.intercalate ("\n" : Text) texts) = texts := by
    simpa using lines_intercalate hnone hne htexts
  exact hlines

/-- The lines of texts that each end with a line end are theirs and an empty one. -/
theorem lines_flatMap_append_newline (texts : List Text) :
    lines (texts.flatMap fun t => t ++ [newline]) = texts.flatMap lines ++ [[]] := by
  induction texts with
  | nil => rfl
  | cons t texts ih =>
      rw [List.flatMap_cons, List.append_assoc, List.singleton_append, lines_append_newline, ih,
        List.flatMap_cons, List.append_assoc]

/-- There is no line end in a line. -/
theorem isOneLine_of_mem_lines {t line : Text} (h : line ∈ lines t) : line.isOneLine = true := by
  induction t generalizing line with
  | nil =>
      obtain rfl := List.mem_singleton.mp h
      rfl
  | cons c t ih =>
      by_cases hc : c = newline
      · rw [hc, lines_newline_cons, List.mem_cons] at h
        rcases h with rfl | h
        · rfl
        · exact ih h
      · obtain ⟨first, others, hlines, hcons⟩ := exists_lines_cons hc t
        rw [hcons, List.mem_cons] at h
        rw [hlines, List.forall_mem_cons] at ih
        rcases h with rfl | h
        · rw [isOneLine, List.all_cons, Bool.and_eq_true, bne_iff_ne]
          exact ⟨hc, ih.1⟩
        · exact ih.2 _ h

/-- All of a text but the line ends stands on its lines. -/
theorem exists_mem_lines {t : Text} {c : CodePoint} (h : c ∈ t) (hc : c ≠ newline) :
    ∃ line ∈ lines t, c ∈ line := by
  induction t with
  | nil => cases h
  | cons d t ih =>
      by_cases hd : d = newline
      · rw [hd, List.mem_cons] at h
        obtain ⟨line, hline, hmem⟩ := ih (h.resolve_left hc)
        rw [hd, lines_newline_cons]
        exact ⟨line, List.mem_cons_of_mem _ hline, hmem⟩
      · obtain ⟨first, others, hlines, hcons⟩ := exists_lines_cons hd t
        rw [hcons]
        rcases List.mem_cons.mp h with rfl | h
        · exact ⟨_, List.mem_cons_self, List.mem_cons_self⟩
        · obtain ⟨line, hline, hmem⟩ := ih h
          rcases List.mem_cons.mp (hlines ▸ hline) with rfl | hline
          · exact ⟨_, List.mem_cons_self, List.mem_cons_of_mem _ hmem⟩
          · exact ⟨line, List.mem_cons_of_mem _ hline, hmem⟩

end HamlFormat.Text
