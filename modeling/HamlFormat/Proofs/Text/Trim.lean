import HamlFormat.Proofs.Text.Lines

/-!
# HamlFormat.Proofs.Text.Trim

Trimming an output buffer. The newest fragment decides: if it is made of spaces and
tabs it goes, and the fragments before it are trimmed; otherwise it loses the spaces
and tabs at its end, and nothing before it is touched. So a buffer is trimmed as its
text is stripped, in whatever places the text is cut, and the count is that of the
characters that are gone (`trimTrailing_strips`).
-/

namespace HamlFormat.Text

/-! ## One fragment more -/

/-- A newest fragment of spaces and tabs goes, and trimming goes on before it. -/
theorem trimTrailing_concat_of_blank {newest : Text} (h : stripRight isIndent newest = [])
    (older : List Text) :
    trimTrailing (older ++ [newest]) =
      ((trimTrailing older).1, newest.length + (trimTrailing older).2) := by
  simp [trimTrailing, trimNewest, h]

/-- Trimming ends in a newest fragment that holds anything else. -/
theorem trimTrailing_concat_of_keep {newest : Text} (h : stripRight isIndent newest ≠ [])
    (older : List Text) :
    trimTrailing (older ++ [newest]) =
      (older ++ [stripRight isIndent newest],
        newest.length - (stripRight isIndent newest).length) := by
  simp [trimTrailing, trimNewest, h]

/-! ## What is left -/

/-- What is left is the text of the buffer, stripped. -/
theorem flatten_trimTrailing (fragments : List Text) :
    (trimTrailing fragments).1.flatten = stripRight isIndent fragments.flatten := by
  simpa [trimTrailing] using flatten_trimNewest fragments.reverse

/-- What is counted is what is no longer there. -/
theorem count_trimTrailing (fragments : List Text) :
    (trimTrailing fragments).2 + (trimTrailing fragments).1.flatten.length =
      fragments.flatten.length := by
  induction fragments using List.reverseRecOn with
  | nil => rfl
  | append_singleton older newest ih =>
      by_cases h : stripRight isIndent newest = []
      · rw [trimTrailing_concat_of_blank h]
        simp only [List.flatten_append, List.flatten_singleton, List.length_append]
        omega
      · have hle : (stripRight isIndent newest).length ≤ newest.length :=
          (List.rdropWhile_prefix _ _).length_le
        rw [trimTrailing_concat_of_keep h]
        simp only [List.flatten_append, List.flatten_singleton, List.length_append]
        omega

/-- The fragments left are the first ones of the buffer, the last of them stripped. -/
theorem trimTrailing_cases (fragments : List Text) :
    (trimTrailing fragments).1 = [] ∨
      ∃ front whole dropped, fragments = front ++ whole :: dropped ∧
        stripRight isIndent whole ≠ [] ∧
        (trimTrailing fragments).1 = front ++ [stripRight isIndent whole] := by
  induction fragments using List.reverseRecOn with
  | nil => exact .inl rfl
  | append_singleton older newest ih =>
      by_cases h : stripRight isIndent newest = []
      · rw [trimTrailing_concat_of_blank h]
        obtain hnone | ⟨front, whole, dropped, holder, hkeep, hleft⟩ := ih
        · exact .inl hnone
        · exact .inr ⟨front, whole, dropped ++ [newest], by simp [holder], hkeep, hleft⟩
      · rw [trimTrailing_concat_of_keep h]
        exact .inr ⟨older, newest, [], rfl, h, rfl⟩

/-- A text that is not stripped off whole is left with a last character to keep. -/
theorem any_getLast?_stripRight {p : CodePoint → Bool} {t : Text} (h : stripRight p t ≠ []) :
    (stripRight p t).getLast?.any (!p ·) = true := by
  have hlast := getLast?_stripRight (p := p) t
  rw [List.getLast?_eq_some_getLast h] at hlast ⊢
  simpa using hlast

/-- **Trimming a buffer strips the text it holds.** The text of the buffer is the text
that is left and a run of spaces and tabs, the longest such run at its end; the count is
the length of the run. Of the fragments either none is left or the first ones as they
were, up to one that is cut short: it is not empty and ends in neither a space nor a
tab. -/
theorem trimTrailing_strips (fragments : List Text) :
    ∃ kept removed blanks, trimTrailing fragments = (kept, removed) ∧
      fragments.flatten = kept.flatten ++ blanks ∧ blanks.all isIndent = true ∧
      kept.flatten.getLast?.any isIndent = false ∧
      removed = blanks.length ∧ removed = fragments.flatten.length - kept.flatten.length ∧
      (kept = [] ∨ ∃ front whole cut dropped, fragments = front ++ whole :: dropped ∧
        kept = front ++ [cut] ∧ cut <+: whole ∧ cut.getLast?.any (!isIndent ·) = true) := by
  have hcount := count_trimTrailing fragments
  have htext := flatten_trimTrailing fragments
  have hcases := trimTrailing_cases fragments
  generalize trimTrailing fragments = result at hcount htext hcases
  obtain ⟨kept, removed⟩ := result
  dsimp only at hcount htext hcases
  have hsplit : kept.flatten ++ fragments.flatten.rtakeWhile isIndent = fragments.flatten := by
    rw [htext]
    exact List.rdropWhile_append_rtakeWhile
  have hlength := congrArg List.length hsplit
  rw [List.length_append] at hlength
  refine ⟨kept, removed, _, rfl, hsplit.symm, ?_, ?_, by omega, by omega, ?_⟩
  · exact List.all_eq_true.mpr fun c hc => List.mem_rtakeWhile_imp hc
  · rw [htext, Option.any_eq_false]
    exact fun c hc => by simp [getLast?_stripRight _ c hc]
  · obtain hnone | ⟨front, whole, dropped, hfragments, hkeep, hleft⟩ := hcases
    · exact .inl hnone
    · exact .inr ⟨front, whole, _, dropped, hfragments, hleft, List.rdropWhile_prefix _ _,
        any_getLast?_stripRight hkeep⟩

/-- Blanks spread over fragments, an empty one among them, up to a line end. -/
example : trimTrailing ["a ", "b\n \t", "", " ", "\t"] = ([("a " : Text), "b\n"], 4) := by decide

end HamlFormat.Text
