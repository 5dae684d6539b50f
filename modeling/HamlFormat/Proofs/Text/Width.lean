import HamlFormat.Text.Width

/-!
# HamlFormat.Proofs.Text.Width

Display width as a sum over characters. The width of an ASCII text is read off
its length; since no table of wide or combining characters reaches down into
ASCII, that is the same sum (`width_eq_charsWidth`), and width is additive
(`width_append`).
-/

namespace HamlFormat.Text

/-- A table that starts past a code point does not hold it. -/
theorem Ranges.contains_eq_false {ranges : Ranges} {c : CodePoint} {start : Nat}
    (hstart : ranges.all (start ≤ ·.1) = true) (hc : c.val < start) :
    ranges.contains c = false := by
  rw [Ranges.contains, List.any_eq_false]
  intro range hrange
  have := List.all_eq_true.mp hstart range hrange
  simp only [Bool.and_eq_true, decide_eq_true_eq] at this ⊢
  omega

/-- Every ASCII character fills one column. -/
theorem charWidth_ascii {c : CodePoint} (h : isAscii c = true) : charWidth c = 1 := by
  have hc : c.val < 0x80 := by simpa [isAscii] using h
  have hcombining : isCombining c = false := Ranges.contains_eq_false (by decide +kernel) hc
  have hwide : isWide c = false := Ranges.contains_eq_false (by decide +kernel) hc
  rw [charWidth, hcombining, hwide]
  rfl

@[simp] theorem charsWidth_append (s t : Text) :
    charsWidth (s ++ t) = charsWidth s + charsWidth t := by
  induction s with
  | nil => simp [charsWidth]
  | cons c s ih => simp [charsWidth, ih, Nat.add_assoc]

/-- The length of an ASCII text is the sum of its characters' widths. -/
theorem charsWidth_ascii {t : Text} (h : t.all isAscii = true) : charsWidth t = t.length := by
  induction t with
  | nil => rfl
  | cons c t ih =>
      rw [List.all_cons, Bool.and_eq_true] at h
      rw [charsWidth, charWidth_ascii h.1, ih h.2, List.length_cons, Nat.add_comm]

/-- Width is the sum of the characters' widths, ASCII or not. -/
theorem width_eq_charsWidth (t : Text) : width t = charsWidth t := by
  rw [width]
  split
  · next h => exact (charsWidth_ascii h).symm
  · rfl

@[simp] theorem width_nil : width [] = 0 := rfl

/-- **Width is additive.** -/
@[simp] theorem width_append (s t : Text) : width (s ++ t) = width s + width t := by
  simp only [width_eq_charsWidth, charsWidth_append]

/-- **A text may be measured in parts, and by either rule.** Wherever a text is cut, the
widths of the two parts add up to the width of the whole, also where only one of them is
an ASCII text. The sum over the characters gives the width of every text, and on an ASCII
text, controls included, it is the length. -/
theorem width_agrees_on_parts :
    (∀ s t : Text, width (s ++ t) = width s + width t) ∧
      (∀ t : Text, width t = charsWidth t) ∧
      ∀ t : Text, t.all isAscii = true → charsWidth t = t.length :=
  ⟨width_append, width_eq_charsWidth, fun _ => charsWidth_ascii⟩

/-- An ASCII text with a tab before a wide character and a letter with a combining mark:
the first part is measured by its length, the whole by the tables. -/
theorem width_agrees_on_parts_of_accents :
    let ascii : Text := "a\t"
    let accented : Text := "你e\u0301"
    ascii.all isAscii = true ∧ (ascii ++ accented).all isAscii = false ∧
      width (ascii ++ accented) = width ascii + width accented ∧
      width ascii = 2 ∧ width accented = 3 ∧ charsWidth ascii = ascii.length := by
  intro ascii accented
  obtain ⟨happend, -, hrules⟩ := width_agrees_on_parts
  have hascii : ascii.all isAscii = true := by decide
  exact ⟨hascii, by decide, happend _ _, by decide, by decide +kernel, hrules _ hascii⟩

end HamlFormat.Text
