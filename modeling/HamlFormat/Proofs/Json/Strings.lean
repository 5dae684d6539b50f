import HamlFormat.Json.Read
import HamlFormat.Json.Write
import HamlFormat.Proofs.Fault
import Mathlib.Data.List.Basic

/-!
# HamlFormat.Proofs.Json.Strings

Strings written as JSON text and read back. Each character is written as itself,
as a letter after a backslash, or as one or two units of four hexadecimal digits,
and read as what was written (`stringParts_escapeChar`). Joining the units gives the
characters again, unless two surrogates that stood apart now form a pair: a text in
which no high surrogate stands before a low one is read back
(`readString_stringText`).
-/

namespace HamlFormat.Json

/-! ## Units -/

/-- A hexadecimal digit. -/
def hexDigit (d : Nat) : CodePoint :=
  CodePoint.ofChar (Nat.digitChar d)

theorem hexValue?_hexDigit : ∀ d < 16, hexValue? (hexDigit d) = some d := by
  decide

/-- The last hexadecimal digit stands apart from the others. -/
theorem hexText_succ {k : Nat} (hk : 0 < k) (n : Nat) :
    hexText (k + 1) n = hexText k (n / 16) ++ [hexDigit (n % 16)] := by
  simp only [hexText, Decimal.zeros, Text.repeated]
  by_cases hn : n < 16
  · have hzero : n / 16 = 0 := Nat.div_eq_of_lt hn
    obtain ⟨j, rfl⟩ := Nat.exists_eq_add_of_lt hk
    rw [Nat.toDigits_of_lt_base hn, hzero, Nat.mod_eq_of_lt hn]
    simp only [Nat.toDigits_zero, List.map_cons, List.map_nil, List.length_singleton, hexDigit,
      Nat.zero_add, Nat.add_sub_cancel, List.replicate_succ']
  · rw [Nat.toDigits_of_base_le (by decide) (by omega), List.map_append, List.length_append,
      ← List.append_assoc]
    simp [hexDigit]

/-- A unit is written with four hexadecimal digits, which give its value. -/
theorem exists_hexText_four {n : Nat} (h : n < 0x10000) :
    ∃ a b c d, hexText 4 n = [a, b, c, d] ∧ unitValue? a b c d = some n := by
  have hfirst : hexText 1 (n / 16 / 16 / 16) = [hexDigit (n / 16 / 16 / 16)] := by
    simp only [hexText, Nat.toDigits_of_lt_base (show n / 16 / 16 / 16 < 16 by omega)]
    rfl
  refine ⟨hexDigit (n / 16 / 16 / 16), hexDigit (n / 16 / 16 % 16), hexDigit (n / 16 % 16),
    hexDigit (n % 16), ?_, ?_⟩
  · rw [hexText_succ (by decide), hexText_succ (by decide), hexText_succ (by decide), hfirst]
    rfl
  · simp only [unitValue?, hexValue?_hexDigit _ (show n / 16 / 16 / 16 < 16 by omega),
      hexValue?_hexDigit _ (Nat.mod_lt _ (by decide)), bind, Option.bind, pure]
    congr 1
    omega

/-! ## Parts of a string -/

/-- The parts that a character is written as. -/
def charParts (c : CodePoint) : List StringPart :=
  if (escapeLetter? c).isSome || isAsciiText c then [.char c]
  else if c.val < 0x10000 then [.unit c.val]
  else [.unit (0xd800 + (c.val - 0x10000) / 0x400), .unit (0xdc00 + (c.val - 0x10000) % 0x400)]

/-- An escape letter stands for the character that it escapes. -/
theorem letterEscape?_of_escapeLetter? {c letter : CodePoint}
    (h : escapeLetter? c = some letter) :
    letterEscape? letter = some c ∧ letter ≠ CodePoint.ofChar 'u' := by
  simp only [escapeLetter?] at h
  repeat' split at h
  all_goals cases h
  all_goals simp only [beq_iff_eq] at *
  all_goals subst_vars; decide

theorem stringParts_quote (rest : Text) :
    stringParts (CodePoint.ofChar '"' :: rest) = .ok ([], rest) := by
  rw [stringParts.eq_def]
  rfl

/-- A unit written by its number is read as that unit. -/
theorem stringParts_unitEscape {unit : Nat} (hunit : unit < 0x10000) {t rest : Text}
    {parts : List StringPart} (h : stringParts t = .ok (parts, rest)) :
    stringParts (unitEscape unit ++ t) = .ok (.unit unit :: parts, rest) := by
  obtain ⟨a, b, c, d, htext, hvalue⟩ := exists_hexText_four hunit
  rw [unitEscape, htext]
  show stringParts (CodePoint.ofChar '\\' :: CodePoint.ofChar 'u' :: a :: b :: c :: d :: t) = _
  rw [stringParts]
  simp only [hvalue, h, Fault.ok_bind]
  rfl

/-- A character is read as the parts that it was written as. -/
theorem stringParts_escapeChar (c : CodePoint) {t rest : Text} {parts : List StringPart}
    (h : stringParts t = .ok (parts, rest)) :
    stringParts (escapeChar isAsciiText c ++ t) = .ok (charParts c ++ parts, rest) := by
  rw [escapeChar, charParts]
  cases hletter : escapeLetter? c with
  | some letter =>
      obtain ⟨hread, hne⟩ := letterEscape?_of_escapeLetter? hletter
      show stringParts (CodePoint.ofChar '\\' :: letter :: t) = .ok (.char c :: parts, rest)
      rw [stringParts.eq_def]
      simp only [beq_false_of_ne hne, hread, h, Fault.ok_bind]
      rfl
  | none =>
      by_cases hplain : isAsciiText c = true
      · have hquote : (c == CodePoint.ofChar '"') = false := by
          rw [beq_eq_false_iff_ne]
          rintro rfl
          cases hletter
        have hbackslash : (c == CodePoint.ofChar '\\') = false := by
          rw [beq_eq_false_iff_ne]
          rintro rfl
          cases hletter
        have hcontrol : ¬c.val < 0x20 := by
          simp only [isAsciiText, Bool.and_eq_true, decide_eq_true_eq] at hplain
          omega
        simp only [hplain, Bool.or_true, if_true]
        show stringParts (c :: t) = .ok (.char c :: parts, rest)
        rw [stringParts.eq_def]
        simp only [hquote, hbackslash, hcontrol, h, Fault.ok_bind]
        rfl
      · simp only [hplain, numericEscape, Option.isSome_none, Bool.or_self, Bool.false_eq_true,
          if_false]
        by_cases hbasic : c.val < 0x10000
        · simp only [hbasic, if_true]
          exact stringParts_unitEscape hbasic h
        · have hhigh : 0xd800 + (c.val - 0x10000) / 0x400 < 0x10000 := by
            have := c.isLt
            omega
          have hlow : 0xdc00 + (c.val - 0x10000) % 0x400 < 0x10000 := by omega
          simp only [hbasic, if_false, List.append_assoc]
          exact stringParts_unitEscape hhigh (stringParts_unitEscape hlow h)

theorem stringParts_escaped (s : Text) (rest : Text) :
    stringParts (s.flatMap (escapeChar isAsciiText) ++ CodePoint.ofChar '"' :: rest) =
      .ok (s.flatMap charParts, rest) := by
  induction s with
  | nil => exact stringParts_quote rest
  | cons c s ih =>
      rw [List.flatMap_cons, List.flatMap_cons, List.append_assoc]
      exact stringParts_escapeChar c ih

/-! ## Joining units -/

/-- Whether a high surrogate stands right before a low one somewhere in a text. -/
def hasSurrogatePair : Text → Bool
  | high :: low :: t =>
    isHighSurrogate high.val && isLowSurrogate low.val || hasSurrogatePair (low :: t)
  | _ => false

/-- A unit is a character of its own if it forms no pair with the next part. -/
theorem joinParts_unit {unit : Nat} {parts : List StringPart}
    (h : ∀ low more, parts = .unit low :: more →
      (isHighSurrogate unit && isLowSurrogate low) = false) :
    joinParts (.unit unit :: parts) = .ofNat unit :: joinParts parts := by
  match parts with
  | [] => rfl
  | .char c :: parts => rfl
  | .unit low :: parts =>
      rw [joinParts, h low parts rfl]
      rfl

/-- The two units of a character above `0xffff` are joined to that character. -/
theorem joinParts_pair {c : CodePoint} (hc : 0x10000 ≤ c.val) (parts : List StringPart) :
    joinParts (.unit (0xd800 + (c.val - 0x10000) / 0x400) ::
      .unit (0xdc00 + (c.val - 0x10000) % 0x400) :: parts) = c :: joinParts parts := by
  have hlt := c.isLt
  have hpair : (isHighSurrogate (0xd800 + (c.val - 0x10000) / 0x400) &&
      isLowSurrogate (0xdc00 + (c.val - 0x10000) % 0x400)) = true := by
    simp only [isHighSurrogate, isLowSurrogate, Bool.and_eq_true, decide_eq_true_eq]
    omega
  have hvalue : 0x10000 + (0xd800 + (c.val - 0x10000) / 0x400 - 0xd800) * 0x400 +
      (0xdc00 + (c.val - 0x10000) % 0x400 - 0xdc00) = c.val := by omega
  rw [joinParts, if_pos hpair, hvalue, CodePoint.ofNat, dif_pos hlt]

/-- The first part of a text starts a character, and ends no pair unless the
character is a low surrogate. -/
theorem eq_of_charParts_eq {c : CodePoint} {unit : Nat} {more parts : List StringPart}
    (h : charParts c ++ parts = .unit unit :: more) (hlow : isLowSurrogate unit = true) :
    unit = c.val := by
  rw [charParts] at h
  split at h
  · cases h
  · split at h
    · cases h
      rfl
    · cases h
      simp only [isLowSurrogate, Bool.and_eq_true, decide_eq_true_eq] at hlow
      have := c.isLt
      omega

/-- **The parts of a text are joined to that text**, if no two of its characters
form a pair. -/
theorem joinParts_charParts {s : Text} (h : hasSurrogatePair s = false) :
    joinParts (s.flatMap charParts) = s := by
  induction s with
  | nil => rfl
  | cons c s ih =>
      have hs : hasSurrogatePair s = false := by
        cases s with
        | nil => rfl
        | cons d s =>
            rw [hasSurrogatePair, Bool.or_eq_false_iff] at h
            exact h.2
      rw [List.flatMap_cons]
      by_cases hplain : ((escapeLetter? c).isSome || isAsciiText c) = true
      · rw [charParts, if_pos hplain, List.singleton_append, joinParts, ih hs]
      · rw [charParts, if_neg hplain]
        by_cases hbasic : c.val < 0x10000
        · rw [if_pos hbasic, List.singleton_append, joinParts_unit, ih hs, CodePoint.ofNat,
            dif_pos c.isLt]
          intro low more hparts
          by_contra hpair
          rw [Bool.not_eq_false, Bool.and_eq_true] at hpair
          cases s with
          | nil => cases hparts
          | cons d s =>
              rw [List.flatMap_cons] at hparts
              have := eq_of_charParts_eq hparts hpair.2
              rw [hasSurrogatePair, Bool.or_eq_false_iff, ← this, hpair.1, hpair.2] at h
              cases h.1
        · rw [if_neg hbasic, List.cons_append, List.singleton_append, joinParts_pair (by omega),
            ih hs]

/-- **A string is read back** if no two of its characters form a surrogate pair. -/
theorem readString_stringText {s : Text} (h : hasSurrogatePair s = false) (rest : Text) :
    ∃ t, stringText isAsciiText s ++ rest = CodePoint.ofChar '"' :: t ∧
      readString t = .ok (s, rest) := by
  refine ⟨s.flatMap (escapeChar isAsciiText) ++ CodePoint.ofChar '"' :: rest, ?_, ?_⟩
  · rw [stringText, List.append_assoc, List.append_assoc]
    rfl
  · rw [readString, stringParts_escaped]
    simp only [Fault.ok_bind, joinParts_charParts h]
    rfl

end HamlFormat.Json
