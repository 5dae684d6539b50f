import HamlFormat.Print.Tag
import Mathlib.Data.List.DropRight

/-!
# HamlFormat.Proofs.Print.Interpolation

Where a quoted string interpolates. In a double-quoted string a `#` before one of three
characters, its sigils, starts an interpolation: a brace starts an expression, `$` a
global variable and `@` an instance variable. A backslash takes this from the `#`, unless
it stands behind a backslash itself, so what counts is whether the run of backslashes
before the `#` is odd (`Interpolates`).

Escaping doubles every backslash of a text, then escapes its quotes and then the `#` before
a brace (`rubyEscaped_eq_replace`). So the runs it leaves are even but for the backslashes
that it adds. It adds one to a `#` before a brace, and none to a `#` before
another sigil. Braces therefore never start an interpolation in what is quoted, and `$`
and `@` do wherever the text has them behind a `#` (`interpolates_rubyQuoted_iff`).
-/

namespace HamlFormat

/-! ## Escaping -/

namespace Text

/-- Every occurrence of one text replaced by another one, from left to right. The first `skip`
characters belong to an occurrence that is replaced already. -/
def replaceFrom (old new : Text) : Nat → Text → Text
  | _, [] => []
  | skip + 1, _ :: cs => replaceFrom old new skip cs
  | 0, c :: cs =>
    if old.isPrefixOf (c :: cs) then new ++ replaceFrom old new (old.length - 1) cs
    else c :: replaceFrom old new 0 cs

/-- Every occurrence of one text replaced by another one. -/
def replace (old new t : Text) : Text :=
  replaceFrom old new 0 t

variable {old new t : Text} {c d : CodePoint}

/-- A character that an occurrence does not start with stays. -/
theorem replace_cons_of_ne (h : c ≠ d) :
    replace (c :: old) new (d :: t) = d :: replace (c :: old) new t := by
  simp [replace, replaceFrom, List.isPrefixOf, h]

theorem replace_singleton (c : CodePoint) (new t : Text) :
    replace [c] new t = t.flatMap fun d => if c = d then new else [d] := by
  induction t with
  | nil => rfl
  | cons d t ih =>
      by_cases h : c = d
      · rw [List.flatMap_cons, if_pos h, ← ih]
        simp [replace, replaceFrom, List.isPrefixOf, h]
      · rw [List.flatMap_cons, if_neg h, ← ih, replace_cons_of_ne h, List.singleton_append]

/-- Two characters are replaced where they stand next to each other. -/
theorem replace_pair (c d : CodePoint) (new t : Text) :
    replace [c, d] new (c :: d :: t) = new ++ replace [c, d] new t := by
  simp [replace, replaceFrom, List.isPrefixOf]

theorem replace_pair_cons_of_ne (c d : CodePoint) (new : Text) (h : t.head? ≠ some d) :
    replace [c, d] new (c :: t) = c :: replace [c, d] new t := by
  cases t with
  | nil => simp [replace, replaceFrom, List.isPrefixOf]
  | cons e t =>
      have hne : d ≠ e := fun hde => h (by simp [hde])
      simp [replace, replaceFrom, List.isPrefixOf, hne]

end Text

/-- A character with a backslash before it if it is a backslash or a quote. -/
def escapedChar (c : CodePoint) : Text :=
  if c = .ofChar '\\' ∨ c = .ofChar '"' then [.ofChar '\\', c] else [c]

theorem replace_backslash_quote (s : Text) :
    Text.replace "\"" "\\\"" (Text.replace "\\" "\\\\" s) = s.flatMap escapedChar := by
  have hbackslash : ("\\" : Text) = [.ofChar '\\'] := rfl
  have hquote : ("\"" : Text) = [.ofChar '"'] := rfl
  rw [hbackslash, hquote, Text.replace_singleton, Text.replace_singleton, List.flatMap_assoc]
  refine List.flatMap_congr fun c _ => ?_
  by_cases hc : c = .ofChar '\\'
  · rw [hc]
    decide
  · by_cases hc' : c = .ofChar '"'
    · rw [hc']
      decide
    · simp [escapedChar, hc, hc', Ne.symm hc, Ne.symm hc']

/-- A brace starts what is escaped exactly if it starts the text. -/
theorem head?_flatMap_escapedChar (s : Text) :
    (s.flatMap escapedChar).head? = some (.ofChar '\x7b') ↔ s.head? = some (.ofChar '\x7b') := by
  cases s with
  | nil => rfl
  | cons c cs =>
      have hne : CodePoint.ofChar '\\' ≠ .ofChar '\x7b' ∧
          CodePoint.ofChar '"' ≠ .ofChar '\x7b' := by decide
      by_cases hc : c = .ofChar '\\' ∨ c = .ofChar '"'
      · obtain rfl | rfl := hc <;> simp [escapedChar, hne]
      · simp [escapedChar, hc]

/-- **Escaping is three replacements in turn**, of backslashes, of quotes and of a `#` before
a brace. -/
theorem rubyEscaped_eq_replace (s : Text) :
    rubyEscaped s = Text.replace "#\x7b" "\\#\x7b"
      (Text.replace "\"" "\\\"" (Text.replace "\\" "\\\\" s)) := by
  have hpair : ("#\x7b" : Text) = [.ofChar '#', .ofChar '\x7b'] := rfl
  have hhash : CodePoint.ofChar '#' ≠ .ofChar '\\' ∧ CodePoint.ofChar '#' ≠ .ofChar '"' ∧
      CodePoint.ofChar '#' ≠ .ofChar '\x7b' := by decide
  rw [replace_backslash_quote, hpair]
  induction s with
  | nil => rfl
  | cons c cs ih =>
      rw [List.flatMap_cons, rubyEscaped, ih]
      by_cases hc : c = .ofChar '\\' ∨ c = .ofChar '"'
      · have hne : .ofChar '#' ≠ c := by
          obtain rfl | rfl := hc
          · exact hhash.1
          · exact hhash.2.1
        simp [escapedChar, hc, Text.replace_cons_of_ne hhash.1, Text.replace_cons_of_ne hne]
      · rw [escapedChar, if_neg hc, List.singleton_append]
        by_cases hc' : c = .ofChar '#'
        · rw [hc']
          by_cases hbrace : cs.head? = some (.ofChar '\x7b')
          · obtain ⟨ds, rfl⟩ := List.head?_eq_some_iff.mp hbrace
            have hplain : escapedChar (.ofChar '\x7b') = [.ofChar '\x7b'] := by decide
            rw [List.flatMap_cons, hplain, List.singleton_append, Text.replace_pair,
              Text.replace_cons_of_ne hhash.2.2]
            rfl
          · have hhead := (head?_flatMap_escapedChar cs).not.mpr hbrace
            rw [Text.replace_pair_cons_of_ne _ _ _ hhead]
            simp [hhash, hbrace]
        · rw [Text.replace_cons_of_ne (Ne.symm hc')]
          simp_all

/-! ## Interpolation -/

/-- The characters that start an interpolation behind a `#`. -/
def sigils : List CodePoint :=
  [.ofChar '\x7b', .ofChar '$', .ofChar '@']

/-- Whether an interpolation with the sigil starts in a string: a `#` stands before the
sigil and behind an even number of backslashes. -/
def Interpolates (sigil : CodePoint) (t : Text) : Prop :=
  ∃ before after, t = before ++ .ofChar '#' :: sigil :: after ∧
    (before.rtakeWhile (· == .ofChar '\\')).length % 2 = 0

/-- Whether a text ends in an odd number of backslashes, those before it counted if it is
made of backslashes; `odd` tells of these. -/
def oddAfter (odd : Bool) (t : Text) : Bool :=
  t.foldl (fun odd c => c == .ofChar '\\' && !odd) odd

theorem oddAfter_eq (t : Text) :
    oddAfter false t = decide ((t.rtakeWhile (· == .ofChar '\\')).length % 2 = 1) := by
  induction t using List.reverseRecOn with
  | nil => rfl
  | append_singleton t c ih =>
      rw [oddAfter, List.foldl_append, List.foldl_cons, List.foldl_nil, ← oddAfter, ih]
      by_cases hc : c = .ofChar '\\'
      · simp only [hc, beq_self_eq_true, Bool.true_and, List.rtakeWhile_concat_pos,
          List.length_append, List.length_singleton]
        grind
      · simp [hc, List.rtakeWhile_concat_neg]

/-- The same question, answered by reading from left to right. -/
def interpolatesFrom (sigil : CodePoint) (odd : Bool) : Text → Bool
  | [] => false
  | c :: cs =>
    (!odd && c == .ofChar '#' && cs.head? == some sigil) ||
      interpolatesFrom sigil (c == .ofChar '\\' && !odd) cs

theorem interpolatesFrom_iff {sigil : CodePoint} {odd : Bool} {t : Text} :
    interpolatesFrom sigil odd t = true ↔
      ∃ before after, t = before ++ .ofChar '#' :: sigil :: after ∧
        oddAfter odd before = false := by
  induction t generalizing odd with
  | nil => simp [interpolatesFrom]
  | cons c cs ih =>
      rw [interpolatesFrom, Bool.or_eq_true, ih]
      constructor
      · rintro (hhere | ⟨before, after, rfl, heven⟩)
        · simp only [Bool.and_eq_true, Bool.not_eq_true', beq_iff_eq,
            List.head?_eq_some_iff] at hhere
          obtain ⟨⟨rfl, rfl⟩, after, rfl⟩ := hhere
          exact ⟨[], after, rfl, rfl⟩
        · exact ⟨c :: before, after, rfl, heven⟩
      · rintro ⟨before, after, htext, heven⟩
        cases before with
        | nil =>
            obtain ⟨rfl, rfl⟩ := List.cons.inj htext
            exact .inl (by simpa [oddAfter] using heven)
        | cons b before =>
            obtain ⟨rfl, rfl⟩ := List.cons.inj htext
            exact .inr ⟨before, after, rfl, heven⟩

/-- A string interpolates where reading finds that it does. -/
theorem interpolates_iff {sigil : CodePoint} {t : Text} :
    Interpolates sigil t ↔ interpolatesFrom sigil false t = true := by
  rw [interpolatesFrom_iff]
  simp only [Interpolates, oddAfter_eq, decide_eq_false_iff_not, Nat.mod_two_not_eq_one]

/-! ## What is quoted -/

/-- A sigil is not escaped. -/
theorem ne_of_mem_sigils {sigil : CodePoint} (h : sigil ∈ sigils) :
    sigil ≠ .ofChar '\\' ∧ sigil ≠ .ofChar '"' ∧ sigil ≠ .ofChar '#' := by
  simp only [sigils, List.mem_cons, List.not_mem_nil, or_false] at h
  obtain rfl | rfl | rfl := h <;> decide

/-- A sigil starts what is escaped exactly if it starts the text. -/
theorem head?_rubyEscaped_iff {sigil : CodePoint} (h : sigil ∈ sigils) (s : Text) :
    (rubyEscaped s ++ [CodePoint.ofChar '"']).head? = some sigil ↔ s.head? = some sigil := by
  obtain ⟨hbackslash, hquote, hhash⟩ := ne_of_mem_sigils h
  cases s with
  | nil => simpa [rubyEscaped] using hquote.symm
  | cons c cs =>
      rw [rubyEscaped]
      split
      · next hescape =>
          -- the character is a backslash, a quote or a `#`, and none of these is a sigil
          have hc : c ≠ sigil := by
            rintro rfl
            simp_all
          simp [hc, hbackslash.symm]
      · simp

/-- A character behind a backslash starts no interpolation, and no backslash counts for
what comes after it. -/
theorem interpolatesFrom_escaped (sigil c : CodePoint) (t : Text) :
    interpolatesFrom sigil false (.ofChar '\\' :: c :: t) = interpolatesFrom sigil false t := by
  have hne : CodePoint.ofChar '\\' ≠ .ofChar '#' := by decide
  simp [interpolatesFrom, hne]

/-- A text starts with a `#` and a sigil, or has them further on. -/
theorem hash_infix_cons_iff {sigil c : CodePoint} {cs : Text} :
    [.ofChar '#', sigil] <:+: c :: cs ↔
      c = .ofChar '#' ∧ cs.head? = some sigil ∨ [.ofChar '#', sigil] <:+: cs := by
  rw [List.infix_cons_iff, List.cons_prefix_cons]
  cases cs with
  | nil => simp
  | cons d ds => simp [eq_comm]

/-- What is escaped interpolates where the text has a `#` before a sigil other than a
brace. -/
theorem interpolatesFrom_rubyEscaped {sigil : CodePoint} (h : sigil ∈ sigils) (s : Text) :
    interpolatesFrom sigil false (rubyEscaped s ++ [.ofChar '"']) = true ↔
      sigil ≠ .ofChar '\x7b' ∧ [.ofChar '#', sigil] <:+: s := by
  induction s with
  | nil => simp [rubyEscaped, interpolatesFrom]
  | cons c cs ih =>
      rw [hash_infix_cons_iff, rubyEscaped]
      split
      · next hescape =>
          rw [List.cons_append, List.cons_append, interpolatesFrom_escaped, ih]
          -- a `#` is escaped only before a brace
          have hbrace : c = .ofChar '#' → cs.head? = some (.ofChar '\x7b') := by
            rintro rfl
            have hhash : CodePoint.ofChar '#' ≠ .ofChar '\\' ∧
                CodePoint.ofChar '#' ≠ .ofChar '"' := by decide
            simpa [hhash] using hescape
          grind
      · next hplain =>
          simp only [Bool.or_eq_true, beq_iff_eq, Bool.and_eq_true, not_or, not_and] at hplain
          obtain ⟨⟨hbackslash, -⟩, hbrace⟩ := hplain
          rw [List.cons_append, interpolatesFrom, Bool.or_eq_true, beq_false_of_ne hbackslash,
            Bool.false_and, ih]
          simp only [Bool.not_false, Bool.true_and, Bool.and_eq_true, beq_iff_eq,
            head?_rubyEscaped_iff h]
          grind

/-- **A quoted string interpolates exactly where its text has `#$` or `#@`.** No brace
starts an interpolation in it, whatever backslashes and `#` stand before the brace; of the
other sigils each does if the text has it behind a `#`, even if a backslash stands before
the `#`. -/
theorem interpolates_rubyQuoted_iff {sigil : CodePoint} (h : sigil ∈ sigils) (s : Text) :
    Interpolates sigil (rubyQuoted s) ↔
      sigil ≠ .ofChar '\x7b' ∧ [.ofChar '#', sigil] <:+: s := by
  have hquoted : rubyQuoted s = .ofChar '"' :: (rubyEscaped s ++ [.ofChar '"']) := rfl
  have hquote : CodePoint.ofChar '"' ≠ .ofChar '#' ∧ CodePoint.ofChar '"' ≠ .ofChar '\\' := by
    decide
  rw [interpolates_iff, hquoted, interpolatesFrom, beq_false_of_ne hquote.1,
    beq_false_of_ne hquote.2, ← interpolatesFrom_rubyEscaped h]
  simp

/-- Behind a backslash a brace is escaped as well, and an instance variable is not. -/
theorem interpolates_rubyQuoted_iff_of_backslashes :
    let s : Text := "\\##\x7b1\x7d \\#@a $b"
    rubyQuoted s = "\"\\\\#\\#\x7b1\x7d \\\\#@a $b\"" ∧
      ¬Interpolates (.ofChar '\x7b') (rubyQuoted s) ∧ ¬Interpolates (.ofChar '$') (rubyQuoted s) ∧
      Interpolates (.ofChar '@') (rubyQuoted s) := by
  intro s
  have hbrace := @interpolates_rubyQuoted_iff (.ofChar '\x7b') (by decide) s
  have hglobal := @interpolates_rubyQuoted_iff (.ofChar '$') (by decide) s
  have hinstance := @interpolates_rubyQuoted_iff (.ofChar '@') (by decide) s
  rw [hbrace, hglobal, hinstance]
  decide +kernel

end HamlFormat
