import HamlFormat.Json.Read
import HamlFormat.Json.Write
import HamlFormat.Proofs.Fault
import HamlFormat.Proofs.Number.Decimal
import Mathlib.Tactic.Ring

/-!
# HamlFormat.Proofs.Json.Number

Numbers written as JSON text and read back. Every form that a decimal is written
in, positional or with an exponent, spells that decimal (`readUnsigned_text`), so
a double precision number is read back exactly (`readValue_finiteText`). An integer
is too, if it has no more digits than may be read (`readValue_intText`).

A reader is given the number in front of the text that follows it. What follows
must not go on with the number (`endsNumber`).
-/

namespace HamlFormat

namespace Json

/-! ## Digits -/

theorem isDigit_of_mem_digitsOf {n : Nat} : ∀ c ∈ Decimal.digitsOf n, isDigit c = true := by
  simp only [Decimal.digitsOf, List.forall_mem_map]
  intro c hc
  have hdigit := Nat.isDigit_of_mem_toDigits (by decide) (by decide) hc
  simp only [Char.isDigit, ge_iff_le, Bool.and_eq_true, decide_eq_true_eq,
    UInt32.le_iff_toNat_le] at hdigit
  simp only [isDigit, Bool.and_eq_true, decide_eq_true_eq]
  exact hdigit

theorem isDigit_of_mem_zeros {n : Nat} : ∀ c ∈ Decimal.zeros n, isDigit c = true := by
  intro c hc
  rw [List.eq_of_mem_replicate hc]
  rfl

theorem digitsValue_append (a b : Text) :
    digitsValue (a ++ b) = digitsValue a * 10 ^ b.length + digitsValue b := by
  have hfrom : ∀ (t : Text) (n : Nat), t.foldl (fun n c => 10 * n + (c.val - '0'.toNat)) n =
      n * 10 ^ t.length + digitsValue t := by
    intro t
    induction t with
    | nil => simp [digitsValue]
    | cons c t ih =>
        intro n
        rw [digitsValue, List.foldl_cons, List.foldl_cons, ih, ih, List.length_cons, Nat.pow_succ]
        ring
  rw [digitsValue, List.foldl_append, hfrom b]
  rfl

theorem digitsValue_zeros (n : Nat) : digitsValue (Decimal.zeros n) = 0 := by
  induction n with
  | zero => rfl
  | succ n ih => exact ih

@[simp] theorem length_zeros (n : Nat) : (Decimal.zeros n).length = n :=
  List.length_replicate

theorem digitsValue_digitsOf (n : Nat) : digitsValue (Decimal.digitsOf n) = n := by
  rw [digitsValue, Decimal.digitsOf, List.foldl_map]
  exact Nat.ofDigitChars_ten_toDigits

theorem length_digitsOf_pos (n : Nat) : 0 < (Decimal.digitsOf n).length := by
  rw [Decimal.digitsOf, List.length_map]
  exact Nat.length_toDigits_pos

/-- A number has no more digits than its size asks for. -/
theorem length_digitsOf_le_iff {n k : Nat} (hk : 0 < k) :
    (Decimal.digitsOf n).length ≤ k ↔ n < 10 ^ k := by
  rw [Decimal.digitsOf, List.length_map, Nat.length_toDigits_le_iff (by decide) hk]

theorem digitsValue_lt (t : Text) (h : ∀ c ∈ t, isDigit c = true) :
    digitsValue t < 10 ^ t.length := by
  induction t with
  | nil => decide
  | cons c t ih =>
      have hc : c.val - '0'.toNat ≤ 9 := by
        have := h c List.mem_cons_self
        simp [isDigit] at this
        simp
        omega
      have ht := ih fun d hd => h d (List.mem_cons_of_mem c hd)
      rw [← List.singleton_append, digitsValue_append, List.length_append]
      have hone : digitsValue [c] = c.val - '0'.toNat := by simp [digitsValue]
      rw [hone, List.length_singleton, Nat.add_comm 1, Nat.pow_succ]
      have := Nat.mul_le_mul_right (10 ^ t.length) hc
      omega

/-- The first digit of a positive number is not zero. -/
theorem exists_digitsOf_eq_cons {n : Nat} (h : 0 < n) :
    ∃ c digits, Decimal.digitsOf n = c :: digits ∧ c ≠ CodePoint.ofChar '0' := by
  cases hdigits : Decimal.digitsOf n with
  | nil => exact absurd (length_digitsOf_pos n) (by simp [hdigits])
  | cons c digits =>
      refine ⟨c, digits, rfl, ?_⟩
      rintro rfl
      -- the other digits would be enough for the number
      have hvalue : digitsValue digits = n := by
        rw [← digitsValue_digitsOf n, hdigits]
        rfl
      have hlt := digitsValue_lt digits fun d hd =>
        isDigit_of_mem_digitsOf (n := n) d (by simp [hdigits, hd])
      rw [hvalue] at hlt
      cases digits with
      | nil => simp [digitsValue] at hvalue; omega
      | cons d digits =>
          have hlength := (length_digitsOf_le_iff (by simp)).mpr hlt
          rw [hdigits] at hlength
          simp at hlength

/-! ## Reading digits -/

/-- Whether a text does not start with a digit. -/
def endsDigits : Text → Bool
  | [] => true
  | c :: _ => !isDigit c

/-- Whether a text cannot go on with a number that stands before it. -/
def endsNumber : Text → Bool
  | [] => true
  | c :: _ => !(isDigit c || c == '.' || c == 'e' || c == 'E')

theorem endsDigits_of_endsNumber {rest : Text} (h : endsNumber rest = true) :
    endsDigits rest = true := by
  cases rest with
  | nil => rfl
  | cons c rest =>
      simp only [endsNumber, Bool.not_eq_true', Bool.or_eq_false_iff] at h
      simp [endsDigits, h.1.1.1]

theorem takeWhile_isDigit {digits rest : Text} (h : ∀ c ∈ digits, isDigit c = true)
    (hrest : endsDigits rest = true) : (digits ++ rest).takeWhile isDigit = digits := by
  rw [List.takeWhile_append_of_pos h]
  cases rest with
  | nil => simp
  | cons c rest => simp_all [endsDigits]

theorem dropWhile_isDigit {digits rest : Text} (h : ∀ c ∈ digits, isDigit c = true)
    (hrest : endsDigits rest = true) : (digits ++ rest).dropWhile isDigit = rest := by
  rw [List.dropWhile_append_of_pos h]
  cases rest with
  | nil => rfl
  | cons c rest => simp_all [endsDigits]

/-- Digits that do not start with zero are read whole. -/
theorem readWhole_append {c : CodePoint} {digits rest : Text} (hc : c ≠ CodePoint.ofChar '0')
    (h : ∀ d ∈ c :: digits, isDigit d = true) (hrest : endsDigits rest = true) :
    readWhole (c :: digits ++ rest) = .ok (c :: digits, rest) := by
  have htail : ∀ d ∈ digits, isDigit d = true := fun d hd => h d (List.mem_cons_of_mem c hd)
  rw [List.cons_append, readWhole, if_neg (by simpa using hc), if_pos (h c List.mem_cons_self),
    takeWhile_isDigit htail hrest, dropWhile_isDigit htail hrest]

theorem readWhole_zero (rest : Text) :
    readWhole (CodePoint.ofChar '0' :: rest) = .ok ([CodePoint.ofChar '0'], rest) := by
  rfl

/-- The digits after a point are read. -/
theorem readFraction_append {digits rest : Text} (hne : digits ≠ [])
    (h : ∀ d ∈ digits, isDigit d = true) (hrest : endsDigits rest = true) :
    readFraction (CodePoint.ofChar '.' :: (digits ++ rest)) = (digits, rest) := by
  simp [readFraction, takeWhile_isDigit h hrest, dropWhile_isDigit h hrest, hne]

/-- What ends a number has no fraction. -/
theorem readFraction_of_endsNumber {rest : Text} (h : endsNumber rest = true) :
    readFraction rest = ([], rest) := by
  cases rest with
  | nil => rfl
  | cons c rest =>
      simp only [endsNumber, Bool.not_eq_true', Bool.or_eq_false_iff] at h
      simp [readFraction, h.1.1.2]

/-- What ends a number has no exponent. -/
theorem readExponent_of_endsNumber {rest : Text} (h : endsNumber rest = true) :
    readExponent rest = (none, rest) := by
  cases rest with
  | nil => rfl
  | cons c rest =>
      simp only [endsNumber, Bool.not_eq_true', Bool.or_eq_false_iff] at h
      simp [readExponent, h.1.2, h.2]

/-- An exponent is read back, whatever its sign. -/
theorem readExponent_exponentText (e : Int) {rest : Text} (h : endsDigits rest = true) :
    readExponent (CodePoint.ofChar 'e' :: (Decimal.exponentText e ++ rest)) = (some e, rest) := by
  have hdigits : ∀ c ∈ Decimal.zeros (2 - (Decimal.digitsOf e.natAbs).length) ++
      Decimal.digitsOf e.natAbs, isDigit c = true := by
    intro c hc
    obtain hc | hc := List.mem_append.mp hc
    · exact isDigit_of_mem_zeros c hc
    · exact isDigit_of_mem_digitsOf c hc
  have hvalue : digitsValue (Decimal.zeros (2 - (Decimal.digitsOf e.natAbs).length) ++
      Decimal.digitsOf e.natAbs) = e.natAbs := by
    rw [digitsValue_append, digitsValue_zeros, digitsValue_digitsOf, Nat.zero_mul, Nat.zero_add]
  have hne : Decimal.zeros (2 - (Decimal.digitsOf e.natAbs).length) ++
      Decimal.digitsOf e.natAbs ≠ [] := by
    have := length_digitsOf_pos e.natAbs
    exact List.append_ne_nil_of_right_ne_nil _ (List.ne_nil_of_length_pos this)
  rw [Decimal.exponentText]
  generalize Decimal.zeros (2 - (Decimal.digitsOf e.natAbs).length) ++
    Decimal.digitsOf e.natAbs = digits at hdigits hvalue hne ⊢
  have hread : ∀ sign negative, readSign (sign :: (digits ++ rest)) = (negative, digits ++ rest) →
      readExponent (CodePoint.ofChar 'e' :: (sign :: (digits ++ rest))) =
        (some (if negative then -(e.natAbs : Int) else e.natAbs), rest) := by
    intro sign negative hsign
    simp [readExponent, hsign, takeWhile_isDigit hdigits h, dropWhile_isDigit hdigits h, hne,
      hvalue]
  by_cases hneg : e < 0
  · rw [if_pos hneg, List.cons_append, hread _ true rfl, if_pos rfl,
      show -(e.natAbs : Int) = e by omega]
  · rw [if_neg hneg, List.cons_append, hread _ false rfl, if_neg (by decide),
      show (e.natAbs : Int) = e by omega]

/-! ## Decimals -/

/-- A number with a fraction or an exponent is read as the decimal it spells. -/
theorem readUnsigned_float (negative : Bool) {t whole afterWhole fraction afterFraction rest : Text}
    {exponent : Option Int} (hwhole : readWhole t = .ok (whole, afterWhole))
    (hfraction : readFraction afterWhole = (fraction, afterFraction))
    (hexponent : readExponent afterFraction = (exponent, rest))
    (hfloat : fraction ≠ [] ∨ exponent ≠ none) :
    readUnsigned negative t =
      .ok (.float (.ofDecimal negative (digitsValue (whole ++ fraction))
        (exponent.getD 0 - fraction.length)), rest) := by
  have hkind : (fraction.isEmpty && exponent.isNone) = false := by
    obtain h | h := hfloat
    · simp [h]
    · simp [Option.isNone_eq_false_iff, Option.isSome_iff_ne_none, h]
  simp only [readUnsigned, hwhole, hfraction, hexponent, hkind, Fault.ok_bind]
  rfl

/-- A number with a point, from the digits on its two sides. -/
theorem readUnsigned_point (negative : Bool) {t whole fraction rest : Text} {x : Binary64}
    (hwhole : readWhole t = .ok (whole, CodePoint.ofChar '.' :: (fraction ++ rest)))
    (hfraction : ∀ c ∈ fraction, isDigit c = true) (hne : fraction ≠ [])
    (hrest : endsNumber rest = true)
    (hx : .ofDecimal negative (digitsValue (whole ++ fraction)) (-fraction.length) = x) :
    readUnsigned negative t = .ok (.float x, rest) := by
  rw [readUnsigned_float negative hwhole
    (readFraction_append hne hfraction (endsDigits_of_endsNumber hrest))
    (readExponent_of_endsNumber hrest) (.inl hne), Option.getD_none, Int.zero_sub, hx]

/-- A number in scientific form, of one digit or more. -/
theorem readUnsigned_scientific (negative : Bool) {c : CodePoint} {digits rest : Text}
    (hc : c ≠ CodePoint.ofChar '0') (h : ∀ d ∈ c :: digits, isDigit d = true) (e : Int)
    (hrest : endsNumber rest = true) :
    readUnsigned negative (c :: ((if digits = [] then [] else CodePoint.ofChar '.' :: digits) ++
        CodePoint.ofChar 'e' :: (Decimal.exponentText e ++ rest))) =
      .ok (.float (.ofDecimal negative (digitsValue (c :: digits)) (e - digits.length)), rest) := by
  have hexponent := readExponent_exponentText e (endsDigits_of_endsNumber hrest)
  have hfirst : ∀ d ∈ [c], isDigit d = true := by simpa using h c List.mem_cons_self
  have hwhole : ∀ after, endsDigits after = true → readWhole (c :: after) = .ok ([c], after) :=
    fun after hafter => readWhole_append hc hfirst hafter
  by_cases hdigits : digits = []
  · have hnone : ∀ after, readFraction (CodePoint.ofChar 'e' :: after) =
        ([], CodePoint.ofChar 'e' :: after) := fun _ => rfl
    rw [if_pos hdigits, hdigits, List.nil_append]
    exact readUnsigned_float negative (hwhole _ rfl) (hnone _) hexponent (.inr (by simp))
  · have hfraction : ∀ d ∈ digits, isDigit d = true := fun d hd => h d (List.mem_cons_of_mem c hd)
    rw [if_neg hdigits, List.cons_append]
    exact readUnsigned_float negative (hwhole _ rfl) (readFraction_append hdigits hfraction rfl)
      hexponent (.inl hdigits)

/-- **The text of a decimal is read as that decimal.** -/
theorem readUnsigned_text (negative : Bool) (d : Decimal) {rest : Text}
    (hrest : endsNumber rest = true) :
    readUnsigned negative (d.text ++ rest) =
      .ok (.float (.ofDecimal negative d.digits d.exponent), rest) := by
  obtain ⟨n, e⟩ := d
  have hzero : ∀ c ∈ [CodePoint.ofChar '0'], isDigit c = true := List.forall_mem_singleton.mpr rfl
  by_cases hn : n = 0
  · rw [Decimal.text, if_pos hn]
    refine readUnsigned_point negative (readWhole_zero (CodePoint.ofChar '.' ::
      ([CodePoint.ofChar '0'] ++ rest))) hzero (by simp) hrest ?_
    have hvalue : digitsValue [CodePoint.ofChar '0', CodePoint.ofChar '0'] = 0 := rfl
    rw [List.singleton_append, hvalue, hn, Binary64.ofDecimal, Binary64.ofDecimal, if_pos rfl,
      if_pos rfl]
  have hall := isDigit_of_mem_digitsOf (n := n)
  have hvalue := digitsValue_digitsOf n
  obtain ⟨c, digits, hdigits, hc⟩ := exists_digitsOf_eq_cons (Nat.pos_of_ne_zero hn)
  rw [hdigits] at hall hvalue
  simp only [Decimal.text, if_neg hn, hdigits]
  generalize hpoint : (((c :: digits).length : Int) + e) = point
  by_cases hsmall : -4 < point ∧ point ≤ 0
  · -- all digits stand behind the point
    have hfraction : ∀ d ∈ Decimal.zeros (-point).toNat ++ (c :: digits), isDigit d = true :=
      List.forall_mem_append.mpr ⟨isDigit_of_mem_zeros, hall⟩
    rw [if_pos hsmall]
    refine readUnsigned_point negative (readWhole_zero (CodePoint.ofChar '.' ::
      (Decimal.zeros (-point).toNat ++ (c :: digits) ++ rest))) hfraction (by simp) hrest ?_
    rw [List.length_append, length_zeros, digitsValue_append, digitsValue_append, digitsValue_zeros,
      hvalue, show digitsValue [CodePoint.ofChar '0'] = 0 from rfl, Nat.zero_mul, Nat.zero_mul,
      Nat.zero_add, Nat.zero_add]
    congr 1
    omega
  rw [if_neg hsmall]
  by_cases hmiddle : 0 < point ∧ point ≤ 16
  · rw [if_pos hmiddle]
    by_cases hwhole : (c :: digits).length ≤ point.toNat
    · -- all digits stand before the point
      have hdigitsWhole : ∀ d ∈ c :: (digits ++ Decimal.zeros (point.toNat - (c :: digits).length)),
          isDigit d = true := by
        rw [← List.cons_append]
        exact List.forall_mem_append.mpr ⟨hall, isDigit_of_mem_zeros⟩
      have hread : readWhole (c :: digits ++ Decimal.zeros (point.toNat - (c :: digits).length) ++
          (CodePoint.ofChar '.' :: ([CodePoint.ofChar '0'] ++ rest))) =
          .ok (c :: (digits ++ Decimal.zeros (point.toNat - (c :: digits).length)),
            CodePoint.ofChar '.' :: ([CodePoint.ofChar '0'] ++ rest)) :=
        readWhole_append hc hdigitsWhole rfl
      rw [if_pos hwhole, List.append_assoc]
      refine readUnsigned_point negative hread hzero (by simp) hrest ?_
      rw [← List.cons_append, List.append_assoc, digitsValue_append, hvalue, digitsValue_append,
        digitsValue_zeros, show digitsValue [CodePoint.ofChar '0'] = 0 from rfl, Nat.zero_mul,
        Nat.add_zero, Binary64.ofDecimal_mul_pow, List.length_append, length_zeros,
        List.length_singleton]
      congr 1
      omega
    · -- the point stands among the digits
      obtain ⟨k, hk⟩ : ∃ k, point.toNat = k + 1 := ⟨point.toNat - 1, by omega⟩
      have htake : ∀ d ∈ c :: digits.take k, isDigit d = true := fun d hd =>
        hall d (List.mem_of_mem_take (i := k + 1) hd)
      have hdrop : ∀ d ∈ digits.drop k, isDigit d = true := fun d hd =>
        hall d (List.mem_of_mem_drop (i := k + 1) hd)
      have hread : readWhole (c :: digits.take k ++
          (CodePoint.ofChar '.' :: (digits.drop k ++ rest))) = _ := readWhole_append hc htake rfl
      rw [if_neg hwhole, hk, List.take_succ_cons, List.drop_succ_cons, List.append_assoc,
        List.append_assoc]
      simp only [List.length_cons] at hpoint hwhole
      refine readUnsigned_point negative hread hdrop
        (by simp only [ne_eq, List.drop_eq_nil_iff]; omega) hrest ?_
      rw [List.cons_append, List.take_append_drop, hvalue, List.length_drop]
      congr 1
      omega
  · rw [if_neg hmiddle]
    have hscientific := readUnsigned_scientific negative hc hall (point - 1) hrest
    rw [hvalue, show point - 1 - (digits.length : Int) = e by simp at hpoint; omega] at hscientific
    rw [← hscientific]
    cases digits with
    | nil => rfl
    | cons d digits =>
        simp only [List.append_assoc, if_neg (List.cons_ne_nil d digits)]
        rfl

/-! ## Values that are numbers -/

/-- A number that is read starts with a digit. -/
theorem exists_isDigit_of_readUnsigned {negative : Bool} {t : Text} {found : Found Json}
    (h : readUnsigned negative t = .ok found) : ∃ c rest, t = c :: rest ∧ isDigit c = true := by
  obtain ⟨whole, hwhole, -⟩ := Fault.bind_eq_ok.mp h
  cases t with
  | nil => cases hwhole
  | cons c rest =>
      refine ⟨c, rest, rfl, ?_⟩
      rw [readWhole] at hwhole
      split at hwhole
      · next hc => rw [beq_iff_eq.mp hc]; rfl
      · split at hwhole
        · assumption
        · cases hwhole

/-- No word starts with a digit. -/
theorem readWord?_of_isDigit {c : CodePoint} (h : isDigit c = true) (t : Text) :
    readWord? (c :: t) = none := by
  have hwords : ∀ word ∈ words, word.1.head?.any isDigit = false ∧ word.1 ≠ [] := by decide
  rw [readWord?, List.findSome?_eq_none_iff]
  intro word hword
  obtain ⟨hfirst, hne⟩ := hwords word hword
  cases hletters : word.1 with
  | nil => exact absurd hletters hne
  | cons first letters =>
      have hdiffer : (first == c) = false := by
        rw [beq_eq_false_iff_ne]
        rintro rfl
        simp [hletters, h] at hfirst
      simp [List.isPrefixOf, hdiffer]

/-- The only word with a minus sign has a letter after it. -/
theorem readWord?_minus {c : CodePoint} (h : isDigit c = true) (t : Text) :
    readWord? (CodePoint.ofChar '-' :: c :: t) = none := by
  have hwords : ∀ word ∈ words, (word.1.drop 1).head?.any isDigit = false ∧ word.1.drop 1 ≠ [] := by
    decide
  rw [readWord?, List.findSome?_eq_none_iff]
  intro word hword
  obtain ⟨hsecond, hne⟩ := hwords word hword
  match hletters : word.1 with
  | [] => simp [hletters] at hne
  | [_] => simp [hletters] at hne
  | first :: second :: letters =>
      have hdiffer : (second == c) = false := by
        rw [beq_eq_false_iff_ne]
        rintro rfl
        simp [hletters, h] at hsecond
      simp [List.isPrefixOf, hdiffer]

theorem readValue_unsigned (fuel : Nat) {t : Text} {found : Found Json}
    (h : readUnsigned false t = .ok found) : readValue (fuel + 1) t = .ok found := by
  obtain ⟨c, rest, rfl, hc⟩ := exists_isDigit_of_readUnsigned h
  have hdiffer : ∀ d, isDigit d = false → (c == d) = false := by
    intro d hd
    rw [beq_eq_false_iff_ne]
    rintro rfl
    simp [hc] at hd
  simp only [readValue, hdiffer _ (show isDigit (CodePoint.ofChar '"') = false from rfl),
    hdiffer _ (show isDigit (CodePoint.ofChar '[') = false from rfl),
    hdiffer _ (show isDigit (CodePoint.ofChar '\x7b') = false from rfl),
    readWord?_of_isDigit hc, readNumber,
    hdiffer _ (show isDigit (CodePoint.ofChar '-') = false from rfl)]
  exact h

theorem readValue_minus (fuel : Nat) {t : Text} {found : Found Json}
    (h : readUnsigned true t = .ok found) :
    readValue (fuel + 1) (CodePoint.ofChar '-' :: t) = .ok found := by
  obtain ⟨c, rest, rfl, hc⟩ := exists_isDigit_of_readUnsigned h
  rw [readValue]
  simp only [readWord?_minus hc]
  exact h

/-- **A finite number is read back**, its sign included. -/
theorem readValue_finiteText (fuel : Nat) (negative : Bool) (index : Fin Binary64.magnitudes)
    {rest : Text} (hrest : endsNumber rest = true) :
    readValue (fuel + 1) (Binary64.finiteText negative index ++ rest) =
      .ok (.float (.finite negative index), rest) := by
  have hread := readUnsigned_text negative (.shortest index) hrest
  rw [Decimal.ofDecimal_shortest] at hread
  cases negative with
  | false => exact readValue_unsigned fuel hread
  | true => exact readValue_minus fuel hread

/-- An integer is read back if it has no more digits than may be read. -/
theorem readValue_intText (fuel : Nat) {n : Int}
    (hn : (Decimal.digitsOf n.natAbs).length ≤ maxDigits) {rest : Text}
    (hrest : endsNumber rest = true) :
    readValue (fuel + 1) (intText n ++ rest) = .ok (.int n, rest) := by
  have hread : ∀ negative, readUnsigned negative (Decimal.digitsOf n.natAbs ++ rest) =
      .ok (.int (if negative then -(n.natAbs : Int) else n.natAbs), rest) := by
    intro negative
    have hwhole : readWhole (Decimal.digitsOf n.natAbs ++ rest) =
        .ok (Decimal.digitsOf n.natAbs, rest) := by
      by_cases hzero : n.natAbs = 0
      · rw [hzero]
        rfl
      · obtain ⟨c, digits, hdigits, hc⟩ := exists_digitsOf_eq_cons (Nat.pos_of_ne_zero hzero)
        have hall := isDigit_of_mem_digitsOf (n := n.natAbs)
        rw [hdigits] at hall ⊢
        exact readWhole_append hc hall (endsDigits_of_endsNumber hrest)
    simp only [readUnsigned, hwhole, readFraction_of_endsNumber hrest,
      readExponent_of_endsNumber hrest, readInteger, if_neg (Nat.not_lt.mpr hn),
      digitsValue_digitsOf, Fault.ok_bind]
    rfl
  rw [intText]
  by_cases hneg : n < 0
  · rw [if_pos hneg]
    have := readValue_minus fuel (hread true)
    rw [if_pos rfl, show -(n.natAbs : Int) = n by omega] at this
    exact this
  · rw [if_neg hneg]
    have := readValue_unsigned fuel (hread false)
    rw [if_neg (by decide), show (n.natAbs : Int) = n by omega] at this
    exact this

end Json

end HamlFormat
