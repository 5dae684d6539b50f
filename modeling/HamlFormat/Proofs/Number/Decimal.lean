import HamlFormat.Number.Decimal
import HamlFormat.Proofs.Number.Rounding

/-!
# HamlFormat.Proofs.Number.Decimal

Decimals and the double precision numbers they round to. Settling extreme
exponents early changes no result (`ofDecimal_eq`), so only the value of a decimal
counts and not how it is split into digits and exponent (`ofDecimal_mul_pow`). The
shortest decimal of a number reads back as that number (`ofDecimal_shortest`).
-/

namespace HamlFormat

namespace Binary64

/-! ## Out of range -/

/-- What is less than half the smallest positive magnitude rounds to zero. -/
theorem nearestIndex_eq_zero {num den : Nat} (h : 2 * (num * unitsPerOne) < den) :
    nearestIndex num den = 0 := by
  simp only [nearestIndex]
  generalize num * unitsPerOne = units at h ⊢
  have hquotient : units / den = 0 := Nat.div_eq_of_lt (by omega)
  have hmod : units % den = units := Nat.mod_eq_of_lt (by omega)
  rw [hquotient, show Nat.log2 0 - 52 = 0 from rfl, show Nat.pow 2 0 = 1 from rfl, Nat.mul_one]
  simp only [roundDiv, hquotient, hmod, if_pos h, Nat.zero_mul]

/-- Rounding a quotient leaves it or adds one. -/
theorem roundDiv_eq_or (num den : Nat) :
    roundDiv num den = num / den ∨ roundDiv num den = num / den + 1 := by
  simp only [roundDiv]
  split
  · exact .inl rfl
  · split <;> omega

/-- What is no less than `2 ^ 1024` rounds to no finite magnitude. -/
theorem magnitudes_le_nearestIndex {num : Nat} (h : 2 ^ 1024 ≤ num) :
    magnitudes ≤ nearestIndex num 1 := by
  have hunits : 2 ^ 2098 ≤ num * unitsPerOne := by
    rw [show (2 : Nat) ^ 2098 = 2 ^ 1024 * unitsPerOne by decide +kernel]
    exact Nat.mul_le_mul_right _ h
  simp only [nearestIndex, Nat.div_one, Nat.one_mul]
  generalize num * unitsPerOne = units at hunits ⊢
  have hne : units ≠ 0 := fun hzero => by
    rw [hzero] at hunits
    exact absurd hunits (by decide +kernel)
  have hlog : 2098 ≤ Nat.log2 units := by rwa [Nat.le_log2 hne]
  have hlow : 2 ^ 52 ≤ units / Nat.pow 2 (Nat.log2 units - 52) := by
    refine (Nat.le_div_iff_mul_le (Nat.two_pow_pos _)).mpr ?_
    calc 2 ^ 52 * Nat.pow 2 (Nat.log2 units - 52)
        = 2 ^ (52 + (Nat.log2 units - 52)) := (Nat.pow_add 2 52 _).symm
      _ = 2 ^ Nat.log2 units := by rw [Nat.add_sub_cancel' (by omega)]
      _ ≤ units := Nat.log2_self_le hne
  have hround : 2 ^ 52 ≤ roundDiv units (Nat.pow 2 (Nat.log2 units - 52)) := by
    obtain heq | heq := roundDiv_eq_or units (Nat.pow 2 (Nat.log2 units - 52)) <;> omega
  have hbinades : 2046 * perBinade ≤ (Nat.log2 units - 52) * perBinade :=
    Nat.mul_le_mul_right _ (by omega)
  calc magnitudes = 2046 * perBinade + 2 ^ 52 := rfl
    _ ≤ _ := Nat.add_le_add hbinades hround

/-! ## The value of a decimal -/

/-- A fraction rounds to a finite number by its nearest index. -/
theorem ofFraction_eq_finite {negative sign : Bool} {num den : Nat} {index : Fin magnitudes} :
    ofFraction negative num den = .finite sign index ↔
      negative = sign ∧ nearestIndex num den = index := by
  rw [ofFraction]
  generalize nearestIndex num den = found
  split
  · rw [finite.injEq, Fin.ext_iff]
  · next hlarge =>
    constructor
    · rintro ⟨⟩
    · rintro ⟨-, rfl⟩
      exact absurd index.isLt hlarge

theorem ofFraction_zero (negative : Bool) {den : Nat} (hden : 0 < den) :
    ofFraction negative 0 den = .finite negative ⟨0, by decide⟩ :=
  ofFraction_eq_finite.mpr ⟨rfl, nearestIndex_eq_zero (by omega)⟩

/-- A power of ten past 400 makes up for all binary digits, and the smallest
magnitude besides. -/
theorem two_mul_mul_unitsPerOne_lt {digits n : Nat} (h : Nat.log2 digits + 401 ≤ n) :
    2 * (digits * unitsPerOne) < 10 ^ n := by
  have hone := unitsPerOne_pos
  have hfour : 4 * unitsPerOne ≤ 10 ^ 401 := by decide +kernel
  generalize unitsPerOne = one at hone hfour ⊢
  have hdigits : digits < 2 ^ (Nat.log2 digits + 1) := Nat.lt_log2_self
  calc 2 * (digits * one)
      < 2 * (2 ^ (Nat.log2 digits + 1) * one) :=
        Nat.mul_lt_mul_of_pos_left (Nat.mul_lt_mul_of_pos_right hdigits hone) (by decide)
    _ = 2 ^ Nat.log2 digits * (4 * one) := by
        rw [Nat.pow_succ, Nat.mul_assoc, Nat.mul_left_comm, ← Nat.mul_assoc 2 2 one]
    _ ≤ 10 ^ Nat.log2 digits * 10 ^ 401 :=
        Nat.mul_le_mul (Nat.pow_le_pow_left (by decide) _) hfour
    _ = 10 ^ (Nat.log2 digits + 401) := (Nat.pow_add 10 _ _).symm
    _ ≤ 10 ^ n := Nat.pow_le_pow_right (by decide) h

/-- Settling extreme exponents early changes no result: a decimal rounds like the
fraction that it is. -/
theorem ofDecimal_eq (negative : Bool) (digits : Nat) (exponent : Int) :
    ofDecimal negative digits exponent =
      ofFraction negative (digits * 10 ^ exponent.toNat) (10 ^ (-exponent).toNat) := by
  rw [ofDecimal]
  split
  · next hdigits =>
    rw [hdigits, Nat.zero_mul, ofFraction_zero negative (Nat.pow_pos (by decide)),
      ofFraction_zero negative (by decide)]
  · next hdigits =>
    split
    · next hlarge =>
      have hpower : 10 ^ 401 ≤ 10 ^ exponent.toNat := Nat.pow_le_pow_right (by decide) (by omega)
      have hvalue : 2 ^ 1024 ≤ digits * 10 ^ exponent.toNat := by
        calc 2 ^ 1024 ≤ 1 * 10 ^ 401 := by decide +kernel
          _ ≤ digits * 10 ^ exponent.toNat := Nat.mul_le_mul (by omega) hpower
      have hindex := magnitudes_le_nearestIndex hvalue
      rw [show (-exponent).toNat = 0 by omega, Nat.pow_zero]
      simp only [ofFraction, dif_neg (Nat.not_lt.mpr hindex)]
    · split
      · next hsmall =>
        have hindex : nearestIndex digits (10 ^ (-exponent).toNat) = 0 :=
          nearestIndex_eq_zero (two_mul_mul_unitsPerOne_lt (by omega))
        rw [show exponent.toNat = 0 by omega, Nat.pow_zero, Nat.mul_one,
          ofFraction_zero negative (by decide)]
        exact (ofFraction_eq_finite.mpr ⟨rfl, hindex⟩).symm
      · split
        · rw [show (-exponent).toNat = 0 by omega]
          rfl
        · rw [show exponent.toNat = 0 by omega, Nat.pow_zero, Nat.mul_one]
          rfl

theorem ofFraction_mul (negative : Bool) (num den : Nat) {c : Nat} (hc : 0 < c) :
    ofFraction negative (num * c) (den * c) = ofFraction negative num den := by
  simp only [ofFraction, nearestIndex_mul num den hc]

/-- Zeros at the end of the digits can stand in the exponent. -/
theorem ofDecimal_mul_pow (negative : Bool) (digits : Nat) (exponent : Int) (k : Nat) :
    ofDecimal negative (digits * 10 ^ k) exponent = ofDecimal negative digits (exponent + k) := by
  rw [ofDecimal_eq, ofDecimal_eq]
  obtain ⟨n, rfl | rfl⟩ := Int.eq_nat_or_neg exponent
  · rw [show (-(n : Int)).toNat = 0 by omega, show (-((n : Int) + k)).toNat = 0 by omega,
      show ((n : Int) + k).toNat = k + n by omega, Int.toNat_natCast, Nat.mul_assoc, ← Nat.pow_add]
  · rw [show (-(n : Int)).toNat = 0 by omega, show (-(-(n : Int))).toNat = n by omega, Nat.pow_zero,
      Nat.mul_one]
    by_cases hle : k ≤ n
    · rw [show (-(n : Int) + k).toNat = 0 by omega, show (-(-(n : Int) + k)).toNat = n - k by omega,
        Nat.pow_zero, Nat.mul_one]
      calc ofFraction negative (digits * 10 ^ k) (10 ^ n)
          = ofFraction negative (digits * 10 ^ k) (10 ^ (n - k) * 10 ^ k) := by
            rw [← Nat.pow_add, Nat.sub_add_cancel hle]
        _ = _ := ofFraction_mul negative _ _ (Nat.pow_pos (by decide))
    · rw [show (-(n : Int) + k).toNat = k - n by omega, show (-(-(n : Int) + k)).toNat = 0 by omega,
        Nat.pow_zero]
      calc ofFraction negative (digits * 10 ^ k) (10 ^ n)
          = ofFraction negative (digits * 10 ^ (k - n) * 10 ^ n) (1 * 10 ^ n) := by
            rw [Nat.mul_assoc, ← Nat.pow_add, Nat.sub_add_cancel (by omega), Nat.one_mul]
        _ = _ := ofFraction_mul negative _ _ (Nat.pow_pos (by decide))

/-- A magnitude as a decimal: a unit of `2 ^ -1074` is `5 ^ 1074` of `10 ^ -1074`. -/
theorem ofDecimal_units (negative : Bool) (index : Fin magnitudes) :
    ofDecimal negative (units index * 5 ^ 1074) (-1074) = .finite negative index := by
  have hone : (10 : Nat) ^ (- -1074 : Int).toNat = unitsPerOne * 5 ^ 1074 := by decide +kernel
  rw [ofDecimal_eq, hone, show (-1074 : Int).toNat = 0 from rfl, Nat.pow_zero, Nat.mul_one,
    ofFraction_mul _ _ _ (Nat.pow_pos (by decide))]
  exact ofFraction_eq_finite.mpr ⟨rfl, nearestIndex_units index⟩

end Binary64

/-! ## The shortest decimal -/

namespace Decimal

open Binary64

/-- The sign is no part of what a decimal reads as. -/
theorem readsAs_iff (d : Decimal) (negative : Bool) (index : Fin magnitudes) :
    d.readsAs index = true ↔
      ofDecimal negative d.digits d.exponent = .finite negative index := by
  rw [readsAs, ofDecimal_eq, ofDecimal_eq, ofFraction_eq_finite]
  split
  · next hread =>
    rw [beq_iff_eq, (ofFraction_eq_finite.mp hread).2]
    exact (and_iff_right rfl).symm
  · next hread =>
    constructor
    · rintro ⟨⟩
    · rintro ⟨-, hindex⟩
      exact absurd (ofFraction_eq_finite.mpr ⟨rfl, hindex⟩) (hread false index)

/-- A decimal that is picked reads back. -/
theorem readsAs_of_nearest? {index : Nat} {places : Int} {d : Decimal}
    (h : nearest? index places = some d) : d.readsAs index = true := by
  simp only [nearest?] at h
  generalize scale _ _ _ = fraction at h
  split at h
  · next hbelow habove =>
    cases h
    obtain heq | heq := roundDiv_eq_or fraction.1 fraction.2
    · rwa [heq]
    · rwa [heq]
  · next hbelow _ =>
    cases h
    exact hbelow
  · next _ habove =>
    cases h
    exact habove
  · cases h

theorem readsAs_search (index : Fin magnitudes) (leading : Int) (count tries : Nat) :
    (search index leading count tries).readsAs index = true := by
  induction tries generalizing count with
  | zero => exact (readsAs_iff _ false index).mpr (ofDecimal_units false index)
  | succ tries ih =>
      rw [search]
      split
      · next hfound => exact readsAs_of_nearest? hfound
      · exact ih (count + 1)

/-- Moving zeros into the exponent leaves the number. -/
theorem readsAs_normalize {d : Decimal} {index : Fin magnitudes} (h : d.readsAs index = true)
    (fuel : Nat) : (d.normalize fuel).readsAs index = true := by
  induction fuel generalizing d with
  | zero => exact h
  | succ fuel ih =>
      rw [normalize]
      split
      · next hzero =>
        have hdigits : d.digits = d.digits / 10 * 10 ^ 1 := by omega
        refine ih ((readsAs_iff _ false index).mpr ?_)
        rw [readsAs_iff _ false, hdigits, ofDecimal_mul_pow] at h
        exact h
      · exact h

/-- **The shortest decimal of a number reads back as that number.** -/
theorem ofDecimal_shortest (negative : Bool) (index : Fin magnitudes) :
    ofDecimal negative (shortest index).digits (shortest index).exponent =
      .finite negative index := by
  rw [← readsAs_iff, shortest]
  split
  · next hzero =>
    rw [readsAs_iff _ false, ofDecimal_eq, Nat.zero_mul, ofFraction_zero _ (by decide)]
    exact congrArg _ (Fin.ext hzero.symm)
  · exact readsAs_normalize (readsAs_search index _ _ _) 17

end Decimal

end HamlFormat
