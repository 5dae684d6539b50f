import HamlFormat.Number.Binary64
import Mathlib.Algebra.Order.Group.Nat
import Mathlib.Data.Nat.Log

/-!
# HamlFormat.Proofs.Number.Rounding

Rounding to double precision. A fraction that is a magnitude already rounds to
the index of that magnitude (`nearestIndex_units`), and how a fraction is written
does not matter (`nearestIndex_mul`). Hence what can be represented is exact
(`ofUnits_signedUnits`), and zero changes no sum (`add_add_zero`).
-/

namespace HamlFormat.Binary64

/-- A division without remainder is not rounded. -/
theorem roundDiv_mul (m : Nat) {den : Nat} (hden : 0 < den) : roundDiv (m * den) den = m := by
  simp only [roundDiv, Nat.mul_mod_left, Nat.mul_zero, if_pos hden]
  exact Nat.mul_div_cancel m hden

/-- Rounding looks at the fraction, not at how it is written. -/
theorem roundDiv_mul_mul (num den : Nat) {c : Nat} (hc : 0 < c) :
    roundDiv (num * c) (den * c) = roundDiv num den := by
  have hmod : num * c % (den * c) = num % den * c := Nat.mul_mod_mul_right c num den
  simp only [roundDiv, Nat.mul_div_mul_right _ _ hc, hmod, ← Nat.mul_assoc,
    Nat.mul_lt_mul_right hc]

/-- The nearest index looks at the fraction, not at how it is written. -/
theorem nearestIndex_mul (num den : Nat) {c : Nat} (hc : 0 < c) :
    nearestIndex (num * c) (den * c) = nearestIndex num den := by
  simp only [nearestIndex]
  generalize unitsPerOne = one
  rw [Nat.mul_right_comm num c, Nat.mul_div_mul_right _ _ hc, Nat.mul_right_comm den c,
    roundDiv_mul_mul _ _ hc]

theorem unitsPerOne_pos : 0 < unitsPerOne := by
  decide +kernel

/-- The nearest index of a number of units. -/
theorem nearestIndex_unitsPerOne (n : Nat) :
    nearestIndex n unitsPerOne =
      (Nat.log2 n - 52) * perBinade + roundDiv n (Nat.pow 2 (Nat.log2 n - 52)) := by
  have hone := unitsPerOne_pos
  simp only [nearestIndex]
  generalize unitsPerOne = one at hone ⊢
  rw [Nat.mul_div_cancel _ hone, Nat.mul_comm one, roundDiv_mul_mul _ _ hone]

/-- What is not zero does not round to zero. -/
theorem nearestIndex_pos {n : Nat} (h : 0 < n) : 0 < nearestIndex n unitsPerOne := by
  rw [nearestIndex_unitsPerOne]
  by_cases hk : Nat.log2 n - 52 = 0
  · have hround := roundDiv_mul n Nat.one_pos
    rw [Nat.mul_one] at hround
    rw [hk, show Nat.pow 2 0 = 1 from rfl, hround]
    omega
  · exact Nat.lt_of_lt_of_le (Nat.mul_pos (Nat.pos_of_ne_zero hk) (by decide))
      (Nat.le_add_right _ _)

/-- Below two binades an index is its own magnitude. -/
theorem units_of_lt {index : Nat} (h : index < 2 * perBinade) : units index = index := by
  have hdoublings : doublings index = 0 := by
    have : index / perBinade < 2 := Nat.div_lt_of_lt_mul (by omega)
    rw [doublings]
    omega
  rw [units, hdoublings]
  simp

/-- From the second binade on a magnitude is a number of 53 binary digits, shifted
by the doublings of its spacing. -/
theorem units_of_le {index : Nat} (h : 2 * perBinade ≤ index) :
    ∃ k m, index = k * perBinade + m ∧ units index = m * Nat.pow 2 k ∧
      perBinade ≤ m ∧ m < 2 * perBinade := by
  have hdiv : 2 ≤ index / perBinade := (Nat.le_div_iff_mul_le (by decide)).mpr h
  have hsplit := Nat.div_add_mod index perBinade
  have hmod : index % perBinade < perBinade := Nat.mod_lt _ (by decide)
  have hdoublings : index / perBinade = doublings index + 1 := by rw [doublings]; omega
  rw [hdoublings, Nat.mul_add, Nat.mul_comm] at hsplit
  refine ⟨doublings index, index - doublings index * perBinade, ?_, rfl, ?_, ?_⟩ <;> omega

/-- **A magnitude rounds to its own index.** -/
theorem nearestIndex_units (index : Nat) : nearestIndex (units index) unitsPerOne = index := by
  rw [nearestIndex_unitsPerOne]
  by_cases h : index < 2 * perBinade
  · have hlog : Nat.log2 index - 52 = 0 := by
      by_cases hzero : index = 0
      · rw [hzero]; rfl
      · have := (Nat.log2_lt hzero).mpr (show index < 2 ^ 53 from h)
        omega
    have hround := roundDiv_mul index Nat.one_pos
    rw [Nat.mul_one] at hround
    rw [units_of_lt h, hlog, show Nat.pow 2 0 = 1 from rfl, hround]
    omega
  · obtain ⟨k, m, hindex, hunits, hlow, hhigh⟩ := units_of_le (Nat.le_of_not_lt h)
    have hlog : Nat.log2 (m * 2 ^ k) = 52 + k := by
      have hpow : 0 < 2 ^ k := Nat.two_pow_pos k
      refine (Nat.log2_eq_iff (Nat.mul_ne_zero (by omega) hpow.ne')).mpr ⟨?_, ?_⟩
      · rw [Nat.pow_add]
        exact Nat.mul_le_mul_right _ hlow
      · rw [Nat.add_right_comm, Nat.pow_add]
        exact Nat.mul_lt_mul_of_pos_right hhigh hpow
    rw [hunits, show Nat.pow 2 k = 2 ^ k from rfl, hlog, Nat.add_sub_cancel_left, hindex,
      show Nat.pow 2 k = 2 ^ k from rfl, roundDiv_mul m (Nat.pow_pos (by decide))]

/-! ## Exact results -/

/-- Only the first magnitude is zero. -/
theorem units_pos {index : Nat} (h : 0 < index) : 0 < units index := by
  refine Nat.pos_of_ne_zero fun hunits => ?_
  have hindex := nearestIndex_units index
  rw [hunits, nearestIndex_unitsPerOne] at hindex
  have hzero : (Nat.log2 0 - 52) * perBinade + roundDiv 0 (Nat.pow 2 (Nat.log2 0 - 52)) = 0 := by
    decide
  omega

/-- A number that is not minus zero is its own exact value, rounded. -/
theorem ofUnits_signedUnits {negative : Bool} {index : Fin magnitudes}
    (h : negative = true → 0 < index.val) :
    ofUnits (signedUnits negative index) = .finite negative index := by
  have hnegative : decide (signedUnits negative index < 0) = negative := by
    cases negative with
    | false => simp [signedUnits]
    | true =>
        have := units_pos (h rfl)
        simp only [signedUnits, if_true, decide_eq_true_eq]
        omega
  have habs : (signedUnits negative index).natAbs = units index := by
    cases negative <;> simp [signedUnits]
  rw [ofUnits, hnegative, habs]
  simp only [ofFraction, nearestIndex_units, Fin.eta, dif_pos index.isLt]

/-- A rounded number of units is never minus zero. -/
theorem ofUnits_ne_negZero {n : Int} {negative : Bool} {index : Fin magnitudes}
    (h : ofUnits n = .finite negative index) : negative = true → 0 < index.val := by
  intro hnegative
  simp only [ofUnits, ofFraction] at h
  split at h
  · cases h
    have hn : 0 < n.natAbs := by
      rw [decide_eq_true_eq] at hnegative
      omega
    exact nearestIndex_pos hn
  · cases h

/-- Zero as a number in double precision. -/
theorem ofInt_zero : ofInt 0 = .finite false ⟨0, by decide⟩ := by
  decide +kernel

theorem finite_add_finite (a b : Bool) (i j : Fin magnitudes) :
    Binary64.finite a i + .finite b j = ofUnits (signedUnits a i + signedUnits b j) := by
  simp only [HAdd.hAdd, Add.add, add]

/-- Neither zero changes a number that is not minus zero. -/
theorem ofUnits_add_zero (n : Int) (negative : Bool) :
    ofUnits n + .finite negative ⟨0, by decide⟩ = ofUnits n := by
  have hzero : signedUnits negative ⟨0, by decide⟩ = 0 := by cases negative <;> rfl
  cases h : ofUnits n with
  | nan => rfl
  | infinite s => rfl
  | finite s index =>
      rw [finite_add_finite, hzero, Int.add_zero, ofUnits_signedUnits (ofUnits_ne_negZero h)]

/-- Neither zero changes a sum. -/
theorem add_add_zero (x y : Binary64) (negative : Bool) :
    x + y + .finite negative ⟨0, by decide⟩ = x + y := by
  cases x with
  | nan => rfl
  | infinite a =>
      cases y with
      | nan => rfl
      | infinite b => cases a <;> cases b <;> rfl
      | finite b j => rfl
  | finite a i =>
      cases y with
      | nan => rfl
      | infinite b => rfl
      | finite b j => rw [finite_add_finite, ofUnits_add_zero]

end HamlFormat.Binary64
