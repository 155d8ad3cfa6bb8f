import Mathlib.Algebra.Group.Int.Defs
import Mathlib.Algebra.Group.Nat.Defs
import StepsLang.Value.Conversion

namespace StepsLang.Number

structure Is (x : Number) (i : Int) : Prop where
  whole : x.isWhole = true
  truncate : x.truncate = i

/-- The finite numbers that are a given integer when they are cut toward zero. -/
structure CutsTo (x : Number) (i : Int) : Prop where
  finite : x.isFinite = true
  truncate : x.truncate = i

theorem Is.cutsTo {x : Number} {i : Int} (h : x.Is i) : x.CutsTo i := by
  refine ⟨?_, h.truncate⟩
  have whole := h.whole
  simp only [isWhole, Bool.and_eq_true] at whole
  exact whole.1

section

variable {n : Nat}

theorem log2_lt_of_lt (pos : 0 < n) (h : n < 2 ^ 53) : n.log2 < 53 :=
  (Nat.log2_lt (Nat.ne_of_gt pos)).2 h

theorem lastPlace_ofNat (pos : 0 < n) (h : n < 2 ^ 53) : lastPlace n 1 = (n.log2 : Int) - 52 := by
  have small := log2_lt_of_lt pos h
  have log : Nat.log2 1 = 0 := by decide
  have up : ((n.log2 : Int) - (0 : Nat) - 53).toNat = 0 := by omega
  have down : (-((n.log2 : Int) - (0 : Nat) - 53)).toNat = 53 - n.log2 := by omega
  have large : ¬ n * 2 ^ (53 - n.log2) < 2 ^ 53 := by
    have low := Nat.mul_le_mul_right (2 ^ (53 - n.log2)) (Nat.log2_self_le (Nat.ne_of_gt pos))
    rw [← Nat.pow_add, Nat.add_sub_cancel' (Nat.le_of_lt small)] at low
    exact Nat.not_lt.2 low
  simp only [lastPlace, log, scale, up, down, Nat.pow_eq, Nat.pow_zero, Nat.mul_one, Nat.div_one,
    if_neg large]
  omega

theorem mantissa_bounds (pos : 0 < n) (h : n < 2 ^ 53) :
    2 ^ 52 ≤ n * 2 ^ (52 - n.log2) ∧ n * 2 ^ (52 - n.log2) < 2 ^ 53 := by
  have small := log2_lt_of_lt pos h
  have low := Nat.mul_le_mul_right (2 ^ (52 - n.log2)) (Nat.log2_self_le (Nat.ne_of_gt pos))
  have high := Nat.mul_lt_mul_of_pos_right (Nat.lt_log2_self (n := n))
    (Nat.two_pow_pos (52 - n.log2))
  rw [← Nat.pow_add] at low high
  rw [show n.log2 + (52 - n.log2) = 52 by omega] at low
  rw [show n.log2 + 1 + (52 - n.log2) = 53 by omega] at high
  exact ⟨low, high⟩

theorem divRound_one (m : Nat) : divRound m 1 = m := by
  simp [divRound, Nat.mod_one]

theorem ofNat_eq (pos : 0 < n) (h : n < 2 ^ 53) :
    ofNat n = ofMagnitude false ((n.log2 + 1022) * 2 ^ 52 + n * 2 ^ (52 - n.log2)) := by
  have small := log2_lt_of_lt pos h
  have bounds := mantissa_bounds pos h
  have some : (n == 0) = false := by simpa using Nat.ne_of_gt pos
  have up : ((n.log2 : Int) - 52).toNat = 0 := by omega
  have down : (-((n.log2 : Int) - 52)).toNat = 52 - n.log2 := by omega
  have place : ((n.log2 : Int) - 52 + 1074).toNat = n.log2 + 1022 := by omega
  simp only [ofNat, ofQuotient, some, lastPlace_ofNat pos h, scale, up, down, place, Nat.pow_eq,
    Nat.pow_zero, Nat.mul_one, divRound_one, Bool.false_eq_true, if_false, infinite]
  rw [Nat.min_eq_right]
  omega

end

structure Normal (x : Number) (m : Nat) (e : Int) : Prop where
  positive : x.isNegative = false
  finite : x.isFinite = true
  mantissa : x.mantissa = m
  exponent : x.exponent = e

theorem normal_ofMagnitude {e m : Nat} (he : e < 2046) (hm : 2 ^ 52 ≤ m ∧ m < 2 ^ 53) :
    Normal (ofMagnitude false (e * 2 ^ 52 + m)) m (e - 1074) := by
  generalize whole : e * 2 ^ 52 + m = k
  have bits : (ofMagnitude false k).bits.toNat = k := by
    simp only [ofMagnitude, Bool.false_eq_true, if_false, Nat.add_zero, UInt64.toNat_ofNat']
    omega
  have magnitude : (ofMagnitude false k).magnitude = k := by
    simp only [Number.magnitude, bits, Nat.pow_eq]
    omega
  refine ⟨?_, ?_, ?_, ?_⟩
  · simp only [isNegative, bits, Nat.pow_eq, decide_eq_false_iff_not]
    omega
  · simp only [isFinite, magnitude, infinite, Nat.pow_eq, decide_eq_true_eq]
    omega
  · have large : ¬ (ofMagnitude false k).magnitude < Nat.pow 2 52 := by
      rw [magnitude, Nat.pow_eq]
      omega
    have split : (ofMagnitude false k).mantissa =
        2 ^ 52 + (ofMagnitude false k).magnitude % 2 ^ 52 := if_neg large
    omega
  · simp only [Number.exponent, magnitude, Nat.pow_eq]
    omega

theorem ofNat_is {n : Nat} (h : n < 2 ^ 53) : (ofNat n).Is n := by
  rcases Nat.eq_zero_or_pos n with rfl | pos
  · exact ⟨by decide +kernel, by decide +kernel⟩
  · have small := log2_lt_of_lt pos h
    obtain ⟨positive, finite, mantissa, exponent⟩ :=
      normal_ofMagnitude (e := n.log2 + 1022) (by omega) (mantissa_bounds pos h)
    rw [← ofNat_eq pos h] at positive finite mantissa exponent
    have scaled : scale (ofNat n).exponent = (1, 2 ^ (52 - n.log2)) := by
      have up : (ofNat n).exponent.toNat = 0 := by omega
      have down : (-(ofNat n).exponent).toNat = 52 - n.log2 := by omega
      rw [scale, up, down]
      rfl
    constructor
    · simp [isWhole, finite, scaled, mantissa]
    · have cut : n * 2 ^ (52 - n.log2) / 2 ^ (52 - n.log2) = n :=
        Nat.mul_div_cancel n (Nat.two_pow_pos _)
      simp only [truncate, positive, wholeMagnitude, scaled, mantissa, Nat.mul_one, cut,
        Bool.false_eq_true, if_false]

theorem ofInt_minusOne : (ofInt (-1)).Is (-1) := ⟨by decide +kernel, by decide +kernel⟩

section

variable {x : Number}

theorem isNaN_of_isFinite (h : x.isFinite = true) : x.isNaN = false := by
  simp only [isNaN, isFinite, decide_eq_true_eq, decide_eq_false_iff_not] at h ⊢
  omega

theorem toIndex_nan (h : x.isNaN = true) : x.toIndex = -2 ^ 63 := by
  simp only [toIndex, h, if_true, Nat.pow_eq]
  omega

theorem toIndex_infinite (h : x.isFinite = false) (number : x.isNaN = false) :
    x.toIndex = if x.isNegative then -2 ^ 63 else 2 ^ 63 - 1 := by
  simp only [toIndex, h, number, Bool.false_eq_true, if_false, Bool.not_false, if_true, Nat.pow_eq]
  split <;> omega

theorem toIndex_finite (h : x.isFinite = true) : x.toIndex = x.truncate ∨
    9200000000000000000 ≤ x.truncate ∧ x.toIndex = 2 ^ 63 - 1 ∨
      x.truncate ≤ -9200000000000000000 ∧ x.toIndex = -2 ^ 63 := by
  simp only [toIndex, h, isNaN_of_isFinite h, Bool.false_eq_true, if_false, Bool.not_true,
    Nat.pow_eq]
  split
  · omega
  · split <;> omega

theorem toIndex_eq_iff {k : Nat} (h : k < 2 ^ 53) : x.toIndex = k ↔ x.CutsTo k := by
  cases finite : x.isFinite with
  | true =>
    have index := toIndex_finite finite
    refine ⟨fun same => ⟨finite, by omega⟩, fun cut => ?_⟩
    have := cut.truncate
    omega
  | false =>
    refine ⟨fun same => ?_, fun cut => by rw [cut.finite] at finite; cases finite⟩
    cases number : x.isNaN with
    | true =>
      rw [toIndex_nan number] at same
      omega
    | false =>
      rw [toIndex_infinite finite number] at same
      split at same <;> omega

end

end StepsLang.Number
