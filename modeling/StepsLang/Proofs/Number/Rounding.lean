import Mathlib.Tactic.Linarith
import Mathlib.Tactic.Ring
import Mathlib.Tactic.NormNum
import Mathlib.Data.Rat.Cast.Order
import StepsLang.Proofs.Number.Whole

namespace StepsLang.Number

/-- The rational number of a magnitude. -/
def size (m : ℕ) : ℚ :=
  (if m < 2 ^ 52 then m else 2 ^ 52 + m % 2 ^ 52 : ℕ) * 2 ^ ((max (m / 2 ^ 52) 1 : ℕ) - 1075 : ℤ)

theorem size_magnitude (x : Number) : size x.magnitude = x.mantissa * 2 ^ x.exponent := rfl

theorem two_zpow_pos (e : ℤ) : (0 : ℚ) < 2 ^ e := zpow_pos two_pos e

theorem size_grid {p m : ℕ} (normal : p = 0 ∨ 2 ^ 52 ≤ m) (h : m ≤ 2 ^ 53) :
    size (p * 2 ^ 52 + m) = m * 2 ^ (p - 1074 : ℤ) := by
  rcases Nat.lt_or_ge m (2 ^ 52) with low | high
  · obtain rfl : p = 0 := by omega
    have place : max ((0 * 2 ^ 52 + m) / 2 ^ 52) 1 = 1 := by omega
    have mantissa : 0 * 2 ^ 52 + m = m := by omega
    rw [size, place, mantissa, if_pos low]
    norm_num
  · have large : ¬ p * 2 ^ 52 + m < 2 ^ 52 := by omega
    rcases Nat.lt_or_ge m (2 ^ 53) with one | two
    · have place : max ((p * 2 ^ 52 + m) / 2 ^ 52) 1 = p + 1 := by omega
      have mantissa : 2 ^ 52 + (p * 2 ^ 52 + m) % 2 ^ 52 = m := by omega
      rw [size, if_neg large, place, mantissa]
      congr 2
      push_cast
      ring
    · have place : max ((p * 2 ^ 52 + m) / 2 ^ 52) 1 = p + 2 := by omega
      have mantissa : 2 ^ 52 + (p * 2 ^ 52 + m) % 2 ^ 52 = 2 ^ 52 := by omega
      obtain rfl : m = 2 ^ 53 := by omega
      rw [size, if_neg large, place, mantissa]
      have exponent : ((p + 2 : ℕ) - 1075 : ℤ) = (p - 1074 : ℤ) + 1 := by push_cast; ring
      rw [exponent, zpow_add_one₀ two_ne_zero]
      push_cast
      ring

theorem exists_grid (k : ℕ) :
    ∃ p m, k = p * 2 ^ 52 + m ∧ (p = 0 ∨ 2 ^ 52 ≤ m) ∧ m < 2 ^ 53 := by
  rcases Nat.lt_or_ge k (2 ^ 52) with low | high
  · exact ⟨0, k, by omega, .inl rfl, by omega⟩
  · exact ⟨k / 2 ^ 52 - 1, k - (k / 2 ^ 52 - 1) * 2 ^ 52, by omega, by omega, by omega⟩

theorem size_strictMono : StrictMono size := by
  refine strictMono_nat_of_lt_succ fun k => ?_
  obtain ⟨p, m, rfl, normal, small⟩ := exists_grid k
  have here := size_grid normal small.le
  have next := size_grid (normal.imp_right Nat.le_succ_of_le) (Nat.succ_le_of_lt small)
  rw [Nat.succ_eq_add_one, ← Nat.add_assoc] at next
  rw [here, next]
  have pos := two_zpow_pos (p - 1074)
  push_cast
  linarith

@[simp] theorem size_zero : size 0 = 0 := by simp [size]

theorem size_nonneg (m : ℕ) : 0 ≤ size m := by
  rw [← size_zero]
  exact size_strictMono.monotone (Nat.zero_le m)

/-- The place of a grid that is nearest to a rational number; of two equally near ones it is the
even one. -/
structure Nearest (grid : ℕ → ℚ) (q : ℚ) (m : ℕ) : Prop where
  closest (k : ℕ) : |grid m - q| ≤ |grid k - q|
  even (k : ℕ) : k ≠ m → |grid k - q| = |grid m - q| → m % 2 = 0

namespace Nearest

variable {grid : ℕ → ℚ} {q : ℚ} {m k : ℕ}

theorem exact (mono : StrictMono grid) (m : ℕ) : Nearest grid (grid m) m where
  closest k := by simp
  even k other same := by
    rw [sub_self, abs_zero, abs_eq_zero, sub_eq_zero] at same
    exact absurd (mono.injective same) other

theorem not_lt (mono : StrictMono grid) (hm : Nearest grid q m) (hk : Nearest grid q k) :
    ¬ m < k := by
  intro less
  have same : |grid m - q| = |grid k - q| := le_antisymm (hm.closest k) (hk.closest m)
  have evenM := hm.even k (Nat.ne_of_gt less) same.symm
  have evenK := hk.even m (Nat.ne_of_lt less) same
  -- The odd one between the two would be nearer.
  have above := mono (Nat.lt_succ_self m)
  have below := mono (show m + 1 < k by omega)
  have between := hm.closest (m + 1)
  rcases abs_eq_abs.1 same with equal | opposite
  · linarith
  · rw [abs_of_neg (by linarith : grid m - q < 0)] at between
    rcases abs_choice (grid (m + 1) - q) with h | h <;> rw [h] at between <;> linarith

theorem unique (mono : StrictMono grid) (hm : Nearest grid q m) (hk : Nearest grid q k) : m = k :=
  Nat.le_antisymm (Nat.not_lt.1 (hk.not_lt mono hm)) (Nat.not_lt.1 (hm.not_lt mono hk))

theorem le_of_le (mono : StrictMono grid) (h : Nearest grid q m) (hk : grid k ≤ q) : k ≤ m := by
  by_contra less
  have below := mono (Nat.lt_of_not_le less)
  have near := h.closest k
  rw [abs_of_nonpos (by linarith), abs_of_nonpos (by linarith)] at near
  linarith

theorem le_of_ge (mono : StrictMono grid) (h : Nearest grid q m) (hk : q ≤ grid k) : m ≤ k := by
  by_contra more
  have above := mono (Nat.lt_of_not_le more)
  have near := h.closest k
  rw [abs_of_nonneg (by linarith), abs_of_nonneg (by linarith)] at near
  linarith

end Nearest

theorem beside_or_far {f : ℚ} (low : 0 ≤ f) (high : f < 1) (whole k : ℕ) :
    k = whole ∨ k = whole + 1 ∨ 1 ≤ |(k : ℚ) - (whole + f)| := by
  rcases Nat.lt_trichotomy k whole with before | rfl | behind
  · have before : ((k + 1 : ℕ) : ℚ) ≤ whole := Nat.cast_le.2 before
    push_cast at before
    exact .inr (.inr (le_abs.2 (.inr (by linarith))))
  · exact .inl rfl
  · rcases Nat.eq_or_lt_of_le behind with rfl | behind
    · exact .inr (.inl rfl)
    · have behind : ((whole + 2 : ℕ) : ℚ) ≤ k := Nat.cast_le.2 behind
      push_cast at behind
      exact .inr (.inr (le_abs.2 (.inl (by linarith))))

theorem nearest_fraction {f : ℚ} (low : 0 ≤ f) (high : f < 1) (whole : ℕ) :
    Nearest Nat.cast (whole + f) (if 2 * f < 1 then whole
      else if 1 < 2 * f then whole + 1 else whole + whole % 2) := by
  have here : |(whole : ℚ) - (whole + f)| = f := by
    rw [sub_add_cancel_left, abs_neg, abs_of_nonneg low]
  have next : |((whole + 1 : ℕ) : ℚ) - (whole + f)| = 1 - f := by
    push_cast
    rw [add_sub_add_left_eq_sub, abs_of_pos (by linarith)]
  have near := beside_or_far low high whole
  split
  · next down =>
    refine ⟨fun k => ?_, fun k other same => ?_⟩
    · rcases near k with rfl | rfl | far <;> linarith
    · rcases near k with rfl | rfl | far
      · exact absurd rfl other
      · linarith
      · linarith
  · split
    · next up =>
      refine ⟨fun k => ?_, fun k other same => ?_⟩
      · rcases near k with rfl | rfl | far <;> linarith
      · rcases near k with rfl | rfl | far
        · linarith
        · exact absurd rfl other
        · linarith
    · next half =>
      refine ⟨fun k => ?_, fun k _ _ => by omega⟩
      have tie : |((whole + whole % 2 : ℕ) : ℚ) - (whole + f)| = 1 / 2 := by
        rcases Nat.mod_two_eq_zero_or_one whole with even | odd
        · rw [even, Nat.add_zero, here]
          linarith
        · rw [odd, next]
          linarith
      rcases near k with rfl | rfl | far <;> linarith

theorem nearest_divRound {num den : ℕ} (hd : 0 < den) :
    Nearest Nat.cast (num / den) (divRound num den) := by
  have pos : (0 : ℚ) < den := Nat.cast_pos.2 hd
  obtain ⟨f, hf⟩ : ∃ f : ℚ, f = (num % den : ℕ) / den := ⟨_, rfl⟩
  have split : (num / den : ℚ) = (num / den : ℕ) + f := by
    rw [hf, ← mul_right_inj' pos.ne', mul_add, mul_div_cancel₀ _ pos.ne', mul_div_cancel₀ _ pos.ne']
    exact_mod_cast (Nat.div_add_mod num den).symm
  have low : 0 ≤ f := hf ▸ div_nonneg (Nat.cast_nonneg _) pos.le
  have high : f < 1 := by
    rw [hf, div_lt_one pos]
    exact_mod_cast Nat.mod_lt num hd
  have less : 2 * (num % den) < den ↔ 2 * f < 1 := by
    rw [hf, ← mul_div_assoc, div_lt_one pos]
    norm_cast
  have more : den < 2 * (num % den) ↔ 1 < 2 * f := by
    rw [hf, ← mul_div_assoc, one_lt_div pos]
    norm_cast
  simp only [divRound, less, more, split]
  exact nearest_fraction low high _

theorem size_multiple (p k : ℕ) :
    (∃ j : ℕ, size k = j * 2 ^ (p - 1074 : ℤ)) ∨
      p ≠ 0 ∧ size k < 2 ^ 52 * 2 ^ (p - 1074 : ℤ) := by
  obtain ⟨r, m, rfl, normal, small⟩ := exists_grid k
  rw [size_grid normal small.le]
  rcases Nat.lt_or_ge r p with below | above
  · refine .inr ⟨by omega, ?_⟩
    have step : (2 : ℚ) ^ (r + 1 - 1074 : ℤ) ≤ 2 ^ (p - 1074 : ℤ) :=
      zpow_le_zpow_right₀ one_le_two (by omega)
    have next : (2 : ℚ) ^ (r + 1 - 1074 : ℤ) = 2 ^ (r - 1074 : ℤ) * 2 := by
      rw [← zpow_add_one₀ two_ne_zero]
      congr 1
      ring
    have bits : (m : ℚ) < 2 ^ 53 := by exact_mod_cast small
    have pos := two_zpow_pos (r - 1074)
    nlinarith
  · refine .inl ⟨m * 2 ^ (r - p), ?_⟩
    obtain ⟨d, rfl⟩ := Nat.exists_eq_add_of_le above
    have exponent : ((p + d : ℕ) - 1074 : ℤ) = (p - 1074 : ℤ) + d := by push_cast; ring
    rw [exponent, zpow_add₀ two_ne_zero, Nat.add_sub_cancel_left, zpow_natCast]
    push_cast
    ring

theorem scale_pos (e : ℤ) : 0 < (scale e).1 ∧ 0 < (scale e).2 :=
  ⟨Nat.pow_pos two_pos, Nat.pow_pos two_pos⟩

theorem pow_div_pow (b : ℕ) (k : ℤ) :
    ((b ^ k.toNat : ℕ) : ℚ) / (b ^ (-k).toNat : ℕ) = (b : ℚ) ^ k := by
  rcases Int.le_total 0 k with up | down
  · obtain ⟨k, rfl⟩ := Int.eq_ofNat_of_zero_le up
    simp
  · obtain ⟨k, rfl⟩ := Int.exists_eq_neg_ofNat down
    simp

theorem scale_div (e : ℤ) : ((scale e).1 : ℚ) / (scale e).2 = 2 ^ e := pow_div_pow 2 e

section

variable {num den : ℕ}

theorem quotient_scaled (e : ℤ) :
    ((num * (scale e).2 : ℕ) : ℚ) / (den * (scale e).1 : ℕ) = num / den / 2 ^ e := by
  rw [← scale_div]
  push_cast
  rw [div_div_eq_mul_div, div_mul_eq_mul_div, div_div]

/-- A quotient and the last place that is kept of it. -/
structure KeptAt (q : ℚ) (e : ℤ) : Prop where
  least : -1074 ≤ e
  below : q < 2 ^ 53 * 2 ^ e
  above : e = -1074 ∨ 2 ^ 52 * 2 ^ e ≤ q

theorem keptAt_lastPlace (pos : 0 < num) (hd : 0 < den) :
    KeptAt (num / den) (lastPlace num den) := by
  have posN : (0 : ℚ) < num := Nat.cast_pos.2 pos
  have posD : (0 : ℚ) < den := Nat.cast_pos.2 hd
  obtain ⟨g, hg⟩ : ∃ g : ℤ, g = (num.log2 : ℤ) - den.log2 - 53 := ⟨_, rfl⟩
  have fromN : (2 : ℚ) ^ num.log2 ≤ num := by exact_mod_cast Nat.log2_self_le pos.ne'
  have toN : (num : ℚ) < 2 ^ num.log2 * 2 := by exact_mod_cast Nat.lt_log2_self
  have fromD : (2 : ℚ) ^ den.log2 ≤ den := by exact_mod_cast Nat.log2_self_le hd.ne'
  have toD : (den : ℚ) < 2 ^ den.log2 * 2 := by exact_mod_cast Nat.lt_log2_self
  have ratio : (2 : ℚ) ^ num.log2 = 2 ^ g * 2 ^ 53 * 2 ^ den.log2 := by
    rw [← zpow_natCast, ← zpow_natCast, ← zpow_natCast, ← zpow_add₀ two_ne_zero,
      ← zpow_add₀ two_ne_zero, hg]
    congr 1
    push_cast
    ring
  have pos2 := two_zpow_pos g
  have low : 2 ^ 52 * 2 ^ g ≤ (num / den : ℚ) := by
    rw [le_div_iff₀ posD]
    nlinarith
  have high : (num / den : ℚ) < 2 ^ 53 * (2 ^ g * 2) := by
    rw [div_lt_iff₀ posD]
    nlinarith
  have less : num * (scale g).2 / (den * (scale g).1) < 2 ^ 53 ↔
      (num / den : ℚ) < 2 ^ 53 * 2 ^ g := by
    rw [Nat.div_lt_iff_lt_mul (Nat.mul_pos hd (scale_pos g).1), ← Nat.cast_lt (α := ℚ)]
    rw [← div_lt_iff₀ (two_zpow_pos g), ← quotient_scaled,
      div_lt_iff₀ (Nat.cast_pos.2 (Nat.mul_pos hd (scale_pos g).1))]
    push_cast
    rfl
  obtain ⟨e, he⟩ : ∃ e : ℤ, e = if (num / den : ℚ) < 2 ^ 53 * 2 ^ g then g else g + 1 := ⟨_, rfl⟩
  have last : lastPlace num den = max e (-1074) := by
    simp only [lastPlace, ← hg, Nat.pow_eq, less, he]
  have bounds : 2 ^ 52 * 2 ^ e ≤ (num / den : ℚ) ∧ (num / den : ℚ) < 2 ^ 53 * 2 ^ e := by
    rw [he]
    split
    · next small => exact ⟨low, small⟩
    · next large =>
      rw [zpow_add_one₀ two_ne_zero]
      refine ⟨?_, high⟩
      linarith
  rw [last]
  rcases Int.le_total (-1074) e with normal | small
  · rw [max_eq_left normal]
    exact ⟨normal, bounds.2, .inr bounds.1⟩
  · rw [max_eq_right small]
    have grows : (2 : ℚ) ^ e ≤ 2 ^ (-1074 : ℤ) := zpow_le_zpow_right₀ one_le_two small
    exact ⟨le_rfl, by linarith [bounds.2], .inl rfl⟩

theorem KeptAt.nearest {q : ℚ} {p m : ℕ} (kept : KeptAt q (p - 1074 : ℤ))
    (h : Nearest Nat.cast (q / 2 ^ (p - 1074 : ℤ)) m) : Nearest size q (p * 2 ^ 52 + m) := by
  have pos := two_zpow_pos (p - 1074)
  have small : m ≤ 2 ^ 53 := by
    refine h.le_of_ge Nat.strictMono_cast ?_
    rw [div_le_iff₀ pos]
    exact_mod_cast kept.below.le
  have normal : p = 0 ∨ 2 ^ 52 ≤ m := by
    refine kept.above.imp (by omega) fun above => h.le_of_le Nat.strictMono_cast ?_
    rw [le_div_iff₀ pos]
    exact_mod_cast above
  have distance : ∀ j : ℚ, |j * 2 ^ (p - 1074 : ℤ) - q| =
      |j - q / 2 ^ (p - 1074 : ℤ)| * 2 ^ (p - 1074 : ℤ) := by
    intro j
    rw [← abs_of_pos pos, ← abs_mul, abs_of_pos pos, sub_mul, div_mul_cancel₀ _ pos.ne']
  have here := size_grid normal small
  -- What is below this place is farther away than the least number of the place.
  have far : p ≠ 0 → ∀ k, size k < 2 ^ 52 * 2 ^ (p - 1074 : ℤ) →
      |size (p * 2 ^ 52 + m) - q| < |size k - q| := by
    intro some k below
    have above := kept.above.resolve_left (by omega)
    calc |size (p * 2 ^ 52 + m) - q|
        = |m - q / 2 ^ (p - 1074 : ℤ)| * 2 ^ (p - 1074 : ℤ) := by rw [here, distance]
      _ ≤ |(2 ^ 52 : ℕ) - q / 2 ^ (p - 1074 : ℤ)| * 2 ^ (p - 1074 : ℤ) :=
        mul_le_mul_of_nonneg_right (h.closest (2 ^ 52)) pos.le
      _ = q - 2 ^ 52 * 2 ^ (p - 1074 : ℤ) := by
        rw [← distance, abs_of_nonpos (by push_cast; linarith)]
        push_cast
        ring
      _ < q - size k := by linarith
      _ = |size k - q| := by rw [abs_of_neg (by linarith), neg_sub]
  refine ⟨fun k => ?_, fun k other same => ?_⟩
  · rcases size_multiple p k with ⟨j, multiple⟩ | ⟨some, below⟩
    · rw [here, multiple, distance, distance]
      exact mul_le_mul_of_nonneg_right (h.closest j) pos.le
    · exact (far some k below).le
  · rcases size_multiple p k with ⟨j, multiple⟩ | ⟨some, below⟩
    · rw [here, multiple, distance, distance] at same
      have other : j ≠ m := by
        rintro rfl
        exact other (size_strictMono.injective (multiple.trans here.symm))
      have even := h.even j other (mul_right_cancel₀ pos.ne' same)
      omega
    · exact absurd same (far some k below).ne'

theorem exists_nearest (pos : 0 < num) (hd : 0 < den) :
    ∃ m, Nearest size (num / den) m ∧
      ∀ negative, ofQuotient negative num den = ofMagnitude negative (min infinite m) := by
  have kept := keptAt_lastPlace pos hd
  have least := kept.least
  obtain ⟨p, hp⟩ := Int.eq_ofNat_of_zero_le (show 0 ≤ lastPlace num den + 1074 by omega)
  have place : lastPlace num den = (p - 1074 : ℤ) := by omega
  have rounded : Nearest Nat.cast _ (divRound (num * (scale (lastPlace num den)).2) _) :=
    nearest_divRound (Nat.mul_pos hd (scale_pos (lastPlace num den)).1)
  rw [quotient_scaled] at rounded
  refine ⟨_, (place ▸ kept).nearest (place ▸ rounded), fun negative => ?_⟩
  have some : (num == 0) = false := by simpa using pos.ne'
  simp only [ofQuotient, some, Bool.false_eq_true, if_false, hp, Nat.pow_eq]
  rw [place]
  rfl

theorem ofQuotient_of_nearest {m : ℕ} (hd : 0 < den) (h : Nearest size (num / den) m)
    (negative : Bool) : ofQuotient negative num den = ofMagnitude negative (min infinite m) := by
  rcases Nat.eq_zero_or_pos num with rfl | pos
  · have zero := Nearest.exact size_strictMono 0
    rw [size_zero] at zero
    rw [Nat.cast_zero, zero_div] at h
    rw [h.unique size_strictMono zero]
    rfl
  · obtain ⟨k, nearest, rounded⟩ := exists_nearest pos hd
    rw [rounded, h.unique size_strictMono nearest]

end

section

variable {negative : Bool} {m : ℕ}

theorem toNat_ofMagnitude (h : m < 2 ^ 63) :
    (ofMagnitude negative m).bits.toNat = m + if negative then 2 ^ 63 else 0 := by
  simp only [ofMagnitude, UInt64.toNat_ofNat', Nat.pow_eq]
  split <;> omega

theorem magnitude_ofMagnitude (h : m < 2 ^ 63) : (ofMagnitude negative m).magnitude = m := by
  rw [magnitude, toNat_ofMagnitude h, Nat.pow_eq]
  split <;> omega

theorem isNegative_ofMagnitude (h : m < 2 ^ 63) :
    (ofMagnitude negative m).isNegative = negative := by
  rw [isNegative, toNat_ofMagnitude h, Nat.pow_eq]
  cases negative
  · simpa using h
  · simp

theorem ofMagnitude_magnitude (x : Number) : ofMagnitude x.isNegative x.magnitude = x := by
  have bits := x.bits.toNat_lt
  have whole : x.magnitude + (if x.isNegative then 2 ^ 63 else 0) = x.bits.toNat := by
    simp only [isNegative, magnitude, Nat.pow_eq, decide_eq_true_eq]
    split <;> omega
  obtain ⟨b⟩ := x
  simp only [ofMagnitude, Nat.pow_eq]
  rw [whole, UInt64.ofNat_toNat]

end

end StepsLang.Number
