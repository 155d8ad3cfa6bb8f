import StepsLang.Number.Decimal
import StepsLang.Proofs.Number.Rounding

namespace StepsLang.Number

def Decimal.value (d : Decimal) : ℚ := d.digits * 10 ^ d.power

theorem power10_pos (k : ℤ) : 0 < (power10 k).1 ∧ 0 < (power10 k).2 :=
  ⟨Nat.pow_pos (by decide), Nat.pow_pos (by decide)⟩

theorem power10_div (k : ℤ) : ((power10 k).1 : ℚ) / (power10 k).2 = 10 ^ k := pow_div_pow 10 k

theorem decimal_quotient (digits : ℕ) (k : ℤ) :
    ((digits * (power10 k).1 : ℕ) : ℚ) / (power10 k).2 = digits * 10 ^ k := by
  rw [← power10_div, Nat.cast_mul, mul_div_assoc]

theorem exists_nearest_decimal (digits : ℕ) (k : ℤ) : ∃ m, Nearest size (digits * 10 ^ k) m := by
  rcases Nat.eq_zero_or_pos digits with rfl | pos
  · refine ⟨0, ?_⟩
    have zero := Nearest.exact size_strictMono 0
    rwa [size_zero, ← zero_mul ((10 : ℚ) ^ k), ← Nat.cast_zero] at zero
  · obtain ⟨m, nearest, -⟩ :=
      exists_nearest (Nat.mul_pos pos (power10_pos k).1) (power10_pos k).2
    exact ⟨m, decimal_quotient digits k ▸ nearest⟩

theorem digits_bounds {digits : ℕ} (pos : 0 < digits) :
    10 ^ ((Nat.toDigits 10 digits).length - 1) ≤ digits ∧
      digits < 10 ^ (Nat.toDigits 10 digits).length := by
  have some : 0 < (Nat.toDigits 10 digits).length := Nat.length_toDigits_pos
  refine ⟨?_, (Nat.length_toDigits_le_iff (by decide) some).1 le_rfl⟩
  rcases Nat.eq_or_lt_of_le some with one | more
  · rw [← one]
    exact pos
  · have short := (Nat.length_toDigits_le_iff (n := digits) (b := 10) (by decide)
      (show 0 < (Nat.toDigits 10 digits).length - 1 by omega)).not
    omega

section

variable {digits m : ℕ} {k : ℤ}

theorem decimal_bounds (pos : 0 < digits) :
    (10 : ℚ) ^ ((Nat.toDigits 10 digits).length + k - 1) ≤ digits * 10 ^ k ∧
      digits * 10 ^ k < (10 : ℚ) ^ ((Nat.toDigits 10 digits).length + k) := by
  obtain ⟨low, high⟩ := digits_bounds pos
  have some : 0 < (Nat.toDigits 10 digits).length := Nat.length_toDigits_pos
  generalize (Nat.toDigits 10 digits).length = length at low high some ⊢
  obtain ⟨n, rfl⟩ := Nat.exists_eq_add_of_lt some
  have pos10 : (0 : ℚ) < 10 ^ k := zpow_pos (by norm_num) k
  have e : (((0 + n + 1 : ℕ) : ℤ) + k - 1) = (n : ℤ) + k := by push_cast; ring
  rw [e, zpow_add₀ (by norm_num), zpow_add₀ (by norm_num), zpow_natCast, zpow_natCast]
  rw [mul_le_mul_iff_left₀ pos10, mul_lt_mul_iff_left₀ pos10]
  have low : 10 ^ n ≤ digits := by simpa using low
  exact ⟨by exact_mod_cast low, by exact_mod_cast high⟩

theorem size_infinite : size infinite = 2 ^ 1024 := by
  have whole : infinite = 2046 * 2 ^ 52 + 2 ^ 52 := rfl
  have exponent : ((2046 : ℕ) - 1074 : ℤ) = (972 : ℕ) := rfl
  rw [whole, size_grid (.inr le_rfl) (by decide), exponent, zpow_natCast]
  rw [Nat.cast_pow, Nat.cast_ofNat, ← pow_add]

theorem size_one : size 1 = (2 ^ 1074)⁻¹ := by
  have grid := size_grid (p := 0) (m := 1) (.inl rfl) (by decide)
  have exponent : ((0 : ℕ) - 1074 : ℤ) = -(1074 : ℕ) := rfl
  rwa [exponent, zpow_neg, zpow_natCast, Nat.cast_one, one_mul] at grid

theorem Nearest.infinite_le (h : Nearest size (digits * 10 ^ k) m) (pos : 0 < digits)
    (large : 400 < (Nat.toDigits 10 digits).length + k) : infinite ≤ m := by
  have powers : 2 ^ 1024 ≤ 10 ^ 400 := by decide +kernel
  refine h.le_of_le size_strictMono ?_
  calc size infinite = (2 ^ 1024 : ℕ) := by rw [size_infinite, Nat.cast_pow, Nat.cast_ofNat]
    _ ≤ (10 ^ 400 : ℕ) := Nat.cast_le.2 powers
    _ = 10 ^ ((400 : ℕ) : ℤ) := by rw [zpow_natCast, Nat.cast_pow, Nat.cast_ofNat]
    _ ≤ 10 ^ ((Nat.toDigits 10 digits).length + k - 1) :=
      zpow_le_zpow_right₀ (by norm_num) (by omega)
    _ ≤ digits * 10 ^ k := (decimal_bounds pos).1

theorem Nearest.eq_zero (h : Nearest size (digits * 10 ^ k) m) (pos : 0 < digits)
    (small : (Nat.toDigits 10 digits).length + k < -400) : m = 0 := by
  have powers : 2 ^ 1074 * 2 ≤ 10 ^ 400 := by decide +kernel
  have above : (0 : ℚ) ≤ digits * 10 ^ k :=
    mul_nonneg (Nat.cast_nonneg _) (zpow_nonneg (by norm_num) _)
  have tiny : (digits * 10 ^ k : ℚ) * 2 < size 1 := by
    have low := (decimal_bounds (k := k) pos).2.trans_le
      (zpow_le_zpow_right₀ (by norm_num) (show _ ≤ -((400 : ℕ) : ℤ) by omega))
    have powers : (2 ^ 1074 : ℚ) * 2 ≤ 10 ^ 400 := by exact_mod_cast powers
    rw [zpow_neg, zpow_natCast] at low
    have positive : (0 : ℚ) < 2 ^ 1074 := pow_pos two_pos _
    rw [size_one]
    generalize (2 ^ 1074 : ℚ) = a at powers positive ⊢
    generalize (10 ^ 400 : ℚ) = b at powers low
    calc (digits * 10 ^ k : ℚ) * 2 < b⁻¹ * 2 := mul_lt_mul_of_pos_right low two_pos
      _ ≤ (a * 2)⁻¹ * 2 :=
        mul_le_mul_of_nonneg_right (inv_anti₀ (mul_pos positive two_pos) powers) zero_le_two
      _ = a⁻¹ := by field_simp
  have near := h.closest 0
  rw [size_zero, zero_sub, abs_neg, abs_of_nonneg above] at near
  by_contra some
  have large := size_strictMono.monotone (Nat.one_le_iff_ne_zero.2 some)
  have far := (le_abs_self _).trans near
  linarith

theorem ofDecimal_of_nearest (h : Nearest size (digits * 10 ^ k) m) (negative : Bool) :
    ofDecimal negative digits k = ofMagnitude negative (min infinite m) := by
  have rounded : ofQuotient negative (digits * (power10 k).1) (power10 k).2 =
      ofMagnitude negative (min infinite m) :=
    ofQuotient_of_nearest (power10_pos k).2 (decimal_quotient digits k ▸ h) negative
  simp only [ofDecimal, rounded]
  rcases Nat.eq_zero_or_pos digits with rfl | pos
  · have zero := Nearest.exact size_strictMono 0
    rw [size_zero] at zero
    rw [Nat.cast_zero, zero_mul] at h
    rw [h.unique size_strictMono zero]
    rfl
  · have some : (digits == 0) = false := by simpa using pos.ne'
    simp only [some, Bool.false_or, decide_eq_true_eq]
    split
    · next small =>
      rw [h.eq_zero pos small]
      rfl
    · split
      · next large =>
        rw [Nat.min_eq_left (h.infinite_le pos large)]
        rfl
      · rfl

end

theorem Decimal.value_normalize (d : Decimal) : d.normalize.value = d.value := by
  have go : ∀ n d, (Decimal.normalize.go n d).value = d.value := by
    intro n
    induction n with
    | zero => exact fun d => rfl
    | succ n ih =>
      intro d
      rw [Decimal.normalize.go]
      split
      · next ends =>
        rw [ih]
        simp only [Bool.and_eq_true, bne_iff_ne, beq_iff_eq] at ends
        obtain ⟨tens, split⟩ := Nat.dvd_of_mod_eq_zero ends.2
        rw [value, value, split, Nat.mul_div_cancel_left _ (by decide), zpow_add_one₀ (by norm_num)]
        push_cast
        ring
      · rfl
  exact go _ d

section

variable {x : Number}

theorem value_exactDecimal (x : Number) : x.exactDecimal.value = size x.magnitude := by
  rw [size_magnitude, exactDecimal]
  split
  · next up =>
    obtain ⟨k, hk⟩ := Int.eq_ofNat_of_zero_le up
    simp [Decimal.value, hk]
  · next down =>
    obtain ⟨k, hk⟩ := Int.exists_eq_neg_ofNat (Int.le_of_not_le down)
    have parts : (10 : ℚ) ^ k = 5 ^ k * 2 ^ k := by rw [← mul_pow]; norm_num
    simp only [Decimal.value, hk, neg_neg, Int.toNat_natCast, Nat.pow_eq, zpow_neg, zpow_natCast,
      parts]
    push_cast
    field_simp

theorem magnitude_lt (h : x.isFinite = true) : x.magnitude < infinite := by
  simpa [isFinite] using h

theorem infinite_lt : infinite < 2 ^ 63 := by decide

theorem nearest_of_shortestWith? {count : ℕ} {d : Decimal} (finite : x.isFinite = true)
    (h : x.shortestWith? count = some d) : Nearest size d.value x.magnitude := by
  obtain ⟨digits, found, rfl⟩ := Option.map_eq_some_iff.1 h
  have reads := List.find?_some found
  beta_reduce at reads
  rw [beq_iff_eq] at reads
  obtain ⟨m, nearest⟩ := exists_nearest_decimal digits _
  rw [ofDecimal_of_nearest nearest] at reads
  have bound := infinite_lt
  have small := magnitude_lt finite
  have same := congrArg magnitude reads
  rw [magnitude_ofMagnitude (by omega), magnitude_ofMagnitude (by omega)] at same
  obtain rfl : m = x.magnitude := by omega
  exact nearest

theorem nearest_shortest (finite : x.isFinite = true) :
    Nearest size x.shortest.value x.magnitude := by
  rw [shortest, Decimal.value_normalize]
  cases found : (List.range 17).findSome? fun i => x.shortestWith? (i + 1) with
  | none =>
    rw [Option.getD_none, value_exactDecimal]
    exact Nearest.exact size_strictMono _
  | some d =>
    obtain ⟨i, -, here⟩ := List.exists_of_findSome?_eq_some found
    exact nearest_of_shortestWith? finite here

end

end StepsLang.Number
