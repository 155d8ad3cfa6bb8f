import Mathlib.Data.Nat.Cast.Field
import StepsLang.Number.Text
import StepsLang.Proofs.Number.Reading
import StepsLang.Proofs.Value.Likeness

namespace StepsLang

namespace Number
open Numeral

theorem decimal_ne_nil (n : ℕ) : Bytes.decimal n ≠ [] := by
  simp [Bytes.decimal]

theorem decimal_eq (n : ℕ) : Bytes.decimal n =
    (if n < 10 then [] else Bytes.decimal (n / 10)) ++ [UInt8.ofNat (48 + n % 10)] := by
  have digit : (n % 10).digitChar.toNat.toUInt8 = UInt8.ofNat (48 + n % 10) := by
    rw [Nat.toNat_digitChar_of_lt_ten (Nat.mod_lt n (by decide))]
  rw [Bytes.decimal, Nat.toDigits_eq_if (by decide)]
  split
  · next small =>
    rw [← Nat.mod_eq_of_lt small, List.map_singleton, digit, Nat.mod_mod, List.nil_append]
  · rw [List.map_append, List.map_singleton, digit, Bytes.decimal]

theorem toNat_digit (n : ℕ) : (UInt8.ofNat (48 + n % 10)).toNat = 48 + n % 10 := by
  rw [UInt8.toNat_ofNat']
  omega

theorem digits_decimal (n : ℕ) : Digits (Bytes.decimal n) := by
  induction n using Nat.strongRecOn with
  | ind n ih =>
    rw [decimal_eq]
    refine List.forall_mem_append.2 ⟨?_, ?_⟩
    · split
      · simp
      · exact ih (n / 10) (by omega)
    · rintro b hb
      obtain rfl := List.mem_singleton.1 hb
      have value := toNat_digit n
      simp only [Byte.isDigit, UInt8.le_iff_toNat_le, value, Bool.and_eq_true, decide_eq_true_eq]
      constructor
      · exact Nat.le_add_right 48 _
      · change 48 + n % 10 ≤ 57
        omega

theorem digitsValue_concat (s : Bytes) (b : UInt8) :
    Bytes.digitsValue (s ++ [b]) = 10 * Bytes.digitsValue s + (b.toNat - 48) := by
  simp [Bytes.digitsValue, Byte.digitValue]

theorem digitsValue_decimal (n : ℕ) : Bytes.digitsValue (Bytes.decimal n) = n := by
  induction n using Nat.strongRecOn with
  | ind n ih =>
    rw [decimal_eq, digitsValue_concat, toNat_digit]
    split
    · have none : Bytes.digitsValue [] = 0 := rfl
      omega
    · rw [ih (n / 10) (by omega)]
      omega

theorem digitsValue_zeros (k : ℕ) (s : Bytes) :
    Bytes.digitsValue (List.replicate k Byte.zero ++ s) = Bytes.digitsValue s := by
  rw [Bytes.digitsValue, Bytes.digitsValue, List.foldl_append]
  congr 1
  induction k with
  | zero => rfl
  | succ k ih => rwa [List.replicate_succ, List.foldl_cons]

section

variable {x : Number}

theorem size_eq (x : Number) :
    size x.magnitude = (x.mantissa * (scale x.exponent).1 : ℕ) / (scale x.exponent).2 := by
  rw [size_magnitude, ← scale_div, Nat.cast_mul, mul_div_assoc]

theorem size_of_isWhole (h : x.isWhole = true) : size x.magnitude = x.wholeMagnitude := by
  simp only [isWhole, Bool.and_eq_true, beq_iff_eq] at h
  rw [size_eq]
  exact (Nat.cast_div (Nat.dvd_of_mod_eq_zero h.2) (Nat.cast_ne_zero.2 (scale_pos _).2.ne')).symm

theorem isWhole_of_size {n : ℕ} (finite : x.isFinite = true) (h : size x.magnitude = n) :
    x.isWhole = true := by
  rw [size_eq, div_eq_iff (Nat.cast_ne_zero.2 (scale_pos _).2.ne')] at h
  simp only [isWhole, finite, Bool.true_and, beq_iff_eq]
  exact Nat.mod_eq_zero_of_dvd ⟨n, by rw [mul_comm _ n]; exact_mod_cast h⟩

theorem exists_size_eq {n : ℕ} (h : n < 2 ^ 53) : ∃ m, size m = n := by
  rcases Nat.eq_zero_or_pos n with rfl | pos
  · exact ⟨0, by simp⟩
  · obtain ⟨low, high⟩ := mantissa_bounds pos h
    have small := log2_lt_of_lt pos h
    obtain ⟨d, hd⟩ := Nat.exists_eq_add_of_le (show n.log2 ≤ 52 by omega)
    refine ⟨(n.log2 + 1022) * 2 ^ 52 + n * 2 ^ (52 - n.log2), ?_⟩
    have exponent : (((n.log2 + 1022 : ℕ) : ℤ) - 1074) = -(d : ℤ) := by omega
    have rest : 52 - n.log2 = d := by omega
    rw [size_grid (.inr low) high.le, exponent, rest, zpow_neg, zpow_natCast]
    push_cast
    field_simp

theorem Nearest.whole {n m : ℕ} (h : Nearest size n m) : ∃ k : ℕ, size m = k := by
  obtain ⟨p, j, rfl, normal, small⟩ := exists_grid m
  rcases Nat.lt_or_ge n (2 ^ 53) with exact_ | large
  · obtain ⟨k, hk⟩ := exists_size_eq exact_
    have same := h.unique size_strictMono (hk ▸ Nearest.exact size_strictMono k)
    exact ⟨n, same ▸ hk⟩
  · rcases Nat.lt_or_ge p 1074 with low | high
    · -- A number with a fraction is below `2 ^ 53`, which is one itself.
      have bound : size (1075 * 2 ^ 52 + 2 ^ 52) = 2 ^ 53 := by
        have exponent : (((1075 : ℕ) : ℤ) - 1074) = 1 := rfl
        rw [size_grid (.inr le_rfl) (by decide), exponent]
        norm_num
      have above := h.le_of_le size_strictMono (k := 1075 * 2 ^ 52 + 2 ^ 52) (by
        rw [bound]
        exact_mod_cast large)
      omega
    · obtain ⟨d, rfl⟩ := Nat.exists_eq_add_of_le high
      have exponent : (((1074 + d : ℕ) : ℤ) - 1074) = d := by omega
      refine ⟨j * 2 ^ d, ?_⟩
      rw [size_grid normal small.le, exponent, zpow_natCast]
      push_cast
      rfl

end

section

variable {x : Number} {d : Decimal}

theorem spells_decimal (n : ℕ) : Spells (Bytes.decimal n) (.decimal n 0) := by
  have spells := Spells.decimal (digits_decimal n) .none (by simpa using decimal_ne_nil n) .none
  simpa [digitsValue_decimal] using spells

theorem digits_zeros (k : ℕ) (n : ℕ) : Digits (List.replicate k Byte.zero ++ Bytes.decimal n) := by
  refine List.forall_mem_append.2 ⟨fun b hb => ?_, digits_decimal n⟩
  rw [List.eq_of_mem_replicate hb]
  rfl

theorem spells_pointed {places : ℕ} (some : places ≠ 0) :
    Spells (pointed d.text places) (.decimal d.digits (-places)) := by
  have digits := digits_zeros (places + 1 - d.text.length) d.digits
  have whole := digitsValue_zeros (places + 1 - d.text.length) d.text
  have length :
      places < (List.replicate (places + 1 - d.text.length) Byte.zero ++ d.text).length := by
    rw [List.length_append, List.length_replicate]
    omega
  rw [← Decimal.text] at digits
  simp only [pointed, bne_iff_ne.2 some, Bytes.onlyIf, if_true]
  generalize List.replicate (places + 1 - d.text.length) Byte.zero ++ d.text = padded at *
  have before : Digits (padded.take (padded.length - places)) := fun b hb =>
    digits b (List.mem_of_mem_take hb)
  have behind : Digits (padded.drop (padded.length - places)) := fun b hb =>
    digits b (List.mem_of_mem_drop hb)
  have spells := Spells.decimal before (.point behind) (by
    rw [List.take_append_drop]
    exact List.ne_nil_of_length_pos (by omega)) .none
  have rest : padded.length - (padded.length - places) = places := by omega
  rw [List.take_append_drop, whole, List.length_drop, rest, List.append_nil, zero_sub, Decimal.text,
    digitsValue_decimal] at spells
  exact spells

theorem power_scientific (k : ℤ) (zeros : ℕ) :
    Power ((if k < 0 then "e-" else "e+") ++
      (List.replicate zeros Byte.zero ++ Bytes.decimal k.natAbs)) k := by
  have some : List.replicate zeros Byte.zero ++ Bytes.decimal k.natAbs ≠ [] := by
    simp [decimal_ne_nil]
  have digits := digits_zeros zeros k.natAbs
  have size :
      Bytes.digitsValue (List.replicate zeros Byte.zero ++ Bytes.decimal k.natAbs) = k.natAbs := by
    rw [digitsValue_zeros, digitsValue_decimal]
  split
  · next negative =>
    have power := Power.marked (.inl rfl) .minus digits some
    rw [if_pos rfl, size, show -(k.natAbs : ℤ) = k by omega] at power
    exact power
  · next positive =>
    have power := Power.marked (.inl rfl) .plus digits some
    rw [if_neg Bool.false_ne_true, size, show (k.natAbs : ℤ) = k by omega] at power
    exact power

theorem spells_scientific (d : Decimal) : Spells (scientific d) (.decimal d.digits d.power) := by
  have digits : Digits d.text := digits_decimal d.digits
  have some : d.text ≠ [] := decimal_ne_nil d.digits
  have point :
      Fraction (Bytes.onlyIf (1 < d.length) (Byte.dot :: d.text.drop 1)) (d.text.drop 1) := by
    by_cases more : 1 < d.length
    · simp only [more, decide_true, Bytes.onlyIf, if_true]
      exact .point fun b hb => digits b (List.mem_of_mem_drop hb)
    · rw [List.drop_eq_nil_of_le (Nat.le_of_not_lt more)]
      simp only [more, decide_false, Bytes.onlyIf, Bool.false_eq_true, if_false]
      exact .none
  have spells := Spells.decimal (fun b hb => digits b (List.mem_of_mem_take hb)) point
    (by rwa [List.take_append_drop])
    (power_scientific (d.power + (d.length - 1 : ℕ))
      (2 - (Bytes.decimal (d.power + (d.length - 1 : ℕ)).natAbs).length))
  rw [List.take_append_drop, List.length_drop, ← Decimal.length, add_sub_cancel_right, Decimal.text,
    digitsValue_decimal] at spells
  simpa only [scientific, List.append_assoc, Decimal.text] using spells

theorem magnitude_pos (h : x.isZero = false) : 0 < x.magnitude := by
  simp only [isZero, beq_eq_false_iff_ne] at h
  exact Nat.pos_of_ne_zero h

theorem denotes_of_nearest {digits : ℕ} {k : ℤ} (finite : x.isFinite = true)
    (some : x.isZero = false) (h : Nearest size (digits * 10 ^ k) x.magnitude) :
    Denotes x.isNegative (.decimal digits k) x :=
  .decimal rfl finite h (by simp [some])

theorem nearest_wholeMagnitude (h : x.isWhole = true) :
    Nearest size (x.wholeMagnitude * 10 ^ (0 : ℤ)) x.magnitude := by
  rw [zpow_zero, mul_one, ← size_of_isWhole h]
  exact Nearest.exact size_strictMono _

theorem isWhole_of_shortest (finite : x.isFinite = true) (h : 0 ≤ x.shortest.power) :
    x.isWhole = true := by
  obtain ⟨k, hk⟩ := Int.eq_ofNat_of_zero_le h
  have nearest := nearest_shortest finite
  have natural : x.shortest.value = (x.shortest.digits * 10 ^ k : ℕ) := by
    rw [Decimal.value, hk, zpow_natCast]
    push_cast
    rfl
  obtain ⟨n, hn⟩ := (natural ▸ nearest).whole
  exact isWhole_of_size finite hn

theorem spells_shortestText (finite : x.isFinite = true) (some : x.isZero = false) :
    ∃ numeral, Spells x.shortestText numeral ∧ Denotes x.isNegative numeral x := by
  have nearest := nearest_shortest finite
  have shortest : Denotes x.isNegative (.decimal x.shortest.digits x.shortest.power) x :=
    denotes_of_nearest finite some nearest
  have isWhole := isWhole_of_shortest finite
  simp only [shortestText]
  generalize x.shortest = d at shortest isWhole ⊢
  split
  · simp only [positional]
    split
    · next whole =>
      have nearest := nearest_wholeMagnitude (isWhole whole)
      exact ⟨_, spells_decimal _, denotes_of_nearest finite some nearest⟩
    · next fraction =>
      have places : (-d.power).toNat ≠ 0 := by omega
      have power : (-((-d.power).toNat : ℤ)) = d.power := by omega
      have spells := spells_pointed (d := d) places
      rw [power] at spells
      exact ⟨_, spells, shortest⟩
  · exact ⟨_, spells_scientific _, shortest⟩

theorem eq_infinity (number : x.isNaN = false) (finite : x.isFinite = false) :
    infinity x.isNegative = x := by
  simp only [isNaN, isFinite, decide_eq_false_iff_not] at number finite
  have magnitude : infinite = x.magnitude := by omega
  rw [infinity, magnitude, ofMagnitude_magnitude]

theorem wholeMagnitude_pos (whole : x.isWhole = true) (some : x.isZero = false) :
    0 < x.wholeMagnitude := by
  have positive := size_strictMono (magnitude_pos some)
  rw [size_zero, size_of_isWhole whole] at positive
  exact Nat.cast_pos.1 positive

theorem signText_own (x : Number) : OwnSign x.signText x.isNegative := by
  rw [signText]
  cases x.isNegative with
  | false => exact .none
  | true => exact .minus

theorem text_whole (finite : x.isFinite = true) (whole : x.isWhole = true)
    (small : x.wholeMagnitude < 10 ^ 18) :
    x.text = Bytes.onlyIf (x.isNegative && x.wholeMagnitude != 0) "-" ++
      Bytes.decimal x.wholeMagnitude := by
  have number := isNaN_of_isFinite finite
  simp only [text, number, finite, whole, small, Nat.pow_eq, Bool.false_eq_true, if_false,
    Bool.not_true, decide_true, Bool.and_self, if_true]

theorem signed_text (number : x.isNaN = false) (some : x.isZero = false) :
    Signed OwnSign x.text x := by
  cases finite : x.isFinite with
  | false =>
    have infinite := eq_infinity number finite
    have text : x.text = x.signText ++ "inf" := by simp [text, number, finite]
    refine ⟨_, _, _, _, text, signText_own x, .infinity (.inl (by decide)), ?_⟩
    nth_rewrite 2 [← infinite]
    exact .infinity
  | true =>
    by_cases small : x.isWhole = true ∧ x.wholeMagnitude < 10 ^ 18
    · obtain ⟨whole, small⟩ := small
      have text := text_whole finite whole small
      rw [bne_iff_ne.2 (wholeMagnitude_pos whole some).ne', Bool.and_true] at text
      exact ⟨_, _, _, _, text, signText_own x, spells_decimal _,
        denotes_of_nearest finite some (nearest_wholeMagnitude whole)⟩
    · have large : (x.isWhole && decide (x.wholeMagnitude < 10 ^ 18)) = false := by
        simpa using small
      have text : x.text = x.signText ++ x.shortestText := by
        simp only [text, number, finite, Nat.pow_eq, large, Bool.false_eq_true, if_false,
          Bool.not_true]
      obtain ⟨numeral, spells, denotes⟩ := spells_shortestText finite some
      exact ⟨_, _, _, _, text, signText_own x, spells, denotes⟩

theorem ofText?_text (number : x.isNaN = false) (some : x.isZero = false) :
    ofText? x.text = Option.some x := by
  obtain ⟨sign, negative, u, numeral, split, own, spells, denotes⟩ := signed_text number some
  exact ofText?_iff.2 ⟨[], _, [], (List.append_nil _).symm, by simp, by simp, sign, negative, u,
    numeral, split, own.taken, spells, denotes⟩

end

end Number

namespace Bytes

theorem ofString_ofList (cs : List Char) : ofString (String.ofList cs) = Utf8.encode cs := by
  simp [ofString, List.utf8Encode, Utf8.encode]

theorem ofString_append (s t : String) : ofString (s ++ t) = ofString s ++ ofString t := by
  simp [ofString]

theorem encode_ascii {cs : List Char} (h : ∀ c ∈ cs, c.toNat < 128) :
    Utf8.encode cs = cs.map fun c => c.toNat.toUInt8 := by
  induction cs with
  | nil => rfl
  | cons c cs ih =>
    obtain ⟨here, later⟩ := List.forall_mem_cons.1 h
    have single : String.utf8EncodeChar c = [c.toNat.toUInt8] := by
      have here : c.val.toNat ≤ 127 := Nat.le_of_lt_succ here
      simp only [String.utf8EncodeChar, here, if_true]
      rfl
    rw [Utf8.encode_cons, single, ih later]
    rfl

theorem ofString_repr (n : ℕ) : ofString n.repr = decimal n := by
  rw [Nat.repr_eq_ofList_toDigits, ofString_ofList, encode_ascii, decimal]
  intro c hc
  have digit := Nat.isDigit_of_mem_toDigits (by decide) (by decide) hc
  simp only [Char.isDigit, Bool.and_eq_true, decide_eq_true_eq, ge_iff_le,
    UInt32.le_iff_toNat_le] at digit
  exact Nat.lt_of_le_of_lt digit.2 (by decide)

theorem ofString_int (i : ℤ) :
    ofString (toString i) = onlyIf (i < 0) "-" ++ decimal i.natAbs := by
  rw [Int.toString_eq_repr, Int.repr_eq_if]
  rcases Int.lt_or_le i 0 with below | above
  · have size : (-i).toNat = i.natAbs := by omega
    rw [if_neg (by omega), ofString_append, ofString_repr, size]
    simp [onlyIf, below]
  · have size : i.toNat = i.natAbs := by omega
    rw [if_pos above, ofString_repr, size]
    simp [onlyIf, above]

end Bytes

namespace Number

variable {x : Number}

theorem value_eq (x : Number) : x.value = (if x.isNegative then -1 else 1) * size x.magnitude := rfl

theorem natAbs_of_value {i : ℤ} (h : x.value = i) : size x.magnitude = i.natAbs := by
  have positive := size_nonneg x.magnitude
  have same : |(i : ℚ)| = size x.magnitude := by
    rw [← h, value_eq, abs_mul, abs_of_nonneg positive]
    cases x.isNegative <;> simp
  rw [← same, ← Int.cast_abs, Int.abs_eq_natAbs]
  rfl

theorem text_integer {i : ℤ} (finite : x.isFinite = true) (h : x.value = i)
    (small : |i| < 10 ^ 18) : x.text = Bytes.ofString (toString i) := by
  have size_ := natAbs_of_value h
  have whole := isWhole_of_size finite size_
  have size := size_of_isWhole whole
  have same : x.wholeMagnitude = i.natAbs := by
    rw [size] at size_
    exact_mod_cast size_
  have signed : i = if x.isNegative then -(i.natAbs : ℤ) else i.natAbs := by
    refine Int.cast_injective (α := ℚ) (h.symm.trans ?_)
    rw [value_eq, size_]
    split
    · rw [neg_one_mul, Int.cast_neg, Int.cast_natCast]
    · rw [one_mul, Int.cast_natCast]
  have sign : (x.isNegative && x.wholeMagnitude != 0) = decide (i < 0) := by
    rw [same, Bool.eq_iff_iff, Bool.and_eq_true, bne_iff_ne, decide_eq_true_eq]
    cases negative : x.isNegative with
    | true =>
      rw [negative, if_pos rfl] at signed
      simp only [true_and]
      omega
    | false =>
      rw [negative, if_neg Bool.false_ne_true] at signed
      simp only [Bool.false_eq_true, false_and, false_iff]
      omega
  have bound : x.wholeMagnitude < 10 ^ 18 := by
    rw [same]
    rw [Int.abs_eq_natAbs] at small
    exact_mod_cast small
  rw [text_whole finite whole bound, Bytes.ofString_int, sign, same]

theorem text_zero (h : x.isZero = true) : x.text = Bytes.decimal 0 := by
  have magnitude : x.magnitude = 0 := by simpa [isZero] using h
  have finite : x.isFinite = true := by
    rw [isFinite, magnitude]
    decide
  have value : x.value = (0 : ℤ) := by simp [value_eq, magnitude]
  rw [text_integer finite value (by decide), Bytes.ofString_int]
  rfl

theorem zero_equals (h : x.isZero = true) : zero.equals x = true := by
  have magnitude : x.magnitude = 0 := by simpa [isZero] using h
  have number : x.isNaN = false := by
    rw [isNaN, magnitude]
    decide
  have key : x.key = 0 := by simp [key, magnitude]
  rw [equals, number, key]
  decide

end Number

namespace Value
open Number

/-- A number that is shown as text is the number that the text is read as, except that a negative
zero is read as zero.  A whole number below `10 ^ 18` is shown as that integer. -/
theorem text_reads_back (h h' : Heap) (l l' : Location) (x : Number) (number : x.isNaN = false) :
    ∃ t y, Value.convert h (.number x) .text l = .ok (.text t) ∧
      Value.convert h' (.text t) .number l' = .ok (.number y) ∧ y.equals x = true ∧
      y = (if x.isZero then Number.zero else x) ∧
      ∀ i : ℤ, x.isFinite = true → x.value = i → |i| < 10 ^ 18 →
        t = Bytes.ofString (toString i) := by
  have read : ∀ y, ofText? x.text = some y →
      Value.convert h' (.text x.text) .number l' = .ok (.number y) := by
    intro y hy
    rw [Value.convert, (asNumber_text x.text l' y).2 hy]
    rfl
  cases zero : x.isZero with
  | true =>
    have none : ofText? x.text = some Number.zero := by
      rw [text_zero zero]
      decide +kernel
    exact ⟨_, _, rfl, read _ none, zero_equals zero, rfl, fun i finite value small =>
      text_integer finite value small⟩
  | false =>
    have same : x.equals x = true := by rw [equals_self, number, Bool.not_false]
    exact ⟨_, _, rfl, read _ (ofText?_text number zero), same, rfl, fun i finite value small =>
      text_integer finite value small⟩

theorem text_reads_back_whole : (Number.ofInt (-5)).isNaN = false ∧
    ∃ y, Value.convert {} (.number (Number.ofInt (-5))) .text {} = .ok (.text "-5") ∧
      Value.convert {} (.text "-5") .number {} = .ok (.number y) ∧
      y.equals (Number.ofInt (-5)) = true := by
  have number : (Number.ofInt (-5)).isNaN = false := by decide +kernel
  have value : (Number.ofInt (-5)).value = (-5 : ℤ) := by
    have negative : (Number.ofInt (-5)).isNegative = true := by decide +kernel
    have mantissa : (Number.ofInt (-5)).mantissa = 5 * 2 ^ 50 := by decide +kernel
    have exponent : (Number.ofInt (-5)).exponent = -50 := by decide +kernel
    norm_num [Number.value, negative, mantissa, exponent]
  obtain ⟨t, y, shown, read, same, -, whole⟩ :=
    text_reads_back {} {} {} {} (Number.ofInt (-5)) number
  obtain rfl : t = "-5" := whole (-5) (by decide +kernel) value (by decide)
  exact ⟨number, y, shown, read, same⟩

end Value

end StepsLang
