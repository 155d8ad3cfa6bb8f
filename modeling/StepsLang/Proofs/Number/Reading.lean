import StepsLang.Proofs.Number.Decimal
import StepsLang.Proofs.Number.Numeral
import StepsLang.Value.Conversion

namespace StepsLang

namespace Bytes

variable {p : UInt8 → Bool} {before core after s : Bytes}

theorem dropWhile_core (blank : ∀ b ∈ before, p b = true) (solid : ∀ b ∈ core, p b = false)
    (some : core ≠ []) : (before ++ (core ++ after)).dropWhile p = core ++ after := by
  rw [List.dropWhile_append_of_pos blank]
  cases core with
  | nil => contradiction
  | cons b core => simp [solid b List.mem_cons_self]

theorem trim_core (blank : ∀ b ∈ before, p b = true) (solid : ∀ b ∈ core, p b = false)
    (some : core ≠ []) (blank' : ∀ b ∈ after, p b = true) :
    trim p (before ++ (core ++ after)) = core := by
  have turned : (after.reverse ++ (core.reverse ++ [])).dropWhile p = core.reverse ++ [] :=
    dropWhile_core (by simpa using blank') (by simpa using solid) (by simpa using some)
  rw [List.append_nil] at turned
  rw [trim, dropWhile_core blank solid some, trimEnd, List.reverse_append, turned,
    List.reverse_reverse]

theorem exists_trim (p : UInt8 → Bool) (s : Bytes) :
    ∃ before after, s = before ++ (trim p s ++ after) ∧ (∀ b ∈ before, p b = true) ∧
      ∀ b ∈ after, p b = true := by
  refine ⟨s.takeWhile p, ((s.dropWhile p).reverse.takeWhile p).reverse, ?_,
    List.all_eq_true.1 List.all_takeWhile, ?_⟩
  · rw [trim, trimEnd, ← List.reverse_append, List.takeWhile_append_dropWhile, List.reverse_reverse,
      List.takeWhile_append_dropWhile]
  · simpa using List.all_eq_true.1 (List.all_takeWhile (p := p) (l := (s.dropWhile p).reverse))

end Bytes

namespace Number
open Numeral

inductive Denotes (negative : Bool) : Numeral → Number → Prop
  | decimal {digits : ℕ} {k : ℤ} {x : Number} : x.isNegative = negative → x.isFinite = true →
    Nearest size (digits * 10 ^ k) x.magnitude → (x.isZero = true → digits = 0) →
    Denotes negative (.decimal digits k) x
  | infinity : Denotes negative .infinity (infinity negative)
  | nan : Denotes negative .nan (nan negative)

section

variable {negative : Bool} {x : Number}

theorem denotes_decimal_iff {digits : ℕ} {k : ℤ} :
    Denotes negative (.decimal digits k) x ↔
      (Numeral.decimal digits k).inRange = true ∧
        (Numeral.decimal digits k).value negative = x := by
  obtain ⟨m, nearest⟩ := exists_nearest_decimal digits k
  have bound := infinite_lt
  have range : (Numeral.decimal digits k).inRange = true ↔ m < infinite ∧ (m = 0 → digits = 0) := by
    simp only [inRange, ofDecimal_of_nearest nearest, isFinite, isZero,
      magnitude_ofMagnitude (show min infinite m < 2 ^ 63 by omega), Bool.and_eq_true,
      decide_eq_true_eq, Bool.or_eq_true, beq_iff_eq, Bool.not_eq_true', beq_eq_false_iff_ne]
    have positive : 0 < infinite := by decide
    omega
  rw [range, Numeral.value, ofDecimal_of_nearest nearest]
  constructor
  · rintro ⟨rfl, finite, here, zero⟩
    obtain rfl := here.unique size_strictMono nearest
    have small := magnitude_lt finite
    refine ⟨⟨small, fun none => zero (by simpa [isZero] using none)⟩, ?_⟩
    rw [Nat.min_eq_right small.le, ofMagnitude_magnitude]
  · rintro ⟨⟨small, zero⟩, rfl⟩
    rw [Nat.min_eq_right small.le]
    have here : (ofMagnitude negative m).magnitude = m := magnitude_ofMagnitude (by omega)
    refine .decimal (isNegative_ofMagnitude (by omega)) ?_ (here.symm ▸ nearest) ?_
    · simpa [isFinite, here] using small
    · simpa [isZero, here] using zero

theorem denotes_iff {u : Bytes} {numeral : Numeral} (spells : Spells u numeral) :
    Denotes negative numeral x ↔ numeral.inRange = true ∧ numeral.value negative = x := by
  cases spells with
  | decimal => exact denotes_decimal_iff
  | infinity =>
    refine ⟨?_, ?_⟩
    · rintro ⟨⟩
      exact ⟨rfl, rfl⟩
    · rintro ⟨-, rfl⟩
      exact .infinity
  | nan =>
    refine ⟨?_, ?_⟩
    · rintro ⟨⟩
      exact ⟨rfl, rfl⟩
    · rintro ⟨-, rfl⟩
      exact .nan

def Signed (signs : Bytes → Bool → Prop) (s : Bytes) (x : Number) : Prop :=
  ∃ sign negative u numeral, s = sign ++ u ∧ signs sign negative ∧ Spells u numeral ∧
    Denotes negative numeral x

def Padded (signs : Bytes → Bool → Prop) (t : Bytes) (x : Number) : Prop :=
  ∃ before core after, t = before ++ (core ++ after) ∧ (∀ b ∈ before, isSpace b = true) ∧
    (∀ b ∈ after, isSpace b = true) ∧ Signed signs core x

theorem Signed.imp {signs signs' : Bytes → Bool → Prop} {s : Bytes} (h : Signed signs s x)
    (imp : ∀ sign negative, signs sign negative → signs' sign negative) : Signed signs' s x := by
  obtain ⟨sign, negative, u, numeral, split, known, read⟩ := h
  exact ⟨sign, negative, u, numeral, split, imp sign negative known, read⟩

theorem Padded.imp {signs signs' : Bytes → Bool → Prop} {t : Bytes} (h : Padded signs t x)
    (imp : ∀ sign negative, signs sign negative → signs' sign negative) : Padded signs' t x := by
  obtain ⟨before, core, after, whole, blank, blank', signed⟩ := h
  exact ⟨before, core, after, whole, blank, blank', signed.imp imp⟩

inductive OwnSign : Bytes → Bool → Prop
  | none : OwnSign [] false
  | minus : OwnSign [Byte.minus] true

/-- A plus sign before the minus sign of a numeral. -/
inductive BothSigns : Bytes → Bool → Prop
  | both : BothSigns [Byte.plus, Byte.minus] true

inductive TakenSign (sign : Bytes) (negative : Bool) : Prop
  | one : Sign sign negative → TakenSign sign negative
  | both : BothSigns sign negative → TakenSign sign negative

theorem padded_taken_iff {t : Bytes} :
    Padded TakenSign t x ↔ Padded Sign t x ∨ Padded BothSigns t x := by
  constructor
  · rintro ⟨before, core, after, whole, blank, blank', sign, negative, u, numeral, split, taken,
      read⟩
    have padded : ∀ signs, signs sign negative → Padded signs t x := fun signs known =>
      ⟨before, core, after, whole, blank, blank', sign, negative, u, numeral, split, known, read⟩
    cases taken with
    | one one => exact .inl (padded Sign one)
    | both two => exact .inr (padded BothSigns two)
  · rintro (one | two)
    · exact one.imp fun _ _ => .one
    · exact two.imp fun _ _ => .both

theorem OwnSign.taken {sign : Bytes} (h : OwnSign sign negative) : TakenSign sign negative := by
  cases h with
  | none => exact .one .none
  | minus => exact .one .minus

theorem OwnSign.behindPlus {sign : Bytes} (h : OwnSign sign negative) :
    TakenSign (Byte.plus :: sign) negative := by
  cases h with
  | none => exact .one .plus
  | minus => exact .both .both

theorem ofNumeral?_unsigned {s u : Bytes} (sign : (s.head? == some Byte.minus) = negative)
    (rest : (if negative = true then s.drop 1 else s) = u) :
    ofNumeral? s = some x ↔ ∃ numeral, Spells u numeral ∧ Denotes negative numeral x := by
  simp only [ofNumeral?, sign, rest]
  constructor
  · intro h
    split at h
    · next numeral read =>
      obtain ⟨range, value⟩ := Option.ite_none_right_eq_some.1 h
      have spells := read?_iff.1 read
      exact ⟨numeral, spells, (denotes_iff spells).2 ⟨range, Option.some.inj value⟩⟩
    · cases h
  · rintro ⟨numeral, spells, denotes⟩
    obtain ⟨range, rfl⟩ := (denotes_iff spells).1 denotes
    simp only [read?_iff.2 spells, range, if_true]

theorem ofNumeral?_iff {s : Bytes} : ofNumeral? s = some x ↔ Signed OwnSign s x := by
  by_cases minus : s.head? = some Byte.minus
  · obtain ⟨rest, rfl⟩ := List.head?_eq_some_iff.1 minus
    have sign : ((Byte.minus :: rest).head? == some Byte.minus) = true := rfl
    rw [ofNumeral?_unsigned sign rfl]
    constructor
    · rintro ⟨numeral, spells, denotes⟩
      exact ⟨_, _, _, _, rfl, .minus, spells, denotes⟩
    · rintro ⟨sign, negative, u, numeral, split, own, spells, denotes⟩
      obtain ⟨b, more, rfl, -, other⟩ := spells.unsigned
      cases own with
      | none => exact absurd (List.cons.inj split).1.symm other
      | minus => exact ⟨numeral, (List.cons.inj split).2 ▸ spells, denotes⟩
  · have sign : (s.head? == some Byte.minus) = false := by simpa using minus
    rw [ofNumeral?_unsigned sign rfl]
    constructor
    · rintro ⟨numeral, spells, denotes⟩
      exact ⟨_, _, _, _, rfl, .none, spells, denotes⟩
    · rintro ⟨sign, negative, u, numeral, rfl, own, spells, denotes⟩
      cases own with
      | none => exact ⟨numeral, spells, denotes⟩
      | minus => exact absurd rfl minus

theorem Signed.solid {s : Bytes} (h : Signed TakenSign s x) :
    s ≠ [] ∧ ∀ b ∈ s, isSpace b = false := by
  obtain ⟨sign, negative, u, numeral, rfl, taken, spells, -⟩ := h
  obtain ⟨b, more, rfl, -, -⟩ := spells.unsigned
  refine ⟨by simp, List.forall_mem_append.2 ⟨?_, spells.solid⟩⟩
  cases taken with
  | one sign => exact sign.solid
  | both signs =>
    cases signs
    exact solid_of_all rfl

theorem ofText?_core {s : Bytes} :
    ofNumeral? (if (s.head? == some Byte.plus) = true then s.drop 1 else s) = some x ↔
      Signed TakenSign s x := by
  rw [ofNumeral?_iff]
  by_cases plus : s.head? = some Byte.plus
  · obtain ⟨rest, rfl⟩ := List.head?_eq_some_iff.1 plus
    have dropped : (if ((Byte.plus :: rest).head? == some Byte.plus) = true then
        (Byte.plus :: rest).drop 1 else Byte.plus :: rest) = rest := rfl
    rw [dropped]
    constructor
    · rintro ⟨sign, negative, u, numeral, rfl, own, spells, denotes⟩
      exact ⟨_, _, u, numeral, rfl, own.behindPlus, spells, denotes⟩
    · rintro ⟨sign, negative, u, numeral, split, taken, spells, denotes⟩
      obtain ⟨b, more, rfl, other, -⟩ := spells.unsigned
      cases taken with
      | one sign =>
        cases sign with
        | none => exact absurd (List.cons.inj split).1.symm other
        | plus => exact ⟨_, _, _, _, (List.cons.inj split).2, .none, spells, denotes⟩
        | minus => cases (List.cons.inj split).1
      | both signs =>
        cases signs
        exact ⟨_, _, _, _, (List.cons.inj split).2, .minus, spells, denotes⟩
  · rw [if_neg (by simpa using plus)]
    constructor
    · intro own
      exact own.imp fun _ _ => OwnSign.taken
    · rintro ⟨sign, negative, u, numeral, rfl, taken, spells, denotes⟩
      cases taken with
      | one sign =>
        cases sign with
        | none => exact ⟨_, _, _, _, rfl, .none, spells, denotes⟩
        | plus => exact absurd rfl plus
        | minus => exact ⟨_, _, _, _, rfl, .minus, spells, denotes⟩
      | both signs =>
        cases signs
        exact absurd rfl plus

theorem ofText?_iff {t : Bytes} : ofText? t = some x ↔ Padded TakenSign t x := by
  have unfolded : ofText? t = some x ↔ Signed TakenSign (Bytes.trim isSpace t) x := ofText?_core
  rw [unfolded]
  constructor
  · intro signed
    obtain ⟨before, after, whole, blank, blank'⟩ := Bytes.exists_trim isSpace t
    exact ⟨before, _, after, whole, blank, blank', signed⟩
  · rintro ⟨before, core, after, rfl, blank, blank', signed⟩
    obtain ⟨some, solid⟩ := signed.solid
    rwa [Bytes.trim_core blank solid some blank']

end

end Number

namespace Value
open Number Numeral

theorem asNumber_text (t : Bytes) (l : Location) (x : Number) :
    (Value.text t).asNumber l = .ok x ↔ ofText? t = some x := by
  simp only [asNumber]
  cases ofText? t with
  | none => simp
  | some y => simp

/-- A text becomes a number when a numeral in range stands in it with at most one sign, or with a
plus sign before its minus sign, and with blanks around it; then it becomes the double nearest to
that, with its sign. -/
theorem asNumber_iff (t : Bytes) (l : Location) (x : Number) :
    (Value.text t).asNumber l = .ok x ↔ Padded Sign t x ∨ Padded BothSigns t x := by
  rw [asNumber_text, ofText?_iff, padded_taken_iff]

/-- Two signs are taken, though no numeral has that many. -/
theorem two_signs_taken :
    (Value.text "+-5").asNumber {} = .ok (Number.ofInt (-5)) ∧ ¬ ∃ x, Padded Sign "+-5" x := by
  constructor
  · rw [asNumber_text]
    decide +kernel
  · rintro ⟨x, before, core, after, whole, blank, -, signed⟩
    obtain ⟨sign, negative, u, numeral, rfl, one, spells, -⟩ := signed
    have text : ("+-5" : Bytes) = [Byte.plus, Byte.minus, 53] := by decide
    obtain ⟨b, more, rfl, plus, minus⟩ := spells.unsigned
    rw [text] at whole
    cases before with
    | cons c before =>
      obtain ⟨rfl, -⟩ := List.cons.inj whole
      cases blank _ List.mem_cons_self
    | nil =>
      cases one with
      | none => exact plus (List.cons.inj whole).1.symm
      | plus => exact minus (List.cons.inj (List.cons.inj whole).2).1.symm
      | minus => cases (List.cons.inj whole).1

end Value

end StepsLang
