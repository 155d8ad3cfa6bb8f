import Mathlib.Data.Rat.Floor
import StepsLang.Execution.Statement
import StepsLang.Proofs.Number.Position

namespace StepsLang.Number

def value (x : Number) : ℚ := (if x.isNegative then -1 else 1) * (x.mantissa * 2 ^ x.exponent)

def towardZero (q : ℚ) : ℤ := if q < 0 then ⌈q⌉ else ⌊q⌋

/-- What is no number asks for no rounds, nor does what is below all numbers; any other number asks
for its whole part, or none if that is below zero. -/
structure Asks (x : Number) (rounds : ℕ) : Prop where
  nan : x.isNaN = true → rounds = 0
  below : x.isNaN = false → x.isFinite = false → x.isNegative = true → rounds = 0
  finite : x.isFinite = true → x.value < 2 ^ 63 → (rounds : ℤ) = max 0 (towardZero x.value)

end StepsLang.Number
