/-!
Numbers are IEEE-754 binary64 bit patterns. A finite one is `(-1)^s * m * 2^e` for natural `m` and
integer `e`; order, truncation and rounding are stated on these, in exact integer arithmetic.
-/

namespace StepsLang

structure Number where
  bits : UInt64
  deriving DecidableEq, Repr, Inhabited

namespace Number

def isNegative (n : Number) : Bool := Nat.pow 2 63 ≤ n.bits.toNat

def magnitude (n : Number) : Nat := n.bits.toNat % Nat.pow 2 63

def infinite : Nat := 2047 * Nat.pow 2 52

def isNaN (n : Number) : Bool := infinite < n.magnitude

def isFinite (n : Number) : Bool := n.magnitude < infinite

def isZero (n : Number) : Bool := n.magnitude == 0

def ofMagnitude (negative : Bool) (magnitude : Nat) : Number :=
  ⟨UInt64.ofNat (magnitude + if negative then Nat.pow 2 63 else 0)⟩

def zero : Number := ⟨0⟩

def infinity (negative : Bool) : Number := ofMagnitude negative infinite

def nan (negative : Bool) : Number := ofMagnitude negative (infinite + Nat.pow 2 51)

def mantissa (n : Number) : Nat :=
  if n.magnitude < Nat.pow 2 52 then n.magnitude else Nat.pow 2 52 + n.magnitude % Nat.pow 2 52

def exponent (n : Number) : Int := (max (n.magnitude / Nat.pow 2 52) 1 : Nat) - 1075

def scale (e : Int) : Nat × Nat := (Nat.pow 2 e.toNat, Nat.pow 2 (-e).toNat)

def divRound (num den : Nat) : Nat :=
  let q := num / den
  let twice := 2 * (num % den)
  if twice < den then q
  else if den < twice then q + 1
  else q + q % 2

def lastPlace (num den : Nat) : Int :=
  let guess : Int := (num.log2 : Int) - den.log2 - 53
  let (a, b) := scale guess
  max (if num * b / (den * a) < Nat.pow 2 53 then guess else guess + 1) (-1074)

/-- The double nearest to `num / den`, of two equally near ones the one with the even mantissa.
The denominator is not zero. Too large a quotient gives infinity. -/
def ofQuotient (negative : Bool) (num den : Nat) : Number :=
  if num == 0 then ofMagnitude negative 0
  else
    let place := lastPlace num den
    let (a, b) := scale place
    ofMagnitude negative
      (min infinite ((place + 1074).toNat * Nat.pow 2 52 + divRound (num * b) (den * a)))

def ofScaled (negative : Bool) (m : Nat) (e : Int) : Number :=
  let (a, b) := scale e
  ofQuotient negative (m * a) b

def ofNat (n : Nat) : Number := ofQuotient false n 1

def ofInt (i : Int) : Number := ofQuotient (i < 0) i.natAbs 1

instance (n : Nat) : OfNat Number n := ⟨ofNat n⟩

def wholeMagnitude (n : Number) : Nat :=
  let (a, b) := scale n.exponent
  n.mantissa * a / b

def truncate (n : Number) : Int :=
  if n.isNegative then -(n.wholeMagnitude : Int) else n.wholeMagnitude

def isWhole (n : Number) : Bool :=
  let (a, b) := scale n.exponent
  n.isFinite && n.mantissa * a % b == 0

def key (n : Number) : Int := if n.isNegative then -(n.magnitude : Int) else n.magnitude

def equals (a b : Number) : Bool := !a.isNaN && !b.isNaN && a.key == b.key

def less (a b : Number) : Bool := !a.isNaN && !b.isNaN && decide (a.key < b.key)

def lessOrEqual (a b : Number) : Bool := !a.isNaN && !b.isNaN && decide (a.key ≤ b.key)

end Number

end StepsLang
