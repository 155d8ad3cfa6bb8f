import StepsLang.Number.Basic

namespace StepsLang.Number

def toFloat (n : Number) : Float := Float.ofBits n.bits

def ofFloat (f : Float) : Number := ⟨f.toBits⟩

def add (a b : Number) : Number := ofFloat (a.toFloat + b.toFloat)

def subtract (a b : Number) : Number := ofFloat (a.toFloat - b.toFloat)

def multiply (a b : Number) : Number := ofFloat (a.toFloat * b.toFloat)

def divide (a b : Number) : Number := ofFloat (a.toFloat / b.toFloat)

def negate (n : Number) : Number := ofMagnitude (!n.isNegative) n.magnitude

/-- What is left of `a` after taking away `b` as often as it fits, with the sign of `a`. It is
exact: a remainder of two doubles is a double. -/
def remainder (a b : Number) : Number :=
  if a.isNaN || b.isNaN || !a.isFinite || b.isZero then nan false
  else if !b.isFinite then a
  else
    let e := min a.exponent b.exponent
    let m := a.mantissa * Nat.pow 2 (a.exponent - e).toNat
    let k := b.mantissa * Nat.pow 2 (b.exponent - e).toNat
    ofScaled a.isNegative (m % k) e

def modulo (a b : Number) : Number :=
  let r := remainder a b
  if !r.isZero && r.less zero != b.less zero then add r b else r

end StepsLang.Number
