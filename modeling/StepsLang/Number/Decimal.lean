import StepsLang.Bytes
import StepsLang.Number.Basic

namespace StepsLang.Number

def power10 (k : Int) : Nat × Nat := (Nat.pow 10 k.toNat, Nat.pow 10 (-k).toNat)

/-- The double nearest to `digits * 10^k`. Values beyond `10^400` are infinite and values below
`10^-400` zero, whatever their digits are. -/
def ofDecimal (negative : Bool) (digits : Nat) (k : Int) : Number :=
  let size := ((Nat.toDigits 10 digits).length : Int) + k
  if digits == 0 || size < -400 then ofMagnitude negative 0
  else if 400 < size then infinity negative
  else
    let (a, b) := power10 k
    ofQuotient negative (digits * a) b

structure Decimal where
  digits : Nat
  power : Int
  deriving DecidableEq, Repr

namespace Decimal

def normalize (d : Decimal) : Decimal := go (Nat.toDigits 10 d.digits).length d
where
  go : Nat → Decimal → Decimal
    | 0, d => d
    | n + 1, d =>
      if d.digits != 0 && d.digits % 10 == 0 then go n ⟨d.digits / 10, d.power + 1⟩ else d

def text (d : Decimal) : Bytes := Bytes.decimal d.digits

def length (d : Decimal) : Nat := d.text.length

end Decimal

def quotient (n : Number) : Nat × Nat :=
  let (a, b) := scale n.exponent
  (n.mantissa * a, b)

def leadingPower (num den : Nat) : Int :=
  climb 4 ((((num.log2 : Int) - den.log2 - 1) * 30103) / 100000 - 1)
where
  climb : Nat → Int → Int
    | 0, p => p
    | n + 1, p =>
      let (a, b) := power10 (p + 1)
      if a * den ≤ num * b then climb n (p + 1) else p

/-- The decimal with `count` digits that means `n`, if there is one: of the two neighbours of `n`
on the grid of such decimals the nearer one that reads back, and the even one when they are
equally near. -/
def shortestWith? (n : Number) (count : Nat) : Option Decimal :=
  let (num, den) := n.quotient
  let k := leadingPower num den - (count - 1 : Nat)
  let (a, b) := power10 k
  let low := num * b / (den * a)
  let twice := 2 * (num * b % (den * a))
  let lowFirst := twice < den * a || (twice == den * a && low % 2 == 0)
  let candidates := if lowFirst then [low, low + 1] else [low + 1, low]
  (candidates.find? fun d => ofDecimal false d k == ofMagnitude false n.magnitude).map (⟨·, k⟩)

def exactDecimal (n : Number) : Decimal :=
  if 0 ≤ n.exponent then ⟨n.mantissa * Nat.pow 2 n.exponent.toNat, 0⟩
  else ⟨n.mantissa * Nat.pow 5 (-n.exponent).toNat, n.exponent⟩

def shortest (n : Number) : Decimal :=
  (((List.range 17).findSome? fun i => n.shortestWith? (i + 1)).getD n.exactDecimal).normalize

def roundPlaces (n : Number) (places : Nat) : Nat :=
  let (num, den) := n.quotient
  divRound (num * Nat.pow 10 places) den

end StepsLang.Number
