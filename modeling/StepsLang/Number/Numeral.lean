import StepsLang.Number.Decimal

namespace StepsLang.Number

inductive Numeral
  | decimal (digits : Nat) (power : Int)
  | binary (digits : Nat) (power : Int)
  | infinity
  | nan
  deriving DecidableEq, Repr

namespace Numeral

def spanDigits (isDigit : UInt8 → Bool) (s : Bytes) : Bytes × Bytes :=
  (s.takeWhile isDigit, s.dropWhile isDigit)

def pointed? (isDigit : UInt8 → Bool) (s : Bytes) : Option (Bytes × Bytes × Bytes) :=
  let (whole, rest) := spanDigits isDigit s
  match rest with
  | b :: more =>
    if b == Byte.dot then
      let (fraction, after) := spanDigits isDigit more
      if whole.isEmpty && fraction.isEmpty then none else some (whole, fraction, after)
    else if whole.isEmpty then none else some (whole, [], rest)
  | [] => if whole.isEmpty then none else some (whole, [], [])

def exponent (marker : UInt8) (s : Bytes) : Int × Bytes :=
  match s with
  | [] => (0, s)
  | b :: rest =>
    if Byte.toLower b == marker then
      let negative := rest.head? == some Byte.minus
      let signed := negative || rest.head? == some Byte.plus
      let (digits, after) := spanDigits Byte.isDigit (if signed then rest.drop 1 else rest)
      if digits.isEmpty then (0, s)
      else
        let size : Int := Bytes.digitsValue digits
        (if negative then -size else size, after)
    else (0, s)

def decimal? (s : Bytes) : Option (Numeral × Bytes) :=
  (pointed? Byte.isDigit s).map fun (whole, fraction, rest) =>
    let (power, after) := exponent 101 rest
    (.decimal (Bytes.digitsValue (whole ++ fraction)) (power - fraction.length), after)

def word? (word s : Bytes) : Option Bytes :=
  if word == (s.take word.length).map Byte.toLower then some (s.drop word.length) else none

def afterRemark (s : Bytes) : Bytes :=
  match s with
  | 40 :: rest =>
    match rest.dropWhile Byte.isNameByte with
    | 41 :: after => after
    | _ => s
  | _ => s

def special? (s : Bytes) : Option (Numeral × Bytes) :=
  match word? "nan" s, word? "infinity" s, word? "inf" s with
  | some rest, _, _ => some (.nan, afterRemark rest)
  | _, some rest, _ => some (.infinity, rest)
  | _, _, some rest => some (.infinity, rest)
  | _, _, _ => none

def read? (s : Bytes) : Option (Numeral × Bytes) := (decimal? s).or (special? s)

def hexadecimal? (s : Bytes) : Option (Numeral × Bytes) :=
  match word? "0x" s with
  | none => none
  | some rest =>
    (pointed? (fun b => (Byte.hexValue? b).isSome) rest).map fun (whole, fraction, rest) =>
      let (power, after) := exponent 112 rest
      let digits := (whole ++ fraction).foldl (fun n b => 16 * n + (Byte.hexValue? b).getD 0) 0
      (.binary digits (power - 4 * fraction.length), after)

def value (negative : Bool) : Numeral → Number
  | .decimal digits power => ofDecimal negative digits power
  | .binary digits power =>
    if digits == 0 || power + digits.log2 < -1200 then ofMagnitude negative 0
    else if 1200 < power + digits.log2 then Number.infinity negative
    else ofScaled negative digits power
  | .infinity => Number.infinity negative
  | .nan => Number.nan negative

def inRange : Numeral → Bool
  | .decimal digits power =>
    let n := ofDecimal false digits power
    n.isFinite && (digits == 0 || !n.isZero)
  | _ => true

end Numeral

def ofNumeral? (s : Bytes) : Option Number :=
  let negative := s.head? == some Byte.minus
  match Numeral.read? (if negative then s.drop 1 else s) with
  | some (numeral, []) => if numeral.inRange then some (numeral.value negative) else none
  | _ => none

def ofText? (s : Bytes) : Option Number :=
  let trimmed := Bytes.trim
    (fun b => b == Byte.space || b == Byte.tab || b == Byte.lineFeed || b == Byte.carriageReturn) s
  ofNumeral? (if trimmed.head? == some Byte.plus then trimmed.drop 1 else trimmed)

/-- The number that a command-line argument denotes: blanks before it, either sign and hexadecimal
notation are allowed, and a value out of range is rounded to infinity or toward zero. -/
def ofArgument? (s : Bytes) : Option Number :=
  let s := s.dropWhile Byte.isBlank
  let negative := s.head? == some Byte.minus
  let unsigned := if negative || s.head? == some Byte.plus then s.drop 1 else s
  match (Numeral.hexadecimal? unsigned).or (Numeral.read? unsigned) with
  | some (numeral, []) => some (numeral.value negative)
  | _ => none

end StepsLang.Number
