import StepsLang.Number.Decimal

namespace StepsLang.Number

def signText (n : Number) : Bytes := if n.isNegative then "-" else ""

def pointed (digits : Bytes) (places : Nat) : Bytes :=
  let padded := List.replicate (places + 1 - digits.length) Byte.zero ++ digits
  padded.take (padded.length - places)
    ++ Bytes.onlyIf (places != 0) (Byte.dot :: padded.drop (padded.length - places))

def scientific (d : Decimal) : Bytes :=
  let power := d.power + (d.length - 1 : Nat)
  let size := Bytes.decimal power.natAbs
  d.text.take 1 ++ Bytes.onlyIf (1 < d.length) (Byte.dot :: d.text.drop 1)
    ++ (if power < 0 then "e-" else "e+") ++ List.replicate (2 - size.length) Byte.zero ++ size

/-- Positional notation. A number without fraction is written with all its own digits, even where
zeros would read back. -/
def positional (n : Number) (d : Decimal) : Bytes :=
  if 0 ≤ d.power then Bytes.decimal n.wholeMagnitude else pointed d.text (-d.power).toNat

def shortestText (n : Number) : Bytes :=
  let d := n.shortest
  let fixed := n.positional d
  if fixed.length ≤ (scientific d).length then fixed else scientific d

def text (n : Number) : Bytes :=
  if n.isNaN then n.signText ++ "nan"
  else if !n.isFinite then n.signText ++ "inf"
  else if n.isWhole && n.wholeMagnitude < Nat.pow 10 18 then
    Bytes.onlyIf (n.isNegative && n.wholeMagnitude != 0) "-" ++ Bytes.decimal n.wholeMagnitude
  else n.signText ++ n.shortestText

def fixedText (n : Number) (places : Nat) : Bytes :=
  if n.isNaN then n.signText ++ "nan"
  else if !n.isFinite then n.signText ++ "inf"
  else n.signText ++ pointed (Bytes.decimal (n.roundPlaces places)) places

end StepsLang.Number
