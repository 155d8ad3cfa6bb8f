/-!
Byte strings. Program text, names, text values and every line of output are sequences of bytes,
because a text may hold bytes that are not well-formed UTF-8 and must come back unchanged.
-/

namespace StepsLang

abbrev Bytes := List UInt8

namespace Byte

abbrev tab : UInt8 := 9
abbrev lineFeed : UInt8 := 10
abbrev carriageReturn : UInt8 := 13
abbrev space : UInt8 := 32
abbrev quote : UInt8 := 34
abbrev hash : UInt8 := 35
abbrev plus : UInt8 := 43
abbrev comma : UInt8 := 44
abbrev minus : UInt8 := 45
abbrev dot : UInt8 := 46
abbrev slash : UInt8 := 47
abbrev zero : UInt8 := 48
abbrev colon : UInt8 := 58
abbrev backslash : UInt8 := 92
abbrev openBrace : UInt8 := 123
abbrev closeBrace : UInt8 := 125

def isDigit (b : UInt8) : Bool := 48 ≤ b && b ≤ 57

def isUpper (b : UInt8) : Bool := 65 ≤ b && b ≤ 90

def isLower (b : UInt8) : Bool := 97 ≤ b && b ≤ 122

def isLetter (b : UInt8) : Bool := isUpper b || isLower b

def startsName (b : UInt8) : Bool := isLetter b || b == 95

def isNameByte (b : UInt8) : Bool := isLetter b || isDigit b || b == 95

def isContinuation (b : UInt8) : Bool := b &&& 0xC0 == 0x80

def isBlank (b : UInt8) : Bool := b == 32 || (9 ≤ b && b ≤ 13)

/-- Case maps know ASCII only, so bytes of longer UTF-8 sequences stay as they are. -/
def toUpper (b : UInt8) : UInt8 := if isLower b then b - 32 else b

def toLower (b : UInt8) : UInt8 := if isUpper b then b + 32 else b

def digitValue (b : UInt8) : Nat := b.toNat - 48

def hexValue? (b : UInt8) : Option Nat :=
  if isDigit b then some (b.toNat - 48)
  else if 97 ≤ b && b ≤ 102 then some (b.toNat - 87)
  else if 65 ≤ b && b ≤ 70 then some (b.toNat - 55)
  else none

end Byte

namespace Bytes

def ofString (s : String) : Bytes := s.toUTF8.data.toList

instance : Coe String Bytes := ⟨ofString⟩

def decimal (n : Nat) : Bytes := (Nat.toDigits 10 n).map fun c => c.toNat.toUInt8

def digitsValue (digits : Bytes) : Nat :=
  digits.foldl (fun n d => 10 * n + Byte.digitValue d) 0

def readDecimal? (limit : Nat) (s : Bytes) : Option Nat :=
  if !s.isEmpty && s.all Byte.isDigit && digitsValue s ≤ limit then some (digitsValue s) else none

def startsWith (s p : Bytes) : Bool := p.isPrefixOf s

def endsWith (s p : Bytes) : Bool := p.isSuffixOf s

def find? (needle : Bytes) (s : Bytes) : Option Nat :=
  go 0 s
where
  go (i : Nat) : Bytes → Option Nat
    | [] => if needle.isEmpty then some i else none
    | b :: rest => if needle.isPrefixOf (b :: rest) then some i else go (i + 1) rest

def contains (s needle : Bytes) : Bool := (find? needle s).isSome

def join (separator : Bytes) : List Bytes → Bytes
  | [] => []
  | [s] => s
  | s :: t :: rest => s ++ separator ++ join separator (t :: rest)

def trimEnd (p : UInt8 → Bool) (s : Bytes) : Bytes := (s.reverse.dropWhile p).reverse

def trim (p : UInt8 → Bool) (s : Bytes) : Bytes := trimEnd p (s.dropWhile p)

def dropReturn (s : Bytes) : Bytes :=
  if s.getLast? == some Byte.carriageReturn then s.dropLast else s

def splitLines (s : Bytes) : List Bytes := go [] s
where
  go (line : Bytes) : Bytes → List Bytes
    | [] => [line.reverse]
    | b :: rest =>
      if b == Byte.lineFeed then line.reverse :: go [] rest else go (b :: line) rest

def lines (s : Bytes) : List Bytes :=
  let parts := splitLines s
  if parts.getLast? == some [] then parts.dropLast else parts

def padLeft (width : Nat) (s : Bytes) : Bytes :=
  List.replicate (width - s.length) Byte.space ++ s

def onlyIf (condition : Bool) (s : Bytes) : Bytes := if condition then s else []

end Bytes

end StepsLang
