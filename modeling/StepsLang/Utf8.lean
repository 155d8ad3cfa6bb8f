import StepsLang.Bytes

/-!
UTF-8 in the strict sense: no overlong forms, no surrogates, nothing above U+10FFFF. Code points
of an arbitrary text are counted by their first bytes, so every text has a length.
-/

namespace StepsLang.Utf8

def shape? (b : UInt8) : Option (Nat × UInt8 × UInt8) :=
  if b < 0x80 then some (1, 0x80, 0xBF)
  else if 0xC2 ≤ b && b ≤ 0xDF then some (2, 0x80, 0xBF)
  else if b == 0xE0 then some (3, 0xA0, 0xBF)
  else if b == 0xED then some (3, 0x80, 0x9F)
  else if 0xE1 ≤ b && b ≤ 0xEF then some (3, 0x80, 0xBF)
  else if b == 0xF0 then some (4, 0x90, 0xBF)
  else if b == 0xF4 then some (4, 0x80, 0x8F)
  else if 0xF1 ≤ b && b ≤ 0xF3 then some (4, 0x80, 0xBF)
  else none

def sequence? : Bytes → Option Nat
  | [] => none
  | b :: rest =>
    match shape? b with
    | none => none
    | some (1, _, _) => some 1
    | some (n, low, high) =>
      match rest with
      | [] => none
      | c :: more =>
        if low ≤ c && c ≤ high && n - 2 ≤ more.length
            && (more.take (n - 2)).all Byte.isContinuation then some n else none

structure Malformed where
  offset : Nat
  line : Nat
  column : Nat
  deriving DecidableEq, Repr

def malformed? (s : Bytes) (start : Malformed) : Option Malformed :=
  go 0 s start
where
  /-- The number counts the bytes that still belong to the character found last. -/
  go : Nat → Bytes → Malformed → Option Malformed
    | _, [], _ => none
    | owed + 1, _ :: rest, place => go owed rest place
    | 0, b :: rest, place =>
      match sequence? (b :: rest) with
      | none => some place
      | some n =>
        go (n - 1) rest
          (if b == Byte.lineFeed then ⟨place.offset + n, place.line + 1, 1⟩
           else ⟨place.offset + n, place.line, place.column + 1⟩)

def isValid (s : Bytes) : Bool := (malformed? s ⟨0, 1, 1⟩).isNone

/-- Cuts a text before every byte that starts a character, so that the parts always join to the
text. Continuation bytes at the very start are one part of their own. -/
def characters (s : Bytes) : List Bytes := s.foldr put []
where
  put (b : UInt8) : List Bytes → List Bytes
    | [] => [[b]]
    | c :: cs => if c.head?.any Byte.isContinuation then (b :: c) :: cs else [b] :: c :: cs

def length (s : Bytes) : Nat := s.countP fun b => !Byte.isContinuation b

def offset (s : Bytes) (n : Nat) : Nat :=
  match s with
  | [] => 0
  | b :: rest =>
    if Byte.isContinuation b then offset rest n + 1
    else match n with
      | 0 => 0
      | n + 1 => offset rest n + 1

end StepsLang.Utf8
