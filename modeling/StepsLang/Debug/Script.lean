import StepsLang.Debug.Debugger
import StepsLang.Files

namespace StepsLang.Debug

abbrev Script := List Command

namespace Script

def next : Script → Command × Script
  | [] => (.proceed, [])
  | c :: rest => (c, rest)

/-- The 64-bit number that a text begins with, after blanks and a sign. A number with a minus sign
is counted back from `2^64`. -/
def count? (text : Bytes) : Option Nat :=
  let s := text.dropWhile Byte.isBlank
  let negative := s.head? == some Byte.minus
  let signed := negative || s.head? == some Byte.plus
  let digits := (if signed then s.tail else s).takeWhile Byte.isDigit
  let n := Bytes.digitsValue digits
  if digits.isEmpty || Nat.pow 2 64 ≤ n then none
  else some (if negative then (Nat.pow 2 64 - n) % Nat.pow 2 64 else n)

def commands? (line : Bytes) : Option (List Command) :=
  if line == "continue" then some [.proceed]
  else if line == "step" then some [.resume .stepInto]
  else if line == "over" then some [.resume .stepOver]
  else if line == "out" then some [.resume .stepOut]
  else if line == "stop" then some [.stop]
  else if line.startsWith "step " then
    match count? (line.drop 5) with
    | some (n + 1) => some (List.replicate (n + 1) (.resume .stepInto))
    | _ => none
  else none

def isIdle (line : Bytes) : Bool := line.isEmpty || line.head? == some Byte.hash

def ofText (text : Bytes) : Script × List Bytes :=
  let lines := ((Bytes.lines text).map Bytes.dropReturn).filter (!isIdle ·)
  (lines.flatMap fun line => (commands? line).getD [],
   (lines.filter fun line => (commands? line).isNone).map fun line =>
     "[DEBUG] ignored: " ++ line ++ "\n")

def ofFile (fs : Files) (path : Bytes) : Script × List Bytes :=
  match fs.open? path with
  | some text => ofText text
  | none => ([], ["[DEBUG] unable to open " ++ path ++ "\n"])

end Script

end StepsLang.Debug
