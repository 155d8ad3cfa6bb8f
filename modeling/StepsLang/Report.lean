import StepsLang.EditDistance
import StepsLang.Fault
import StepsLang.Sources
import StepsLang.Template

namespace StepsLang

/-- One fault found, in words. `context` holds source lines quoted in advance, the first of which
has number `contextStart` (0 means the line of the location). -/
structure Report where
  code : Bytes
  message : Bytes
  hint : Bytes := []
  location : Location := {}
  context : List Bytes := []
  contextStart : Nat := 0
  deriving DecidableEq, Repr, Inhabited

namespace Report

def phase (r : Report) : Phase := Phase.ofCode r.code

def fill (f : Fault) (l : Location) (values : List (Bytes × Bytes)) : Report :=
  { code := f.code, message := Template.fill values f.message,
    hint := Template.fill values f.hint, location := l }

def tell (f : Fault) (l : Location) (message hint : Bytes) : Report :=
  { code := f.code, message, hint, location := l }

def ofCode (code : Bytes) (l : Location) (values : List (Bytes × Bytes)) : Report :=
  match Fault.ofCode? code with
  | some f => fill f l values
  | none => { code, message := "Unknown error " ++ code, location := l }

def listing (names : List Bytes) (limit : Nat) : Bytes :=
  if names.isEmpty then "(none)"
  else
    Bytes.join ", " (names.take limit) ++ Bytes.onlyIf (limit < names.length) ", ..."

def undefinedVariable (name : Bytes) (l : Location) (visible : List Bytes) : Report :=
  let r := fill .undefinedVariable l [("name", name)]
  match EditDistance.suggestion? name visible with
  | some best => { r with hint := "Did you mean '" ++ best ++ "'?\n\n" ++ r.hint }
  | none => r

def undefinedStep (name : Bytes) (l : Location) (available : List Bytes) : Report :=
  let names := listing available 5
  match EditDistance.suggestion? name available with
  | some best =>
    fill .undefinedStep l [("name", name), ("suggestion", best), ("available", names)]
  | none =>
    tell .undefinedStep l (Template.fill [("name", name)] Fault.undefinedStep.message)
      ("Available steps: " ++ names)

def divisionByZero (l : Location) : Report := fill .divisionByZero l []

def fixedType (name declared actual : Bytes) (l : Location) : Report :=
  fill .fixedType l [("variable", name), ("declared_type", declared), ("new_type", actual)]

def operandTypes (operation left right : Bytes) (l : Location) (advice : Bytes) : Report :=
  fill .operandTypes l
    [("operation", operation), ("left_type", left), ("right_type", right),
     ("advice",
      if advice.isEmpty then
        "Convert one side first, for example with 'as number' or 'as text'."
      else advice)]

def lineWord (n : Nat) : Nat := n % Nat.pow 2 32

def place (l : Location) (sources : Option Sources) : Bytes :=
  let path := match sources with
    | some s => if l.hasFile then s.path l.file else []
    | none => []
  if path.isEmpty then
    "  at line " ++ Bytes.decimal l.line
      ++ Bytes.onlyIf l.hasColumn (", column " ++ Bytes.decimal l.column)
  else
    "  at " ++ path ++ ":" ++ Bytes.decimal l.line ++ ":" ++ Bytes.decimal l.column
      ++ Bytes.onlyIf (l.hasEnd && l.endLine != l.line)
        ("-" ++ Bytes.decimal l.endLine ++ ":" ++ Bytes.decimal l.endColumn)

def quoteLine (width : Nat) (l : Location) (number : Nat) (text : Bytes) : Bytes :=
  let marked := number == l.line
  "\n" ++ (if marked then ">>> " else "    ") ++ Bytes.padLeft width (Bytes.decimal number)
    ++ " | " ++ text
    ++ Bytes.onlyIf (marked && l.hasColumn)
      ("\n" ++ List.replicate (4 + width + 3 + l.column - 1) Byte.space ++ "^")

def quote (first : Nat) (lines : List Bytes) (l : Location) : Bytes :=
  let width := (Bytes.decimal (lineWord (first + lines.length + (Nat.pow 2 32 - 1)))).length
  (lines.mapIdx fun i text => quoteLine width l (lineWord (first + i)) text).flatten

def linesAround (s : Sources) (l : Location) (radius : Nat) : Nat × List Bytes :=
  let count := lineWord (s.lineCount l.file)
  if !l.hasLine || count < l.line then (0, [])
  else
    let first := if radius < l.line then l.line - radius else 1
    let last := min count (lineWord (l.line + radius))
    -- Counting in words never gets past the greatest one, but no loaded text has so many lines.
    (first, (List.range' first (last + 1 - first)).map (s.line l.file))

def attachContext (r : Report) (s : Sources) (radius : Nat) : Report :=
  match linesAround s r.location radius with
  | (_, []) => r
  | (first, lines) => { r with context := lines, contextStart := first }

/-- The quoted lines of a report: the ones attached in advance, or else up to two lines on either
side of the location. -/
def excerpt (r : Report) (sources : Option Sources) : Bytes :=
  if !r.context.isEmpty then
    "\n" ++ quote (if r.contextStart == 0 then r.location.line else r.contextStart)
      r.context r.location
  else
    match sources with
    | none => []
    | some s =>
      if r.location.hasFile then
        match linesAround s r.location 2 with
        | (_, []) => []
        | (first, lines) => "\n" ++ quote first lines r.location
      else []

def format (r : Report) (sources : Option Sources) : Bytes :=
  "Error " ++ r.code ++ ": " ++ r.message
    ++ Bytes.onlyIf r.location.hasLine ("\n" ++ place r.location sources)
    ++ Bytes.onlyIf (!r.hint.isEmpty) ("\nHint: " ++ r.hint)
    ++ r.excerpt sources

def formatAll (rs : List Report) (sources : Option Sources) : Bytes :=
  Bytes.join "\n" (rs.map fun r => r.format sources ++ "\n")

end Report

end StepsLang
