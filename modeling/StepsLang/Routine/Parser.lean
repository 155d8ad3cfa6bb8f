import StepsLang.Routine.Basic
import StepsLang.Statement.Parser

namespace StepsLang.Routine.Parser
open Reader

def valueType? : Kind → Option TypeName
  | .number => some .number
  | .text => some .text
  | .boolean => some .boolean
  | .list => some .list
  | .table => some .table
  | _ => none

def typeName : Reader (Option TypeName) := do
  match valueType? (← peek).kind with
  | some type =>
    discard advance
    return some type
  | none =>
    expected "number, text, boolean, list or table"
    return none

def optionalType : Reader (Option TypeName) := do
  if ← skip? .as then typeName else return none

def typed (t : Token) : Reader TypedName := do
  return { location := t.location, name := t.text, type := ← optionalType }

def names : List β → Reader (List TypedName)
  | [] => return []
  | _ :: bound => do
    if ← check .newline then return []
    if ← check .endOfFile then return []
    match ← expectName with
    | none => return []
    | some t =>
      let first ← typed t
      if ← skip? .comma then return first :: (← names bound) else return [first]

def parameters : Reader (List TypedName) := do
  if ← skip? .nothing then return [] else names (← get).rest

def returned : Reader (Option TypedName) := do
  if ← skip? .nothing then return none
  match ← expectName with
  | none => return none
  | some t => return some (← typed t)

def declaration : Reader (List Declaration) := do
  beginLine
  if ← skip? .note then
    discard (expectEndOfLine "note:")
    return []
  let some t ← expectName | resync; return []
  let some _ ← expect .as "as" | resync; return []
  let some type ← typeName | resync; return []
  let fixed ← skip? .fixed
  discard (expectEndOfLine "declare:")
  return [{ location := t.location, name := t.text, type, fixed }]

def declarations : Reader (List Declaration) := do
  skipNewlines
  if ← skip? .indent then lines declaration
  else
    expectedBlock "declare:"
    return []

/-- What a section changes in the routine it stands in; a later section of the same kind
takes the place of an earlier one. -/
abbrev Amendment := Routine → Routine

def section? : Reader (Option Amendment) := do
  match (← peek).kind with
  | .expects =>
    discard advance
    let ps ← parameters
    discard (expectEndOfLine "expects:")
    return some ({ · with parameters := ps })
  | .returns =>
    discard advance
    let r ← returned
    discard (expectEndOfLine "returns:")
    return some ({ · with returns := r })
  | .declare =>
    discard advance
    if ← expectEndOfLine "declare:" then
      let ds ← declarations
      return some ({ · with declarations := ds })
    else return some id
  | .doWord =>
    discard advance
    if ← expectEndOfLine "do:" then
      let body ← Statement.Parser.block Statement.Parser.statement "do:"
      return some ({ · with hasDo := true, body })
    else return some ({ · with hasDo := true })
  | .note =>
    discard advance
    discard (expectEndOfLine "note:")
    return some id
  | _ => return none

def strayLine (owner : Bytes) : Reader Unit := do
  let t ← peek
  unexpected (some ("Unexpected '" ++ t.describe ++ "' in " ++ owner ++ " definition."))
  resync

def missingDo (r : Routine) : Reader Unit := do
  if !r.hasDo then
    beginLine
    report (Report.fill .doMissing r.location [])

def riserLine : Reader (List Amendment) := do
  beginLine
  match ← section? with
  | some change => return [change]
  | none =>
    strayLine "riser"
    return []

def riser (l : Location) : Reader (Option Routine) := do
  let some name ← expectName | resync; return none
  if !(← expectEndOfLine "riser:") then return none
  skipNewlines
  if ← skip? .indent then
    let changes ← lines riserLine
    let r := changes.foldl (fun r change => change r) { location := l, name := name.text }
    missingDo r
    return some r
  else
    expectedBlock "riser:"
    return none

inductive StepPart
  | floor (l : Location) (name : Option Bytes)
  | riser (r : Option Routine)
  | amend (change : Amendment)

def StepPart.apply (s : Step) : StepPart → Step
  | .floor l none => { s with floorLocation := l }
  | .floor l (some name) => { s with floorLocation := l, floor := name }
  | .riser r => { s with risers := s.risers ++ r.toList }
  | .amend change => { s with toRoutine := change s.toRoutine }

def StepPart.namesFloor : StepPart → Bool
  | .floor _ (some _) => true
  | _ => false

def stepLine : Reader (List StepPart) := do
  beginLine
  match (← peek).kind with
  | .belongsTo =>
    let l := (← advance).location
    match ← expectName with
    | none =>
      resync
      return [.floor l none]
    | some t =>
      discard (expectEndOfLine "belongs to:")
      return [.floor l (some t.text)]
  | .riser =>
    let l := (← advance).location
    return [.riser (← riser l)]
  | _ =>
    match ← section? with
    | some change => return [.amend change]
    | none =>
      strayLine "step"
      return []

/-- The first line of a file: its word, and the name after it (empty when it is missing). The last
result says whether the line was whole. -/
def header (k : Kind) (keyword : Bytes) : Reader (Option (Location × Bytes × Bool)) := do
  beginLine
  skipNewlines
  match ← expect k keyword with
  | none => return none
  | some t =>
    let name ← expectName
    let whole ← expectEndOfLine keyword
    return some (t.location, (name.map (·.text)).getD [], whole)

def openFile (keyword : Bytes) : Reader Bool := do
  skipNewlines
  if ← skip? .indent then return true
  else
    beginLine
    expectedBlock keyword
    return false

def building : Reader (Option Building) := do
  let some (location, name, whole) ← header .building "building:" | return none
  if !whole then return some { location, name }
  if !(← openFile "building:") then return some { location, name }
  let body ← Statement.Parser.openBlock
  skipNewlines
  if !(← check .endOfFile) then
    beginLine
    let t ← peek
    unexpected (some ("Unexpected '" ++ t.describe ++ "' after the building body."))
  return some { location, name, body }

def floorLine : Reader (List FloorEntry) := do
  beginLine
  if ← skip? .note then
    discard (expectEndOfLine "note:")
    return []
  match ← take? .step with
  | none =>
    let t ← peek
    unexpected (some ("Expected 'step:' in floor definition, found '" ++ t.describe ++ "'."))
    resync
    return []
  | some t =>
    match ← expectName with
    | none =>
      resync
      return []
    | some name =>
      discard (expectEndOfLine "step:")
      return [{ location := t.location, name := name.text }]

def floor : Reader (Option Floor) := do
  let some (location, name, whole) ← header .floor "floor:" | return none
  if !whole then return some { location, name }
  if !(← openFile "floor:") then return some { location, name }
  return some { location, name, steps := ← lines floorLine }

def missingFloor (s : Step) : Reader Unit := do
  beginLine
  report (Report.tell .stepMisplaced s.location
    ("Step '" ++ s.name ++ "' does not say which floor it belongs to.")
    ("Add a line 'belongs to: <floor name>' right after 'step: " ++ s.name ++ "'."))

def step : Reader (Option Step) := do
  let some (location, name, whole) ← header .step "step:" | return none
  let start : Step := { location, name }
  if !whole then return some start
  if !(← openFile "step:") then return some start
  let parts ← lines stepLine
  let s := parts.foldl StepPart.apply start
  if !parts.any StepPart.namesFloor then missingFloor s
  missingDo s.toRoutine
  return some s

end StepsLang.Routine.Parser
