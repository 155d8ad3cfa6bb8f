import StepsLang.Expression.Parser
import StepsLang.Statement.Basic

/-!
Reading statements. A statement begins a line, so the first fault in it is reported; one that cannot
be made sense of is left out, together with the block under it. `inner` reads the statements of the
blocks inside a statement.
-/

namespace StepsLang.Statement.Parser
open Reader Expression.Parser

def foreignWords : List (Bytes × Bytes) :=
  [("else", "otherwise"), ("elif", "otherwise if"), ("elseif", "otherwise if"),
   ("print", "display"), ("var", "set"), ("let", "set"), ("try", "attempt:"),
   ("catch", "if unsuccessful:"), ("except", "if unsuccessful:"), ("finally", "then continue:"),
   ("for", "repeat for each"), ("def", "step:"), ("function", "step:")]

def giveUp : Reader (Option α) := do
  resync
  return none

def display : Reader (Option Statement) := do
  let l := (← advance).location
  let e ← expression
  discard (expectEndOfLine "display")
  return some (.display l e)

def indexed : Reader (Option (Option Expression)) := do
  if ← skip? .leftBracket then
    let e ← expression
    if (← expect .rightBracket "]").isSome then return some (some e) else return none
  else return some none

def set : Reader (Option Statement) := do
  let l := (← advance).location
  let some name ← expectName | giveUp
  let some index ← indexed | giveUp
  let some _ ← expect .to "to" | giveUp
  let e ← expression
  discard (expectEndOfLine "set")
  match index with
  | some i => return some (.setIndex l name.text i e)
  | none => return some (.set l name.text e)

def arguments : Reader (List Expression) := do
  if ← skip? .withWord then
    let first ← expression
    let more ← many do
      if ← skip? .comma then return some (← expression) else return none
    return first :: more
  else return []

def target : Reader (Option (Option Bytes)) := do
  if ← skip? .storingResultIn then
    match ← expectName with
    | some t => return some (some t.text)
    | none => return none
  else return some none

def call : Reader (Option Statement) := do
  let l := (← advance).location
  let some name ← expectName | giveUp
  let args ← arguments
  let some into ← target | giveUp
  discard (expectEndOfLine "call")
  return some (.call l name.text args into)

def giveBack : Reader (Option Statement) := do
  let l := (← advance).location
  let e ←
    if ← check .newline then pure none
    else if ← atBlockEnd then pure none
    else some <$> expression
  discard (expectEndOfLine "return")
  return some (.giveBack l e)

def exit : Reader (Option Statement) := do
  let l := (← advance).location
  discard (expectEndOfLine "exit")
  return some (.exit l)

def listChange (make : Location → Expression → Bytes → Statement) (link : Kind)
    (linkText statement : Bytes) : Reader (Option Statement) := do
  let l := (← advance).location
  let e ← expression
  let some _ ← expect link linkText | giveUp
  let some name ← expectName | giveUp
  discard (expectEndOfLine statement)
  return some (make l e name.text)

def note : Reader (Option Statement) := do
  let t ← advance
  discard (expectEndOfLine "note:")
  return some (.note t.location t.text)

abbrev Inner := Reader (Option Statement)

def block (inner : Inner) (keyword : Bytes) : Reader (List Statement) := do
  skipNewlines
  if ← skip? .indent then lines (Option.toList <$> inner)
  else
    expectedBlock keyword
    return []

def part (inner : Inner) (k : Kind) (keyword : Bytes) : Reader (Option (List Statement)) := do
  if ← check k then
    beginLine
    discard advance
    if ← expectEndOfLine keyword then return some (← block inner keyword) else return none
  else return none

def otherwiseIf (inner : Inner) :
    Reader (Option (List (Location × Expression × List Statement))) := do
  if ← check .otherwiseIf then
    beginLine
    let l := (← advance).location
    let e ← expression
    if ← expectEndOfLine "otherwise if" then
      return some [(l, e, ← block inner "otherwise if")]
    else return some []
  else return none

def branch (inner : Inner) : Reader (Option Statement) := do
  let l := (← advance).location
  let e ← expression
  if !(← expectEndOfLine "if") then return none
  let body ← block inner "if"
  let more ← many (otherwiseIf inner)
  let otherwise ← part inner .otherwise "otherwise"
  return some (.branch l ((l, e, body) :: more.flatten) otherwise)

def item : Reader (Option Bytes) := do
  match ← expectName with
  | none => return none
  | some name => return (← expect .inWord "in").map fun _ => name.text

def loop (inner : Inner) : Reader (Option Statement) := do
  let l := (← advance).location
  if ← skip? .forEach then
    let some name ← item | giveUp
    let e ← expression
    if !(← expectEndOfLine "repeat for each") then return none
    return some (.repeatForEach l name e (← block inner "repeat for each"))
  else if ← skip? .whileWord then
    let e ← expression
    if !(← expectEndOfLine "repeat while") then return none
    return some (.repeatWhile l e (← block inner "repeat while"))
  else
    let e ← expression
    let some _ ← expect .times "times" | giveUp
    if !(← expectEndOfLine "repeat") then return none
    return some (.repeatTimes l e (← block inner "repeat"))

def attempt (inner : Inner) : Reader (Option Statement) := do
  let l := (← advance).location
  if !(← expectEndOfLine "attempt:") then return none
  let body ← block inner "attempt:"
  let unsuccessful ← part inner .ifUnsuccessful "if unsuccessful:"
  let continuation ← part inner .thenContinue "then continue:"
  return some (.attempt l body unsuccessful continuation)

def misplacedName (t : Token) : Reader Unit :=
  match foreignWords.lookup t.text with
  | some correct =>
    report (Report.fill .foreignWord t.location [("correct", correct), ("found", t.text)])
  | none =>
    unexpected (some
      ("Unexpected '" ++ t.text
        ++ "' here. Statements start with a keyword such as 'set' or 'display'."))

def misplaced (t : Token) : Reader Unit :=
  match t.kind with
  | .otherwise | .otherwiseIf =>
    unexpected (some ("'" ++ t.text ++ "' must directly follow an 'if' block."))
  | .ifUnsuccessful | .thenContinue =>
    unexpected (some ("'" ++ t.text ++ "' must directly follow an 'attempt:' block."))
  | .whileWord =>
    report (Report.fill .foreignWord t.location
      [("correct", "repeat while"), ("found", "while")])
  | .indent => unexpected (some "Unexpected indentation.")
  | .name => misplacedName t
  | _ => unexpected

def dispatch (inner : Inner) : Reader (Option Statement) := do
  beginLine
  let t ← peek
  match t.kind with
  | .display => display
  | .set => set
  | .call => call
  | .returnWord => giveBack
  | .exit => exit
  | .ifWord => branch inner
  | .repeatWord => loop inner
  | .attempt => attempt inner
  | .add => listChange .addToList .to "to" "add"
  | .remove => listChange .removeFromList .fromWord "from" "remove"
  | .note => note
  | _ =>
    misplaced t
    giveUp

/-- A statement with blocks inside blocks, one level of them for every entry of `bound`. -/
def nested : List β → Reader (Option Statement)
  | [] => return none
  | _ :: bound => dispatch (nested bound)

/-- A statement. Each block inside it opens with a token, so there are no more levels of them than
tokens. -/
def statement : Reader (Option Statement) := do nested (← get).rest

def openBlock : Reader (List Statement) := lines (Option.toList <$> statement)

/-- Statements up to the end of the text. An end of block that nothing opened is passed over. -/
def statements : Reader (List Statement) := do
  let parts ← many do
    skipNewlines
    if ← check .endOfFile then return none
    else if ← skip? .dedent then return some []
    else return some (← statement).toList
  return parts.flatten

end StepsLang.Statement.Parser
