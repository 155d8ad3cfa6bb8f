import StepsLang.Expression.Basic
import StepsLang.Token.Cursor

/-!
Reading expressions. Nine levels bind from the loosest to the tightest: `or`, `and`, `not`, one
comparison at most, sums, products, leading operators, trailing operators, and single values. Each
level is a reader over the next one; `inner` reads the expressions between brackets, which start
again at the loosest level.
-/

namespace StepsLang.Expression

def comparison? (l : Location) : Kind → Option (Expression → Expression → Expression)
  | .isEqualTo | .equals => some (binary l .equal)
  | .isNotEqualTo => some (binary l .notEqual)
  | .isLessThan => some (binary l .less)
  | .isGreaterThan => some (binary l .greater)
  | .isLessThanOrEqualTo => some (binary l .lessOrEqual)
  | .isGreaterThanOrEqualTo => some (binary l .greaterOrEqual)
  | .isIn => some (word l .isIn)
  | .contains => some (word l .contains)
  | .startsWith => some (word l .startsWith)
  | .endsWith => some (word l .endsWith)
  | _ => none

def testedType? : Kind → Option TypeName
  | .isANumber => some .number
  | .isAText => some .text
  | .isABoolean => some .boolean
  | .isAList => some .list
  | .isATable => some .table
  | _ => none

def sum? (l : Location) : Kind → Option (Expression → Expression → Expression)
  | .plus => some (binary l .add)
  | .minus => some (binary l .subtract)
  | .addedTo => some (word l .addedTo)
  | .splitBy => some (word l .splitBy)
  | _ => none

def product? (l : Location) : Kind → Option (Expression → Expression → Expression)
  | .star => some (binary l .multiply)
  | .slash => some (binary l .divide)
  | .modulo => some (binary l .modulo)
  | _ => none

def disjunction? (l : Location) : Kind → Option (Expression → Expression → Expression)
  | .or => some (binary l .or)
  | _ => none

def conjunction? (l : Location) : Kind → Option (Expression → Expression → Expression)
  | .and => some (binary l .and)
  | _ => none

namespace Parser
open Reader

def leftAssociative (operator? : Location → Kind → Option (Expression → Expression → Expression))
    (operand : Reader Expression) : Reader Expression := do
  let first ← operand
  let more ← many do
    let t ← peek
    match operator? t.location t.kind with
    | none => return none
    | some make =>
      discard advance
      return some (make, ← operand)
  return more.foldl (fun left (make, right) => make left right) first

def moreElements (element : Reader α) : Reader (List α) := many do
  if ← skip? .comma then
    if ← check .rightBracket then return none else return some (← element)
  else return none

def emptyTable : Reader Bool := do
  if ← check .colon then
    if ← checkAt 1 .rightBracket then
      discard advance
      discard advance
      return true
  return false

def bracketed (inner : Reader Expression) : Reader Expression := do
  let l := (← advance).location
  if ← skip? .rightBracket then return list l []
  if ← emptyTable then return table l []
  let first ← inner
  if ← skip? .colon then
    let value ← inner
    let more ← moreElements do
      let key ← inner
      discard (expect .colon ":")
      return (key, ← inner)
    discard (expect .rightBracket "]")
    return table l ((first, value) :: more)
  else
    let more ← moreElements inner
    discard (expect .rightBracket "]")
    return list l (first :: more)

/-- A single value, or anything in parentheses. Where there is none, `nothing` stands in and no
token is taken. -/
def primary (inner : Reader Expression) : Reader Expression := do
  let t ← peek
  let l := t.location
  match t.kind with
  | .numeral =>
    discard advance
    return number l t.value
  | .quoted =>
    discard advance
    return text l t.text
  | .true =>
    discard advance
    return boolean l true
  | .false =>
    discard advance
    return boolean l false
  | .nothing =>
    discard advance
    return nothing l
  | .input =>
    discard advance
    return input l
  | .name =>
    discard advance
    return name l t.text
  | .leftBracket => bracketed inner
  | .leftParen =>
    discard advance
    let e ← inner
    discard (expect .rightParen ")")
    return e
  | _ =>
    report (Report.fill .valueExpected l [("found", t.describe)])
    return nothing l

/-- Takes `as decimal (`, if it is here. The word `decimal` is a name elsewhere. -/
def decimalPlaces : Reader Bool := do
  let next ← peekAt 1
  if next.kind == .name && next.text == "decimal" then
    if ← checkAt 2 .leftParen then
      discard advance
      discard advance
      discard advance
      return true
  return false

def trailer (inner : Reader Expression) : Reader (Option (Expression → Expression)) := do
  let t ← peek
  match t.kind with
  | .leftBracket =>
    discard advance
    let key ← inner
    discard (expect .rightBracket "]")
    return some (index t.location · key)
  | .as =>
    if ← decimalPlaces then
      let places ← inner
      discard (expect .rightParen ")")
      return some (decimal t.location · places)
    else
      discard advance
      match (← peek).kind with
      | .number =>
        discard advance
        return some (convert t.location .number)
      | .text =>
        discard advance
        return some (convert t.location .text)
      | .boolean =>
        discard advance
        return some (convert t.location .boolean)
      | _ =>
        expected "number, text, boolean or decimal(n)"
        return none
  | _ => return none

def trailed (inner : Reader Expression) : Reader Expression := do
  let e ← primary inner
  return (← many (trailer inner)).foldl (fun e f => f e) e

def leader (inner : Reader Expression) : Reader (Option (Expression → Expression)) := do
  let t ← peek
  match t.kind with
  | .minus =>
    discard advance
    return some (negate t.location)
  | .lengthOf =>
    discard advance
    return some (lengthOf t.location)
  | .typeOf =>
    discard advance
    return some (typeOf t.location)
  | .characterAt =>
    discard advance
    let position ← trailed inner
    discard (expect .of "of")
    return some (word t.location .characterAt position)
  | _ => return none

def led (inner : Reader Expression) : Reader Expression := do
  let before ← many (leader inner)
  let e ← trailed inner
  return before.foldr (fun f e => f e) e

def product (inner : Reader Expression) : Reader Expression :=
  leftAssociative product? (led inner)

def sum (inner : Reader Expression) : Reader Expression := leftAssociative sum? (product inner)

def comparison (inner : Reader Expression) : Reader Expression := do
  let left ← sum inner
  let t ← peek
  match comparison? t.location t.kind, testedType? t.kind with
  | some make, _ =>
    discard advance
    return make left (← sum inner)
  | none, some type =>
    discard advance
    return isA t.location type left
  | none, none => return left

def negation (inner : Reader Expression) : Reader Expression := do
  let nots ← many (take? .not)
  let e ← comparison inner
  return nots.foldr (fun t e => Expression.not t.location e) e

def conjunction (inner : Reader Expression) : Reader Expression :=
  leftAssociative conjunction? (negation inner)

def disjunction (inner : Reader Expression) : Reader Expression :=
  leftAssociative disjunction? (conjunction inner)

/-- An expression with brackets inside brackets, one level of them for every entry of `bound`. -/
def nested : List β → Reader Expression
  | [] => return nothing {}
  | _ :: bound => disjunction (nested bound)

/-- An expression. Each bracket is a token, so there are no more levels of them than tokens. -/
def expression : Reader Expression := do nested (← get).rest

def standalone : Reader Expression := do
  beginLine
  skipNewlines
  let e ← expression
  skipNewlines
  if !(← check .endOfFile) then unexpected
  return e

end Parser

end StepsLang.Expression
