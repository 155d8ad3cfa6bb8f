import StepsLang.Location
import StepsLang.Bytes
import StepsLang.Number.Basic

namespace StepsLang

inductive TypeName
  | number | text | boolean | list | table
  deriving DecidableEq, Repr, Inhabited

def TypeName.spelling : TypeName → Bytes
  | .number => "number"
  | .text => "text"
  | .boolean => "boolean"
  | .list => "list"
  | .table => "table"

def TypeName.all : List TypeName := [.number, .text, .boolean, .list, .table]

def TypeName.ofSpelling? (s : Bytes) : Option TypeName := all.find? (·.spelling == s)

inductive Operator
  | add | subtract | multiply | divide | modulo
  | equal | notEqual | less | greater | lessOrEqual | greaterOrEqual
  | and | or
  deriving DecidableEq, Repr, Inhabited

def Operator.spelling : Operator → Bytes
  | .add => "+"
  | .subtract => "-"
  | .multiply => "*"
  | .divide => "/"
  | .modulo => "modulo"
  | .equal => "is equal to"
  | .notEqual => "is not equal to"
  | .less => "is less than"
  | .greater => "is greater than"
  | .lessOrEqual => "is less than or equal to"
  | .greaterOrEqual => "is greater than or equal to"
  | .and => "and"
  | .or => "or"

def Operator.all : List Operator :=
  [.add, .subtract, .multiply, .divide, .modulo, .equal, .notEqual, .less, .greater, .lessOrEqual,
   .greaterOrEqual, .and, .or]

def Operator.ofSpelling? (s : Bytes) : Option Operator := all.find? (·.spelling == s)

inductive WordOperator
  | addedTo | splitBy | characterAt | contains | startsWith | endsWith | isIn
  deriving DecidableEq, Repr, Inhabited

def WordOperator.spelling : WordOperator → Bytes
  | .addedTo => "added to"
  | .splitBy => "split by"
  | .characterAt => "character at"
  | .contains => "contains"
  | .startsWith => "starts with"
  | .endsWith => "ends with"
  | .isIn => "is in"

inductive Expression
  | number (l : Location) (n : Number)
  | text (l : Location) (s : Bytes)
  | boolean (l : Location) (b : Bool)
  | nothing (l : Location)
  | input (l : Location)
  | name (l : Location) (x : Bytes)
  | list (l : Location) (items : List Expression)
  | table (l : Location) (entries : List (Expression × Expression))
  | binary (l : Location) (op : Operator) (left right : Expression)
  | word (l : Location) (op : WordOperator) (first second : Expression)
  | negate (l : Location) (e : Expression)
  | not (l : Location) (e : Expression)
  | convert (l : Location) (type : TypeName) (e : Expression)
  | decimal (l : Location) (e places : Expression)
  | typeOf (l : Location) (e : Expression)
  | isA (l : Location) (type : TypeName) (e : Expression)
  | index (l : Location) (container key : Expression)
  | lengthOf (l : Location) (e : Expression)
  deriving Repr, Inhabited

namespace Expression

def location : Expression → Location
  | number l _ | text l _ | boolean l _ | nothing l | input l | name l _ | list l _ | table l _
  | binary l _ _ _ | word l _ _ _ | negate l _ | not l _ | convert l _ _ | decimal l _ _
  | typeOf l _ | isA l _ _ | index l _ _ | lengthOf l _ => l

end Expression

end StepsLang
