import StepsLang.Bytes
import StepsLang.Location
import StepsLang.Number.Basic

namespace StepsLang

inductive Kind
  | endOfFile | newline | indent | dedent
  | numeral | quoted | name | note
  | building | floor | step | riser | belongsTo | expects | returns | declare | doWord | exit
  | as | fixed | set | to | call | withWord | storingResultIn | returnWord | display | input
  | ifWord | otherwiseIf | otherwise | repeatWord | times | forEach | inWord | whileWord
  | attempt | ifUnsuccessful | thenContinue
  | isEqualTo | equals | isNotEqualTo | isLessThan | isGreaterThan
  | isLessThanOrEqualTo | isGreaterThanOrEqualTo
  | and | or | not | addedTo | splitBy | characterAt | lengthOf
  | contains | startsWith | endsWith | of | add | remove | fromWord | isIn | typeOf
  | isANumber | isAText | isABoolean | isAList | isATable
  | plus | minus | star | slash | modulo | colon | comma
  | leftBracket | rightBracket | leftParen | rightParen
  | true | false | nothing | number | text | boolean | list | table
  deriving DecidableEq, Repr, Inhabited

def Kind.spelling : Kind → Bytes
  | .endOfFile => "eof"
  | .newline => "newline"
  | .indent => "indent"
  | .dedent => "dedent"
  | .numeral => "number_literal"
  | .quoted => "text_literal"
  | .name => "identifier"
  | .note => "note"
  | .building => "building:"
  | .floor => "floor:"
  | .step => "step:"
  | .riser => "riser:"
  | .belongsTo => "belongs to:"
  | .expects => "expects:"
  | .returns => "returns:"
  | .declare => "declare:"
  | .doWord => "do:"
  | .exit => "exit"
  | .as => "as"
  | .fixed => "fixed"
  | .set => "set"
  | .to => "to"
  | .call => "call"
  | .withWord => "with"
  | .storingResultIn => "storing result in"
  | .returnWord => "return"
  | .display => "display"
  | .input => "input"
  | .ifWord => "if"
  | .otherwiseIf => "otherwise if"
  | .otherwise => "otherwise"
  | .repeatWord => "repeat"
  | .times => "times"
  | .forEach => "for each"
  | .inWord => "in"
  | .whileWord => "while"
  | .attempt => "attempt:"
  | .ifUnsuccessful => "if unsuccessful:"
  | .thenContinue => "then continue:"
  | .isEqualTo => "is equal to"
  | .equals => "equals"
  | .isNotEqualTo => "is not equal to"
  | .isLessThan => "is less than"
  | .isGreaterThan => "is greater than"
  | .isLessThanOrEqualTo => "is less than or equal to"
  | .isGreaterThanOrEqualTo => "is greater than or equal to"
  | .and => "and"
  | .or => "or"
  | .not => "not"
  | .addedTo => "added to"
  | .splitBy => "split by"
  | .characterAt => "character at"
  | .lengthOf => "length of"
  | .contains => "contains"
  | .startsWith => "starts with"
  | .endsWith => "ends with"
  | .of => "of"
  | .add => "add"
  | .remove => "remove"
  | .fromWord => "from"
  | .isIn => "is in"
  | .typeOf => "type of"
  | .isANumber => "is a number"
  | .isAText => "is a text"
  | .isABoolean => "is a boolean"
  | .isAList => "is a list"
  | .isATable => "is a table"
  | .plus => "+"
  | .minus => "-"
  | .star => "*"
  | .slash => "/"
  | .modulo => "modulo"
  | .colon => ":"
  | .comma => ","
  | .leftBracket => "["
  | .rightBracket => "]"
  | .leftParen => "("
  | .rightParen => ")"
  | .true => "true"
  | .false => "false"
  | .nothing => "nothing"
  | .number => "number"
  | .text => "text"
  | .boolean => "boolean"
  | .list => "list"
  | .table => "table"

/-- A token. `text` is what was written, with the escapes of a quoted text resolved and a note cut
to its content; `value` is the value of a numeral. -/
structure Token where
  kind : Kind := .endOfFile
  location : Location := {}
  text : Bytes := []
  value : Number := Number.zero
  deriving DecidableEq, Repr, Inhabited

def Token.describe (t : Token) : Bytes :=
  match t.kind with
  | .endOfFile => "end of file"
  | .newline => "end of line"
  | .indent => "indentation"
  | .dedent => "end of block"
  | .quoted => "\"" ++ t.text ++ "\""
  | k => if t.text.isEmpty then k.spelling else t.text

end StepsLang
