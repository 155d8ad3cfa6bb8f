import StepsLang.Token.Basic

namespace StepsLang.Word

def phrases : List Kind :=
  [.isGreaterThanOrEqualTo, .isLessThanOrEqualTo, .storingResultIn, .ifUnsuccessful,
   .isNotEqualTo, .thenContinue, .isGreaterThan, .isLessThan, .isABoolean, .isANumber, .isATable,
   .isAList, .isAText, .isEqualTo, .characterAt, .otherwiseIf, .belongsTo, .startsWith, .endsWith,
   .lengthOf, .typeOf, .forEach, .addedTo, .splitBy, .isIn]

def keywords : List Kind :=
  [.building, .floor, .step, .riser, .expects, .returns, .declare, .doWord, .attempt, .exit, .as,
   .fixed, .set, .to, .call, .withWord, .returnWord, .display, .input, .ifWord, .otherwise,
   .repeatWord, .times, .inWord, .whileWord, .and, .or, .not, .contains, .of, .add, .remove,
   .fromWord, .equals, .modulo, .true, .false, .nothing, .number, .text, .boolean, .list, .table]

def bare (k : Kind) : Bytes := Bytes.trimEnd (· == Byte.colon) k.spelling

def colonWords : List Bytes :=
  ["building", "floor", "step", "riser", "expects", "returns", "declare", "do", "attempt", "note"]

def kind (word : Bytes) : Kind := (keywords.find? fun k => bare k == word).getD .name

/-- Whether `word` stands at the start of `s` and is not merely the start of a longer name. -/
def standsAt (word s : Bytes) : Bool :=
  s.startsWith word &&
    !(word.getLast?.any Byte.isLetter && (s.drop word.length).head?.any Byte.isNameByte)

def phrase? (s : Bytes) : Option Kind := phrases.find? fun k => standsAt k.spelling s

def blockCommentStart : Bytes := "note block:"

def blockCommentEnd : Bytes := "end note"

def blockCommentLength (s : Bytes) : Nat :=
  match Bytes.find? blockCommentEnd s with
  | some i => i + blockCommentEnd.length
  | none => s.length

end StepsLang.Word
