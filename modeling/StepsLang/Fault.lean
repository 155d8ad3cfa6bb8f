import StepsLang.Bytes

namespace StepsLang

inductive Fault
  | buildingMissing | floorFileMissing | stepMisplaced | stepFileMissing
  | strangeCharacter | badIndentation | tabIndentation | unclosedText | unmatchedDedent | notUtf8
  | nameExpected | wordExpected | lineEndExpected | blockExpected | valueExpected | doMissing
  | unexpectedToken | foreignWord
  | operandTypes | wrongKind | fixedType | badPlaces
  | undefinedVariable | undefinedStep | fixedReassigned | divisionByZero | stepCallUnavailable
  | keyMissing | indexOutOfBounds | callTooDeep | argumentCount | loopTooLong | internal
  deriving DecidableEq, Repr, Inhabited

inductive Phase
  | project | text | grammar | types | run | unknown
  deriving DecidableEq, Repr

def Phase.name : Phase → Bytes
  | .project => "structure"
  | .text => "lexer"
  | .grammar => "parser"
  | .types => "type"
  | .run => "runtime"
  | .unknown => "unknown"

def Phase.ofCode : Bytes → Phase
  | 69 :: 48 :: _ => .project
  | 69 :: 49 :: _ => .text
  | 69 :: 50 :: _ => .grammar
  | 69 :: 51 :: _ => .types
  | 69 :: 52 :: _ => .run
  | _ => .unknown

namespace Fault

def all : List Fault :=
  [.buildingMissing, .floorFileMissing, .stepMisplaced, .stepFileMissing,
   .strangeCharacter, .badIndentation, .tabIndentation, .unclosedText, .unmatchedDedent, .notUtf8,
   .nameExpected, .wordExpected, .lineEndExpected, .blockExpected, .valueExpected, .doMissing,
   .unexpectedToken, .foreignWord,
   .operandTypes, .wrongKind, .fixedType, .badPlaces,
   .undefinedVariable, .undefinedStep, .fixedReassigned, .divisionByZero, .stepCallUnavailable,
   .keyMissing, .indexOutOfBounds, .callTooDeep, .argumentCount, .loopTooLong, .internal]

def code : Fault → Bytes
  | .buildingMissing => "E001"
  | .floorFileMissing => "E002"
  | .stepMisplaced => "E003"
  | .stepFileMissing => "E004"
  | .strangeCharacter => "E101"
  | .badIndentation => "E102"
  | .tabIndentation => "E103"
  | .unclosedText => "E104"
  | .unmatchedDedent => "E105"
  | .notUtf8 => "E106"
  | .nameExpected => "E201"
  | .wordExpected => "E202"
  | .lineEndExpected => "E203"
  | .blockExpected => "E204"
  | .valueExpected => "E205"
  | .doMissing => "E206"
  | .unexpectedToken => "E207"
  | .foreignWord => "E208"
  | .operandTypes => "E301"
  | .wrongKind => "E302"
  | .fixedType => "E303"
  | .badPlaces => "E304"
  | .undefinedVariable => "E401"
  | .undefinedStep => "E402"
  | .fixedReassigned => "E403"
  | .divisionByZero => "E404"
  | .stepCallUnavailable => "E405"
  | .keyMissing => "E406"
  | .indexOutOfBounds => "E407"
  | .callTooDeep => "E408"
  | .argumentCount => "E409"
  | .loopTooLong => "E410"
  | .internal => "E411"

def message : Fault → Bytes
  | .buildingMissing => "No .building file found in project directory '{path}'."
  | .floorFileMissing => "Found step files but no floor definition in '{floor_name}/'."
  | .stepMisplaced =>
    "Step '{step_name}' says it belongs to '{expected_floor}', but it is listed in floor '{actual_floor}'."
  | .stepFileMissing =>
    "Step '{step_name}' is listed in floor '{floor_name}' but file '{step_name}.step' was not found."
  | .strangeCharacter => "Unexpected character '{char}'. Steps doesn't use this symbol."
  | .badIndentation => "Indentation must use exactly 4 spaces per level. Found {spaces} spaces."
  | .tabIndentation => "Found a tab character. Steps uses 4 spaces for indentation, not tabs."
  | .unclosedText => "String starting here was never closed."
  | .unmatchedDedent => "This line's indentation ({spaces} spaces) doesn't match any previous level."
  | .notUtf8 => "The file is not valid UTF-8 text (bad byte at offset {offset})."
  | .nameExpected => "Expected a name here, but found '{found}'."
  | .wordExpected => "Expected '{expected}' here, but found '{found}'."
  | .lineEndExpected => "Expected end of line after '{statement}', but found '{found}'."
  | .blockExpected => "Expected indented code after '{keyword}'."
  | .valueExpected => "Expected a value here (number, text, or variable name), but found '{found}'."
  | .doMissing => "Every step needs a 'do:' section with its logic."
  | .unexpectedToken => "Unexpected '{token}' here."
  | .foreignWord => "Steps uses '{correct}' instead of '{found}'."
  | .operandTypes => "Cannot {operation} {left_type} and {right_type}."
  | .wrongKind => "Cannot use a {type_name} here; {usage} needs {expected}."
  | .fixedType =>
    "Cannot assign {new_type} to '{variable}' - it was declared as '{declared_type} fixed'."
  | .badPlaces => "Cannot format with {places} decimal places."
  | .undefinedVariable => "Variable '{name}' has not been defined yet."
  | .undefinedStep => "Step '{name}' does not exist."
  | .fixedReassigned => "Cannot change '{name}' because it was declared as 'fixed'."
  | .divisionByZero => "Cannot divide by zero."
  | .stepCallUnavailable => "Cannot call step '{name}' in the REPL."
  | .keyMissing => "Key \"{key}\" not found in table."
  | .indexOutOfBounds => "Index {index} is out of bounds for {container} of length {length}."
  | .callTooDeep => "Maximum call depth ({limit}) exceeded when calling '{step_name}'."
  | .argumentCount => "'{name}' expects {expected} argument(s), got {actual}."
  | .loopTooLong => "Maximum loop iterations exceeded ({limit})."
  | .internal => "Internal error: {details}"

def hint : Fault → Bytes
  | .buildingMissing =>
    "Every Steps project needs a .building file as its entry point.\nCreate a file named '{name}.building' in the project root."
  | .floorFileMissing =>
    "Every floor folder needs a .floor file listing its steps.\nCreate '{floor_name}.floor' to declare the steps in this floor."
  | .stepMisplaced =>
    "Either:\n  - Move this step to the '{expected_floor}' floor, or\n  - Change the step to say 'belongs to: {actual_floor}'"
  | .stepFileMissing =>
    "Either:\n  - Create the file '{step_name}.step', or\n  - Remove 'step: {step_name}' from the floor definition"
  | .strangeCharacter => "Check for typos or unsupported characters."
  | .badIndentation => "Use 4 spaces for each level of indentation."
  | .tabIndentation => "Configure your editor to insert spaces instead of tabs."
  | .unclosedText => "Add a closing \" at the end of your string."
  | .unmatchedDedent =>
    "The current indentation levels are: {levels}\nAdjust your indentation to match one of these levels."
  | .notUtf8 => "Save the file with UTF-8 encoding."
  | .nameExpected => "Names must start with a letter or underscore."
  | .wordExpected => "Check the shape of this line."
  | .lineEndExpected => "Put each statement on its own line."
  | .blockExpected => "Indent the code that should be inside this block by 4 spaces."
  | .valueExpected =>
    "Examples:\n    42          (a number)\n    \"hello\"     (text)\n    my_variable (a variable)"
  | .doMissing => "Add 'do:' before your code:\n\n    do:\n        your code here"
  | .unexpectedToken => "Check the syntax of your statement."
  | .foreignWord => "Try: {correct}"
  | .operandTypes => "{advice}"
  | .wrongKind =>
    "Example:\n    set numbers to [1, 2, 3]\n    repeat for each item in numbers"
  | .fixedType =>
    "Once a variable is declared with 'fixed', it can only hold that type.\n\nEither:\n  - Assign a {declared_type} value, or\n  - Remove 'fixed' from the declaration if you need flexibility"
  | .badPlaces => "Use a whole number of 0 or more, like 'as decimal(2)'."
  | .undefinedVariable => "Define it first:\n\n    set {name} to some_value"
  | .undefinedStep => "Did you mean '{suggestion}'?\n\nAvailable steps: {available}"
  | .fixedReassigned => "Fixed variables cannot be reassigned after their initial value is set."
  | .divisionByZero => "Check that your divisor is not zero before dividing."
  | .stepCallUnavailable => "The REPL is for learning basics. Use the IDE to work with steps."
  | .keyMissing => "Available keys: {available}"
  | .indexOutOfBounds => "Valid indices are 0 to {max_index}."
  | .callTooDeep =>
    "Your step is calling itself too many times. Check for infinite recursion."
  | .argumentCount => "Expected parameters: {params}"
  | .loopTooLong => "Your loop may be infinite. Check the condition."
  | .internal => "This is likely a bug in the Steps interpreter."

def ofCode? (text : Bytes) : Option Fault := all.find? (·.code == text)

end Fault

end StepsLang
