import StepsLang.Report

namespace StepsLang

inductive Native
  | uppercase | lowercase | trim | indexOf | replace | slice | characters
  | randomInt | randomChoice
  | readFile | writeFile | appendFile | fileExists | readCsv | writeCsv
  deriving DecidableEq, Repr, Inhabited

namespace Native

def all : List Native :=
  [uppercase, lowercase, trim, indexOf, replace, slice, characters, randomInt, randomChoice,
   readFile, writeFile, appendFile, fileExists, readCsv, writeCsv]

def name : Native → Bytes
  | uppercase => "uppercase"
  | lowercase => "lowercase"
  | trim => "trim"
  | indexOf => "index_of"
  | replace => "replace"
  | slice => "slice"
  | characters => "characters"
  | randomInt => "random_int"
  | randomChoice => "random_choice"
  | readFile => "read_file"
  | writeFile => "write_file"
  | appendFile => "append_file"
  | fileExists => "file_exists"
  | readCsv => "read_csv"
  | writeCsv => "write_csv"

def parameters : Native → List Bytes
  | uppercase | lowercase | trim | characters => [("text" : Bytes)]
  | indexOf => [("text" : Bytes), "search"]
  | replace => [("text" : Bytes), "old", "new"]
  | slice => [("text" : Bytes), "start", "end"]
  | randomInt => [("min" : Bytes), "max"]
  | randomChoice => [("list" : Bytes)]
  | readFile | fileExists | readCsv => [("path" : Bytes)]
  | writeFile | appendFile => [("path" : Bytes), "content"]
  | writeCsv => [("path" : Bytes), "data"]

def ofName? (text : Bytes) : Option Native := all.find? (·.name == text)

def names : List Bytes := all.map name

def failure (l : Location) (message hint : Bytes) : Report :=
  Report.tell .indexOutOfBounds l message hint

end Native

end StepsLang
