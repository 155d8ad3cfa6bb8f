namespace StepsLang

/-- A place in a source file, with an optional end. File number 0 stands for no file, line,
column and end 0 for unknown ones; known lines and columns count from 1. -/
structure Location where
  file : Nat := 0
  line : Nat := 0
  column : Nat := 0
  endLine : Nat := 0
  endColumn : Nat := 0
  deriving DecidableEq, Repr, Inhabited

namespace Location

def none : Location := {}

def hasFile (l : Location) : Bool := l.file != 0

def hasLine (l : Location) : Bool := l.line != 0

def hasColumn (l : Location) : Bool := l.column != 0

def hasEnd (l : Location) : Bool := l.endLine != 0 && l.endColumn != 0

end Location

end StepsLang
