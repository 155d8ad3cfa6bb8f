import StepsLang.Routine.Parser

namespace StepsLang

structure Parsed (α : Type) where
  result : α
  reports : List Report

namespace Parsed

def run (p : Reader α) (file : Nat) (source : Bytes) : Parsed α :=
  let start := (Cursor.ofStream (TokenStream.ofSource file source)).hear 1
  let (a, c) := StateT.run p start
  ⟨a, c.reports⟩

def building (file : Nat) (source : Bytes) : Parsed (Option Building) :=
  run Routine.Parser.building file source

def floor (file : Nat) (source : Bytes) : Parsed (Option Floor) :=
  run Routine.Parser.floor file source

def step (file : Nat) (source : Bytes) : Parsed (Option Step) :=
  run Routine.Parser.step file source

def statements (file : Nat) (source : Bytes) : Parsed (List Statement) :=
  run Statement.Parser.statements file source

def expression (file : Nat) (source : Bytes) : Parsed Expression :=
  run Expression.Parser.standalone file source

end Parsed

end StepsLang
