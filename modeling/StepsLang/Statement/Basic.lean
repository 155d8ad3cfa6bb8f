import StepsLang.Expression.Basic

namespace StepsLang

inductive Statement
  | display (l : Location) (e : Expression)
  | set (l : Location) (name : Bytes) (e : Expression)
  | setIndex (l : Location) (name : Bytes) (index e : Expression)
  | call (l : Location) (name : Bytes) (arguments : List Expression) (target : Option Bytes)
  | giveBack (l : Location) (e : Option Expression)
  | exit (l : Location)
  | branch (l : Location) (arms : List (Location × Expression × List Statement))
      (otherwise : Option (List Statement))
  | repeatTimes (l : Location) (count : Expression) (body : List Statement)
  | repeatForEach (l : Location) (item : Bytes) (collection : Expression) (body : List Statement)
  | repeatWhile (l : Location) (condition : Expression) (body : List Statement)
  | attempt (l : Location) (body : List Statement)
      (unsuccessful continuation : Option (List Statement))
  | addToList (l : Location) (e : Expression) (list : Bytes)
  | removeFromList (l : Location) (e : Expression) (list : Bytes)
  | note (l : Location) (text : Bytes)
  deriving Repr, Inhabited

namespace Statement

def location : Statement → Location
  | display l _ | set l _ _ | setIndex l _ _ _ | call l _ _ _ | giveBack l _ | exit l
  | branch l _ _ | repeatTimes l _ _ | repeatForEach l _ _ _ | repeatWhile l _ _
  | attempt l _ _ _ | addToList l _ _ | removeFromList l _ _ | note l _ => l

def kindName : Statement → Bytes
  | display .. => "display"
  | set .. => "set"
  | setIndex .. => "set_index"
  | call .. => "call"
  | giveBack .. => "return"
  | exit .. => "exit"
  | branch .. => "if"
  | repeatTimes .. => "repeat_times"
  | repeatForEach .. => "repeat_for_each"
  | repeatWhile .. => "repeat_while"
  | attempt .. => "attempt"
  | addToList .. => "add_to_list"
  | removeFromList .. => "remove_from_list"
  | note .. => "note"

end Statement

end StepsLang
