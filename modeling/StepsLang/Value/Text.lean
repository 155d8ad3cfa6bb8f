import StepsLang.Number.Text
import StepsLang.Value.Tree

namespace StepsLang

namespace Value

def scalarText : Value → Bytes
  | .number n => n.text
  | .text s => s
  | .boolean true => "true"
  | .boolean false => "false"
  | _ => "nothing"

end Value

namespace Tree

def cycleText : Bytes := "[...]"

def keyText (key : Bytes) : Bytes := "\"" ++ key ++ "\": "

mutual
def display : Tree → Bytes
  | .leaf v => v.scalarText
  | .cycle => cycleText
  | .list items => "[" ++ Bytes.join ", " (displayItems items) ++ "]"
  | .table entries => "[" ++ Bytes.join ", " (displayEntries entries) ++ "]"
termination_by structural t => t

def displayItems : List Tree → List Bytes
  | [] => []
  | t :: ts => t.display :: displayItems ts
termination_by structural ts => ts

def displayEntries : List (Bytes × Tree) → List Bytes
  | [] => []
  | (key, t) :: es => (keyText key ++ t.display) :: displayEntries es
termination_by structural es => es
end

def abbreviate (limit few : Nat) (unit : Bytes) (parts : List Bytes) : Bytes :=
  if parts.length ≤ limit then Bytes.join ", " parts
  else
    Bytes.join ", " (parts.take few) ++ ", ... (" ++ Bytes.decimal parts.length ++ " " ++ unit
      ++ ")"

mutual
def brief : Tree → Bytes
  | .leaf (.text s) => "\"" ++ s ++ "\""
  | .leaf v => v.scalarText
  | .cycle => cycleText
  | .list items => "[" ++ abbreviate 5 3 "items" (briefItems items) ++ "]"
  | .table entries => "[" ++ abbreviate 3 2 "entries" (briefEntries entries) ++ "]"
termination_by structural t => t

def briefItems : List Tree → List Bytes
  | [] => []
  | t :: ts => t.brief :: briefItems ts
termination_by structural ts => ts

def briefEntries : List (Bytes × Tree) → List Bytes
  | [] => []
  | (key, t) :: es => (keyText key ++ t.brief) :: briefEntries es
termination_by structural es => es
end

end Tree

namespace Heap

def display (h : Heap) : Value → Bytes
  | .list id => (h.tree (.list id)).display
  | .table id => (h.tree (.table id)).display
  | v => v.scalarText

def quoted (h : Heap) : Value → Bytes
  | .text s => "\"" ++ s ++ "\""
  | v => h.display v

def brief (h : Heap) (v : Value) : Bytes := (h.tree v).brief

end Heap

end StepsLang
