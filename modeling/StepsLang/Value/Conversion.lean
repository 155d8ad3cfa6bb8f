import StepsLang.Expression.Basic
import StepsLang.Number.Numeral
import StepsLang.Report
import StepsLang.Value.Text

namespace StepsLang

namespace Value

def truthy (h : Heap) : Value → Bool
  | .nothing => false
  | .number n => !n.isZero
  | .text s => !s.isEmpty
  | .boolean b => b
  | .list id => !(h.items id).isEmpty
  | .table id => !(h.entries id).isEmpty

def asNumber (l : Location) : Value → Except Report Number
  | .number n => .ok n
  | .boolean b => .ok (if b then 1 else 0)
  | .text s =>
    match Number.ofText? s with
    | some n => .ok n
    | none =>
      .error (Report.tell .operandTypes l ("Cannot convert \"" ++ s ++ "\" to number.")
        "Make sure the text contains only a number, like \"42\" or \"3.14\".")
  | v =>
    .error (Report.tell .operandTypes l ("Cannot convert " ++ v.typeName ++ " to number.")
      "Only numbers, numeric text and booleans can become numbers.")

def hasType : Value → TypeName → Bool
  | .number _, .number => true
  | .text _, .text => true
  | .boolean _, .boolean => true
  | .list _, .list => true
  | .table _, .table => true
  | _, _ => false

/-- What a conversion gives. A container converts to its own type only, where it stays what it is. -/
def convert (h : Heap) (v : Value) (type : TypeName) (l : Location) : Except Report Value :=
  match type with
  | .number => .number <$> v.asNumber l
  | .text => .ok (.text (h.display v))
  | .boolean => .ok (.boolean (v.truthy h))
  | _ =>
    if v.hasType type then .ok v
    else
      .error (Report.tell .operandTypes l
        ("Cannot convert " ++ v.typeName ++ " to " ++ type.spelling ++ ".")
        "Use 'as number', 'as text' or 'as boolean'.")

end Value

/-- The position that a number means: cut toward zero, and held within 64-bit integers. What is not
a number means the lowest position. -/
def Number.toIndex (n : Number) : Int :=
  let bound : Nat := Nat.pow 2 63
  if n.isNaN then -bound
  else if !n.isFinite then if n.isNegative then -bound else bound - 1
  else
    let i := n.truncate
    if 9200000000000000000 ≤ i then bound - 1
    else if i ≤ -9200000000000000000 then -bound
    else i

def Heap.default (h : Heap) : TypeName → Value × Heap
  | .number => (.number Number.zero, h)
  | .text => (.text [], h)
  | .boolean => (.boolean false, h)
  | .list => h.newList #[]
  | .table => h.newTable []

end StepsLang
