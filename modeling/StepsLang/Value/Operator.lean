import StepsLang.Utf8
import StepsLang.Number.Arithmetic
import StepsLang.Value.Container
import StepsLang.Value.Conversion

namespace StepsLang.Value

def unfit (l : Location) (message hint : Bytes) : Report := Report.tell .wrongKind l message hint

def verb : Operator → Bytes
  | .add => "add"
  | .subtract => "subtract"
  | .multiply => "multiply"
  | .divide => "divide"
  | .modulo => "take the remainder of"
  | _ => "compare"

def isText : Value → Bool
  | .text _ => true
  | _ => false

def operandAdvice (op : Operator) (a b : Value) : Bytes :=
  match op with
  | .less | .greater | .lessOrEqual | .greaterOrEqual =>
    "Comparisons like 'is less than' work with numbers."
  | _ =>
    if a.isText || b.isText then
      if op == .add then
        "The '+' operator works with numbers. Use 'added to' for text concatenation."
      else "Convert text to a number first with 'as number'."
    else "The '" ++ op.spelling ++ "' operator works with numbers."

def arithmetic (op : Operator) (m n : Number) (l : Location) : Except Report Value :=
  match op with
  | .add => .ok (.number (m.add n))
  | .subtract => .ok (.number (m.subtract n))
  | .multiply => .ok (.number (m.multiply n))
  | .divide => if n.isZero then .error (Report.divisionByZero l) else .ok (.number (m.divide n))
  | .modulo => if n.isZero then .error (Report.divisionByZero l) else .ok (.number (m.modulo n))
  | .less => .ok (.boolean (m.less n))
  | .greater => .ok (.boolean (n.less m))
  | .lessOrEqual => .ok (.boolean (m.lessOrEqual n))
  | .greaterOrEqual => .ok (.boolean (n.lessOrEqual m))
  | _ => .ok .nothing

def operate (h : Heap) (op : Operator) (a b : Value) (l : Location) : Except Report Value :=
  match op with
  | .equal => .ok (.boolean (h.equal a b))
  | .notEqual => .ok (.boolean (!h.equal a b))
  | .and => .ok (.boolean (a.truthy h && b.truthy h))
  | .or => .ok (.boolean (a.truthy h || b.truthy h))
  | _ =>
    match a, b with
    | .number m, .number n => arithmetic op m n l
    | _, _ =>
      .error (Report.operandTypes (verb op) a.typeName b.typeName l (operandAdvice op a b))

def negated (v : Value) (l : Location) : Except Report Value :=
  match v with
  | .number n => .ok (.number n.negate)
  | _ =>
    .error (Report.tell .operandTypes l ("Cannot negate " ++ v.typeName ++ ".")
      "Only numbers can be made negative.")

def splitText (delimiter s : Bytes) : List Bytes := go 0 [] s
where
  /-- `owed` bytes still belong to the occurrence found last; `part` holds the current part, last
  byte first. -/
  go (owed : Nat) (part : Bytes) : Bytes → List Bytes
    | [] => [part.reverse]
    | b :: rest =>
      match owed with
      | n + 1 => go n part rest
      | 0 =>
        if delimiter.isPrefixOf (b :: rest) then
          part.reverse :: go (delimiter.length - 1) [] rest
        else go 0 (b :: part) rest

def parts (delimiter s : Bytes) : List Bytes :=
  if delimiter.isEmpty then Utf8.characters s else splitText delimiter s

def newTexts (h : Heap) (texts : List Bytes) : Value × Heap :=
  h.newList (texts.map Value.text).toArray

def splitBy (h : Heap) (v delimiter : Value) (l : Location) : Except Report (Value × Heap) :=
  match v with
  | .text s => .ok (newTexts h (parts (h.display delimiter) s))
  | _ =>
    .error (unfit l ("Cannot split " ++ v.typeName ++ ", only text can be split.")
      "Make sure the value you're splitting is text.")

def characterAt (index v : Value) (l : Location) : Except Report Value :=
  match v, index with
  | .text s, .number n =>
    let chars := Utf8.characters s
    match Heap.position? n.toIndex chars.length with
    | some i => .ok (.text (chars.getD i []))
    | none => .error (Heap.outOfBounds "text" "The text is empty." n.toIndex chars.length l)
  | .text _, _ =>
    .error (unfit l ("Character index must be a number, not " ++ index.typeName ++ ".")
      "Use a number for the index, like 'character at 0 of text'.")
  | _, _ =>
    .error (unfit l ("Cannot get character from " ++ v.typeName ++ ", only from text.")
      "'character at' only works with text values.")

def lengthOf (h : Heap) (v : Value) (l : Location) : Except Report Value :=
  match v with
  | .text s => .ok (.number (Number.ofNat (Utf8.length s)))
  | .list id => .ok (.number (Number.ofNat (h.items id).size))
  | .table id => .ok (.number (Number.ofNat (h.entries id).length))
  | _ =>
    .error (unfit l ("Cannot get length of " ++ v.typeName ++ ".")
      "'length of' works with text, lists, and tables.")

def contains (h : Heap) (v item : Value) (l : Location) : Except Report Value :=
  match v with
  | .text s => .ok (.boolean (s.contains (h.display item)))
  | .list id => .ok (.boolean (h.containsItem id item))
  | _ =>
    .error (unfit l ("Cannot check if " ++ v.typeName ++ " contains something.")
      "'contains' works with text and lists.")

def startsWith (h : Heap) (v start : Value) (l : Location) : Except Report Value :=
  match v with
  | .text s => .ok (.boolean (Bytes.startsWith s (h.display start)))
  | _ =>
    .error (unfit l ("Cannot check if " ++ v.typeName ++ " starts with something.")
      "'starts with' works with text values.")

def endsWith (h : Heap) (v ending : Value) (l : Location) : Except Report Value :=
  match v with
  | .text s => .ok (.boolean (Bytes.endsWith s (h.display ending)))
  | _ =>
    .error (unfit l ("Cannot check if " ++ v.typeName ++ " ends with something.")
      "'ends with' works with text values.")

def isIn (h : Heap) (item v : Value) (l : Location) : Except Report Value :=
  match v with
  | .list id => .ok (.boolean (h.containsItem id item))
  | .text s => .ok (.boolean (s.contains (h.display item)))
  | _ =>
    .error (unfit l ("Cannot check membership in " ++ v.typeName ++ ".")
      "'is in' works with lists and text.")

def addedTo (h : Heap) (a b : Value) : Value := .text (h.display a ++ h.display b)

def operateWord (h : Heap) (op : WordOperator) (a b : Value) (l : Location) :
    Except Report (Value × Heap) :=
  match op with
  | .addedTo => .ok (addedTo h a b, h)
  | .splitBy => splitBy h a b l
  | .characterAt => (·, h) <$> characterAt a b l
  | .contains => (·, h) <$> contains h a b l
  | .startsWith => (·, h) <$> startsWith h a b l
  | .endsWith => (·, h) <$> endsWith h a b l
  | .isIn => (·, h) <$> isIn h a b l

def withPlaces (h : Heap) (v places : Value) (l : Location) : Except Report Value :=
  match v with
  | .number n =>
    let bad := .error (Report.fill .badPlaces l [("places", h.display places)])
    match places with
    | .number p =>
      if p.less Number.zero || (Number.ofNat 100).less p then bad
      else .ok (.text (n.fixedText p.truncate.toNat))
    | _ => bad
  | _ =>
    .error (Report.tell .operandTypes l
      ("Cannot format " ++ v.typeName ++ " as a decimal; 'as decimal' needs a number.")
      "Convert it first, for example 'price as number as decimal(2)'.")

def badListIndex (key : Value) (l : Location) : Report :=
  unfit l ("List index must be a number, got " ++ key.typeName ++ ".")
    "Use a number like 0, 1, 2 to access list elements."

def load (h : Heap) (container key : Value) (l : Location) : Except Report Value :=
  match container with
  | .list id =>
    match key with
    | .number n => h.getItem id n.toIndex l
    | _ => .error (badListIndex key l)
  | .table id => h.getKey id (h.display key) l
  | _ =>
    .error (unfit l ("Cannot access " ++ container.typeName ++ " with a key.")
      "Use square brackets with tables (using text keys) or lists (using number indices).")

def storing (container key v : Value) (l : Location) : Mutation Heap Unit :=
  match container with
  | .list id =>
    match key with
    | .number n => Heap.settingItem id n.toIndex v l
    | _ => Mutation.fail (badListIndex key l)
  | .table id => Mutation.update fun h => h.setKey id (h.display key) v
  | _ =>
    Mutation.fail (unfit l
      ("Cannot index into " ++ container.typeName ++ ", only into lists or tables.")
      "Create the variable as a list [ ] or table [:] first.")

def addingTo (list item : Value) (l : Location) : Mutation Heap Unit :=
  match list with
  | .list id => Mutation.update (·.addItem id item)
  | _ =>
    Mutation.fail (unfit l ("Cannot add to " ++ list.typeName ++ ", only to lists.")
      "Make sure you're adding to a list variable.")

def removingFrom (list item : Value) (l : Location) : Mutation Heap Bool :=
  match list with
  | .list id => fun h =>
    let (found, h) := h.removeItem id item
    (.ok found, h)
  | _ =>
    Mutation.fail (unfit l ("Cannot remove from " ++ list.typeName ++ ", only from lists.")
      "Make sure you're removing from a list variable.")

theorem atomic_storing (container key v : Value) (l : Location) :
    (storing container key v l).Atomic := by
  cases container with
  | list id =>
    cases key with
    | number n => exact Heap.atomic_settingItem id n.toIndex v l
    | _ => exact Mutation.atomic_fail _
  | table id => exact Mutation.atomic_update _
  | _ => exact Mutation.atomic_fail _

theorem atomic_addingTo (list item : Value) (l : Location) : (addingTo list item l).Atomic := by
  cases list with
  | list id => exact Mutation.atomic_update _
  | _ => exact Mutation.atomic_fail _

theorem atomic_removingFrom (list item : Value) (l : Location) :
    (removingFrom list item l).Atomic := by
  cases list with
  | list id => exact fun _ _ _ failed => nomatch failed
  | _ => exact Mutation.atomic_fail _

def store (h : Heap) (container key v : Value) (l : Location) : Except Report Heap :=
  (storing container key v l).made h

def addTo (h : Heap) (list item : Value) (l : Location) : Except Report Heap :=
  (addingTo list item l).made h

def removeFrom (h : Heap) (list item : Value) (l : Location) : Except Report (Bool × Heap) :=
  (removingFrom list item l).result h

theorem store_eq (h : Heap) (container key v : Value) (l : Location) :
    store h container key v l =
      match container with
      | .list id =>
        match key with
        | .number n => h.setItem id n.toIndex v l
        | _ => .error (badListIndex key l)
      | .table id => .ok (h.setKey id (h.display key) v)
      | _ =>
        .error (unfit l
          ("Cannot index into " ++ container.typeName ++ ", only into lists or tables.")
          "Create the variable as a list [ ] or table [:] first.") := by
  cases container with
  | list id => cases key <;> rfl
  | _ => rfl

end StepsLang.Value
