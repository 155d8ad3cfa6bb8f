import StepsLang.Native.Basic
import StepsLang.Utf8
import StepsLang.Value.Operator
import StepsLang.World

namespace StepsLang.Native.Text

def textOf (v : Value) (task usage : Bytes) (l : Location) : Effect Bytes :=
  match v with
  | .text s => pure s
  | _ =>
    .fail (Value.unfit l ("Cannot " ++ task ++ " " ++ v.typeName ++ ", only text.")
      ("Use: " ++ usage))

def uppercase (v : Value) (l : Location) : Effect Value := do
  let s ← textOf v "convert to uppercase" "call uppercase with my_text" l
  return .text (s.map Byte.toUpper)

def lowercase (v : Value) (l : Location) : Effect Value := do
  let s ← textOf v "convert to lowercase" "call lowercase with my_text" l
  return .text (s.map Byte.toLower)

def trim (v : Value) (l : Location) : Effect Value := do
  let s ← textOf v "trim" "call trim with my_text" l
  return .text (s.trim Byte.isBlank)

def position (needle s : Bytes) : Number :=
  match Bytes.find? needle s with
  | some i => Number.ofNat (Utf8.length (s.take i))
  | none => Number.ofInt (-1)

def indexOf (v search : Value) (l : Location) : Effect Value := do
  let s ← textOf v "search in" "call index_of with my_text, search_term" l
  let needle ← .ask fun h => .ok (h.display search)
  return .number (position needle s)

def replaceAll (old new s : Bytes) : Bytes := go 0 s
where
  go (owed : Nat) : Bytes → Bytes
    | [] => []
    | b :: rest =>
      match owed with
      | n + 1 => go n rest
      | 0 => if old.isPrefixOf (b :: rest) then new ++ go (old.length - 1) rest else b :: go 0 rest

def interleave (new s : Bytes) : Bytes := new ++ (Utf8.characters s).flatMap (· ++ new)

def replace (v old new : Value) (l : Location) : Effect Value := do
  let s ← textOf v "replace in" "call replace with my_text, old_text, new_text" l
  let old ← .ask fun h => .ok (h.display old)
  let new ← .ask fun h => .ok (h.display new)
  return .text (if old.isEmpty then interleave new s else replaceAll old new s)

/-- The position between two characters that a number means: counted from the end when it is
negative, and held within the text. -/
def clamp (length : Nat) (n : Number) : Nat :=
  let i := n.toIndex
  min (if i < 0 then (length + i).toNat else i.toNat) length

def between (s : Bytes) (first last : Number) : Bytes :=
  let i := clamp (Utf8.length s) first
  let j := clamp (Utf8.length s) last
  if j ≤ i then [] else (s.take (Utf8.offset s j)).drop (Utf8.offset s i)

def boundOf (which : Bytes) (v : Value) (l : Location) : Effect Number :=
  match v with
  | .number n => pure n
  | _ =>
    .fail (Value.unfit l (which ++ " index must be a number, got " ++ v.typeName ++ ".")
      "Use numbers for slice indices.")

def slice (v first last : Value) (l : Location) : Effect Value := do
  let s ← textOf v "slice" "call slice with my_text, start, end" l
  let i ← boundOf "Start" first l
  let j ← boundOf "End" last l
  return .text (between s i j)

def characters (v : Value) (l : Location) : Effect Value := do
  let s ← textOf v "split" "call characters with my_text" l
  .newList ((Utf8.characters s).map .text)

end StepsLang.Native.Text
