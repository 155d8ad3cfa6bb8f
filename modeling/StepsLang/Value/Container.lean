import StepsLang.Mutation
import StepsLang.Value.Equality

namespace StepsLang.Heap

def outOfBounds (container : Bytes) (empty : Bytes) (index : Int) (length : Nat) (l : Location) :
    Report :=
  let r := Report.fill .indexOutOfBounds l
    [("index", Bytes.ofString (toString index)), ("container", container),
     ("length", Bytes.decimal length),
     ("max_index", if length == 0 then "" else Bytes.decimal (length - 1))]
  if length == 0 then { r with hint := empty } else r

def outOfList (index : Int) (length : Nat) (l : Location) : Report :=
  outOfBounds "list" "The list is empty; add items before reading them." index length l

def position? (index : Int) (length : Nat) : Option Nat :=
  if 0 ≤ index ∧ index < length then some index.toNat else none

def getItem (h : Heap) (id : Nat) (index : Int) (l : Location) : Except Report Value :=
  match position? index (h.items id).size with
  | some i => .ok ((h.items id).getD i .nothing)
  | none => .error (outOfList index (h.items id).size l)

def settingItem (id : Nat) (index : Int) (v : Value) (l : Location) : Mutation Heap Unit := do
  let items := (← Mutation.read).items id
  match position? index items.size with
  | some i => Mutation.update (·.setItems id (items.setIfInBounds i v))
  | none => Mutation.fail (outOfList index items.size l)

def setItem (h : Heap) (id : Nat) (index : Int) (v : Value) (l : Location) : Except Report Heap :=
  (settingItem id index v l).made h

theorem settingItem_apply (h : Heap) (id : Nat) (index : Int) (v : Value) (l : Location) :
    settingItem id index v l h =
      match position? index (h.items id).size with
      | some i => (.ok (), h.setItems id ((h.items id).setIfInBounds i v))
      | none => (.error (outOfList index (h.items id).size l), h) := by
  simp only [settingItem, Mutation.bind_apply, Mutation.read]
  cases position? index (h.items id).size <;> rfl

theorem atomic_settingItem (id : Nat) (index : Int) (v : Value) (l : Location) :
    (settingItem id index v l).Atomic := by
  intro h r g failed
  rw [settingItem_apply] at failed
  split at failed <;> cases failed
  rfl

theorem setItem_eq (h : Heap) (id : Nat) (index : Int) (v : Value) (l : Location) :
    h.setItem id index v l =
      match position? index (h.items id).size with
      | some i => .ok (h.setItems id ((h.items id).setIfInBounds i v))
      | none => .error (outOfList index (h.items id).size l) := by
  rw [setItem, Mutation.made_eq, settingItem_apply]
  cases position? index (h.items id).size <;> rfl

def removeItem (h : Heap) (id : Nat) (v : Value) : Bool × Heap :=
  match (h.items id).toList.findIdx? fun item => h.equal item v with
  | some i => (true, h.setItems id ((h.items id).eraseIdxIfInBounds i))
  | none => (false, h)

def containsItem (h : Heap) (id : Nat) (v : Value) : Bool :=
  (h.items id).toList.any fun item => h.equal item v

def getKey (h : Heap) (id : Nat) (key : Bytes) (l : Location) : Except Report Value :=
  match (h.entries id).get? key with
  | some v => .ok v
  | none =>
    let keys := (h.entries id).keys.map fun k => ("\"" : Bytes) ++ k ++ "\""
    .error (Report.fill .keyMissing l
      [("key", key),
       ("available", if keys.isEmpty then "(empty table)" else Report.listing keys 10)])

end StepsLang.Heap
