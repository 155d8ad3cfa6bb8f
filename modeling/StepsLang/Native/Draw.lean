import StepsLang.Native.Basic
import StepsLang.Value.Operator
import StepsLang.World

namespace StepsLang.Native.Draw

def below (n : Nat) : Effect Nat := fun w =>
  let (i, random) := w.random.below n
  (.ok i, { w with random })

def int (low high : Value) (l : Location) : Effect Value :=
  match low, high with
  | .number m, .number n =>
    let first := m.toIndex
    let last := n.toIndex
    if last < first then
      .fail (failure l
        ("random_int: minimum (" ++ Bytes.ofString (toString first)
          ++ ") cannot be greater than maximum (" ++ Bytes.ofString (toString last) ++ ").")
        "Swap the values: call random_int with smaller, larger")
    else do
      let i ← below (last - first + 1).toNat
      return .number (Number.ofInt (first + i))
  | _, _ =>
    .fail (Value.unfit l
      ("random_int requires two numbers, got " ++ low.typeName ++ " and " ++ high.typeName ++ ".")
      "Use: call random_int with 1, 100")

def choice (v : Value) (l : Location) : Effect Value :=
  match v with
  | .list id => do
    let items ← .ask fun h => .ok (h.items id)
    if items.isEmpty then
      .fail (failure l "random_choice: cannot pick from an empty list."
        "Make sure the list has at least one element.")
    else do
      let i ← below items.size
      return items.getD i .nothing
  | _ =>
    .fail (Value.unfit l ("random_choice requires a list, got " ++ v.typeName ++ ".")
      "Use: call random_choice with my_list")

end StepsLang.Native.Draw
