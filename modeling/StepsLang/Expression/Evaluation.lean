import StepsLang.Environment
import StepsLang.Value.Operator
import StepsLang.World

namespace StepsLang

def Operator.decided? (op : Operator) (left : Bool) : Option Bool :=
  match op, left with
  | .and, false => some false
  | .or, true => some true
  | _, _ => none

namespace Expression

mutual
def eval (env : Environment) : Expression → Effect Value
  | number _ n => pure (.number n)
  | text _ s => pure (.text s)
  | boolean _ b => pure (.boolean b)
  | nothing _ => pure .nothing
  | input _ => do return .text (← .readLine)
  | name l x => .ask fun _ => env.get x l
  | list _ items => do .newList (← evalItems env items)
  | table _ entries => do .newTable (← evalEntries env entries)
  | binary l op left right => do
    let a ← left.eval env
    let truth ← .ask fun h => .ok (a.truthy h)
    match op.decided? truth with
    | some b => return .boolean b
    | none =>
      let b ← right.eval env
      .ask fun h => a.operate h op b l
  | word l op first second => do
    let a ← first.eval env
    let b ← second.eval env
    .onHeap fun h => Value.operateWord h op a b l
  | negate l e => do
    let a ← e.eval env
    .ask fun _ => a.negated l
  | not _ e => do
    let a ← e.eval env
    .ask fun h => .ok (.boolean (!a.truthy h))
  | convert l type e => do
    let a ← e.eval env
    .ask fun h => a.convert h type l
  | decimal l e places => do
    let a ← e.eval env
    let p ← places.eval env
    .ask fun h => a.withPlaces h p l
  | typeOf _ e => do
    let a ← e.eval env
    return .text a.typeName
  | isA _ type e => do
    let a ← e.eval env
    return .boolean (a.hasType type)
  | index l container key => do
    let c ← container.eval env
    let k ← key.eval env
    .ask fun h => Value.load h c k l
  | lengthOf l e => do
    let a ← e.eval env
    .ask fun h => a.lengthOf h l
termination_by structural e => e

def evalItems (env : Environment) : List Expression → Effect (List Value)
  | [] => pure []
  | e :: rest => do
    let v ← e.eval env
    let vs ← evalItems env rest
    return v :: vs
termination_by structural es => es

def evalEntries (env : Environment) : List (Expression × Expression) → Effect (List (Bytes × Value))
  | [] => pure []
  | (key, e) :: rest => do
    let k ← key.eval env
    let v ← e.eval env
    let name ← .ask fun h => .ok (h.display k)
    let vs ← evalEntries env rest
    return (name, v) :: vs
termination_by structural es => es
end

end Expression

end StepsLang
