import StepsLang.Execution.Basic

/-!
What statements do. Calls are left open here: a block is carried out for any way of calling
routines, so that the recursion below follows the program text alone.
-/

namespace StepsLang

inductive CallResult
  | value (v : Value)
  | failed (r : Report)
  | stopped
  deriving DecidableEq, Repr, Inhabited

abbrev Caller (σ : Type) :=
  Bytes → List Value → Location → Session σ → CallResult × Session σ

def Number.rounds (n : Number) : Nat :=
  if n.isNaN || n.isNegative then 0
  else if n.isFinite then n.wholeMagnitude
  else Nat.pow 2 63 - 1

def Value.items? (h : Heap) : Value → Option (List Value)
  | .list id => some (h.items id).toList
  | .text s => some ((Utf8.characters s).map .text)
  | .table id => some ((h.entries id).keys.map .text)
  | _ => none

namespace Action

def calling (call : Caller σ) (name : Bytes) (target : Option Bytes) (l : Location)
    (arguments : List Value) : Action σ := fun s =>
  match call name arguments l s with
  | (.value v, s) =>
    match target with
    | some x => assign x v l s
    | none => (.normal, s)
  | (.failed r, s) => (.failed r, s)
  | (.stopped, s) => (.stopped, s)

def repeatTimes (l : Location) (round : Action σ) (v : Value) : Action σ :=
  match v with
  | .number n => times round n.rounds
  | _ =>
    finish (.failed (Report.tell .wrongKind l
      ("'repeat ... times' requires a number, got " ++ v.typeName ++ ".")
      "The repeat count must be a number."))

def repeatForEach (l : Location) (name : Bytes) (round : Action σ) (v : Value) : Action σ :=
  fun s =>
    match v.items? s.world.heap with
    | some items => forEach name round items s
    | none =>
      (.failed (Report.tell .wrongKind l ("Cannot iterate over " ++ v.typeName ++ ".")
        "'for each' works with lists, text, and tables."), s)

def optional : Option (Action σ) → Action σ
  | some a => inBlock a
  | none => skip

def tooLong (l : Location) (limit : Nat) : Report :=
  Report.fill .loopTooLong l [("limit", Bytes.decimal limit)]

end Action

namespace Statement

open StepsLang.Action

mutual
def perform (ob : Observer σ) (limits : Limits) (call : Caller σ) : Statement → Action σ
  | display _ e => evaluating e Action.display
  | set l x e => evaluating e fun v => assign x v l
  | setIndex l x index e =>
    reading x l fun container => evaluating index fun key => evaluating e fun v =>
      onHeap (Value.storing container key v l)
  | Statement.call l x arguments target => evaluatingAll arguments (calling call x target l)
  | giveBack _ none => finish (.returned .nothing)
  | giveBack _ (some e) => evaluating e fun v => finish (.returned v)
  | exit _ => finish .exited
  | branch _ arms otherwise =>
    performArms ob limits call arms (optional (performOptional ob limits call otherwise))
  | repeatTimes l count body =>
    evaluating count (Action.repeatTimes l (inBlock (performBlock ob limits call body)))
  | repeatForEach l x collection body =>
    evaluating collection (Action.repeatForEach l x (performBlock ob limits call body))
  | repeatWhile l condition body =>
    loopWhile condition (tooLong l limits.rounds) (inBlock (performBlock ob limits call body))
      limits.rounds
  | attempt _ body unsuccessful continuation =>
    followedBy
      (handled (inBlock (performBlock ob limits call body))
        (performOptional ob limits call unsuccessful))
      (performOptional ob limits call continuation)
  | addToList l e x =>
    evaluating e fun v => reading x l fun list => onHeap (Value.addingTo list v l)
  | removeFromList l e x =>
    evaluating e fun v => reading x l fun list => onHeap (Value.removingFrom list v l)
  | note _ _ => skip
termination_by structural st => st

def performBlock (ob : Observer σ) (limits : Limits) (call : Caller σ) :
    List Statement → Action σ
  | [] => skip
  | st :: rest =>
    andThen (announced ob st (st.perform ob limits call)) (performBlock ob limits call rest)
termination_by structural block => block

def performOptional (ob : Observer σ) (limits : Limits) (call : Caller σ) :
    Option (List Statement) → Option (Action σ)
  | none => none
  | some body => some (performBlock ob limits call body)
termination_by structural body => body

def performArms (ob : Observer σ) (limits : Limits) (call : Caller σ) :
    List (Location × Expression × List Statement) → Action σ → Action σ
  | [], otherwise => otherwise
  | (_, condition, body) :: rest, otherwise =>
    choose condition (inBlock (performBlock ob limits call body))
      (performArms ob limits call rest otherwise)
termination_by structural arms => arms
end

end Statement

end StepsLang
