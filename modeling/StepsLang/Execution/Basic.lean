import StepsLang.Expression.Evaluation
import StepsLang.Statement.Basic

namespace StepsLang

/-- How a statement ends: so that the next one follows, leaving a routine with a value, leaving a
loop or routine, with a report that an `attempt` may take, or because who watches wants no more. -/
inductive Outcome
  | normal
  | returned (v : Value)
  | exited
  | failed (r : Report)
  | stopped
  deriving DecidableEq, Repr, Inhabited

/-- Who watches a run, with a memory of type `σ`. Before each statement it says whether to go on; it
hears of every call once the frame is set up and before the frame is left in a regular way. -/
structure Observer (σ : Type) where
  before : Statement → Environment → World → σ → Bool × σ
  onCall : Bytes → Environment → World → σ → σ
  onReturn : Bytes → Environment → World → σ → σ

def Observer.none : Observer Unit :=
  { before := fun _ _ _ _ => (true, ()), onCall := fun _ _ _ _ => (), onReturn := fun _ _ _ _ => () }

structure Limits where
  rounds : Nat := 10000
  depth : Nat := 100
  deriving DecidableEq, Repr, Inhabited

structure Session (σ : Type) where
  env : Environment
  world : World
  watch : σ

abbrev Action (σ : Type) := Session σ → Outcome × Session σ

namespace Action

def skip : Action σ := fun s => (.normal, s)

def finish (o : Outcome) : Action σ := fun s => (o, s)

def andThen (a b : Action σ) : Action σ := fun s =>
  match a s with
  | (.normal, s) => b s
  | (o, s) => (o, s)

def obtaining (x : Effect α) (k : α → Action σ) : Action σ := fun s =>
  match x s.world with
  | (.ok a, world) => k a { s with world }
  | (.error r, world) => (.failed r, { s with world })

def evaluating (e : Expression) (k : Value → Action σ) : Action σ := fun s =>
  obtaining (e.eval s.env) k s

def evaluatingAll (es : List Expression) (k : List Value → Action σ) : Action σ := fun s =>
  obtaining (Expression.evalItems s.env es) k s

def reading (name : Bytes) (l : Location) (k : Value → Action σ) : Action σ := fun s =>
  match s.env.get name l with
  | .ok v => k v s
  | .error r => (.failed r, s)

def assign (name : Bytes) (v : Value) (l : Location) : Action σ := fun s =>
  match Environment.setting name v l s.env with
  | (.ok _, env) => (.normal, { s with env })
  | (.error r, env) => (.failed r, { s with env })

theorem assign_eq (name : Bytes) (v : Value) (l : Location) (s : Session σ) :
    assign name v l s =
      match s.env.set name v l with
      | .ok env => (.normal, { s with env })
      | .error r => (.failed r, s) := by
  rw [assign, (Environment.atomic_setting name v l).made_eq, Environment.set]
  cases (Environment.setting name v l).made s.env <;> rfl

def onHeap (c : Mutation Heap α) : Action σ := fun s =>
  match c s.world.heap with
  | (.ok _, heap) => (.normal, { s with world := { s.world with heap } })
  | (.error r, heap) => (.failed r, { s with world := { s.world with heap } })

def display (v : Value) : Action σ := fun s =>
  (.normal,
    { s with world := { s.world with output := s.world.output.push (s.world.heap.display v) } })

def inBlock (a : Action σ) : Action σ := fun s =>
  let (o, s) := a { s with env := s.env.pushBlock }
  (o, { s with env := s.env.popBlock })

def inBlockWith (name : Bytes) (v : Value) (a : Action σ) : Action σ :=
  inBlock fun s => a { s with env := s.env.define name v }

@[inline]
def afterRound (next : Action σ) : Outcome × Session σ → Outcome × Session σ
  | (.normal, s) => next s
  | (.exited, s) => (.normal, s)
  | (o, s) => (o, s)

def times (round : Action σ) : Nat → Action σ
  | 0, s => (.normal, s)
  | n + 1, s => afterRound (times round n) (round s)

def forEach (name : Bytes) (round : Action σ) : List Value → Action σ
  | [], s => (.normal, s)
  | v :: rest, s => afterRound (forEach name round rest) (inBlockWith name v round s)

def holds (condition : Expression) (s : Session σ) : Except Report Bool × Session σ :=
  match condition.eval s.env s.world with
  | (.ok v, world) => (.ok (v.truthy world.heap), { s with world })
  | (.error r, world) => (.error r, { s with world })

@[inline]
def choose (condition : Expression) (yes no : Action σ) : Action σ := fun s =>
  match holds condition s with
  | (.ok true, s) => yes s
  | (.ok false, s) => no s
  | (.error r, s) => (.failed r, s)

def loopWhile (condition : Expression) (tooLong : Report) (round : Action σ) : Nat → Action σ
  | 0, s => choose condition (finish (.failed tooLong)) skip s
  | n + 1, s =>
    choose condition (fun s => afterRound (loopWhile condition tooLong round n) (round s)) skip s

def handled (a : Action σ) (handler : Option (Action σ)) : Action σ := fun s =>
  match a s, handler with
  | (.failed r, s), some b => inBlockWith "problem_message" (.text r.message) b s
  | (.failed _, s), none => (.normal, s)
  | (o, s), _ => (o, s)

def followedBy (a : Action σ) (last : Option (Action σ)) : Action σ := fun s =>
  match a s, last with
  | (.stopped, s), _ => (.stopped, s)
  | (o, s), some b =>
    match inBlock b s with
    | (.normal, s) => (o, s)
    | (other, s) => (other, s)
  | (o, s), none => (o, s)

def announced (ob : Observer σ) (st : Statement) (a : Action σ) : Action σ := fun s =>
  match st with
  | .note .. => (.normal, s)
  | _ =>
    let env := s.env.moveTo st.location
    let (go, watch) := ob.before st env s.world s.watch
    if go then a { s with env, watch } else (.stopped, { s with env, watch })

end Action

end StepsLang
