import StepsLang.Execution.Statement
import StepsLang.Native.Call

/-!
Calls and whole runs. Every call uses up one of the calls that may still be opened inside it, so a
program that calls itself without end comes to a report.
-/

namespace StepsLang

namespace Session

/-- Opens the frame of a call: declared variables first, then arguments, which may take their
place. -/
def enter (s : Session σ) (r : Routine) (owner : Step) (arguments : List Value) (l : Location) :
    Session σ :=
  let env := (s.env.pushFrame r.name l).pushStep owner
  let (env, heap) := r.declarations.foldl
    (fun (env, heap) d =>
      let (v, heap) := heap.default d.type
      (env.declare d v, heap)) (env, s.world.heap)
  let env := (r.parameters.zip arguments).foldl (fun env (p, v) => env.define p.name v) env
  { s with env, world := { s.world with heap } }

def leave (s : Session σ) : Session σ := { s with env := s.env.popStep.popFrame }

end Session

namespace Call

def miscounted (name : Bytes) (parameters : List Bytes) (actual : Nat) (l : Location) : Report :=
  Report.fill .argumentCount l
    [("name", name), ("expected", Bytes.decimal parameters.length),
     ("actual", Bytes.decimal actual),
     ("params", if parameters.isEmpty then "(none)" else Bytes.join ", " parameters)]

def tooDeep (limit : Nat) (name : Bytes) (l : Location) : Report :=
  Report.fill .callTooDeep l [("limit", Bytes.decimal limit), ("step_name", name)]

abbrev Invoker (σ : Type) :=
  Routine → Step → List Value → Location → Session σ → CallResult × Session σ

def native (f : Native) (arguments : List Value) (l : Location) (s : Session σ) :
    CallResult × Session σ :=
  match f.call? arguments l with
  | none => (.failed (miscounted f.name f.parameters arguments.length l), s)
  | some effect =>
    match effect s.world with
    | (.ok v, world) => (.value v, { s with world })
    | (.error r, world) => (.failed r, { s with world })

def byName (invoke : Invoker σ) : Caller σ := fun name arguments l s =>
  match s.env.running.head?.bind fun owner => (owner.riser? name).map (·, owner) with
  | some (riser, owner) => invoke riser owner arguments l s
  | none =>
    match Native.ofName? name with
    | some f => native f arguments l s
    | none =>
      match s.env.resolve name l with
      | .ok step => invoke step.toRoutine step arguments l s
      | .error r => (.failed r, s)

def finish (ob : Observer σ) (name : Bytes) : Outcome × Session σ → CallResult × Session σ
  | (.failed r, s) => (.failed r, s.leave)
  | (.stopped, s) => (.stopped, s.leave)
  | (.returned v, s) => (.value v, (told s).leave)
  | (.normal, s) | (.exited, s) => (.value .nothing, (told s).leave)
where
  told (s : Session σ) : Session σ := { s with watch := ob.onReturn name s.env s.world s.watch }

def invoke (ob : Observer σ) (limits : Limits) : Nat → Invoker σ
  | 0, r, _, _, l, s => (.failed (tooDeep limits.depth r.name l), s)
  | n + 1, r, owner, arguments, l, s =>
    if arguments.length != r.parameters.length then
      (.failed (miscounted r.name r.parameterNames arguments.length l), s)
    else
      let s := s.enter r owner arguments l
      let s := { s with watch := ob.onCall r.name s.env s.world s.watch }
      finish ob r.name
        (Statement.performBlock ob limits (byName (invoke ob limits n)) r.body s)

end Call

/-- What a run came to. `stopped` says that who watched wanted no more, and `value` is what a step
that was run by itself returned. -/
structure Result where
  success : Bool := false
  error : Option Report := none
  stopped : Bool := false
  value : Value := .nothing
  deriving DecidableEq, Repr, Inhabited

namespace Result

def ofOutcome : Outcome → Result
  | .normal | .returned _ | .exited => { success := true }
  | .failed r => { error := some r }
  | .stopped => { stopped := true }

def ofCall : CallResult → Result
  | .value value => { success := true, value }
  | .failed r => { error := some r }
  | .stopped => { stopped := true }

end Result

namespace Session

def callsLeft (s : Session σ) (limits : Limits) : Nat := limits.depth - s.env.depth

def runBlock (ob : Observer σ) (limits : Limits) (body : List Statement) (s : Session σ) :
    Result × Session σ :=
  let call := Call.byName (Call.invoke ob limits (s.callsLeft limits))
  let (o, s) := Statement.performBlock ob limits call body s
  (Result.ofOutcome o, s)

def runBuilding (ob : Observer σ) (limits : Limits) (b : Building) (s : Session σ) :
    Result × Session σ :=
  s.runBlock ob limits b.body

def runStep (ob : Observer σ) (limits : Limits) (step : Step) (arguments : List Value)
    (s : Session σ) : Result × Session σ :=
  let (r, s) :=
    Call.invoke ob limits (s.callsLeft limits) step.toRoutine step arguments step.location s
  (Result.ofCall r, s)

end Session

end StepsLang
