import StepsLang.Debug.Control
import StepsLang.Debug.Snapshot
import StepsLang.Execution.Call

/-!
The debugger watches a run, tells a listener what happens, and takes commands in return. It can hold
a run up and end it, but it changes nothing in it. Commands come as answers to what the listener is
told; those that another thread may give in between are left out.
-/

namespace StepsLang.Debug

inductive EventKind
  | paused | called | returned | finished | failed
  deriving DecidableEq, Repr, Inhabited

def EventKind.name : EventKind → Bytes
  | .paused => "paused"
  | .called => "call"
  | .returned => "return"
  | .finished => "finished"
  | .failed => "error"

structure Event where
  kind : EventKind
  snapshot : Snapshot
  message : Bytes := []
  deriving DecidableEq, Repr, Inhabited

inductive Command
  | resume (mode : Mode)
  | stop
  | reset
  | select (mode : Mode)
  | add (b : Breakpoint)
  | remove (file : Bytes) (line : Nat)
  | clear
  deriving DecidableEq, Repr, Inhabited

namespace Command

def proceed : Command := resume .run

def endsPause : Command → Bool
  | resume _ | stop => true
  | _ => false

end Command

/-- The state of a debugger. `depth` is the number of open calls at the statement it last looked at,
`resumed` says that the pause may end, `stopping` that no statement may follow, and `waiting` that a
pause was left without a command to end it. `messages` collects what a verbose debugger says about
itself. -/
structure Debugger where
  control : Control := {}
  depth : Nat := 0
  paused : Bool := false
  resumed : Bool := false
  stopping : Bool := false
  running : Bool := false
  waiting : Bool := false
  memory : Memory := []
  sources : Option Sources := none
  verbose : Bool := false
  messages : Array Bytes := #[]
  deriving Inhabited

namespace Debugger

def say (d : Debugger) (text : Bytes) : Debugger := { d with messages := d.messages.push text }

def log (d : Debugger) (text : Bytes) : Debugger :=
  if d.verbose then d.say ("[DEBUG][Debugger] " ++ text ++ "\n") else d

def obey (d : Debugger) : Command → Debugger
  | .resume mode =>
    if d.stopping then d
    else
      { d with control := d.control.select mode d.depth, resumed := true }.log
        ("resume mode=" ++ mode.name ++ " depth=" ++ Bytes.decimal d.depth)
  | .stop =>
    { d with stopping := true, control := d.control.select .stopped d.depth }.log "stop requested"
  | .reset =>
    { d with
      stopping := false, resumed := false,
      control := if d.control.mode = .stopped then d.control.select .paused 0 else d.control }
  | .select mode =>
    if d.stopping then d
    else { d with control := d.control.select mode d.depth }.log ("mode=" ++ mode.name)
  | .add b =>
    { d with control := d.control.add b }.log
      ("break " ++ b.file ++ ":" ++ Bytes.decimal b.line)
  | .remove file line => { d with control := d.control.remove file line }
  | .clear => { d with control := d.control.clear }

end Debugger

abbrev Listener (τ : Type) := Event → World → Debugger → τ → List Command × τ

def Listener.silent : Listener Unit := fun _ _ _ _ => ([], ())

namespace Debugger

def emit (listener : Listener τ) (kind : EventKind) (message : Bytes) (env : Environment)
    (w : World) : Debugger × τ → Debugger × τ
  | (d, t) =>
    if d.stopping then (d, t)
    else
      let (snapshot, memory) := Snapshot.take d.sources env w.heap d.memory
      let d := { d with memory }
      let (commands, t) := listener { kind, snapshot, message } w d t
      (commands.foldl obey d, t)

def pause (listener : Listener τ) (path : Bytes) (line : Nat) (env : Environment) (w : World)
    (d : Debugger) (t : τ) : Bool × Debugger × τ :=
  let d := { d with paused := true, resumed := false }.log
    ("pause at " ++ (if path.isEmpty then ("<unknown>" : Bytes) else path) ++ ":"
      ++ Bytes.decimal line ++ " depth=" ++ Bytes.decimal d.depth)
  let (d, t) := emit listener .paused [] env w (d, t)
  if d.resumed || d.stopping then (!d.stopping, { d with paused := false }, t)
  else (false, { d with waiting := true }, t)

def before (listener : Listener τ) (st : Statement) (env : Environment) (w : World) :
    Debugger × τ → Bool × Debugger × τ
  | (d, t) =>
    if d.stopping then (false, d, t)
    else
      let path := pathOf d.sources st.location
      let d := { d with depth := env.depth }
      if d.control.pausesAt path st.location.line d.depth then
        pause listener path st.location.line env w d t
      else (true, d, t)

def observer (listener : Listener τ) : Observer (Debugger × τ) where
  before := before listener
  onCall name env w := emit listener .called name env w
  onReturn name env w := emit listener .returned name env w

def conclude (listener : Listener τ) (r : Result) (env : Environment) (w : World)
    (watch : Debugger × τ) : Debugger × τ :=
  let watch := match r.error with
    | some report => emit listener .failed (report.format watch.1.sources) env w watch
    | none => watch
  emit listener .finished [] env w watch

/-- Runs a building under a debugger. A run that is left waiting in a pause has no result. -/
def run (listener : Listener τ) (limits : Limits) (b : Building)
    (s : Session (Debugger × τ)) : Option Result × Session (Debugger × τ) :=
  let (d, t) := s.watch
  let start :=
    { d with depth := 0, memory := [], running := true, waiting := false }.log
      ("run '" ++ b.name ++ "'")
  let (r, s) :=
    { s with watch := (start, t) }.runBuilding (observer listener) limits b
  let (d, t) := s.watch
  if d.waiting then (none, s)
  else
    let d := { d with running := false }
    if d.stopping then
      (some { r with stopped := true }, { s with watch := (d.log "stopped", t) })
    else (some r, { s with watch := conclude listener r s.env s.world (d, t) })

end Debugger

end StepsLang.Debug
