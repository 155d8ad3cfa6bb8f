import StepsLang.CommandLine.Host
import StepsLang.Debug.Script

namespace StepsLang.CommandLine

open StepsLang.Debug

structure DebugOptions where
  shared : Options := {}
  breakpoints : List Breakpoint := []
  script : Bytes := []
  deriving Inhabited

def DebugOptions.read (o : DebugOptions) (args : List Bytes) : Except Bytes DebugOptions :=
  match args with
  | [] => .ok o
  | arg :: rest =>
    if arg == "--break" then
      match rest with
      | [] => .error usage
      | spec :: rest =>
        match breakpoint? spec with
        | some b => { o with breakpoints := o.breakpoints ++ [b] }.read rest
        | none =>
          .error ("error: invalid breakpoint '" ++ spec ++ "'; expected file:line\n")
    else if arg == "--script" then
      match rest with
      | [] => .error usage
      | path :: rest => { o with script := path }.read rest
    else
      match h : o.shared.take (arg :: rest) with
      | .some shared rest' =>
        have := Options.length_take h
        { o with shared }.read rest'
      | _ => .error usage
termination_by args.length
decreasing_by all_goals simp only [List.length_cons] at *; omega

/-- What the listener keeps: commands still to be given, what was printed on either stream, and how
many displayed lines are among it. -/
structure Console where
  script : Script
  out : Bytes := []
  err : Bytes := []
  shown : Nat := 0
  deriving Inhabited

namespace Console

def print (c : Console) (text : Bytes) : Console := { c with out := c.out ++ text }

def flush (c : Console) (w : World) : Console :=
  { c.print (printed (w.output.toList.drop c.shown)) with shown := w.output.size }

end Console

def variableLine (v : Shown) : Bytes :=
  ("    " : Bytes) ++ (if v.changed then "* " else "  ") ++ v.name ++ " = " ++ v.text ++ " ("
    ++ v.type ++ ")\n"

def variableLines (title : Bytes) (vs : List Shown) : Bytes :=
  Bytes.onlyIf (!vs.isEmpty) ("  " ++ title ++ ":\n" ++ vs.flatMap variableLine)

def pauseText (s : Snapshot) : Bytes :=
  let (name, locals) := match s.stack with
    | [] => (([] : Bytes), [])
    | [a] => (" in " ++ a.name, [])
    | a :: _ => (" in " ++ a.name, a.locals)
  "[DEBUG] paused at " ++ s.file ++ ":" ++ Bytes.decimal s.line ++ name ++ "\n"
    ++ variableLines "locals" locals ++ variableLines "globals" s.globals

def listener : Listener Console := fun e w _ c =>
  let c := c.flush w
  match e.kind with
  | .paused =>
    let (command, script) := c.script.next
    ([command], { c.print (pauseText e.snapshot) with script })
  | .called => ([], c.print ("[DEBUG] enter " ++ e.message ++ "\n"))
  | .returned => ([], c.print ("[DEBUG] leave " ++ e.message ++ "\n"))
  | .failed => ([], { c with err := c.err ++ e.message ++ "\n" })
  | .finished => ([], c.print "[DEBUG] finished\n")

def debuggerOf (host : Host) (p : Project) (o : DebugOptions) : Debugger :=
  let d : Debugger := { sources := some p.sources, verbose := isOn host.debugSetting }
  let d := o.breakpoints.foldl (fun d b => d.obey (.add b)) d
  d.obey (.select (if o.breakpoints.isEmpty then .paused else .run))

def debugWith (host : Host) (p : Project) (b : Building) (o : DebugOptions) (w : World) : Answer :=
  let (script, messages) :=
    if o.script.isEmpty then ([], []) else Script.ofFile host.files o.script
  let d := messages.foldl Debugger.say (debuggerOf host p o)
  let (r, s) := Debugger.run listener o.shared.limits b
    { env := p.environment, world := w, watch := (d, { script }) }
  let c := s.watch.2.flush s.world
  let stopped := r.any (·.stopped)
  { code := if stopped || r.any (·.success) then 0 else 1
    out := c.out ++ Bytes.onlyIf stopped "[DEBUG] stopped\n"
    err := s.watch.1.messages.toList.flatten ++ c.err
    files := s.world.files
    reads := readsOf o.shared s.world }

def debug (host : Host) (arguments : List Bytes) : Answer :=
  match arguments with
  | [] => host.refuse usage
  | dir :: rest =>
    match DebugOptions.read {} rest with
    | .error text => host.refuse text
    | .ok o =>
      host.withProject dir fun p b => host.withWorld o.shared (debugWith host p b o)

end StepsLang.CommandLine
