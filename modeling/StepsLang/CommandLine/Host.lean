import StepsLang.CommandLine.Options
import StepsLang.Execution.Call
import StepsLang.Execution.Trace
import StepsLang.Project

namespace StepsLang.CommandLine

structure Host where
  files : Files := {}
  input : Bytes := []
  random : Random := {}
  traceSetting : Option Bytes := none
  debugSetting : Option Bytes := none
  deriving Inhabited

def isOn (setting : Option Bytes) : Bool :=
  match setting with
  | some text => !text.isEmpty && text != "0"
  | none => false

/-- What a command comes to: its exit code, what it printed, the files as it leaves them, and how
many lines of standard input it asked for. -/
structure Answer where
  code : Nat
  out : Bytes := []
  err : Bytes := []
  files : Files := {}
  reads : Nat := 0
  deriving Inhabited

def version : Bytes := "steps v0.1.0\n"

def usage : Bytes :=
  version
    ++ "Usage: steps run <project-dir> [--trace] [--stdin-from <file>]"
    ++ " [--max-iterations N] [--max-depth N]\n"
    ++ "       steps check <project-dir>\n"
    ++ "       steps debug <project-dir> [--break file:line]* [--script <file>]"
    ++ " [--stdin-from <file>] [--max-iterations N] [--max-depth N]\n"
    ++ "       steps run-step <project-dir> <step> [args...] [--trace]"
    ++ " [--stdin-from <file>]\n"
    ++ "       steps diagram <project-dir>\n"
    ++ "       steps tokens <file>\n"
    ++ "\nNotes:\n"
    ++ "  A project directory holds one .building file and a folder per floor.\n"
    ++ "  run-step arguments are read as numbers, true/false, or text.\n"
    ++ "  Debug scripts hold one command per line: continue, step, over, out, stop.\n"

namespace Host

def refuse (host : Host) (err : Bytes) : Answer := { code := 1, err, files := host.files }

def succeed (host : Host) (out : Bytes) : Answer := { code := 0, out, files := host.files }

def withProject (host : Host) (dir : Bytes) (k : Project → Building → Answer) : Answer :=
  let p := Project.load host.files dir
  match p.building, p.reports with
  | some b, [] => k p b
  | _, reports => host.refuse (Report.formatAll reports (some p.sources))

def withWorld (host : Host) (o : Options) (k : World → Answer) : Answer :=
  let world (input : Input) : World := { files := host.files, input, random := host.random }
  if o.stdin.isEmpty then k (world (.ofText host.input))
  else
    match Input.ofPath? host.files o.stdin with
    | some input => k (world input)
    | none => host.refuse ("error: unable to open " ++ o.stdin ++ "\n")

def traces (host : Host) (o : Options) : Bool := o.trace || isOn host.traceSetting

end Host

def printed (lines : List Bytes) : Bytes := lines.flatMap (· ++ "\n")

def failureText (r : Result) (sources : Sources) : Bytes :=
  match r.error with
  | some report => report.format (some sources) ++ "\n"
  | none => []

def readsOf (o : Options) (w : World) : Nat := if o.stdin.isEmpty then w.input.reads else 0

end StepsLang.CommandLine
