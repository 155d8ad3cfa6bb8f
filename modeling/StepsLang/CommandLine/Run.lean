import StepsLang.CommandLine.Host
import StepsLang.Number.Numeral

namespace StepsLang.CommandLine

def answerOf (host : Host) (o : Options) (p : Project) (r : Result) (last : Bytes)
    (s : Session (Array Bytes)) : Answer :=
  { code := if r.success then 0 else 1
    out := printed s.world.output.toList ++ last
    err := Bytes.onlyIf (host.traces o) s.watch.toList.flatten ++ failureText r p.sources
    files := s.world.files
    reads := readsOf o s.world }

def runBuilding (host : Host) (o : Options) (p : Project) (b : Building) (w : World) : Answer :=
  let (r, s) := Session.runBuilding (.trace (some p.sources)) o.limits b
    { env := p.environment, world := w, watch := #[] }
  answerOf host o p r [] s

def run (host : Host) (arguments : List Bytes) : Answer :=
  match arguments with
  | [] => host.refuse usage
  | dir :: rest =>
    match ({} : Options).takeAll rest with
    | none => host.refuse usage
    | some o => host.withProject dir fun p b => host.withWorld o (runBuilding host o p b)

def check (host : Host) (arguments : List Bytes) : Answer :=
  match arguments with
  | [dir] =>
    let p := Project.load host.files dir
    match p.building, p.reports with
    | some b, [] =>
      host.succeed ("OK: building '" ++ b.name ++ "', " ++ Bytes.decimal p.floors.length
        ++ " floor(s), " ++ Bytes.decimal p.steps.length ++ " step(s).\n")
    | _, reports =>
      host.refuse (Report.formatAll reports (some p.sources) ++ "\n"
        ++ Bytes.decimal reports.length ++ " error(s) found.\n")
  | _ => host.refuse usage

def argumentValue (text : Bytes) : Value :=
  if text == "true" then .boolean true
  else if text == "false" then .boolean false
  else
    match Number.ofArgument? text with
    | some n => .number n
    | none => .text text

def stepArguments (o : Options) (args : List Bytes) : Option (Options × List Bytes) :=
  match args with
  | [] => some (o, [])
  | arg :: rest =>
    if !arg.startsWith "--" then
      (stepArguments o rest).map fun (o, values) => (o, arg :: values)
    else
      match h : o.take (arg :: rest) with
      | .some o rest' =>
        have := Options.length_take h
        stepArguments o rest'
      | _ => none
termination_by args.length
decreasing_by all_goals simp only [List.length_cons] at *; omega

def runStepWith (host : Host) (o : Options) (p : Project) (step : Step) (values : List Bytes)
    (w : World) : Answer :=
  let (r, s) := Session.runStep (.trace (some p.sources)) o.limits step (values.map argumentValue)
    { env := p.environment, world := w, watch := #[] }
  let last :=
    if !r.success || r.value = .nothing then [] else printed [s.world.heap.display r.value]
  answerOf host o p r last s

def runStep (host : Host) (arguments : List Bytes) : Answer :=
  match arguments with
  | dir :: name :: rest =>
    match stepArguments {} rest with
    | none => host.refuse usage
    | some (o, values) =>
      host.withProject dir fun p _ =>
        match p.step? name with
        | none => host.refuse ("error: no step named '" ++ name ++ "' in this project\n")
        | some step => host.withWorld o (runStepWith host o p step values)
  | _ => host.refuse usage

end StepsLang.CommandLine
