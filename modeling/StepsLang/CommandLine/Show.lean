import StepsLang.CommandLine.Host

namespace StepsLang.CommandLine

def parameterText (names : List Bytes) : Bytes :=
  match names with
  | first :: _ :: _ :: _ => first ++ ", ... (" ++ Bytes.decimal names.length ++ " total)"
  | _ => Bytes.join ", " names

def stepText (s : Step) : Bytes :=
  let needs := parameterText s.parameterNames
  let details :=
    (if needs.isEmpty then [] else [("needs: " : Bytes) ++ needs])
      ++ s.returns.toList.map fun r => ("returns: " : Bytes) ++ r.name
  "step: " ++ s.name ++ Bytes.onlyIf (!details.isEmpty) (" (" ++ Bytes.join "; " details ++ ")")

def branches : List (Bytes × List Bytes) → List Bytes
  | [] => []
  | [(text, below)] => ("`-- " ++ text) :: below.map (("    " : Bytes) ++ ·)
  | (text, below) :: rest =>
    (("+-- " ++ text) :: below.map (("|   " : Bytes) ++ ·)) ++ branches rest

def floorLines (p : Project) (f : Floor) : List Bytes :=
  branches (f.steps.map fun e =>
    (match p.step? e.name with
      | some s => stepText s
      | none => "step: " ++ e.name ++ " (missing)", []))

def diagram (host : Host) (arguments : List Bytes) : Answer :=
  match arguments with
  | [dir] =>
    let p := Project.load host.files dir
    match p.building with
    | none => host.refuse (Report.formatAll p.reports (some p.sources))
    | some b =>
      let tree := branches (p.floors.map fun f => ("floor: " ++ f.name, floorLines p f))
      { host.succeed (printed (("building: " ++ b.name) :: tree)) with
        code := if p.reports.isEmpty then 0 else 1 }
  | _ => host.refuse usage

def tokenLine (t : Token) : Bytes :=
  let shown := match t.kind with
    | .numeral | .quoted | .name | .note => " '" ++ t.text ++ "'"
    | _ => []
  Bytes.decimal t.location.line ++ ":" ++ Bytes.decimal t.location.column ++ " "
    ++ t.kind.spelling ++ shown

def tokens (host : Host) (arguments : List Bytes) : Answer :=
  match arguments with
  | [path] =>
    match Library.empty.load host.files path with
    | .error r => host.refuse (r.format (some Library.empty) ++ "\n")
    | .ok (file, text, sources) =>
      let stream := TokenStream.ofSource file text
      let out := printed (stream.tokens.map fun h => tokenLine h.token)
      if stream.reports.isEmpty then host.succeed out
      else
        { host.refuse
            ("\n" ++ Report.formatAll stream.reports (some sources)) with out }
  | _ => host.refuse usage

end StepsLang.CommandLine
