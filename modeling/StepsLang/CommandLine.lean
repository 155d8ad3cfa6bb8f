import StepsLang.CommandLine.Debug
import StepsLang.CommandLine.Run
import StepsLang.CommandLine.Show

namespace StepsLang.CommandLine

def perform (host : Host) (arguments : List Bytes) : Answer :=
  match arguments with
  | [] => host.refuse usage
  | name :: rest =>
    if name == "--version" then host.succeed version
    else if name == "run" then run host rest
    else if name == "check" then check host rest
    else if name == "debug" then debug host rest
    else if name == "run-step" then runStep host rest
    else if name == "diagram" then diagram host rest
    else if name == "tokens" then tokens host rest
    else host.refuse usage

end StepsLang.CommandLine
