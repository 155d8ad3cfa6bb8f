import StepsLang.Library
import StepsLang.Proofs.Number.Text
import StepsLang.Proofs.Sources.Registry

namespace StepsLang

namespace Bytes

end Bytes

namespace Report

def heading (r : Report) (sources : Option Sources) : Bytes :=
  "Error " ++ r.code ++ ": " ++ r.message
    ++ Bytes.onlyIf r.location.hasLine ("\n" ++ place r.location sources)
    ++ Bytes.onlyIf (!r.hint.isEmpty) ("\nHint: " ++ r.hint)

section

variable {r : Report} {s : Sources} {library : Library} {l : Location}
  {width line count n : Nat} {ns : List Nat} {rows : List Bytes} {groups : List (List Bytes)}

end

end Report

end StepsLang
