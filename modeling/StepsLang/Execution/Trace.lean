import StepsLang.Execution.Basic

namespace StepsLang

def Statement.traceLine (sources : Option Sources) (st : Statement) (depth : Nat) : Bytes :=
  let l := st.location
  let path := ((sources.map (·.path l.file)).getD [])
  let file :=
    if !l.hasFile then ("<unknown>" : Bytes)
    else if path.isEmpty then "<file " ++ Bytes.decimal l.file ++ ">"
    else path
  "[TRACE] " ++ file ++ Bytes.onlyIf l.hasLine (":" ++ Bytes.decimal l.line) ++ " "
    ++ Bytes.decimal depth ++ " " ++ st.kindName ++ "\n"

namespace Observer

def traced (sources : Option Sources) (record : Bytes → σ → σ) (ob : Observer σ) : Observer σ :=
  { ob with
    before := fun st env w watch =>
      match ob.before st env w watch with
      | (true, watch) => (true, record (st.traceLine sources env.depth) watch)
      | (false, watch) => (false, watch) }

def trace (sources : Option Sources) : Observer (Array Bytes) :=
  traced sources (fun line lines => lines.push line)
    { before := fun _ _ _ lines => (true, lines), onCall := fun _ _ _ lines => lines,
      onReturn := fun _ _ _ lines => lines }

end Observer

end StepsLang
