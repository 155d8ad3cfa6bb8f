import StepsLang.Environment

namespace StepsLang.Debug

structure Shown where
  name : Bytes
  type : Bytes
  text : Bytes
  changed : Bool
  deriving DecidableEq, Repr, Inhabited

structure Activation where
  name : Bytes
  file : Bytes
  line : Nat
  locals : List Shown
  deriving DecidableEq, Repr, Inhabited

structure Snapshot where
  file : Bytes
  line : Nat
  stack : List Activation
  globals : List Shown
  deriving DecidableEq, Repr, Inhabited

/-- The texts that variables were last shown with. A variable is known by the number of its frame,
counted from the building's, and its name. -/
abbrev Memory := List ((Nat × Bytes) × Bytes)

def Memory.record (m : Memory) (key : Nat × Bytes) (text : Bytes) : Memory :=
  (key, text) :: m.filter (·.1 != key)

def showVariables (h : Heap) (frame : Nat) (m : Memory) (vs : List (Bytes × Value)) :
    List Shown × Memory :=
  (vs.map fun (name, v) =>
    let text := h.brief v
    { name, type := v.typeName, text, changed := m.lookup (frame, name) != some text },
   vs.foldl (fun m (name, v) => m.record (frame, name) (h.brief v)) m)

def pathOf (sources : Option Sources) (l : Location) : Bytes :=
  match sources with
  | some s => if l.hasFile then s.path l.file else []
  | none => []

def showFrames (sources : Option Sources) (h : Heap) (m : Memory) :
    List Frame → List Activation × Memory
  | [] => ([], m)
  | f :: rest =>
    let (locals, m) := if rest.isEmpty then ([], m) else showVariables h rest.length m f.visible
    let (activations, m) := showFrames sources h m rest
    (⟨f.name, pathOf sources f.current, f.current.line, locals⟩ :: activations, m)

def Snapshot.take (sources : Option Sources) (env : Environment) (h : Heap) (m : Memory) :
    Snapshot × Memory :=
  let (globals, m) := showVariables h 0 m env.bottom.visible
  let (stack, m) := showFrames sources h m env.frames
  ({ file := pathOf sources env.top.current, line := env.top.current.line, stack, globals }, m)

end StepsLang.Debug
