import StepsLang.Mutation
import StepsLang.Native.Basic
import StepsLang.NameMap
import StepsLang.Routine.Basic
import StepsLang.Value.Conversion

/-!
Variables and the frames they live in. A frame belongs to the building or to one call. It has one
main scope and, while loops, arms and handlers are open, block scopes above it. Nothing outside the
innermost frame can be seen from a running program.
-/

namespace StepsLang

/-- A variable. `assigned` matters for fixed ones only, which can be given a value once. -/
structure Variable where
  value : Value
  type : Option TypeName := none
  fixed : Bool := false
  assigned : Bool := false
  deriving DecidableEq, Repr, Inhabited

namespace Variable

def assigning (name : Bytes) (v : Value) (l : Location) : Mutation Variable Unit := do
  let x ← Mutation.read
  if x.fixed then
    if x.assigned then Mutation.fail (Report.fill .fixedReassigned l [("name", name)])
    if let some type := x.type then
      if !v.hasType type then
        Mutation.fail (Report.fixedType name type.spelling v.typeName l)
    Mutation.update fun x => { x with assigned := true }
  Mutation.update fun x => { x with value := v }

theorem assigning_eq (x : Variable) (name : Bytes) (v : Value) (l : Location) :
    assigning name v l x =
      if !x.fixed then (.ok (), { x with value := v })
      else if x.assigned then (.error (Report.fill .fixedReassigned l [("name", name)]), x)
      else
        match x.type with
        | some type =>
          if v.hasType type then (.ok (), { x with value := v, assigned := true })
          else (.error (Report.fixedType name type.spelling v.typeName l), x)
        | none => (.ok (), { x with value := v, assigned := true }) := by
  obtain ⟨old, type, fixed, assigned⟩ := x
  cases fixed with
  | false => rfl
  | true =>
    cases assigned with
    | true => rfl
    | false =>
      cases type with
      | none => rfl
      | some type =>
        cases e : v.hasType type <;>
          simp [assigning, Mutation.bind_apply, Mutation.read, Mutation.fail, Mutation.update, e]

theorem atomic_assigning (name : Bytes) (v : Value) (l : Location) :
    (assigning name v l).Atomic := by
  intro x r y failed
  rw [assigning_eq] at failed
  grind

end Variable

abbrev Scope := NameMap Variable

structure Frame where
  name : Bytes
  callSite : Location := {}
  current : Location := {}
  main : Scope := {}
  blocks : List Scope := []
  deriving Inhabited

namespace Frame

def scopes (f : Frame) : List Scope := f.blocks ++ [f.main]

def find? (f : Frame) (name : Bytes) : Option Variable := f.scopes.findSome? (·.find? name)

def define (f : Frame) (name : Bytes) (x : Variable) : Frame :=
  match f.blocks with
  | [] => { f with main := f.main.insert name x }
  | block :: rest => { f with blocks := block.insert name x :: rest }

def replace (f : Frame) (name : Bytes) (x : Variable) : Frame :=
  match go f.blocks with
  | some blocks => { f with blocks }
  | none => { f with main := f.main.insert name x }
where
  go : List Scope → Option (List Scope)
    | [] => none
    | block :: rest =>
      if block.contains name then some (block.insert name x :: rest) else (go rest).map (block :: ·)

def visible (f : Frame) : List (Bytes × Value) :=
  let all := f.blocks.foldr (fun block outer => outer.overlay block) f.main
  all.entries.map fun (name, x) => (name, x.value)

def setting (name : Bytes) (v : Value) (l : Location) : Mutation Frame Unit := fun f =>
  match f.find? name with
  | none => (.ok (), f.define name { value := v })
  | some x =>
    let (done, x) := Variable.assigning name v l x
    (done, f.replace name x)

def assigned (x : Variable) (name : Bytes) (v : Value) (l : Location) : Except Report Variable :=
  (Variable.assigning name v l).made x

def set (f : Frame) (name : Bytes) (v : Value) (l : Location) : Except Report Frame :=
  (setting name v l).made f

theorem go_of_find? {name : Bytes} {x : Variable} {blocks : List Scope}
    (h : blocks.findSome? (·.find? name) = some x) : replace.go name x blocks = some blocks := by
  induction blocks with
  | nil => cases h
  | cons block rest ih =>
    cases here : block.find? name with
    | none =>
      simp only [List.findSome?_cons, here] at h
      simp [replace.go, NameMap.contains, here, ih h]
    | some y =>
      simp only [List.findSome?_cons, here, Option.some.injEq] at h
      subst h
      simp [replace.go, NameMap.contains, here, NameMap.insert_of_find? here]

theorem go_of_unknown {name : Bytes} {x : Variable} {blocks : List Scope}
    (h : blocks.findSome? (·.find? name) = none) : replace.go name x blocks = none := by
  induction blocks with
  | nil => rfl
  | cons block rest ih =>
    obtain ⟨here, later⟩ := List.forall_mem_cons.1 (List.findSome?_eq_none_iff.1 h)
    simp [replace.go, NameMap.contains, here, ih (List.findSome?_eq_none_iff.2 later)]

theorem replace_of_find? {f : Frame} {name : Bytes} {x : Variable} (h : f.find? name = some x) :
    f.replace name x = f := by
  unfold find? scopes at h
  rw [List.findSome?_append] at h
  cases inBlocks : f.blocks.findSome? (·.find? name) with
  | some y =>
    obtain rfl : y = x := by simpa [inBlocks] using h
    simp only [replace, go_of_find? inBlocks]
  | none =>
    have inMain : f.main.find? name = some x := by simpa [inBlocks] using h
    simp only [replace, go_of_unknown inBlocks, NameMap.insert_of_find? inMain]

theorem atomic_setting (name : Bytes) (v : Value) (l : Location) :
    (setting name v l).Atomic := by
  intro f r g failed
  unfold setting at failed
  split at failed
  · cases failed
  · next x known =>
    rcases e : Variable.assigning name v l x with ⟨r' | _, y⟩ <;> rw [e] at failed <;> cases failed
    rw [Variable.atomic_assigning name v l x r y e]
    exact replace_of_find? known

theorem assigned_eq (x : Variable) (name : Bytes) (v : Value) (l : Location) :
    assigned x name v l =
      if !x.fixed then .ok { x with value := v }
      else if x.assigned then .error (Report.fill .fixedReassigned l [("name", name)])
      else
        match x.type with
        | some type =>
          if v.hasType type then .ok { x with value := v, assigned := true }
          else .error (Report.fixedType name type.spelling v.typeName l)
        | none => .ok { x with value := v, assigned := true } := by
  unfold assigned
  rw [Mutation.made_eq, Variable.assigning_eq]
  grind

theorem set_eq (f : Frame) (name : Bytes) (v : Value) (l : Location) :
    f.set name v l =
      match f.find? name with
      | none => .ok (f.define name { value := v })
      | some x => f.replace name <$> assigned x name v l := by
  unfold set assigned
  rw [Mutation.made_eq, setting]
  cases f.find? name with
  | none => rfl
  | some x =>
    simp only [Mutation.made_eq]
    rcases Variable.assigning name v l x with ⟨_ | _, y⟩ <;> rfl

def declare (f : Frame) (d : Declaration) (v : Value) : Frame :=
  { f with main := f.main.insert d.name { value := v, type := some d.type, fixed := d.fixed } }

def pushBlock (f : Frame) : Frame := { f with blocks := {} :: f.blocks }

def popBlock (f : Frame) : Frame := { f with blocks := f.blocks.tail }

end Frame

/-- The frames and the steps that run, innermost first, and what can be called. The last frame is
the building's own, so there always is one. A step may use its own risers while it runs. In an
interactive environment steps cannot be called. -/
structure Environment where
  top : Frame
  below : List Frame := []
  running : List Step := []
  steps : NameMap Step := {}
  floors : NameMap Floor := {}
  interactive : Bool := false
  deriving Inhabited

namespace Environment

def fresh (name : Bytes) (interactive : Bool) : Environment := { top := { name }, interactive }

def frames (env : Environment) : List Frame := env.top :: env.below

def bottom (env : Environment) : Frame := env.below.getLastD env.top

def depth (env : Environment) : Nat := env.below.length

def visible (env : Environment) : List (Bytes × Value) := env.top.visible

def has (env : Environment) (name : Bytes) : Bool := (env.top.find? name).isSome

def undefined (env : Environment) (name : Bytes) (l : Location) : Report :=
  let r := Report.undefinedVariable name l (env.visible.map (·.1))
  if env.interactive then { r with hint := "Try: set " ++ name ++ " to some_value" } else r

def get (env : Environment) (name : Bytes) (l : Location) : Except Report Value :=
  match env.top.find? name with
  | some x => .ok x.value
  | none => .error (env.undefined name l)

def setting (name : Bytes) (v : Value) (l : Location) : Mutation Environment Unit := fun env =>
  let (done, top) := Frame.setting name v l env.top
  (done, { env with top })

def set (env : Environment) (name : Bytes) (v : Value) (l : Location) :
    Except Report Environment :=
  (setting name v l).made env

/-- A failed assignment leaves the value and the mark of every variable in every frame as it was. -/
theorem atomic_setting (name : Bytes) (v : Value) (l : Location) :
    (setting name v l).Atomic := by
  intro env r after failed
  unfold setting at failed
  rcases e : Frame.setting name v l env.top with ⟨r' | _, top⟩ <;> rw [e] at failed <;>
    cases failed
  rw [Frame.atomic_setting name v l env.top r top e]

theorem set_eq (env : Environment) (name : Bytes) (v : Value) (l : Location) :
    env.set name v l = (fun top => { env with top }) <$> env.top.set name v l := by
  unfold set Frame.set
  rw [Mutation.made_eq, Mutation.made_eq, setting]
  rcases Frame.setting name v l env.top with ⟨_ | _, top⟩ <;> rfl

def define (env : Environment) (name : Bytes) (v : Value) : Environment :=
  { env with top := env.top.define name { value := v } }

def declare (env : Environment) (d : Declaration) (v : Value) : Environment :=
  { env with top := env.top.declare d v }

def pushBlock (env : Environment) : Environment := { env with top := env.top.pushBlock }

def popBlock (env : Environment) : Environment := { env with top := env.top.popBlock }

/-- Opens a frame. It stands where it was called from until its first statement, unless it is told
another place. -/
def pushFrame (env : Environment) (name : Bytes) (l : Location) (place : Option Location := none) :
    Environment :=
  { env with
    top := { name, callSite := l, current := place.getD l }, below := env.top :: env.below }

def popFrame (env : Environment) : Environment :=
  match env.below with
  | [] => env
  | top :: below => { env with top, below }

def pushStep (env : Environment) (s : Step) : Environment :=
  { env with running := s :: env.running }

def popStep (env : Environment) : Environment := { env with running := env.running.tail }

def moveTo (env : Environment) (l : Location) : Environment :=
  { env with top := { env.top with current := l } }

def addStep (env : Environment) (s : Step) : Environment :=
  { env with steps := env.steps.insert s.name s }

def addFloor (env : Environment) (f : Floor) : Environment :=
  { env with floors := env.floors.insert f.name f }

def resolve (env : Environment) (name : Bytes) (l : Location) : Except Report Step :=
  if env.interactive then .error (Report.fill .stepCallUnavailable l [("name", name)])
  else
    match env.steps.find? name with
    | some s => .ok s
    | none => .error (Report.undefinedStep name l (env.steps.names ++ Native.names))

end Environment

end StepsLang
