import StepsLang.Proofs.Execution.Law
import StepsLang.Proofs.Relocation.Value

namespace StepsLang

def TypedName.relocate (f : Location → Location) (x : TypedName) : TypedName :=
  { x with location := f x.location }

def Declaration.relocate (f : Location → Location) (d : Declaration) : Declaration :=
  { d with location := f d.location }

def Routine.relocate (f : Location → Location) (r : Routine) : Routine :=
  { r with
    location := f r.location
    parameters := r.parameters.map (TypedName.relocate f)
    returns := r.returns.map (TypedName.relocate f)
    declarations := r.declarations.map (Declaration.relocate f)
    body := Statement.relocateAll f r.body }

def Step.relocate (f : Location → Location) (s : Step) : Step :=
  { s with
    toRoutine := s.toRoutine.relocate f
    floorLocation := f s.floorLocation
    risers := s.risers.map (Routine.relocate f) }

@[simp] theorem Routine.relocate_id (r : Routine) : r.relocate id = r := by
  have names (xs : List TypedName) : xs.map (TypedName.relocate id) = xs := List.map_id xs
  have name (x : Option TypedName) : x.map (TypedName.relocate id) = x :=
    congrFun Option.map_id x
  have declarations (ds : List Declaration) : ds.map (Declaration.relocate id) = ds :=
    List.map_id ds
  simp only [relocate, names, name, declarations, Statement.relocateAll_id, id_eq]

@[simp] theorem Step.relocate_id (s : Step) : s.relocate id = s := by
  have risers : s.risers.map (Routine.relocate id) = s.risers :=
    List.map_id'' Routine.relocate_id s.risers
  simp only [relocate, Routine.relocate_id, risers, id_eq]

@[simp] theorem Routine.parameterNames_relocate (f : Location → Location) (r : Routine) :
    (r.relocate f).parameterNames = r.parameterNames := by
  simp only [parameterNames, relocate, List.map_map]
  rfl

theorem Step.riser?_relocate (f : Location → Location) (s : Step) (x : Bytes) :
    (s.relocate f).riser? x = (s.riser? x).map (Routine.relocate f) :=
  List.find?_map

@[simp] theorem Statement.location_relocate (f : Location → Location) (st : Statement) :
    (st.relocate f).location = f st.location := by
  cases st <;> rfl

@[simp] theorem Statement.isNote_relocate (f : Location → Location) (st : Statement) :
    (st.relocate f).isNote = st.isNote := by
  cases st <;> rfl

namespace Frame

def relocate (f : Location → Location) (g : Frame) : Frame :=
  { g with callSite := f g.callSite, current := f g.current }

variable (f : Location → Location) (g : Frame) (x : Bytes)

@[simp] theorem relocate_id : g.relocate id = g := rfl

theorem define_relocate (v : Variable) :
    (g.relocate f).define x v = (g.define x v).relocate f := by
  rcases g with ⟨name, callSite, current, main, _ | ⟨block, outer⟩⟩ <;> rfl

theorem replace_relocate (v : Variable) :
    (g.relocate f).replace x v = (g.replace x v).relocate f := by
  have same : (g.relocate f).blocks = g.blocks := rfl
  unfold replace
  rw [same]
  rcases replace.go x v g.blocks with _ | blocks <;> rfl

theorem equivariant_assigned (old : Variable) (v : Value) : Equivariant (assigned old x v) := by
  intro f l
  rw [assigned_eq, assigned_eq]
  unfold Report.fixedType
  repeat' split
  all_goals rfl

theorem set_relocate (v : Value) (l : Location) :
    (g.relocate f).set x v (f l) =
      relocate f <$> (g.set x v l).mapError (Report.relocate f) := by
  have known : (g.relocate f).find? x = g.find? x := rfl
  rw [set_eq, set_eq, known]
  split
  · exact congrArg Except.ok (define_relocate f g x _)
  · next old _ =>
    rw [equivariant_assigned x old v f l]
    rcases assigned old x v l with r | new
    · rfl
    · exact congrArg Except.ok (replace_relocate f g x new)

end Frame

namespace Environment

def transport (f : Location → Location) (steps : NameMap Step) (env : Environment) : Environment :=
  { env with
    top := env.top.relocate f, below := env.below.map (Frame.relocate f)
    running := env.running.map (Step.relocate f), steps }

variable (f : Location → Location) (steps : NameMap Step) (env : Environment)

@[simp] theorem depth_transport : (env.transport f steps).depth = env.depth := List.length_map _

theorem get_transport (x : Bytes) (l : Location) :
    (env.transport f steps).get x (f l) = (env.get x l).mapError (Report.relocate f) := by
  have known : (env.transport f steps).top.find? x = env.top.find? x := rfl
  have undefined : (env.transport f steps).undefined x (f l) =
      (env.undefined x l).relocate f := by
    have seen : (env.transport f steps).visible = env.visible := rfl
    have mode : (env.transport f steps).interactive = env.interactive := rfl
    simp only [Environment.undefined, seen, mode, ← Report.relocate_undefinedVariable]
    split <;> rfl
  unfold get
  rw [known]
  split
  · rfl
  · exact congrArg Except.error undefined

theorem set_transport (x : Bytes) (v : Value) (l : Location) :
    (env.transport f steps).set x v (f l) =
      transport f steps <$> (env.set x v l).mapError (Report.relocate f) := by
  have top : (env.transport f steps).top.set x v (f l) = _ := Frame.set_relocate f env.top x v l
  rw [set_eq, set_eq, top]
  rcases env.top.set x v l with r | top <;> rfl

theorem define_transport (x : Bytes) (v : Value) :
    (env.transport f steps).define x v = (env.define x v).transport f steps :=
  congrArg (fun top => { env.transport f steps with top }) (Frame.define_relocate f env.top x _)

theorem popFrame_transport :
    (env.transport f steps).popFrame = env.popFrame.transport f steps := by
  rcases env with ⟨top, _ | ⟨g, below⟩, _, _, _, _⟩ <;> rfl

theorem popStep_transport :
    (env.transport f steps).popStep = env.popStep.transport f steps := by
  rcases env with ⟨_, _, _ | ⟨step, running⟩, _, _, _⟩ <;> rfl

end Environment

namespace Session

def transport (f : Location → Location) (steps : NameMap Step) (s : Session σ) : Session σ :=
  { s with env := s.env.transport f steps }

variable (f : Location → Location) (steps : NameMap Step)

theorem declare_all_transport (ds : List Declaration) (env : Environment) (heap : Heap) :
    (ds.map (Declaration.relocate f)).foldl
        (fun (env, heap) d =>
          let (v, heap) := heap.default d.type
          (env.declare d v, heap)) (env.transport f steps, heap) =
      (ds.foldl
        (fun (env, heap) d =>
          let (v, heap) := heap.default d.type
          (env.declare d v, heap)) (env, heap)).map (Environment.transport f steps) id := by
  induction ds generalizing env heap with
  | nil => rfl
  | cons d ds ih =>
    rw [List.map_cons, List.foldl_cons, List.foldl_cons]
    exact ih (env.declare d (heap.default d.type).1) (heap.default d.type).2

theorem define_all_transport (ps : List TypedName) (vs : List Value) (env : Environment) :
    ((ps.map (TypedName.relocate f)).zip vs).foldl (fun env (p, v) => env.define p.name v)
        (env.transport f steps) =
      ((ps.zip vs).foldl (fun env (p, v) => env.define p.name v) env).transport f steps := by
  induction ps generalizing vs env with
  | nil => rfl
  | cons p ps ih =>
    cases vs with
    | nil => rfl
    | cons v vs =>
      rw [List.map_cons, List.zip_cons_cons, List.zip_cons_cons, List.foldl_cons, List.foldl_cons]
      exact (congrArg (List.foldl _ · _) (env.define_transport f steps p.name v)).trans (ih vs _)

theorem enter_transport (r : Routine) (owner : Step) (vs : List Value) (l : Location)
    (s : Session σ) :
    (s.transport f steps).enter (r.relocate f) (owner.relocate f) vs (f l) =
      (s.enter r owner vs l).transport f steps := by
  have pushed : ((s.env.transport f steps).pushFrame r.name (f l)).pushStep (owner.relocate f) =
      ((s.env.pushFrame r.name l).pushStep owner).transport f steps := rfl
  have declared := declare_all_transport f steps r.declarations
    ((s.env.pushFrame r.name l).pushStep owner) s.world.heap
  have defined := define_all_transport f steps r.parameters vs
  unfold enter
  simp only [transport, Routine.relocate, pushed, declared, Prod.map, defined, id_eq]

end Session

structure Observer.Overlooks (ob : Observer σ) (f : Location → Location) (steps : NameMap Step) :
    Prop where
  before : ∀ st env w x,
    ob.before (st.relocate f) (env.transport f steps) w x = ob.before st env w x
  onCall : ∀ name env w x, ob.onCall name (env.transport f steps) w x = ob.onCall name env w x
  onReturn : ∀ name env w x,
    ob.onReturn name (env.transport f steps) w x = ob.onReturn name env w x

theorem Observer.none_overlooks (f : Location → Location) (steps : NameMap Step) :
    Observer.none.Overlooks f steps where
  before _ _ _ _ := rfl
  onCall _ _ _ _ := rfl
  onReturn _ _ _ _ := rfl

namespace Observer.Overlooks

variable {ob : Observer σ} {f : Location → Location} {steps : NameMap Step}
  (h : ob.Overlooks f steps)
include h

theorem announce (st : Statement) (s : Session σ) :
    (s.transport f steps).announce ob (st.relocate f) =
      ((s.announce ob st).1, (s.announce ob st).2.transport f steps) := by
  have moved : (s.transport f steps).env.moveTo (st.relocate f).location =
      (s.env.moveTo st.location).transport f steps := by
    rw [Statement.location_relocate]
    rfl
  unfold Session.announce
  rw [moved]
  simp only [h.before, Session.transport]

theorem call (r : Routine) (owner : Step) (vs : List Value) (l : Location) (s : Session σ) :
    (s.transport f steps).call ob (r.relocate f) (owner.relocate f) vs (f l) =
      (s.call ob r owner vs l).transport f steps := by
  unfold Session.call
  rw [Session.enter_transport]
  simp only [Session.transport, h.onCall]
  rfl

end Observer.Overlooks

namespace Expression
open Effect

variable (f : Location → Location) (steps : NameMap Step) (env : Environment)

mutual
theorem eval_transport : (e : Expression) →
    (e.relocate f).eval (env.transport f steps) = (e.eval env).relocate f
  | number .. | text .. | boolean .. | nothing _ | input _ => rfl
  | name l x => congrArg (fun r => Effect.ask fun _ => r) (env.get_transport f steps x l)
  | list l items => by simp only [relocate, eval, evalItems_transport items, relocate_bind,
      relocate_newList]
  | table l entries => by simp only [relocate, eval, evalEntries_transport entries, relocate_bind,
      relocate_newTable]
  | binary l op a b => by
    simp only [relocate, eval, eval_transport a, eval_transport b, relocate_bind, relocate_ask,
      mapError_ok, Value.equivariant_operate _ op _ _ f l]
    congr 1
    funext v
    congr 1
    funext truth
    split
    · rfl
    · simp only [relocate_bind, relocate_ask]
  | word l op a b => by
    simp only [relocate, eval, eval_transport a, eval_transport b, relocate_bind, relocate_onHeap,
      Value.equivariant_operateWord _ op _ _ f l]
  | negate l e => by
    simp only [relocate, eval, eval_transport e, relocate_bind, relocate_ask,
      Value.equivariant_negated _ f l]
  | not l e => by
    simp only [relocate, eval, eval_transport e, relocate_bind, relocate_ask, mapError_ok]
  | convert l type e => by
    simp only [relocate, eval, eval_transport e, relocate_bind, relocate_ask,
      Value.equivariant_convert _ _ type f l]
  | decimal l e places => by
    simp only [relocate, eval, eval_transport e, eval_transport places, relocate_bind,
      relocate_ask, Value.equivariant_withPlaces _ _ _ f l]
  | typeOf l e => by simp only [relocate, eval, eval_transport e, relocate_bind, relocate_pure]
  | isA l type e => by simp only [relocate, eval, eval_transport e, relocate_bind, relocate_pure]
  | index l container key => by
    simp only [relocate, eval, eval_transport container, eval_transport key, relocate_bind,
      relocate_ask, Value.equivariant_load _ _ _ f l]
  | lengthOf l e => by
    simp only [relocate, eval, eval_transport e, relocate_bind, relocate_ask,
      Value.equivariant_lengthOf _ _ f l]
termination_by structural e => e

theorem evalItems_transport : (es : List Expression) →
    evalItems (env.transport f steps) (relocateItems f es) = (evalItems env es).relocate f
  | [] => rfl
  | e :: es => by
    simp only [relocateItems, evalItems, eval_transport e, evalItems_transport es, relocate_bind,
      relocate_pure]
termination_by structural es => es

theorem evalEntries_transport : (es : List (Expression × Expression)) →
    evalEntries (env.transport f steps) (relocateEntries f es) = (evalEntries env es).relocate f
  | [] => rfl
  | (key, e) :: es => by
    simp only [relocateEntries, evalEntries, eval_transport key, eval_transport e,
      evalEntries_transport es, relocate_bind, relocate_ask, mapError_ok, relocate_pure]
termination_by structural es => es
end

end Expression

def Outcome.relocate (f : Location → Location) : Outcome → Outcome
  | .failed r => .failed (r.relocate f)
  | o => o

@[simp] theorem Outcome.relocate_id (o : Outcome) : o.relocate id = o := by
  cases o <;> rfl

/-- What `a` does in a session, `b` does in the same session elsewhere. -/
def Action.Transports (f : Location → Location) (steps : NameMap Step) (b a : Action σ) : Prop :=
  ∀ s, b (s.transport f steps) = ((a s).1.relocate f, (a s).2.transport f steps)

namespace Action.Transports

variable {f : Location → Location} {steps : NameMap Step}

theorem finish (o : Outcome) :
    Transports f steps (Action.finish (o.relocate f) : Action σ) (Action.finish o) := fun _ => rfl

theorem display (v : Value) :
    Transports f steps (Action.display v : Action σ) (Action.display v) := fun _ => rfl

theorem evaluating (e : Expression) {k k' : Value → Action σ}
    (hk : ∀ v, Transports f steps (k' v) (k v)) :
    Transports f steps (Action.evaluating (e.relocate f) k') (Action.evaluating e k) := by
  intro s
  have moved : (e.relocate f).eval (s.transport f steps).env (s.transport f steps).world =
      ((e.eval s.env s.world).1.mapError (Report.relocate f), (e.eval s.env s.world).2) :=
    congrFun (e.eval_transport f steps s.env) s.world
  unfold Action.evaluating Action.obtaining
  rw [moved]
  rcases e.eval s.env s.world with ⟨r | v, w⟩
  · rfl
  · exact hk v { s with world := w }

theorem reading (x : Bytes) (l : Location) {k k' : Value → Action σ}
    (hk : ∀ v, Transports f steps (k' v) (k v)) :
    Transports f steps (Action.reading x (f l) k') (Action.reading x l k) := by
  intro s
  have moved : (s.transport f steps).env.get x (f l) = _ := s.env.get_transport f steps x l
  unfold Action.reading
  rw [moved]
  rcases s.env.get x l with r | v
  · rfl
  · exact hk v s

theorem assign (x : Bytes) (v : Value) (l : Location) :
    Transports f steps (Action.assign x v (f l) : Action σ) (Action.assign x v l) := by
  intro s
  have moved : (s.transport f steps).env.set x v (f l) = _ := s.env.set_transport f steps x v l
  rw [Action.assign_eq, Action.assign_eq, moved]
  rcases s.env.set x v l with r | env <;> rfl

theorem onHeap {c c' : Mutation Heap α} (hc : c.relocate f = c') :
    Transports f steps (Action.onHeap c' : Action σ) (Action.onHeap c) := by
  subst hc
  intro s
  have same : (s.transport f steps).world = s.world := rfl
  simp only [Action.onHeap, Mutation.relocate, same]
  rcases c s.world.heap with ⟨r | a, heap⟩ <;> rfl

end Action.Transports

end StepsLang
