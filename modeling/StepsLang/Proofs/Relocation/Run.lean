import StepsLang.Proofs.Execution.Limits
import StepsLang.Proofs.Relocation.Session

namespace StepsLang

def Rounds.relocate (f : Location → Location) : Rounds → Rounds
  | .times left body => .times left (Statement.relocateAll f body)
  | .each x left body => .each x left (Statement.relocateAll f body)
  | .while l condition done body =>
    .while (f l) (condition.relocate f) done (Statement.relocateAll f body)

def Task.relocate (f : Location → Location) : Task → Task
  | .block rest => .block (Statement.relocateAll f rest)
  | .arms rest otherwise =>
    .arms (Statement.relocateArms f rest) (Statement.relocatePart f otherwise)
  | .loop rounds => .loop (rounds.relocate f)
  | .handler body => .handler (Statement.relocatePart f body)
  | .continuation body => .continuation (Statement.relocatePart f body)
  | .pending o => .pending (o.relocate f)
  | .closeBlock => .closeBlock
  | .closeFrame name => .closeFrame name
  | .receive target l => .receive target (f l)

def Outcome.lacksStep : Outcome → Bool
  | .failed r => r.code == "E402"
  | _ => false

theorem Report.code_undefinedStep (x : Bytes) (l : Location) (available : List Bytes) :
    (undefinedStep x l available).code = "E402" := by
  unfold undefinedStep
  split <;> rfl

/-- Every step that can be called can be called from there too, where it stands at other places. -/
def Environment.Offers (f : Location → Location) (steps : NameMap Step) (env : Environment) : Prop :=
  ∀ x step, env.steps.find? x = some step → steps.find? x = some (step.relocate f)

theorem Environment.resolve_transport {f : Location → Location} {steps : NameMap Step}
    {env : Environment} (offers : env.Offers f steps) (x : Bytes) (l : Location)
    (known : ∀ r, env.resolve x l = .error r → r.code = "E402" →
      steps.names = env.steps.names) :
    (env.transport f steps).resolve x (f l) =
      Step.relocate f <$> (env.resolve x l).mapError (Report.relocate f) := by
  unfold resolve at known ⊢
  rw [show (env.transport f steps).interactive = env.interactive from rfl]
  split
  · rfl
  · next live =>
    rw [if_neg live] at known
    cases found : env.steps.find? x with
    | some step =>
      rw [show (env.transport f steps).steps.find? x = _ from offers x step found]
      rfl
    | none =>
      rw [found] at known
      have names := known _ rfl (Report.code_undefinedStep ..)
      have absent : steps.find? x = none := by
        rw [← Option.not_isSome_iff_eq_none, ← NameMap.mem_names_iff, names,
          NameMap.mem_names_iff, found]
        decide
      rw [show (env.transport f steps).steps.find? x = _ from absent,
        show (env.transport f steps).steps.names = _ from names]
      exact congrArg Except.error (Report.relocate_undefinedStep f l x _).symm

namespace Machine
open StepsLang.Action

def transport (f : Location → Location) (steps : NameMap Step) (m : Machine σ) : Machine σ :=
  ⟨m.signal.relocate f, m.tasks.map (Task.relocate f), m.session.transport f steps⟩

variable {ob : Observer σ} {limits : Limits} {f : Location → Location} {steps : NameMap Step}

theorem atOnce_transport {a b : Action σ} (h : Action.Transports f steps b a) (rest : List Task)
    (s : Session σ) :
    atOnce b (rest.map (Task.relocate f)) (s.transport f steps) =
      (atOnce a rest s).transport f steps := by
  unfold atOnce transport
  rw [h s]

theorem insideWith_transport (x : Bytes) (v : Value) (body : List Statement) (rest : List Task)
    (s : Session σ) :
    insideWith x v (Statement.relocateAll f body) (rest.map (Task.relocate f))
        (s.transport f steps) =
      (insideWith x v body rest s).transport f steps := by
  have defined := s.env.pushBlock.define_transport f steps x v
  exact congrArg (fun env => (⟨.normal, _, { s with env }⟩ : Machine σ)) defined

theorem branch_transport (condition : Expression) {yes yes' no no' : Session σ → Machine σ}
    (hy : ∀ s, yes' (s.transport f steps) = (yes s).transport f steps)
    (hn : ∀ s, no' (s.transport f steps) = (no s).transport f steps) (rest : List Task)
    (s : Session σ) :
    branch (condition.relocate f) (rest.map (Task.relocate f)) yes' no' (s.transport f steps) =
      (branch condition rest yes no s).transport f steps := by
  have moved : (condition.relocate f).eval (s.transport f steps).env
      (s.transport f steps).world = _ :=
    congrFun (condition.eval_transport f steps s.env) s.world
  simp only [branch, holds, moved, Mutation.relocate]
  rcases condition.eval s.env s.world with ⟨r | v, w⟩
  · rfl
  · simp only [mapError_ok]
    cases v.truthy w.heap with
    | true => exact hy { s with world := w }
    | false => exact hn { s with world := w }

theorem native_transport (n : Native) (vs : List Value) (l : Location) (rest : List Task)
    (s : Session σ) :
    (⟨(Call.native n vs (f l) (s.transport f steps)).1.signal, rest.map (Task.relocate f),
        (Call.native n vs (f l) (s.transport f steps)).2⟩ : Machine σ) =
      Machine.transport f steps
        ⟨(Call.native n vs l s).1.signal, rest, (Call.native n vs l s).2⟩ := by
  unfold Call.native
  rw [n.call?_relocate f l vs]
  cases n.call? vs l with
  | none => rfl
  | some effect =>
    simp only [Option.map_some, Mutation.relocate]
    rw [show (s.transport f steps).world = s.world from rfl]
    rcases effect s.world with ⟨r | v, w⟩ <;> rfl

section Observed
variable (h : ob.Overlooks f steps)
include h

theorem openRoutine_transport (r : Routine) (owner : Step) (vs : List Value) (l : Location)
    (rest : List Task) (s : Session σ) :
    openRoutine ob limits (r.relocate f) (owner.relocate f) vs (f l) (rest.map (Task.relocate f))
        (s.transport f steps) =
      (openRoutine ob limits r owner vs l rest s).transport f steps := by
  have depth : (s.transport f steps).env.depth = s.env.depth := s.env.depth_transport f steps
  have count : (r.relocate f).parameters.length = r.parameters.length := List.length_map _
  unfold openRoutine
  rw [depth, count, h.call, Routine.parameterNames_relocate]
  split
  · rfl
  · split <;> rfl

theorem openName_transport {s : Session σ} (offers : s.env.Offers f steps) (x : Bytes)
    (vs : List Value) (l : Location) (rest : List Task)
    (known : (openName ob limits x vs l rest s).signal.lacksStep = true →
      steps.names = s.env.steps.names) :
    openName ob limits x vs (f l) (rest.map (Task.relocate f)) (s.transport f steps) =
      (openName ob limits x vs l rest s).transport f steps := by
  have riser : ((s.transport f steps).env.running.head?.bind fun owner =>
        (owner.riser? x).map (·, owner)) =
      (s.env.running.head?.bind fun owner => (owner.riser? x).map (·, owner)).map
        (Prod.map (Routine.relocate f) (Step.relocate f)) := by
    change ((s.env.running.map (Step.relocate f)).head?.bind _) = _
    rw [List.head?_map]
    cases s.env.running.head? with
    | none => rfl
    | some owner =>
      simp only [Option.map_some, Option.bind_some, Step.riser?_relocate, Option.map_map]
      rfl
  unfold openName at known ⊢
  rw [riser]
  cases found : s.env.running.head?.bind fun owner => (owner.riser? x).map (·, owner) with
  | some r => exact openRoutine_transport h r.1 r.2 vs l rest s
  | none =>
    simp only [found] at known
    simp only [Option.map_none]
    cases named : Native.ofName? x with
    | some n => exact native_transport n vs l rest s
    | none =>
      simp only [named] at known
      have moved := Environment.resolve_transport offers x l fun r e code => known (by
        rw [e]
        exact beq_iff_eq.2 code)
      simp only [show (s.transport f steps).env.resolve x (f l) = _ from moved]
      cases s.env.resolve x l with
      | ok step => exact openRoutine_transport h step.toRoutine step vs l rest s
      | error r => rfl

theorem start_transport {s : Session σ} (offers : s.env.Offers f steps) (st : Statement)
    (rest : List Task)
    (known : (start ob limits rest s st).signal.lacksStep = true →
      steps.names = s.env.steps.names) :
    start ob limits (rest.map (Task.relocate f)) (s.transport f steps) (st.relocate f) =
      (start ob limits rest s st).transport f steps := by
  cases st with
  | display l e => exact atOnce_transport (.evaluating e .display) rest s
  | set l x e => exact atOnce_transport (.evaluating e fun v => .assign x v l) rest s
  | setIndex l x index e =>
    exact atOnce_transport (.reading x l fun container => .evaluating index fun key =>
      .evaluating e fun v => .onHeap (Value.relocate_storing f l container key v)) rest s
  | call l x arguments target =>
    have moved : Expression.evalItems (s.transport f steps).env
        (arguments.map (Expression.relocate f)) (s.transport f steps).world = _ :=
      (congrArg (fun es => Expression.evalItems _ es _)
        (Expression.relocateItems_eq f arguments).symm).trans
        (congrFun (Expression.evalItems_transport f steps s.env arguments) s.world)
    simp only [start, Statement.relocate, moved, Mutation.relocate] at known ⊢
    revert known
    rcases Expression.evalItems s.env arguments s.world with ⟨r | vs, w⟩
    · exact fun _ => rfl
    · exact openName_transport h (s := { s with world := w }) offers x vs l
        (.receive target l :: rest)
  | giveBack l e =>
    cases e with
    | none => rfl
    | some e => exact atOnce_transport (.evaluating e fun v => .finish (.returned v)) rest s
  | exit l => rfl
  | branch l arms otherwise => rfl
  | repeatTimes l count body =>
    have moved : (count.relocate f).eval (s.transport f steps).env
        (s.transport f steps).world = _ :=
      congrFun (count.eval_transport f steps s.env) s.world
    simp only [start, Statement.relocate, moved, Mutation.relocate]
    rcases count.eval s.env s.world with ⟨r | v, w⟩
    · rfl
    · cases v <;> rfl
  | repeatForEach l x collection body =>
    have moved : (collection.relocate f).eval (s.transport f steps).env
        (s.transport f steps).world = _ :=
      congrFun (collection.eval_transport f steps s.env) s.world
    simp only [start, Statement.relocate, moved, Mutation.relocate]
    rcases collection.eval s.env s.world with ⟨r | v, w⟩
    · rfl
    · simp only [mapError_ok]
      cases items : v.items? w.heap with
      | some items => rfl
      | none =>
        simp only [atOnce, Action.repeatForEach, Session.transport, items]
        rfl
  | repeatWhile l condition body => rfl
  | attempt l body unsuccessful continuation => rfl
  | addToList l e x =>
    exact atOnce_transport (.evaluating e fun v => .reading x l fun list =>
      .onHeap (Value.relocate_addingTo f l list v)) rest s
  | removeFromList l e x =>
    exact atOnce_transport (.evaluating e fun v => .reading x l fun list =>
      .onHeap (Value.relocate_removingFrom f l list v)) rest s
  | note l text => rfl

theorem begin_transport {s : Session σ} (offers : s.env.Offers f steps) (st : Statement)
    (rest : List Task)
    (known : (begin ob limits rest s st).signal.lacksStep = true →
      steps.names = s.env.steps.names) :
    begin ob limits (rest.map (Task.relocate f)) (s.transport f steps) (st.relocate f) =
      (begin ob limits rest s st).transport f steps := by
  unfold begin at known ⊢
  rw [h.announce, Statement.isNote_relocate]
  split
  · rfl
  · next heard =>
    rw [if_neg heard] at known
    dsimp only
    split
    · next go =>
      rw [if_pos go] at known
      exact start_transport h (s := (s.announce ob st).2) offers st rest known
    · rfl

omit h in
theorem nextRound_transport (rounds : Rounds) (rest : List Task) (s : Session σ) :
    nextRound limits (rest.map (Task.relocate f)) (s.transport f steps) (rounds.relocate f) =
      (nextRound limits rest s rounds).transport f steps := by
  cases rounds with
  | times left body => cases left <;> rfl
  | each x left body =>
    cases left with
    | nil => rfl
    | cons v vs => exact insideWith_transport x v body (.loop (.each x vs body) :: rest) s
  | «while» l condition done body =>
    refine branch_transport condition (fun t => ?_) (fun t => rfl) rest s
    split <;> rfl

theorem finish_transport (name : Bytes) (o : Outcome) (rest : List Task) (s : Session σ) :
    perform ob limits (rest.map (Task.relocate f)) (s.transport f steps) (.closeFrame name)
        (o.relocate f) =
      (perform ob limits rest s (.closeFrame name) o).transport f steps := by
  have leave (s : Session σ) : (s.transport f steps).leave = s.leave.transport f steps := by
    have closed : (s.transport f steps).env.popStep = s.env.popStep.transport f steps :=
      s.env.popStep_transport f steps
    rw [Session.leave, closed, Environment.popFrame_transport]
    rfl
  have told : Call.finish.told ob name (s.transport f steps) =
      (Call.finish.told ob name s).transport f steps := by
    simp only [Call.finish.told, Session.transport, h.onReturn]
  unfold transport
  cases o <;> simp only [perform, Outcome.relocate, Call.finish, leave, told] <;> rfl

/-- A task is done in the same way at other places, unless it calls a step that is missing. -/
theorem perform_transport {s : Session σ} (offers : s.env.Offers f steps) (task : Task)
    (o : Outcome) (rest : List Task)
    (known : (perform ob limits rest s task o).signal.lacksStep = true →
      steps.names = s.env.steps.names) :
    perform ob limits (rest.map (Task.relocate f)) (s.transport f steps) (task.relocate f)
        (o.relocate f) =
      (perform ob limits rest s task o).transport f steps := by
  cases task with
  | block sts =>
    cases sts with
    | nil => rfl
    | cons st more =>
      cases o with
      | normal => exact begin_transport h offers st (.block more :: rest) known
      | _ => rfl
  | arms arms otherwise =>
    cases o with
    | normal =>
      rcases arms with _ | ⟨⟨l, condition, body⟩, arms⟩
      · cases otherwise <;> rfl
      · cases otherwise <;> exact branch_transport condition (fun t => rfl) (fun t => rfl) rest s
    | _ => rcases arms with _ | ⟨⟨l, condition, body⟩, arms⟩ <;> cases otherwise <;> rfl
  | loop rounds =>
    cases o with
    | normal => exact nextRound_transport rounds rest s
    | _ => rfl
  | handler body =>
    cases body with
    | none => cases o <;> rfl
    | some body =>
      cases o with
      | failed r => exact insideWith_transport "problem_message" (.text r.message) body rest s
      | _ => rfl
  | continuation body => cases body <;> cases o <;> rfl
  | pending p => cases o <;> rfl
  | closeBlock => rfl
  | closeFrame name => exact finish_transport h name o rest s
  | receive target l =>
    cases target with
    | none => cases o <;> rfl
    | some x =>
      cases o with
      | returned v => exact atOnce_transport (.assign x v l) rest s
      | _ => rfl

end Observed

theorem Does.sameSteps {task : Task} {rest tasks : List Task} {s t : Session σ}
    (does : Does ob limits task rest s tasks t) : t.env.steps = s.env.steps := by
  cases does with
  | assign w _ set => exact (Environment.confined_set set).steps
  | insideWith x v => exact (Environment.confined_define s.env.pushBlock x v).steps
  | call w vs _ _ _ _ _ =>
    exact (Session.around_call ob _ _ vs _ ({ s with world := w } : Session σ)).steps
  | closeFrame o _ =>
    have popped (env : Environment) : env.popFrame.steps = env.steps := by
      unfold Environment.popFrame
      split <;> rfl
    cases o <;> exact popped _
  | _ => rfl

theorem perform_steps (ob : Observer σ) (limits : Limits) (task : Task) (o : Outcome)
    (rest : List Task) (s : Session σ) :
    (perform ob limits rest s task o).session.env.steps = s.env.steps := by
  obtain ⟨t, ready, does⟩ := perform_does ob limits task o rest s
  have begun : t.env.steps = s.env.steps := by cases ready <;> rfl
  exact does.sameSteps.trans begun

theorem after_transport (h : ob.Overlooks f steps) {m : Machine σ}
    (offers : m.session.env.Offers f steps)
    (known : ∀ k, (after ob limits k m).signal.lacksStep = true →
      steps.names = m.session.env.steps.names) (k : Nat) :
    after ob limits k (m.transport f steps) = (after ob limits k m).transport f steps := by
  -- The induction is over all machines, as in each of them the steps are those of the first.
  induction k generalizing m with
  | zero => rfl
  | succ k ih =>
    obtain ⟨o, tasks, s⟩ := m
    cases tasks with
    | nil => rfl
    | cons task rest =>
      have kept := perform_steps ob limits task o rest s
      have next := perform_transport h offers task o rest (known 1)
      refine (congrArg (after ob limits k) next).trans (ih ?_ fun j => ?_)
      · unfold Environment.Offers
        rw [kept]
        exact offers
      · rw [kept]
        exact known (j + 1)

theorem end_transport (h : ob.Overlooks f steps) {m : Machine σ}
    (offers : m.session.env.Offers f steps)
    (known : ∀ k, (after ob limits k m).signal.lacksStep = true →
      steps.names = m.session.env.steps.names) {o o' : Outcome} {t t' : Session σ}
    (ends : Leads ob limits m ⟨o, [], t⟩)
    (ends' : Leads ob limits (m.transport f steps) ⟨o', [], t'⟩) :
    o' = o.relocate f ∧ t' = t.transport f steps := by
  obtain ⟨k, e⟩ := ends
  refine ends'.end_unique ⟨k, ?_⟩
  rw [after_transport h offers known, e]
  rfl

end Machine

end StepsLang
