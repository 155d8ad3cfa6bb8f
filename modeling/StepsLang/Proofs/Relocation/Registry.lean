import StepsLang.Debug.Debugger
import StepsLang.Execution.Trace
import StepsLang.Proofs.Execution.Activation
import StepsLang.Proofs.Relocation.Run

namespace StepsLang

namespace Environment

@[simp] theorem transport_id (env : Environment) (steps : NameMap Step) :
    env.transport id steps = { env with steps } := by
  have below : env.below.map (Frame.relocate id) = env.below :=
    List.map_id'' Frame.relocate_id env.below
  have running : env.running.map (Step.relocate id) = env.running :=
    List.map_id'' Step.relocate_id env.running
  simp only [transport, Frame.relocate_id, below, running]

def addSteps (added : List Step) (env : Environment) : Environment := added.foldl addStep env

theorem addSteps_eq (added : List Step) (env : Environment) :
    env.addSteps added = { env with steps := (env.addSteps added).steps } := by
  unfold addSteps
  induction added generalizing env with
  | nil => rfl
  | cons step added ih => exact ih (env.addStep step)

theorem steps_addSteps (added : List Step) {env env' : Environment} (same : env'.steps = env.steps) :
    (env'.addSteps added).steps = (env.addSteps added).steps := by
  unfold addSteps
  induction added generalizing env env' with
  | nil => exact same
  | cons step added ih => exact ih (congrArg (·.insert step.name step) same)

theorem find?_addSteps {added : List Step} {x : Bytes} (other : ∀ step ∈ added, step.name ≠ x)
    (env : Environment) : (env.addSteps added).steps.find? x = env.steps.find? x := by
  unfold addSteps
  induction added generalizing env with
  | nil => rfl
  | cons step added ih =>
    rw [List.foldl_cons, ih fun s h => other s (.tail _ h)]
    exact (NameMap.find?_insert ..).trans (if_neg (other step (.head _)).symm)

theorem offers_addSteps {added : List Step} {env : Environment}
    (new : ∀ step ∈ added, env.steps.find? step.name = none) :
    env.Offers id (env.addSteps added).steps := by
  intro x step known
  have other : ∀ s ∈ added, s.name ≠ x := by
    rintro s h rfl
    rw [new s h] at known
    cases known
  rw [find?_addSteps other, known, Step.relocate_id]

end Environment

@[simp] theorem Rounds.relocate_id (rounds : Rounds) : rounds.relocate id = rounds := by
  cases rounds <;> simp [relocate, Statement.relocateAll_id]

@[simp] theorem Task.relocate_id (task : Task) : task.relocate id = task := by
  cases task <;>
    simp [relocate, Statement.relocateAll_id, Statement.relocateArms_id, Statement.relocatePart_id]

def Session.addSteps (added : List Step) (s : Session σ) : Session σ :=
  { s with env := s.env.addSteps added }

@[simp] theorem Session.watch_addSteps (added : List Step) (s : Session σ) :
    (s.addSteps added).watch = s.watch := rfl

def Machine.addSteps (added : List Step) (m : Machine σ) : Machine σ :=
  { m with session := m.session.addSteps added }

theorem Session.transport_addSteps (added : List Step) {s t : Session σ}
    (same : t.env.steps = s.env.steps) :
    t.transport id (s.addSteps added).env.steps = t.addSteps added := by
  have steps : (s.addSteps added).env.steps = (t.env.addSteps added).steps :=
    Environment.steps_addSteps added same.symm
  unfold transport
  rw [Environment.transport_id, steps, ← Environment.addSteps_eq]
  rfl

def Observer.IgnoresSteps (ob : Observer σ) : Prop := ∀ steps, ob.Overlooks id steps

namespace Observer

theorem trace_ignoresSteps (sources : Option Sources) : (trace sources).IgnoresSteps := by
  intro steps
  refine ⟨fun st env w x => ?_, fun _ _ _ _ => rfl, fun _ _ _ _ => rfl⟩
  rw [Statement.relocate_id, Environment.transport_id]
  rfl

end Observer

namespace Machine

variable {ob : Observer σ} {limits : Limits}

theorem transport_addSteps (added : List Step) {m : Machine σ} {s : Session σ}
    (same : m.session.env.steps = s.env.steps) :
    m.transport id (s.addSteps added).env.steps = m.addSteps added := by
  have tasks : m.tasks.map (Task.relocate id) = m.tasks := List.map_id'' Task.relocate_id m.tasks
  simp only [transport, Outcome.relocate_id, tasks, Session.transport_addSteps added same, addSteps]

theorem openRoutine_steps (r : Routine) (owner : Step) (vs : List Value) (l : Location)
    (rest : List Task) (s : Session σ) :
    (openRoutine ob limits r owner vs l rest s).session.env.steps = s.env.steps := by
  unfold openRoutine
  split
  · rfl
  · split
    · rfl
    · exact (Session.around_call ob r owner vs l s).steps

theorem after_steps (k : Nat) (m : Machine σ) :
    (after ob limits k m).session.env.steps = m.session.env.steps := by
  induction k generalizing m with
  | zero => rfl
  | succ k ih =>
    obtain ⟨o, tasks, s⟩ := m
    cases tasks with
    | nil => rfl
    | cons task rest =>
      exact (ih (perform ob limits rest s task o)).trans (perform_steps ob limits task o rest s)

/-- What a run of a machine and its result have to do with those where there are more steps: if the
report of a missing step never comes up, be it to a handler, the statements are the same ones, and so
is all else. -/
def Undisturbed (ob : Observer σ) (limits : Limits) (added : List Step) (m m' : Machine σ)
    (run run' : Result × Session σ) : Prop :=
  (∀ k, (after ob limits k m).signal.lacksStep = false) →
    (∀ k, after ob limits k m' = (after ob limits k m).addSteps added) ∧
      run' = (run.1, run.2.addSteps added)

section Added
variable (blind : ob.IgnoresSteps) {added : List Step} {m : Machine σ}
  (new : ∀ step ∈ added, m.session.env.steps.find? step.name = none)
  (complete : ∀ k, (after ob limits k m).signal.lacksStep = false)
include blind new complete

theorem after_addSteps (k : Nat) :
    after ob limits k (m.addSteps added) = (after ob limits k m).addSteps added := by
  have known (k : Nat) (lacks : (after ob limits k m).signal.lacksStep = true) :
      (m.session.addSteps added).env.steps.names = m.session.env.steps.names :=
    absurd ((complete k).symm.trans lacks) (by decide)
  rw [← transport_addSteps added rfl, ← transport_addSteps added (after_steps k m)]
  exact after_transport (blind _) (Environment.offers_addSteps new) known k

theorem end_addSteps {o o' : Outcome} {t t' : Session σ} (ends : Leads ob limits m ⟨o, [], t⟩)
    (ends' : Leads ob limits (m.addSteps added) ⟨o', [], t'⟩) :
    o' = o ∧ t' = t.addSteps added := by
  obtain ⟨k, e⟩ := ends
  refine ends'.end_unique ⟨k, ?_⟩
  rw [after_addSteps blind new complete, e]
  rfl

end Added

/-- Steps of new names change nothing in a run that does not ask for a missing step. -/
theorem run_addSteps (ob : Observer σ) (blind : ob.IgnoresSteps) (limits : Limits) (s : Session σ)
    (added : List Step) (new : ∀ step ∈ added, s.env.steps.find? step.name = none) :
    (∀ body, Undisturbed ob limits added ⟨.normal, [.block body], s⟩
      ⟨.normal, [.block body], s.addSteps added⟩ (s.runBlock ob limits body)
      ((s.addSteps added).runBlock ob limits body)) ∧
    (∀ b : Building, Undisturbed ob limits added ⟨.normal, [.block b.body], s⟩
      ⟨.normal, [.block b.body], s.addSteps added⟩ (s.runBuilding ob limits b)
      ((s.addSteps added).runBuilding ob limits b)) ∧
    ∀ (step : Step) vs, Undisturbed ob limits added
      (openRoutine ob limits step.toRoutine step vs step.location [] s)
      (openRoutine ob limits step.toRoutine step vs step.location [] (s.addSteps added))
      (s.runStep ob limits step vs) ((s.addSteps added).runStep ob limits step vs) := by
  have block (body : List Statement) : Undisturbed ob limits added ⟨.normal, [.block body], s⟩
      ⟨.normal, [.block body], s.addSteps added⟩ (s.runBlock ob limits body)
      ((s.addSteps added).runBlock ob limits body) := by
    intro complete
    obtain ⟨o, t⟩ := end_addSteps (m := ⟨.normal, [.block body], s⟩) blind new complete
      (performBlock_ends body [] s) (performBlock_ends body [] (s.addSteps added))
    exact ⟨after_addSteps (m := ⟨.normal, [.block body], s⟩) blind new complete,
      Prod.ext (congrArg Result.ofOutcome o) t⟩
  refine ⟨block, fun b => block b.body, fun step vs complete => ?_⟩
  let m := openRoutine ob limits step.toRoutine step vs step.location [] s
  have kept : m.session.env.steps = s.env.steps := openRoutine_steps ..
  have opened : openRoutine ob limits step.toRoutine step vs step.location [] (s.addSteps added) =
      m.addSteps added := by
    rw [← Session.transport_addSteps added rfl, ← transport_addSteps added kept]
    have same : openRoutine ob limits (step.toRoutine.relocate id) (step.relocate id) vs
        step.location [] (s.transport id (s.addSteps added).env.steps) = _ :=
      openRoutine_transport (blind _) step.toRoutine step vs step.location [] s
    rwa [Routine.relocate_id, Step.relocate_id] at same
  have new : ∀ step ∈ added, m.session.env.steps.find? step.name = none := by rwa [kept]
  have ends : Leads ob limits (m.addSteps added) _ :=
    opened ▸ routine_ends ((s.addSteps added).callsLeft limits) step.toRoutine step vs
      step.location [] (s.addSteps added) rfl
  obtain ⟨o, t⟩ := end_addSteps blind new complete
    (routine_ends (s.callsLeft limits) step.toRoutine step vs step.location [] s rfl) ends
  rw [opened]
  exact ⟨after_addSteps blind new complete,
    Prod.ext (congrArg Result.ofCall (CallResult.eq_of_signal o)) t⟩

theorem run_addSteps_shadowed :
    let s : Session (Array Bytes) := ⟨(Environment.fresh "main" false).addStep .greet, {}, #[]⟩
    let body : List Statement :=
      [.call {} "greet" [] none, .call {} "uppercase" [.text {} "hello"] (some "x"),
        .display {} (.name {} "x")]
    let shout (x : Bytes) : Step := { name := x, body := [.display {} (.text {} "shout")] }
    let added := [shout "helper", shout "uppercase"]
    let m : Machine (Array Bytes) := ⟨.normal, [.block body], s⟩
    let ob := Observer.trace none
    ob.IgnoresSteps ∧ (∀ step ∈ added, s.env.steps.find? step.name = none) ∧
      (∀ k, (after ob {} k m).signal.lacksStep = false) ∧
      (∀ k, after ob {} k (m.addSteps added) = (after ob {} k m).addSteps added) ∧
      ((s.addSteps added).runBlock ob {} body).1.success = true ∧
      ((s.addSteps added).runBlock ob {} body).2.watch = (s.runBlock ob {} body).2.watch ∧
      ((s.addSteps added).runBlock ob {} body).2.world.output =
        #[("hello" : Bytes), "HELLO"] := by
  intro s body shout added m ob
  have blind : ob.IgnoresSteps := Observer.trace_ignoresSteps none
  have new : ∀ step ∈ added, s.env.steps.find? step.name = none := by decide +kernel
  have ended : (after ob {} 13 m).step ob {} = none :=
    Option.isNone_iff_eq_none.1 (by decide +kernel)
  have begun : ∀ k < 14, (after ob {} k m).signal.lacksStep = false := by decide +kernel
  have complete : ∀ k, (after ob {} k m).signal.lacksStep = false := by
    refine forall_after_of_ended (P := fun m => m.signal.lacksStep = false) ended ?_
    exact fun k early => begun k (Nat.lt_succ_of_le early)
  obtain ⟨same, result⟩ := (run_addSteps ob blind {} s added new).1 body complete
  refine ⟨blind, new, complete, same, ?_, ?_, ?_⟩
  · decide +kernel
  · rw [result]
    exact Session.watch_addSteps ..
  · decide +kernel

end Machine

end StepsLang
