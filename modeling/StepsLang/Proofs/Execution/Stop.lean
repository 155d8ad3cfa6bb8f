import StepsLang.Proofs.Execution.Machine
import StepsLang.Proofs.Execution.Watch

namespace StepsLang

inductive Hook
  | before (st : Statement) (go : Bool)
  | called (name : Bytes)
  | returned (name : Bytes)

/-- What an observer was told in which situation, and what it remembered afterwards. -/
structure Notice (σ : Type) where
  hook : Hook
  env : Environment
  world : World
  watch : σ

def Notice.refuses (x : Notice σ) : Bool :=
  match x.hook with
  | .before _ go => !go
  | _ => false

/-- An observer that keeps a record. -/
def Observer.recorded (ob : Observer σ) : Observer (σ × List (Notice σ)) where
  before st env w x :=
    let (go, watch) := ob.before st env w x.1
    (go, watch, x.2 ++ [⟨.before st go, env, w, watch⟩])
  onCall name env w x :=
    let watch := ob.onCall name env w x.1
    (watch, x.2 ++ [⟨.called name, env, w, watch⟩])
  onReturn name env w x :=
    let watch := ob.onReturn name env w x.1
    (watch, x.2 ++ [⟨.returned name, env, w, watch⟩])

inductive Environment.Unwound : Environment → Environment → Prop
  | refl (env) : Unwound env env
  | block : Unwound env after → Unwound env after.popBlock
  | call : Unwound env after → Unwound env after.popStep.popFrame

theorem Environment.Unwound.trans {env between after : Environment} (h : env.Unwound between)
    (h' : between.Unwound after) : env.Unwound after := by
  induction h' with
  | refl => exact h
  | block _ ih => exact ih.block
  | call _ ih => exact ih.call

/-- A record of a run that ended in `t`: the run was stopped exactly if the observer refused to go
on, and then it was told nothing more, and world and variables are those that it saw. -/
inductive Told {σ : Type} : List (Notice σ) → Bool → Session σ → Prop
  | through : (∀ x ∈ log, x.refuses = false) → Told log false t
  | refused : (∀ x ∈ earlier, x.refuses = false) → x.refuses = true → t.world = x.world →
    t.watch = x.watch → x.env.Unwound t.env → Told (earlier ++ [x]) true t

namespace Told

variable {log : List (Notice σ)} {stopped : Bool} {t : Session σ}

theorem after (h : Told log stopped t) {earlier : List (Notice σ)}
    (he : ∀ x ∈ earlier, x.refuses = false) : Told (earlier ++ log) stopped t := by
  cases h with
  | through hlog => exact .through (List.forall_mem_append.2 ⟨he, hlog⟩)
  | refused hlog no world watch env =>
    rw [← List.append_assoc]
    exact .refused (List.forall_mem_append.2 ⟨he, hlog⟩) no world watch env

theorem accepted (h : Told log false t) : ∀ x ∈ log, x.refuses = false := by
  cases h with
  | through hlog => exact hlog

theorem popBlock (h : Told log stopped t) :
    Told log stopped { t with env := t.env.popBlock } := by
  cases h with
  | through hlog => exact .through hlog
  | refused hlog no world watch env => exact .refused hlog no world watch env.block

theorem leave (h : Told log stopped t) : Told log stopped t.leave := by
  cases h with
  | through hlog => exact .through hlog
  | refused hlog no world watch env => exact .refused hlog no world watch env.call

end Told

def Outcome.stops (o : Outcome) : Bool := o = .stopped

theorem Outcome.stops_of_ne {o : Outcome} (h : o ≠ .stopped) : o.stops = false := by
  simp [stops, h]

def Session.unrecorded (s : Session (σ × List (Notice σ))) : Session σ := s.under s.watch.1

theorem told_law (ob : Observer σ) :
    Law ob.recorded fun s o t =>
      ∃ log, t.watch.2 = s.watch.2 ++ log ∧ Told log o.stops t.unrecorded where
  finish := fun {o s} ho => ⟨[], by simp, Outcome.stops_of_ne ho ▸ .through (by simp)⟩
  resume := by
    rintro o p s t u ⟨first, grown, told⟩ ho ⟨second, grown', told'⟩
    rw [Outcome.stops_of_ne ho] at told
    exact ⟨first ++ second, by rw [grown', grown, List.append_assoc], told'.after told.accepted⟩
  world := fun s w => ⟨[], by simp, .through (by simp)⟩
  assign := fun _ => ⟨[], by simp, .through (by simp)⟩
  define := fun _ _ _ => ⟨[], by simp, .through (by simp)⟩
  block := fun ⟨log, grown, told⟩ => ⟨log, grown, told.popBlock⟩
  goOn := by
    intro s st go
    refine ⟨_, rfl, .through fun x hx => ?_⟩
    obtain rfl := List.mem_singleton.1 hx
    exact congrArg (!·) go
  stop := by
    intro s st halt
    have nothing : ∀ x ∈ ([] : List (Notice σ)), x.refuses = false := by simp
    exact ⟨_, rfl, .refused nothing (congrArg (!·) halt) rfl rfl (.refl _)⟩
  frame := by
    rintro s r owner vs l o t ⟨log, grown, told⟩
    obtain ⟨opening, accepted, called⟩ : ∃ x : Notice σ, x.refuses = false ∧
        (s.call ob.recorded r owner vs l).watch.2 = s.watch.2 ++ [x] := ⟨_, rfl, rfl⟩
    have whole := (told.after (List.forall_mem_singleton.2 accepted)).leave
    rw [called, List.append_assoc] at grown
    cases o with
    | failed => exact ⟨_, grown, whole⟩
    | stopped => exact ⟨_, grown, whole⟩
    | _ =>
      obtain ⟨closing, accepted', returned⟩ : ∃ x : Notice σ, x.refuses = false ∧
          (Call.finish.told ob.recorded r.name t).watch.2 = t.watch.2 ++ [x] := ⟨_, rfl, rfl⟩
      refine ⟨[opening] ++ log ++ [closing], ?_, .through ?_⟩
      · exact returned.trans (by rw [grown, List.append_assoc])
      · exact List.forall_mem_append.2 ⟨whole.accepted, List.forall_mem_singleton.2 accepted'⟩

theorem recorded_follows (ob : Observer σ) :
    Follower (fun x y => y.1 = x) (fun _ => True) ob.recorded ob where
  ends := fun _ => trivial
  goOn := by
    rintro st env w x y rfl go
    exact ⟨go, rfl⟩
  stop := by
    rintro - st env w x y rfl halt
    exact ⟨halt, rfl⟩
  onCall := by
    rintro name env w x y rfl
    rfl
  onReturn := by
    rintro name env w x y rfl
    rfl

/-- A run under an observer that keeps a record is the run without the record, and the record says
that nothing followed a stop. -/
def FinalStop (stops : α → Bool) (recorded : Session (σ × List (Notice σ)) →
    α × Session (σ × List (Notice σ))) (run : Session σ → α × Session σ) : Prop :=
  ∀ s, ∃ log, recorded (s.under (s.watch, [])) =
      ((run s).1, (run s).2.under ((run s).2.watch, log)) ∧
    Told log (stops (run s).1) (run s).2

namespace FinalStop

variable {stops : α → Bool} {recorded : Session (σ × List (Notice σ)) →
  α × Session (σ × List (Notice σ))} {run : Session σ → α × Session σ}

theorem of_told (follows : Follows (fun x y => y.1 = x) (fun _ => True) recorded run)
    (told : ∀ s, ∃ log, (recorded s).2.watch.2 = s.watch.2 ++ log ∧
      Told log (stops (recorded s).1) (recorded s).2.unrecorded) :
    FinalStop stops recorded run := by
  intro s
  obtain ⟨⟨watch, log⟩, rfl, e⟩ := follows s (s.watch, []) rfl trivial
  obtain ⟨log', grown, told⟩ := told (s.under (s.watch, []))
  rw [e] at grown told
  obtain rfl : log = log' := grown
  exact ⟨log, e, told⟩

theorem map {stops' : β → Bool} (f : α → β) (hf : ∀ a, stops' (f a) = stops a)
    (h : FinalStop stops recorded run) :
    FinalStop stops' (fun s => (f (recorded s).1, (recorded s).2))
      (fun s => (f (run s).1, (run s).2)) := by
  intro s
  obtain ⟨log, e, told⟩ := h s
  exact ⟨log, congrArg (fun r => (f r.1, r.2)) e, (hf (run s).1).symm ▸ told⟩

variable (ob : Observer σ) (limits : Limits) (n : Nat)

theorem within (x : Bytes) (vs : List Value) (l : Location) :
    FinalStop (·.outcome.stops) (Call.within ob.recorded limits n x vs l)
      (Call.within ob limits n x vs l) :=
  of_told ((recorded_follows ob).within limits n x vs l)
    ((told_law ob).caller limits n x vs l)

theorem invoke (r : Routine) (owner : Step) (vs : List Value) (l : Location) :
    FinalStop (·.outcome.stops) (Call.invoke ob.recorded limits n r owner vs l)
      (Call.invoke ob limits n r owner vs l) :=
  of_told ((recorded_follows ob).invoke limits n r owner vs l)
    ((told_law ob).invoke limits n r owner vs l)

theorem performBlock (block : List Statement) :
    FinalStop Outcome.stops
      (Statement.performBlock ob.recorded limits (Call.within ob.recorded limits n) block)
      (Statement.performBlock ob limits (Call.within ob limits n) block) :=
  of_told
    ((recorded_follows ob).performBlock limits ((recorded_follows ob).within limits n) block)
    ((told_law ob).performBlock limits ((told_law ob).caller limits n) block)

theorem execute (st : Statement) :
    FinalStop Outcome.stops (st.execute ob.recorded limits n) (st.execute ob limits n) :=
  of_told
    ((recorded_follows ob).announced st
      ((recorded_follows ob).perform limits ((recorded_follows ob).within limits n) st))
    ((told_law ob).announced st
      ((told_law ob).perform limits ((told_law ob).caller limits n) st))

end FinalStop

def Result.isStop (r : Result) : Bool := r = { stopped := true }

theorem Result.isStop_ofOutcome (o : Outcome) : (ofOutcome o).isStop = o.stops := by
  cases o <;> rfl

theorem Result.isStop_ofCall (r : CallResult) : (ofCall r).isStop = r.outcome.stops := by
  cases r <;> rfl

namespace FinalStop

variable (ob : Observer σ) (limits : Limits)

theorem runBlock (body : List Statement) :
    FinalStop Result.isStop (Session.runBlock ob.recorded limits body)
      (Session.runBlock ob limits body) :=
  fun s => (performBlock ob limits (s.callsLeft limits) body).map _ Result.isStop_ofOutcome s

theorem runStep (step : Step) (vs : List Value) :
    FinalStop Result.isStop (Session.runStep ob.recorded limits step vs)
      (Session.runStep ob limits step vs) :=
  fun s => (invoke ob limits (s.callsLeft limits) step.toRoutine step vs step.location).map _
    Result.isStop_ofCall s

end FinalStop

namespace Machine

variable (ob : Observer σ) (limits : Limits)

theorem perform_stopped (task : Task) (rest : List Task) (s : Session σ) :
    ∃ u, perform ob limits rest s task .stopped = ⟨.stopped, rest, u⟩ ∧ u.world = s.world ∧
      u.watch = s.watch ∧ s.env.Unwound u.env := by
  have idle : ∃ u, (⟨.stopped, rest, s⟩ : Machine σ) = ⟨.stopped, rest, u⟩ ∧ u.world = s.world ∧
      u.watch = s.watch ∧ s.env.Unwound u.env := ⟨s, rfl, rfl, rfl, .refl _⟩
  cases task with
  | block more => cases more <;> exact idle
  | arms more otherwise => cases more <;> cases otherwise <;> exact idle
  | loop rounds => exact idle
  | handler body => cases body <;> exact idle
  | continuation body => exact idle
  | pending o => exact idle
  | closeBlock => exact ⟨_, rfl, rfl, rfl, .block (.refl _)⟩
  | closeFrame name => exact ⟨_, rfl, rfl, rfl, .call (.refl _)⟩
  | receive target l => cases target <;> exact idle

/-- A stop goes through everything that is still to be done, task by task. -/
theorem after_stopped (k : Nat) (tasks : List Task) (s : Session σ) :
    ∃ u, after ob limits k ⟨.stopped, tasks, s⟩ = ⟨.stopped, tasks.drop k, u⟩ ∧
      u.world = s.world ∧ u.watch = s.watch ∧ s.env.Unwound u.env := by
  induction k generalizing tasks s with
  | zero => exact ⟨s, rfl, rfl, rfl, .refl _⟩
  | succ k ih =>
    cases tasks with
    | nil => exact ⟨s, rfl, rfl, rfl, .refl _⟩
    | cons task rest =>
      obtain ⟨t, e, world, watch, env⟩ := perform_stopped ob limits task rest s
      obtain ⟨u, e', world', watch', env'⟩ := ih rest t
      refine ⟨u, ?_, world'.trans world, watch'.trans watch, env.trans env'⟩
      exact (congrArg (after ob limits k) e).trans e'

theorem after_refusal {st : Statement} (note : st.isNote = false) {s : Session σ}
    (refused : (s.announce ob st).1 = false) (more : List Statement) (rest : List Task) (k : Nat) :
    ∃ u, after ob limits (k + 1) ⟨.normal, .block (st :: more) :: rest, s⟩ =
        ⟨.stopped, (.block more :: rest).drop k, u⟩ ∧ u.world = s.world ∧
      u.watch = (s.announce ob st).2.watch ∧ (s.announce ob st).2.env.Unwound u.env := by
  obtain ⟨u, e, same⟩ := after_stopped ob limits k (.block more :: rest) (s.announce ob st).2
  refine ⟨u, ?_, same⟩
  rw [← e]
  have begun : begin ob limits (.block more :: rest) s st =
      ⟨.stopped, .block more :: rest, (s.announce ob st).2⟩ := by
    simp only [begin, note, refused, Bool.false_eq_true, if_false]
  exact congrArg (after ob limits k) begun

end Machine

/-- A refusal to go on is the last thing that happens in a run, of whatever it is a run: the
observer is told nothing more, world and variables stay as they are, the run ends as stopped, and
every task that was still to be done is passed over or closes what it opened. -/
theorem Observer.refusal_ends_run (ob : Observer σ) (limits : Limits) :
    (∀ n (st : Statement),
      FinalStop Outcome.stops (st.execute ob.recorded limits n) (st.execute ob limits n)) ∧
    (∀ n block, FinalStop Outcome.stops
      (Statement.performBlock ob.recorded limits (Call.within ob.recorded limits n) block)
      (Statement.performBlock ob limits (Call.within ob limits n) block)) ∧
    (∀ n r owner vs l, FinalStop (·.outcome.stops)
      (Call.invoke ob.recorded limits n r owner vs l) (Call.invoke ob limits n r owner vs l)) ∧
    (∀ n x vs l, FinalStop (·.outcome.stops)
      (Call.within ob.recorded limits n x vs l) (Call.within ob limits n x vs l)) ∧
    (∀ body, FinalStop Result.isStop
      (Session.runBlock ob.recorded limits body) (Session.runBlock ob limits body)) ∧
    (∀ b, FinalStop Result.isStop
      (Session.runBuilding ob.recorded limits b) (Session.runBuilding ob limits b)) ∧
    (∀ step vs, FinalStop Result.isStop
      (Session.runStep ob.recorded limits step vs) (Session.runStep ob limits step vs)) ∧
    ∀ (st : Statement) (s : Session σ), st.isNote = false → (s.announce ob st).1 = false →
      ∀ more rest k, ∃ u,
        Machine.after ob limits (k + 1) ⟨.normal, .block (st :: more) :: rest, s⟩ =
            ⟨.stopped, (.block more :: rest).drop k, u⟩ ∧
          u.world = s.world ∧ u.watch = (s.announce ob st).2.watch ∧
          (s.announce ob st).2.env.Unwound u.env :=
  ⟨FinalStop.execute ob limits, FinalStop.performBlock ob limits, FinalStop.invoke ob limits,
    FinalStop.within ob limits, FinalStop.runBlock ob limits,
    fun b => FinalStop.runBlock ob limits b.body, FinalStop.runStep ob limits,
    fun _ _ note refused => Machine.after_refusal ob limits note refused⟩

def Observer.patient : Observer Nat where
  before _ _ _ n := (n < 2, n + 1)
  onCall _ _ _ n := n
  onReturn _ _ _ n := n

theorem Observer.refusal_ends_run_attempt :
    let line (x : Bytes) := Statement.display {} (.text {} x)
    let loop := Statement.repeatWhile {} (.boolean {} true) [line "round"]
    let attempt := Statement.attempt {} [loop] (some [line "handler"]) (some [line "at last"])
    let s : Session Nat := ⟨.fresh "main" false, {}, 0⟩
    let run := s.runBlock patient {} [attempt, line "after"]
    run.1 = { stopped := true } ∧ run.2.watch = 3 ∧
      (∃ earlier x,
        ((s.under (0, [])).runBlock patient.recorded {} [attempt, line "after"]).2.watch.2 =
          earlier ++ [x] ∧ x.refuses = true ∧ run.2.world = x.world) ∧
      (line "round").isNote = false ∧
      ((s.under 2).announce patient (line "round")).1 = false ∧
      ∃ u, Machine.after patient {} 4
          ⟨.normal, [.block [line "round"], .closeBlock, .handler (some [line "handler"]),
            .block [line "after"]], s.under 2⟩ = ⟨.stopped, [.block [line "after"]], u⟩ ∧
        u.world = s.world := by
  intro line loop attempt s run
  have ⟨_, _, _, _, runs, _, _, machine⟩ := refusal_ends_run patient {}
  have ends : run.1 = { stopped := true } := by decide
  refine ⟨ends, by decide, ?_, rfl, rfl, ?_⟩
  · obtain ⟨log, e, told⟩ := runs [attempt, line "after"] s
    have stopped : Result.isStop run.1 = true := by rw [ends]; rfl
    rw [stopped] at told
    cases told with
    | refused _ no world => exact ⟨_, _, congrArg (·.2.watch.2) e, no, world⟩
  · obtain ⟨u, e, world, -⟩ := machine (line "round") (s.under 2) rfl rfl []
      [.closeBlock, .handler (some [line "handler"]), .block [line "after"]] 3
    exact ⟨u, e, world⟩

end StepsLang
