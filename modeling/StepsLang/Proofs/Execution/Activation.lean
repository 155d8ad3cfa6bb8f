import StepsLang.Proofs.Execution.Move
import StepsLang.Proofs.Execution.Stop

/-! Activations.  Above the frame that a run began in, every frame was opened by a call from the
frame below it.  The steps that run are kept apart from the frames, and are opened and closed on
their own. -/

namespace StepsLang

namespace Frame

structure SameCall (f g : Frame) : Prop where
  name : g.name = f.name
  callSite : g.callSite = f.callSite

theorem SameCall.refl (f : Frame) : SameCall f f := ⟨rfl, rfl⟩

theorem SameCall.trans {f g k : Frame} (h : SameCall f g) (h' : SameCall g k) : SameCall f k :=
  ⟨h'.name.trans h.name, h'.callSite.trans h.callSite⟩

theorem Extends.sameCall {f g : Frame} (h : Extends f g) : SameCall f g :=
  ⟨h.name, h.callSite⟩

end Frame

namespace Session

theorem sameCall_declare_all (ds : List Declaration) (env : Environment) (heap : Heap) :
    Frame.SameCall env.top (ds.foldl
      (fun (env, heap) d =>
        let (v, heap) := heap.default d.type
        (env.declare d v, heap)) (env, heap)).1.top := by
  induction ds generalizing env heap with
  | nil => exact .refl env.top
  | cons d ds ih =>
    rw [List.foldl_cons]
    refine .trans ?_ (ih _ _)
    exact ⟨rfl, rfl⟩

theorem sameCall_define_all (xs : List (TypedName × Value)) (env : Environment) :
    Frame.SameCall env.top (xs.foldl (fun env (p, v) => env.define p.name v) env).top := by
  induction xs generalizing env with
  | nil => exact .refl env.top
  | cons x xs ih =>
    rw [List.foldl_cons]
    exact .trans (Frame.extends_define env.top _ _).sameCall (ih (env.define x.1.name x.2))

theorem sameCall_call (ob : Observer σ) (r : Routine) (owner : Step) (vs : List Value)
    (l : Location) (s : Session σ) :
    Frame.SameCall ((s.env.pushFrame r.name l).pushStep owner).top
      (s.call ob r owner vs l).env.top :=
  (sameCall_declare_all _ _ _).trans (sameCall_define_all _ _)

end Session

/-- The frames of a run and its steps, innermost first, and the body that the innermost frame carries
out.  The run began in `base`, with a body or with a step that was called from outside; every other
frame was opened by a call that is a statement of the body under it, which was looked up with the
steps that ran then. -/
inductive Opened (base : Environment) (body : List Statement) (first : Option Step) :
    List Frame → List Step → List Statement → Prop
  | lowest : Opened base body first (f :: base.below) base.running body
  | first : first = some step → g.name = step.name →
    Opened base body first (g :: f :: base.below) (step :: base.running) step.body
  | call : Opened base body first (f :: fs) steps caller →
    (Statement.call l x arguments target).Within caller → f.current = l →
    Resolves base.steps steps x r owner → g.name = r.name → g.callSite = l →
    Opened base body first (g :: f :: fs) (owner :: steps) r.body

/-- What a run has left to do, with its frames and its steps.  The tasks above the one that closes a
frame are parts of the body that the frame carries out. -/
inductive Stacked (base : Environment) (body : List Statement) (first : Option Step) :
    List Task → List Frame → List Step → List Statement → Prop
  | lowest : (∀ t ∈ tasks, t.From body) →
    Stacked base body first tasks (f :: base.below) base.running body
  | first : first = some step → (∀ t ∈ tasks, t.From step.body) → g.name = step.name →
    Stacked base body first (tasks ++ [.closeFrame step.name]) (g :: f :: base.below)
      (step :: base.running) step.body
  | call : Stacked base body first outer (f :: fs) steps caller →
    (Statement.call l x arguments target).Within caller → f.current = l →
    Resolves base.steps steps x r owner → (∀ t ∈ tasks, t.From r.body) → g.name = r.name →
    g.callSite = l →
    Stacked base body first (tasks ++ .closeFrame r.name :: outer) (g :: f :: fs)
      (owner :: steps) r.body

namespace Stacked

variable {base : Environment} {body running : List Statement} {first : Option Step}
  {frames fs : List Frame} {f g : Frame} {steps : List Step} {task : Task} {tasks rest : List Task}

theorem opened (h : Stacked base body first tasks frames steps running) :
    Opened base body first frames steps running := by
  induction h with
  | lowest => exact .lowest
  | first isFirst _ name => exact .first isFirst name
  | call _ within here resolved _ name site ih => exact .call ih within here resolved name site

/-- The task on top is a part of the body that is carried out, and its frame goes on with other
parts; or else it closes the frame. -/
theorem next (h : Stacked base body first (task :: rest) (f :: fs) steps running) :
    (task.From running ∧ ∀ new, (∀ t ∈ new, t.From running) → ∀ g, f.SameCall g →
      Stacked base body first (new ++ rest) (g :: fs) steps running) ∨
    ∃ name, task = .closeFrame name ∧ ∃ g gs caller, fs = g :: gs ∧
      Stacked base body first rest (g :: gs) steps.tail caller := by
  generalize ht : task :: rest = tasks at h
  generalize hf : f :: fs = frames at h
  -- In a frame that was opened, the task is the closing one if no part of the body is left.
  cases h with
  | lowest parts =>
    cases ht
    cases hf
    obtain ⟨part, others⟩ := List.forall_mem_cons.1 parts
    refine .inl ⟨part, fun new hn g same => ?_⟩
    exact .lowest (List.forall_mem_append.2 ⟨hn, others⟩)
  | first isFirst parts name =>
    cases hf
    obtain ⟨rfl, e⟩ | ⟨tasks, rfl, rfl⟩ := List.cons_eq_append_iff.1 ht
    · cases e
      exact .inr ⟨_, rfl, _, _, _, rfl, .lowest (by simp)⟩
    · obtain ⟨part, others⟩ := List.forall_mem_cons.1 parts
      refine .inl ⟨part, fun new hn g same => ?_⟩
      rw [← List.append_assoc]
      exact .first isFirst (List.forall_mem_append.2 ⟨hn, others⟩) (same.name.trans name)
  | call under within here resolved parts name site =>
    cases hf
    obtain ⟨rfl, e⟩ | ⟨tasks, rfl, rfl⟩ := List.cons_eq_append_iff.1 ht
    · cases e
      exact .inr ⟨_, rfl, _, _, _, rfl, under⟩
    · obtain ⟨part, others⟩ := List.forall_mem_cons.1 parts
      refine .inl ⟨part, fun new hn g same => ?_⟩
      rw [← List.append_assoc]
      exact .call under within here resolved (List.forall_mem_append.2 ⟨hn, others⟩)
        (same.name.trans name) (same.callSite.trans site)

theorem sameCall (h : Stacked base body first tasks (f :: fs) steps running)
    (same : f.SameCall g) : Stacked base body first tasks (g :: fs) steps running := by
  generalize hf : f :: fs = frames at h
  cases h with
  | lowest parts =>
    cases hf
    exact .lowest parts
  | first isFirst parts name =>
    cases hf
    exact .first isFirst parts (same.name.trans name)
  | call under within here resolved parts name site =>
    cases hf
    exact .call under within here resolved parts (same.name.trans name) (same.callSite.trans site)

end Stacked

structure Aligned (base : Environment) (body : List Statement) (first : Option Step)
    (limits : Limits) (tasks : List Task) (env : Environment) : Prop where
  stacked : ∃ running, Stacked base body first tasks env.frames env.running running
  steps : env.steps = base.steps
  shallow : env.depth ≤ max base.depth limits.depth

namespace Aligned

variable {base env env' : Environment} {body : List Statement} {first : Option Step}
  {limits : Limits} {task : Task} {tasks rest new : List Task}

theorem sameCall (h : Aligned base body first limits tasks env) (around : env.Around env')
    (same : env.top.SameCall env'.top) : Aligned base body first limits tasks env' where
  stacked := by
    obtain ⟨running, stacked⟩ := h.stacked
    rw [Environment.frames, around.below, around.running]
    exact ⟨running, stacked.sameCall same⟩
  steps := around.steps.trans h.steps
  shallow := by
    rw [Environment.depth, around.below]
    exact h.shallow

theorem part (h : Aligned base body first limits (task :: rest) env)
    (inFrame : ∀ name, task ≠ .closeFrame name) :
    ∃ running, task.From running ∧ Opened base body first env.frames env.running running ∧
      ∀ new, (∀ t ∈ new, t.From running) → ∀ g, env.top.SameCall g →
        Stacked base body first (new ++ rest) (g :: env.below) env.running running := by
  obtain ⟨running, stacked⟩ := h.stacked
  rcases stacked.next with ⟨part, goesOn⟩ | ⟨name, closing, -⟩
  · exact ⟨running, part, stacked.opened, goesOn⟩
  · exact absurd closing (inFrame name)

theorem goOn (h : Aligned base body first limits (task :: rest) env) (leaves : task.Leaves new)
    (around : env.Around env') (same : env.top.SameCall env'.top) :
    Aligned base body first limits (new ++ rest) env' := by
  obtain ⟨running, part, -, goesOn⟩ := h.part leaves.inFrame
  refine sameCall ⟨⟨running, ?_⟩, h.steps, h.shallow⟩ around same
  exact goesOn new (leaves.parts running part) env.top (.refl _)

theorem call {r : Routine} {owner : Step} {x : Bytes} {l : Location} {target : Option Bytes}
    (h : Aligned base body first limits (task :: rest) env) (leaves : task.Leaves new)
    (called : ∀ body, task.From body →
      ∃ arguments, (Statement.call l x arguments target).Within body)
    (shallow : env.depth < limits.depth) (here : env.top.current = l)
    (resolved : Resolves env.steps env.running x r owner)
    (around : ((env.pushFrame r.name l).pushStep owner).Around env')
    (same : ((env.pushFrame r.name l).pushStep owner).top.SameCall env'.top) :
    Aligned base body first limits
      (.block r.body :: .closeFrame r.name :: .receive target l :: (new ++ rest)) env' := by
  obtain ⟨running, part, -, goesOn⟩ := h.part leaves.inFrame
  obtain ⟨arguments, within⟩ := called running part
  have under := goesOn (.receive target l :: new)
    (List.forall_mem_cons.2 ⟨.receive within, leaves.parts running part⟩) env.top (.refl _)
  have inside : ∀ t ∈ [Task.block r.body], t.From r.body :=
    List.forall_mem_singleton.2 (.block fun _ hs => .here hs)
  refine ⟨⟨r.body, ?_⟩, around.steps.trans h.steps, ?_⟩
  · rw [Environment.frames, around.below, around.running]
    rw [h.steps] at resolved
    exact .call under within here resolved inside same.name same.callSite
  · rw [Environment.depth, around.below]
    exact Nat.le_trans shallow (Nat.le_max_right _ _)

theorem leave {name : Bytes}
    (h : Aligned base body first limits (.closeFrame name :: rest) env) :
    Aligned base body first limits rest env.popStep.popFrame := by
  obtain ⟨running, stacked⟩ := h.stacked
  rcases stacked.next with ⟨part, -⟩ | ⟨-, -, g, gs, caller, below, under⟩
  · cases part
  · have back : env.popStep.popFrame =
        { env with top := g, below := gs, running := env.running.tail } := by
      simp only [Environment.popFrame, Environment.popStep, below]
    rw [back]
    refine ⟨⟨caller, under⟩, h.steps, ?_⟩
    have shallow := h.shallow
    simp only [Environment.depth, below, List.length_cons] at shallow ⊢
    omega

open Machine

variable {ob : Observer σ} {s t : Session σ}

theorem ready (h : Aligned base body first limits tasks s.env) (ready : Ready ob s task t) :
    Aligned base body first limits tasks t.env := by
  cases ready with
  | still => exact h
  | announced => exact h.sameCall ⟨rfl, rfl, rfl, rfl, rfl⟩ ⟨rfl, rfl⟩

theorem does (h : Aligned base body first limits (task :: rest) s.env)
    (does : Does ob limits task rest s tasks t) :
    Aligned base body first limits tasks t.env := by
  cases does with
  | stay w leaves => exact h.goOn leaves (.refl _) (.refl _)
  | assign w _ set leaves =>
    have confined := Environment.confined_set set
    exact h.goOn leaves confined.toAround confined.top.sameCall
  | inside w leaves =>
    exact h.goOn leaves.closing ⟨rfl, rfl, rfl, rfl, rfl⟩ ⟨rfl, rfl⟩
  | insideWith x v leaves =>
    have pushed : s.env.Around s.env.pushBlock := ⟨rfl, rfl, rfl, rfl, rfl⟩
    have same : s.env.top.SameCall s.env.pushBlock.top := ⟨rfl, rfl⟩
    have defined := Environment.confined_define s.env.pushBlock x v
    exact h.goOn leaves.closing (pushed.trans defined.toAround) (same.trans defined.top.sameCall)
  | call w vs shallow here resolved called leaves =>
    let before : Session σ := { s with world := w }
    exact h.call leaves called shallow here resolved (Session.around_call ob _ _ vs _ before)
      (Session.sameCall_call ob _ _ vs _ before)
  | closeBlock closing =>
    subst closing
    exact h.goOn (Task.leaves_nil nofun) ⟨rfl, rfl, rfl, rfl, rfl⟩ ⟨rfl, rfl⟩
  | closeFrame o closing =>
    subst closing
    cases o <;> exact h.leave

theorem block (body : List Statement) (env : Environment) (limits : Limits) :
    Aligned env body none limits [.block body] env where
  stacked := ⟨body, .lowest (List.forall_mem_singleton.2 (.block fun _ hs => .here hs))⟩
  steps := rfl
  shallow := Nat.le_max_left _ _

theorem idle (env : Environment) (first : Option Step) (limits : Limits) :
    Aligned env [] first limits [] env :=
  ⟨⟨[], .lowest (by simp)⟩, rfl, Nat.le_max_left _ _⟩

theorem step (ob : Observer σ) (step : Step) (vs : List Value) {s : Session σ}
    (shallow : s.env.depth < limits.depth) :
    Aligned s.env [] (some step) limits [.block step.body, .closeFrame step.name]
      (s.call ob step.toRoutine step vs step.location).env := by
  have around := Session.around_call ob step.toRoutine step vs step.location s
  have same := Session.sameCall_call ob step.toRoutine step vs step.location s
  have parts : ∀ t ∈ [Task.block step.body], t.From step.body :=
    List.forall_mem_singleton.2 (.block fun _ hs => .here hs)
  refine ⟨⟨step.body, ?_⟩, around.steps, ?_⟩
  · rw [Environment.frames, around.below, around.running]
    exact .first rfl parts same.name
  · rw [Environment.depth, around.below]
    exact Nat.le_trans shallow (Nat.le_max_right _ _)

end Aligned

/-- What an observer is told in a run fits the frames that are open then: a statement that is
announced belongs to the body that the innermost frame carries out. -/
structure Notice.Fits (base : Environment) (body : List Statement) (first : Option Step)
    (limits : Limits) (x : Notice σ) : Prop where
  opened : ∃ running, Opened base body first x.env.frames x.env.running running ∧
    ∀ st go, x.hook = .before st go → st.Within running ∧ x.env.top.current = st.location
  shallow : x.env.depth ≤ max base.depth limits.depth

namespace Machine

variable {base : Environment} {body : List Statement} {first : Option Step} {ob : Observer σ}
  {limits : Limits} {m m' : Machine (σ × List (Notice σ))}

structure Recorded (base : Environment) (body : List Statement) (first : Option Step)
    (limits : Limits) (m : Machine (σ × List (Notice σ))) : Prop where
  aligned : Aligned base body first limits m.tasks m.session.env
  notices : ∀ x ∈ m.session.watch.2, x.Fits base body first limits

theorem fits_of_aligned {tasks : List Task} {x : Notice σ}
    (h : Aligned base body first limits tasks x.env) (silent : ∀ st go, x.hook ≠ .before st go) :
    x.Fits base body first limits where
  opened := by
    obtain ⟨running, stacked⟩ := h.stacked
    exact ⟨running, stacked.opened, fun st go announces => absurd announces (silent st go)⟩
  shallow := h.shallow

theorem fits_announced {rest : List Task} {s t : Session (σ × List (Notice σ))} {task : Task}
    (h : Aligned base body first limits (task :: rest) s.env) (ready : Ready ob.recorded s task t)
    (notices : ∀ x ∈ s.watch.2, x.Fits base body first limits) :
    ∀ x ∈ t.watch.2, x.Fits base body first limits := by
  cases ready with
  | still => exact notices
  | @announced st more heard =>
    refine List.forall_mem_append.2 ⟨notices, List.forall_mem_singleton.2 ?_⟩
    have around : s.env.Around (s.env.moveTo st.location) := ⟨rfl, rfl, rfl, rfl, rfl⟩
    have moved := h.sameCall around ⟨rfl, rfl⟩
    obtain ⟨running, part, opened, -⟩ := moved.part nofun
    refine ⟨⟨running, opened, ?_⟩, moved.shallow⟩
    rintro st' go ⟨⟩
    exact ⟨part.head, rfl⟩

theorem fits_told {tasks rest : List Task} {s t : Session (σ × List (Notice σ))} {task : Task}
    (h : Aligned base body first limits (task :: rest) s.env)
    (does : Does ob.recorded limits task rest s tasks t)
    (notices : ∀ x ∈ s.watch.2, x.Fits base body first limits) :
    ∀ x ∈ t.watch.2, x.Fits base body first limits := by
  have after := h.does does
  cases does with
  | call =>
    refine List.forall_mem_append.2 ⟨notices, List.forall_mem_singleton.2 ?_⟩
    exact fits_of_aligned after nofun
  | closeFrame o closing =>
    have returned (name : Bytes) : ∀ x ∈ (Call.finish.told ob.recorded name s).watch.2,
        x.Fits base body first limits := by
      refine List.forall_mem_append.2 ⟨notices, List.forall_mem_singleton.2 ?_⟩
      exact fits_of_aligned h nofun
    cases o with
    | failed | stopped => exact notices
    | _ => exact returned _
  | _ => exact notices

theorem Recorded.step (h : Recorded base body first limits m)
    (e : m.step ob.recorded limits = some m') : Recorded base body first limits m' := by
  obtain ⟨o, tasks, s⟩ := m
  cases tasks with
  | nil => cases e
  | cons task rest =>
    cases e
    obtain ⟨t, ready, does⟩ := perform_does ob.recorded limits task o rest s
    have aligned := h.aligned.ready ready
    exact ⟨aligned.does does, fits_told aligned does (fits_announced h.aligned ready h.notices)⟩

theorem Recorded.after (ob : Observer σ) (h : Recorded base body first limits m) (k : Nat) :
    Recorded base body first limits (after ob.recorded limits k m) :=
  after_keeps Recorded.step h k

end Machine

/-- What the activation at place `i` among the frames is, counted from the innermost one: it carries
out the step at the same place among the steps, or a riser of it, and then the frame that called it
runs the same step.  All but the innermost frame stand at a call. -/
structure Activation (frames : List Frame) (steps : List Step) (running : List Statement) (i : Nat)
    (owner : Step) (r : Routine) : Prop where
  entry : steps[i]? = some owner
  frame : ∃ g, frames[i]? = some g ∧ g.name = r.name ∧
    (0 < i → ∃ st : Statement, st.isCall = true ∧ st.Within r.body ∧ g.current = st.location)
  innermost : i = 0 → r.body = running
  routine : r = owner.toRoutine ∨ r ∈ owner.risers ∧ steps[i + 1]? = some owner

theorem Activation.outer {f g : Frame} {fs : List Frame} {caller running : List Statement}
    {st : Statement} {steps : List Step} {owner owner' : Step} {r : Routine} {i : Nat}
    (h : Activation (f :: fs) steps caller i owner r) (call : st.isCall = true)
    (within : st.Within caller) (here : f.current = st.location) :
    Activation (g :: f :: fs) (owner' :: steps) running (i + 1) owner r where
  entry := h.entry
  frame := by
    obtain ⟨k, at_, name, calls⟩ := h.frame
    refine ⟨k, at_, name, fun _ => ?_⟩
    cases i with
    | zero =>
      cases at_
      exact ⟨st, call, h.innermost rfl ▸ within, here⟩
    | succ i => exact calls (Nat.succ_pos i)
  innermost := nofun
  routine := h.routine

theorem Opened.activations {base : Environment} {body running : List Statement}
    {first : Option Step} {frames : List Frame} {steps : List Step}
    (h : Opened base body first frames steps running) (lowest : base.below = [])
    (alone : base.running = []) :
    steps.length + 1 = frames.length ∧
      ∀ i < steps.length, ∃ owner r, Activation frames steps running i owner r := by
  -- On how the frames were opened: a call adds an activation at the place 0, and those that were
  -- there move up by one place.
  induction h with
  | lowest => simp [lowest, alone]
  | @first step g f isFirst name =>
    refine ⟨by simp [lowest, alone], fun i hi => ?_⟩
    obtain rfl : i = 0 := by simpa [alone] using hi
    exact ⟨step, step.toRoutine, rfl, ⟨g, rfl, name, nofun⟩, fun _ => rfl, .inl rfl⟩
  | @call f fs steps caller l x arguments target r owner g under within here resolved name site ih =>
    refine ⟨by simpa using ih.1, fun i hi => ?_⟩
    cases i with
    | zero =>
      refine ⟨owner, r, rfl, ⟨g, rfl, name, nofun⟩, fun _ => rfl, ?_⟩
      cases resolved with
      | riser runs found =>
        refine .inr ⟨List.mem_of_find?_eq_some found, ?_⟩
        rwa [List.getElem?_cons_succ, ← List.head?_eq_getElem?]
      | step => exact .inl rfl
    | succ i =>
      obtain ⟨owner', r', activation⟩ := ih.2 i (Nat.lt_of_succ_lt_succ hi)
      exact ⟨owner', r', activation.outer rfl within here⟩

/-- What an observer is told in a run: there are no more calls than allowed and a step for each, and
each frame carries out a routine of its step.  A statement that is announced belongs to the routine
of the innermost frame. -/
structure Notice.Nested (base : Environment) (body : List Statement) (first : Option Step)
    (limits : Limits) (x : Notice σ) : Prop where
  shallow : x.env.depth ≤ limits.depth
  entries : x.env.running.length = x.env.depth
  activations : ∃ running, Opened base body first x.env.frames x.env.running running ∧
    (∀ st go, x.hook = .before st go → st.Within running ∧ x.env.top.current = st.location) ∧
    ∀ i < x.env.depth, ∃ owner r, Activation x.env.frames x.env.running running i owner r

theorem Notice.Fits.nested {base : Environment} {body : List Statement} {first : Option Step}
    {limits : Limits} {x : Notice σ} (h : x.Fits base body first limits)
    (lowest : base.below = []) (alone : base.running = []) :
    x.Nested base body first limits := by
  obtain ⟨running, opened, announced⟩ := h.opened
  obtain ⟨entries, activations⟩ := opened.activations lowest alone
  have shallow := h.shallow
  have outside : base.depth = 0 := by simp [Environment.depth, lowest]
  rw [outside, Nat.zero_max] at shallow
  have together : x.env.running.length = x.env.depth := Nat.succ.inj entries
  refine ⟨shallow, together, running, opened, announced, fun i hi => ?_⟩
  exact activations i (together ▸ hi)

/-- A run under an observer that keeps a record is the run without the record, and whatever the
observer was told, the activations were nested. -/
def NestedRun (body : List Statement) (first : Option Step) (limits : Limits)
    (recorded : Session (σ × List (Notice σ)) → Result × Session (σ × List (Notice σ)))
    (run : Session σ → Result × Session σ) (s : Session σ) : Prop :=
  ∃ log, recorded (s.under (s.watch, [])) =
      ((run s).1, (run s).2.under ((run s).2.watch, log)) ∧
    ∀ x ∈ log, x.Nested s.env body first limits

namespace NestedRun
open Machine

variable {body : List Statement} {first : Option Step} {limits : Limits}
  {recorded : Session (σ × List (Notice σ)) → Result × Session (σ × List (Notice σ))}
  {run : Session σ → Result × Session σ} {s : Session σ} (lowest : s.env.below = [])
  (alone : s.env.running = [])
include lowest alone

theorem of_recorded {ob : Observer σ} {m : Machine (σ × List (Notice σ))} {o : Outcome}
    (final : FinalStop Result.isStop recorded run)
    (start : Recorded s.env body first limits m)
    (ends : Machine.Leads ob.recorded limits m ⟨o, [], (recorded (s.under (s.watch, []))).2⟩) :
    NestedRun body first limits recorded run s := by
  obtain ⟨log, same, -⟩ := final s
  refine ⟨log, same, fun x hx => ?_⟩
  obtain ⟨k, e⟩ := ends
  have notices := (start.after ob k).notices
  rw [e, same] at notices
  exact (notices x hx).nested lowest alone

variable (ob : Observer σ)

theorem runBlock (body : List Statement) :
    NestedRun body none limits (Session.runBlock ob.recorded limits body)
      (Session.runBlock ob limits body) s := by
  have start : Recorded s.env body none limits
      ⟨.normal, [.block body], s.under (s.watch, ([] : List (Notice σ)))⟩ :=
    ⟨.block body s.env limits, by simp⟩
  exact of_recorded lowest alone (FinalStop.runBlock ob limits body) start
    (performBlock_ends body [] _)

theorem runStep (step : Step) (vs : List Value) :
    NestedRun [] (some step) limits (Session.runStep ob.recorded limits step vs)
      (Session.runStep ob limits step vs) s := by
  have start : Recorded s.env [] (some step) limits
      (openRoutine ob.recorded limits step.toRoutine step vs step.location []
        (s.under (s.watch, []))) := by
    unfold openRoutine
    split
    · exact ⟨.idle s.env _ limits, by simp⟩
    · next shallow =>
      split
      · exact ⟨.idle s.env _ limits, by simp⟩
      · have aligned := Aligned.step ob.recorded step vs (Nat.not_le.1 shallow)
        exact ⟨aligned, List.forall_mem_singleton.2 (fits_of_aligned aligned nofun)⟩
  exact of_recorded lowest alone (FinalStop.runStep ob limits step vs) start
    (routine_ends _ step.toRoutine step vs step.location [] _ rfl)

end NestedRun

/-- In an environment with its lowest frame only and no step that runs, every run nests its
activations. -/
theorem Session.activations_of_run (ob : Observer σ) (limits : Limits) (s : Session σ)
    (lowest : s.env.below = []) (alone : s.env.running = []) :
    (∀ body, NestedRun body none limits (Session.runBlock ob.recorded limits body)
      (Session.runBlock ob limits body) s) ∧
    (∀ b : Building, NestedRun b.body none limits (Session.runBuilding ob.recorded limits b)
      (Session.runBuilding ob limits b) s) ∧
    ∀ (step : Step) vs, NestedRun [] (some step) limits
      (Session.runStep ob.recorded limits step vs) (Session.runStep ob limits step vs) s :=
  ⟨fun body => NestedRun.runBlock lowest alone ob body,
    fun b => NestedRun.runBlock lowest alone ob b.body,
    fun step vs => NestedRun.runStep lowest alone ob step vs⟩

def Step.greet : Step where
  name := "greet"
  body := [.call {} "helper" [] none]
  risers := [{ name := "helper", body := [.display {} (.text {} "hello")] }]

theorem Session.activations_of_run_greet :
    let s : Session Unit := ⟨(Environment.fresh "main" false).addStep .greet, {}, ()⟩
    let body := [.call {} "greet" [] none, .call {} "helper" [] none]
    s.env.below = [] ∧ s.env.running = [] ∧
      (s.runBlock Observer.none {} body).1.error.map (·.code) = some "E402" ∧
      ∃ log, (Session.runBlock Observer.none.recorded {} body (s.under ((), []))).2.watch.2 = log ∧
        log.map (·.env.depth) = [0, 1, 1, 2, 2, 2, 1, 0] ∧
        ∀ x ∈ log, x.Nested s.env body none {} := by
  intro s body
  obtain ⟨log, e, nested⟩ := (activations_of_run Observer.none {} s rfl rfl).1 body
  have told : (Session.runBlock Observer.none.recorded {} body
      (s.under ((), []))).2.watch.2 = log := by
    rw [e]
    rfl
  refine ⟨rfl, rfl, by decide +kernel, log, told, ?_, nested⟩
  rw [← told]
  decide +kernel

end StepsLang
