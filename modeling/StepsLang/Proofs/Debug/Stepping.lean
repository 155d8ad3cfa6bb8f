import StepsLang.Debug.Script
import StepsLang.Proofs.Debug.Chronicle

namespace StepsLang.Debug

namespace Command

def adds : Command → Bool
  | add _ => true
  | _ => false

def steers : Command → Bool
  | resume _ | select _ => true
  | _ => false

end Command

namespace Exchange

/-- Commands are given in pauses only, and none of them sets a breakpoint. -/
structure Stepping (x : Exchange) : Prop where
  idle : x.event.kind ≠ .paused → x.answer = []
  noBreakpoint : ∀ c ∈ x.answer, c.adds = false

instance (x : Exchange) : Decidable x.Stepping :=
  decidable_of_iff
    ((x.event.kind ≠ .paused → x.answer = []) ∧ ∀ c ∈ x.answer, c.adds = false)
    ⟨fun ⟨idle, noBreakpoint⟩ => ⟨idle, noBreakpoint⟩,
      fun ⟨idle, noBreakpoint⟩ => ⟨idle, noBreakpoint⟩⟩

/-- The answer resumes the run in the mode `m`, and that is its last word on how far to go. -/
def Chose (x : Exchange) (m : Mode) : Prop :=
  ∃ before after, x.answer = before ++ .resume m :: after ∧ ∀ c ∈ after, c.steers = false

structure PausesAt (x : Exchange) (st : Statement) (env : Environment) : Prop where
  kind : x.event.kind = .paused
  line : x.event.snapshot.line = st.location.line
  depth : x.event.snapshot.stack.length = env.depth + 1

end Exchange

namespace Control

def stepsTo (c : Control) (depth : Nat) : Bool :=
  match c.mode with
  | .paused | .stepInto => true
  | .stepOver => depth ≤ c.depth
  | .stepOut => depth < c.depth
  | .run | .stopped => false

theorem pausesAt_eq {c : Control} (noBreakpoints : c.breakpoints = []) (path : Bytes)
    (line depth : Nat) : c.pausesAt path line depth = c.stepsTo depth := by
  unfold pausesAt stepsTo matched
  rw [noBreakpoints]
  cases c.mode <;> simp

end Control

/-- The part of a chronicle that is written while a debugger is steered from one control to another,
or to the pause that was not resumed. -/
inductive Steers : Control → List Entry → Option Control → Prop
  | nil (c : Control) : Steers c [] (some c)
  | entered : Steers c log c' → Steers c (.entered name env :: log) c'
  | told : x.event.kind ≠ .paused → Steers c log c' → Steers c (.told x :: log) c'
  | passed : c.stepsTo env.depth = false → Steers c log c' →
    Steers c (.reached st env :: log) c'
  | paused : c.stepsTo env.depth = true → x.PausesAt st env →
    (∀ m, x.Chose m → next.mode = m ∧ next.depth = env.depth) → Steers next log c' →
    Steers c (.reached st env :: .told x :: log) c'
  | halted : c.stepsTo env.depth = true → x.PausesAt st env →
    Steers c [.reached st env, .told x] none

/-- What is passed over until the next pause, which is at the first statement asked for.  After the
last pause there is no such statement. -/
structure NextPause (asked : Environment → Prop) (log skipped rest : List Entry) : Prop where
  split : log = skipped ++ rest
  noPause : ∀ x, .told x ∈ skipped → x.event.kind ≠ .paused
  notAsked : ∀ st env, .reached st env ∈ skipped → ¬ asked env
  there : rest = [] ∨ ∃ st env x more,
    rest = .reached st env :: .told x :: more ∧ x.PausesAt st env ∧ asked env

namespace NextPause

variable {asked : Environment → Prop} {log skipped rest : List Entry}

theorem cons {e : Entry} (h : NextPause asked log skipped rest)
    (noPause : ∀ x, e = .told x → x.event.kind ≠ .paused)
    (notAsked : ∀ st env, e = .reached st env → ¬ asked env) :
    NextPause asked (e :: log) (e :: skipped) rest where
  split := congrArg (e :: ·) h.split
  noPause := fun x hx => (List.mem_cons.1 hx).elim (fun he => noPause x he.symm) (h.noPause x)
  notAsked := fun st env hx =>
    (List.mem_cons.1 hx).elim (fun he => notAsked st env he.symm) (h.notAsked st env)
  there := h.there

theorem congr (h : NextPause asked log skipped rest) (asked' : Environment → Prop)
    (same : ∀ env, asked env ↔ asked' env) :
    NextPause asked' log skipped rest := by
  obtain rfl : asked = asked' := funext fun env => propext (same env)
  exact h

theorem last (h : NextPause asked log skipped rest) (none : ∀ env, ¬ asked env) :
    ∀ x, .told x ∈ log → x.event.kind ≠ .paused := by
  obtain ended | ⟨st, env, x, more, -, -, here⟩ := h.there
  · rw [h.split, ended, List.append_nil]
    exact h.noPause
  · exact absurd here (none env)

end NextPause

namespace Steers

theorem append {c next : Control} {final : Option Control} {log log' : List Entry}
    (h : Steers c log (some next)) (h' : Steers next log' final) :
    Steers c (log ++ log') final := by
  generalize e : some next = mid at h
  induction h with
  | nil => cases e; exact h'
  | entered _ ih => exact .entered (ih e)
  | told other _ ih => exact .told other (ih e)
  | passed on _ ih => exact .passed on (ih e)
  | paused here pausesAt chose _ ih => exact .paused here pausesAt chose (ih e)
  | halted => cases e

theorem next {c : Control} {final : Option Control} {log : List Entry} (h : Steers c log final) :
    ∃ skipped rest, NextPause (c.stepsTo ·.depth = true) log skipped rest := by
  induction h with
  | nil => exact ⟨[], [], rfl, by simp, by simp, .inl rfl⟩
  | entered _ ih =>
    obtain ⟨skipped, rest, next⟩ := ih
    exact ⟨_, rest, next.cons (by simp) (by simp)⟩
  | told other _ ih =>
    obtain ⟨skipped, rest, next⟩ := ih
    exact ⟨_, rest, next.cons (by simpa using other) (by simp)⟩
  | passed on _ ih =>
    obtain ⟨skipped, rest, next⟩ := ih
    exact ⟨_, rest, next.cons (by simp) (by simpa using on)⟩
  | paused here pausesAt =>
    exact ⟨[], _, rfl, by simp, by simp, .inr ⟨_, _, _, _, rfl, pausesAt, here⟩⟩
  | halted here pausesAt =>
    exact ⟨[], _, rfl, by simp, by simp, .inr ⟨_, _, _, _, rfl, pausesAt, here⟩⟩

/-- What is chosen in a pause with `n` calls open steers the run from there on, if it goes on. -/
def Resumed (x : Exchange) (n : Nat) (final : Option Control) (later : List Entry) : Prop :=
  later = [] ∨
    ∃ c : Control, (∀ m, x.Chose m → c.mode = m ∧ c.depth = n) ∧ Steers c later final

theorem Resumed.next {x : Exchange} {n : Nat} {final : Option Control} {later : List Entry}
    {m : Mode} (h : Resumed x n final later) (chose : x.Chose m) :
    ∃ skipped rest,
      NextPause (fun env => Control.stepsTo { mode := m, depth := n } env.depth = true)
        later skipped rest := by
  obtain rfl | ⟨c, bound, steers⟩ := h
  · exact ⟨[], [], rfl, by simp, by simp, .inl rfl⟩
  · obtain ⟨mode, depth⟩ := bound m chose
    obtain ⟨skipped, rest, next⟩ := steers.next
    exact ⟨skipped, rest, next.congr _ fun env => by simp [Control.stepsTo, mode, depth]⟩

def Answered (x : Exchange) (final : Option Control) (earlier later : List Entry) : Prop :=
  ∃ before st env, earlier = before ++ [.reached st env] ∧ x.PausesAt st env ∧
    Resumed x env.depth final later

theorem Answered.cons {x : Exchange} {final : Option Control} {earlier later : List Entry}
    (h : Answered x final earlier later) (e : Entry) : Answered x final (e :: earlier) later := by
  obtain ⟨before, st, env, rfl, rest⟩ := h
  exact ⟨e :: before, st, env, rfl, rest⟩

theorem answered {c : Control} {final : Option Control} {log earlier later : List Entry}
    {x : Exchange} (h : Steers c log final) (e : log = earlier ++ .told x :: later)
    (hx : x.event.kind = .paused) : Answered x final earlier later := by
  induction h generalizing earlier with
  | nil => simp at e
  | entered _ ih | passed _ _ ih =>
    cases earlier with
    | nil => cases e
    | cons first earlier => exact (ih (List.cons.inj e).2).cons first
  | told other _ ih =>
    cases earlier with
    | nil =>
      cases e
      exact absurd hx other
    | cons first earlier => exact (ih (List.cons.inj e).2).cons first
  | paused _ pausesAt chose steers ih =>
    rcases earlier with _ | ⟨first, _ | ⟨second, earlier⟩⟩
    · cases e
    · cases e
      exact ⟨[], _, _, rfl, pausesAt, .inr ⟨_, chose, steers⟩⟩
    · have rest := (List.cons.inj (List.cons.inj e).2).2
      exact ((ih rest).cons second).cons first
  | halted _ pausesAt =>
    rcases earlier with _ | ⟨first, _ | ⟨second, earlier⟩⟩
    · cases e
    · cases e
      exact ⟨[], _, _, rfl, pausesAt, .inl rfl⟩
    · simp at e

end Steers

theorem length_showFrames (sources : Option Sources) (h : Heap) (m : Memory) (fs : List Frame) :
    (showFrames sources h m fs).1.length = fs.length := by
  induction fs generalizing m with
  | nil => rfl
  | cons f fs ih => simp [showFrames, ih]

theorem pausesAt_event {st : Statement} {env : Environment}
    (located : env.top.current = st.location) (d : Debugger) (w : World) (answer : List Command) :
    Exchange.PausesAt ⟨d.event .paused [] env w, answer⟩ st env where
  kind := rfl
  line := congrArg (·.line) located
  depth := length_showFrames d.sources w.heap _ env.frames

namespace Debugger

@[simp] theorem control_log (d : Debugger) (text : Bytes) : (d.log text).control = d.control := by
  unfold log; split <;> rfl

@[simp] theorem depth_log (d : Debugger) (text : Bytes) : (d.log text).depth = d.depth := by
  unfold log; split <;> rfl

theorem depth_obey (d : Debugger) (c : Command) : (d.obey c).depth = d.depth := by
  cases c <;> simp only [obey] <;> (try split) <;> simp

theorem depth_foldl (d : Debugger) (cs : List Command) : (cs.foldl obey d).depth = d.depth :=
  List.foldlRecOn (motive := (·.depth = d.depth)) cs obey rfl fun _ same c _ =>
    (depth_obey _ c).trans same

theorem breakpoints_obey {d : Debugger} (h : d.control.breakpoints = []) {c : Command}
    (hc : c.adds = false) : (d.obey c).control.breakpoints = [] := by
  cases c with
  | add b => cases hc
  | remove file line => simp [obey, Control.remove, h]
  | clear => rfl
  | reset =>
    simp only [obey]
    split <;> exact h
  | stop => simpa [obey, Control.select] using h
  | resume m | select m =>
    simp only [obey]
    split
    · exact h
    · simpa [Control.select] using h

theorem breakpoints_foldl {d : Debugger} (h : d.control.breakpoints = []) {cs : List Command}
    (hcs : ∀ c ∈ cs, c.adds = false) : (cs.foldl obey d).control.breakpoints = [] :=
  List.foldlRecOn (motive := (·.control.breakpoints = [])) cs obey h fun _ none c hc =>
    breakpoints_obey none (hcs c hc)

theorem pause_noted (listener : Listener τ) (path : Bytes) (line : Nat) (env : Environment)
    (w : World) (d : Debugger) (t : τ) (log : List Entry) (running : d.stopping = false) :
    pause listener.noted path line env w d (t, log) =
      let halted := d.halted path line
      let event := halted.event .paused [] env w
      let r := listener event w (halted.looked env w) t
      let after := r.1.foldl obey (halted.looked env w)
      let log := log ++ [.told ⟨event, r.1⟩]
      if after.resumed || after.stopping then
        (!after.stopping, { after with paused := false }, r.2, log)
      else (false, { after with waiting := true }, r.2, log) := by
  have told := emit_noted listener .paused [] env w (d.halted path line) t log
  rw [if_neg (by simp [halted, running])] at told
  rw [pause_eq, told]

/-- If the run goes on from here, it goes on in the mode `m` with `n` calls open. -/
def Bound (m : Mode) (n : Nat) (d : Debugger) : Prop :=
  d.stopping = false → d.resumed = true → d.control.mode = m ∧ d.control.depth = n

theorem bound_resume (d : Debugger) (m : Mode) : Bound m d.depth (d.obey (.resume m)) := by
  simp only [Bound, obey]
  split
  · next stopping =>
    intro running
    rw [stopping] at running
    cases running
  · simp [Control.select]

theorem bound_obey {m : Mode} {n : Nat} {d : Debugger} (h : Bound m n d) {c : Command}
    (hc : c.steers = false) : Bound m n (d.obey c) := by
  cases c with
  | resume | select => cases hc
  | stop =>
    intro running
    simp [obey] at running
  | reset =>
    intro _ resumed
    cases resumed
  | add b => simpa [Bound, obey, Control.add, apply_ite] using h
  | remove file line => exact h
  | clear => exact h

theorem bound_foldl {m : Mode} {n : Nat} {d : Debugger} (h : Bound m n d) {cs : List Command}
    (hcs : ∀ c ∈ cs, c.steers = false) : Bound m n (cs.foldl obey d) :=
  List.foldlRecOn (motive := Bound m n) cs obey h fun _ bound c hc => bound_obey bound (hcs c hc)

theorem bound_answer (d : Debugger) {x : Exchange} {m : Mode} (h : x.Chose m) :
    Bound m d.depth (x.answer.foldl obey d) := by
  obtain ⟨before, after, e, rest⟩ := h
  rw [e, List.foldl_append, List.foldl_cons]
  refine bound_foldl ?_ rest
  rw [← depth_foldl d before]
  exact bound_resume _ m

structure Ready (d : Debugger) : Prop where
  running : d.stopping = false
  noBreakpoints : d.control.breakpoints = []

/-- What happens between two moments of a run adds to the chronicle what a debugger does that is
steered from one to the other. -/
def Steered (x : Debugger × τ × List Entry) (o : Outcome) (y : Debugger × τ × List Entry) : Prop :=
  ∃ log, y.2.2 = x.2.2 ++ log ∧
    (Ready x.1 → (∀ e, .told e ∈ log → e.Stepping) →
      ∃ final, Steers x.1.control log final ∧
        (o ≠ .stopped → final = some y.1.control ∧ Ready y.1))

namespace Steered

variable {x y z : Debugger × τ × List Entry} {o p : Outcome}

theorem refl (x : Debugger × τ × List Entry) (o : Outcome) : Steered x o x :=
  ⟨[], (List.append_nil _).symm, fun ready _ => ⟨_, .nil _, fun _ => ⟨rfl, ready⟩⟩⟩

theorem trans (h : Steered x o y) (ho : o ≠ .stopped) (h' : Steered y p z) : Steered x p z := by
  obtain ⟨log, grown, steers⟩ := h
  obtain ⟨log', grown', steers'⟩ := h'
  refine ⟨log ++ log', by rw [grown', grown, List.append_assoc], fun ready stepping => ?_⟩
  obtain ⟨_, first, goesOn⟩ :=
    steers ready fun e he => stepping e (List.mem_append_left _ he)
  obtain ⟨rfl, ready'⟩ := goesOn ho
  obtain ⟨final, second, ends⟩ :=
    steers' ready' fun e he => stepping e (List.mem_append_right _ he)
  exact ⟨final, first.append second, ends⟩

theorem of_entered (name : Bytes) (env : Environment) (x : Debugger × τ × List Entry) :
    Steered x .normal (note (.entered name env) x) :=
  ⟨_, rfl, fun ready _ => ⟨_, .entered (.nil _), fun _ => ⟨rfl, ready⟩⟩⟩

variable (listener : Listener τ)

theorem of_emit (kind : EventKind) (other : kind ≠ .paused) (message : Bytes) (env : Environment)
    (w : World) (x : Debugger × τ × List Entry) :
    Steered x .normal (emit listener.noted kind message env w x) := by
  obtain ⟨d, t, log⟩ := x
  rw [emit_noted]
  split
  · exact .refl _ _
  · refine ⟨_, rfl, fun ready stepping => ⟨_, .told other (.nil _), fun _ => ?_⟩⟩
    have idle := (stepping _ (List.mem_singleton.2 rfl)).idle other
    dsimp only at idle ⊢
    rw [idle]
    exact ⟨rfl, ready.running, ready.noBreakpoints⟩

section Pause

variable {st : Statement} {env : Environment} {d d' : Debugger} {t u : τ} {log : List Entry}
  {x : Exchange}

theorem halts (here : Ready d → d.control.stepsTo env.depth = true) (pausesAt : x.PausesAt st env) :
    Steered (d, t, log) .stopped (d', u, log ++ [.reached st env] ++ [.told x]) :=
  ⟨_, List.append_assoc _ _ _, fun ready _ => ⟨none, .halted (here ready) pausesAt, by simp⟩⟩

theorem goesOn (here : Ready d → d.control.stepsTo env.depth = true) (pausesAt : x.PausesAt st env)
    (bound : ∀ m, x.Chose m → d'.control.mode = m ∧ d'.control.depth = env.depth)
    (ready : Ready d → x.Stepping → Ready d') :
    Steered (d, t, log) .normal (d', u, log ++ [.reached st env] ++ [.told x]) := by
  refine ⟨_, List.append_assoc _ _ _, fun before stepping => ?_⟩
  refine ⟨_, .paused (here before) pausesAt bound (.nil _), fun _ => ⟨rfl, ?_⟩⟩
  exact ready before (stepping x (by simp))

theorem of_pause (located : env.top.current = st.location) (path : Bytes) (w : World)
    (here : Ready d → d.control.stepsTo env.depth = true) (running : d.stopping = false) :
    let r := pause listener.noted path st.location.line env w { d with depth := env.depth }
      (t, log ++ [.reached st env])
    Steered (d, t, log) (if r.1 then .normal else .stopped) r.2 := by
  have running : { d with depth := env.depth }.stopping = false := running
  simp only [pause_noted listener path _ env w _ t _ running]
  generalize start : { d with depth := env.depth }.halted path st.location.line = halted
  generalize answered : listener (halted.event .paused [] env w) w (halted.looked env w) t = r
  have pausesAt : Exchange.PausesAt ⟨halted.event .paused [] env w, r.1⟩ st env :=
    pausesAt_event located halted w r.1
  split
  · next ends =>
    cases stopping : (r.1.foldl obey (halted.looked env w)).stopping with
    | true => exact halts here pausesAt
    | false =>
      refine goesOn here pausesAt (fun m chose => ?_) fun ready stepping => ?_
      · have depth : (halted.looked env w).depth = env.depth := start ▸ depth_log _ _
        exact depth ▸ bound_answer _ chose stopping (by simpa [stopping] using ends)
      · refine ⟨rfl, breakpoints_foldl ?_ stepping.noBreakpoint⟩
        have same : (halted.looked env w).control = d.control := start ▸ control_log _ _
        exact same ▸ ready.noBreakpoints
  · exact halts here pausesAt

end Pause

theorem of_before (st : Statement) (env : Environment) (located : env.top.current = st.location)
    (w : World) (x : Debugger × τ × List Entry) :
    let r := before listener.noted st env w (note (.reached st env) x)
    Steered x (if r.1 then .normal else .stopped) r.2 := by
  obtain ⟨d, t, log⟩ := x
  dsimp only [note]
  rw [before_eq]
  by_cases stopping : d.stopping = true
  · rw [if_pos stopping]
    refine ⟨_, rfl, fun ready => ?_⟩
    rw [ready.running] at stopping
    cases stopping
  rw [if_neg stopping]
  split
  · next asks =>
    refine of_pause listener located _ w (fun ready => ?_) (Bool.eq_false_iff.2 stopping)
    rwa [Control.pausesAt_eq ready.noBreakpoints] at asks
  · next on =>
    refine ⟨_, rfl, fun ready _ => ⟨_, .passed ?_ (.nil _), fun _ => ⟨rfl, ?_⟩⟩⟩
    · rw [Control.pausesAt_eq ready.noBreakpoints] at on
      exact Bool.eq_false_iff.2 on
    · exact ⟨ready.running, ready.noBreakpoints⟩

end Steered

theorem steered_watched (listener : Listener τ) : Watched (chronicler listener) Steered where
  refl := fun _ => .refl _ _
  trans := fun h ho h' => h.trans ho h'
  before := fun st env w x located => .of_before listener st env located w x
  onCall := fun name env w x =>
    (Steered.of_entered name env x).trans Outcome.noConfusion
      (.of_emit listener .called EventKind.noConfusion name env w _)
  onReturn := fun name env w x =>
    .of_emit listener .returned EventKind.noConfusion name env w x

def Mute (x y : Debugger × τ × List Entry) : Prop :=
  x.1.stopping = true → y.1.stopping = true ∧
    y.2.2.filterMap Entry.exchange? = x.2.2.filterMap Entry.exchange?

theorem Mute.trans {x y z : Debugger × τ × List Entry} (h : Mute x y) (h' : Mute y z) :
    Mute x z := fun stopping =>
  have first := h stopping
  have second := h' first.1
  ⟨second.1, second.2.trans first.2⟩

theorem mute_note {e : Entry} (silent : e.exchange? = none) (x : Debugger × τ × List Entry) :
    Mute x (note e x) :=
  fun stopping => ⟨stopping, by simp [note, silent]⟩

theorem mute_emit (listener : Listener τ) (kind : EventKind) (message : Bytes) (env : Environment)
    (w : World) (x : Debugger × τ × List Entry) :
    Mute x (emit listener.noted kind message env w x) := by
  obtain ⟨d, t, log⟩ := x
  intro stopping
  rw [emit_noted, if_pos stopping]
  exact ⟨stopping, rfl⟩

theorem mute_before (listener : Listener τ) (st : Statement) (env : Environment) (w : World)
    (x : Debugger × τ × List Entry) : Mute x (before listener.noted st env w x).2 := by
  obtain ⟨d, t, log⟩ := x
  intro stopping
  rw [before_eq, if_pos stopping]
  exact ⟨stopping, rfl⟩

theorem mute_watched (listener : Listener τ) :
    Watched (chronicler listener) fun x _ y => Mute x y where
  refl := fun _ stopping => ⟨stopping, rfl⟩
  trans := fun h _ h' => h.trans h'
  before := fun st env w x _ => (mute_note rfl x).trans (mute_before listener st env w _)
  onCall := fun name env w x => (mute_note rfl x).trans (mute_emit listener .called name env w _)
  onReturn := fun name env w x => mute_emit listener .returned name env w x

variable (listener : Listener τ) (limits : Limits) (b : Building) (s : Session (Debugger × τ))

theorem steers_chronicle (running : s.watch.1.stopping = false)
    (noBreakpoints : s.watch.1.control.breakpoints = [])
    (stepping : ∀ x, .told x ∈ chronicle listener limits b s → x.Stepping) :
    ∃ final, Steers s.watch.1.control (chronicle listener limits b s) final := by
  obtain ⟨log, grown, steers⟩ := (steered_watched listener).performBlock limits b.body
    ((opened b s).under (s.watch.1.started b, s.watch.2, []))
  have same : chronicle listener limits b s = log := grown
  have control : (s.watch.1.started b).control = s.watch.1.control := control_log _ _
  have ready : Ready (s.watch.1.started b) :=
    ⟨by simpa [started] using running, control ▸ noBreakpoints⟩
  obtain ⟨final, steered, -⟩ := steers ready (same ▸ stepping)
  refine ⟨final, ?_⟩
  rw [same, ← control]
  exact steered

theorem chronicle_stopping (stopping : s.watch.1.stopping = true) :
    (chronicle listener limits b s).filterMap Entry.exchange? = [] :=
  ((mute_watched listener).performBlock limits b.body
    ((opened b s).under (s.watch.1.started b, s.watch.2, [])) (by simpa [started] using stopping)).2

theorem stepping_told (stepping : ∀ x ∈ transcript listener limits b s, x.Stepping) {x : Exchange}
    (told : .told x ∈ chronicle listener limits b s) : x.Stepping := by
  obtain ⟨closing, e, -⟩ := transcript_eq listener limits b s
  exact stepping x (e ▸ List.mem_append_left _ (mem_exchanges.2 told))

end Debugger

/-- What the stepping commands mean at a pause at the statement `st`, for what follows it: the next
pause is at the next statement; or at the next one of no greater depth, with the others inside calls
that were made by `st`; or at the first one after the frame of `st` is closed, with the others while
it is open; or there is none. -/
structure Obeyed (x : Exchange) (st : Statement) (env : Environment) (later : List Entry) :
    Prop where
  stepInto : x.Chose .stepInto → ∃ skipped rest, NextPause (fun _ => True) later skipped rest
  stepOver : x.Chose .stepOver → ∃ skipped rest,
    NextPause (·.depth ≤ env.depth) later skipped rest ∧
    ∀ st' env', .reached st' env' ∈ skipped → st.isCall = true ∧ env.frames <:+ env'.below
  stepOut : x.Chose .stepOut → ∃ skipped rest,
    NextPause (·.depth < env.depth) later skipped rest ∧
    (∀ st' env', .reached st' env' ∈ skipped → env.below <:+ env'.below) ∧
    ∀ name env', .entered name env' ∈ skipped → env.depth < env'.depth
  outOfAll : x.Chose .stepOut → env.depth = 0 → ∀ y, .told y ∈ later → y.event.kind ≠ .paused
  run : x.Chose .run → ∀ y, .told y ∈ later → y.event.kind ≠ .paused

theorem Obeyed.of_course {below : List Frame} {before later : List Entry} {x : Exchange}
    {st : Statement} {env : Environment} {final : Option Control}
    (course : Course below (places (before ++ [.reached st env] ++ .told x :: later)))
    (h : Steers.Resumed x env.depth final later) : Obeyed x st env later := by
  -- What is said is no place, so what is skipped comes right behind the paused statement.
  have chain {asked : Environment → Prop} {skipped rest : List Entry}
      (next : NextPause asked later skipped rest) :
      (⟨some st, env⟩ :: places skipped).IsChain Place.Leads := by
    have whole := course.chain
    rw [next.split, List.append_assoc, places_append] at whole
    have onward := (List.isChain_append.1 whole).2.1
    rw [List.singleton_append, ← List.cons_append, ← List.cons_append, places_append] at onward
    exact (List.isChain_append.1 onward).1
  have deep {asked : Environment → Prop} {skipped rest : List Entry} {n : Nat}
      (next : NextPause asked later skipped rest) (least : ∀ env, ¬ asked env → n ≤ env.depth) :
      ∀ q ∈ places skipped, q.statement.isSome → n ≤ q.env.depth := by
    rintro ⟨st', env'⟩ hq hs
    obtain ⟨st', rfl⟩ := Option.isSome_iff_exists.1 hs
    exact least env' (next.notAsked st' env' (mem_places_reached.1 hq))
  constructor
  case stepInto =>
    intro chose
    obtain ⟨skipped, rest, next⟩ := h.next chose
    exact ⟨skipped, rest, next.congr _ (by simp [Control.stepsTo])⟩
  case stepOver =>
    intro chose
    obtain ⟨skipped, rest, next⟩ := h.next chose
    have next := next.congr (·.depth ≤ env.depth) (by simp [Control.stepsTo])
    refine ⟨skipped, rest, next, fun st' env' reached => ?_⟩
    have above := Course.above (chain next) (deep next fun env' => Nat.not_le.1)
    simpa using above _ (mem_places_reached.2 reached)
  case stepOut =>
    intro chose
    obtain ⟨skipped, rest, next⟩ := h.next chose
    have next := next.congr (·.depth < env.depth) (by simp [Control.stepsTo])
    have stays := Course.stays (chain next) (List.suffix_refl env.below)
      (deep next fun env' => Nat.not_lt.1)
    refine ⟨skipped, rest, next, fun st' env' reached => ?_, fun name env' entered => ?_⟩
    · exact (stays _ (mem_places_reached.2 reached)).1
    · exact (stays _ (mem_places_entered entered)).2 rfl
  case outOfAll =>
    intro chose bottom
    obtain ⟨skipped, rest, next⟩ := h.next chose
    exact next.last (by simp [Control.stepsTo, bottom])
  case run =>
    intro chose
    obtain ⟨skipped, rest, next⟩ := h.next chose
    exact next.last (by simp [Control.stepsTo])

/-- Stepping commands mean what they say. -/
theorem Debugger.stepping_obeyed (listener : Listener τ) (limits : Limits) (b : Building)
    (s : Session (Debugger × τ)) (noBreakpoints : s.watch.1.control.breakpoints = [])
    (stepping : ∀ x ∈ transcript listener limits b s, x.Stepping) :
    (∃ closing,
      transcript listener limits b s =
        (chronicle listener limits b s).filterMap Entry.exchange? ++ closing ∧
      ∀ x ∈ closing, x.event.kind ≠ .paused) ∧
    (∀ st env, .reached st env ∈ chronicle listener limits b s →
      st.isNote = false ∧ env.top.current = st.location) ∧
    ∀ earlier x later, chronicle listener limits b s = earlier ++ .told x :: later →
      x.event.kind = .paused →
      ∃ before st env, earlier = before ++ [.reached st env] ∧ x.PausesAt st env ∧
        Obeyed x st env later := by
  have course := course_chronicle listener limits b s
  refine ⟨transcript_eq listener limits b s, fun st env reached => ?_, ?_⟩
  · exact course.located _ (mem_places_reached.2 reached) st rfl
  intro earlier x later e paused
  cases stopping : s.watch.1.stopping with
  | true =>
    -- A debugger that was stopped before the run tells of no pause.
    have silent := chronicle_stopping listener limits b s stopping
    rw [e] at silent
    simp [Entry.exchange?] at silent
  | false =>
    obtain ⟨final, steers⟩ := steers_chronicle listener limits b s stopping noBreakpoints
      fun x told => stepping_told listener limits b s stepping told
    obtain ⟨before, st, env, rfl, pausesAt, resumed⟩ := steers.answered e paused
    exact ⟨before, st, env, rfl, pausesAt, .of_course (e ▸ course) resumed⟩

def Listener.scripted : Listener Script := fun event _ _ script =>
  if event.kind = .paused then ([script.next.1], script.next.2) else ([], script)

theorem Debugger.stepping_obeyed_calls :
    let greet (n : Nat) := Statement.call { file := 1, line := n } "greet" [] none
    let hello (n : Nat) := Statement.display { file := 1, line := n } (.text {} "hello")
    let b : Building := { name := "main", body := [greet 1, greet 2, hello 3] }
    let env := (Environment.fresh "main" false).addStep
      { name := "greet", body := [hello 11, hello 12] }
    let script : Script := [.resume .stepOver, .resume .stepInto, .resume .stepOut]
    let s : Session (Debugger × Script) := ⟨env, {}, {}, script⟩
    let told := transcript Listener.scripted {} b s
    s.watch.1.control.breakpoints = [] ∧ (∀ x ∈ told, x.Stepping) ∧
      (told.filter (·.event.kind = .paused)).map
          (fun x => (x.event.snapshot.line, x.event.snapshot.stack.length)) =
        [(1, 1), (2, 1), (11, 2), (3, 1)] ∧
      ∃ earlier x later,
        chronicle Listener.scripted {} b s = earlier ++ .told x :: later ∧
        x.Chose .stepOver ∧ ∃ st env, x.PausesAt st env ∧ Obeyed x st env later := by
  intro greet hello b env script s told
  have stepping : ∀ x ∈ told, x.Stepping := by decide +kernel
  obtain ⟨⟨closing, e, others⟩, -, obeyed⟩ :=
    stepping_obeyed Listener.scripted {} b s rfl stepping
  obtain ⟨x, said, paused, answer⟩ : ∃ x ∈ told, x.event.kind = .paused ∧
      x.answer = [.resume .stepOver] := by
    decide +kernel
  have reported : x ∈ (chronicle Listener.scripted {} b s).filterMap Entry.exchange? :=
    (List.mem_append.1 (e ▸ said)).resolve_right fun last => others x last paused
  obtain ⟨earlier, later, split⟩ := List.append_of_mem (mem_exchanges.1 reported)
  obtain ⟨_, st, env, -, pausesAt, commands⟩ := obeyed earlier x later split paused
  have chose : x.Chose .stepOver := ⟨[], [], answer, by simp⟩
  exact ⟨rfl, stepping, by decide +kernel, earlier, x, later, split, chose, st, env, pausesAt,
    commands⟩

end StepsLang.Debug
