import StepsLang.Debug.Debugger
import StepsLang.Proofs.Execution.Watch

namespace StepsLang.Debug

structure Exchange where
  event : Event
  answer : List Command

def Listener.transcribed (listener : Listener τ) : Listener (τ × List Exchange) :=
  fun event w d (t, log) =>
    let (answer, t) := listener event w d t
    (answer, t, log ++ [⟨event, answer⟩])

def Listener.Echoes (S : τ → υ → Prop) (l' : Listener υ) (l : Listener τ) : Prop :=
  ∀ event w d {t u}, S t u →
    (l' event w d u).1 = (l event w d t).1 ∧ S (l event w d t).2 (l' event w d u).2

def Command.resuming (before : Bool) : Command → Bool
  | resume _ => true
  | reset => false
  | _ => before

/-- An answer that asks for no stop, and ends the pause if there is one. -/
structure Exchange.Cooperative (x : Exchange) : Prop where
  noStop : .stop ∉ x.answer
  resumed : x.event.kind = .paused → x.answer.foldl Command.resuming false = true

instance (x : Exchange) : Decidable x.Cooperative :=
  decidable_of_iff
    (.stop ∉ x.answer ∧ (x.event.kind = .paused → x.answer.foldl Command.resuming false = true))
    ⟨fun ⟨noStop, resumed⟩ => ⟨noStop, resumed⟩, fun ⟨noStop, resumed⟩ => ⟨noStop, resumed⟩⟩

namespace Debugger

@[simp] theorem stopping_log (d : Debugger) (text : Bytes) : (d.log text).stopping = d.stopping := by
  unfold log; split <;> rfl

@[simp] theorem resumed_log (d : Debugger) (text : Bytes) : (d.log text).resumed = d.resumed := by
  unfold log; split <;> rfl

@[simp] theorem waiting_log (d : Debugger) (text : Bytes) : (d.log text).waiting = d.waiting := by
  unfold log; split <;> rfl

/-- The debugger lets the run go on, and is not left waiting anew. -/
structure GoesOn (d d' : Debugger) : Prop where
  running : d'.stopping = false
  waiting : d'.waiting = d.waiting

theorem GoesOn.trans {d d' d'' : Debugger} (h : GoesOn d d') (h' : GoesOn d' d'') :
    GoesOn d d'' := ⟨h'.running, h'.waiting.trans h.waiting⟩

theorem obey_goesOn {d : Debugger} (running : d.stopping = false) {c : Command} (hc : .stop ≠ c) :
    GoesOn d (d.obey c) ∧ (d.obey c).resumed = Command.resuming d.resumed c := by
  cases c with
  | stop => exact absurd rfl hc
  | _ => constructor <;> (try constructor) <;> simp [obey, Command.resuming, running]

theorem foldl_obey_goesOn {d : Debugger} (running : d.stopping = false) {cs : List Command}
    (hcs : .stop ∉ cs) :
    GoesOn d (cs.foldl obey d) ∧
      (cs.foldl obey d).resumed = cs.foldl Command.resuming d.resumed := by
  induction cs generalizing d with
  | nil => exact ⟨⟨running, rfl⟩, rfl⟩
  | cons c cs ih =>
    obtain ⟨goesOn, resumed⟩ := obey_goesOn running (List.ne_of_not_mem_cons hcs)
    obtain ⟨goesOn', resumed'⟩ := ih goesOn.running (List.not_mem_of_not_mem_cons hcs)
    refine ⟨goesOn.trans goesOn', resumed'.trans ?_⟩
    rw [resumed, List.foldl_cons]

def looked (d : Debugger) (env : Environment) (w : World) : Debugger :=
  { d with memory := (Snapshot.take d.sources env w.heap d.memory).2 }

def event (d : Debugger) (kind : EventKind) (message : Bytes) (env : Environment) (w : World) :
    Event :=
  { kind, snapshot := (Snapshot.take d.sources env w.heap d.memory).1, message }

theorem emit_eq (listener : Listener τ) (kind : EventKind) (message : Bytes) (env : Environment)
    (w : World) (d : Debugger) (t : τ) :
    emit listener kind message env w (d, t) =
      if d.stopping then (d, t)
      else
        let r := listener (d.event kind message env w) w (d.looked env w) t
        (r.1.foldl obey (d.looked env w), r.2) := rfl

def halted (d : Debugger) (path : Bytes) (line : Nat) : Debugger :=
  { d with paused := true, resumed := false }.log
    ("pause at " ++ (if path.isEmpty then ("<unknown>" : Bytes) else path) ++ ":"
      ++ Bytes.decimal line ++ " depth=" ++ Bytes.decimal d.depth)

theorem pause_eq (listener : Listener τ) (path : Bytes) (line : Nat) (env : Environment)
    (w : World) (d : Debugger) (t : τ) :
    pause listener path line env w d t =
      let r := emit listener .paused [] env w (d.halted path line, t)
      if r.1.resumed || r.1.stopping then (!r.1.stopping, { r.1 with paused := false }, r.2)
      else (false, { r.1 with waiting := true }, r.2) := rfl

theorem before_eq (listener : Listener τ) (st : Statement) (env : Environment) (w : World)
    (d : Debugger) (t : τ) :
    before listener st env w (d, t) =
      if d.stopping then (false, d, t)
      else if d.control.pausesAt (pathOf d.sources st.location) st.location.line env.depth then
        pause listener (pathOf d.sources st.location) st.location.line env w
          { d with depth := env.depth } t
      else (true, { d with depth := env.depth }, t) := rfl

variable (listener : Listener τ)

theorem emit_transcribed (kind : EventKind) (message : Bytes) (env : Environment) (w : World)
    (watch : Debugger × τ × List Exchange) :
    ∃ new, (emit listener.transcribed kind message env w watch).2.2 = watch.2.2 ++ new ∧
      (watch.1.stopping = false → (∀ x ∈ new, x.Cooperative) →
        GoesOn watch.1 (emit listener.transcribed kind message env w watch).1 ∧
        (kind = .paused → watch.1.resumed = false →
          (emit listener.transcribed kind message env w watch).1.resumed = true)) := by
  obtain ⟨d, t, log⟩ := watch
  rw [emit_eq]
  cases stopping : d.stopping with
  | true => exact ⟨[], by simp, by simp⟩
  | false =>
    refine ⟨[_], rfl, fun _ cooperative => ?_⟩
    obtain ⟨noStop, resumed⟩ := List.forall_mem_singleton.1 cooperative
    obtain ⟨goesOn, resumed'⟩ := foldl_obey_goesOn (d := d.looked env w) stopping noStop
    refine ⟨⟨goesOn.running, goesOn.waiting⟩, fun paused before => resumed'.trans ?_⟩
    rw [show (d.looked env w).resumed = false from before]
    exact resumed paused

theorem pause_transcribed (path : Bytes) (line : Nat) (env : Environment) (w : World)
    (d : Debugger) (t : τ) (log : List Exchange) :
    ∃ new, (pause listener.transcribed path line env w d (t, log)).2.2.2 = log ++ new ∧
      (d.stopping = false → (∀ x ∈ new, x.Cooperative) →
        (pause listener.transcribed path line env w d (t, log)).1 = true ∧
        GoesOn d (pause listener.transcribed path line env w d (t, log)).2.1) := by
  obtain ⟨new, grown, answered⟩ :=
    emit_transcribed listener .paused [] env w (d.halted path line, t, log)
  rw [pause_eq]
  refine ⟨new, ?_, fun running cooperative => ?_⟩
  · simp only
    split <;> exact grown
  · obtain ⟨goesOn, resumed⟩ := answered (by simpa [halted] using running) cooperative
    have go := resumed rfl (by simp [halted])
    simp only
    rw [if_pos (by simp [go])]
    exact ⟨by simp [goesOn.running], goesOn.running, goesOn.waiting.trans (by simp [halted])⟩

theorem before_transcribed (st : Statement) (env : Environment) (w : World) (d : Debugger) (t : τ)
    (log : List Exchange) :
    ∃ new, (before listener.transcribed st env w (d, t, log)).2.2.2 = log ++ new ∧
      (d.stopping = false → (∀ x ∈ new, x.Cooperative) →
        (before listener.transcribed st env w (d, t, log)).1 = true ∧
        GoesOn d (before listener.transcribed st env w (d, t, log)).2.1) := by
  rw [before_eq]
  by_cases stopping : d.stopping = true
  · rw [if_pos stopping]
    exact ⟨[], by simp, by simp [stopping]⟩
  · rw [if_neg stopping]
    split
    · obtain ⟨new, grown, goesOn⟩ := pause_transcribed listener (pathOf d.sources st.location)
        st.location.line env w { d with depth := env.depth } t log
      refine ⟨new, grown, fun running cooperative => ?_⟩
      obtain ⟨go, on⟩ := goesOn running cooperative
      exact ⟨go, on.running, on.waiting⟩
    · exact ⟨[], by simp, fun running _ => ⟨rfl, running, rfl⟩⟩

/-- What a run adds to the transcript, and how it ends if nothing in it asks for a stop and every
pause is resumed. -/
def Continues (s : Session (Debugger × τ × List Exchange)) (o : Outcome)
    (t : Session (Debugger × τ × List Exchange)) : Prop :=
  ∃ new, t.watch.2.2 = s.watch.2.2 ++ new ∧
    (s.watch.1.stopping = false → (∀ x ∈ new, x.Cooperative) →
      o ≠ .stopped ∧ GoesOn s.watch.1 t.watch.1)

theorem emit_continues (kind : EventKind) (message : Bytes) (env : Environment) (w : World)
    (x : Debugger × τ × List Exchange) :
    let y := emit listener.transcribed kind message env w x
    ∃ new, y.2.2 = x.2.2 ++ new ∧ (x.1.stopping = false → (∀ e ∈ new, e.Cooperative) →
      Outcome.normal ≠ .stopped ∧ GoesOn x.1 y.1) := by
  obtain ⟨new, grown, goesOn⟩ := emit_transcribed listener kind message env w x
  exact ⟨new, grown, fun running cooperative =>
    ⟨Outcome.noConfusion, (goesOn running cooperative).1⟩⟩

theorem continues_watched : Watched (observer listener.transcribed) fun x o y =>
    ∃ new, y.2.2 = x.2.2 ++ new ∧ (x.1.stopping = false → (∀ e ∈ new, e.Cooperative) →
      o ≠ .stopped ∧ GoesOn x.1 y.1) where
  refl := fun ho => ⟨[], by simp, fun running _ => ⟨ho, running, rfl⟩⟩
  trans := by
    rintro x y z o p ⟨first, grown, goesOn⟩ - ⟨second, grown', goesOn'⟩
    refine ⟨first ++ second, by rw [grown', grown, List.append_assoc], fun running cooperative => ?_⟩
    obtain ⟨early, late⟩ := List.forall_mem_append.1 cooperative
    have before := (goesOn running early).2
    have after := goesOn' before.running late
    exact ⟨after.1, before.trans after.2⟩
  before := by
    intro st env w x _
    obtain ⟨new, grown, goesOn⟩ := before_transcribed listener st env w x.1 x.2.1 x.2.2
    refine ⟨new, grown, fun running cooperative => ?_⟩
    obtain ⟨go, on⟩ := goesOn running cooperative
    refine ⟨?_, on⟩
    rw [if_pos (show ((observer listener.transcribed).before st env w x).1 = true from go)]
    exact Outcome.noConfusion
  onCall := emit_continues listener .called
  onReturn := emit_continues listener .returned

theorem continues_performBlock (limits : Limits) (block : List Statement)
    (s : Session (Debugger × τ × List Exchange)) :
    let r := Statement.performBlock (observer listener.transcribed) limits
      (Call.byName (Call.invoke (observer listener.transcribed) limits (s.callsLeft limits))) block s
    Continues s r.1 r.2 :=
  (continues_watched listener).performBlock limits block s

theorem none_follows (ob : Observer σ) :
    Follower (fun _ _ => True) (· ≠ .stopped) Observer.none ob where
  ends := id
  goOn := fun _ _ => ⟨rfl, trivial⟩
  stop := fun h => absurd rfl h
  onCall := fun _ => trivial
  onReturn := fun _ => trivial

def SameDebugger (S : τ → υ → Prop) (x : Debugger × τ) (y : Debugger × υ) : Prop :=
  y.1 = x.1 ∧ S x.2 y.2

section Echo

variable {S : τ → υ → Prop} {l : Listener τ} {l' : Listener υ} (h : Listener.Echoes S l' l)
include h

theorem emit_same {kind : EventKind} {message : Bytes} {env : Environment} {w : World}
    {x : Debugger × τ} {y : Debugger × υ} (same : SameDebugger S x y) :
    SameDebugger S (emit l kind message env w x) (emit l' kind message env w y) := by
  obtain ⟨_, t⟩ := x
  obtain ⟨d, u⟩ := y
  obtain ⟨rfl, hs⟩ := same
  rw [emit_eq, emit_eq]
  split
  · exact ⟨rfl, hs⟩
  · obtain ⟨answer, hs'⟩ := h (d.event kind message env w) w (d.looked env w) hs
    exact ⟨congrArg (·.foldl obey (d.looked env w)) answer, hs'⟩

theorem pause_same (path : Bytes) (line : Nat) (env : Environment) (w : World) (d : Debugger)
    {t : τ} {u : υ} (hs : S t u) :
    (pause l' path line env w d u).1 = (pause l path line env w d t).1 ∧
      SameDebugger S (pause l path line env w d t).2 (pause l' path line env w d u).2 := by
  have same : SameDebugger S (emit l .paused [] env w (d.halted path line, t))
      (emit l' .paused [] env w (d.halted path line, u)) := emit_same h ⟨rfl, hs⟩
  rw [pause_eq, pause_eq]
  dsimp only
  rw [same.1]
  split
  · exact ⟨rfl, rfl, same.2⟩
  · exact ⟨rfl, rfl, same.2⟩

theorem before_same {st : Statement} {env : Environment} {w : World} {x : Debugger × τ}
    {y : Debugger × υ} (same : SameDebugger S x y) :
    (before l' st env w y).1 = (before l st env w x).1 ∧
      SameDebugger S (before l st env w x).2 (before l' st env w y).2 := by
  obtain ⟨_, t⟩ := x
  obtain ⟨d, u⟩ := y
  obtain ⟨rfl, hs⟩ := same
  rw [before_eq, before_eq]
  split
  · exact ⟨rfl, rfl, hs⟩
  · split
    · exact pause_same h _ _ env w _ hs
    · exact ⟨rfl, rfl, hs⟩

theorem echo_follows (reach : Statement → Environment → Debugger × υ → Debugger × υ)
    (enter : Bytes → Environment → Debugger × υ → Debugger × υ)
    (reached : ∀ st env {x y}, SameDebugger S x y → SameDebugger S x (reach st env y))
    (entered : ∀ name env {x y}, SameDebugger S x y → SameDebugger S x (enter name env y)) :
    Follower (SameDebugger S) (fun _ => True)
      { before := fun st env w y => before l' st env w (reach st env y)
        onCall := fun name env w y => emit l' .called name env w (enter name env y)
        onReturn := fun name env w y => emit l' .returned name env w y }
      (observer l) where
  ends := fun _ => trivial
  goOn := fun {st env _ _ _} same go =>
    have now := before_same h (reached st env same)
    ⟨now.1.trans go, now.2⟩
  stop := fun _ {st env _ _ _} same halt =>
    have now := before_same h (reached st env same)
    ⟨now.1.trans halt, now.2⟩
  onCall := fun {name env _ _ _} same => emit_same h (entered name env same)
  onReturn := emit_same h

end Echo

theorem transcribed_echoes :
    Listener.Echoes (fun (t : τ) (u : τ × List Exchange) => u.1 = t) listener.transcribed
      listener := by
  rintro event w d t u rfl
  exact ⟨rfl, rfl⟩

theorem transcribed_follows :
    Follower (SameDebugger fun (t : τ) (u : τ × List Exchange) => u.1 = t) (fun _ => True)
      (observer listener.transcribed) (observer listener) :=
  echo_follows (transcribed_echoes listener) (fun _ _ y => y) (fun _ _ y => y)
    (fun _ _ _ _ same => same) (fun _ _ _ _ same => same)

def started (d : Debugger) (b : Building) : Debugger :=
  { d with depth := 0, memory := [], running := true, waiting := false }.log
    ("run '" ++ b.name ++ "'")

def opened (b : Building) (s : Session (Debugger × τ)) : Session (Debugger × τ) :=
  s.under (s.watch.1.started b, s.watch.2)

theorem run_eq (listener : Listener τ) (limits : Limits) (b : Building)
    (s : Session (Debugger × τ)) :
    run listener limits b s =
      let r := (opened b s).runBuilding (observer listener) limits b
      if r.2.watch.1.waiting then (none, r.2)
      else if r.2.watch.1.stopping then
        (some { r.1 with stopped := true },
          r.2.under ({ r.2.watch.1 with running := false }.log "stopped", r.2.watch.2))
      else
        (some r.1, r.2.under (conclude listener r.1 r.2.env r.2.world
          ({ r.2.watch.1 with running := false }, r.2.watch.2))) := rfl

theorem conclude_same {S : τ → υ → Prop} {l : Listener τ} {l' : Listener υ}
    (h : Listener.Echoes S l' l) (r : Result) (env : Environment) (w : World) {x : Debugger × τ}
    {y : Debugger × υ} (same : SameDebugger S x y) :
    SameDebugger S (conclude l r env w x) (conclude l' r env w y) := by
  unfold conclude
  refine emit_same h ?_
  cases r.error with
  | none => exact same
  | some report =>
    dsimp only
    rw [same.1]
    exact emit_same h same

def settle (listener : Listener τ) (r : Result) (t : Session (Debugger × τ)) :
    Option Result × Session (Debugger × τ) :=
  if t.watch.1.waiting then (none, t)
  else if t.watch.1.stopping then
    (some { r with stopped := true },
      t.under ({ t.watch.1 with running := false }.log "stopped", t.watch.2))
  else
    (some r, t.under (conclude listener r t.env t.world
      ({ t.watch.1 with running := false }, t.watch.2)))

theorem settle_waiting (r : Result) {t : Session (Debugger × τ)}
    (waits : t.watch.1.waiting = true) : settle listener r t = (none, t) := if_pos waits

theorem settle_stopping (r : Result) {t : Session (Debugger × τ)}
    (goesOn : t.watch.1.waiting ≠ true) (stopping : t.watch.1.stopping = true) :
    settle listener r t =
      (some { r with stopped := true },
        t.under ({ t.watch.1 with running := false }.log "stopped", t.watch.2)) :=
  (if_neg goesOn).trans (if_pos stopping)

theorem settle_running (r : Result) {t : Session (Debugger × τ)}
    (goesOn : t.watch.1.waiting ≠ true) (running : t.watch.1.stopping ≠ true) :
    settle listener r t =
      (some r, t.under (conclude listener r t.env t.world
        ({ t.watch.1 with running := false }, t.watch.2))) :=
  (if_neg goesOn).trans (if_neg running)

theorem settle_same {S : τ → υ → Prop} {l : Listener τ} {l' : Listener υ}
    (h : Listener.Echoes S l' l) (r : Result) (t : Session (Debugger × τ)) {y : Debugger × υ}
    (same : SameDebugger S t.watch y) :
    ∃ y', SameDebugger S (settle l r t).2.watch y' ∧
      settle l' r (t.under y) = ((settle l r t).1, (settle l r t).2.under y') := by
  obtain ⟨env, world, d, m⟩ := t
  obtain ⟨d, u⟩ := y
  obtain ⟨rfl, hs⟩ : d = _ ∧ S m u := same
  by_cases waits : d.waiting = true
  · rw [settle_waiting l r waits, settle_waiting l' r waits]
    exact ⟨_, ⟨rfl, hs⟩, rfl⟩
  by_cases stopping : d.stopping = true
  · rw [settle_stopping l r waits stopping, settle_stopping l' r waits stopping]
    exact ⟨({ d with running := false }.log "stopped", u), ⟨rfl, hs⟩, rfl⟩
  · rw [settle_running l r waits stopping, settle_running l' r waits stopping]
    exact ⟨_, conclude_same h r env world ⟨rfl, hs⟩, rfl⟩

theorem run_follows {S : τ → υ → Prop} {l : Listener τ} {l' : Listener υ}
    (h : Listener.Echoes S l' l) (limits : Limits) (b : Building) :
    Follows (SameDebugger S) (fun _ => True) (run l' limits b) (run l limits b) := by
  rintro s ⟨_, u⟩ ⟨rfl, hs⟩ -
  obtain ⟨y, same, e⟩ :=
    (echo_follows h (fun _ _ y => y) (fun _ _ y => y) (fun _ _ _ _ same => same)
      (fun _ _ _ _ same => same)).runBlock limits b.body (opened b s)
      (y := (s.watch.1.started b, u)) ⟨rfl, hs⟩ trivial
  obtain ⟨y', same', e'⟩ := settle_same h ((opened b s).runBuilding (observer l) limits b).1
    ((opened b s).runBuilding (observer l) limits b).2 same
  have settled := congrArg (fun r : Result × Session (Debugger × υ) => settle l' r.1 r.2) e
  exact ⟨y', same', settled.trans e'⟩

/-- All that is said in the course of a run. -/
def transcript (limits : Limits) (b : Building) (s : Session (Debugger × τ)) : List Exchange :=
  (run listener.transcribed limits b (s.under (s.watch.1, s.watch.2, []))).2.watch.2.2

theorem mem_conclude {x : Exchange} (r : Result) (env : Environment) (w : World)
    {watch : Debugger × τ × List Exchange} (said : x ∈ watch.2.2) :
    x ∈ (conclude listener.transcribed r env w watch).2.2 := by
  have kept (kind : EventKind) (message : Bytes) {watch : Debugger × τ × List Exchange}
      (said : x ∈ watch.2.2) :
      x ∈ (emit listener.transcribed kind message env w watch).2.2 := by
    obtain ⟨new, grown, -⟩ := emit_transcribed listener kind message env w watch
    rw [grown]
    exact List.mem_append_left new said
  unfold conclude
  cases r.error with
  | none => exact kept .finished [] said
  | some report => exact kept .finished [] (kept .failed (report.format watch.1.sources) said)

variable (limits : Limits) (b : Building) (s : Session (Debugger × τ))

def transcribing : Session (Debugger × τ × List Exchange) :=
  (opened b s).under (s.watch.1.started b, s.watch.2, [])

theorem mem_transcript {x : Exchange}
    (said : x ∈
      ((transcribing b s).runBuilding (observer listener.transcribed) limits b).2.watch.2.2) :
    x ∈ transcript listener limits b s := by
  unfold transcript
  rw [run_eq]
  dsimp only
  split
  · exact said
  · split
    · exact said
    · exact mem_conclude listener _ _ _ said

theorem performBlock_goesOn (fresh : s.watch.1.stopping = false)
    (cooperative : ∀ x ∈ transcript listener limits b s, x.Cooperative) :
    (Statement.performBlock (observer listener) limits
        (Call.within (observer listener) limits (s.callsLeft limits)) b.body (opened b s)).1 ≠
      .stopped ∧
    ((opened b s).runBuilding (observer listener) limits b).2.watch.1.stopping = false ∧
    ((opened b s).runBuilding (observer listener) limits b).2.watch.1.waiting = false := by
  have follows := transcribed_follows listener
  obtain ⟨watch, same, e⟩ := follows.performBlock limits (follows.within limits _) b.body
    (opened b s) (s.watch.1.started b, s.watch.2, []) ⟨rfl, rfl⟩ trivial
  obtain ⟨log, grown, goesOn⟩ :=
    continues_performBlock listener limits b.body (transcribing b s)
  have said : ∀ x ∈ log, x.Cooperative := fun x hx =>
    cooperative x (mem_transcript listener limits b s (grown ▸ List.mem_append_right _ hx))
  obtain ⟨ends, on⟩ := goesOn (by simp [transcribing, started, fresh]) said
  rw [transcribing, e] at ends on
  have debugger := same.1.symm
  exact ⟨ends, (congrArg stopping debugger).trans on.running,
    (congrArg waiting debugger).trans (on.waiting.trans (by simp [started]))⟩

/-- In a session in which every pause is resumed and nobody asks for a stop, a run under a debugger
has the result of the run that nobody watches, and leaves the same variables, containers, output,
input and files. -/
theorem run_eq_unwatched (fresh : s.watch.1.stopping = false)
    (cooperative : ∀ x ∈ transcript listener limits b s, x.Cooperative) :
    let plain := (s.under ()).runBuilding Observer.none limits b
    (run listener limits b s).1 = some plain.1 ∧
      (run listener limits b s).2.env = plain.2.env ∧
      (run listener limits b s).2.world = plain.2.world := by
  intro plain
  obtain ⟨ends, running, waiting⟩ := performBlock_goesOn listener limits b s fresh cooperative
  obtain ⟨_, -, e⟩ :=
    (none_follows (observer listener)).runBlock limits b.body (opened b s) (y := ()) trivial ends
  have same : plain = (((opened b s).runBuilding (observer listener) limits b).1,
    ((opened b s).runBuilding (observer listener) limits b).2.under ()) := e
  rw [run_eq, same]
  dsimp only
  rw [if_neg (Bool.eq_false_iff.1 waiting), if_neg (Bool.eq_false_iff.1 running)]
  exact ⟨rfl, rfl, rfl⟩

def Listener.restless : Listener Nat := fun _ _ _ n =>
  (match n with
    | 0 => [.add ⟨"main.building", 3⟩, .resume .stepInto]
    | 1 => [.resume .stepOver, .select .stepInto]
    | 2 => [.clear, .resume .stepOut]
    | _ => [.select .paused, .resume .run], n + 1)

theorem run_eq_unwatched_restless :
    let line (n : Nat) (st : Location → Statement) := st { file := 1, line := n }
    let b : Building := { name := "main", body :=
      [line 1 (.set · "greeting" (.text {} "hello")), line 2 (.display · (.name {} "greeting")),
        line 3 (.display · (.name {} "farewell")), line 4 (.display · (.text {} "never"))] }
    let s : Session (Debugger × Nat) := ⟨.fresh "main" false, {}, {}, 0⟩
    s.watch.1.stopping = false ∧ (∀ x ∈ transcript Listener.restless {} b s, x.Cooperative) ∧
      (run Listener.restless {} b s).2.watch.2 = 5 ∧
      (run Listener.restless {} b s).1 = some ((s.under ()).runBuilding Observer.none {} b).1 ∧
      (run Listener.restless {} b s).2.world.output = #[("hello" : Bytes)] := by
  intro line b s
  have cooperative : ∀ x ∈ transcript Listener.restless {} b s, x.Cooperative := by
    decide +kernel
  obtain ⟨result, -, world⟩ := run_eq_unwatched Listener.restless {} b s rfl cooperative
  refine ⟨rfl, cooperative, by decide +kernel, result, ?_⟩
  rw [world]
  decide +kernel

end Debugger

end StepsLang.Debug
