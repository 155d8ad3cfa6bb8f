import StepsLang.Proofs.Debug.Activity
import StepsLang.Proofs.Debug.Chronicle
import StepsLang.Proofs.Debug.Protocol
import StepsLang.Proofs.Execution.Activation

/-! Calls and returns in a run under a debugger.  The run is carried out once more with a log in
which activations are opened and closed; what is said does not change. -/

namespace StepsLang

theorem CallResult.outcome_stopped {r : CallResult} : r.outcome = .stopped ↔ r = .stopped := by
  cases r <;> simp [CallResult.outcome]

theorem Call.finish_stopped {ob : Observer σ} {name : Bytes} {o : Outcome} {t : Session σ} :
    (Call.finish ob name (o, t)).1 = .stopped ↔ o = .stopped := by
  cases o <;> simp [Call.finish]

namespace Environment

def activations (env : Environment) : List Bytes := env.frames.map (·.name)

theorem getLast?_activations (env : Environment) :
    env.activations.getLast? = some env.bottom.name := by
  rw [activations, List.getLast?_map, frames, List.getLast?_cons]
  cases h : env.below.getLast? <;> simp [bottom, h, List.getLastD_eq_getLast?]

theorem Confined.activations {env after : Environment} (h : Confined env after) :
    after.activations = env.activations := h.balanced.names

end Environment

theorem Session.activations_call (ob : Observer σ) (r : Routine) (owner : Step) (vs : List Value)
    (l : Location) (s : Session σ) :
    (s.call ob r owner vs l).env.activations = r.name :: s.env.activations := by
  have top := (Session.sameCall_call ob r owner vs l s).name
  have below := (Session.around_call ob r owner vs l s).below
  rw [Environment.activations, Environment.frames, List.map_cons, top, below]
  rfl

namespace Debug

theorem names_showFrames (sources : Option Sources) (h : Heap) (m : Memory) (fs : List Frame) :
    (showFrames sources h m fs).1.map (·.name) = fs.map (·.name) := by
  induction fs generalizing m with
  | nil => rfl
  | cons f fs ih => simp [showFrames, ih]

theorem activations_event {x : Exchange} {d : Debugger} {kind : EventKind} {message : Bytes}
    {env : Environment} {w : World} (h : x.event = d.event kind message env w) :
    x.activations = env.activations := by
  rw [Exchange.activations, h]
  exact names_showFrames d.sources w.heap _ env.frames

theorem Exchange.Closing.activations {x : Exchange} {env : Environment} (h : x.Closing env) :
    x.activations = env.activations := by
  obtain ⟨d, kind, message, w, e, -⟩ := h
  exact activations_event e

def Listener.logged (listener : Listener τ) : Listener (τ × List Happening) :=
  fun event w d (t, log) =>
    let (answer, t) := listener event w d t
    (answer, t, log ++ [.told ⟨event, answer⟩])

namespace Debugger

def record (e : Happening) : Debugger × τ × List Happening → Debugger × τ × List Happening
  | (d, t, log) => (d, t, log ++ [e])

def scribe (listener : Listener τ) : Observer (Debugger × τ × List Happening) where
  before := before listener.logged
  onCall name env w watch :=
    emit listener.logged .called name env w (record (.opened name) watch)
  onReturn name env w := emit listener.logged .returned name env w

def closing (name : Bytes) (r : CallResult × Session (Debugger × τ × List Happening)) :
    CallResult × Session (Debugger × τ × List Happening) :=
  (r.1, { r.2 with watch := record (.closed name r.1) r.2.watch })

/-- Calls as `Call.invoke` makes them, where the end of an activation is written down as well. -/
def invokeLogged (listener : Listener τ) (limits : Limits) :
    Nat → Call.Invoker (Debugger × τ × List Happening)
  | 0, r, _, _, l, s => (.failed (Call.tooDeep limits.depth r.name l), s)
  | n + 1, r, owner, arguments, l, s =>
    if arguments.length != r.parameters.length then
      (.failed (Call.miscounted r.name r.parameterNames arguments.length l), s)
    else
      closing r.name <| Call.finish (scribe listener) r.name <|
        Statement.performBlock (scribe listener) limits
          (Call.byName (invokeLogged listener limits n)) r.body
          (s.call (scribe listener) r owner arguments l)

/-- What happens to activations while the body of a building is carried out, and what is said. -/
def activity (listener : Listener τ) (limits : Limits) (b : Building)
    (s : Session (Debugger × τ)) : List Happening :=
  (Statement.performBlock (scribe listener) limits
    (Call.byName (invokeLogged listener limits (s.callsLeft limits))) b.body
    ((opened b s).under (s.watch.1.started b, s.watch.2, []))).2.watch.2.2

variable (listener : Listener τ)

def Logged (t : τ × List Exchange) (u : τ × List Happening) : Prop :=
  u.1 = t.1 ∧ exchanges u.2 = t.2

theorem logged_echoes : Listener.Echoes Logged listener.logged listener.transcribed := by
  rintro event w d ⟨t, said⟩ ⟨_, log⟩ ⟨rfl, rfl⟩
  exact ⟨rfl, rfl, exchanges_append log _⟩

theorem record_same {e : Happening} (silent : e.exchange? = none)
    {x : Debugger × τ × List Exchange} {y : Debugger × τ × List Happening}
    (same : SameDebugger Logged x y) : SameDebugger Logged x (record e y) := by
  obtain ⟨d, t, log⟩ := y
  obtain ⟨same, memory, said⟩ := same
  refine ⟨same, memory, ?_⟩
  rw [← said]
  simp [record, exchanges, silent]

theorem scribe_follows :
    Follower (SameDebugger Logged) (fun _ => True) (scribe listener)
      (observer listener.transcribed) :=
  echo_follows (logged_echoes listener) (fun _ _ y => y) (fun name _ => record (.opened name))
    (fun _ _ _ _ same => same) (fun _ _ _ _ => record_same rfl)

theorem invokeLogged_follows (limits : Limits) (n : Nat) (r : Routine) (owner : Step)
    (vs : List Value) (l : Location) :
    Follows (SameDebugger Logged) (fun _ => True) (invokeLogged listener limits n r owner vs l)
      (Call.invoke (observer listener.transcribed) limits n r owner vs l) := by
  have follows := scribe_follows listener
  induction n generalizing r owner vs l with
  | zero => exact .done _
  | succ n ih =>
    intro s y hs _
    unfold invokeLogged Call.invoke
    split
    · exact ⟨y, hs, rfl⟩
    · have calls := Follower.byName (Q := fun _ => True) ih
      obtain ⟨y', hs', e⟩ := follows.performBlock limits calls r.body
        (s.call (observer listener.transcribed) r owner vs l) _ (follows.onCall hs) trivial
      obtain ⟨y'', hs'', e'⟩ := follows.finish r.name _ _ hs'
      have same := congrArg (closing r.name ∘ Call.finish (scribe listener) r.name) e
      exact ⟨_, record_same rfl hs'', same.trans (congrArg (closing r.name) e')⟩

theorem env_invokeLogged (limits : Limits) (n : Nat) (r : Routine) (owner : Step)
    (vs : List Value) (l : Location) (s : Session (Debugger × τ × List Happening)) :
    (invokeLogged listener limits n r owner vs l s).2.env = s.env := by
  obtain ⟨y, -, e⟩ := invokeLogged_follows listener limits n r owner vs l
    (s.under (s.watch.1, s.watch.2.1, exchanges s.watch.2.2)) s.watch ⟨rfl, rfl, rfl⟩ trivial
  exact (congrArg (·.2.env) e).trans
    (Environment.env_invoke (observer listener.transcribed) limits n r owner vs l (s.under _))

theorem emit_logged (kind : EventKind) (message : Bytes) (env : Environment) (w : World)
    (x : Debugger × τ × List Happening) :
    ∃ new, (emit listener.logged kind message env w x).2.2 = x.2.2 ++ new ∧
      (x.1.stopping = false → ∃ e : Exchange, new = [.told e] ∧
        e.Tells kind message env.activations ∧
        (.stop ∉ e.answer → GoesOn x.1 (emit listener.logged kind message env w x).1)) := by
  obtain ⟨d, t, log⟩ := x
  rw [emit_eq]
  split
  · next stopping =>
    exact ⟨[], (List.append_nil _).symm, fun running => by cases stopping.symm.trans running⟩
  · refine ⟨_, rfl, fun running => ⟨_, rfl, ⟨rfl, rfl, activations_event rfl⟩, fun noStop => ?_⟩⟩
    obtain ⟨goesOn, -⟩ := foldl_obey_goesOn (d := d.looked env w) running noStop
    exact ⟨goesOn.running, goesOn.waiting⟩

/-- What a run adds to the log when it is not stopped: activations that are opened and closed above
those that stay open.  An activation is cut short only where the run is left waiting. -/
structure Adds (names : List Bytes) (o : Outcome) (d : Debugger) (log : List Happening) : Prop where
  running : d.stopping = false
  nested : Nested names log
  halted : o = .stopped → d.waiting = true
  cut : ∀ name, .closed name .stopped ∈ log → o = .stopped

namespace Adds

variable {names : List Bytes} {o p : Outcome} {d d' : Debugger} {log log' : List Happening}

theorem nothing (running : d.stopping = false) (on : o ≠ .stopped) : Adds names o d [] :=
  ⟨running, .nil, fun stopped => absurd stopped on, by simp⟩

theorem trans (h : Adds names o d log) (on : o ≠ .stopped) (h' : Adds names p d' log') :
    Adds names p d' (log ++ log') where
  running := h'.running
  nested := h.nested.append h'.nested
  halted := h'.halted
  cut name closed :=
    (List.mem_append.1 closed).elim (fun first => absurd (h.cut name first) on) (h'.cut name)

theorem activation {name : Bytes} {c : Exchange} {r : CallResult} {last : List Happening}
    (h : Adds (name :: names) o d log) (tells : c.Tells .called name (name :: names))
    (ends : Ending name names r last) (goesOn : GoesOn d d') (same : r = .stopped ↔ o = .stopped) :
    Adds names r.outcome d' (.opened name :: .told c :: (log ++ (last ++ [.closed name r]))) where
  running := goesOn.running
  nested := .activation tells h.nested ends
  halted stopped := goesOn.waiting.trans (h.halted (same.1 (CallResult.outcome_stopped.1 stopped)))
  cut name' closed := by
    rw [CallResult.outcome_stopped, same]
    simp only [List.mem_cons, List.mem_append, reduceCtorEq, false_or, List.not_mem_nil,
      or_false] at closed
    rcases closed with inside | atEnd | here
    · exact h.cut name' inside
    · exact absurd atEnd ends.not_closed
    · cases here
      exact same.1 rfl

end Adds

/-- Between two sessions of a run activations are nested, unless somebody asks for a stop. -/
def Nests (s : Session (Debugger × τ × List Happening)) (o : Outcome)
    (t : Session (Debugger × τ × List Happening)) : Prop :=
  t.env.activations = s.env.activations ∧
  ∃ log, t.watch.2.2 = s.watch.2.2 ++ log ∧
    (s.watch.1.stopping = false → (∀ x ∈ exchanges log, .stop ∉ x.answer) →
      Adds s.env.activations o t.watch.1 log)

namespace Nests

variable {s t u : Session (Debugger × τ × List Happening)} {o p : Outcome}

theorem of_same (env : t.env.activations = s.env.activations) (watch : t.watch = s.watch)
    (on : o ≠ .stopped) : Nests s o t :=
  ⟨env, [], by rw [watch, List.append_nil], fun running _ => .nothing (watch ▸ running) on⟩

theorem trans (h : Nests s o t) (on : o ≠ .stopped) (h' : Nests t p u) : Nests s p u := by
  obtain ⟨same, log, grown, adds⟩ := h
  obtain ⟨same', log', grown', adds'⟩ := h'
  refine ⟨same'.trans same, log ++ log', ?_, fun running noStop => ?_⟩
  · rw [grown', grown, List.append_assoc]
  · rw [exchanges_append] at noStop
    obtain ⟨early, late⟩ := List.forall_mem_append.1 noStop
    have first := adds running early
    exact first.trans on (same ▸ adds' first.running late)

theorem composable : Composable (Nests (τ := τ)) where
  finish := fun on => .of_same rfl rfl on
  resume := fun h on h' => h.trans on h'
  world := fun _ _ => .of_same rfl rfl Outcome.noConfusion

variable (listener : Listener τ)

theorem of_pause (path : Bytes) (line : Nat) (env : Environment) (w : World) (d : Debugger) (t : τ)
    (log : List Happening) (running : d.stopping = false) :
    let r := pause listener.logged path line env w d (t, log)
    ∃ new, r.2.2.2 = log ++ new ∧ ((∀ e ∈ exchanges new, .stop ∉ e.answer) →
      Adds env.activations (if r.1 then .normal else .stopped) r.2.1 new) := by
  have halted : (d.halted path line).stopping = false := (stopping_log _ _).trans running
  obtain ⟨new, grown, tells⟩ :=
    emit_logged listener .paused [] env w (d.halted path line, t, log)
  obtain ⟨e, rfl, tells, goesOn⟩ := tells halted
  have nested : Nested env.activations [.told e] := .paused tells.kind tells.shown
  dsimp only
  rw [pause_eq]
  dsimp only
  split
  · refine ⟨_, grown, fun noStop => ?_⟩
    have on := (goesOn (noStop e (.head _))).running
    refine ⟨on, nested, fun stopped => ?_, by simp⟩
    rw [if_pos (by rw [on]; rfl)] at stopped
    cases stopped
  · refine ⟨_, grown, fun noStop => ?_⟩
    exact ⟨(goesOn (noStop e (.head _))).running, nested, fun _ => rfl, fun _ _ => rfl⟩

theorem of_before (st : Statement) (env : Environment) (w : World)
    (x : Debugger × τ × List Happening) :
    let r := before listener.logged st env w x
    ∃ new, r.2.2.2 = x.2.2 ++ new ∧
      (x.1.stopping = false → (∀ e ∈ exchanges new, .stop ∉ e.answer) →
        Adds env.activations (if r.1 then .normal else .stopped) r.2.1 new) := by
  obtain ⟨d, t, log⟩ := x
  dsimp only
  rw [before_eq]
  by_cases stopping : d.stopping = true
  · rw [if_pos stopping]
    exact ⟨[], (List.append_nil _).symm, fun running => by cases stopping.symm.trans running⟩
  rw [if_neg stopping]
  split
  · obtain ⟨new, grown, adds⟩ := of_pause listener (pathOf d.sources st.location)
      st.location.line env w { d with depth := env.depth } t log (Bool.eq_false_iff.2 stopping)
    exact ⟨new, grown, fun _ => adds⟩
  · exact ⟨[], (List.append_nil _).symm, fun running _ => .nothing running Outcome.noConfusion⟩

theorem of_announce (st : Statement) (s : Session (Debugger × τ × List Happening)) :
    Nests s (if (s.announce (scribe listener) st).1 then .normal else .stopped)
      (s.announce (scribe listener) st).2 :=
  ⟨rfl, of_before listener st (s.env.moveTo st.location) s.world s.watch⟩

theorem scheme (limits : Limits) {call : Caller (Debugger × τ × List Happening)}
    (hc : Caller.Obeys Nests call) : Scheme (scribe listener) limits call Nests := by
  refine composable.scheme (fun h => ?_) (fun s x v => ?_) (fun h => ?_) ?_ ?_ limits hc
  · exact .of_same (Environment.confined_set h).activations rfl Outcome.noConfusion
  · exact .of_same (Environment.confined_define s.env x v).activations rfl Outcome.noConfusion
  · exact h
  · intro s st go
    have here := of_announce listener st s
    rwa [if_pos go] at here
  · intro s st halt
    have here := of_announce listener st s
    rwa [if_neg (Bool.eq_false_iff.1 halt)] at here

theorem of_finish (name : Bytes) (names : List Bytes) (o : Outcome)
    (t : Session (Debugger × τ × List Happening)) (top : t.env.activations = name :: names) :
    let r := Call.finish (scribe listener) name (o, t)
    ∃ last, r.2.watch.2.2 = t.watch.2.2 ++ last ∧
      (t.watch.1.stopping = false → (∀ x ∈ exchanges last, .stop ∉ x.answer) →
        Ending name names r.1 last ∧ GoesOn t.watch.1 r.2.watch.1) := by
  have returned (v : Value) : ∃ last,
      (emit listener.logged .returned name t.env t.world t.watch).2.2 = t.watch.2.2 ++ last ∧
      (t.watch.1.stopping = false → (∀ x ∈ exchanges last, .stop ∉ x.answer) →
        Ending name names (.value v) last ∧
        GoesOn t.watch.1 (emit listener.logged .returned name t.env t.world t.watch).1) := by
    obtain ⟨last, grown, tells⟩ := emit_logged listener .returned name t.env t.world t.watch
    refine ⟨last, grown, fun running noStop => ?_⟩
    obtain ⟨e, rfl, tells, goesOn⟩ := tells running
    exact ⟨.returned (top ▸ tells), goesOn (noStop e (.head _))⟩
  cases o with
  | failed r => exact ⟨[], (List.append_nil _).symm, fun running _ => ⟨.failed, running, rfl⟩⟩
  | stopped => exact ⟨[], (List.append_nil _).symm, fun running _ => ⟨.stopped, running, rfl⟩⟩
  | normal => exact returned .nothing
  | exited => exact returned .nothing
  | returned v => exact returned v

theorem activation {s : Session (Debugger × τ × List Happening)} {r : Routine} {owner : Step}
    {vs : List Value} {l : Location} {o : Outcome} {t : Session (Debugger × τ × List Happening)}
    (h : Nests (s.call (scribe listener) r owner vs l) o t) :
    let ended := closing r.name (Call.finish (scribe listener) r.name (o, t))
    ended.2.env = s.env → Nests s ended.1.outcome ended.2 := by
  intro ended back
  obtain ⟨same, body, grown, adds⟩ := h
  have inner := Session.activations_call (scribe listener) r owner vs l s
  have top : t.env.activations = r.name :: s.env.activations := same.trans inner
  obtain ⟨first, opens, calls⟩ := emit_logged listener .called r.name
    (s.enter r owner vs l).env (s.enter r owner vs l).world (record (.opened r.name) s.watch)
  obtain ⟨last, closes, ends⟩ := of_finish listener r.name s.env.activations o t top
  -- The body adds its part of the log between what the hooks add.
  have grown' : t.watch.2.2 = s.watch.2.2 ++ [.opened r.name] ++ first ++ body :=
    grown.trans (congrArg (· ++ body) opens)
  let log := .opened r.name :: (first ++ (body ++ (last ++ [.closed r.name ended.1])))
  refine ⟨congrArg _ back, log, ?_, fun running noStop => ?_⟩
  · change (Call.finish (scribe listener) r.name (o, t)).2.watch.2.2 ++ _ = _
    rw [closes, grown']
    simp only [List.append_assoc, List.cons_append]
    rfl
  · obtain ⟨c, rfl, tells, onward⟩ := calls running
    have said : exchanges log = c :: (exchanges body ++ exchanges last) := exchanges_activation ..
    rw [said] at noStop
    obtain ⟨atCall, inside⟩ := List.forall_mem_cons.1 noStop
    obtain ⟨inside, atEnd⟩ := List.forall_mem_append.1 inside
    have whole := adds (onward atCall).running inside
    obtain ⟨ending, goesOn⟩ := ends whole.running atEnd
    rw [inner] at whole
    exact whole.activation (inner ▸ tells) ending goesOn Call.finish_stopped

/-- A call leaves the activations as they were, by induction on how many more it may open. -/
theorem invoke (limits : Limits) (n : Nat) (r : Routine) (owner : Step) (vs : List Value)
    (l : Location) (s : Session (Debugger × τ × List Happening)) :
    Nests s (invokeLogged listener limits n r owner vs l s).1.outcome
      (invokeLogged listener limits n r owner vs l s).2 := by
  have back := env_invokeLogged listener limits n r owner vs l s
  induction n generalizing r owner vs l s with
  | zero => exact .of_same rfl rfl Outcome.noConfusion
  | succ n ih =>
    have calls := composable.byName fun r owner vs l s =>
      ih r owner vs l s (env_invokeLogged listener limits n r owner vs l s)
    unfold invokeLogged at back ⊢
    split
    · exact .of_same rfl rfl Outcome.noConfusion
    · next count =>
      rw [if_neg count] at back
      exact activation listener ((scheme listener limits calls).performBlock r.body _) back

theorem caller (limits : Limits) (n : Nat) :
    Caller.Obeys Nests (Call.byName (invokeLogged listener limits n)) :=
  composable.byName (invoke listener limits n)

end Nests

variable (limits : Limits) (b : Building) (s : Session (Debugger × τ))

theorem activity_follows :
    let t := ((transcribing b s).runBuilding (observer listener.transcribed) limits b).2
    exchanges (activity listener limits b s) = t.watch.2.2 ∧
      t.env.activations = s.env.activations ∧
      (s.watch.1.stopping = false →
        (∀ x ∈ exchanges (activity listener limits b s), .stop ∉ x.answer) →
        Nested s.env.activations (activity listener limits b s) ∧
        ∀ name, .closed name .stopped ∈ activity listener limits b s →
          t.watch.1.waiting = true) := by
  intro t
  have calls := Follower.byName (Q := fun _ => True)
    (invokeLogged_follows listener limits (s.callsLeft limits))
  obtain ⟨y, same, e⟩ := (scribe_follows listener).performBlock limits calls b.body
    (transcribing b s) (s.watch.1.started b, s.watch.2, []) ⟨rfl, rfl, rfl⟩ trivial
  have log : activity listener limits b s = y.2.2 := congrArg (·.2.watch.2.2) e
  have nests := (Nests.scheme listener limits
    (Nests.caller listener limits (s.callsLeft limits))).performBlock b.body
      ((transcribing b s).under (s.watch.1.started b, s.watch.2, []))
  rw [e] at nests
  obtain ⟨env, new, grown, adds⟩ := nests
  have whole : activity listener limits b s = new := log.trans grown
  refine ⟨log ▸ same.2.2, env, fun running noStop => ?_⟩
  have begun : (s.watch.1.started b).stopping = false := (stopping_log _ _).trans running
  have adds := adds begun (whole ▸ noStop)
  rw [whole]
  refine ⟨adds.nested, fun name cut => ?_⟩
  exact (congrArg waiting same.1).symm.trans (adds.halted (adds.cut name cut))

theorem run_waiting
    (waits : ((transcribing b s).runBuilding (observer listener.transcribed) limits
      b).2.watch.1.waiting = true) : (run listener limits b s).1 = none := by
  rw [← transcribed_run, run_eq]
  exact congrArg Prod.fst (if_pos waits)

/-- In a run that nobody stops, calls and returns nest. -/
theorem calls_nest (running : s.watch.1.stopping = false)
    (noStop : ∀ x ∈ transcript listener limits b s, .stop ∉ x.answer) :
    (∃ closing,
      transcript listener limits b s = exchanges (activity listener limits b s) ++ closing ∧
      ∀ x ∈ closing, x.event.kind ∈ [EventKind.failed, .finished] ∧
        x.activations = openAfter s.env.activations (activity listener limits b s)) ∧
    (∀ earlier x later, activity listener limits b s = earlier ++ .told x :: later →
      x.activations = openAfter s.env.activations earlier) ∧
    (∀ x ∈ transcript listener limits b s, x.activations.getLast? = some s.env.bottom.name) ∧
    (∀ earlier y later, transcript listener limits b s = earlier ++ y :: later →
      y.event.kind = .returned →
      y.activations.head? = some y.event.message ∧
      ∃ before c between, earlier = before ++ c :: between ∧ Answers c between y) ∧
    (∀ before c between y rest between' y' rest',
      transcript listener limits b s = before ++ c :: (between ++ y :: rest) →
      transcript listener limits b s = before ++ c :: (between' ++ y' :: rest') →
      Answers c between y → Answers c between' y' → between = between' ∧ y = y') ∧
    (∀ earlier name later, activity listener limits b s = earlier ++ .opened name :: later →
      ∃ c rest, later = .told c :: rest ∧ c.event.kind = .called ∧ c.event.message = name) ∧
    (∀ earlier c later, activity listener limits b s = earlier ++ .told c :: later →
      c.event.kind = .called →
      (∃ before, earlier = before ++ [.opened c.event.message]) ∧
      ((∃ between y rest, exchanges later = between ++ y :: rest ∧ Answers c between y) ∨
        (∃ r, ending 0 later = some (.failed r)) ∨
        ending 0 later = some .stopped ∧ (run listener limits b s).1 = none)) := by
  obtain ⟨closing, whole, closes⟩ := transcript_closing listener limits b s
  obtain ⟨said, env, follows⟩ := activity_follows listener limits b s
  rw [← said] at whole
  rw [whole] at noStop
  obtain ⟨nested, cut⟩ := follows running (List.forall_mem_append.1 noStop).1
  have atEnd (x : Exchange) (hx : x ∈ closing) : x.activations = s.env.activations :=
    (closes x hx).activations.trans env
  have building {x : Exchange} (deep : s.env.activations <:+ x.activations) :
      x.activations.getLast? = some s.env.bottom.name := by
    obtain ⟨front, e⟩ := deep
    rw [← e, List.getLast?_append, s.env.getLast?_activations]
    rfl
  have noReturn : ∀ x ∈ closing, x.event.kind ≠ .returned :=
    fun x hx => (closes x hx).kind_ne (by decide)
  refine ⟨⟨closing, whole, fun x hx => ⟨?_, ?_⟩⟩, ?_, ?_, ?_, ?_, ?_, ?_⟩
  · exact (closes x hx).kind
  · rw [nested.openAfter_eq]
    exact atEnd x hx
  · intro earlier x later split
    have shows := nested.showsOpen
    rw [split] at shows
    exact shows.activations
  · rw [whole]
    refine List.forall_mem_append.2 ⟨fun x hx => ?_, fun x hx => ?_⟩
    · exact building (nested.above x hx).1
    · exact building (atEnd x hx ▸ List.suffix_refl _)
  · rw [whole]
    exact nested.matched.append (.of_noReturn noReturn)
  · intro before c between y rest between' y' rest' split split' answers answers'
    have same := List.append_cancel_left (split.symm.trans split')
    exact answers.same_return answers' (List.cons.inj same).2
  · exact fun earlier name later => nested.paired.told_of_opened
  · intro earlier c later split called
    refine ⟨nested.paired.opened_of_told split called, ?_⟩
    have calls := nested.callsEnd
    rw [split] at calls
    obtain ⟨r, ends, answered⟩ := calls.concluded called
    cases r with
    | value v => exact .inl (answered v rfl)
    | failed r => exact .inr (.inl ⟨r, ends⟩)
    | stopped =>
      obtain ⟨name, closed⟩ := closed_of_ending ends
      refine .inr (.inr ⟨ends, run_waiting listener limits b s (cut name ?_)⟩)
      rw [split]
      exact List.mem_append_right _ (List.mem_cons_of_mem _ closed)

theorem calls_nest_caught :
    let b : Building := { name := "main", body := [.call {} "outer" [] none] }
    let outer : Step :=
      { name := "outer", body := [.attempt {} [.call {} "inner" [] none] none none] }
    let inner : Step :=
      { name := "inner", body := [.call {} "leaf" [] none, .display {} (.name {} "farewell")] }
    let leaf : Step := { name := "leaf", body := [.display {} (.text {} "hello")] }
    let env := ((Environment.fresh "main" false).addStep outer).addStep inner |>.addStep leaf
    let s : Session (Debugger × Unit) := ⟨env, {}, { control := { mode := .run } }, ()⟩
    let told := transcript Listener.silent {} b s
    s.watch.1.stopping = false ∧ (∀ x ∈ told, .stop ∉ x.answer) ∧
      told.map (·.event.kind) = [.called, .called, .called, .returned, .returned, .finished] ∧
      told.map (fun x => Bytes.join ", " x.activations) =
        ["outer, main", "inner, outer, main", "leaf, inner, outer, main",
          "leaf, inner, outer, main", "outer, main", "main"] ∧
      ∀ y ∈ told, y.event.kind = .returned → ∃ c ∈ told, ∃ between, Answers c between y := by
  intro b outer inner leaf env s told
  have noStop : ∀ x ∈ told, .stop ∉ x.answer := by decide +kernel
  obtain ⟨-, -, -, answered, -⟩ := calls_nest Listener.silent {} b s rfl noStop
  refine ⟨rfl, noStop, by decide +kernel, by decide +kernel, fun y hy returned => ?_⟩
  obtain ⟨earlier, later, split⟩ := List.append_of_mem hy
  obtain ⟨-, before, c, between, rfl, answers⟩ := answered earlier y later split returned
  refine ⟨c, ?_, between, answers⟩
  rw [show told = _ from split]
  simp

end Debugger

end Debug

end StepsLang
