import StepsLang.Proofs.Debug.Invariant

namespace StepsLang

def Statement.first? (block : List Statement) : Option Statement := block.find? (!·.isNote)

theorem Statement.performBlock_eq (ob : Observer σ) (limits : Limits) (call : Caller σ)
    (block : List Statement) (s : Session σ) :
    (first? block = none ∧ performBlock ob limits call block s = (.normal, s)) ∨
      ∃ st rest, first? block = some st ∧
        performBlock ob limits call block s =
          if (s.announce ob st).1 then
            Action.andThen (st.perform ob limits call) (performBlock ob limits call rest)
              (s.announce ob st).2
          else (.stopped, (s.announce ob st).2) := by
  induction block with
  | nil => exact .inl ⟨rfl, rfl⟩
  | cons st rest ih =>
    have split : performBlock ob limits call (st :: rest) s =
        Action.andThen (Action.announced ob st (st.perform ob limits call))
          (performBlock ob limits call rest) s := rfl
    rw [split, Action.andThen, Action.announced_eq]
    cases note : st.isNote with
    | true =>
      have later : first? (st :: rest) = first? rest := List.find?_cons_of_neg (by simp [note])
      rw [later]
      exact ih
    | false =>
      refine .inr ⟨st, rest, List.find?_cons_of_pos (by simp [note]), ?_⟩
      cases go : (s.announce ob st).1 <;> rfl

theorem Statement.performBlock_refused (ob : Observer σ) (limits : Limits) (call : Caller σ)
    (block : List Statement) {s : Session σ} (refused : ∀ st, (s.announce ob st).1 = false) :
    performBlock ob limits call block s =
      match first? block with
      | none => (.normal, s)
      | some st => (.stopped, (s.announce ob st).2) := by
  obtain ⟨first, e⟩ | ⟨st, rest, first, e⟩ := performBlock_eq ob limits call block s
  · rw [first, e]
  · rw [first, e, refused st]
    rfl

namespace Debug

structure Regime where
  mode : Mode := .paused
  stopping : Bool := false
  deriving DecidableEq

def Command.govern (r : Regime) : Command → Regime
  | resume mode | select mode => if r.stopping then r else ⟨mode, false⟩
  | stop => ⟨.stopped, true⟩
  | reset => ⟨if r.mode = .stopped then .paused else r.mode, false⟩
  | add _ | remove _ _ | clear => r

def governed (cs : List Command) : Regime := cs.foldl Command.govern {}

/-- Somebody asked for a stop, and nobody for a reset since. -/
def StopPending (cs : List Command) : Prop :=
  ∃ before after, cs = before ++ .stop :: after ∧ .reset ∉ after

def Command.isEdit : Command → Bool
  | add _ | remove _ _ | clear => true
  | _ => false

theorem govern_stopped {c : Command} (noReset : c ≠ .reset) :
    Command.govern ⟨.stopped, true⟩ c = ⟨.stopped, true⟩ := by
  cases c <;> first | rfl | exact absurd rfl noReset

theorem StopPending.governed {cs : List Command} (h : StopPending cs) :
    governed cs = ⟨.stopped, true⟩ := by
  obtain ⟨before, after, rfl, noReset⟩ := h
  rw [Debug.governed, List.foldl_append, List.foldl_cons]
  refine List.foldlRecOn (motive := (· = _)) after Command.govern rfl fun r same c hc => ?_
  rw [same]
  exact govern_stopped fun reset => noReset (reset ▸ hc)

theorem governed_reset {before after : List Command} (stopped : StopPending before)
    (edits : ∀ c ∈ after, c = .reset ∨ c.isEdit = true) :
    governed (before ++ .reset :: after) = ⟨.paused, false⟩ := by
  have reset : Command.govern (governed before) .reset = ⟨.paused, false⟩ := by
    rw [stopped.governed]
    rfl
  rw [governed, List.foldl_append, List.foldl_cons]
  refine List.foldlRecOn (motive := (· = _)) after Command.govern reset fun r same c hc => ?_
  rw [same]
  obtain rfl | edit := edits c hc
  · rfl
  · cases c <;> first | rfl | cases edit

def answers (log : List (Debugger × Exchange)) : List Command := log.flatMap (·.2.answer)

def Listener.attended (listener : Listener τ) : Listener (τ × List (Debugger × Exchange)) :=
  fun event w d (t, log) =>
    let (answer, t) := listener event w d t
    (answer, t, log ++ [(d, ⟨event, answer⟩)])

namespace Debugger

/-- All that is said in the course of a run, with the debugger that says it. -/
def attendance (listener : Listener τ) (limits : Limits) (b : Building)
    (s : Session (Debugger × τ)) : List (Debugger × Exchange) :=
  (run listener.attended limits b (s.under (s.watch.1, s.watch.2, []))).2.watch.2.2

def regime (d : Debugger) : Regime := ⟨d.control.mode, d.stopping⟩

end Debugger

open Debugger in
/-- The debuggers that there can be after some commands: a new one, one that obeyed another command,
one that a listener hears from in a run, and one that a run has left. -/
inductive Lived : List Command → Debugger → Prop
  | new (sources : Option Sources) (verbose : Bool) : Lived [] { sources, verbose }
  | obeyed (c : Command) : Lived cs d → Lived (cs ++ [c]) (d.obey c)
  | heard {τ : Type} {listener : Listener τ} {s : Session (Debugger × τ)} {x : Exchange} :
    Lived cs s.watch.1 → attendance listener limits b s = earlier ++ (d, x) :: later →
    Lived (cs ++ answers earlier) d
  | ran {τ : Type} (listener : Listener τ) (limits : Limits) (b : Building)
    {s : Session (Debugger × τ)} : Lived cs s.watch.1 →
    Lived (cs ++ answers (attendance listener limits b s)) (run listener limits b s).2.watch.1

namespace Debugger

theorem regime_obey (d : Debugger) (c : Command) : (d.obey c).regime = c.govern d.regime := by
  unfold regime
  cases c with
  | resume mode | select mode =>
    simp only [obey, Command.govern]
    split <;> simp_all [Control.select]
  | stop => simp [obey, Command.govern, Control.select]
  | reset =>
    simp only [obey, Command.govern]
    split <;> simp_all [Control.select]
  | add b => simp [obey, Command.govern, Control.add, apply_ite]
  | remove file line => rfl
  | clear => rfl

theorem regime_foldl (d : Debugger) (cs : List Command) :
    (cs.foldl obey d).regime = cs.foldl Command.govern d.regime :=
  (List.foldl_hom regime fun d c => (regime_obey d c).symm).symm

@[simp] theorem regime_log (d : Debugger) (text : Bytes) : (d.log text).regime = d.regime := by
  simp [regime]

/-- The commands that are given from the regime `r` on account for the debugger, now and whenever it
said something. -/
structure Accounted (r : Regime) (d : Debugger) (x : τ × List (Debugger × Exchange)) : Prop where
  now : d.regime = (answers x.2).foldl Command.govern r
  along : Along (fun earlier e => e.1.regime = (answers earlier).foldl Command.govern r) x.2

theorem accounted_invariant (listener : Listener τ) (r : Regime) :
    Invariant listener.attended (Accounted (τ := τ) r) where
  congr := by
    rintro d d' x h ⟨control, stopping, -⟩
    exact ⟨by rw [← h.now, regime, regime, control, stopping], h.along⟩
  told := by
    rintro d ⟨t, log⟩ kind message env w - h
    have now : (d.looked env w).regime = (answers log).foldl Command.govern r := h.now
    refine ⟨?_, h.along.concat now⟩
    simp only [Listener.attended, regime_foldl, now, answers, List.flatMap_append,
      List.foldl_append, List.flatMap_singleton]

theorem attended_echoes (listener : Listener τ) :
    Listener.Echoes (fun (t : τ) (u : τ × List (Debugger × Exchange)) => u.1 = t) listener.attended
      listener := by
  rintro event w d t u rfl
  exact ⟨rfl, rfl⟩

variable (listener : Listener τ) (limits : Limits) (b : Building) (s : Session (Debugger × τ))

theorem accounted_run :
    Accounted s.watch.1.regime (run listener limits b s).2.watch.1
      ((run listener limits b s).2.watch.2, attendance listener limits b s) := by
  obtain ⟨⟨d, t, log⟩, ⟨same, rfl⟩, e⟩ :=
    run_follows (attended_echoes listener) limits b s (s.watch.1, s.watch.2, []) ⟨rfl, rfl⟩ trivial
  have whole := (accounted_invariant listener s.watch.1.regime).run limits b
    (s := s.under (s.watch.1, s.watch.2, [])) ⟨regime_log _ _, .nil _⟩
  have log : attendance listener limits b s = log := congrArg (·.2.watch.2.2) e
  rw [e] at whole
  subst same
  exact log ▸ whole

end Debugger

theorem Lived.regime {cs : List Command} {d : Debugger} (h : Lived cs d) :
    d.regime = governed cs := by
  induction h with
  | new => rfl
  | obeyed c _ ih => rw [Debugger.regime_obey, ih, governed, governed, List.foldl_concat]
  | heard _ split ih =>
    rw [(Debugger.accounted_run _ _ _ _).along _ _ _ split, ih, governed, governed,
      List.foldl_append]
  | ran listener limits b _ ih =>
    rw [(Debugger.accounted_run listener limits b _).now, ih, governed, governed,
      List.foldl_append]

namespace Debugger

def placed (b : Building) (env : Environment) : Environment :=
  match Statement.first? b.body with
  | none => env
  | some st => env.moveTo st.location

/-- A run in which nothing happens, except that the first statement is looked at and refused. -/
structure StandsStill (listener : Listener τ) (limits : Limits) (b : Building)
    (s : Session (Debugger × τ)) : Prop where
  stopped : ∃ r, (run listener limits b s).1 = some r ∧ r.stopped = true
  reached : chronicle listener limits b s =
    (Statement.first? b.body).toList.map fun st => .reached st (s.env.moveTo st.location)
  silent : transcript listener limits b s = []
  untold : (run listener limits b s).2.watch.2 = s.watch.2
  env : (run listener limits b s).2.env = placed b s.env
  world : (run listener limits b s).2.world = s.world

/-- A run that pauses at the first statement, before anything has happened. -/
def PausesFirst (listener : Listener τ) (limits : Limits) (b : Building)
    (s : Session (Debugger × τ)) : Prop :=
  ∀ st, Statement.first? b.body = some st →
    let env := s.env.moveTo st.location
    ∃ d x later, chronicle listener limits b s = .reached st env :: .told x :: later ∧
      (transcript listener limits b s).head? = some x ∧ x.PausesAt st env ∧
      x.event = event d .paused [] env s.world

variable (listener : Listener τ) (limits : Limits) (b : Building) {s : Session (Debugger × τ)}

theorem run_stopping (stopping : s.watch.1.stopping = true) :
    ∃ r d, r.stopped = true ∧
      run listener limits b s = (some r, ⟨placed b s.env, s.world, d, s.watch.2⟩) := by
  have begun : (s.watch.1.started b).stopping = true := (stopping_log _ _).trans stopping
  have goesOn : (s.watch.1.started b).waiting = false := waiting_log _ _
  have refused (st : Statement) : (opened b s).announce (observer listener) st =
      (false, { opened b s with env := s.env.moveTo st.location }) :=
    congrArg (fun r : Bool × Debugger × τ =>
        (r.1, { opened b s with env := s.env.moveTo st.location, watch := r.2 }))
      ((before_eq listener st _ s.world (s.watch.1.started b) s.watch.2).trans (if_pos begun))
  have body : ∃ o, (opened b s).runBuilding (observer listener) limits b =
      (Result.ofOutcome o, { opened b s with env := placed b s.env }) := by
    simp only [Session.runBuilding, Session.runBlock, placed,
      Statement.performBlock_refused _ limits _ b.body fun st => congrArg Prod.fst (refused st)]
    split
    · exact ⟨.normal, rfl⟩
    · next st _ => exact ⟨.stopped, by rw [refused st]⟩
  obtain ⟨o, e⟩ := body
  have settled : run listener limits b s = settle listener (Result.ofOutcome o)
      { opened b s with env := placed b s.env } :=
    congrArg (fun r : Result × Session (Debugger × τ) => settle listener r.1 r.2) e
  rw [settled, settle_stopping listener _ (by simpa [opened] using goesOn) begun]
  exact ⟨_, _, rfl, rfl⟩

theorem chronicle_of_stopping (stopping : s.watch.1.stopping = true) :
    chronicle listener limits b s =
      (Statement.first? b.body).toList.map fun st => .reached st (s.env.moveTo st.location) := by
  have begun : (s.watch.1.started b).stopping = true := (stopping_log _ _).trans stopping
  let start := (opened b s).under (s.watch.1.started b, s.watch.2, ([] : List Entry))
  have refused (st : Statement) : before listener.noted st (s.env.moveTo st.location) s.world
      (note (.reached st (s.env.moveTo st.location)) start.watch) =
        (false, note (.reached st (s.env.moveTo st.location)) start.watch) :=
    (before_eq listener.noted st _ s.world _ _).trans (if_pos begun)
  have e := Statement.performBlock_refused (chronicler listener) limits
    (Call.byName (Call.invoke (chronicler listener) limits (start.callsLeft limits))) b.body
    (s := start) fun st => congrArg Prod.fst (refused st)
  refine (congrArg (·.2.watch.2.2) e).trans ?_
  split
  · next none => rw [none]; rfl
  · next st first =>
    rw [first]
    exact congrArg (·.2.2.2) (refused st)

theorem announce_paused (paused : s.watch.1.control.mode = .paused)
    (running : s.watch.1.stopping = false) (st : Statement) :
    let start := (opened b s).under (s.watch.1.started b, s.watch.2, ([] : List Entry))
    let env := s.env.moveTo st.location
    ∃ d answer, (start.announce (chronicler listener) st).2.watch.2.2 =
      [.reached st env, .told ⟨event d .paused [] env s.world, answer⟩] := by
  intro start env
  let d : Debugger := { s.watch.1.started b with depth := env.depth }
  have begun : d.stopping = false := (stopping_log _ _).trans running
  have mode : d.control.mode = .paused := (congrArg Control.mode (control_log _ _)).trans paused
  have asks (path : Bytes) (line depth : Nat) : d.control.pausesAt path line depth = true := by
    simp [Control.pausesAt, mode]
  have here := before_eq listener.noted st env s.world (s.watch.1.started b)
    (s.watch.2, [.reached st env])
  rw [if_neg (Bool.eq_false_iff.1 begun), if_pos (asks _ _ _),
    pause_noted listener _ _ _ _ _ _ _ begun] at here
  dsimp only at here
  split at here <;> exact ⟨_, _, congrArg (·.2.2.2) here⟩

theorem pauses_first (paused : s.watch.1.control.mode = .paused)
    (running : s.watch.1.stopping = false) : PausesFirst listener limits b s := by
  intro st first
  obtain ⟨d, answer, announced⟩ := announce_paused listener b paused running st
  have law := (steered_watched listener).law
  let start := (opened b s).under (s.watch.1.started b, s.watch.2, ([] : List Entry))
  obtain ⟨none, -⟩ | ⟨st', rest, first', e⟩ := Statement.performBlock_eq (chronicler listener) limits
    (Call.byName (Call.invoke (chronicler listener) limits (start.callsLeft limits))) b.body start
  · cases none.symm.trans first
  obtain rfl : st = st' := Option.some.inj (first.symm.trans first')
  obtain ⟨later, grown⟩ : ∃ later, chronicle listener limits b s =
      (start.announce (chronicler listener) st).2.watch.2.2 ++ later := by
    have ended : chronicle listener limits b s = _ := congrArg (·.2.watch.2.2) e
    rw [ended]
    split
    · obtain ⟨later, grown, -⟩ := law.andThen (law.perform limits (law.caller limits _) st)
        (law.performBlock limits (law.caller limits _) rest)
        (start.announce (chronicler listener) st).2
      exact ⟨later, grown⟩
    · exact ⟨[], (List.append_nil _).symm⟩
  rw [announced] at grown
  obtain ⟨closing, said, -⟩ := transcript_eq listener limits b s
  refine ⟨d, _, later, grown, ?_, pausesAt_event rfl d s.world answer, rfl⟩
  rw [said, grown]
  rfl

theorem stands_still (stopping : s.watch.1.stopping = true) : StandsStill listener limits b s := by
  obtain ⟨r, d, stopped, e⟩ := run_stopping listener limits b stopping
  constructor
  · exact ⟨r, congrArg Prod.fst e, stopped⟩
  · exact chronicle_of_stopping listener limits b stopping
  · obtain ⟨_, _, -, e⟩ := run_stopping listener.transcribed limits b
      (s := s.under (s.watch.1, s.watch.2, [])) stopping
    exact congrArg (·.2.watch.2.2) e
  · rw [e]
  · rw [e]
  · rw [e]

end Debugger

/-- Until somebody resets it, a debugger that was told to stop is in the mode for that, whatever
else it is told, and nothing happens in a run. -/
theorem stop_holds_until_reset {cs : List Command} {d : Debugger} (lived : Lived cs d) :
    (StopPending cs →
      d.control.mode = .stopped ∧
      (∀ c, c ≠ .reset → (d.obey c).control.mode = .stopped) ∧
      ∀ {τ : Type} (listener : Listener τ) (limits : Limits) (b : Building)
        (s : Session (Debugger × τ)), s.watch.1 = d → Debugger.StandsStill listener limits b s) ∧
    ∀ before after, cs = before ++ .reset :: after → StopPending before →
      (∀ c ∈ after, c = .reset ∨ c.isEdit = true) →
      d.control.mode = .paused ∧
      ∀ {τ : Type} (listener : Listener τ) (limits : Limits) (b : Building)
        (s : Session (Debugger × τ)), s.watch.1 = d → Debugger.PausesFirst listener limits b s := by
  have regime := lived.regime
  refine ⟨fun pending => ?_, fun before after split stopped edits => ?_⟩
  · rw [pending.governed] at regime
    refine ⟨congrArg Regime.mode regime, fun c noReset => ?_, fun listener limits b s hs => ?_⟩
    · have obeyed := d.regime_obey c
      rw [regime, govern_stopped noReset] at obeyed
      exact congrArg Regime.mode obeyed
    · exact Debugger.stands_still listener limits b (hs ▸ congrArg Regime.stopping regime)
  · rw [split, governed_reset stopped edits] at regime
    refine ⟨congrArg Regime.mode regime, fun listener limits b s hs => ?_⟩
    exact Debugger.pauses_first listener limits b (hs ▸ congrArg Regime.mode regime)
      (hs ▸ congrArg Regime.stopping regime)

theorem stop_holds_until_reset_script :
    let b : Building :=
      { name := "main", body := [.note {} "to begin with", .display {} (.text {} "hello")] }
    let s : Session (Debugger × Script) := ⟨.fresh "main" false, {}, {}, [.stop]⟩
    let d := (Debugger.run Listener.scripted {} b s).2.watch.1
    Lived [.stop] d ∧ StopPending [.stop] ∧ d.control.mode = .stopped ∧
      Debugger.StandsStill Listener.scripted {} b (s.under (d, [])) ∧
      Lived [.stop, .reset] (d.obey .reset) ∧
      Debugger.PausesFirst Listener.scripted {} b (s.under (d.obey .reset, [])) := by
  intro b s d
  have answered : answers (Debugger.attendance Listener.scripted {} b s) = [.stop] := by
    decide +kernel
  have pending : StopPending [.stop] := ⟨[], [], rfl, by simp⟩
  have lived : Lived [.stop] d := by
    rw [← answered]
    exact Lived.ran Listener.scripted {} b (s := s) (.new none false)
  have after : Lived [.stop, .reset] (d.obey .reset) := lived.obeyed .reset
  obtain ⟨mode, -, still⟩ := (stop_holds_until_reset lived).1 pending
  obtain ⟨-, pauses⟩ := (stop_holds_until_reset after).2 [.stop] [] rfl pending nofun
  exact ⟨lived, pending, mode, still _ _ _ _ rfl, after, pauses _ _ _ _ rfl⟩

end Debug

end StepsLang
