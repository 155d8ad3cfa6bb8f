import StepsLang.Proofs.Debug.Protocol
import StepsLang.Proofs.Debug.Stepping

namespace StepsLang

/-- Exactly one of success, a failure and a stop. -/
def Result.Unambiguous (r : Result) : Prop :=
  (r.success = true ∧ r.error = none ∧ r.stopped = false) ∨
    (r.success = false ∧ r.error.isSome ∧ r.stopped = false) ∨
    (r.success = false ∧ r.error = none ∧ r.stopped = true)

instance (r : Result) : Decidable r.Unambiguous := inferInstanceAs (Decidable (_ ∨ _ ∨ _))

def Result.stoppedBy (stopping : Bool) (r : Result) : Result :=
  { r with stopped := stopping || r.stopped }

theorem Result.unambiguous_iff {o : Outcome} {stopping : Bool}
    (stopped : o = .stopped → stopping = true) :
    ((ofOutcome o).stoppedBy stopping).Unambiguous ↔ (stopping = true → o = .stopped) := by
  cases o <;> cases stopping <;> simp_all [Unambiguous, stoppedBy, ofOutcome]

namespace Debug

def Command.stopping (before : Bool) : Command → Bool
  | stop => true
  | reset => false
  | _ => before

def Exchange.stopping (x : Exchange) (before : Bool) : Bool :=
  x.answer.foldl Command.stopping before

/-- Whether a stop is asked for after what a chronicle tells. -/
def stopAsked (before : Bool) : List Entry → Bool
  | [] => before
  | .reached _ _ :: log | .entered _ _ :: log => stopAsked before log
  | .told x :: log => stopAsked (x.stopping before) log

/-- A stop is heeded if it is asked for in a pause, or before a statement is reached. -/
def stopHeeded (asked : Bool) : List Entry → Bool
  | [] => false
  | .reached _ _ :: log => asked || stopHeeded asked log
  | .entered _ _ :: log => stopHeeded asked log
  | .told x :: log =>
    x.event.kind = .paused && x.stopping asked || stopHeeded (x.stopping asked) log

theorem stopAsked_append (before : Bool) (log more : List Entry) :
    stopAsked before (log ++ more) = stopAsked (stopAsked before log) more := by
  induction log generalizing before with
  | nil => rfl
  | cons e log ih => cases e <;> exact ih _

theorem stopHeeded_append (asked : Bool) (log more : List Entry) :
    stopHeeded asked (log ++ more) =
      (stopHeeded asked log || stopHeeded (stopAsked asked log) more) := by
  induction log generalizing asked with
  | nil => rfl
  | cons e log ih => cases e <;> simp [stopHeeded, stopAsked, ih, Bool.or_assoc]

theorem Exchange.stopping_of_noStop {x : Exchange} (noStop : .stop ∉ x.answer) :
    x.stopping false = false := by
  refine List.foldlRecOn (motive := (· = false)) x.answer Command.stopping rfl fun b none c hc => ?_
  cases c with
  | stop => exact absurd hc noStop
  | reset => rfl
  | _ => exact none

theorem stopHeeded_of_pauses {log : List Entry}
    (noStop : ∀ x, .told x ∈ log → x.event.kind ≠ .paused → .stop ∉ x.answer)
    (asked : stopAsked false log = true) : stopHeeded false log = true := by
  induction log with
  | nil => cases asked
  | cons e log ih =>
    have later := ih fun x hx => noStop x (List.mem_cons_of_mem e hx)
    cases e with
    | reached st env => exact later asked
    | entered name env => exact later asked
    | told x =>
      cases stops : x.stopping false with
      | false =>
        rw [stopAsked, stops] at asked
        rw [stopHeeded, stops]
        simpa using later asked
      | true =>
        have paused : x.event.kind = .paused := by_contra fun other => by
          rw [Exchange.stopping_of_noStop (noStop x (.head _) other)] at stops
          cases stops
        simp [stopHeeded, paused, stops]

namespace Debugger

theorem stopping_obey (d : Debugger) (c : Command) :
    (d.obey c).stopping = Command.stopping d.stopping c := by
  cases c <;> simp only [obey] <;> (try split) <;> simp [Command.stopping]

theorem stopping_answer (d : Debugger) (cs : List Command) :
    (cs.foldl obey d).stopping = cs.foldl Command.stopping d.stopping :=
  (List.foldl_hom stopping fun d c => (stopping_obey d c).symm).symm

/-- What a run writes into its chronicle between two moments accounts for its stop, unless it is
left waiting in a pause. -/
structure Judged (x : Debugger × τ × List Entry) (o : Outcome) (y : Debugger × τ × List Entry)
    (log : List Entry) : Prop where
  grown : y.2.2 = x.2.2 ++ log
  asked : y.1.stopping = stopAsked x.1.stopping log
  waiting : y.1.waiting = false → x.1.waiting = false
  heeded : y.1.waiting = false → (o = .stopped ↔ stopHeeded x.1.stopping log = true)
  stopped : y.1.waiting = false → o = .stopped → y.1.stopping = true

namespace Judged

variable {x y z : Debugger × τ × List Entry} {o p : Outcome} {log more : List Entry}

theorem refl (ho : o ≠ .stopped) : Judged x o x [] where
  grown := (List.append_nil _).symm
  asked := rfl
  waiting := id
  heeded := fun _ => ⟨fun stop => absurd stop ho, nofun⟩
  stopped := fun _ stop => absurd stop ho

theorem trans (h : Judged x o y log) (ho : o ≠ .stopped) (h' : Judged y p z more) :
    Judged x p z (log ++ more) where
  grown := by rw [h'.grown, h.grown, List.append_assoc]
  asked := by rw [h'.asked, h.asked, stopAsked_append]
  waiting goesOn := h.waiting (h'.waiting goesOn)
  heeded goesOn := by
    have unheeded := Bool.eq_false_iff.2 (mt (h.heeded (h'.waiting goesOn)).2 ho)
    rw [stopHeeded_append, ← h.asked, unheeded, Bool.false_or]
    exact h'.heeded goesOn
  stopped := h'.stopped

variable (listener : Listener τ)

theorem of_emit {kind : EventKind} (other : kind ≠ .paused) (message : Bytes) (env : Environment)
    (w : World) (x : Debugger × τ × List Entry) :
    ∃ log, Judged x .normal (emit listener.noted kind message env w x) log := by
  obtain ⟨d, t, log⟩ := x
  rw [emit_noted]
  split
  · exact ⟨[], refl Outcome.noConfusion⟩
  · refine ⟨_, rfl, stopping_answer _ _, fun goesOn => ?_, fun _ => ?_, fun _ => nofun⟩
    · exact (waiting_foldl (d.looked env w) _).symm.trans goesOn
    · simp [stopHeeded, event, other]

theorem of_pause (st : Statement) (path : Bytes) (env : Environment) (w : World) (d : Debugger)
    (t : τ) (log : List Entry) (running : d.stopping = false) :
    let r := pause listener.noted path st.location.line env w { d with depth := env.depth }
      (t, log ++ [.reached st env])
    ∃ new, Judged (d, t, log) (if r.1 then .normal else .stopped) r.2 new := by
  have running' : { d with depth := env.depth }.stopping = false := running
  simp only [pause_noted listener path _ env w _ t _ running']
  generalize start : { d with depth := env.depth }.halted path st.location.line = halted
  generalize answered : listener (halted.event .paused [] env w) w (halted.looked env w) t = r
  have fresh : (halted.looked env w).stopping = false := by
    rw [← start]
    exact (stopping_log _ _).trans running
  have waits : (halted.looked env w).waiting = d.waiting := by
    rw [← start]
    exact waiting_log _ _
  have asked := stopping_answer (halted.looked env w) r.1
  rw [fresh] at asked
  split
  · refine ⟨_, List.append_assoc _ _ _, ?_, fun goesOn => ?_, fun _ => ?_, fun _ => ?_⟩
    · simpa [stopAsked, running, Exchange.stopping] using asked
    · exact waits.symm.trans ((waiting_foldl _ _).symm.trans goesOn)
    · simp [stopHeeded, running, Exchange.stopping, event, asked]
    · simp
  · exact ⟨_, List.append_assoc _ _ _,
      by simpa [stopAsked, running, Exchange.stopping] using asked, nofun, nofun, nofun⟩

theorem of_before (st : Statement) (env : Environment) (w : World)
    (x : Debugger × τ × List Entry) :
    let r := before listener.noted st env w (note (.reached st env) x)
    ∃ log, Judged x (if r.1 then .normal else .stopped) r.2 log := by
  obtain ⟨d, t, log⟩ := x
  dsimp only [note]
  rw [before_eq]
  by_cases stopping : d.stopping = true
  · rw [if_pos stopping]
    exact ⟨_, rfl, rfl, id, fun _ => by simp [stopHeeded, stopping], fun _ _ => stopping⟩
  · rw [if_neg stopping]
    split
    · exact of_pause listener st _ env w d t log (Bool.eq_false_iff.2 stopping)
    · exact ⟨_, rfl, rfl, id, fun _ => by simp [stopHeeded, stopping], fun _ => nofun⟩

end Judged

variable (listener : Listener τ)

theorem judged_watched :
    Watched (chronicler listener) fun x o y => ∃ log, Judged x o y log where
  refl := fun ho => ⟨[], .refl ho⟩
  trans := fun ⟨_, first⟩ ho ⟨_, second⟩ => ⟨_, first.trans ho second⟩
  before := fun st env w x _ => Judged.of_before listener st env w x
  onCall := fun name env w x => by
    obtain ⟨log, told⟩ := Judged.of_emit listener (by decide : EventKind.called ≠ .paused) name env w
      (note (.entered name env) x)
    have entered : Judged x .normal (note (.entered name env) x) [.entered name env] :=
      ⟨rfl, rfl, id, fun _ => by simp [stopHeeded], fun _ => nofun⟩
    exact ⟨_, entered.trans nofun told⟩
  onReturn := fun name env w x => Judged.of_emit listener (by decide) name env w x

theorem chronicler_echoes :
    Follower (SameDebugger fun (t : τ) (u : τ × List Entry) => u.1 = t) (fun _ => True)
      (chronicler listener) (observer listener) :=
  echo_follows (by rintro event w d t u rfl; exact ⟨rfl, rfl⟩)
    (fun st env => note (.reached st env)) (fun name env => note (.entered name env))
    (fun _ _ _ _ same => same) (fun _ _ _ _ same => same)

variable (limits : Limits) (b : Building) (s : Session (Debugger × τ))

def verdict (d : Debugger) (r : Result) : Option Result :=
  if d.waiting then none else some (r.stoppedBy d.stopping)

theorem run_verdict :
    (run listener limits b s).1 =
      let r := (opened b s).runBuilding (observer listener) limits b
      r.2.watch.1.verdict r.1 := by
  rw [run_eq]
  unfold verdict
  dsimp only
  split
  · rfl
  · split
    · next stopping => simp [Result.stoppedBy, stopping]
    · next running => simp [Result.stoppedBy, running]

theorem chronicle_judged :
    ∃ o y, Judged (s.watch.1.started b, s.watch.2, []) o y (chronicle listener limits b s) ∧
      (run listener limits b s).1 = y.1.verdict (Result.ofOutcome o) := by
  obtain ⟨y, same, e⟩ := (chronicler_echoes listener).runBlock limits b.body (opened b s)
    (y := (s.watch.1.started b, s.watch.2, [])) ⟨rfl, rfl⟩ trivial
  obtain ⟨log, judged⟩ := (judged_watched listener).performBlock limits b.body
    ((opened b s).under (s.watch.1.started b, s.watch.2, []))
  have grown : chronicle listener limits b s = log := judged.grown
  have result := congrArg Prod.fst e
  have watch := congrArg (·.2.watch) e
  refine ⟨_, y, watch ▸ grown ▸ judged, ?_⟩
  rw [run_verdict, same.1]
  exact congrArg (verdict _) result.symm

/-- A result names exactly one of success, a failure and a stop, unless a stop was asked for that
nothing in the run could heed any more. -/
theorem unambiguous_result {r : Result} (ended : (run listener limits b s).1 = some r) :
    let log := chronicle listener limits b s
    let before := s.watch.1.stopping
    (r.stopped = true ↔ stopAsked before log = true) ∧
      (r.success = false ∧ r.error = none ↔ stopHeeded before log = true) ∧
      (r.success = true → r.error = none) ∧
      (r.Unambiguous ↔ (stopAsked before log = true → stopHeeded before log = true)) ∧
      (before = false →
        (∀ x, .told x ∈ log → x.event.kind ≠ .paused → .stop ∉ x.answer) → r.Unambiguous) := by
  intro log before
  obtain ⟨o, y, judged, verdict⟩ := chronicle_judged listener limits b s
  have begun : (s.watch.1.started b).stopping = before := stopping_log _ _
  rw [ended, Debugger.verdict] at verdict
  cases goesOn : y.1.waiting with
  | true => rw [goesOn, if_pos rfl] at verdict; cases verdict
  | false =>
    rw [goesOn, if_neg nofun] at verdict
    obtain rfl := Option.some.inj verdict
    have asked : y.1.stopping = stopAsked before log := begun ▸ judged.asked
    have heeded : o = .stopped ↔ stopHeeded before log = true := begun ▸ judged.heeded goesOn
    have stopped := judged.stopped goesOn
    have unambiguous := Result.unambiguous_iff stopped
    rw [asked, heeded] at unambiguous
    refine ⟨?_, ?_, ?_, asked ▸ unambiguous, fun fresh noStop => asked ▸ unambiguous.2 ?_⟩
    · rw [← asked]
      cases o <;> simp_all [Result.stoppedBy, Result.ofOutcome]
    · rw [← heeded]
      cases o <;> simp [Result.stoppedBy, Result.ofOutcome]
    · cases o <;> simp [Result.stoppedBy, Result.ofOutcome]
    · rw [fresh]
      exact stopHeeded_of_pauses noStop

def stoppingAt (kind : EventKind) : Listener Unit := fun event _ _ _ =>
  (if event.kind = kind then [.stop] else if event.kind = .paused then [.proceed] else [], ())

theorem unambiguous_result_heeded :
    let b : Building := { name := "main", body := [.call {} "greet" [] none] }
    let env := (Environment.fresh "main" false).addStep
      { name := "greet", body := [.display {} (.text {} "hello")] }
    let s : Session (Debugger × Unit) := ⟨env, {}, {}, ()⟩
    (∃ r, (run (stoppingAt .paused) {} b s).1 = some r ∧ s.watch.1.stopping = false ∧
      (∀ x, .told x ∈ chronicle (stoppingAt .paused) {} b s →
        x.event.kind ≠ .paused → .stop ∉ x.answer) ∧ r.Unambiguous) ∧
      ∃ r, (run (stoppingAt .called) {} b s).1 = some r ∧ r.stopped = true ∧ r.Unambiguous := by
  intro b env s
  have paused : (run (stoppingAt .paused) {} b s).1 = some { stopped := true } := by decide +kernel
  have called : (run (stoppingAt .called) {} b s).1 = some { stopped := true } := by decide +kernel
  have noStop : ∀ x ∈ (chronicle (stoppingAt .paused) {} b s).filterMap Entry.exchange?,
      x.event.kind ≠ .paused → .stop ∉ x.answer := by decide +kernel
  have noStop := fun x told => noStop x (mem_exchanges.2 told)
  obtain ⟨-, -, -, -, noDoubt⟩ := unambiguous_result _ _ _ _ paused
  obtain ⟨-, -, -, unambiguous, -⟩ := unambiguous_result _ _ _ _ called
  exact ⟨⟨_, paused, rfl, noStop, noDoubt rfl noStop⟩, _, called, rfl,
    unambiguous.2 fun _ => by decide +kernel⟩

/-- A stop that is asked for when the last step returns comes too late: the run succeeded, and is
said to have been stopped as well. -/
theorem late_stop_ambiguous :
    let b : Building := { name := "main", body := [.call {} "greet" [] none] }
    let env := (Environment.fresh "main" false).addStep
      { name := "greet", body := [.display {} (.text {} "hello")] }
    let s : Session (Debugger × Unit) := ⟨env, {}, {}, ()⟩
    ∃ r, (run (stoppingAt .returned) {} b s).1 = some r ∧ r.success = true ∧ r.stopped = true ∧
      ¬ r.Unambiguous := by
  decide +kernel

end Debugger

end Debug

end StepsLang
