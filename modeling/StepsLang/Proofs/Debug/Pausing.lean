import StepsLang.Proofs.Debug.Regime
import StepsLang.Proofs.Debug.Verdict
import StepsLang.Proofs.List

namespace StepsLang.Debug

/-- A command of some kind was given, and no reset after it. -/
def Outstanding (kind : Command → Bool) (cs : List Command) : Prop :=
  ∃ before c after, cs = before ++ c :: after ∧ kind c = true ∧ .reset ∉ after

/-- Somebody asked for the run to go on or for a stop, and nobody for a reset since. -/
def PauseEnds (cs : List Command) : Prop := Outstanding Command.endsPause cs

namespace Outstanding

variable {kind : Command → Bool} {cs : List Command} {c : Command}

theorem nil : ¬ Outstanding kind [] := by simp [Outstanding]

theorem concat : Outstanding kind (cs ++ [c]) ↔
    kind c = true ∨ c ≠ .reset ∧ Outstanding kind cs := by
  constructor
  · rintro ⟨before, d, after, split, hd, noReset⟩
    obtain ⟨more, rfl, rfl⟩ | ⟨more, -, last⟩ := append_eq_append_cons split
    · rw [List.mem_append, not_or] at noReset
      exact .inr ⟨fun reset => noReset.2 (by simp [reset]), before, d, more, rfl, hd, noReset.1⟩
    · obtain rfl : d = c := List.mem_singleton.1 (last ▸ by simp)
      exact .inl hd
  · rintro (hc | ⟨other, before, d, after, rfl, hd, noReset⟩)
    · exact ⟨cs, c, [], rfl, hc, by simp⟩
    · refine ⟨before, d, after ++ [c], by simp, hd, ?_⟩
      simpa using ⟨noReset, other.symm⟩

end Outstanding

theorem stopPending_iff (cs : List Command) :
    StopPending cs ↔ Outstanding (· = .stop) cs := by
  constructor
  · rintro ⟨before, after, rfl, noReset⟩
    exact ⟨before, .stop, after, rfl, rfl, noReset⟩
  · rintro ⟨before, c, after, rfl, stop, noReset⟩
    obtain rfl := of_decide_eq_true stop
    exact ⟨before, after, rfl, noReset⟩

namespace Debugger

def released (d : Debugger) : Bool := d.resumed || d.stopping

theorem released_obey (d : Debugger) (c : Command) :
    (d.obey c).released = (c.endsPause || (c ≠ .reset && d.released)) := by
  cases c with
  | resume m =>
    simp only [obey, released, Command.endsPause]
    split
    · next stopping => simp [stopping]
    · simp
  | select m =>
    simp only [obey, released, Command.endsPause]
    split <;> simp
  | _ => simp [obey, released, Command.endsPause]

@[simp] theorem paused_log (d : Debugger) (text : Bytes) : (d.log text).paused = d.paused := by
  unfold log; split <;> rfl

theorem paused_obey (d : Debugger) (c : Command) : (d.obey c).paused = d.paused := by
  cases c <;> simp only [obey] <;> (try split) <;> simp

theorem paused_foldl (d : Debugger) (cs : List Command) : (cs.foldl obey d).paused = d.paused :=
  List.foldlRecOn (motive := (·.paused = d.paused)) cs obey rfl fun _ same c _ =>
    (paused_obey _ c).trans same

/-- A debugger in a pause, when these commands were given since it was told.  It says that it is
paused, and it knows whether somebody has ended the pause, and whether a stop is pending. -/
structure Held (cs : List Command) (d : Debugger) : Prop where
  paused : d.paused = true
  waiting : d.waiting = false
  released : d.released = true ↔ PauseEnds cs
  stopping : d.stopping = true ↔ StopPending cs

namespace Held

variable {cs : List Command} {d : Debugger}

theorem obeyed (h : Held cs d) (c : Command) : Held (cs ++ [c]) (d.obey c) where
  paused := (paused_obey d c).trans h.paused
  waiting := (waiting_obey d c).trans h.waiting
  released := by
    rw [released_obey, PauseEnds, Outstanding.concat, ← PauseEnds, ← h.released]
    simp
  stopping := by
    rw [stopping_obey, stopPending_iff, Outstanding.concat, ← stopPending_iff, ← h.stopping]
    cases c <;> simp [Command.stopping]

theorem foldl (h : Held [] d) (cs : List Command) : Held cs (cs.foldl obey d) := by
  induction cs using List.reverseRecOn with
  | nil => exact h
  | append_singleton cs c ih =>
    rw [List.foldl_concat]
    exact ih.obeyed c

end Held

end Debugger

structure Debugger.Halts (d : Debugger) (st : Statement) (env : Environment) : Prop where
  running : d.stopping = false
  asks : d.control.pausesAt (pathOf d.sources st.location) st.location.line env.depth = true

/-- A debugger that is asked about a statement: what it is like then, what is said about it and by
whom, what it replies, and what it is like afterwards.  There is no reply as long as it waits in a
pause. -/
structure Visit where
  statement : Statement
  env : Environment
  asked : Debugger
  said : List (Debugger × Exchange)
  reply : Option Bool
  left : Debugger

namespace Visit

/-- What becomes of a pause that the debugger `d` tells of: it is held whatever it is told, until
somebody has ended the pause, and then it goes on unless a stop is pending. -/
structure Ends (v : Visit) (d : Debugger) (x : Exchange) : Prop where
  kind : x.event.kind = .paused
  meanwhile : ∀ cs, cs <+: x.answer → Debugger.Held cs (cs.foldl Debugger.obey d)
  reply : ∀ go, v.reply = some go ↔ PauseEnds x.answer ∧ (go = true ↔ ¬ StopPending x.answer)
  left : v.left.paused = true ↔ v.reply = none

structure Sound (v : Visit) : Prop where
  asked : v.asked.paused = false
  pauses : v.asked.Halts v.statement v.env → ∃ d x, v.said = [(d, x)] ∧ v.Ends d x
  passes : ¬ v.asked.Halts v.statement v.env →
    v.said = [] ∧ v.reply = some (!v.asked.stopping) ∧ v.left.paused = false

end Visit

namespace Debugger

structure Free (d : Debugger) : Prop where
  paused : d.paused = false
  waiting : d.waiting = false

def resolve (d : Debugger) : Bool × Debugger :=
  if d.released then (!d.stopping, { d with paused := false })
  else (false, { d with waiting := true })

@[simp] theorem resolve_go (d : Debugger) : d.resolve.1 = (d.released && !d.stopping) := by
  unfold resolve
  cases d.released <;> rfl

@[simp] theorem resolve_paused (d : Debugger) :
    d.resolve.2.paused = (d.paused && !d.released) := by
  unfold resolve
  cases d.released <;> simp

@[simp] theorem resolve_waiting (d : Debugger) :
    d.resolve.2.waiting = (d.waiting || !d.released) := by
  unfold resolve
  cases d.released <;> simp

theorem pause_resolve (listener : Listener τ) (path : Bytes) (line : Nat) (env : Environment)
    (w : World) (d : Debugger) (t : τ) :
    pause listener path line env w d t =
      let r := emit listener .paused [] env w (d.halted path line, t)
      (r.1.resolve.1, r.1.resolve.2, r.2) := by
  rw [pause_eq]
  generalize emit listener .paused [] env w (d.halted path line, t) = r
  cases released : r.1.resumed || r.1.stopping <;> simp [resolve, Debugger.released, released]

theorem before_pauses (listener : Listener τ) {st : Statement} {env : Environment} (w : World)
    {d : Debugger} (free : d.Free) (t : τ) (log : List (Debugger × Exchange))
    (halts : d.Halts st env) :
    ∃ (told : Debugger) (x : Exchange) (t' : τ), Held [] told ∧ x.event.kind = .paused ∧
      before listener.attended st env w (d, t, log) =
        let now := x.answer.foldl obey told
        (now.resolve.1, now.resolve.2, t', log ++ [(told, x)]) := by
  rw [before_eq, if_neg (Bool.eq_false_iff.1 halts.running), if_pos halts.asks, pause_resolve,
    emit_eq, if_neg (by simp [halted, halts.running])]
  refine ⟨_, ⟨_, _⟩, _, ⟨?_, ?_, ?_, ?_⟩, rfl, rfl⟩
  · simp [looked, halted]
  · simp [looked, halted, free.waiting]
  · simp [looked, halted, released, halts.running, PauseEnds, Outstanding.nil]
  · simp [looked, halted, halts.running, stopPending_iff, Outstanding.nil]

def visit (d : Debugger) (st : Statement) (env : Environment) (log : List (Debugger × Exchange))
    (r : Bool × Debugger × τ × List (Debugger × Exchange)) : Visit :=
  { statement := st, env, asked := d, said := r.2.2.2.drop log.length,
    reply := if r.2.1.waiting then none else some r.1, left := r.2.1 }

theorem before_passes (listener : Listener τ) {st : Statement} {env : Environment} (w : World)
    {d : Debugger} (t : τ) (passes : ¬ d.Halts st env) :
    ∃ depth, before listener st env w (d, t) = (!d.stopping, { d with depth }, t) := by
  rw [before_eq]
  by_cases stopping : d.stopping = true
  · rw [if_pos stopping]
    exact ⟨d.depth, Prod.ext (by simp [stopping]) rfl⟩
  · rw [if_neg stopping, if_neg fun asks => passes ⟨Bool.eq_false_iff.2 stopping, asks⟩]
    exact ⟨env.depth, Prod.ext (by simp [stopping]) rfl⟩

theorem sound_visit (listener : Listener τ) (st : Statement) (env : Environment) (w : World)
    {d : Debugger} (free : d.Free) (t : τ) (log : List (Debugger × Exchange)) :
    (d.visit st env log (before listener.attended st env w (d, t, log))).Sound := by
  refine ⟨free.paused, fun (halts : d.Halts st env) => ?_,
    fun (passes : ¬ d.Halts st env) => ?_⟩
  · obtain ⟨told, x, t', held, kind, e⟩ := before_pauses listener w free t log halts
    have now := held.foldl x.answer
    rw [e]
    refine ⟨told, x, by simp [visit], kind, fun cs _ => held.foldl cs, fun go => ?_, ?_⟩
    · rw [← now.released, ← now.stopping]
      cases released : (x.answer.foldl obey told).released with
      | true => cases go <;> simp [visit, now.waiting, released]
      | false => simp [visit, released]
    · simp [visit, now.paused, now.waiting]
  · obtain ⟨depth, e⟩ := before_passes listener.attended w (t, log) passes
    rw [e]
    simp [visit, free.waiting, free.paused]

structure Aside (x y : Debugger × τ × List (Debugger × Exchange))
    (said : List (Debugger × Exchange)) : Prop where
  log : y.2.2 = x.2.2 ++ said
  kind : ∀ p ∈ said, p.2.event.kind ≠ .paused
  throughout : ∀ p ∈ said, p.1.paused = x.1.paused
  paused : y.1.paused = x.1.paused
  waiting : y.1.waiting = x.1.waiting

namespace Aside

variable {x y z : Debugger × τ × List (Debugger × Exchange)}
  {said more : List (Debugger × Exchange)}

theorem refl (x : Debugger × τ × List (Debugger × Exchange)) : Aside x x [] :=
  ⟨(List.append_nil _).symm, by simp, by simp, rfl, rfl⟩

theorem trans (h : Aside x y said) (h' : Aside y z more) : Aside x z (said ++ more) where
  log := by rw [h'.log, h.log, List.append_assoc]
  kind := List.forall_mem_append.2 ⟨h.kind, h'.kind⟩
  throughout :=
    List.forall_mem_append.2 ⟨h.throughout, fun p hp => (h'.throughout p hp).trans h.paused⟩
  paused := h'.paused.trans h.paused
  waiting := h'.waiting.trans h.waiting

theorem of_emit (listener : Listener τ) {kind : EventKind} (other : kind ≠ .paused)
    (message : Bytes) (env : Environment) (w : World)
    (x : Debugger × τ × List (Debugger × Exchange)) :
    ∃ said, Aside x (emit listener.attended kind message env w x) said := by
  obtain ⟨d, t, log⟩ := x
  rw [emit_eq]
  split
  · exact ⟨[], refl _⟩
  · refine ⟨[_], rfl, ?_, ?_, ?_, ?_⟩
    · exact List.forall_mem_singleton.2 other
    · exact List.forall_mem_singleton.2 rfl
    · exact paused_foldl (d.looked env w) _
    · exact waiting_foldl (d.looked env w) _

theorem of_conclude (listener : Listener τ) (r : Result) (env : Environment) (w : World)
    (x : Debugger × τ × List (Debugger × Exchange)) :
    ∃ said, Aside x (conclude listener.attended r env w x) said := by
  unfold conclude
  cases r.error with
  | none => exact of_emit listener (by decide : EventKind.finished ≠ .paused) [] env w x
  | some report =>
    obtain ⟨_, failed⟩ := of_emit listener (by decide : EventKind.failed ≠ .paused)
      (report.format x.1.sources) env w x
    obtain ⟨_, finished⟩ :=
      of_emit listener (by decide : EventKind.finished ≠ .paused) [] env w _
    exact ⟨_, failed.trans finished⟩

theorem of_settle (listener : Listener τ) (r : Result)
    (t : Session (Debugger × τ × List (Debugger × Exchange))) :
    ∃ said, Aside t.watch (settle listener.attended r t).2.watch said ∧
      (t.watch.1.waiting = true → said = []) ∧
      ((settle listener.attended r t).1 = none ↔ t.watch.1.waiting = true) := by
  by_cases waits : t.watch.1.waiting = true
  · rw [settle_waiting _ r waits]
    exact ⟨[], refl _, fun _ => rfl, by simp [waits]⟩
  by_cases stopping : t.watch.1.stopping = true
  · rw [settle_stopping _ r waits stopping]
    refine ⟨[], ⟨(List.append_nil _).symm, by simp, by simp, ?_, ?_⟩, fun _ => rfl, by simp [waits]⟩
    · exact paused_log _ _
    · exact waiting_log _ _
  · rw [settle_running _ r waits stopping]
    obtain ⟨said, aside⟩ := of_conclude listener r t.env t.world
      ({ t.watch.1 with running := false }, t.watch.2)
    exact ⟨said, ⟨aside.log, aside.kind, aside.throughout, aside.paused, aside.waiting⟩,
      fun left => absurd left waits, by simp [waits]⟩

end Aside

abbrev Recorded (τ : Type) := Debugger × (τ × List (Debugger × Exchange)) × List Visit

def Recorded.tell (listener : Listener τ) (kind : EventKind) (name : Bytes) (env : Environment)
    (w : World) (x : Recorded τ) : Recorded τ :=
  let y := emit listener.attended kind name env w (x.1, x.2.1)
  (y.1, y.2, x.2.2)

/-- The observer that also keeps a record of all visits. -/
def visitor (listener : Listener τ) : Observer (Recorded τ) where
  before st env w x :=
    let r := before listener.attended st env w (x.1, x.2.1)
    (r.1, r.2.1, r.2.2, x.2.2 ++ [x.1.visit st env x.2.1.2 r])
  onCall name env w x := x.tell listener .called name env w
  onReturn name env w x := x.tell listener .returned name env w

/-- What is said between two moments of a run, and by whom.  Pauses are told in visits only, and
the debugger is paused when it tells of one and at no other time; if nothing comes of a visit, the
debugger is left waiting in it. -/
structure Account (x : Recorded τ) (o : Outcome) (y : Recorded τ)
    (said : List (Debugger × Exchange)) (visits : List Visit) : Prop where
  log : y.2.1.2 = x.2.1.2 ++ said
  record : y.2.2 = x.2.2 ++ visits
  sound : ∀ v ∈ visits, v.Sound
  told : said.filter (·.2.event.kind = .paused) = visits.flatMap (·.said)
  throughout : ∀ p ∈ said, p.1.paused = true ↔ p.2.event.kind = .paused
  last : ∀ {earlier v later}, visits = earlier ++ v :: later → v.reply = none → later = []
  waiting : y.1.waiting = true ↔ ∃ v ∈ visits, v.reply = none
  paused : y.1.paused = y.1.waiting
  stopped : y.1.waiting = true → o = .stopped

namespace Account

variable {x y z : Recorded τ} {o p : Outcome} {said more : List (Debugger × Exchange)}
  {visits others : List Visit}

theorem free (h : Account x o y said visits) (ho : o ≠ .stopped) : y.1.Free := by
  have goesOn := Bool.eq_false_iff.2 (mt h.stopped ho)
  exact ⟨h.paused.trans goesOn, goesOn⟩

theorem trans (h : Account x o y said visits) (ho : o ≠ .stopped)
    (h' : Account y p z more others) : Account x p z (said ++ more) (visits ++ others) where
  log := by rw [h'.log, h.log, List.append_assoc]
  record := by rw [h'.record, h.record, List.append_assoc]
  sound := List.forall_mem_append.2 ⟨h.sound, h'.sound⟩
  told := by rw [List.filter_append, List.flatMap_append, h.told, h'.told]
  throughout := List.forall_mem_append.2 ⟨h.throughout, h'.throughout⟩
  last := by
    -- A visit without a reply is not in the first part, since that would have been stopped then.
    intro earlier v later split none
    obtain ⟨_, front, -⟩ | ⟨_, -, back⟩ := append_eq_append_cons split
    · exact absurd (h.stopped (h.waiting.2 ⟨v, by simp [front], none⟩)) ho
    · exact h'.last back none
  waiting := by
    have replied : ¬ ∃ v ∈ visits, v.reply = none := fun none => ho (h.stopped (h.waiting.2 none))
    rw [h'.waiting]
    simp only [List.mem_append, or_and_right, exists_or, replied, false_or]
  paused := h'.paused
  stopped := h'.stopped

theorem of_aside (free : x.1.Free) (h : Aside (x.1, x.2.1) (y.1, y.2.1) said)
    (record : y.2.2 = x.2.2) (o : Outcome) : Account x o y said [] := by
  have goesOn : y.1.waiting = false := h.waiting.trans free.waiting
  have unpaused : y.1.paused = false := h.paused.trans free.paused
  exact
    { log := h.log
      record := by rw [record, List.append_nil]
      sound := by simp
      told := by simpa using h.kind
      throughout := fun p hp => by simp [h.throughout p hp, free.paused, h.kind p hp]
      last := by simp
      waiting := by simp [goesOn]
      paused := by rw [unpaused, goesOn]
      stopped := by simp [goesOn] }

theorem refl (free : x.1.Free) (o : Outcome) : Account x o x [] [] :=
  of_aside free (.refl _) rfl o

theorem of_tell (listener : Listener τ) {kind : EventKind} (other : kind ≠ .paused) (name : Bytes)
    (env : Environment) (w : World) (free : x.1.Free) :
    ∃ said visits, Account x .normal (x.tell listener kind name env w) said visits := by
  obtain ⟨said, aside⟩ := Aside.of_emit listener other name env w (x.1, x.2.1)
  exact ⟨said, [], of_aside (y := x.tell listener kind name env w) free aside rfl .normal⟩

theorem of_one {v : Visit} (log : y.2.1.2 = x.2.1.2 ++ v.said) (record : y.2.2 = x.2.2 ++ [v])
    (sound : v.Sound)
    (said : ∀ p ∈ v.said, p.1.paused = true ∧ p.2.event.kind = .paused)
    (waiting : y.1.waiting = true ↔ v.reply = none) (paused : y.1.paused = y.1.waiting)
    (stopped : y.1.waiting = true → o = .stopped) : Account x o y v.said [v] := by
  refine ⟨log, record, List.forall_mem_singleton.2 sound, ?_, ?_, ?_, ?_, paused, stopped⟩
  · rw [List.flatMap_singleton]
    exact List.filter_eq_self.2 fun p hp => decide_eq_true (said p hp).2
  · exact fun p hp => iff_of_true (said p hp).1 (said p hp).2
  · intro earlier _ later split _
    cases earlier with
    | nil => exact (List.cons.inj split).2.symm
    | cons _ earlier => simp at split
  · simpa using waiting

theorem of_visit (listener : Listener τ) (st : Statement) (env : Environment) (w : World)
    (free : x.1.Free) :
    let r := (visitor listener).before st env w x
    ∃ said visits, Account x (if r.1 then .normal else .stopped) r.2 said visits := by
  obtain ⟨d, ⟨t, log⟩, record⟩ := x
  replace free : d.Free := free
  have sound := sound_visit listener st env w free t log
  dsimp only [visitor]
  by_cases halts : d.Halts st env
  · obtain ⟨told, x, t', held, kind, e⟩ := before_pauses listener w free t log halts
    have now := held.foldl x.answer
    rw [e] at sound ⊢
    refine ⟨_, _, of_one ?_ rfl sound ?_ ?_ ?_ ?_⟩
    · simp [visit]
    · simp [visit, held.paused, kind]
    · simp [visit, now.waiting]
    · simp [now.paused, now.waiting]
    · simp +contextual [now.waiting]
  · obtain ⟨depth, e⟩ := before_passes listener.attended w (t, log) halts
    rw [e] at sound ⊢
    refine ⟨_, _, of_one ?_ rfl sound ?_ ?_ ?_ ?_⟩
    · simp [visit]
    · simp [visit]
    · simp [visit, free.waiting]
    · simp [free.waiting, free.paused]
    · simp [free.waiting]

end Account

variable (listener : Listener τ)

theorem account_watched : Watched (visitor listener) fun x o y =>
    x.1.Free → ∃ said visits, Account x o y said visits where
  refl := fun _ free => ⟨[], [], .refl free _⟩
  trans := by
    intro x y z o p first ho second free
    obtain ⟨_, _, early⟩ := first free
    obtain ⟨_, _, late⟩ := second (early.free ho)
    exact ⟨_, _, early.trans ho late⟩
  before := fun st env w _ _ free => Account.of_visit listener st env w free
  onCall := fun name env w _ => Account.of_tell listener (by decide) name env w
  onReturn := fun name env w _ => Account.of_tell listener (by decide) name env w

theorem visitor_follows :
    Follower (fun x (y : Recorded τ) => x = (y.1, y.2.1)) (fun _ => True) (visitor listener)
      (observer listener.attended) where
  ends := fun _ => trivial
  goOn := by
    rintro st env w _ y rfl go
    exact ⟨go, rfl⟩
  stop := by
    rintro - st env w _ y rfl halt
    exact ⟨halt, rfl⟩
  onCall := by
    rintro name env w _ y rfl
    rfl
  onReturn := by
    rintro name env w _ y rfl
    rfl

variable (limits : Limits) (b : Building) (s : Session (Debugger × τ))

def recording : Session (Recorded τ) :=
  (opened b s).under (s.watch.1.started b, (s.watch.2, []), [])

def recorded : Recorded τ := ((recording b s).runBuilding (visitor listener) limits b).2.watch

/-- All visits to the debugger in the course of a run. -/
def visits : List Visit := (recorded listener limits b s).2.2

/-- How a run deals with its pauses.  Every visit is sound.  Pauses are told in visits only, and
when it tells of one the debugger is paused, and at no other time.  A visit from which nothing comes
is the last one, and as long as it lasts the run has no result. -/
structure KeepsPauses : Prop where
  sound : ∀ v ∈ visits listener limits b s, v.Sound
  told : (attendance listener limits b s).filter (·.2.event.kind = .paused) =
    (visits listener limits b s).flatMap (·.said)
  throughout : ∀ p ∈ attendance listener limits b s,
    p.1.paused = true ↔ p.2.event.kind = .paused
  last : ∀ {earlier v later}, visits listener limits b s = earlier ++ v :: later →
    v.reply = none → later = []
  waits : (run listener limits b s).1 = none ↔ ∃ v ∈ visits listener limits b s, v.reply = none
  paused : (run listener limits b s).2.watch.1.paused = true ↔ (run listener limits b s).1 = none

theorem account_recorded (unpaused : s.watch.1.paused = false) :
    ∃ o, Account (recording b s).watch o (recorded listener limits b s)
      (recorded listener limits b s).2.1.2 (visits listener limits b s) := by
  have free : (recording b s).watch.1.Free :=
    ⟨(paused_log _ _).trans unpaused, waiting_log _ _⟩
  obtain ⟨said, visited, body⟩ :=
    (account_watched listener).performBlock limits b.body (recording b s) free
  obtain rfl : (recorded listener limits b s).2.1.2 = said := body.log
  obtain rfl : visits listener limits b s = visited := body.record
  exact ⟨_, body⟩

theorem run_recorded :
    let z := recorded listener limits b s
    ∃ closing, Aside (z.1, z.2.1)
        ((run listener limits b s).2.watch.1, (run listener limits b s).2.watch.2,
          attendance listener limits b s) closing ∧
      (z.1.waiting = true → closing = []) ∧
      ((run listener limits b s).1 = none ↔ z.1.waiting = true) := by
  intro z
  let attended := s.under (s.watch.1, s.watch.2, ([] : List (Debugger × Exchange)))
  let r := (opened b attended).runBuilding (observer listener.attended) limits b
  -- The body is the same with and without a record of visits, and so is what the run adds to it.
  have body : r.2.watch = (z.1, z.2.1) := by
    obtain ⟨y, same, e⟩ := (visitor_follows listener).runBlock limits b.body (opened b attended)
      (y := (recording b s).watch) rfl trivial
    obtain rfl : z = y := congrArg (·.2.watch) e
    exact same
  obtain ⟨closing, aside, silent, ended⟩ := Aside.of_settle listener r.1 r.2
  have whole : run listener.attended limits b attended = settle listener.attended r.1 r.2 := rfl
  obtain ⟨⟨d, t, log⟩, ⟨same, sameMemory⟩, e⟩ :=
    run_follows (attended_echoes listener) limits b s (s.watch.1, s.watch.2, []) ⟨rfl, rfl⟩ trivial
  have said : attendance listener limits b s = log := congrArg (·.2.watch.2.2) e
  rw [body, ← whole, e] at aside ended
  rw [body] at silent
  subst same sameMemory
  rw [said]
  exact ⟨closing, aside, silent, ended⟩

theorem keepsPauses (unpaused : s.watch.1.paused = false) : KeepsPauses listener limits b s := by
  obtain ⟨o, body⟩ := account_recorded listener limits b s unpaused
  obtain ⟨closing, aside, silent, ended⟩ := run_recorded listener limits b s
  have grown : attendance listener limits b s =
      (recorded listener limits b s).2.1.2 ++ closing := aside.log
  refine ⟨body.sound, ?_, ?_, body.last, ended.trans body.waiting, ?_⟩
  · have none : closing.filter (·.2.event.kind = .paused) = [] := by
      simpa using aside.kind
    rw [grown, List.filter_append, body.told, none, List.append_nil]
  · rw [grown]
    refine List.forall_mem_append.2 ⟨body.throughout, fun p hp => ?_⟩
    have goesOn : (recorded listener limits b s).1.waiting ≠ true := fun waits => by
      simp [silent waits] at hp
    have unpaused := (aside.throughout p hp).trans (body.paused.trans (Bool.eq_false_iff.2 goesOn))
    exact iff_of_false (Bool.eq_false_iff.1 unpaused) (aside.kind p hp)
  · have paused : (run listener limits b s).2.watch.1.paused =
        (recorded listener limits b s).1.paused := aside.paused
    rw [paused, body.paused, ended]

end Debugger

open Debugger in
/-- The debuggers that there can be between runs: a new one, one that obeyed another command, and
one that a run has left that came to an end. -/
inductive Resting : Debugger → Prop
  | new (sources : Option Sources) (verbose : Bool) : Resting { sources, verbose }
  | obeyed (c : Command) : Resting d → Resting (d.obey c)
  | ran {τ : Type} (listener : Listener τ) (limits : Limits) (b : Building)
    {s : Session (Debugger × τ)} : Resting s.watch.1 → (run listener limits b s).1 ≠ none →
    Resting (run listener limits b s).2.watch.1

theorem Resting.unpaused {d : Debugger} (h : Resting d) : d.paused = false := by
  induction h with
  | new => rfl
  | obeyed c _ ih => exact (Debugger.paused_obey _ c).trans ih
  | ran listener limits b _ ended ih =>
    exact Bool.eq_false_iff.2 (mt (Debugger.keepsPauses listener limits b _ ih).paused.1 ended)

/-- Whatever a debugger was told before, and whatever it is told besides in a run, a pause ends
exactly when somebody has asked to go on or to stop since it was told, and for no reset after that;
then the run goes on unless a stop is pending.  A debugger says that it is paused from the moment
when it decides to pause until then, and at no other time.  What a listener answers to a pause is
all that is asked of the debugger until the pause ends, so if that does not end it nothing does. -/
theorem pause_ends_by_command {d : Debugger} (resting : Resting d) :
    d.paused = false ∧
      ∀ {τ : Type} (listener : Listener τ) (limits : Limits) (b : Building)
        (s : Session (Debugger × τ)), s.watch.1 = d → Debugger.KeepsPauses listener limits b s :=
  ⟨resting.unpaused, fun listener limits b s hs =>
    Debugger.keepsPauses listener limits b s (hs ▸ resting.unpaused)⟩

theorem pause_ends_by_command_reset :
    let b : Building := { name := "main", body := [.call {} "greet" [] none] }
    let env := (Environment.fresh "main" false).addStep
      { name := "greet", body := [.display {} (.text {} "hello")] }
    let d := ({} : Debugger).obey (.resume .stepInto)
    let asked : List (List Command) :=
      [[.stop, .reset, .resume .stepInto, .resume .stepInto], [.resume .stepInto],
        [.resume .run, .reset]]
    let listener : Listener (List (List Command)) := fun _ _ _ left => (left.headD [], left.tail)
    let s : Session (Debugger × List (List Command)) := ⟨env, {}, d, asked⟩
    Resting d ∧ Debugger.KeepsPauses listener {} b s ∧
      (Debugger.attendance listener {} b s).map (·.2.event.kind) = [.paused, .called, .paused] ∧
      (Debugger.visits listener {} b s).map (·.reply) = [some true, none] ∧
      (Debugger.run listener {} b s).1 = none ∧
      (Debugger.run listener {} b s).2.watch.1.paused = true := by
  intro b env d asked listener s
  have resting : Resting d := .obeyed _ (.new none false)
  have keeps := (pause_ends_by_command resting).2 listener {} b s rfl
  have kinds : (Debugger.attendance listener {} b s).map (·.2.event.kind) =
      [.paused, .called, .paused] := by decide +kernel
  have replies : (Debugger.visits listener {} b s).map (·.reply) = [some true, none] := by
    decide +kernel
  have waits : (Debugger.run listener {} b s).1 = none := by decide +kernel
  exact ⟨resting, keeps, kinds, replies, waits, keeps.paused.2 waits⟩

end StepsLang.Debug
