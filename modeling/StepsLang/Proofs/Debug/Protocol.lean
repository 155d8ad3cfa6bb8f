import StepsLang.Proofs.Debug.Transparency

namespace StepsLang.Debug

def EventKind.underway : List EventKind := [.paused, .called, .returned]

def EventKind.ofEnd : Option Result → List EventKind
  | none => []
  | some r => (if r.error.isSome then [.failed] else []) ++ [.finished]

/-- What a debugger says, and whether it is stopping before and after, when nobody resets it. -/
inductive Heard : Bool → List Exchange → Bool → Prop
  | nil (stopping : Bool) : Heard stopping [] stopping
  | told {x : Exchange} : Heard (decide (.stop ∈ x.answer)) more stopping →
    Heard false (x :: more) stopping

namespace Heard

variable {a b c : Bool} {said more : List Exchange}

theorem append (h : Heard a said b) (h' : Heard b more c) : Heard a (said ++ more) c := by
  induction h with
  | nil => exact h'
  | told _ ih => exact .told (ih h')

theorem silent (h : Heard true said b) : said = [] ∧ b = true := by
  cases h
  exact ⟨rfl, rfl⟩

theorem running (h : Heard false said b) (noStop : ∀ x ∈ said, .stop ∉ x.answer) : b = false := by
  induction said with
  | nil =>
    cases h
    rfl
  | cons x more ih =>
    obtain ⟨here, later⟩ := List.forall_mem_cons.1 noStop
    cases h with
    | told rest => exact ih (by rwa [decide_eq_false here] at rest) later

theorem last (h : Heard a said b) {earlier later : List Exchange} {x : Exchange}
    (split : said = earlier ++ x :: later) (stop : .stop ∈ x.answer) : later = [] := by
  induction h generalizing earlier with
  | nil => simp at split
  | told rest ih =>
    cases earlier with
    | nil =>
      obtain ⟨rfl, rfl⟩ := List.cons.inj split
      rw [decide_eq_true stop] at rest
      exact rest.silent.1
    | cons y earlier => exact ih (List.cons.inj split).2

end Heard

def LeftWaiting (said : List Exchange) : Prop :=
  ∃ x ∈ said.getLast?, x.event.kind = .paused ∧ .stop ∉ x.answer ∧
    x.answer.foldl Command.resuming false = false

theorem LeftWaiting.append {said : List Exchange} (h : LeftWaiting said) (earlier : List Exchange) :
    LeftWaiting (earlier ++ said) := by
  obtain ⟨x, hx, rest⟩ := h
  refine ⟨x, ?_, rest⟩
  rw [List.getLast?_append, Option.mem_def.1 hx]
  rfl

namespace Debugger

theorem waiting_obey (d : Debugger) (c : Command) : (d.obey c).waiting = d.waiting := by
  cases c <;> simp only [obey] <;> (try split) <;> simp

theorem waiting_foldl (d : Debugger) (cs : List Command) :
    (cs.foldl obey d).waiting = d.waiting :=
  List.foldlRecOn (motive := (·.waiting = d.waiting)) cs obey rfl fun _ same c _ =>
    (waiting_obey _ c).trans same

theorem stopping_foldl (d : Debugger) {cs : List Command} (noReset : .reset ∉ cs) :
    (cs.foldl obey d).stopping = (d.stopping || decide (.stop ∈ cs)) := by
  induction cs generalizing d with
  | nil => simp
  | cons c cs ih =>
    rw [List.mem_cons, not_or] at noReset
    rw [List.foldl_cons, ih _ noReset.2]
    cases c with
    | reset => exact absurd rfl noReset.1
    | stop => simp [obey]
    | resume m | select m =>
      simp only [obey]
      split
      · next stopping => simp [stopping]
      · simp
    | _ => simp [obey]

structure Exchanges (x y : Debugger × τ × List Exchange) (kind : EventKind) (e : Exchange) :
    Prop where
  running : x.1.stopping = false
  kind : e.event.kind = kind
  grown : y.2.2 = x.2.2 ++ [e]
  waiting : y.1.waiting = x.1.waiting
  stopping : .reset ∉ e.answer → y.1.stopping = decide (.stop ∈ e.answer)
  resumed : .stop ∉ e.answer → y.1.resumed = e.answer.foldl Command.resuming x.1.resumed

theorem Exchanges.heard {x y : Debugger × τ × List Exchange} {kind : EventKind} {e : Exchange}
    (h : Exchanges x y kind e) (noReset : ∀ e' ∈ [e], .reset ∉ e'.answer) :
    Heard x.1.stopping [e] y.1.stopping := by
  rw [h.running, h.stopping (noReset e (.head _))]
  exact .told (.nil _)

theorem emit_exchanges (listener : Listener τ) (kind : EventKind) (message : Bytes)
    (env : Environment) (w : World) (x : Debugger × τ × List Exchange) :
    emit listener.transcribed kind message env w x = x ∧ x.1.stopping = true ∨
      ∃ e, Exchanges x (emit listener.transcribed kind message env w x) kind e := by
  obtain ⟨d, t, log⟩ := x
  rw [emit_eq]
  by_cases stopping : d.stopping = true
  · rw [if_pos stopping]
    exact .inl ⟨rfl, stopping⟩
  · rw [if_neg stopping]
    have running : (d.looked env w).stopping = false := Bool.eq_false_iff.2 stopping
    refine .inr ⟨_, running, rfl, rfl, waiting_foldl _ _, fun noReset => ?_, fun noStop => ?_⟩
    · have stops := stopping_foldl (d.looked env w) noReset
      rwa [running, Bool.false_or] at stops
    · exact (foldl_obey_goesOn running noStop).2

structure Said (x : Debugger × τ × List Exchange) (o : Outcome) (y : Debugger × τ × List Exchange)
    (new : List Exchange) : Prop where
  grown : y.2.2 = x.2.2 ++ new
  kinds : ∀ e ∈ new, e.event.kind ∈ EventKind.underway
  heard : (∀ e ∈ new, .reset ∉ e.answer) → Heard x.1.stopping new y.1.stopping
  waiting : (∀ e ∈ new, .reset ∉ e.answer) → y.1.waiting = true →
    x.1.waiting = true ∨ o = .stopped ∧ LeftWaiting new

namespace Said

variable {x y z : Debugger × τ × List Exchange} {o p : Outcome} {new more : List Exchange}

theorem refl (x : Debugger × τ × List Exchange) (o : Outcome) : Said x o x [] :=
  ⟨(List.append_nil _).symm, by simp, fun _ => .nil _, fun _ => .inl⟩

theorem trans (h : Said x o y new) (ho : o ≠ .stopped) (h' : Said y p z more) :
    Said x p z (new ++ more) where
  grown := by rw [h'.grown, h.grown, List.append_assoc]
  kinds := List.forall_mem_append.2 ⟨h.kinds, h'.kinds⟩
  heard noReset := by
    obtain ⟨early, late⟩ := List.forall_mem_append.1 noReset
    exact (h.heard early).append (h'.heard late)
  waiting noReset waits := by
    obtain ⟨early, late⟩ := List.forall_mem_append.1 noReset
    rcases h'.waiting late waits with before | ⟨stopped, left⟩
    · exact .inl ((h.waiting early before).resolve_right fun stopped => ho stopped.1)
    · exact .inr ⟨stopped, left.append new⟩

variable (listener : Listener τ)

theorem of_emit {kind : EventKind} (underway : kind ∈ EventKind.underway) (message : Bytes)
    (env : Environment) (w : World) (x : Debugger × τ × List Exchange) (o : Outcome) :
    ∃ new, Said x o (emit listener.transcribed kind message env w x) new := by
  obtain ⟨same, -⟩ | ⟨e, told⟩ := emit_exchanges listener kind message env w x
  · rw [same]
    exact ⟨[], .refl _ _⟩
  · refine ⟨[e], told.grown, ?_, told.heard, fun _ waits => .inl (told.waiting.symm.trans waits)⟩
    exact List.forall_mem_singleton.2 (told.kind ▸ underway)

theorem of_pause (path : Bytes) (line : Nat) (env : Environment) (w : World) (d : Debugger) (t : τ)
    (log : List Exchange) (running : d.stopping = false) :
    let r := pause listener.transcribed path line env w d (t, log)
    ∃ new, Said (d, t, log) (if r.1 then .normal else .stopped) r.2 new := by
  have halted : (d.halted path line).stopping = false := (stopping_log _ _).trans running
  obtain ⟨-, stopping⟩ | ⟨e, told⟩ :=
    emit_exchanges listener .paused [] env w (d.halted path line, t, log)
  · cases halted.symm.trans stopping
  have waits : (emit listener.transcribed .paused [] env w (d.halted path line, t, log)).1.waiting =
      d.waiting := told.waiting.trans (waiting_log _ _)
  have heard (noReset : ∀ e' ∈ [e], .reset ∉ e'.answer) :
      Heard d.stopping [e]
        (emit listener.transcribed .paused [] env w (d.halted path line, t, log)).1.stopping := by
    rw [running, ← halted]
    exact told.heard noReset
  have kinds : ∀ e' ∈ [e], e'.event.kind ∈ EventKind.underway :=
    List.forall_mem_singleton.2 (told.kind ▸ .head _)
  dsimp only
  rw [pause_eq]
  dsimp only
  split
  · exact ⟨[e], told.grown, kinds, heard, fun _ left => .inl (waits.symm.trans left)⟩
  · next left =>
    rw [Bool.or_eq_true, not_or, Bool.not_eq_true, Bool.not_eq_true] at left
    refine ⟨[e], told.grown, kinds, heard, fun noReset _ => .inr ⟨rfl, e, rfl, told.kind, ?_⟩⟩
    have noStop : .stop ∉ e.answer :=
      of_decide_eq_false ((told.stopping (noReset e (.head _))).symm.trans left.2)
    have fresh : (d.halted path line).resumed = false := resumed_log _ _
    have resumed := told.resumed noStop
    rw [left.1, fresh] at resumed
    exact ⟨noStop, resumed.symm⟩

theorem of_before (st : Statement) (env : Environment) (w : World)
    (x : Debugger × τ × List Exchange) :
    let r := before listener.transcribed st env w x
    ∃ new, Said x (if r.1 then .normal else .stopped) r.2 new := by
  obtain ⟨d, t, log⟩ := x
  dsimp only
  rw [before_eq]
  by_cases stopping : d.stopping = true
  · rw [if_pos stopping]
    exact ⟨[], .refl _ _⟩
  · rw [if_neg stopping]
    split
    · obtain ⟨new, said⟩ := of_pause listener (pathOf d.sources st.location) st.location.line env w
        { d with depth := env.depth } t log (Bool.eq_false_iff.2 stopping)
      exact ⟨new, said.grown, said.kinds, said.heard, said.waiting⟩
    · exact ⟨[], (List.append_nil _).symm, by simp, fun _ => .nil _, fun _ => .inl⟩

end Said

variable (listener : Listener τ)

/-- What a run adds to the transcript, in what order, and whether it is left waiting. -/
def Speaks (s : Session (Debugger × τ × List Exchange)) (o : Outcome)
    (t : Session (Debugger × τ × List Exchange)) : Prop :=
  ∃ new, Said s.watch o t.watch new

theorem speaks_watched :
    Watched (observer listener.transcribed) fun x o y => ∃ new, Said x o y new where
  refl := fun _ => ⟨[], .refl _ _⟩
  trans := fun ⟨_, first⟩ ho ⟨_, second⟩ => ⟨_, first.trans ho second⟩
  before := fun st env w x _ => Said.of_before listener st env w x
  onCall := fun name env w x => Said.of_emit listener (by decide) name env w x .normal
  onReturn := fun name env w x => Said.of_emit listener (by decide) name env w x .normal

structure Closes (x y : Debugger × τ × List Exchange) (kinds : List EventKind)
    (new : List Exchange) : Prop where
  grown : y.2.2 = x.2.2 ++ new
  begun : new.map (·.event.kind) <+: kinds
  heard : (∀ e ∈ new, .reset ∉ e.answer) → Heard x.1.stopping new y.1.stopping
  told : x.1.stopping = false → (∀ e ∈ new, .reset ∉ e.answer ∧ .stop ∉ e.answer) →
    new.map (·.event.kind) = kinds

namespace Closes

variable {x y z : Debugger × τ × List Exchange} {kinds : List EventKind}

theorem refl (x : Debugger × τ × List Exchange) : Closes x x [] [] :=
  ⟨(List.append_nil _).symm, List.prefix_rfl, fun _ => .nil _, fun _ _ => rfl⟩

theorem nothing (stopping : x.1.stopping = true) (kinds : List EventKind) : Closes x x kinds [] :=
  ⟨(List.append_nil _).symm, List.nil_prefix, fun _ => .nil _, fun running => by
    cases stopping.symm.trans running⟩

theorem cons {kind : EventKind} {e : Exchange} {new : List Exchange} (h : Exchanges x y kind e)
    (h' : Closes y z kinds new) : Closes x z (kind :: kinds) (e :: new) where
  grown := by rw [h'.grown, h.grown, List.append_assoc, List.singleton_append]
  begun := by
    rw [List.map_cons, h.kind]
    exact (List.prefix_cons_inj kind).2 h'.begun
  heard noReset := by
    obtain ⟨here, later⟩ := List.forall_mem_cons.1 noReset
    exact (h.heard (List.forall_mem_singleton.2 here)).append (h'.heard later)
  told _ quiet := by
    obtain ⟨⟨noReset, noStop⟩, later⟩ := List.forall_mem_cons.1 quiet
    rw [List.map_cons, h.kind, h'.told ((h.stopping noReset).trans (decide_eq_false noStop)) later]

theorem of_finished (env : Environment) (w : World) (x : Debugger × τ × List Exchange) :
    ∃ new, Closes x (emit listener.transcribed .finished [] env w x) [.finished] new := by
  obtain ⟨same, stopping⟩ | ⟨e, told⟩ := emit_exchanges listener .finished [] env w x
  · rw [same]
    exact ⟨[], nothing stopping _⟩
  · exact ⟨[e], cons told (refl _)⟩

theorem of_conclude (r : Result) (env : Environment) (w : World)
    (x : Debugger × τ × List Exchange) :
    ∃ new, Closes x (conclude listener.transcribed r env w x) (EventKind.ofEnd (some r)) new := by
  obtain ⟨success, _ | report, stopped, value⟩ := r
  · exact of_finished listener env w x
  · change ∃ new, Closes x (emit listener.transcribed .finished [] env w
      (emit listener.transcribed .failed (report.format x.1.sources) env w x)) _ new
    obtain ⟨same, stopping⟩ | ⟨e, told⟩ :=
      emit_exchanges listener .failed (report.format x.1.sources) env w x
    · rw [same]
      obtain ⟨same, -⟩ | ⟨e, told⟩ := emit_exchanges listener .finished [] env w x
      · rw [same]
        exact ⟨[], nothing stopping _⟩
      · cases told.running.symm.trans stopping
    · obtain ⟨new, finished⟩ := of_finished listener env w _
      exact ⟨e :: new, cons told finished⟩

end Closes

variable (limits : Limits) (b : Building) (s : Session (Debugger × τ))

theorem transcribed_run :
    (run listener.transcribed limits b (s.under (s.watch.1, s.watch.2, []))).1 =
      (run listener limits b s).1 := by
  obtain ⟨_, -, e⟩ := run_follows (transcribed_echoes listener) limits b s
    (s.watch.1, s.watch.2, []) ⟨rfl, rfl⟩ trivial
  exact congrArg Prod.fst e

theorem transcript_closes :
    ∃ o y z body closing, transcript listener limits b s = body ++ closing ∧
      Said (transcribing b s).watch o y body ∧
      Closes y z (EventKind.ofEnd (run listener limits b s).1) closing ∧
      ((run listener limits b s).1 = none → y.1.waiting = true ∧ closing = []) := by
  let r := (transcribing b s).runBuilding (observer listener.transcribed) limits b
  obtain ⟨body, said⟩ : Speaks (transcribing b s) _ r.2 :=
    (speaks_watched listener).performBlock limits b.body (transcribing b s)
  have grown : r.2.watch.2.2 = body := said.grown
  have whole : run listener.transcribed limits b (s.under (s.watch.1, s.watch.2, [])) =
      if r.2.watch.1.waiting then (none, r.2)
      else if r.2.watch.1.stopping then
        (some { r.1 with stopped := true },
          r.2.under ({ r.2.watch.1 with running := false }.log "stopped", r.2.watch.2))
      else
        (some r.1, r.2.under (conclude listener.transcribed r.1 r.2.env r.2.world
          ({ r.2.watch.1 with running := false }, r.2.watch.2))) := rfl
  rw [← transcribed_run]
  unfold transcript
  rw [whole]
  split
  · next waits =>
    exact ⟨_, _, r.2.watch, body, [], by simpa using grown, said, .refl _, fun _ => ⟨waits, rfl⟩⟩
  · split
    · next stopping =>
      exact ⟨_, _, r.2.watch, body, [], by simpa using grown, said, .nothing stopping _, nofun⟩
    · obtain ⟨closing, closes⟩ := Closes.of_conclude listener r.1 r.2.env r.2.world
        ({ r.2.watch.1 with running := false }, r.2.watch.2)
      exact ⟨_, _, _, body, closing, closes.grown.trans (congrArg (· ++ closing) grown), said,
        ⟨closes.grown, closes.begun, closes.heard, closes.told⟩, nofun⟩

/-- In a run without a reset, pauses, calls and returns are told first, then a failure if there was
one, and the end of the run last; after a request to stop nothing is told. -/
theorem events_in_order
    (noReset : ∀ x ∈ transcript listener limits b s, .reset ∉ x.answer) :
    ∃ body closing, transcript listener limits b s = body ++ closing ∧
      (∀ x ∈ body, x.event.kind ∈ EventKind.underway) ∧
      closing.map (·.event.kind) <+: EventKind.ofEnd (run listener limits b s).1 ∧
      (s.watch.1.stopping = false → (∀ x ∈ transcript listener limits b s, .stop ∉ x.answer) →
        closing.map (·.event.kind) = EventKind.ofEnd (run listener limits b s).1) ∧
      (s.watch.1.stopping = true → transcript listener limits b s = []) ∧
      (∀ earlier x later, transcript listener limits b s = earlier ++ x :: later →
        .stop ∈ x.answer → later = []) ∧
      ((run listener limits b s).1 = none → LeftWaiting (transcript listener limits b s)) := by
  obtain ⟨o, y, z, body, closing, whole, said, closes, left⟩ :=
    transcript_closes listener limits b s
  rw [whole] at noReset ⊢
  obtain ⟨early, late⟩ := List.forall_mem_append.1 noReset
  have begun : (transcribing b s).watch.1.stopping = s.watch.1.stopping := stopping_log _ _
  have heard := said.heard early
  rw [begun] at heard
  have all := heard.append (closes.heard late)
  refine ⟨body, closing, rfl, said.kinds, closes.begun, fun running noStop => ?_,
    fun stopping => ?_, fun earlier x later => all.last, fun none => ?_⟩
  · obtain ⟨early', late'⟩ := List.forall_mem_append.1 noStop
    rw [running] at heard
    exact closes.told (heard.running early') fun e he => ⟨late e he, late' e he⟩
  · rw [stopping] at all
    exact all.silent.1
  · obtain ⟨waits, rfl⟩ := left none
    have fresh : (transcribing b s).watch.1.waiting = false := waiting_log _ _
    rcases said.waiting early waits with before | ⟨-, left⟩
    · cases fresh.symm.trans before
    · rwa [List.append_nil]

theorem events_in_order_failing :
    let b : Building :=
      { name := "main", body := [.call {} "greet" [] none, .display {} (.name {} "farewell")] }
    let env := (Environment.fresh "main" false).addStep
      { name := "greet", body := [.display {} (.text {} "hello")] }
    let s : Session (Debugger × Unit) := ⟨env, {}, { control := { mode := .run } }, ()⟩
    let told := transcript Listener.silent {} b s
    (∀ x ∈ told, .reset ∉ x.answer) ∧ s.watch.1.stopping = false ∧ (∀ x ∈ told, .stop ∉ x.answer) ∧
      ((run Listener.silent {} b s).1.bind (·.error)).map (·.code) = some ("E401" : Bytes) ∧
      ∃ body closing, told = body ++ closing ∧ body.map (·.event.kind) = [.called, .returned] ∧
        closing.map (·.event.kind) = [.failed, .finished] := by
  intro b env s told
  have noReset : ∀ x ∈ told, .reset ∉ x.answer := by decide +kernel
  have noStop : ∀ x ∈ told, .stop ∉ x.answer := by decide +kernel
  obtain ⟨body, closing, whole, -, -, ended, -⟩ := events_in_order Listener.silent {} b s noReset
  have last : closing.map (·.event.kind) = [.failed, .finished] :=
    (ended rfl noStop).trans (by decide +kernel)
  have all : told.map (·.event.kind) = [.called, .returned, .failed, .finished] := by
    decide +kernel
  rw [show told = _ from whole, List.map_append, last] at all
  exact ⟨noReset, rfl, noStop, by decide +kernel, body, closing, whole,
    List.append_cancel_right all, last⟩

end Debugger

end StepsLang.Debug
