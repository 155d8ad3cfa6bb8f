import StepsLang.Proofs.Execution.Passage

namespace StepsLang

namespace Machine
open StepsLang.Action Environment

def problem (r : Report) : Option (Bytes × Value) := some ("problem_message", .text r.message)

section Parts

variable (run : List Statement → Action σ) (before : Environment) (rest : List Task)

/-- From the end of the body to what the attempt has come to when its handler is done: a failure is
taken by the handler, or forgotten if there is none, and anything else passes. -/
structure Handled (handler : Option (List Statement)) (tried : Outcome × Session σ)
    (handling : List (Machine σ)) (settled : Outcome × Session σ) : Prop where
  taken : ∀ r b, tried.1 = .failed r → handler = some b →
    handling = [entering (problem r) b rest tried.2] ∧
      settled = inFresh (problem r) (run b) tried.2 ∧
      Topped (problem r) before (tried.2.env.enter (problem r))
  forgotten : ∀ r, tried.1 = .failed r → handler = none →
    handling = [] ∧ settled = (.normal, tried.2)
  passed : (∀ r, tried.1 ≠ .failed r) → handling = [] ∧ settled = tried

/-- From there to the end of the attempt: the last block runs after anything but a stop, and what
was pending counts if it ends normally. -/
structure Finished (last : Option (List Statement)) (settled : Outcome × Session σ)
    (finishing : List (Machine σ)) (ended : Outcome × Session σ) : Prop where
  runs : ∀ b, last = some b → settled.1 ≠ .stopped →
    finishing = [entering none b (.pending settled.1 :: rest) settled.2] ∧
      ended.2 = (inFresh none (run b) settled.2).2 ∧
      ((inFresh none (run b) settled.2).1 = .normal → ended.1 = settled.1) ∧
      ((inFresh none (run b) settled.2).1 ≠ .normal →
        ended.1 = (inFresh none (run b) settled.2).1) ∧
      Topped none before (settled.2.env.enter none)
  rests : last = none ∨ settled.1 = .stopped → finishing = [] ∧ ended = settled

variable {run before rest} {handler last : Option (List Statement)}
  {tried settled ended : Outcome × Session σ} {handling finishing : List (Machine σ)} {r : Report}

theorem Handled.failed (h : Handled run before rest handler tried handling settled)
    (failed : settled.1 = .failed r) :
    ∃ b r', handler = some b ∧ tried.1 = .failed r' ∧
      (inFresh (problem r') (run b) tried.2).1 = .failed r := by
  by_cases body : ∃ r', tried.1 = .failed r'
  · obtain ⟨r', body⟩ := body
    cases handler with
    | none =>
      rw [(h.forgotten r' body rfl).2] at failed
      cases failed
    | some b =>
      rw [(h.taken r' b body rfl).2.1] at failed
      exact ⟨b, r', rfl, body, failed⟩
  · rw [(h.passed fun r' same => body ⟨r', same⟩).2] at failed
    exact absurd ⟨r, failed⟩ body

theorem Finished.failed (h : Finished run before rest last settled finishing ended)
    (failed : ended.1 = .failed r) :
    settled.1 = .failed r ∨
      ∃ b, last = some b ∧ (inFresh none (run b) settled.2).1 = .failed r := by
  by_cases silent : last = none ∨ settled.1 = .stopped
  · exact .inl ((h.rests silent).2 ▸ failed)
  · obtain ⟨some, going⟩ := not_or.1 silent
    obtain ⟨b, some⟩ := Option.ne_none_iff_exists'.1 some
    obtain ⟨-, -, pending, replaced, -⟩ := h.runs b some going
    by_cases normal : (inFresh none (run b) settled.2).1 = .normal
    · exact .inl (pending normal ▸ failed)
    · exact .inr ⟨b, some, replaced normal ▸ failed⟩

end Parts

variable {ob : Observer σ} {limits : Limits} {height n : Nat} {before : Environment}
  {rest : List Task} {o : Outcome} {s t : Session σ} {a : Action σ}

theorem handled_passed {b : Option (Action σ)} (ha : a s = (o, t)) (passed : ∀ r, o ≠ .failed r) :
    handled a b s = (o, t) := by
  simp only [handled, ha]
  cases o with
  | failed r => exact absurd rfl (passed r)
  | _ => rfl

theorem perform_handler_passed {handler : Option (List Statement)} (passed : ∀ r, o ≠ .failed r) :
    perform ob limits rest t (.handler handler) o = ⟨o, rest, t⟩ := by
  cases o with
  | failed r => exact absurd rfl (passed r)
  | _ => cases handler <;> rfl

theorem perform_continuation {b : List Statement} (going : o ≠ .stopped) :
    perform ob limits rest t (.continuation (some b)) o =
      entering none b (.pending o :: rest) t := by
  cases o with
  | stopped => contradiction
  | _ => rfl

theorem handler_passage (ob : Observer σ) (limits : Limits) (handler : Option (List Statement))
    (ha : a s = (o, t)) (hr : rest.length = height + 1)
    (ht : limits.depth - t.env.depth = n) (kept : Kept before t.env) :
    let run := Statement.performBlock ob limits (Call.within ob limits n)
    let settled := handled a
      (Statement.performOptional ob limits (Call.within ob limits n) handler) s
    ∃ handling, Passage ob limits height ⟨o, .handler handler :: rest, t⟩ handling
        ⟨settled.1, rest, settled.2⟩ ∧
      Handled run before rest handler (o, t) handling settled ∧ Kept before settled.2.env := by
  intro run settled
  by_cases failed : ∃ r, o = .failed r
  · obtain ⟨r, rfl⟩ := failed
    have not_passed {P : Prop} (passed : ∀ r', Outcome.failed r ≠ .failed r') : P :=
      absurd rfl (passed r)
    cases handler with
    | none =>
      have forgotten : settled = (.normal, t) := by simp only [settled, handled, ha]; rfl
      rw [forgotten]
      exact ⟨[], .moves rfl (by omega) (Nat.le_succ _),
        ⟨nofun, fun _ _ _ => ⟨rfl, rfl⟩, not_passed⟩, kept⟩
    | some b =>
      have taken : settled = inFresh (problem r) (run b) t := by
        simp only [settled, handled, ha]; rfl
      rw [taken]
      refine ⟨_, .enters rfl (by omega) (by omega) (by omega) ht,
        ⟨?_, nofun, not_passed⟩, kept.trans (kept_inFresh _ b t)⟩
      rintro _ _ ⟨⟩ ⟨⟩
      exact ⟨rfl, rfl, topped_enter kept _⟩
  · have passed : ∀ r, o ≠ .failed r := fun r same => failed ⟨r, same⟩
    rw [show settled = (o, t) from handled_passed ha passed]
    refine ⟨[], .moves (perform_handler_passed passed) (by omega) (Nat.le_succ _),
      ⟨fun r _ same => absurd same (passed r), fun r same => absurd same (passed r),
        fun _ => ⟨rfl, rfl⟩⟩, kept⟩

theorem continuation_passage (ob : Observer σ) (limits : Limits) (last : Option (List Statement))
    (rest : List Task) (ha : a s = (o, t)) (ht : limits.depth - t.env.depth = n)
    (kept : Kept before t.env) :
    let run := Statement.performBlock ob limits (Call.within ob limits n)
    let ended := followedBy a
      (Statement.performOptional ob limits (Call.within ob limits n) last) s
    ∃ finishing, Passage ob limits rest.length ⟨o, .continuation last :: rest, t⟩ finishing
        ⟨ended.1, rest, ended.2⟩ ∧
      Finished run before rest last (o, t) finishing ended := by
  intro run ended
  by_cases ho : o = .stopped
  · subst ho
    rw [show ended = (.stopped, t) from followedBy_stopped ha]
    refine ⟨[], .moves ?_ (Nat.le_refl _) (Nat.le_succ _),
      ⟨fun _ _ going => absurd rfl going, fun _ => ⟨rfl, rfl⟩⟩⟩
    cases last <;> rfl
  · cases last with
    | none =>
      rw [show ended = (o, t) from followedBy_none ha]
      refine ⟨[], .moves ?_ (Nat.le_refl _) (Nat.le_succ _), ⟨nofun, fun _ => ⟨rfl, rfl⟩⟩⟩
      cases o <;> rfl
    | some b =>
      have last : ended = ((inFresh none (run b) t).1.orElse o, (inFresh none (run b) t).2) :=
        followedBy_some ha ho
      rw [last]
      have block : Passage ob limits rest.length ⟨o, .continuation (some b) :: rest, t⟩ _ _ :=
        .enters (perform_continuation ho) (Nat.le_refl _) (Nat.le_succ _) (Nat.lt_succ_self _) ht
      refine ⟨_, block.trans (.moves rfl (Nat.le_refl _) (Nat.le_succ _)), ⟨?_, ?_⟩⟩
      · rintro _ ⟨⟩ -
        refine ⟨rfl, rfl, fun normal => ?_, fun other => ?_, topped_enter kept none⟩
        · simp only [normal]
          rfl
        · generalize (inFresh none (run b) t).1 = p at other
          cases p with
          | normal => contradiction
          | _ => rfl
      · rintro (none | stopped)
        · cases none
        · exact absurd stopped ho

/-- The way of an attempt from where its body is begun to its end, with the blocks that it begins
after the body. -/
theorem attempt_finally (ob : Observer σ) (limits : Limits) (l : Location) (body : List Statement)
    (handler last : Option (List Statement)) (rest : List Task) (s : Session σ) :
    let call := Call.within ob limits (s.callsLeft limits)
    let run := Statement.performBlock ob limits call
    let st := Statement.attempt l body handler last
    let tried := inFresh none (run body) s
    let ended := st.perform ob limits call s
    ∃ settled handling finishing,
      start ob limits rest s st =
        entering none body (.handler handler :: .continuation last :: rest) s ∧
      Course ob limits rest (start ob limits rest s st) (handling ++ finishing) ended ∧
      Handled run s.env (.continuation last :: rest) handler tried handling settled ∧
      Finished run s.env rest last settled finishing ended ∧
      ∀ r, ended.1 = .failed r →
        (∃ b r', handler = some b ∧ tried.1 = .failed r' ∧
          (inFresh (problem r') (run b) tried.2).1 = .failed r) ∨
        ∃ b, last = some b ∧ (inFresh none (run b) settled.2).1 = .failed r := by
  intro call run st tried ended
  have kept : Kept s.env tried.2.env := kept_inFresh none body s
  have depth : limits.depth - tried.2.env.depth = s.callsLeft limits := by
    rw [depth_eq_of_confined kept.toConfined, Session.callsLeft]
  have begun : Passage ob limits rest.length (start ob limits rest s st) []
      ⟨tried.1, .handler handler :: .continuation last :: rest, tried.2⟩ :=
    entering_passage none body (by simp only [List.length_cons]; omega) rfl
  have count : (Task.continuation last :: rest).length = rest.length + 1 := rfl
  have body : inFresh none (run body) s = (tried.1, tried.2) := rfl
  obtain ⟨handling, handles, handled, kept⟩ :=
    handler_passage ob limits handler body count depth kept
  have depth := congrArg (limits.depth - ·) (depth_eq_of_confined kept.toConfined)
  obtain ⟨finishing, finishes, finished⟩ := continuation_passage ob limits last rest rfl depth kept
  have course := (begun.trans (handles.trans finishes)).course
  refine ⟨_, handling, finishing, rfl, course, handled, finished, fun r failed => ?_⟩
  exact (finished.failed failed).imp_left handled.failed

end Machine

end StepsLang
