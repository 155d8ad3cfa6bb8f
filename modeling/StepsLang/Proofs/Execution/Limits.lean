import StepsLang.Proofs.Execution.Move

namespace StepsLang

/-- The end of something that met a limit on the depth of calls or on the rounds of a loop. -/
def Outcome.meetsLimit : Outcome → Bool
  | .failed r => r.code == "E408" || r.code == "E410"
  | _ => false

theorem CallResult.eq_of_signal {r r' : CallResult} (h : r.signal = r'.signal) : r = r' := by
  cases r <;> cases r' <;> cases h <;> rfl

namespace Machine
open StepsLang.Action

variable {ob : Observer σ} {limits wider : Limits} {rest : List Task} {s : Session σ}

theorem openRoutine_wider (depth : limits.depth ≤ wider.depth) (r : Routine) (owner : Step)
    (vs : List Value) (l : Location) (rest : List Task) (s : Session σ) :
    (openRoutine ob limits r owner vs l rest s).signal.meetsLimit = true ∨
      openRoutine ob wider r owner vs l rest s = openRoutine ob limits r owner vs l rest s := by
  unfold openRoutine
  by_cases deep : limits.depth ≤ s.env.depth
  · rw [if_pos deep]
    exact .inl rfl
  · rw [if_neg deep, if_neg fun deeper => deep (Nat.le_trans depth deeper)]
    exact .inr rfl

theorem openName_wider (depth : limits.depth ≤ wider.depth) (x : Bytes) (vs : List Value)
    (l : Location) (rest : List Task) (s : Session σ) :
    (openName ob limits x vs l rest s).signal.meetsLimit = true ∨
      openName ob wider x vs l rest s = openName ob limits x vs l rest s := by
  unfold openName
  split
  · exact openRoutine_wider depth ..
  · split
    · exact .inr rfl
    · split
      · exact openRoutine_wider depth ..
      · exact .inr rfl

theorem start_wider (depth : limits.depth ≤ wider.depth) (st : Statement) (rest : List Task)
    (s : Session σ) :
    (start ob limits rest s st).signal.meetsLimit = true ∨
      start ob wider rest s st = start ob limits rest s st := by
  cases st with
  | call l x arguments target =>
    simp only [start]
    split
    · exact openName_wider depth ..
    · exact .inr rfl
  | giveBack l e => cases e <;> exact .inr rfl
  | _ => exact .inr rfl

theorem branch_wider (condition : Expression) {yes yes' no : Session σ → Machine σ}
    (hy : ∀ s, (yes s).signal.meetsLimit = true ∨ yes' s = yes s) (rest : List Task)
    (s : Session σ) :
    (branch condition rest yes no s).signal.meetsLimit = true ∨
      branch condition rest yes' no s = branch condition rest yes no s := by
  unfold branch
  rcases holds condition s with ⟨r | truth, t⟩
  · exact .inr rfl
  · cases truth with
    | false => exact .inr rfl
    | true => exact hy t

theorem nextRound_wider (rounds : limits.rounds ≤ wider.rounds) (loop : Rounds) (rest : List Task)
    (s : Session σ) :
    (nextRound limits rest s loop).signal.meetsLimit = true ∨
      nextRound wider rest s loop = nextRound limits rest s loop := by
  cases loop with
  | times left body => cases left <;> exact .inr rfl
  | each x left body => cases left <;> exact .inr rfl
  | «while» l condition done body =>
    refine branch_wider condition (fun t => ?_) rest s
    by_cases long : limits.rounds ≤ done
    · rw [if_pos long]
      exact .inl rfl
    · rw [if_neg long, if_neg fun longer => long (Nat.le_trans rounds longer)]
      exact .inr rfl

theorem perform_wider (rounds : limits.rounds ≤ wider.rounds) (depth : limits.depth ≤ wider.depth)
    (task : Task) (o : Outcome) (rest : List Task) (s : Session σ) :
    (perform ob limits rest s task o).signal.meetsLimit = true ∨
      perform ob wider rest s task o = perform ob limits rest s task o := by
  cases task with
  | block sts =>
    cases sts with
    | nil => exact .inr rfl
    | cons st more =>
      cases o with
      | normal =>
        simp only [perform, begin]
        split
        · exact .inr rfl
        · split
          · exact start_wider depth ..
          · exact .inr rfl
      | _ => exact .inr rfl
  | loop loop =>
    cases o with
    | normal => exact nextRound_wider rounds ..
    | _ => exact .inr rfl
  | arms arms otherwise =>
    refine .inr ?_
    cases o with
    | normal => rcases arms with _ | ⟨arm, arms⟩ <;> cases otherwise <;> rfl
    | _ => cases arms <;> cases otherwise <;> rfl
  | handler body => exact .inr (by cases body <;> cases o <;> rfl)
  | continuation body => exact .inr (by cases body <;> cases o <;> rfl)
  | receive target l => exact .inr (by cases target <;> cases o <;> rfl)
  | pending p => exact .inr rfl
  | closeBlock => exact .inr rfl
  | closeFrame name => exact .inr rfl

theorem after_wider (rounds : limits.rounds ≤ wider.rounds) (depth : limits.depth ≤ wider.depth)
    {m : Machine σ} (free : ∀ k, (after ob limits k m).signal.meetsLimit = false) (k : Nat) :
    after ob wider k m = after ob limits k m := by
  -- What a machine never reports it does not report after its first step either, so the induction
  -- is over all machines.
  induction k generalizing m with
  | zero => rfl
  | succ k ih =>
    obtain ⟨o, tasks, s⟩ := m
    cases tasks with
    | nil => rfl
    | cons task rest =>
      have next := free 1
      rcases perform_wider rounds depth task o rest s with met | same
      · exact absurd (met.symm.trans next) (by decide)
      · refine (congrArg (after ob wider k) same).trans ?_
        exact ih fun j => free (j + 1)

theorem Leads.end_unique {m : Machine σ} {o o' : Outcome} {t t' : Session σ}
    (h : Leads ob limits m ⟨o, [], t⟩) (h' : Leads ob limits m ⟨o', [], t'⟩) : o = o' ∧ t = t' := by
  obtain ⟨j, e⟩ := h
  obtain ⟨k, e'⟩ := h'
  have first : after ob limits (j + k) m = ⟨o, [], t⟩ := by
    rw [after_add, e]
    exact after_of_step_none rfl k
  have second : after ob limits (k + j) m = ⟨o', [], t'⟩ := by
    rw [after_add, e']
    exact after_of_step_none rfl j
  rw [Nat.add_comm, second] at first
  cases first
  exact ⟨rfl, rfl⟩

theorem end_wider (rounds : limits.rounds ≤ wider.rounds) (depth : limits.depth ≤ wider.depth)
    {m : Machine σ} (free : ∀ k, (after ob limits k m).signal.meetsLimit = false) {o o' : Outcome}
    {t t' : Session σ} (h : Leads ob limits m ⟨o, [], t⟩) (h' : Leads ob wider m ⟨o', [], t'⟩) :
    o' = o ∧ t' = t := by
  obtain ⟨k, e⟩ := h
  have same := after_wider rounds depth free k
  exact h'.end_unique ⟨k, same.trans e⟩

/-- What a run of a machine and its result under wider limits have to do with those under the limits
themselves: if neither limit is ever reported, be it to a handler, they are the same. -/
def Unlimited (ob : Observer σ) (limits wider : Limits) (m m' : Machine σ)
    (run run' : Result × Session σ) : Prop :=
  (∀ k, (after ob limits k m).signal.meetsLimit = false) →
    (∀ k, after ob wider k m' = after ob limits k m) ∧ run' = run

/-- Wider limits change nothing in a run that did not meet the limits. -/
theorem limits_unmet (ob : Observer σ) (limits wider : Limits) (s : Session σ)
    (rounds : limits.rounds ≤ wider.rounds) (depth : limits.depth ≤ wider.depth) :
    (∀ body, Unlimited ob limits wider ⟨.normal, [.block body], s⟩ ⟨.normal, [.block body], s⟩
      (s.runBlock ob limits body) (s.runBlock ob wider body)) ∧
    (∀ b : Building, Unlimited ob limits wider ⟨.normal, [.block b.body], s⟩
      ⟨.normal, [.block b.body], s⟩ (s.runBuilding ob limits b) (s.runBuilding ob wider b)) ∧
    ∀ (step : Step) vs, Unlimited ob limits wider
      (openRoutine ob limits step.toRoutine step vs step.location [] s)
      (openRoutine ob wider step.toRoutine step vs step.location [] s)
      (s.runStep ob limits step vs) (s.runStep ob wider step vs) := by
  have block (body : List Statement) : Unlimited ob limits wider ⟨.normal, [.block body], s⟩
      ⟨.normal, [.block body], s⟩ (s.runBlock ob limits body) (s.runBlock ob wider body) := by
    intro free
    obtain ⟨o, t⟩ := end_wider rounds depth free (performBlock_ends body [] s)
      (performBlock_ends body [] s)
    exact ⟨after_wider rounds depth free, Prod.ext (congrArg Result.ofOutcome o) t⟩
  refine ⟨block, fun b => block b.body, fun step vs free => ?_⟩
  have start : openRoutine ob wider step.toRoutine step vs step.location [] s =
      openRoutine ob limits step.toRoutine step vs step.location [] s := by
    rcases openRoutine_wider depth step.toRoutine step vs step.location [] s with met | same
    · exact absurd (met.symm.trans (free 0)) (by decide)
    · exact same
  have ends : Leads ob wider (openRoutine ob wider step.toRoutine step vs step.location [] s) _ :=
    routine_ends (s.callsLeft wider) step.toRoutine step vs step.location [] s rfl
  rw [start] at ends ⊢
  obtain ⟨o, t⟩ := end_wider rounds depth free
    (routine_ends (s.callsLeft limits) step.toRoutine step vs step.location [] s rfl) ends
  have result := congrArg Result.ofCall (CallResult.eq_of_signal o)
  exact ⟨after_wider rounds depth free, Prod.ext result t⟩

theorem limits_unmet_round :
    let go : Bytes := "go"
    let body : List Statement :=
      [.set {} go (.boolean {} true),
        .repeatWhile {} (.name {} go) [.set {} go (.boolean {} false)]]
    let s : Session Unit := ⟨.fresh "main" false, {}, ()⟩
    let m : Machine Unit := ⟨.normal, [.block body], s⟩
    let limits : Limits := { rounds := 1, depth := 0 }
    limits.rounds ≤ ({} : Limits).rounds ∧ limits.depth ≤ ({} : Limits).depth ∧
      (∀ k, (after Observer.none limits k m).signal.meetsLimit = false) ∧
      (∀ k, after Observer.none {} k m = after Observer.none limits k m) ∧
      s.runBlock Observer.none {} body = s.runBlock Observer.none limits body ∧
      (s.runBlock Observer.none limits body).1.success = true := by
  intro go body s m limits
  have free (k : Nat) : (after Observer.none limits k m).signal.meetsLimit = false := by
    have begun : ∀ k < 11, (after Observer.none limits k m).signal.meetsLimit = false := by
      decide +kernel
    have ended : (after Observer.none limits 10 m).step Observer.none limits = none :=
      Option.isNone_iff_eq_none.1 (by decide +kernel)
    rcases Nat.lt_or_ge k 11 with early | late
    · exact begun k early
    · obtain ⟨j, rfl⟩ := Nat.exists_eq_add_of_le (Nat.le_of_succ_le late)
      rw [after_add, after_of_step_none ended]
      exact begun 10 (by decide)
  obtain ⟨same, result⟩ :=
    (limits_unmet Observer.none limits {} s (by decide) (by decide)).1 body free
  exact ⟨by decide, by decide, free, same, result, by decide +kernel⟩

end Machine

end StepsLang
