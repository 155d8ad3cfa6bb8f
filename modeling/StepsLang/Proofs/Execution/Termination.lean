import StepsLang.Proofs.Execution.Machine
import StepsLang.Proofs.Value.Walk

namespace StepsLang

@[simp] theorem unseen_nil [DecidableEq α] (all : List α) : unseen all [] = all := by
  simp [unseen]

namespace Machine

/-- The machine can go on and on. -/
def Endless (ob : Observer σ) (limits : Limits) (m : Machine σ) : Prop :=
  ∃ run : Nat → Machine σ, run 0 = m ∧ ∀ i, (run i).step ob limits = some (run (i + 1))

/-- The machine comes to its end with an outcome, and cannot go on and on. -/
structure Ends (ob : Observer σ) (limits : Limits) (m : Machine σ) (o : Outcome)
    (s : Session σ) : Prop where
  leads : Leads ob limits m ⟨o, [], s⟩
  notEndless : ¬ Endless ob limits m

variable {ob : Observer σ} {limits : Limits} {m : Machine σ}

theorem after_of_run {run : Nat → Machine σ}
    (h : ∀ i, (run i).step ob limits = some (run (i + 1))) (k : Nat) :
    after ob limits k (run 0) = run k := by
  -- From any point of the run on, as the induction goes on one step later.
  have shifted (i : Nat) : after ob limits k (run i) = run (i + k) := by
    induction k generalizing i with
    | zero => rfl
    | succ k ih =>
      simp only [after, h]
      rw [ih]
      congr 1
      omega
  simpa using shifted 0

theorem ends_of_leads {o : Outcome} {s : Session σ} (h : Leads ob limits m ⟨o, [], s⟩) :
    Ends ob limits m o s := by
  refine ⟨h, ?_⟩
  rintro ⟨run, rfl, goesOn⟩
  obtain ⟨k, hk⟩ := h
  rw [after_of_run goesOn] at hk
  have more := goesOn k
  rw [hk] at more
  cases more

/-- Every run of a block, a building or a step ends with its result, and so do the walks through
values. -/
theorem every_run_ends (ob : Observer σ) (limits : Limits) (s : Session σ) :
    (∀ body, ∃ o t, Ends ob limits ⟨.normal, [.block body], s⟩ o t ∧
      s.runBlock ob limits body = (Result.ofOutcome o, t)) ∧
    (∀ b : Building, ∃ o t, Ends ob limits ⟨.normal, [.block b.body], s⟩ o t ∧
      s.runBuilding ob limits b = (Result.ofOutcome o, t)) ∧
    (∀ (step : Step) vs, ∃ r t,
      Ends ob limits (openRoutine ob limits step.toRoutine step vs step.location [] s)
        (CallResult.signal r) t ∧
      s.runStep ob limits step vs = (Result.ofCall r, t)) ∧
    (∀ (h : Heap) v, h.unfoldWithin (h.refs.length + 1) [] v = some (h.tree v)) ∧
    (∀ (h : Heap) v w, h.equalWithin (h.refPairs.length + 1) [] v w = some (h.equal v w)) := by
  refine ⟨?_, ?_, ?_, ?_, ?_⟩
  · intro body
    exact ⟨_, _, ends_of_leads (performBlock_ends body [] s), rfl⟩
  · intro b
    exact ⟨_, _, ends_of_leads (performBlock_ends b.body [] s), rfl⟩
  · intro step vs
    exact ⟨_, _, ends_of_leads (routine_ends _ step.toRoutine step vs step.location [] s rfl), rfl⟩
  · intro h v
    exact Heap.unfoldWithin_eq (by simp) v
  · intro h v w
    exact Heap.equalWithin_eq (by simp) v w

end Machine

end StepsLang
