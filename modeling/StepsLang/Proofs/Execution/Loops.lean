import StepsLang.Proofs.Execution.Passage
import StepsLang.Proofs.Execution.Signal
import StepsLang.Proofs.Number.Whole

namespace StepsLang

namespace Machine
open StepsLang.Action Environment

/-- Rounds that end normally: for each item a block is begun in a fresh scope, when the loop has got
`ready` for it. -/
inductive Turns (run : Action σ) (body : List Statement) (rest : List Task)
    (ready : Session σ → Session σ → Prop) :
    List (Option (Bytes × Value)) → Session σ → List (Machine σ) → Session σ → Prop
  | done (s : Session σ) : Turns run body rest ready [] s [] s
  | turn {item : Option (Bytes × Value)} {items : List (Option (Bytes × Value))}
    {s s' t u : Session σ} {ms : List (Machine σ)} (left : Rounds) :
    ready s s' → inFresh item run s' = (.normal, t) → Turns run body rest ready items t ms u →
    Turns run body rest ready (item :: items) s
      (entering item body (.loop left :: rest) s' :: ms) u

namespace Turns

variable {run : Action σ} {body : List Statement} {rest : List Task}
  {ready : Session σ → Session σ → Prop} {items : List (Option (Bytes × Value))}
  {s u : Session σ} {ms : List (Machine σ)}

theorem length (h : Turns run body rest ready items s ms u) : ms.length = items.length := by
  induction h with
  | done => rfl
  | turn _ _ _ _ ih => simp [ih]

theorem topped {before : Environment} (h : Turns run body rest Eq items s ms u)
    (keeps : ∀ item s, Kept s.env (inFresh item run s).2.env) (kept : Kept before s.env) :
    List.Forall₂ (fun item m => Topped item before m.session.env) items ms := by
  induction h with
  | done => exact .nil
  | @turn item items s s' t u ms left same ended _ ih =>
    subst same
    have later : Kept s.env t.env := by
      have keeps := keeps item s
      rwa [ended] at keeps
    exact .cons (topped_enter kept item) (ih (kept.trans later))

end Turns

/-- The way of a loop that is about to do its rounds, and what comes of it if all end normally. -/
def Goes (ob : Observer σ) (limits : Limits) (run : Action σ) (rest : List Task) (rounds : Rounds)
    (loop : Action σ) (Normally : List (Machine σ) → Outcome × Session σ → Prop) (s : Session σ) :
    Prop :=
  ∃ opened, Passage ob limits rest.length ⟨.normal, .loop rounds :: rest, s⟩ opened
      (atOnce loop rest s) ∧
    ((∀ m ∈ opened, (run m.session).1 = .normal) → Normally opened (loop s))

theorem Goes.imp {ob : Observer σ} {limits : Limits} {run loop : Action σ} {rest : List Task}
    {rounds : Rounds} {Normally Normally' : List (Machine σ) → Outcome × Session σ → Prop}
    {s : Session σ} (h : Goes ob limits run rest rounds loop Normally s)
    (imp : ∀ opened e, Normally opened e → Normally' opened e) :
    Goes ob limits run rest rounds loop Normally' s := by
  obtain ⟨opened, goes, normally⟩ := h
  exact ⟨opened, goes, fun all => imp _ _ (normally all)⟩

section Rounds

variable {ob : Observer σ} {limits : Limits} {n : Nat} {body : List Statement} {rest : List Task}
  {s : Session σ}

theorem last_goes {run loop : Action σ} {rounds : Rounds}
    {Normally : List (Machine σ) → Outcome × Session σ → Prop}
    (performed : perform ob limits rest s (.loop rounds) .normal = atOnce loop rest s)
    (normally : Normally [] (loop s)) : Goes ob limits run rest rounds loop Normally s :=
  ⟨[], .moves performed (Nat.le_refl _) (Nat.le_succ _), fun _ => normally⟩

theorem round_goes (item : Option (Bytes × Value)) {rounds left : Rounds} {loop next : Action σ}
    {s' : Session σ} {Later : Session σ → List (Machine σ) → Outcome × Session σ → Prop}
    (performed : perform ob limits rest s (.loop rounds) .normal =
      entering item body (.loop left :: rest) s')
    (hs : limits.depth - s'.env.depth = n) :
    let run := Statement.performBlock ob limits (Call.within ob limits n) body
    loop s = afterRound next (inFresh item run s') →
    (∀ t, limits.depth - t.env.depth = n → Goes ob limits run rest left next (Later t) t) →
    Goes ob limits run rest rounds loop
      (fun opened e => ∃ t ms, opened = entering item body (.loop left :: rest) s' :: ms ∧
        inFresh item run s' = (.normal, t) ∧ e = next t ∧ Later t ms e) s := by
  intro run unfolded later
  have round : Passage ob limits rest.length ⟨.normal, .loop rounds :: rest, s⟩ _ _ :=
    .enters performed (Nat.le_refl _) (Nat.le_succ _) (Nat.lt_succ_self _) hs
  have ran : (run { s' with env := s'.env.enter item }).1 = (inFresh item run s').1 := by
    rw [inFresh_eq]
  have depth : limits.depth - (inFresh item run s').2.env.depth = n := by rwa [depth_inFresh]
  unfold Goes atOnce
  rw [unfolded]
  change Passage ob limits _ _ _ ⟨(inFresh item run s').1, _, (inFresh item run s').2⟩ at round
  generalize inFresh item run s' = r at round ran depth ⊢
  obtain ⟨o, t⟩ := r
  by_cases ho : o = .normal
  · subst ho
    obtain ⟨ms, goes, normally⟩ := later t depth
    refine ⟨_, round.trans goes, fun all => ⟨t, ms, rfl, rfl, rfl, normally fun m hm => ?_⟩⟩
    exact all m (List.mem_cons_of_mem _ hm)
  · have left : perform ob limits rest t (.loop left) o =
        ⟨(afterRound next (o, t)).1, rest, (afterRound next (o, t)).2⟩ := by
      cases o with
      | normal => contradiction
      | _ => rfl
    refine ⟨_, round.trans (.moves left (Nat.le_refl _) (Nat.le_succ _)), fun all => ?_⟩
    exact absurd (ran.symm.trans (all _ List.mem_cons_self)) ho

theorem each_goes (x : Bytes) (vs : List Value) (s : Session σ)
    (hs : limits.depth - s.env.depth = n) :
    let run := Statement.performBlock ob limits (Call.within ob limits n) body
    Goes ob limits run rest (.each x vs body) (forEach x run vs)
      (fun opened e => e.1 = .normal ∧
        Turns run body rest Eq (vs.map fun v => some (x, v)) s opened e.2) s := by
  intro run
  induction vs generalizing s with
  | nil =>
    exact last_goes rfl ⟨rfl, .done s⟩
  | cons v vs ih =>
    refine (round_goes (some (x, v)) rfl hs rfl fun t ht => ih t ht).imp ?_
    rintro _ _ ⟨t, ms, rfl, ended, rfl, normal, turns⟩
    exact ⟨normal, .turn (.each x vs body) rfl ended turns⟩

/-- How a loop with a condition ends: it found that the condition does not hold, or did all the
rounds that it may, or the condition itself failed. -/
inductive Leaves (condition : Expression) (tooLong : Report) (allowed : ℕ) :
    ℕ → Session σ → Outcome × Session σ → Prop
  | stops {k : ℕ} {u t : Session σ} : k ≤ allowed → holds condition u = (.ok false, t) →
    Leaves condition tooLong allowed k u (.normal, t)
  | long {u t : Session σ} : holds condition u = (.ok true, t) →
    Leaves condition tooLong allowed allowed u (.failed tooLong, t)
  | fails {k : ℕ} {u t : Session σ} {r : Report} : k ≤ allowed → holds condition u = (.error r, t) →
    Leaves condition tooLong allowed k u (.failed r, t)

theorem Leaves.succ {condition : Expression} {tooLong : Report} {allowed k : ℕ} {u : Session σ}
    {e : Outcome × Session σ} (h : Leaves condition tooLong allowed k u e) :
    Leaves condition tooLong (allowed + 1) (k + 1) u e := by
  cases h with
  | stops few stops => exact .stops (Nat.succ_le_succ few) stops
  | long holds => exact .long holds
  | fails few fails => exact .fails (Nat.succ_le_succ few) fails

end Rounds

def turned (condition : Expression) (run : Action σ) (s : Session σ) : Session σ :=
  (inFresh none run (holds condition s).2).2

section Counts

variable {run : Action σ} {body : List Statement} {rest : List Task} {condition : Expression}
  {s u : Session σ} {ms : List (Machine σ)}

theorem Turns.iterated {k : ℕ} (h : Turns run body rest
    (fun s s' => holds condition s = (.ok true, s')) (List.replicate k none) s ms u) :
    u = (turned condition run)^[k] s ∧
      ∀ i < k, (holds condition ((turned condition run)^[i] s)).1 = .ok true := by
  induction k generalizing s ms with
  | zero =>
    cases h
    exact ⟨rfl, nofun⟩
  | succ k ih =>
    cases h with
    | @turn _ _ s s' t u ms left ready ended later =>
      have round : turned condition run s = t := by rw [turned, ready, ended]
      obtain ⟨last, before⟩ := ih later
      refine ⟨by rw [Function.iterate_succ_apply, round, last], fun i hi => ?_⟩
      cases i with
      | zero => rw [Function.iterate_zero_apply, ready]
      | succ i =>
        rw [Function.iterate_succ_apply, round]
        exact before i (Nat.lt_of_succ_lt_succ hi)

theorem Leaves.counts {tooLong : Report} {allowed k : ℕ} {e : Outcome × Session σ}
    (leaves : Leaves condition tooLong allowed k u e)
    (turns : Turns run body rest (fun s s' => holds condition s = (.ok true, s'))
      (List.replicate k none) s ms u) :
    let tested (i : ℕ) := (holds condition ((turned condition run)^[i] s)).1
    (∀ j ≤ allowed, (∀ i < j, tested i = .ok true) → tested j = .ok false →
      k = j ∧ e.1 = .normal) ∧
    ((∀ i ≤ allowed, tested i = .ok true) → k = allowed ∧ e.1 = .failed tooLong) := by
  intro tested
  obtain ⟨rfl, held⟩ := turns.iterated
  refine ⟨fun j hj all no => ?_, fun all => ?_⟩
  · rcases Nat.lt_trichotomy k j with early | rfl | late
    · have yes := all k early
      cases leaves with
      | stops _ stops => cases yes.symm.trans (congrArg Prod.fst stops)
      | long _ => omega
      | fails _ fails => cases yes.symm.trans (congrArg Prod.fst fails)
    · cases leaves with
      | stops => exact ⟨rfl, rfl⟩
      | long yes => cases no.symm.trans (congrArg Prod.fst yes)
      | fails _ fails => cases no.symm.trans (congrArg Prod.fst fails)
    · cases no.symm.trans (held j late)
  · cases leaves with
    | stops few stops => cases (all k few).symm.trans (congrArg Prod.fst stops)
    | long => exact ⟨rfl, rfl⟩
    | fails few fails => cases (all k few).symm.trans (congrArg Prod.fst fails)

end Counts

/-- The way of a loop from its start to its end, with the blocks that it begins, and what comes of
it if these all end normally. -/
def Counted (ob : Observer σ) (limits : Limits) (rest : List Task) (s : Session σ)
    (loop : Statement) (body : List Statement)
    (Normally : List (Machine σ) → Outcome × Session σ → Prop) : Prop :=
  let call := Call.within ob limits (s.callsLeft limits)
  ∃ opened, Course ob limits rest (start ob limits rest s loop) opened
      (loop.perform ob limits call s) ∧
    ((∀ m ∈ opened, (Statement.performBlock ob limits call body m.session).1 = .normal) →
      Normally opened (loop.perform ob limits call s))

theorem Goes.counted {ob : Observer σ} {limits : Limits} {rest : List Task} {s s' : Session σ}
    {loop : Statement} {body : List Statement} {rounds : Rounds} {goOn : Action σ}
    {Normally : List (Machine σ) → Outcome × Session σ → Prop}
    (begun : start ob limits rest s loop = ⟨.normal, .loop rounds :: rest, s'⟩)
    (done : loop.perform ob limits (Call.within ob limits (s.callsLeft limits)) s = goOn s')
    (goes : Goes ob limits (Statement.performBlock ob limits
      (Call.within ob limits (s.callsLeft limits)) body) rest rounds goOn Normally s') :
    Counted ob limits rest s loop body Normally := by
  obtain ⟨opened, passage, normally⟩ := goes
  refine ⟨opened, ?_, done ▸ normally⟩
  rw [begun, done]
  exact passage.course

end Machine

end StepsLang
