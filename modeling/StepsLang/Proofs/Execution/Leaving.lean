import StepsLang.Proofs.Execution.Limits
import StepsLang.Proofs.Execution.Signal

namespace StepsLang

inductive Outcome.Leaving : Outcome → Prop
  | exited : Leaving .exited
  | returned (v) : Leaving (.returned v)

namespace Task

def nests : Task → Bool
  | block _ | loop _ | handler _ | continuation _ | pending _ | closeBlock => true
  | arms .. | closeFrame _ | receive .. => false

/-- The stacks that can be under a block: arms are gone by then, and the result of a call is awaited
right under its frame. -/
inductive Standing : List Task → Prop
  | nil : Standing []
  | cons : task.nests = true → Standing rest → Standing (task :: rest)
  | frame : Standing rest → Standing (.closeFrame name :: .receive target l :: rest)

/-- The stacks of which at most the task on top is of another kind. -/
def Poised (tasks : List Task) : Prop := Standing tasks ∨ Standing tasks.tail

variable {task : Task} {tasks rest : List Task}

theorem Poised.under_block {body : List Statement} (h : Poised (.block body :: tasks)) :
    Standing tasks := by
  rcases h with whole | under
  · cases whole with
    | cons _ under => exact under
  · exact under

theorem Standing.forall_nests (h : Standing tasks) (inFrame : ∀ name, .closeFrame name ∉ tasks) :
    ∀ task ∈ tasks, task.nests = true := by
  induction h with
  | nil => exact List.forall_mem_nil _
  | cons nests _ ih =>
    refine List.forall_mem_cons.2 ⟨nests, ih fun name hn => ?_⟩
    exact inFrame name (List.mem_cons_of_mem _ hn)
  | frame => exact absurd List.mem_cons_self (inFrame _)

end Task

namespace Machine
open StepsLang.Action StepsLang.Task

variable {ob : Observer σ} {limits : Limits} {o : Outcome} {task : Task} {tasks rest : List Task}
  {s t : Session σ}

theorem poised_branch {condition : Expression} {yes no : Session σ → Machine σ}
    (h : Poised rest) (hy : ∀ s, Poised (yes s).tasks) (hn : ∀ s, Poised (no s).tasks) :
    Poised (branch condition rest yes no s).tasks := by
  unfold branch
  split
  · exact hy _
  · exact hn _
  · exact h

theorem poised_inside (body : List Statement) (h : Standing rest) :
    Poised (inside body rest s).tasks :=
  .inl (.cons rfl (.cons rfl h))

theorem poised_openRoutine (r : Routine) (owner : Step) (vs : List Value) (l : Location)
    (target : Option Bytes) (l' : Location) (h : Standing rest) :
    Poised (openRoutine ob limits r owner vs l (.receive target l' :: rest) s).tasks := by
  unfold openRoutine
  split
  · exact .inr h
  · split
    · exact .inr h
    · exact .inl (.cons rfl (.frame h))

theorem poised_openName (x : Bytes) (vs : List Value) (l : Location) (target : Option Bytes)
    (l' : Location) (h : Standing rest) :
    Poised (openName ob limits x vs l (.receive target l' :: rest) s).tasks := by
  unfold openName
  split
  · exact poised_openRoutine _ _ vs l target l' h
  · split
    · exact .inr h
    · split
      · exact poised_openRoutine _ _ vs l target l' h
      · exact .inr h

theorem poised_start (st : Statement) (h : Standing rest) :
    Poised (start ob limits rest s st).tasks := by
  cases st with
  | call l x arguments target =>
    simp only [start]
    split
    · exact poised_openName x _ l target l h
    · exact .inl h
  | giveBack l e => cases e <;> exact .inl h
  | branch l arms otherwise => exact .inr h
  | repeatTimes l count body =>
    simp only [start]
    split
    · exact .inr h
    · exact .inl h
    · exact .inl h
  | repeatForEach l x collection body =>
    simp only [start]
    split
    · split
      · exact .inr h
      · exact .inl h
    · exact .inl h
  | repeatWhile l condition body => exact .inr h
  | attempt l body unsuccessful continuation =>
    exact poised_inside body (.cons rfl (.cons rfl h))
  | _ => exact .inl h

theorem poised_nextRound (rounds : Rounds) (h : Standing rest) :
    Poised (nextRound limits rest s rounds).tasks := by
  cases rounds with
  | times left body =>
    cases left with
    | zero => exact .inl h
    | succ n => exact poised_inside body (.cons rfl h)
  | each x left body =>
    cases left with
    | nil => exact .inl h
    | cons v vs => exact .inl (.cons rfl (.cons rfl (.cons rfl h)))
  | «while» l condition done body =>
    refine poised_branch (.inl h) (fun s => ?_) fun _ => .inl h
    split
    · exact .inl h
    · exact poised_inside body (.cons rfl h)

theorem poised_perform (task : Task) (o : Outcome) (h : Standing rest) :
    Poised (perform ob limits rest s task o).tasks := by
  cases task with
  | block sts =>
    cases sts with
    | nil => exact .inl h
    | cons st more =>
      cases o with
      | normal =>
        simp only [perform, begin]
        split
        · exact .inr h
        · split
          · exact poised_start st (.cons rfl h)
          · exact .inr h
      | _ => exact .inl h
  | arms arms otherwise =>
    cases o with
    | normal =>
      cases arms with
      | nil =>
        cases otherwise with
        | none => exact .inl h
        | some body => exact poised_inside body h
      | cons arm more =>
        obtain ⟨l, condition, body⟩ := arm
        exact poised_branch (.inl h) (fun _ => poised_inside body h) fun _ => .inr h
    | _ => cases arms <;> cases otherwise <;> exact .inl h
  | loop rounds =>
    cases o with
    | normal => exact poised_nextRound rounds h
    | _ => exact .inl h
  | handler body =>
    cases body with
    | none => cases o <;> exact .inl h
    | some body =>
      cases o with
      | failed r => exact .inl (.cons rfl (.cons rfl h))
      | _ => exact .inl h
  | continuation body =>
    cases body with
    | none => cases o <;> exact .inl h
    | some body =>
      cases o with
      | stopped => exact .inl h
      | _ => exact poised_inside body (.cons rfl h)
  | receive target l => cases target <;> cases o <;> exact .inl h
  | _ => exact .inl h

theorem poised_step {m m' : Machine σ} (h : Poised m.tasks) (step : m.step ob limits = some m') :
    Poised m'.tasks := by
  obtain ⟨o, tasks, s⟩ := m
  cases tasks with
  | nil => cases step
  | cons task rest =>
    cases step
    rcases h with whole | under
    · cases whole with
      | cons _ under => exact poised_perform task o under
      -- The result of the call that ends here is on top now.
      | frame under => exact .inr under
    · exact poised_perform task o under

/-- Where an `exit` or `return` is when it has gone through tasks of a frame, if the last blocks of
the attempts among them all end normally. -/
def wayOut (ob : Observer σ) (limits : Limits) : List Task → Session σ → Option (Session σ)
  | [], s => some s
  | .closeBlock :: rest, s => wayOut ob limits rest { s with env := s.env.popBlock }
  | .continuation (some body) :: rest, s =>
    match inBlock (Statement.performBlock ob limits
      (Call.within ob limits (s.callsLeft limits)) body) s with
    | (.normal, s) => wayOut ob limits rest s
    | _ => none
  | _ :: rest, s => wayOut ob limits rest s

theorem continuation_leads (leaving : o.Leaving) {body : List Statement}
    (ended : inBlock (Statement.performBlock ob limits
      (Call.within ob limits (s.callsLeft limits)) body) s = (.normal, t)) :
    Leads ob limits ⟨o, .continuation (some body) :: rest, s⟩ ⟨o, rest, t⟩ := by
  have opened : perform ob limits rest s (.continuation (some body)) o =
      inside body (.pending o :: rest) s := by
    cases leaving <;> rfl
  have last : Leads ob limits (inside body (.pending o :: rest) s) _ :=
    inside_ends (block_ends (routine_ends (s.callsLeft limits)) body) rfl
  unfold atOnce at last
  rw [ended, ← opened] at last
  exact last.task.trans (Leads.task (.refl _))

theorem wayOut_leads (leaving : o.Leaving) (nests : ∀ task ∈ tasks, task.nests = true)
    (owned : o = .exited → ∀ rounds, .loop rounds ∉ tasks)
    (out : wayOut ob limits tasks s = some t) :
    Leads ob limits ⟨o, tasks, s⟩ ⟨o, [], t⟩ := by
  induction tasks generalizing s with
  | nil =>
    cases out
    exact .refl _
  | cons task rest ih =>
    obtain ⟨nested, nests⟩ := List.forall_mem_cons.1 nests
    have on {s : Session σ} (out : wayOut ob limits rest s = some t) :
        Leads ob limits ⟨o, rest, s⟩ ⟨o, [], t⟩ :=
      ih nests (fun e rounds hr => owned e rounds (List.mem_cons_of_mem _ hr)) out
    cases task with
    | block sts => exact Leads.task (by cases leaving <;> cases sts <;> exact on out)
    | loop rounds =>
      cases leaving with
      | exited => exact absurd List.mem_cons_self (owned rfl rounds)
      | returned v => exact Leads.task (on out)
    | handler body => exact Leads.task (by cases leaving <;> cases body <;> exact on out)
    | continuation body =>
      cases body with
      | none => exact Leads.task (by cases leaving <;> exact on out)
      | some body =>
        simp only [wayOut] at out
        split at out
        · next ended => exact (continuation_leads leaving ended).trans (on out)
        · cases out
    | pending p => exact Leads.task (by cases leaving <;> exact on out)
    | closeBlock => exact Leads.task (on out)
    | _ => cases nested

theorem execute_ends (st : Statement) (rest : List Task) (s : Session σ) :
    Leads ob limits (begin ob limits rest s st)
      (atOnce (st.execute ob limits (s.callsLeft limits)) rest s) := by
  simp only [atOnce, Statement.execute, announced_eq, begin]
  split
  · exact .refl _
  · split
    · exact start_ends (routine_ends _) st rest _ rfl
    · exact .refl _

variable {r : Routine} {owner : Step} {vs : List Value} {l : Location}

/-- While a call carries out its routine, a statement in the frame of the call ends in such a way.
An `exit` is in no loop there, and the last blocks of the attempts around the statement end
normally. -/
def LeftBy (ob : Observer σ) (limits : Limits) (r : Routine) (owner : Step) (vs : List Value)
    (l : Location) (s : Session σ) (o : Outcome) : Prop :=
  ∃ st more tasks u w,
    Leads ob limits ⟨.normal, [.block r.body], s.call ob r owner vs l⟩
      ⟨.normal, .block (st :: more) :: tasks, u⟩ ∧
    Statement.execute ob limits (u.callsLeft limits) st u = (o, w) ∧
    (∀ name, .closeFrame name ∉ tasks) ∧ (o = .exited → ∀ rounds, .loop rounds ∉ tasks) ∧
    (wayOut ob limits tasks w).isSome = true

def bodyEnd (ob : Observer σ) (limits : Limits) (r : Routine) (owner : Step) (vs : List Value)
    (l : Location) (s : Session σ) : Outcome × Session σ :=
  let inside := s.call ob r owner vs l
  Statement.performBlock ob limits (Call.within ob limits (inside.callsLeft limits)) r.body inside

theorem LeftBy.bodyEnd (leaving : o.Leaving) (h : LeftBy ob limits r owner vs l s o) :
    (bodyEnd ob limits r owner vs l s).1 = o := by
  obtain ⟨st, more, tasks, u, w, reached, ended, inFrame, owned, out⟩ := h
  obtain ⟨t, out⟩ := Option.isSome_iff_exists.1 out
  have nests : ∀ task ∈ tasks, task.nests = true := by
    obtain ⟨k, e⟩ := reached
    have begun : Poised [.block r.body] := .inl (.cons rfl .nil)
    have poised : Poised (after ob limits k ⟨.normal, [.block r.body],
        s.call ob r owner vs l⟩).tasks :=
      after_keeps (P := fun m => Poised m.tasks) poised_step begun k
    rw [e] at poised
    exact poised.under_block.forall_nests inFrame
  have stands : Leads ob limits ⟨.normal, .block (st :: more) :: tasks, u⟩
      ⟨o, .block more :: tasks, w⟩ := by
    have ends : Leads ob limits (begin ob limits (.block more :: tasks) u st) _ :=
      execute_ends st (.block more :: tasks) u
    unfold atOnce at ends
    rw [ended] at ends
    exact Leads.task ends
  have leaves : Leads ob limits ⟨o, .block more :: tasks, w⟩ ⟨o, [], t⟩ :=
    wayOut_leads leaving (List.forall_mem_cons.2 ⟨rfl, nests⟩)
      (fun e rounds => by simpa using owned e rounds) out
  have whole : Leads ob limits ⟨.normal, [.block r.body], s.call ob r owner vs l⟩ _ :=
    performBlock_ends r.body [] (s.call ob r owner vs l)
  exact (whole.end_unique ((reached.trans stands).trans leaves)).1

theorem invoke_opened (shallow : s.env.depth < limits.depth)
    (count : vs.length = r.parameters.length) :
    Call.invoke ob limits (s.callsLeft limits) r owner vs l s =
      Call.finish ob r.name (Machine.bodyEnd ob limits r owner vs l s) := by
  obtain ⟨n, left⟩ : ∃ n, s.callsLeft limits = n + 1 :=
    ⟨limits.depth - s.env.depth - 1, by unfold Session.callsLeft; omega⟩
  have inner : (s.call ob r owner vs l).callsLeft limits = n := by
    unfold Session.callsLeft at left ⊢
    rw [depth_call]
    omega
  simp only [Machine.bodyEnd, left, inner, Call.invoke, count, bne_self_eq_false,
    Bool.false_eq_true, if_false]
  rfl

/-- An `exit` is owned by the innermost loop around it, or else by its routine, and a `return` by
its routine. -/
theorem leaving_owned (ob : Observer σ) (limits : Limits) :
    (∀ n (st : Statement) (s : Session σ),
      ((st.execute ob limits n s).1 = .exited → ∃ l, Statement.Loose [st] (.exit l)) ∧
      ∀ v, (st.execute ob limits n s).1 = .returned v →
        ∃ l e, Statement.Within [st] (.giveBack l e)) ∧
    (∀ n (st : Statement) (s : Session σ), st.isLoop = true →
      (st.execute ob limits n s).1 ≠ .exited) ∧
    (∀ n (st : Statement) (s : Session σ), st.isCall = true →
      (st.execute ob limits n s).1 ≠ .exited ∧ ∀ v, (st.execute ob limits n s).1 ≠ .returned v) ∧
    ∀ r owner vs l (s : Session σ), s.env.depth < limits.depth →
      vs.length = r.parameters.length →
      let ended := (bodyEnd ob limits r owner vs l s).1
      let result := (Call.invoke ob limits (s.callsLeft limits) r owner vs l s).1
      (ended = .normal ∨ ended = .exited ∨ LeftBy ob limits r owner vs l s .exited →
        result = .value .nothing) ∧
      ∀ v, ended = .returned v ∨ LeftBy ob limits r owner vs l s (.returned v) →
        result = .value v := by
  refine ⟨fun n st s => ⟨Statement.loose_of_exited, fun v => Statement.within_of_returned⟩,
    fun n st s => Statement.loop_not_exited, fun n st s => Statement.call_not_leaving, ?_⟩
  intro r owner vs l s shallow count ended result
  have opened : result = (Call.finish ob r.name (bodyEnd ob limits r owner vs l s)).1 :=
    congrArg Prod.fst (invoke_opened shallow count)
  -- Whatever the way, the body has come to the end in question.
  have gives {o : Outcome} {x : CallResult} (finish : ∀ t, (Call.finish ob r.name (o, t)).1 = x)
      (e : ended = o) : result = x := by
    rw [opened, ← finish (bodyEnd ob limits r owner vs l s).2, ← e]
  refine ⟨?_, ?_⟩
  · rintro (normal | exited | left)
    · exact gives (fun _ => rfl) normal
    · exact gives (fun _ => rfl) exited
    · exact gives (fun _ => rfl) (left.bodyEnd .exited)
  · rintro v (returned | left)
    · exact gives (fun _ => rfl) returned
    · exact gives (fun _ => rfl) (left.bodyEnd (.returned v))

theorem leaving_owned_nested :
    let back : Statement := .giveBack {} (some (.text {} "found"))
    let round : List Statement := [.branch {} [({}, .boolean {} true, [back])] none]
    let last : List Statement := [.display {} (.text {} "done")]
    let step : Step :=
      { name := "find"
        body := [.attempt {} [.repeatWhile {} (.boolean {} true) round] none (some last)] }
    let s : Session Unit := ⟨.fresh "main" false, {}, ()⟩
    s.env.depth < ({} : Limits).depth ∧ step.parameters = [] ∧
      LeftBy Observer.none {} step.toRoutine step [] {} s (.returned (.text "found")) ∧
      (Call.invoke Observer.none {} (s.callsLeft {}) step.toRoutine step [] {} s).1 =
        .value (.text "found") := by
  intro back round last step s
  have shallow : s.env.depth < ({} : Limits).depth := by decide
  let opened := s.call Observer.none step.toRoutine step [] {}
  let u := (after Observer.none {} 5 ⟨.normal, [.block step.body], opened⟩).session
  let tasks : List Task :=
    [.closeBlock, .block [], .closeBlock, .loop (.while {} (.boolean {} true) 1 round), .block [],
      .closeBlock, .handler none, .continuation (some last), .block []]
  have out : (wayOut Observer.none {} tasks
      (back.execute Observer.none {} (u.callsLeft {}) u).2).isSome = true := by
    decide +kernel
  have left : LeftBy Observer.none {} step.toRoutine step [] {} s (.returned (.text "found")) :=
    ⟨back, [], tasks, u, _, ⟨5, rfl⟩, rfl, by simp [tasks], nofun, out⟩
  have owned := (leaving_owned Observer.none {}).2.2.2 step.toRoutine step [] {} s shallow rfl
  exact ⟨shallow, rfl, left, owned.2 _ (.inr left)⟩

end Machine

end StepsLang
