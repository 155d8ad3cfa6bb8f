import StepsLang.Proofs.Execution.Discipline

/-! A machine that carries out programs one small step at a time.  What is left to do is a stack of
tasks, and the depth of calls is that of the environment, so nothing in the machine bounds the
length of a run. -/

namespace StepsLang

inductive Rounds
  | times (left : Nat) (body : List Statement)
  | each (x : Bytes) (left : List Value) (body : List Statement)
  | while (l : Location) (condition : Expression) (done : Nat) (body : List Statement)

/-- What is left to do.  A task is looked at when everything above it on the stack has ended. -/
inductive Task
  | block (rest : List Statement)
  | arms (rest : List (Location × Expression × List Statement))
    (otherwise : Option (List Statement))
  | loop (rounds : Rounds)
  | handler (body : Option (List Statement))
  | continuation (body : Option (List Statement))
  | pending (o : Outcome)
  | closeBlock
  | closeFrame (name : Bytes)
  | receive (target : Option Bytes) (l : Location)

/-- A run between two steps, with the end of the task that was done last. -/
structure Machine (σ : Type) where
  signal : Outcome
  tasks : List Task
  session : Session σ

def CallResult.signal : CallResult → Outcome
  | .value v => .returned v
  | .failed r => .failed r
  | .stopped => .stopped

namespace Machine
open StepsLang.Action

def inside (body : List Statement) (rest : List Task) (s : Session σ) : Machine σ :=
  ⟨.normal, .block body :: .closeBlock :: rest, { s with env := s.env.pushBlock }⟩

def insideWith (x : Bytes) (v : Value) (body : List Statement) (rest : List Task)
    (s : Session σ) : Machine σ :=
  ⟨.normal, .block body :: .closeBlock :: rest, { s with env := s.env.pushBlock.define x v }⟩

def branch (condition : Expression) (rest : List Task) (yes no : Session σ → Machine σ)
    (s : Session σ) : Machine σ :=
  match holds condition s with
  | (.ok true, s) => yes s
  | (.ok false, s) => no s
  | (.error r, s) => ⟨.failed r, rest, s⟩

def atOnce (a : Action σ) (rest : List Task) (s : Session σ) : Machine σ :=
  ⟨(a s).1, rest, (a s).2⟩

def openRoutine (ob : Observer σ) (limits : Limits) (r : Routine) (owner : Step) (vs : List Value)
    (l : Location) (rest : List Task) (s : Session σ) : Machine σ :=
  if limits.depth ≤ s.env.depth then ⟨.failed (Call.tooDeep limits.depth r.name l), rest, s⟩
  else if vs.length ≠ r.parameters.length then
    ⟨.failed (Call.miscounted r.name r.parameterNames vs.length l), rest, s⟩
  else ⟨.normal, .block r.body :: .closeFrame r.name :: rest, s.call ob r owner vs l⟩

def openName (ob : Observer σ) (limits : Limits) (x : Bytes) (vs : List Value) (l : Location)
    (rest : List Task) (s : Session σ) : Machine σ :=
  match s.env.running.head?.bind fun owner => (owner.riser? x).map (·, owner) with
  | some (riser, owner) => openRoutine ob limits riser owner vs l rest s
  | none =>
    match Native.ofName? x with
    | some f => ⟨(Call.native f vs l s).1.signal, rest, (Call.native f vs l s).2⟩
    | none =>
      match s.env.resolve x l with
      | .ok step => openRoutine ob limits step.toRoutine step vs l rest s
      | .error r => ⟨.failed r, rest, s⟩

def start (ob : Observer σ) (limits : Limits) (rest : List Task) (s : Session σ) :
    Statement → Machine σ
  | .display _ e => atOnce (evaluating e Action.display) rest s
  | .set l x e => atOnce (evaluating e fun v => assign x v l) rest s
  | .setIndex l x index e =>
    atOnce (reading x l fun container => evaluating index fun key => evaluating e fun v =>
      onHeap (Value.storing container key v l)) rest s
  | .call l x arguments target =>
    match Expression.evalItems s.env arguments s.world with
    | (.ok vs, world) => openName ob limits x vs l (.receive target l :: rest) { s with world }
    | (.error r, world) => ⟨.failed r, rest, { s with world }⟩
  | .giveBack _ none => ⟨.returned .nothing, rest, s⟩
  | .giveBack _ (some e) => atOnce (evaluating e fun v => finish (.returned v)) rest s
  | .exit _ => ⟨.exited, rest, s⟩
  | .branch _ arms otherwise => ⟨.normal, .arms arms otherwise :: rest, s⟩
  | .repeatTimes l count body =>
    match count.eval s.env s.world with
    | (.ok (.number n), world) =>
      ⟨.normal, .loop (.times n.rounds body) :: rest, { s with world }⟩
    -- What is no number cannot be counted to, so this ends in the report of the loop.
    | (.ok v, world) => atOnce (Action.repeatTimes l skip v) rest { s with world }
    | (.error r, world) => ⟨.failed r, rest, { s with world }⟩
  | .repeatForEach l x collection body =>
    match collection.eval s.env s.world with
    | (.ok v, world) =>
      match v.items? world.heap with
      | some items => ⟨.normal, .loop (.each x items body) :: rest, { s with world }⟩
      | none => atOnce (Action.repeatForEach l x skip v) rest { s with world }
    | (.error r, world) => ⟨.failed r, rest, { s with world }⟩
  | .repeatWhile l condition body => ⟨.normal, .loop (.while l condition 0 body) :: rest, s⟩
  | .attempt _ body unsuccessful continuation =>
    inside body (.handler unsuccessful :: .continuation continuation :: rest) s
  | .addToList l e x =>
    atOnce (evaluating e fun v => reading x l fun list => onHeap (Value.addingTo list v l)) rest s
  | .removeFromList l e x =>
    atOnce (evaluating e fun v => reading x l fun list =>
      onHeap (Value.removingFrom list v l)) rest s
  | .note _ _ => ⟨.normal, rest, s⟩

def begin (ob : Observer σ) (limits : Limits) (rest : List Task) (s : Session σ)
    (st : Statement) : Machine σ :=
  if st.isNote then ⟨.normal, rest, s⟩
  else if (s.announce ob st).1 then start ob limits rest (s.announce ob st).2 st
  else ⟨.stopped, rest, (s.announce ob st).2⟩

def nextRound (limits : Limits) (rest : List Task) (s : Session σ) : Rounds → Machine σ
  | .times 0 _ => ⟨.normal, rest, s⟩
  | .times (n + 1) body => inside body (.loop (.times n body) :: rest) s
  | .each _ [] _ => ⟨.normal, rest, s⟩
  | .each x (v :: vs) body => insideWith x v body (.loop (.each x vs body) :: rest) s
  | .while l condition done body =>
    branch condition rest
      (fun s =>
        if limits.rounds ≤ done then ⟨.failed (tooLong l limits.rounds), rest, s⟩
        else inside body (.loop (.while l condition (done + 1) body) :: rest) s)
      (fun s => ⟨.normal, rest, s⟩) s

def perform (ob : Observer σ) (limits : Limits) (rest : List Task) (s : Session σ) :
    Task → Outcome → Machine σ
  | .block [], o => ⟨o, rest, s⟩
  | .block (st :: more), .normal =>
    begin ob limits (.block more :: rest) s st
  | .arms [] none, .normal => ⟨.normal, rest, s⟩
  | .arms [] (some body), .normal => inside body rest s
  | .arms ((_, condition, body) :: more) otherwise, .normal =>
    branch condition rest (inside body rest) (fun s => ⟨.normal, .arms more otherwise :: rest, s⟩) s
  | .loop rounds, .normal => nextRound limits rest s rounds
  | .loop _, .exited => ⟨.normal, rest, s⟩
  | .handler (some body), .failed r =>
    insideWith "problem_message" (.text r.message) body rest s
  | .handler none, .failed _ => ⟨.normal, rest, s⟩
  | .continuation _, .stopped => ⟨.stopped, rest, s⟩
  | .continuation (some body), o => inside body (.pending o :: rest) s
  | .pending o, p => ⟨p.orElse o, rest, s⟩
  | .closeBlock, o => ⟨o, rest, { s with env := s.env.popBlock }⟩
  | .closeFrame name, o =>
    ⟨(Call.finish ob name (o, s)).1.signal, rest, (Call.finish ob name (o, s)).2⟩
  | .receive (some x) l, .returned v => atOnce (assign x v l) rest s
  | .receive none _, .returned _ => ⟨.normal, rest, s⟩
  -- Any other end is no business of the task and goes on to the next one.
  | _, o => ⟨o, rest, s⟩

def step (ob : Observer σ) (limits : Limits) (m : Machine σ) : Option (Machine σ) :=
  match m.tasks with
  | [] => none
  | task :: rest => some (perform ob limits rest m.session task m.signal)

def after (ob : Observer σ) (limits : Limits) : Nat → Machine σ → Machine σ
  | 0, m => m
  | k + 1, m =>
    match m.step ob limits with
    | none => m
    | some next => after ob limits k next

def Leads (ob : Observer σ) (limits : Limits) (m m' : Machine σ) : Prop :=
  ∃ k, after ob limits k m = m'

variable {ob : Observer σ} {limits : Limits} {m m' m'' : Machine σ}

theorem after_of_step_none (h : m.step ob limits = none) (k : Nat) : after ob limits k m = m := by
  cases k with
  | zero => rfl
  | succ k => simp only [after, h]

theorem after_add (j k : Nat) (m : Machine σ) :
    after ob limits (j + k) m = after ob limits k (after ob limits j m) := by
  induction j generalizing m with
  | zero => simp only [Nat.zero_add, after]
  | succ j ih =>
    rw [Nat.succ_add]
    cases h : m.step ob limits with
    | none => simp only [after, h, after_of_step_none h]
    | some next => simp only [after, h, ih]

theorem forall_after_of_ended {P : Machine σ → Prop} {n : Nat}
    (ended : (after ob limits n m).step ob limits = none)
    (begun : ∀ k ≤ n, P (after ob limits k m)) (k : Nat) : P (after ob limits k m) := by
  rcases Nat.le_total k n with early | late
  · exact begun k early
  · obtain ⟨j, rfl⟩ := Nat.exists_eq_add_of_le late
    rw [after_add, after_of_step_none ended]
    exact begun n (Nat.le_refl n)

theorem Leads.refl (m : Machine σ) : Leads ob limits m m := ⟨0, rfl⟩

theorem Leads.trans (h : Leads ob limits m m') (h' : Leads ob limits m' m'') :
    Leads ob limits m m'' := by
  obtain ⟨j, rfl⟩ := h
  obtain ⟨k, rfl⟩ := h'
  exact ⟨j + k, after_add j k m⟩

theorem Leads.task {o : Outcome} {task : Task} {rest : List Task} {s : Session σ}
    (h : Leads ob limits (perform ob limits rest s task o) m) :
    Leads ob limits ⟨o, task :: rest, s⟩ m := by
  obtain ⟨k, rfl⟩ := h
  exact ⟨k + 1, rfl⟩

theorem depth_eq_of_confined {env after : Environment} (h : Environment.Confined env after) :
    after.depth = env.depth := by
  rw [Environment.depth, Environment.depth, h.below]

def BlockEnds (ob : Observer σ) (limits : Limits) (n : Nat) (body : List Statement) : Prop :=
  ∀ rest s, limits.depth - s.env.depth = n →
    Leads ob limits ⟨.normal, .block body :: rest, s⟩
      (atOnce (Statement.performBlock ob limits (Call.within ob limits n) body) rest s)

variable {n : Nat} {body : List Statement} {rest : List Task} {s : Session σ}

theorem inside_ends (hb : BlockEnds ob limits n body) (hs : limits.depth - s.env.depth = n) :
    Leads ob limits (inside body rest s)
      (atOnce (inBlock (Statement.performBlock ob limits (Call.within ob limits n) body)) rest s) :=
  (hb (.closeBlock :: rest) { s with env := s.env.pushBlock } hs).trans (Leads.task (.refl _))

theorem insideWith_ends (x : Bytes) (v : Value) (hb : BlockEnds ob limits n body)
    (hs : limits.depth - s.env.depth = n) :
    Leads ob limits (insideWith x v body rest s)
      (atOnce (inBlockWith x v
        (Statement.performBlock ob limits (Call.within ob limits n) body)) rest s) :=
  (hb (.closeBlock :: rest) { s with env := s.env.pushBlock.define x v } hs).trans
    (Leads.task (.refl _))

theorem env_holds (condition : Expression) (s : Session σ) :
    (holds condition s).2.env = s.env := by
  unfold holds
  split <;> rfl

theorem branch_ends (condition : Expression) {yes no : Session σ → Machine σ} {a b : Action σ}
    (hs : limits.depth - s.env.depth = n)
    (ha : ∀ s, limits.depth - s.env.depth = n → Leads ob limits (yes s) (atOnce a rest s))
    (hb : ∀ s, limits.depth - s.env.depth = n → Leads ob limits (no s) (atOnce b rest s)) :
    Leads ob limits (branch condition rest yes no s) (atOnce (choose condition a b) rest s) := by
  unfold branch atOnce choose
  have same := env_holds condition s
  rcases e : holds condition s with ⟨r | truth, t⟩
  · exact .refl _
  · rw [e] at same
    cases truth with
    | true => exact ha t (by rw [same]; exact hs)
    | false => exact hb t (by rw [same]; exact hs)

theorem loop_ends {o : Outcome} {t : Session σ} {rounds : Rounds} {next : Action σ}
    (h : o = .normal → Leads ob limits (nextRound limits rest t rounds) (atOnce next rest t)) :
    Leads ob limits ⟨o, .loop rounds :: rest, t⟩
      ⟨(afterRound next (o, t)).1, rest, (afterRound next (o, t)).2⟩ := by
  apply Leads.task
  cases o with
  | normal => exact h rfl
  | exited => exact .refl _
  | returned v => exact .refl _
  | failed r => exact .refl _
  | stopped => exact .refl _

theorem depth_inBlock (body : List Statement) (s : Session σ) :
    (inBlock (Statement.performBlock ob limits (Call.within ob limits n) body) s).2.env.depth =
      s.env.depth := by
  have h := Environment.confined_performBlock ob limits n body
  exact depth_eq_of_confined (Environment.kept_inBlock h s).toConfined

theorem depth_inBlockWith (x : Bytes) (v : Value) (body : List Statement) (s : Session σ) :
    (inBlockWith x v
      (Statement.performBlock ob limits (Call.within ob limits n) body) s).2.env.depth =
        s.env.depth := by
  have h := Environment.confined_performBlock ob limits n body
  exact depth_eq_of_confined (Environment.kept_inBlockWith h x v s).toConfined

theorem times_ends (hb : BlockEnds ob limits n body) (left : Nat) (s : Session σ)
    (hs : limits.depth - s.env.depth = n) :
    Leads ob limits (nextRound limits rest s (.times left body))
      (atOnce (times (inBlock (Statement.performBlock ob limits (Call.within ob limits n) body))
        left) rest s) := by
  induction left generalizing s with
  | zero => exact .refl _
  | succ left ih =>
    refine (inside_ends hb hs).trans (loop_ends fun _ => ih _ ?_)
    rw [depth_inBlock]
    exact hs

theorem each_ends (x : Bytes) (hb : BlockEnds ob limits n body) (vs : List Value) (s : Session σ)
    (hs : limits.depth - s.env.depth = n) :
    Leads ob limits (nextRound limits rest s (.each x vs body))
      (atOnce (forEach x (Statement.performBlock ob limits (Call.within ob limits n) body) vs)
        rest s) := by
  induction vs generalizing s with
  | nil => exact .refl _
  | cons v vs ih =>
    refine (insideWith_ends x v hb hs).trans (loop_ends fun _ => ih _ ?_)
    rw [depth_inBlockWith]
    exact hs

theorem while_ends (l : Location) (condition : Expression) (hb : BlockEnds ob limits n body)
    (left done : Nat) (hl : done + left = limits.rounds) (s : Session σ)
    (hs : limits.depth - s.env.depth = n) :
    Leads ob limits (nextRound limits rest s (.while l condition done body))
      (atOnce (loopWhile condition (tooLong l limits.rounds)
        (inBlock (Statement.performBlock ob limits (Call.within ob limits n) body)) left)
        rest s) := by
  induction left generalizing done s with
  | zero =>
    refine branch_ends condition hs (fun t ht => ?_) fun _ _ => .refl _
    have reached : limits.rounds ≤ done := by omega
    rw [if_pos reached]
    exact .refl _
  | succ left ih =>
    refine branch_ends condition hs (fun t ht => ?_) fun _ _ => .refl _
    rw [if_neg (by omega)]
    refine (inside_ends hb ht).trans (loop_ends fun _ => ih _ (by omega) _ ?_)
    rw [depth_inBlock]
    exact ht

theorem arms_ends (hb : ∀ arm ∈ arms, BlockEnds ob limits n arm.2.2)
    (ho : ∀ body ∈ otherwise, BlockEnds ob limits n body) (s : Session σ)
    (hs : limits.depth - s.env.depth = n) :
    Leads ob limits ⟨.normal, .arms arms otherwise :: rest, s⟩
      (atOnce (Statement.performArms ob limits (Call.within ob limits n) arms
        (optional (Statement.performOptional ob limits (Call.within ob limits n) otherwise)))
        rest s) := by
  apply Leads.task
  induction arms generalizing s with
  | nil =>
    cases otherwise with
    | none => exact .refl _
    | some body => exact inside_ends (ho body rfl) hs
  | cons arm arms ih =>
    obtain ⟨l, condition, body⟩ := arm
    refine branch_ends condition hs (fun t ht => ?_) fun t ht => ?_
    · exact inside_ends (hb (l, condition, body) (by simp)) ht
    · exact Leads.task (ih (fun arm ha => hb arm (by simp [ha])) t ht)

theorem handler_ends {a : Action σ} (hb : ∀ body ∈ unsuccessful, BlockEnds ob limits n body)
    (ha : limits.depth - (a s).2.env.depth = n) :
    Leads ob limits ⟨(a s).1, .handler unsuccessful :: rest, (a s).2⟩
      (atOnce (handled a
        (Statement.performOptional ob limits (Call.within ob limits n) unsuccessful)) rest s) := by
  apply Leads.task
  unfold atOnce handled
  rcases e : a s with ⟨o, t⟩
  rw [e] at ha
  cases unsuccessful with
  | none => cases o <;> exact .refl _
  | some body =>
    cases o with
    | failed r => exact insideWith_ends _ _ (hb body rfl) ha
    | _ => exact .refl _

theorem continuation_ends {a : Action σ} (hb : ∀ body ∈ continuation, BlockEnds ob limits n body)
    (ha : limits.depth - (a s).2.env.depth = n) :
    Leads ob limits ⟨(a s).1, .continuation continuation :: rest, (a s).2⟩
      (atOnce (followedBy a
        (Statement.performOptional ob limits (Call.within ob limits n) continuation)) rest s) := by
  apply Leads.task
  rcases e : a s with ⟨o, t⟩
  rw [e] at ha
  cases continuation with
  | none =>
    unfold atOnce followedBy
    rw [e]
    cases o <;> exact .refl _
  | some body =>
    by_cases ho : o = .stopped
    · subst ho
      unfold atOnce followedBy
      rw [e]
      exact .refl _
    · have last : perform ob limits rest t (.continuation (some body)) o =
          inside body (.pending o :: rest) t := by
        cases o with
        | stopped => contradiction
        | _ => rfl
      rw [last]
      unfold atOnce Statement.performOptional
      rw [followedBy_some e ho]
      exact (inside_ends (hb body rfl) ha).trans (Leads.task (.refl _))

def RoutineEnds (ob : Observer σ) (limits : Limits) (n : Nat) : Prop :=
  ∀ r owner vs l rest (s : Session σ), limits.depth - s.env.depth = n →
    Leads ob limits (openRoutine ob limits r owner vs l rest s)
      ⟨(Call.invoke ob limits n r owner vs l s).1.signal, rest,
        (Call.invoke ob limits n r owner vs l s).2⟩

theorem name_ends (hr : RoutineEnds ob limits n) (x : Bytes) (vs : List Value) (l : Location)
    (rest : List Task) (s : Session σ) (hs : limits.depth - s.env.depth = n) :
    Leads ob limits (openName ob limits x vs l rest s)
      ⟨(Call.within ob limits n x vs l s).1.signal, rest,
        (Call.within ob limits n x vs l s).2⟩ := by
  unfold openName Call.within Call.byName
  rcases s.env.running.head?.bind fun owner => (owner.riser? x).map (·, owner)
    with _ | ⟨riser, owner⟩
  · rcases Native.ofName? x with _ | f
    · rcases s.env.resolve x l with r | step
      · exact .refl _
      · exact hr _ _ vs l rest s hs
    · exact .refl _
  · exact hr riser owner vs l rest s hs

theorem call_ends (hr : RoutineEnds ob limits n) (x : Bytes) (target : Option Bytes)
    (vs : List Value) (l : Location) (s : Session σ) (hs : limits.depth - s.env.depth = n) :
    Leads ob limits (openName ob limits x vs l (.receive target l :: rest) s)
      (atOnce (calling (Call.within ob limits n) x target l vs) rest s) := by
  refine (name_ends hr x vs l _ s hs).trans (Leads.task ?_)
  unfold atOnce calling
  rcases Call.within ob limits n x vs l s with ⟨r, t⟩
  cases r with
  | value v => cases target <;> exact .refl _
  | failed r => cases target <;> exact .refl _
  | stopped => cases target <;> exact .refl _

theorem andThen_ends {a b : Action σ} {more : List Statement}
    (h : (a s).1 = .normal →
      Leads ob limits ⟨.normal, .block more :: rest, (a s).2⟩ (atOnce b rest (a s).2)) :
    Leads ob limits ⟨(a s).1, .block more :: rest, (a s).2⟩ (atOnce (andThen a b) rest s) := by
  unfold atOnce andThen at *
  rcases e : a s with ⟨o, t⟩
  rw [e] at h
  cases o with
  | normal => exact h rfl
  | _ => cases more <;> exact Leads.task (.refl _)

theorem depth_handled (body : List Statement) (unsuccessful : Option (List Statement))
    (s : Session σ) :
    (handled (inBlock (Statement.performBlock ob limits (Call.within ob limits n) body))
      (Statement.performOptional ob limits (Call.within ob limits n) unsuccessful)
      s).2.env.depth = s.env.depth := by
  have law := Environment.confined_law ob
  have calls := Environment.confined_caller ob limits n
  have first := Environment.kept_inBlock (law.performBlock limits calls body)
  have kept := Environment.kept_composable.handled first fun b hb v =>
    Environment.kept_inBlockWith ((law.scheme limits calls).performOptional unsuccessful b hb) _ v
  exact depth_eq_of_confined (kept s).toConfined

mutual
theorem start_ends (hr : RoutineEnds ob limits n) : (st : Statement) → ∀ rest (s : Session σ),
    limits.depth - s.env.depth = n →
      Leads ob limits (start ob limits rest s st)
        (atOnce (st.perform ob limits (Call.within ob limits n)) rest s)
  | .display _ _, _, _, _ => .refl _
  | .set _ _ _, _, _, _ => .refl _
  | .setIndex _ _ _ _, _, _, _ => .refl _
  | .call l x arguments target, rest, s, hs => by
    simp only [start, Statement.perform, atOnce, evaluatingAll, obtaining]
    rcases Expression.evalItems s.env arguments s.world with ⟨r | vs, w⟩
    · exact .refl _
    · exact call_ends hr x target vs l _ hs
  | .giveBack _ none, _, _, _ => .refl _
  | .giveBack _ (some _), _, _, _ => .refl _
  | .exit _, _, _, _ => .refl _
  | .branch _ arms otherwise, _, s, hs =>
    arms_ends (armBlocks_end hr arms) (optionalBlock_ends hr otherwise) s hs
  | .repeatTimes l count body, rest, s, hs => by
    simp only [start, Statement.perform, atOnce, evaluating, obtaining]
    rcases count.eval s.env s.world with ⟨r | v, w⟩
    · exact .refl _
    · cases v with
      | number m => exact Leads.task (times_ends (block_ends hr body) m.rounds _ hs)
      | _ => exact .refl _
  | .repeatForEach l x collection body, rest, s, hs => by
    simp only [start, Statement.perform, atOnce, evaluating, obtaining, Action.repeatForEach]
    rcases collection.eval s.env s.world with ⟨r | v, w⟩
    · exact .refl _
    · simp only
      cases v.items? w.heap with
      | none => exact .refl _
      | some items => exact Leads.task (each_ends x (block_ends hr body) items _ hs)
  | .repeatWhile l condition body, rest, s, hs =>
    Leads.task (while_ends l condition (block_ends hr body) limits.rounds 0 (Nat.zero_add _) s hs)
  | .attempt _ body unsuccessful continuation, rest, s, hs => by
    have kept : limits.depth - (inBlock (Statement.performBlock ob limits
        (Call.within ob limits n) body) s).2.env.depth = n := by rwa [depth_inBlock]
    refine (inside_ends (block_ends hr body) hs).trans ?_
    refine (handler_ends (optionalBlock_ends hr unsuccessful) kept).trans ?_
    refine continuation_ends (optionalBlock_ends hr continuation) ?_
    rwa [depth_handled]
  | .addToList _ _ _, _, _, _ => .refl _
  | .removeFromList _ _ _, _, _, _ => .refl _
  | .note _ _, _, _, _ => .refl _
termination_by structural st => st

theorem block_ends (hr : RoutineEnds ob limits n) : (body : List Statement) →
    BlockEnds ob limits n body
  | [], _, _, _ => Leads.task (.refl _)
  | st :: more, rest, s, hs => by
    have first : Leads ob limits (begin ob limits (.block more :: rest) s st)
        (atOnce (st.execute ob limits n) (.block more :: rest) s) := by
      simp only [atOnce, Statement.execute, announced_eq, begin]
      split
      · exact .refl _
      · split
        · exact start_ends hr st _ _ hs
        · exact .refl _
    have kept := depth_eq_of_confined (Environment.confined_execute ob limits n st s)
    refine Leads.task (first.trans (andThen_ends fun _ => block_ends hr more rest _ ?_))
    rwa [kept]
termination_by structural body => body

theorem optionalBlock_ends (hr : RoutineEnds ob limits n) : (block : Option (List Statement)) →
    ∀ body ∈ block, BlockEnds ob limits n body
  | none, _, h => by cases h
  | some body, _, h => by
    cases h
    exact block_ends hr body
termination_by structural block => block

theorem armBlocks_end (hr : RoutineEnds ob limits n) :
    (arms : List (Location × Expression × List Statement)) →
      ∀ arm ∈ arms, BlockEnds ob limits n arm.2.2
  | [], _, h => by cases h
  | (_, _, body) :: more, arm, h => by
    rcases List.mem_cons.1 h with rfl | h
    · exact block_ends hr body
    · exact armBlocks_end hr more arm h
termination_by structural arms => arms
end

theorem depth_call (r : Routine) (owner : Step) (vs : List Value) (l : Location) (s : Session σ) :
    (s.call ob r owner vs l).env.depth = s.env.depth + 1 := by
  have around := Session.around_call ob r owner vs l s
  rw [Environment.depth, around.below]
  rfl

theorem finish_signal (name : Bytes) (a : Action σ) (rest : List Task) (s : Session σ) :
    Leads ob limits (atOnce a (.closeFrame name :: rest) s)
      ⟨(Call.finish ob name (a s)).1.signal, rest, (Call.finish ob name (a s)).2⟩ :=
  Leads.task (.refl _)

theorem routine_ends (n : Nat) : RoutineEnds ob limits n := by
  induction n with
  | zero =>
    intro r owner vs l rest s hs
    have deep : limits.depth ≤ s.env.depth := by omega
    unfold openRoutine
    rw [if_pos deep]
    exact .refl _
  | succ n ih =>
    intro r owner vs l rest s hs
    have open_ : ¬ limits.depth ≤ s.env.depth := by omega
    unfold openRoutine Call.invoke
    rw [if_neg open_]
    by_cases count : vs.length = r.parameters.length
    · simp only [count, bne_self_eq_false, Bool.false_eq_true, ne_eq, not_true_eq_false, if_false]
      have inside := block_ends ih r.body (.closeFrame r.name :: rest) (s.call ob r owner vs l)
        (by rw [depth_call]; omega)
      exact inside.trans (finish_signal r.name _ rest _)
    · simp only [ne_eq, count, not_false_eq_true, if_true, bne_iff_ne]
      exact .refl _

theorem performBlock_ends (body : List Statement) (rest : List Task) (s : Session σ) :
    Leads ob limits ⟨.normal, .block body :: rest, s⟩
      (atOnce (Statement.performBlock ob limits
        (Call.within ob limits (s.callsLeft limits)) body) rest s) :=
  block_ends (routine_ends _) body rest s rfl

end Machine

end StepsLang
