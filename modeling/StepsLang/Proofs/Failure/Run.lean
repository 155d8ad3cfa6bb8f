import StepsLang.Proofs.Execution.Activation
import StepsLang.Proofs.Failure.Value

namespace StepsLang
open Report

def Expression.Blamed (e : Expression) (r : Report) : Prop :=
  ∃ part, e.Part part ∧ r.OfRun part.location

namespace Environment

variable (env : Environment) (x : Bytes) (l : Location)

theorem failsOnly_get : FailsOnly (OfRun l) (env.get x l) := by
  have undefined := ofRun_undefinedVariable x l (env.visible.map (·.1))
  unfold get Environment.undefined
  split
  · exact failsOnly_ok _
  · refine (failsOnly_error _).2 ?_
    split
    · exact ⟨undefined.code, undefined.message, by simp, undefined.location⟩
    · exact undefined

theorem failsOnly_set (v : Value) : FailsOnly (OfRun l) (env.set x v l) := by
  have assigned (old : Variable) : FailsOnly (OfRun l) (Frame.assigned old x v l) := by
    have again (values : List (Bytes × Bytes)) : (fill .fixedReassigned l values).OfRun l :=
      ofRun_fill (by decide) (by decide)
    have otherType (values : List (Bytes × Bytes)) : (fill .fixedType l values).OfRun l :=
      ofRun_fill (by decide) (by decide)
    rw [Frame.assigned_eq]
    unfold Report.fixedType
    repeat' split
    all_goals simp [again, otherType]
  rw [set_eq, failsOnly_map, Frame.set_eq]
  split
  · exact failsOnly_ok _
  · exact (failsOnly_map _ _).2 (assigned _)

theorem failsOnly_resolve : FailsOnly (OfRun l) (env.resolve x l) := by
  unfold resolve
  split
  · exact (failsOnly_error _).2 (ofRun_fill (by decide) (by decide))
  · split
    · exact failsOnly_ok _
    · exact (failsOnly_error _).2 (ofRun_undefinedStep ..)

end Environment

namespace Expression
open Effect

variable {e inner : Expression} {r : Report}

theorem Blamed.here (h : r.OfRun e.location) : e.Blamed r := ⟨e, .whole e, h⟩

theorem Blamed.operand (h : inner.Blamed r) (hi : inner ∈ e.operands) : e.Blamed r :=
  let ⟨part, inside, about⟩ := h
  ⟨part, .operand hi inside, about⟩

theorem failsOnly_operand {x : Effect Value} (h : x.FailsOnly inner.Blamed)
    (hi : inner ∈ e.operands) : x.FailsOnly e.Blamed :=
  h.mono fun _ blamed => blamed.operand hi

theorem failsOnly_ask {f : Heap → Except Report α}
    (h : ∀ heap, StepsLang.FailsOnly (OfRun e.location) (f heap)) :
    (Effect.ask f).FailsOnly e.Blamed :=
  .mono (fun _ => Blamed.here) (.ask h)

mutual
theorem failsOnly_eval (env : Environment) : (e : Expression) → (e.eval env).FailsOnly e.Blamed
  | number .. | text .. | boolean .. | nothing _ => .pure _
  | input _ => .bind .readLine fun _ => .pure _
  | name l x => failsOnly_ask fun _ => env.failsOnly_get x l
  | list l items =>
    .bind (failsOnly_evalItems env items fun e he _ blamed => blamed.operand he) fun _ =>
      .newList _
  | table l entries =>
    .bind (failsOnly_evalEntries env entries fun _ he =>
      ⟨fun _ blamed => blamed.operand (operands_table he).1,
        fun _ blamed => blamed.operand (operands_table he).2⟩) fun _ => .newTable _
  | binary l op a b => by
    refine .bind (failsOnly_operand (failsOnly_eval env a) (by simp [operands])) fun v => ?_
    refine .bind (.ask fun _ => failsOnly_ok _) fun truth => ?_
    split
    · exact .pure _
    · refine .bind (failsOnly_operand (failsOnly_eval env b) (by simp [operands])) fun w => ?_
      exact failsOnly_ask fun h => Value.failsOnly_operate h op v w l
  | word l op a b =>
    .bind (failsOnly_operand (failsOnly_eval env a) (by simp [operands])) fun v =>
      .bind (failsOnly_operand (failsOnly_eval env b) (by simp [operands])) fun w =>
        .mono (fun _ => Blamed.here) (.onHeap fun h => Value.failsOnly_operateWord h op v w l)
  | negate l e =>
    .bind (failsOnly_operand (failsOnly_eval env e) (by simp [operands])) fun v =>
      failsOnly_ask fun _ => v.failsOnly_negated l
  | not l e =>
    .bind (failsOnly_operand (failsOnly_eval env e) (by simp [operands])) fun v =>
      failsOnly_ask fun _ => failsOnly_ok _
  | convert l type e =>
    .bind (failsOnly_operand (failsOnly_eval env e) (by simp [operands])) fun v =>
      failsOnly_ask fun h => v.failsOnly_convert h type l
  | decimal l e places =>
    .bind (failsOnly_operand (failsOnly_eval env e) (by simp [operands])) fun v =>
      .bind (failsOnly_operand (failsOnly_eval env places) (by simp [operands])) fun w =>
        failsOnly_ask fun h => v.failsOnly_withPlaces h w l
  | typeOf l e =>
    .bind (failsOnly_operand (failsOnly_eval env e) (by simp [operands])) fun _ => .pure _
  | isA l type e =>
    .bind (failsOnly_operand (failsOnly_eval env e) (by simp [operands])) fun _ => .pure _
  | index l container key =>
    .bind (failsOnly_operand (failsOnly_eval env container) (by simp [operands])) fun v =>
      .bind (failsOnly_operand (failsOnly_eval env key) (by simp [operands])) fun w =>
        failsOnly_ask fun h => Value.failsOnly_load h v w l
  | lengthOf l e =>
    .bind (failsOnly_operand (failsOnly_eval env e) (by simp [operands])) fun v =>
      failsOnly_ask fun h => v.failsOnly_lengthOf h l
termination_by structural e => e

theorem failsOnly_evalItems (env : Environment) {P : Report → Prop} : (es : List Expression) →
    (∀ e ∈ es, ∀ r, e.Blamed r → P r) → (evalItems env es).FailsOnly P
  | [], _ => .pure _
  | e :: es, h =>
    .bind (.mono (h e List.mem_cons_self) (failsOnly_eval env e)) fun _ =>
      .bind (failsOnly_evalItems env es fun e he => h e (List.mem_cons_of_mem _ he)) fun _ =>
        .pure _
termination_by structural es => es

theorem failsOnly_evalEntries (env : Environment) {P : Report → Prop} :
    (es : List (Expression × Expression)) →
    (∀ e ∈ es, (∀ r, e.1.Blamed r → P r) ∧ ∀ r, e.2.Blamed r → P r) →
    (evalEntries env es).FailsOnly P
  | [], _ => .pure _
  | (key, e) :: es, h =>
    .bind (.mono (h (key, e) List.mem_cons_self).1 (failsOnly_eval env key)) fun _ =>
      .bind (.mono (h (key, e) List.mem_cons_self).2 (failsOnly_eval env e)) fun _ =>
        .bind (.ask fun _ => failsOnly_ok _) fun _ =>
          .bind (failsOnly_evalEntries env es fun e he => h e (List.mem_cons_of_mem _ he))
            fun _ => .pure _
termination_by structural es => es
end

end Expression

theorem Result.error_ofOutcome {o : Outcome} {r : Report}
    (h : (Result.ofOutcome o).error = some r) : o = .failed r := by
  cases o with
  | failed r' => exact congrArg Outcome.failed (Option.some.inj h)
  | _ => cases h

theorem Result.signal_of_error {c : CallResult} {r : Report}
    (h : (Result.ofCall c).error = some r) : c.signal = .failed r := by
  cases c with
  | failed r' => exact congrArg Outcome.failed (Option.some.inj h)
  | _ => cases h

def Action.FailsOnly (P : Report → Prop) (a : Action σ) : Prop :=
  ∀ s r, (a s).1 = .failed r → P r

namespace Action.FailsOnly

variable {P : Report → Prop}

theorem finish {o : Outcome} (h : ∀ r, o ≠ .failed r) : FailsOnly P (finish o : Action σ) :=
  fun _ r e => absurd e (h r)

theorem display (v : Value) : FailsOnly P (display v : Action σ) := nofun

theorem obtaining {x : Effect α} {k : α → Action σ} (hx : x.FailsOnly P)
    (hk : ∀ a, FailsOnly P (k a)) (s : Session σ) :
    ∀ r, (Action.obtaining x k s).1 = .failed r → P r := by
  intro r e
  have first := hx s.world
  unfold Action.obtaining at e
  split at e
  · exact hk _ _ r e
  · next e' =>
    cases e
    rw [e'] at first
    exact first r rfl

theorem evaluating {e : Expression} {k : Value → Action σ} (he : ∀ r, e.Blamed r → P r)
    (hk : ∀ v, FailsOnly P (k v)) : FailsOnly P (evaluating e k) :=
  fun s => obtaining (.mono he (e.failsOnly_eval s.env)) hk s

theorem reading {x : Bytes} {l : Location} {k : Value → Action σ} (hl : ∀ r, r.OfRun l → P r)
    (hk : ∀ v, FailsOnly P (k v)) : FailsOnly P (reading x l k) := by
  intro s r e
  unfold Action.reading at e
  split at e
  · exact hk _ _ r e
  · next e' =>
    cases e
    exact hl r (s.env.failsOnly_get x l r e')

theorem assign {x : Bytes} {v : Value} {l : Location} (hl : ∀ r, r.OfRun l → P r) :
    FailsOnly P (assign x v l : Action σ) := by
  intro s r e
  rw [assign_eq] at e
  split at e
  · cases e
  · next e' =>
    cases e
    exact hl r (s.env.failsOnly_set x l v r e')

theorem onHeap {c : Mutation Heap α} {l : Location} (hl : ∀ r, r.OfRun l → P r)
    (hc : c.FailsOnly (OfRun l)) : FailsOnly P (onHeap c : Action σ) := by
  intro s r e
  unfold Action.onHeap at e
  split at e
  · cases e
  · next e' =>
    cases e
    exact hl r (hc _ r (congrArg (·.1) e'))

end Action.FailsOnly

def BlamedIn (body : List Statement) (r : Report) : Prop := ∃ l, NodeAt body l ∧ r.OfRun l

theorem BlamedIn.statement {body : List Statement} {st : Statement} {r : Report}
    (hs : st.Within body) (h : r.OfRun st.location) : BlamedIn body r :=
  ⟨st.location, .statement hs, h⟩

theorem BlamedIn.expression {body : List Statement} {st : Statement} {e : Expression} {r : Report}
    (hs : st.Within body) (he : e ∈ st.expressions) (h : e.Blamed r) : BlamedIn body r :=
  let ⟨part, inside, about⟩ := h
  ⟨part.location, .expression hs he inside, about⟩

structure Task.Blamed (task : Task) (r : Report) : Prop where
  inFrame : ∀ name, task ≠ .closeFrame name
  body : ∀ body, task.From body → BlamedIn body r

namespace Machine
open StepsLang.Action

/-- A failure after a task is not new, or is about a place in what the task does; and no other ends
are kept for later than the one that was known before. -/
structure Faithful (task : Task) (o : Outcome) (rest : List Task) (m : Machine σ) : Prop where
  signal : ∀ r, m.signal = .failed r → o = .failed r ∨ task = .pending (.failed r) ∨ task.Blamed r
  pending : ∀ p, Task.pending p ∈ m.tasks → p = o ∨ .pending p ∈ rest

variable {ob : Observer σ} {limits : Limits} {task : Task} {tasks rest : List Task} {o : Outcome}
  {s : Session σ}

theorem Faithful.passed : Faithful task o rest ⟨o, rest, s⟩ := ⟨fun _ e => .inl e, fun _ => .inr⟩

theorem Faithful.quiet {p : Outcome} (h : ∀ r, p ≠ .failed r)
    (pending : ∀ q, Task.pending q ∈ tasks → q = o ∨ .pending q ∈ rest) :
    Faithful task o rest ⟨p, tasks, s⟩ :=
  ⟨fun r e => absurd e (h r), pending⟩

theorem Faithful.failed {r : Report} (blamed : task.Blamed r)
    (pending : ∀ q, Task.pending q ∈ tasks → q = o ∨ .pending q ∈ rest) :
    Faithful task o rest ⟨.failed r, tasks, s⟩ := by
  refine ⟨fun r' e => ?_, pending⟩
  cases e
  exact .inr (.inr blamed)

theorem Faithful.atOnce {a : Action σ} (ha : Action.FailsOnly task.Blamed a)
    (pending : ∀ q, Task.pending q ∈ tasks → q = o ∨ .pending q ∈ rest) :
    Faithful task o rest (atOnce a tasks s) :=
  ⟨fun r e => .inr (.inr (ha s r e)), pending⟩

theorem faithful_branch {condition : Expression} {yes no : Session σ → Machine σ}
    (he : ∀ r, condition.Blamed r → task.Blamed r) (hy : ∀ s, Faithful task o rest (yes s))
    (hn : ∀ s, Faithful task o rest (no s)) :
    Faithful task o rest (branch condition rest yes no s) := by
  have evaluated := condition.failsOnly_eval s.env s.world
  unfold branch holds
  rcases e : condition.eval s.env s.world with ⟨r | v, w⟩
  · rw [e] at evaluated
    exact .failed (he r (evaluated r rfl)) fun _ => .inr
  · cases e : v.truthy w.heap with
    | true =>
      simp only [e]
      exact hy _
    | false =>
      simp only [e]
      exact hn _

theorem faithful_openName {x : Bytes} {vs : List Value} {l : Location}
    (hl : ∀ r, r.OfRun l → task.Blamed r)
    (pending : ∀ q, Task.pending q ∈ tasks → q = o ∨ .pending q ∈ rest) :
    Faithful task o rest (openName ob limits x vs l tasks s) := by
  have miscounted (name : Bytes) (parameters : List Bytes) (n : Nat) :
      (Call.miscounted name parameters n l).OfRun l := ofRun_fill (by decide) (by decide)
  have opens (r : Routine) (owner : Step) :
      Faithful task o rest (openRoutine ob limits r owner vs l tasks s) := by
    unfold openRoutine
    split
    · exact .failed (hl _ (ofRun_fill (by decide) (by decide))) pending
    · split
      · exact .failed (hl _ (miscounted ..)) pending
      · exact .quiet (by simp) (by simpa using pending)
  unfold openName
  split
  · exact opens _ _
  · split
    · next f _ =>
      unfold Call.native
      split
      · exact .failed (hl _ (miscounted ..)) pending
      · next x e =>
        have only := Native.failsOnly_call e s.world
        split
        · exact .quiet (by simp [CallResult.signal]) pending
        · next r w e' =>
          rw [e'] at only
          exact .failed (hl r (only r rfl)) pending
    · split
      · exact opens _ _
      · next r e => exact .failed (hl r (s.env.failsOnly_resolve x l r e)) pending

theorem faithful_start (st : Statement) (more : List Statement) (s : Session σ) :
    Faithful (.block (st :: more)) .normal rest
      (start ob limits (.block more :: rest) s st) := by
  have here (r : Report) (h : r.OfRun st.location) : (Task.block (st :: more)).Blamed r :=
    ⟨by simp, fun _ hb => .statement hb.head h⟩
  have part {e : Expression} (he : e ∈ st.expressions) (r : Report) (h : e.Blamed r) :
      (Task.block (st :: more)).Blamed r :=
    ⟨by simp, fun _ hb => .expression hb.head he h⟩
  have later (q : Outcome) (h : Task.pending q ∈ Task.block more :: rest) :
      q = .normal ∨ .pending q ∈ rest := .inr (by simpa using h)
  cases st with
  | display l e =>
    exact .atOnce (.evaluating (part (by simp [Statement.expressions])) .display) later
  | set l x e =>
    exact .atOnce (.evaluating (part (by simp [Statement.expressions])) fun _ => .assign here) later
  | setIndex l x index e =>
    exact .atOnce (.reading here fun _ => .evaluating (part (by simp [Statement.expressions]))
      fun _ => .evaluating (part (by simp [Statement.expressions])) fun _ =>
        .onHeap here (Value.failsOnly_storing _ _ _ l)) later
  | call l x arguments target =>
    have evaluated := Expression.failsOnly_evalItems s.env arguments (fun e he => part he) s.world
    simp only [start]
    split
    · exact faithful_openName here (by simpa using later)
    · next r w e =>
      rw [e] at evaluated
      exact .failed (evaluated r rfl) later
  | giveBack l e =>
    cases e with
    | none => exact .quiet (by simp) later
    | some e =>
      exact .atOnce (.evaluating (part (by simp [Statement.expressions])) fun _ =>
        .finish (by simp)) later
  | exit l => exact .quiet (by simp) later
  | branch l arms otherwise => exact .quiet (by simp) (by simpa using later)
  | repeatTimes l count body =>
    have evaluated := count.failsOnly_eval s.env s.world
    simp only [start]
    rcases e : count.eval s.env s.world with ⟨r | v, w⟩
    · rw [e] at evaluated
      exact .failed (part (by simp [Statement.expressions]) r (evaluated r rfl)) later
    · cases v with
      | number n => exact .quiet (by simp) (by simpa using later)
      | _ => exact .failed (here _ (Value.ofRun_unfit.2 (by simp))) later
  | repeatForEach l x collection body =>
    have evaluated := collection.failsOnly_eval s.env s.world
    simp only [start]
    rcases e : collection.eval s.env s.world with ⟨r | v, w⟩
    · rw [e] at evaluated
      exact .failed (part (by simp [Statement.expressions]) r (evaluated r rfl)) later
    · simp only
      cases items : v.items? w.heap with
      | some vs => exact .quiet (by simp) (by simpa using later)
      | none =>
        simp only [Machine.atOnce, Action.repeatForEach, items]
        exact .failed (here _ (Value.ofRun_unfit.2 (by simp))) later
  | repeatWhile l condition body => exact .quiet (by simp) (by simpa using later)
  | attempt l body unsuccessful continuation =>
    exact .quiet (by simp) (by simpa [inside] using later)
  | addToList l e x =>
    exact .atOnce (.evaluating (part (by simp [Statement.expressions])) fun _ =>
      .reading here fun _ => .onHeap here (Value.failsOnly_addingTo _ _ l)) later
  | removeFromList l e x =>
    exact .atOnce (.evaluating (part (by simp [Statement.expressions])) fun _ =>
      .reading here fun _ => .onHeap here (Value.failsOnly_removingFrom _ _ l)) later
  | note l text => exact .quiet (by simp) later

theorem faithful_nextRound (rounds : Rounds) (s : Session σ) :
    Faithful (.loop rounds) .normal rest (nextRound limits rest s rounds) := by
  cases rounds with
  | times left body => cases left <;> exact .quiet nofun (by grind)
  | each x left body => cases left <;> exact .quiet nofun (by grind)
  | «while» l condition done body =>
    refine faithful_branch (fun r h => ⟨nofun, fun whole hw => ?_⟩) (fun t => ?_) fun t => ?_
    · cases hw with
      | «while» hw => exact .expression hw (by simp [Statement.expressions]) h
    · split
      · refine .failed ⟨nofun, fun whole hw => ?_⟩ fun _ => .inr
        cases hw with
        | «while» hw => exact .statement hw (ofRun_fill (by decide) (by decide))
      · exact .quiet nofun (by grind)
    · exact .quiet nofun (by grind)

theorem faithful_arms (arms : List (Location × Expression × List Statement))
    (otherwise : Option (List Statement)) (s : Session σ) :
    Faithful (.arms arms otherwise) .normal rest
      (perform ob limits rest s (.arms arms otherwise) .normal) := by
  cases arms with
  | nil => cases otherwise <;> exact .quiet nofun (by grind)
  | cons arm arms =>
    obtain ⟨l, condition, body⟩ := arm
    refine faithful_branch (fun r h => ⟨nofun, fun whole hw => ?_⟩) (fun t => ?_) fun t => ?_
    · cases hw with
      | arms hw => exact .expression hw (by simp [Statement.expressions]) h
    · exact .quiet nofun (by grind)
    · exact .quiet nofun (by grind)

theorem perform_faithful (ob : Observer σ) (limits : Limits) (task : Task) (o : Outcome)
    (rest : List Task) (s : Session σ) :
    Faithful task o rest (perform ob limits rest s task o) := by
  have passed : Faithful task o rest ⟨o, rest, s⟩ := .passed
  cases task with
  | block sts =>
    cases sts with
    | nil => exact passed
    | cons st more =>
      cases o with
      | normal =>
        simp only [perform, begin]
        split
        · exact .quiet (by simp) (by grind)
        · split
          · exact faithful_start st more _
          · exact .quiet (by simp) (by grind)
      | _ => exact passed
  | arms arms otherwise =>
    cases o with
    | normal => exact faithful_arms arms otherwise s
    | _ => cases arms <;> cases otherwise <;> exact passed
  | loop rounds =>
    cases o with
    | normal => exact faithful_nextRound rounds s
    | exited => exact .quiet (by simp) fun _ => .inr
    | _ => exact passed
  | handler body =>
    cases body with
    | none => cases o <;> first | exact passed | exact .quiet (by simp) fun _ => .inr
    | some body => cases o <;> first | exact passed | exact .quiet (by simp) (by grind)
  | continuation body =>
    cases body with
    | none => cases o <;> exact passed
    | some body =>
      cases o with
      | stopped => exact passed
      | _ => exact .quiet (by simp) (by grind)
  | pending p =>
    refine ⟨fun r e => ?_, fun _ => .inr⟩
    cases o with
    | normal => exact .inr (.inl (congrArg Task.pending e))
    | _ => exact .inl e
  | closeBlock => exact ⟨fun _ e => .inl e, fun _ => .inr⟩
  | closeFrame name =>
    refine ⟨fun r e => .inl ?_, fun _ => .inr⟩
    cases o with
    | failed => exact e
    | _ => cases e
  | receive target l =>
    cases target with
    | none => cases o <;> first | exact passed | exact .quiet (by simp) fun _ => .inr
    | some x =>
      cases o with
      | returned v =>
        refine .atOnce (.assign fun r about => ⟨by simp, fun whole hw => ?_⟩) fun _ => .inr
        cases hw with
        | receive hw => exact .statement hw about
      | _ => exact passed

end Machine

inductive Known (base : Environment) (first : Option Step) : Step → Prop
  | first : first = some step → Known base first step
  | listed : base.steps.find? x = some step → Known base first step
  | open : step ∈ base.running → Known base first step

/-- The places in the program of a run: those of its body and of the routines of steps, and that of
the step it is a run of. -/
inductive InProgram (base : Environment) (body : List Statement) (first : Option Step) :
    Location → Prop
  | body : NodeAt body l → InProgram base body first l
  | routine : Known base first step → r ∈ step.routines → NodeAt r.body l →
    InProgram base body first l
  | step : first = some step → InProgram base body first step.location

theorem Opened.known {base : Environment} {body running : List Statement} {first : Option Step}
    {frames : List Frame} {steps : List Step} (h : Opened base body first frames steps running) :
    ∀ step ∈ steps, Known base first step := by
  induction h with
  | lowest => exact fun _ => .open
  | first isFirst => exact List.forall_mem_cons.2 ⟨.first isFirst, fun _ => .open⟩
  | call _ _ _ resolved _ _ ih =>
    refine List.forall_mem_cons.2 ⟨?_, ih⟩
    cases resolved with
    | riser running _ => exact ih _ (List.mem_of_head? running)
    | step _ _ found => exact .listed found

theorem Opened.inProgram {base : Environment} {body running : List Statement} {first : Option Step}
    {frames : List Frame} {steps : List Step} (h : Opened base body first frames steps running)
    {l : Location} (hl : NodeAt running l) : InProgram base body first l := by
  have known := h.known
  cases h with
  | lowest => exact .body hl
  | first isFirst => exact .routine (.first isFirst) List.mem_cons_self hl
  | call _ _ _ resolved =>
    exact .routine (known _ List.mem_cons_self) resolved.mem_routines hl

/-- What is reported of a run: a catalogued fault, in words and with advice, about a place in the
program. -/
structure Report.Located (base : Environment) (body : List Statement) (first : Option Step)
    (r : Report) : Prop where
  code : r.code ∈ Fault.runCodes
  message : r.message ≠ []
  hint : r.hint ≠ []
  place : InProgram base body first r.location

theorem Report.OfRun.located {base : Environment} {body : List Statement} {first : Option Step}
    {l : Location} {r : Report} (h : r.OfRun l) (hl : InProgram base body first l) :
    r.Located base body first :=
  ⟨h.code, h.message, h.hint, h.location ▸ hl⟩

namespace Machine

variable {base : Environment} {body : List Statement} {first : Option Step} {ob : Observer σ}
  {limits : Limits} {m m' : Machine σ}

structure Located (base : Environment) (body : List Statement) (first : Option Step)
    (limits : Limits) (m : Machine σ) : Prop where
  aligned : Aligned base body first limits m.tasks m.session.env
  signal : ∀ r, m.signal = .failed r → r.Located base body first
  pending : ∀ r, Task.pending (.failed r) ∈ m.tasks → r.Located base body first

theorem Located.step (h : Located base body first limits m) (e : m.step ob limits = some m') :
    Located base body first limits m' := by
  obtain ⟨o, tasks, s⟩ := m
  cases tasks with
  | nil => cases e
  | cons task rest =>
    cases e
    obtain ⟨t, ready, does⟩ := perform_does ob limits task o rest s
    have faithful := perform_faithful ob limits task o rest s
    have kept (r : Report) (hr : .pending (.failed r) ∈ rest) : r.Located base body first :=
      h.pending r (List.mem_cons_of_mem _ hr)
    -- The frames tell which body the task does a part of; the report is about a place there.
    refine ⟨(h.aligned.ready ready).does does, fun r e => ?_, fun r hr => ?_⟩
    · rcases faithful.signal r e with old | held | blamed
      · exact h.signal r old
      · exact h.pending r (held ▸ List.mem_cons_self)
      · obtain ⟨running, part, opened, -⟩ := h.aligned.part blamed.inFrame
        obtain ⟨l, node, about⟩ := blamed.body running part
        exact about.located (opened.inProgram node)
    · rcases faithful.pending _ hr with now | later
      · exact h.signal r now.symm
      · exact kept r later

theorem Located.after (ob : Observer σ) (h : Located base body first limits m) (k : Nat) :
    Located base body first limits (after ob limits k m) :=
  after_keeps Located.step h k

theorem Located.block (body : List Statement) (limits : Limits) (s : Session σ) :
    Located s.env body none limits ⟨.normal, [.block body], s⟩ :=
  ⟨.block body s.env limits, nofun, by simp⟩

theorem Located.opening (ob : Observer σ) (limits : Limits) (step : Step) (vs : List Value)
    (s : Session σ) : Located s.env [] (some step) limits
      (openRoutine ob limits step.toRoutine step vs step.location [] s) := by
  have refused {r : Report} (h : r.OfRun step.location) :
      Located s.env [] (some step) limits ⟨.failed r, [], s⟩ := by
    refine ⟨.idle s.env _ limits, fun r' e => ?_, by simp⟩
    cases e
    exact h.located (.step rfl)
  unfold openRoutine
  split
  · exact refused (ofRun_fill (by decide) (by decide))
  · next shallow =>
    split
    · exact refused (ofRun_fill (by decide) (by decide))
    · exact ⟨.step ob step vs (Nat.not_le.1 shallow), nofun, by simp⟩

theorem Located.ended {o : Outcome} {t : Session σ} (h : Located base body first limits m)
    (ends : Leads ob limits m ⟨o, [], t⟩) {r : Report} (failed : o = .failed r) :
    r.Located base body first := by
  obtain ⟨k, e⟩ := ends
  have last := (h.after ob k).signal r
  rw [e] at last
  exact last failed

/-- Whatever fails in a run of a block, a building or a step, and whether or not it is handled, is
reported with a code of the catalogue, in words, with advice, and with a place in the program. -/
theorem failures_located (ob : Observer σ) (limits : Limits) (s : Session σ) :
    (∀ body k r, (after ob limits k ⟨.normal, [.block body], s⟩).signal = .failed r →
      r.Located s.env body none) ∧
    (∀ body r, (s.runBlock ob limits body).1.error = some r → r.Located s.env body none) ∧
    (∀ (b : Building) r, (s.runBuilding ob limits b).1.error = some r →
      r.Located s.env b.body none) ∧
    (∀ (step : Step) vs k r,
      (after ob limits k
        (openRoutine ob limits step.toRoutine step vs step.location [] s)).signal = .failed r →
      r.Located s.env [] (some step)) ∧
    ∀ (step : Step) vs r, (s.runStep ob limits step vs).1.error = some r →
      r.Located s.env [] (some step) := by
  have ended (body : List Statement) (r : Report)
      (h : (s.runBlock ob limits body).1.error = some r) : r.Located s.env body none :=
    (Located.block body limits s).ended (performBlock_ends body [] s) (Result.error_ofOutcome h)
  refine ⟨fun body k r failed => ?_, ended, fun b => ended b.body, fun step vs k r failed => ?_,
    fun step vs r h => ?_⟩
  · exact ((Located.block body limits s).after ob k).signal r failed
  · exact ((Located.opening ob limits step vs s).after ob k).signal r failed
  · have opening := Located.opening ob limits step vs s
    have ends : Leads ob limits
        (openRoutine ob limits step.toRoutine step vs step.location [] s) _ :=
      routine_ends (s.callsLeft limits) step.toRoutine step vs step.location [] s rfl
    exact opening.ended ends (Result.signal_of_error h)

theorem failures_located_sum :
    let sum : Expression := .binary ⟨1, 2, 15, 0, 0⟩ .add (.number ⟨1, 2, 13, 0, 0⟩ 1)
      (.text ⟨1, 2, 17, 0, 0⟩ "one")
    let body : List Statement := [.attempt ⟨1, 1, 5, 0, 0⟩ [.display ⟨1, 2, 5, 0, 0⟩ sum] none none]
    let s : Session Unit := ⟨.fresh "main" false, {}, ()⟩
    let m := after Observer.none {} 2 ⟨.normal, [.block body], s⟩
    (s.runBlock Observer.none {} body).1.success = true ∧
      ∃ r, m.signal = .failed r ∧ r.code = "E301" ∧ r.location = ⟨1, 2, 15, 0, 0⟩ ∧
        r.Located s.env body none := by
  intro sum body s m
  have failed : m.signal = .failed (operandTypes "add" "number" "text" ⟨1, 2, 15, 0, 0⟩
    "The '+' operator works with numbers. Use 'added to' for text concatenation.") := rfl
  exact ⟨by decide, _, failed, rfl, rfl, (failures_located Observer.none {} s).1 body 2 _ failed⟩

end Machine

end StepsLang
