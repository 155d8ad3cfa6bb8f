import StepsLang.Proofs.Execution.Machine
import StepsLang.Proofs.Program.Parts

/-! What one step of the machine can do.  A task announces a statement, or not, and then goes on
with tasks for parts of the same program text; it changes the variables of the innermost frame,
opens or closes a block, or opens or closes a frame.  What holds along a run is shown from this
alone. -/

namespace StepsLang

inductive Resolves (steps : NameMap Step) (running : List Step) (x : Bytes) :
    Routine → Step → Prop
  | riser : running.head? = some owner → owner.riser? x = some r →
    Resolves steps running x r owner
  | step : (∀ owner ∈ running.head?, owner.riser? x = none) → Native.ofName? x = none →
    steps.find? x = some step → Resolves steps running x step.toRoutine step

theorem Resolves.mem_routines {steps : NameMap Step} {running : List Step} {x : Bytes}
    {r : Routine} {owner : Step} (h : Resolves steps running x r owner) : r ∈ owner.routines := by
  cases h with
  | riser _ found => exact Step.riser_mem found
  | step => exact List.mem_cons_self

namespace Task

inductive From (body : List Statement) : Task → Prop
  | block : (∀ st ∈ rest, st.Within body) → From body (.block rest)
  | arms : (Statement.branch l (done ++ rest) otherwise).Within body →
    From body (.arms rest otherwise)
  | times : (Statement.repeatTimes l count looped).Within body →
    From body (.loop (.times left looped))
  | each : (Statement.repeatForEach l x collection looped).Within body →
    From body (.loop (.each x left looped))
  | while : (Statement.repeatWhile l condition looped).Within body →
    From body (.loop (.while l condition done looped))
  | handler : (Statement.attempt l tried failing last).Within body → From body (.handler failing)
  | continuation : (Statement.attempt l tried failing last).Within body →
    From body (.continuation last)
  | pending (o) : From body (.pending o)
  | closeBlock : From body .closeBlock
  | receive : (Statement.call l x arguments target).Within body → From body (.receive target l)

structure Leaves (task : Task) (new : List Task) : Prop where
  parts : ∀ body, task.From body → ∀ t ∈ new, t.From body
  inFrame : ∀ name, task ≠ .closeFrame name

variable {task t : Task} {new : List Task} {body : List Statement} {st : Statement}

theorem From.allArms {arms : List (Location × Expression × List Statement)}
    {otherwise : Option (List Statement)} (h : (Statement.branch l arms otherwise).Within body) :
    From body (.arms arms otherwise) := by
  rw [← List.nil_append arms] at h
  exact .arms h

theorem From.blockIn {inner : List Statement} (h : st.Within body) (hb : inner ∈ st.blocks) :
    From body (.block inner) :=
  .block fun _ hs => .deeper h hb hs

theorem leaves_nil (inFrame : ∀ name, task ≠ .closeFrame name) : task.Leaves [] :=
  ⟨fun _ _ => List.forall_mem_nil _, inFrame⟩

theorem leaves_one (inFrame : ∀ name, task ≠ .closeFrame name)
    (h : ∀ body, task.From body → t.From body) : task.Leaves [t] :=
  ⟨fun body hf => List.forall_mem_singleton.2 (h body hf), inFrame⟩

theorem Leaves.cons (hn : task.Leaves new) (h : ∀ body, task.From body → t.From body) :
    task.Leaves (t :: new) :=
  ⟨fun body hf => List.forall_mem_cons.2 ⟨h body hf, hn.parts body hf⟩, hn.inFrame⟩

theorem Leaves.closing (h : task.Leaves (t :: new)) : task.Leaves (t :: .closeBlock :: new) where
  parts := fun body hf => by
    obtain ⟨first, others⟩ := List.forall_mem_cons.1 (h.parts body hf)
    exact List.forall_mem_cons.2 ⟨first, List.forall_mem_cons.2 ⟨.closeBlock, others⟩⟩
  inFrame := h.inFrame

theorem From.head {more : List Statement} (h : From body (.block (st :: more))) :
    st.Within body := by
  cases h with
  | block h => exact h st List.mem_cons_self

theorem leaves_more (st : Statement) (more : List Statement) :
    (block (st :: more)).Leaves [block more] := by
  refine leaves_one nofun fun body h => ?_
  cases h with
  | block h => exact .block fun st hs => h st (List.mem_cons_of_mem _ hs)

theorem leaves_first {more : List Statement}
    (h : ∀ body, st.Within body → ∀ t ∈ new, t.From body) :
    (block (st :: more)).Leaves (new ++ [block more]) where
  parts := fun body hf =>
    List.forall_mem_append.2 ⟨h body hf.head, (leaves_more st more).parts body hf⟩
  inFrame := nofun

theorem leaves_round {rounds left : Rounds} {round : List Statement}
    (h : ∀ body, From body (.loop rounds) →
      From body (.block round) ∧ From body (.loop left)) :
    (loop rounds).Leaves [block round, loop left] :=
  (leaves_one (by nofun) fun body hf => (h body hf).2).cons fun body hf => (h body hf).1

theorem leaves_handler (failing : List Statement) :
    (handler (some failing)).Leaves [block failing] := by
  refine leaves_one nofun fun body h => ?_
  cases h with
  | handler h => exact .blockIn h (Statement.mem_blocks_attempt.2 (.inr (.inl rfl)))

theorem leaves_continuation (last : List Statement) (o : Outcome) :
    (continuation (some last)).Leaves [block last, pending o] := by
  refine (leaves_one (by nofun) fun _ _ => .pending o).cons fun body h => ?_
  cases h with
  | continuation h => exact .blockIn h (Statement.mem_blocks_attempt.2 (.inr (.inr rfl)))

end Task

theorem Environment.find?_of_resolve {env : Environment} {x : Bytes} {l : Location} {step : Step}
    (h : env.resolve x l = .ok step) : env.steps.find? x = some step := by
  unfold resolve at h
  split at h
  · cases h
  · split at h
    · next found =>
      cases h
      exact found
    · cases h

inductive Task.Assigns (x : Bytes) (l : Location) : Task → Prop
  | set : Assigns x l (.block (.set l x e :: more))
  | receive : Assigns x l (.receive (some x) l)

def Session.OnWorld (s : Session σ) (_ : Outcome) (t : Session σ) : Prop :=
  t = { s with world := t.world }

theorem onWorld_composable : Composable (Session.OnWorld (σ := σ)) where
  finish := fun _ => rfl
  resume := by
    rintro o p s t u first - second
    unfold Session.OnWorld at *
    rw [second, first]
  world := fun _ _ => rfl

namespace Machine
open StepsLang.Action

inductive Ready (ob : Observer σ) (s : Session σ) : Task → Session σ → Prop
  | still (task) : Ready ob s task s
  | announced : st.isNote = false → Ready ob s (.block (st :: more)) (s.announce ob st).2

inductive Does (ob : Observer σ) (limits : Limits) (task : Task) (rest : List Task)
    (s : Session σ) : List Task → Session σ → Prop
  | stay (w : World) : task.Leaves new →
    Does ob limits task rest s (new ++ rest) { s with world := w }
  | assign (w : World) : task.Assigns x l → s.env.set x v l = .ok env → task.Leaves new →
    Does ob limits task rest s (new ++ rest) { s with env := env, world := w }
  | inside (w : World) : task.Leaves (.block body :: new) →
    Does ob limits task rest s (.block body :: .closeBlock :: (new ++ rest))
      { s with env := s.env.pushBlock, world := w }
  | insideWith (x : Bytes) (v : Value) : task.Leaves (.block body :: new) →
    Does ob limits task rest s (.block body :: .closeBlock :: (new ++ rest))
      { s with env := s.env.pushBlock.define x v }
  | call (w : World) (vs : List Value) : s.env.depth < limits.depth → s.env.top.current = l →
    Resolves s.env.steps s.env.running x r owner →
    (∀ body, task.From body → ∃ arguments, (Statement.call l x arguments target).Within body) →
    task.Leaves new →
    Does ob limits task rest s
      (.block r.body :: .closeFrame r.name :: .receive target l :: (new ++ rest))
      (({ s with world := w } : Session σ).call ob r owner vs l)
  | closeBlock : task = .closeBlock →
    Does ob limits task rest s rest { s with env := s.env.popBlock }
  | closeFrame (o : Outcome) : task = .closeFrame name →
    Does ob limits task rest s rest (Call.finish ob name (o, s)).2

variable {ob : Observer σ} {limits : Limits} {task : Task} {rest new : List Task} {s : Session σ}

theorem Does.idle (leaves : task.Leaves new) : Does ob limits task rest s (new ++ rest) s :=
  .stay s.world leaves

theorem Does.drop (inFrame : ∀ name, task ≠ .closeFrame name) :
    Does ob limits task rest s rest s :=
  .idle (Task.leaves_nil inFrame)

theorem Does.onWorld {a : Action σ} (ha : Obeys Session.OnWorld a) (leaves : task.Leaves new) :
    Does ob limits task rest s (new ++ rest) (a s).2 := by
  rw [ha s]
  exact .stay _ leaves

theorem Does.assigning {x : Bytes} {v : Value} {l : Location} {w : World}
    (assigns : task.Assigns x l) (leaves : task.Leaves new) :
    Does ob limits task rest s (new ++ rest) (Action.assign x v l { s with world := w }).2 := by
  rw [Action.assign_eq]
  split
  · next env e => exact .assign w assigns e leaves
  · exact .stay w leaves

theorem does_branch {condition : Expression} {yes no : Session σ → Machine σ}
    (inFrame : ∀ name, task ≠ .closeFrame name)
    (hy : ∀ w, Does ob limits task rest s (yes { s with world := w }).tasks
      (yes { s with world := w }).session)
    (hn : ∀ w, Does ob limits task rest s (no { s with world := w }).tasks
      (no { s with world := w }).session) :
    Does ob limits task rest s (branch condition rest yes no s).tasks
      (branch condition rest yes no s).session := by
  unfold branch holds
  rcases condition.eval s.env s.world with ⟨r | v, w⟩
  · exact .stay w (Task.leaves_nil inFrame)
  · cases e : v.truthy w.heap with
    | true =>
      simp only [e]
      exact hy w
    | false =>
      simp only [e]
      exact hn w

theorem does_openName {x : Bytes} {vs : List Value} {l : Location} {target : Option Bytes}
    (here : s.env.top.current = l)
    (called : ∀ body, task.From body →
      ∃ arguments, (Statement.call l x arguments target).Within body)
    (leaves : task.Leaves new) (w : World) :
    let m := openName ob limits x vs l (.receive target l :: (new ++ rest)) { s with world := w }
    Does ob limits task rest s m.tasks m.session := by
  have receiving : task.Leaves (.receive target l :: new) :=
    leaves.cons fun body h => (called body h).elim fun _ => .receive
  have opens {r : Routine} {owner : Step} (h : Resolves s.env.steps s.env.running x r owner) :
      let m := openRoutine ob limits r owner vs l (.receive target l :: (new ++ rest))
        { s with world := w }
      Does ob limits task rest s m.tasks m.session := by
    unfold openRoutine
    split
    · exact .stay w receiving
    · next shallow =>
      split
      · exact .stay w receiving
      · exact .call w vs (Nat.not_le.1 shallow) here h called leaves
  unfold openName
  split
  · next riser owner e =>
    obtain ⟨owner', running, found⟩ := Option.bind_eq_some_iff.1 e
    obtain ⟨r, found, same⟩ := Option.map_eq_some_iff.1 found
    cases same
    exact opens (.riser running found)
  · next none =>
    split
    · next f _ =>
      unfold Call.native
      split
      · exact .stay w receiving
      · split
        · exact .stay _ receiving
        · exact .stay _ receiving
    · next foreign =>
      split
      · next step e =>
        refine opens (.step (fun owner running => ?_) foreign (Environment.find?_of_resolve e))
        simpa [Option.mem_def.1 running] using none
      · exact .stay w receiving

theorem does_start (st : Statement) (more : List Statement)
    (here : s.env.top.current = st.location) :
    Does ob limits (.block (st :: more)) rest s
      (start ob limits (.block more :: rest) s st).tasks
      (start ob limits (.block more :: rest) s st).session := by
  have world := onWorld_composable (σ := σ)
  have others := Task.leaves_more st more
  cases st with
  | display l e => exact .onWorld (world.evaluating e world.display) others
  | set l x e =>
    simp only [start, atOnce, evaluating, obtaining]
    rcases e.eval s.env s.world with ⟨r | v, w⟩
    · exact .stay w others
    · exact .assigning .set others
  | setIndex l x index e =>
    exact .onWorld (world.reading x l fun _ => world.evaluating index fun _ =>
      world.evaluating e fun _ => world.onHeap _) others
  | call l x arguments target =>
    simp only [start]
    rcases Expression.evalItems s.env arguments s.world with ⟨r | vs, w⟩
    · exact .stay w others
    · exact does_openName here (fun _ h => ⟨arguments, h.head⟩) others w
  | giveBack l e =>
    cases e with
    | none => exact .idle others
    | some e => exact .onWorld (world.evaluating e fun _ => world.finish_obeys (by simp)) others
  | exit l => exact .idle others
  | branch l arms otherwise =>
    exact .idle (Task.leaves_first fun body h => List.forall_mem_singleton.2 (.allArms h))
  | repeatTimes l count body =>
    simp only [start]
    rcases count.eval s.env s.world with ⟨r | v, w⟩
    · exact .stay w others
    · cases v with
      | number n =>
        exact .stay w (Task.leaves_first fun body h => List.forall_mem_singleton.2 (.times h))
      | _ => exact .stay w others
  | repeatForEach l x collection body =>
    simp only [start]
    rcases collection.eval s.env s.world with ⟨r | v, w⟩
    · exact .stay w others
    · simp only
      cases e : v.items? w.heap with
      | none =>
        simp only [atOnce, Action.repeatForEach, e]
        exact .stay w others
      | some items =>
        exact .stay w (Task.leaves_first fun body h => List.forall_mem_singleton.2 (.each h))
  | repeatWhile l condition body =>
    exact .idle (Task.leaves_first fun body h => List.forall_mem_singleton.2 (.while h))
  | attempt l body unsuccessful continuation =>
    have leaves : (Task.block (.attempt l body unsuccessful continuation :: more)).Leaves
        ([.block body, .handler unsuccessful, .continuation continuation] ++ [.block more]) := by
      refine Task.leaves_first fun whole h => ?_
      simp only [List.forall_mem_cons]
      exact ⟨.blockIn h (by simp [Statement.blocks]), .handler h, .continuation h, by simp⟩
    exact .inside s.world leaves
  | addToList l e x =>
    exact .onWorld (world.evaluating e fun _ => world.reading x l fun _ => world.onHeap _) others
  | removeFromList l e x =>
    exact .onWorld (world.evaluating e fun _ => world.reading x l fun _ => world.onHeap _) others
  | note l text => exact .idle others

theorem does_nextRound (rounds : Rounds) :
    Does ob limits (.loop rounds) rest s (nextRound limits rest s rounds).tasks
      (nextRound limits rest s rounds).session := by
  cases rounds with
  | times left body =>
    cases left with
    | zero => exact .drop nofun
    | succ n =>
      refine .inside s.world (Task.leaves_round fun whole h => ?_)
      cases h with
      | times h => exact ⟨.blockIn h (List.mem_singleton_self body), .times h⟩
  | each x left body =>
    cases left with
    | nil => exact .drop nofun
    | cons v vs =>
      refine .insideWith x v (Task.leaves_round fun whole h => ?_)
      cases h with
      | each h => exact ⟨.blockIn h (List.mem_singleton_self body), .each h⟩
  | «while» l condition done body =>
    refine does_branch nofun (fun w => ?_) fun w => .stay w (Task.leaves_nil (by nofun))
    split
    · exact .stay w (Task.leaves_nil (by nofun))
    · refine .inside w (Task.leaves_round fun whole h => ?_)
      cases h with
      | «while» h => exact ⟨.blockIn h (List.mem_singleton_self body), .while h⟩

theorem does_arms (arms : List (Location × Expression × List Statement))
    (otherwise : Option (List Statement)) :
    let m := perform ob limits rest s (.arms arms otherwise) .normal
    Does ob limits (.arms arms otherwise) rest s m.tasks m.session := by
  cases arms with
  | nil =>
    cases otherwise with
    | none => exact .drop nofun
    | some body =>
      have leaves : (Task.arms [] (some body)).Leaves [.block body] := by
        refine Task.leaves_one nofun fun whole h => ?_
        cases h with
        | arms h => exact .blockIn h (Statement.mem_blocks_branch.2 (.inr rfl))
      exact .inside s.world leaves
  | cons arm arms =>
    obtain ⟨l, condition, body⟩ := arm
    refine does_branch nofun (fun w => ?_) fun w => ?_
    · have leaves : (Task.arms ((l, condition, body) :: arms) otherwise).Leaves [.block body] := by
        refine Task.leaves_one nofun fun whole h => ?_
        cases h with
        | arms h =>
          refine .blockIn h (Statement.mem_blocks_branch.2 (.inl ⟨(l, condition, body), ?_, rfl⟩))
          exact List.mem_append_right _ List.mem_cons_self
      exact .inside w leaves
    · have leaves : (Task.arms ((l, condition, body) :: arms) otherwise).Leaves
          [.arms arms otherwise] := by
        refine Task.leaves_one nofun fun whole h => ?_
        cases h with
        | arms h =>
          rw [List.append_cons] at h
          exact .arms h
      exact .stay w leaves

theorem perform_does (ob : Observer σ) (limits : Limits) (task : Task) (o : Outcome)
    (rest : List Task) (s : Session σ) :
    ∃ t, Ready ob s task t ∧
      Does ob limits task rest t (perform ob limits rest s task o).tasks
        (perform ob limits rest s task o).session := by
  have dropped (inFrame : ∀ name, task ≠ .closeFrame name) :
      ∃ t, Ready ob s task t ∧ Does ob limits task rest t rest s := ⟨s, .still task, .drop inFrame⟩
  cases task with
  | block sts =>
    cases sts with
    | nil => exact dropped nofun
    | cons st more =>
      cases o with
      | normal =>
        simp only [perform, begin]
        split
        · exact ⟨s, .still _, .idle (Task.leaves_more st more)⟩
        · next heard =>
          refine ⟨_, .announced (Bool.eq_false_iff.2 heard), ?_⟩
          split
          · exact does_start st more rfl
          · exact .idle (Task.leaves_more st more)
      | _ => exact dropped nofun
  | arms arms otherwise =>
    cases o with
    | normal => exact ⟨s, .still _, does_arms arms otherwise⟩
    | _ => cases arms <;> cases otherwise <;> exact dropped nofun
  | loop rounds =>
    cases o with
    | normal => exact ⟨s, .still _, does_nextRound rounds⟩
    | _ => exact dropped nofun
  | handler body =>
    cases body with
    | none => cases o <;> exact dropped nofun
    | some body =>
      cases o with
      | failed r => exact ⟨s, .still _, .insideWith _ _ (Task.leaves_handler body)⟩
      | _ => exact dropped nofun
  | continuation body =>
    cases body with
    | none => cases o <;> exact dropped nofun
    | some body =>
      have last (o : Outcome) : Does ob limits (.continuation (some body)) rest s
          (inside body (.pending o :: rest) s).tasks
          (inside body (.pending o :: rest) s).session :=
        .inside s.world (Task.leaves_continuation body o)
      cases o with
      | stopped => exact dropped nofun
      | _ => exact ⟨s, .still _, last _⟩
  | pending p => exact dropped nofun
  | closeBlock => exact ⟨s, .still _, .closeBlock rfl⟩
  | closeFrame name => exact ⟨s, .still _, .closeFrame o rfl⟩
  | receive target l =>
    cases target with
    | none => cases o <;> exact dropped nofun
    | some x =>
      cases o with
      | returned v =>
        have assigning : Does ob limits (.receive (some x) l) rest s ([] ++ rest)
            (Action.assign x v l s).2 :=
          .assigning (w := s.world) .receive (Task.leaves_nil (by nofun))
        exact ⟨s, .still _, assigning⟩
      | _ => exact dropped nofun

/-- What every step keeps is so in the whole run. -/
theorem after_keeps {P : Machine σ → Prop}
    (step : ∀ {m m' : Machine σ}, P m → m.step ob limits = some m' → P m') {m : Machine σ}
    (h : P m) (k : Nat) : P (after ob limits k m) := by
  induction k generalizing m with
  | zero => exact h
  | succ k ih =>
    unfold after
    split
    · exact h
    · next e => exact ih (step h e)

end Machine

end StepsLang
