import StepsLang.Proofs.Execution.Scope

namespace StepsLang

namespace Environment
open StepsLang.Action

theorem confined_composable :
    Composable fun (s : Session σ) (_ : Outcome) t => Confined s.env t.env where
  finish := fun _ => .refl _
  resume := fun h _ h' => h.trans h'
  world := fun _ _ => .refl _

theorem confined_law (ob : Observer σ) :
    Law ob fun (s : Session σ) (_ : Outcome) t => Confined s.env t.env where
  toComposable := confined_composable
  assign := confined_set
  define := fun s x v => confined_define s.env x v
  block := fun h => (kept_popBlock h).toConfined
  goOn := fun _ => confined_moveTo _ _
  stop := fun _ => confined_moveTo _ _
  frame := fun h => by
    rw [Session.env_finish h.toAround]
    exact .refl _

theorem kept_composable :
    Composable fun (s : Session σ) (_ : Outcome) t => Kept s.env t.env where
  finish := fun _ => .refl _
  resume := fun h _ h' => h.trans h'
  world := fun _ _ => .refl _

theorem kept_inBlock {a : Action σ}
    (ha : Obeys (fun s _ t => Confined s.env t.env) a) :
    Obeys (fun s _ t => Kept s.env t.env) (inBlock a) :=
  fun s => kept_popBlock (ha { s with env := s.env.pushBlock })

theorem kept_inBlockWith {a : Action σ}
    (ha : Obeys (fun s _ t => Confined s.env t.env) a) (x : Bytes) (v : Value) :
    Obeys (fun s _ t => Kept s.env t.env) (inBlockWith x v a) := by
  refine kept_inBlock fun s => ?_
  exact (confined_define s.env x v).trans (ha { s with env := s.env.define x v })

variable {ob : Observer σ} {limits : Limits} {call : Caller σ}

theorem kept_performArms (hc : Caller.Obeys (fun s _ t => Confined s.env t.env) call)
    (arms : List (Location × Expression × List Statement))
    (ho : Obeys (fun s _ t => Kept s.env t.env) otherwise) :
    Obeys (fun s _ t => Kept s.env t.env)
      (Statement.performArms ob limits call arms otherwise) := by
  induction arms with
  | nil => exact ho
  | cons arm arms ih =>
    obtain ⟨l, condition, body⟩ := arm
    have yes := kept_inBlock ((confined_law ob).performBlock limits hc body)
    exact kept_composable.choose condition yes ih

end Environment

def Statement.hasBlocks : Statement → Bool
  | branch .. | repeatTimes .. | repeatForEach .. | repeatWhile .. | attempt .. => true
  | _ => false

namespace Environment
open StepsLang.Action

theorem kept_perform (ob : Observer σ) (limits : Limits)
    (hc : Caller.Obeys (fun s _ t => Confined s.env t.env) call)
    {st : Statement} (hb : st.hasBlocks = true) :
    Obeys (fun s _ t => Kept s.env t.env) (st.perform ob limits call) := by
  have block (body : List Statement) := (confined_law ob).performBlock limits hc body
  have inside (body : List Statement) := kept_inBlock (block body)
  have insideWith (body : List Statement) := kept_inBlockWith (block body)
  cases st with
  | branch l arms otherwise =>
    refine kept_performArms hc arms ?_
    cases otherwise with
    | none => exact kept_composable.skip
    | some body => exact inside body
  | repeatTimes l count body =>
    exact kept_composable.evaluating count (kept_composable.repeatTimes l (inside body))
  | repeatForEach l x collection body =>
    exact kept_composable.evaluating collection
      (kept_composable.repeatForEach l x fun v => insideWith body x v)
  | repeatWhile l condition body => exact kept_composable.loopWhile condition _ (inside body) _
  | attempt l body unsuccessful continuation =>
    refine kept_composable.followedBy (kept_composable.handled (inside body) ?_) ?_
    · intro b hb v
      cases unsuccessful with
      | none => cases hb
      | some handler =>
        cases hb
        exact insideWith handler _ v
    · intro b hb
      cases continuation with
      | none => cases hb
      | some last =>
        cases hb
        exact inside last
  | _ => cases hb

end Environment

abbrev Call.within (ob : Observer σ) (limits : Limits) (n : Nat) : Caller σ :=
  Call.byName (Call.invoke ob limits n)

/-- A statement with its announcement, while `n` more calls may be opened. -/
def Statement.execute (ob : Observer σ) (limits : Limits) (n : Nat) (st : Statement) : Action σ :=
  Action.announced ob st (st.perform ob limits (Call.within ob limits n))

namespace Environment
open StepsLang.Action

variable (ob : Observer σ) (limits : Limits) (n : Nat)

theorem confined_caller :
    Caller.Obeys (fun s _ t => Confined s.env t.env) (Call.within ob limits n) :=
  (confined_law ob).caller limits n

theorem confined_execute (st : Statement) (s : Session σ) :
    Confined s.env (st.execute ob limits n s).2.env := by
  have law := confined_law ob
  exact law.announced st (law.perform limits (confined_caller ob limits n) st) s

theorem confined_performBlock (block : List Statement) (s : Session σ) :
    Confined s.env (Statement.performBlock ob limits (Call.within ob limits n) block s).2.env :=
  (confined_law ob).performBlock limits (confined_caller ob limits n) block s

theorem kept_execute {st : Statement} (hb : st.hasBlocks = true) (s : Session σ) :
    Kept s.env (st.execute ob limits n s).2.env := by
  have hp := kept_perform ob limits (confined_caller ob limits n) hb
  unfold Statement.execute
  rw [announced_eq]
  split
  · exact .refl _
  · have moved : Kept s.env (s.announce ob st).2.env := ⟨confined_moveTo _ _, rfl⟩
    split
    · exact moved.trans (hp _)
    · exact moved

theorem env_invoke (r : Routine) (owner : Step) (vs : List Value) (l : Location) (s : Session σ) :
    (Call.invoke ob limits n r owner vs l s).2.env = s.env := by
  cases n with
  | zero => rfl
  | succ n =>
    unfold Call.invoke
    split
    · rfl
    · have body := confined_performBlock ob limits n r.body (s.call ob r owner vs l)
      exact Session.env_finish body.toAround

theorem env_native (f : Native) (vs : List Value) (l : Location) (s : Session σ) :
    (Call.native f vs l s).2.env = s.env := by
  unfold Call.native
  split
  · rfl
  · split <;> rfl

theorem env_caller (x : Bytes) (vs : List Value) (l : Location) (s : Session σ) :
    (Call.within ob limits n x vs l s).2.env = s.env := by
  unfold Call.within Call.byName
  split
  · exact env_invoke ob limits n _ _ vs l s
  · split
    · exact env_native _ vs l s
    · split
      · exact env_invoke ob limits n _ _ vs l s
      · rfl

/-- Frames and blocks are balanced however a statement, a block, a call or a whole run ends. -/
theorem execution_balanced (s : Session σ) :
    (∀ st : Statement, Balanced s.env (st.execute ob limits n s).2.env) ∧
    (∀ block, Balanced s.env
      (Statement.performBlock ob limits (Call.within ob limits n) block s).2.env) ∧
    (∀ r owner vs l, Balanced s.env (Call.invoke ob limits n r owner vs l s).2.env) ∧
    (∀ x vs l, Balanced s.env (Call.within ob limits n x vs l s).2.env) ∧
    (∀ block, Balanced s.env (s.runBlock ob limits block).2.env) ∧
    (∀ b, Balanced s.env (s.runBuilding ob limits b).2.env) ∧
    (∀ step vs, Balanced s.env (s.runStep ob limits step vs).2.env) := by
  have same : Balanced s.env s.env := (Confined.refl s.env).balanced
  refine ⟨fun st => (confined_execute ob limits n st s).balanced,
    fun block => (confined_performBlock ob limits n block s).balanced, ?_, ?_, ?_, ?_, ?_⟩
  · intro r owner vs l
    rwa [env_invoke]
  · intro x vs l
    rwa [env_caller]
  · intro block
    exact (confined_performBlock ob limits _ block s).balanced
  · intro b
    exact (confined_performBlock ob limits _ b.body s).balanced
  · intro step vs
    have back := env_invoke ob limits (s.callsLeft limits) step.toRoutine step vs step.location s
    change Balanced s.env (Call.invoke ob limits _ _ _ _ _ s).2.env
    rwa [back]

/-- What differs between two environments, if anything, is the variable of the target. -/
def Elsewhere (target : Option Bytes) (before after : Environment) : Prop :=
  ∀ y ∉ target, after.top.find? y = before.top.find? y

theorem elsewhere_composable (target : Option Bytes) :
    Composable fun (s : Session σ) (_ : Outcome) t => Elsewhere target s.env t.env where
  finish := fun _ _ _ => rfl
  resume := fun h _ h' y hy => (h' y hy).trans (h y hy)
  world := fun _ _ _ _ => rfl

theorem elsewhere_calling (x : Bytes) (target : Option Bytes) (l : Location) (vs : List Value) :
    Obeys (fun (s : Session σ) _ t => Elsewhere target s.env t.env)
      (calling (Call.within ob limits n) x target l vs) := by
  intro s y hy
  have back := env_caller ob limits n x vs l s
  unfold calling
  split
  · next v t e =>
    rw [e] at back
    cases target with
    | none => exact congrArg (·.top.find? y) back
    -- The value arrives in the environment of the caller, and is all that changes it.
    | some z =>
      have other : y ≠ z := fun same => hy (congrArg some same.symm)
      simp only [assign_eq]
      split
      · next env h => exact (find?_set h other).trans (congrArg (·.top.find? y) back)
      · exact congrArg (·.top.find? y) back
  · next e =>
    rw [e] at back
    exact congrArg (·.top.find? y) back
  · next e =>
    rw [e] at back
    exact congrArg (·.top.find? y) back

theorem elsewhere_execute (l : Location) (x : Bytes) (arguments : List Expression)
    (target : Option Bytes) (s : Session σ) :
    Elsewhere target s.env
      ((Statement.call l x arguments target).execute ob limits n s).2.env := by
  have called := (elsewhere_composable target).evaluatingAll arguments
    (elsewhere_calling ob limits n x target l)
  unfold Statement.execute
  rw [announced_eq]
  split
  · exact fun _ _ => rfl
  · split
    · exact called _
    · exact fun _ _ => rfl

/-- What a statement may do to variables: nothing in the frames below, no new names but in the
innermost scope, and no new names at all if it is made of blocks; a call changes no variable but the
one that takes its result. -/
theorem execution_confined (s : Session σ) :
    (∀ st : Statement,
      let after := (st.execute ob limits n s).2.env
      after.below = s.env.below ∧ after.top.domains.tail = s.env.top.domains.tail ∧
      (∀ x ∈ s.env.top.domains.headD [], x ∈ after.top.domains.headD []) ∧
      (st.hasBlocks = true →
        after.top.domains = s.env.top.domains ∧ ∀ x, after.has x = s.env.has x)) ∧
    (∀ l x arguments target, ∀ y ∉ target,
      ((Statement.call l x arguments target).execute ob limits n s).2.env.top.find? y =
        s.env.top.find? y) ∧
    (∀ r owner vs l, (Call.invoke ob limits n r owner vs l s).2.env = s.env) ∧
    (∀ x vs l, (Call.within ob limits n x vs l s).2.env = s.env) := by
  refine ⟨?_, fun l x arguments target => elsewhere_execute ob limits n l x arguments target s,
    fun r owner vs l => env_invoke ob limits n r owner vs l s,
    fun x vs l => env_caller ob limits n x vs l s⟩
  intro st
  have h := confined_execute ob limits n st s
  refine ⟨h.below, h.top.outer, h.top.inner, fun hb => ?_⟩
  have kept := kept_execute ob limits n hb s
  exact ⟨kept.domains, kept.has⟩

theorem execution_confined_branch :
    let st := Statement.branch {} [({}, .boolean {} true, [.set {} "x" (.text {} "inside")])] none
    let s : Session Unit := ⟨.fresh "main" false, {}, ()⟩
    st.hasBlocks = true ∧ (st.execute Observer.none {} 1 s).1 = .normal ∧
      (st.execute Observer.none {} 1 s).2.env.has "x" = false := by
  intro st s
  have outside : s.env.has "x" = false := by decide
  have kept := ((execution_confined Observer.none {} 1 s).1 st).2.2.2 rfl
  exact ⟨rfl, by decide, (kept.2 "x").trans outside⟩

end Environment

end StepsLang
