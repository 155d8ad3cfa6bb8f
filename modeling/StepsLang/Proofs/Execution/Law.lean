import StepsLang.Execution.Call

/-! Laws of execution.  A law relates a session to every session in which an action that began
there may end.  It is enough to check it for the primitive actions, for blocks and for frames: by
recursion on the program text it then holds of every statement, and by induction on the calls that
may still be opened, of every call. -/

namespace StepsLang

def CallResult.outcome : CallResult → Outcome
  | .value _ => .normal
  | .failed r => .failed r
  | .stopped => .stopped

def Outcome.orElse : Outcome → Outcome → Outcome
  | .normal, o => o
  | p, _ => p

namespace Action

variable {a b : Action σ} {s t : Session σ} {o : Outcome}

theorem followedBy_stopped {last : Option (Action σ)} (h : a s = (.stopped, t)) :
    followedBy a last s = (.stopped, t) := by
  simp only [followedBy, h]

theorem followedBy_none (h : a s = (o, t)) : followedBy a none s = (o, t) := by
  simp only [followedBy, h]
  cases o <;> rfl

theorem followedBy_some (h : a s = (o, t)) (ho : o ≠ .stopped) :
    followedBy a (some b) s = ((inBlock b t).1.orElse o, (inBlock b t).2) := by
  unfold followedBy
  rw [h]
  obtain ⟨p, u, e⟩ : ∃ p u, inBlock b t = (p, u) := ⟨_, _, rfl⟩
  cases o with
  | stopped => contradiction
  | _ =>
    simp only [e]
    cases p <;> rfl

end Action

def Action.Obeys (R : Session σ → Outcome → Session σ → Prop) (a : Action σ) : Prop :=
  ∀ s, R s (a s).1 (a s).2

/-- What a law needs for actions that only change the world or put other actions together.  Nothing
goes on after a stop. -/
structure Composable (R : Session σ → Outcome → Session σ → Prop) : Prop where
  finish : ∀ {o s}, o ≠ .stopped → R s o s
  resume : ∀ {o p s t u}, R s o t → o ≠ .stopped → R t p u → R s p u
  world : ∀ s w, R s .normal { s with world := w }

namespace Composable
open StepsLang.Action

variable {R : Session σ → Outcome → Session σ → Prop} (h : Composable R)
include h

theorem settle (hs : R s o t) (ho : o ≠ .stopped) (hp : p ≠ .stopped) : R s p t :=
  h.resume hs ho (h.finish hp)

theorem changed (w : World) (ho : o ≠ .stopped) : R s o { s with world := w } :=
  h.settle (h.world s w) (by simp) ho

theorem skip : Obeys R skip := fun _ => h.finish Outcome.noConfusion

theorem finish_obeys (ho : o ≠ .stopped) : Obeys R (Action.finish o) := fun _ => h.finish ho

theorem andThen (ha : Obeys R a) (hb : Obeys R b) : Obeys R (andThen a b) := by
  intro s
  have first := ha s
  unfold Action.andThen
  split
  · next t e =>
    rw [e] at first
    exact h.resume first (by simp) (hb t)
  · next o t _ e =>
    rw [e] at first
    exact first

theorem obtaining (x : Effect α) (hk : ∀ a, Obeys R (k a)) : Obeys R (obtaining x k) := by
  intro s
  unfold Action.obtaining
  split
  · next a w e => exact h.resume (h.world s w) (by simp) (hk a _)
  · next r w e => exact h.changed w (by simp)

theorem evaluating (e : Expression) (hk : ∀ v, Obeys R (k v)) : Obeys R (evaluating e k) :=
  fun s => h.obtaining (e.eval s.env) hk s

theorem evaluatingAll (es : List Expression) (hk : ∀ vs, Obeys R (k vs)) :
    Obeys R (evaluatingAll es k) :=
  fun s => h.obtaining (Expression.evalItems s.env es) hk s

theorem reading (x : Bytes) (l : Location) (hk : ∀ v, Obeys R (k v)) :
    Obeys R (reading x l k) := by
  intro s
  unfold Action.reading
  split
  · next v _ => exact hk v s
  · exact h.finish (by simp)

theorem onHeap (c : Mutation Heap α) : Obeys R (onHeap c) := by
  intro s
  unfold Action.onHeap
  split
  · exact h.world s _
  · exact h.changed _ (by simp)

theorem display (v : Value) : Obeys R (display v) := fun s => h.world s _

theorem assigning (set : ∀ {s x v l env}, s.env.set x v l = .ok env → R s .normal { s with env })
    (x : Bytes) (v : Value) (l : Location) : Obeys R (assign x v l) := by
  intro s
  rw [assign_eq]
  split
  · next env e => exact set e
  · exact h.finish (by simp)

theorem afterRound (hn : Obeys R next) (hs : R s r.1 r.2) :
    R s (afterRound next r).1 (afterRound next r).2 := by
  unfold Action.afterRound
  split
  · next t => exact h.resume hs (by simp) (hn t)
  · exact h.settle hs (by simp) (by simp)
  · exact hs

theorem times (hr : Obeys R turn) (n : Nat) : Obeys R (times turn n) := by
  induction n with
  | zero => exact h.skip
  | succ n ih => exact fun s => h.afterRound ih (hr s)

theorem forEach (hr : ∀ v, Obeys R (inBlockWith x v turn)) (vs : List Value) :
    Obeys R (forEach x turn vs) := by
  induction vs with
  | nil => exact h.skip
  | cons v vs ih => exact fun s => h.afterRound ih (hr v s)

theorem choose (c : Expression) (hy : Obeys R yes) (hn : Obeys R no) :
    Obeys R (choose c yes no) := by
  intro s
  unfold Action.choose Action.holds
  rcases c.eval s.env s.world with ⟨r | v, w⟩
  · exact h.changed w (by simp)
  · cases e : v.truthy w.heap with
    | true =>
      simp only [e]
      exact h.resume (h.world s w) (by simp) (hy _)
    | false =>
      simp only [e]
      exact h.resume (h.world s w) (by simp) (hn _)

theorem loopWhile (c : Expression) (tooLong : Report) (hr : Obeys R turn) (n : Nat) :
    Obeys R (loopWhile c tooLong turn n) := by
  induction n with
  | zero => exact h.choose c (h.finish_obeys (by simp)) h.skip
  | succ n ih => exact h.choose c (fun s => h.afterRound ih (hr s)) h.skip

theorem repeatTimes (l : Location) (hr : Obeys R turn) (v : Value) :
    Obeys R (Action.repeatTimes l turn v) := by
  unfold Action.repeatTimes
  split
  · exact h.times hr _
  · exact h.finish_obeys (by simp)

theorem repeatForEach (l : Location) (x : Bytes) (hr : ∀ v, Obeys R (inBlockWith x v turn))
    (v : Value) : Obeys R (Action.repeatForEach l x turn v) := by
  intro s
  unfold Action.repeatForEach
  split
  · exact h.forEach hr _ s
  · exact h.finish (by simp)

theorem handled (ha : Obeys R a)
    (hb : ∀ b ∈ handler, ∀ v, Obeys R (inBlockWith "problem_message" v b)) :
    Obeys R (handled a handler) := by
  intro s
  have first := ha s
  unfold Action.handled
  split
  · next r t b e =>
    rw [e] at first
    exact h.resume first (by simp) (hb b rfl _ t)
  · next r t e =>
    rw [e] at first
    exact h.settle first (by simp) (by simp)
  · next e _ _ =>
    rw [e] at first
    exact first

theorem followedBy (ha : Obeys R a) (hb : ∀ b ∈ last, Obeys R (inBlock b)) :
    Obeys R (followedBy a last) := by
  intro s
  have first := ha s
  unfold Action.followedBy
  split
  · next t _ e =>
    rw [e] at first
    exact first
  · next o t b ho e =>
    rw [e] at first
    have on : o ≠ .stopped := fun stop => ho (stop ▸ rfl)
    have second := h.resume first on (hb b rfl t)
    split
    · next u e' =>
      rw [e'] at second
      exact h.settle second (by simp) on
    · next p u _ e' =>
      rw [e'] at second
      exact second
  · next t e =>
    rw [e] at first
    exact first

end Composable

namespace Session

def announce (ob : Observer σ) (st : Statement) (s : Session σ) : Bool × Session σ :=
  let env := s.env.moveTo st.location
  let answer := ob.before st env s.world s.watch
  (answer.1, { s with env, watch := answer.2 })

end Session

def Statement.isNote : Statement → Bool
  | .note _ _ => true
  | _ => false

theorem Action.announced_eq (ob : Observer σ) (st : Statement) (a : Action σ) (s : Session σ) :
    Action.announced ob st a s =
      if st.isNote then (.normal, s)
      else if (s.announce ob st).1 then a (s.announce ob st).2
      else (.stopped, (s.announce ob st).2) := by
  cases st <;> rfl

namespace Session

def call (ob : Observer σ) (r : Routine) (owner : Step) (arguments : List Value) (l : Location)
    (s : Session σ) : Session σ :=
  let s := s.enter r owner arguments l
  { s with watch := ob.onCall r.name s.env s.world s.watch }

end Session

def Statement.isCall : Statement → Bool
  | .call .. => true
  | _ => false

/-- A law of blocks, for one way of calling routines.  A call keeps it as a whole; any other
statement keeps it if the announcement does. -/
structure Scheme (ob : Observer σ) (limits : Limits) (call : Caller σ)
    (R : Session σ → Outcome → Session σ → Prop) : Prop extends Composable R where
  assign : ∀ {s x v l env}, s.env.set x v l = .ok env → R s .normal { s with env }
  define : ∀ s x v, R s .normal { s with env := s.env.define x v }
  block : ∀ {o s t}, R { s with env := s.env.pushBlock } o t →
    R s o { t with env := t.env.popBlock }
  announced : ∀ {st a}, st.isCall = false → Action.Obeys R a →
    Action.Obeys R (Action.announced ob st a)
  called : ∀ {st}, st.isCall = true →
    Action.Obeys R (Action.announced ob st (st.perform ob limits call))

namespace Scheme
open StepsLang.Action

variable {R : Session σ → Outcome → Session σ → Prop} {ob : Observer σ} {limits : Limits}
  {call : Caller σ} (h : Scheme ob limits call R)
include h

theorem inBlock (ha : Obeys R a) : Obeys R (inBlock a) :=
  fun s => h.block (ha { s with env := s.env.pushBlock })

theorem inBlockWith (ha : Obeys R a) (x : Bytes) (v : Value) : Obeys R (inBlockWith x v a) :=
  h.inBlock fun s => h.resume (h.define s x v) (by simp) (ha _)

theorem optional (ha : ∀ b ∈ a, Obeys R b) : Obeys R (Action.optional a) := by
  cases a with
  | none => exact h.skip
  | some b => exact h.inBlock (ha b rfl)

omit h

mutual
theorem perform (h : Scheme ob limits call R) :
    (st : Statement) → st.isCall = false → Obeys R (st.perform ob limits call)
  | .display _ e, _ => h.evaluating e h.display
  | .set l x e, _ => h.evaluating e fun v => h.assigning h.assign x v l
  | .setIndex l x index e, _ =>
    h.reading x l fun _ => h.evaluating index fun _ => h.evaluating e fun _ => h.onHeap _
  | .giveBack _ none, _ => h.finish_obeys (by simp)
  | .giveBack _ (some e), _ => h.evaluating e fun _ => h.finish_obeys (by simp)
  | .exit _, _ => h.finish_obeys (by simp)
  | .branch _ arms otherwise, _ =>
    performArms h arms (h.optional (performOptional h otherwise))
  | .repeatTimes l count body, _ =>
    h.evaluating count (h.repeatTimes l (h.inBlock (performBlock h body)))
  | .repeatForEach l x collection body, _ =>
    h.evaluating collection (h.repeatForEach l x (h.inBlockWith (performBlock h body) x))
  | .repeatWhile _ condition body, _ =>
    h.loopWhile condition _ (h.inBlock (performBlock h body)) _
  | .attempt _ body unsuccessful continuation, _ =>
    h.followedBy
      (h.handled (h.inBlock (performBlock h body))
        fun b hb => h.inBlockWith (performOptional h unsuccessful b hb) _)
      fun b hb => h.inBlock (performOptional h continuation b hb)
  | .addToList _ e x, _ =>
    h.evaluating e fun _ => h.reading x _ fun _ => h.onHeap _
  | .removeFromList _ e x, _ =>
    h.evaluating e fun _ => h.reading x _ fun _ => h.onHeap _
  | .note _ _, _ => h.skip
termination_by structural st => st

theorem performBlock (h : Scheme ob limits call R) :
    (block : List Statement) → Obeys R (Statement.performBlock ob limits call block)
  | [] => h.skip
  | st :: rest =>
    h.andThen
      (match hc : st.isCall with
        | true => h.called hc
        | false => h.announced hc (perform h st hc))
      (performBlock h rest)
termination_by structural block => block

theorem performOptional (h : Scheme ob limits call R) :
    (body : Option (List Statement)) →
    ∀ b ∈ Statement.performOptional ob limits call body, Obeys R b
  | none => by simp [Statement.performOptional]
  | some body => by
    intro b hb
    cases hb
    exact performBlock h body
termination_by structural body => body

theorem performArms (h : Scheme ob limits call R) :
    (arms : List (Location × Expression × List Statement)) →
    Obeys R otherwise → Obeys R (Statement.performArms ob limits call arms otherwise)
  | [], ho => ho
  | (_, condition, body) :: rest, ho =>
    h.choose condition (h.inBlock (performBlock h body)) (performArms h rest ho)
termination_by structural arms => arms
end

end Scheme

structure Law (ob : Observer σ) (R : Session σ → Outcome → Session σ → Prop) : Prop
    extends Composable R where
  assign : ∀ {s x v l env}, s.env.set x v l = .ok env → R s .normal { s with env }
  define : ∀ s x v, R s .normal { s with env := s.env.define x v }
  block : ∀ {o s t}, R { s with env := s.env.pushBlock } o t →
    R s o { t with env := t.env.popBlock }
  goOn : ∀ {s st}, (s.announce ob st).1 = true → R s .normal (s.announce ob st).2
  stop : ∀ {s st}, (s.announce ob st).1 = false → R s .stopped (s.announce ob st).2
  frame : ∀ {s r owner arguments l o t}, R (s.call ob r owner arguments l) o t →
    R s (Call.finish ob r.name (o, t)).1.outcome (Call.finish ob r.name (o, t)).2

def Caller.Obeys (R : Session σ → Outcome → Session σ → Prop) (call : Caller σ) : Prop :=
  ∀ x vs l s, R s (call x vs l s).1.outcome (call x vs l s).2

namespace Composable
open StepsLang.Action

variable {R : Session σ → Outcome → Session σ → Prop} (h : Composable R)
include h

theorem announced {ob : Observer σ}
    (goOn : ∀ {s st}, (s.announce ob st).1 = true → R s .normal (s.announce ob st).2)
    (stop : ∀ {s st}, (s.announce ob st).1 = false → R s .stopped (s.announce ob st).2)
    (st : Statement) (ha : Obeys R a) : Obeys R (announced ob st a) := by
  intro s
  rw [announced_eq]
  split
  · exact h.finish (by simp)
  · split
    · next go => exact h.resume (goOn go) (by simp) (ha _)
    · next halt => exact stop (Bool.eq_false_iff.2 halt)

theorem calling (set : ∀ {s x v l env}, s.env.set x v l = .ok env → R s .normal { s with env })
    (hc : Caller.Obeys R call) (x : Bytes) (target : Option Bytes) (l : Location)
    (vs : List Value) : Obeys R (calling call x target l vs) := by
  intro s
  have ended := hc x vs l s
  unfold Action.calling
  split
  · next v t e =>
    rw [e] at ended
    cases target with
    | none => exact ended
    | some y => exact h.resume ended (by simp [CallResult.outcome]) (h.assigning set y v l t)
  · next e =>
    rw [e] at ended
    exact ended
  · next e =>
    rw [e] at ended
    exact ended

theorem native (f : Native) (vs : List Value) (l : Location) (s : Session σ) :
    R s (Call.native f vs l s).1.outcome (Call.native f vs l s).2 := by
  unfold Call.native
  split
  · exact h.finish (by simp [CallResult.outcome])
  · split
    · exact h.changed _ (by simp [CallResult.outcome])
    · exact h.changed _ (by simp [CallResult.outcome])

theorem byName {invoke : Call.Invoker σ}
    (hi : ∀ r owner vs l s, R s (invoke r owner vs l s).1.outcome (invoke r owner vs l s).2) :
    Caller.Obeys R (Call.byName invoke) := by
  intro x vs l s
  unfold Call.byName
  split
  · exact hi _ _ vs l s
  · split
    · exact h.native _ vs l s
    · split
      · exact hi _ _ vs l s
      · exact h.finish (by simp [CallResult.outcome])

theorem scheme {ob : Observer σ}
    (assign : ∀ {s x v l env}, s.env.set x v l = .ok env → R s .normal { s with env })
    (define : ∀ s x v, R s .normal { s with env := s.env.define x v })
    (block : ∀ {o s t}, R { s with env := s.env.pushBlock } o t →
      R s o { t with env := t.env.popBlock })
    (goOn : ∀ {s st}, (s.announce ob st).1 = true → R s .normal (s.announce ob st).2)
    (stop : ∀ {s st}, (s.announce ob st).1 = false → R s .stopped (s.announce ob st).2)
    (limits : Limits) (hc : Caller.Obeys R call) : Scheme ob limits call R where
  toComposable := h
  assign := assign
  define := define
  block := block
  announced := fun _ => h.announced goOn stop _
  called := by
    intro st isCall
    cases st with
    | call l x arguments target =>
      exact h.announced goOn stop _ (h.evaluatingAll arguments (h.calling assign hc x target l))
    | _ => cases isCall

end Composable

namespace Law
open StepsLang.Action

variable {R : Session σ → Outcome → Session σ → Prop} {ob : Observer σ} (h : Law ob R)
include h

theorem announced (st : Statement) (ha : Obeys R a) : Obeys R (announced ob st a) :=
  h.toComposable.announced h.goOn h.stop st ha

theorem calling (hc : Caller.Obeys R call) (x : Bytes) (target : Option Bytes) (l : Location)
    (vs : List Value) : Obeys R (calling call x target l vs) :=
  h.toComposable.calling h.assign hc x target l vs

omit h

theorem scheme (h : Law ob R) (limits : Limits) (hc : Caller.Obeys R call) :
    Scheme ob limits call R :=
  h.toComposable.scheme h.assign h.define h.block h.goOn h.stop limits hc

theorem perform (h : Law ob R) (limits : Limits) (hc : Caller.Obeys R call) (st : Statement) :
    Obeys R (st.perform ob limits call) := by
  cases isCall : st.isCall with
  | false => exact (h.scheme limits hc).perform st isCall
  | true =>
    cases st with
    | call l x arguments target => exact h.evaluatingAll arguments (h.calling hc x target l)
    | _ => cases isCall

theorem performBlock (h : Law ob R) (limits : Limits) (hc : Caller.Obeys R call)
    (block : List Statement) : Obeys R (Statement.performBlock ob limits call block) :=
  (h.scheme limits hc).performBlock block

theorem invoke (h : Law ob R) (limits : Limits) (n : Nat) (r : Routine) (owner : Step)
    (vs : List Value) (l : Location) (s : Session σ) :
    R s (Call.invoke ob limits n r owner vs l s).1.outcome
      (Call.invoke ob limits n r owner vs l s).2 := by
  induction n generalizing r owner vs l s with
  | zero => exact h.finish Outcome.noConfusion
  | succ n ih =>
    unfold Call.invoke
    split
    · exact h.finish (by simp [CallResult.outcome])
    · exact h.frame (h.performBlock limits (h.toComposable.byName ih) r.body _)

theorem caller (h : Law ob R) (limits : Limits) (n : Nat) :
    Caller.Obeys R (Call.byName (Call.invoke ob limits n)) :=
  h.toComposable.byName (h.invoke limits n)

end Law

/-- A law of what an observer remembers: it is enough to check it for the three answers of the
observer, of which the first is given at the statement where the environment then is. -/
structure Watched (ob : Observer σ) (S : σ → Outcome → σ → Prop) : Prop where
  refl : ∀ {x o}, o ≠ .stopped → S x o x
  trans : ∀ {x y z o p}, S x o y → o ≠ .stopped → S y p z → S x p z
  before : ∀ st env w x, env.top.current = st.location →
    S x (if (ob.before st env w x).1 then .normal else .stopped) (ob.before st env w x).2
  onCall : ∀ name env w x, S x .normal (ob.onCall name env w x)
  onReturn : ∀ name env w x, S x .normal (ob.onReturn name env w x)

namespace Watched

variable {ob : Observer σ} {S : σ → Outcome → σ → Prop} (h : Watched ob S)
include h

theorem announce (st : Statement) (s : Session σ) :
    S s.watch (if (s.announce ob st).1 then .normal else .stopped) (s.announce ob st).2.watch :=
  h.before st (s.env.moveTo st.location) s.world s.watch rfl

theorem law : Law ob fun s o t => S s.watch o t.watch where
  finish := h.refl
  resume := fun first ho second => h.trans first ho second
  world := fun _ _ => h.refl Outcome.noConfusion
  assign := fun _ => h.refl Outcome.noConfusion
  define := fun _ _ _ => h.refl Outcome.noConfusion
  block := fun inside => inside
  goOn := by
    intro s st go
    have here := h.announce st s
    rwa [if_pos go] at here
  stop := by
    intro s st halt
    have here := h.announce st s
    rwa [if_neg (Bool.eq_false_iff.1 halt)] at here
  frame := by
    intro s r owner vs l o t body
    have whole := h.trans (h.onCall _ _ _ _) Outcome.noConfusion body
    cases o with
    | failed => exact whole
    | stopped => exact whole
    | _ => exact h.trans whole Outcome.noConfusion (h.onReturn r.name t.env t.world t.watch)

theorem performBlock (limits : Limits) (block : List Statement) (s : Session σ) :
    let r := Statement.performBlock ob limits
      (Call.byName (Call.invoke ob limits (s.callsLeft limits))) block s
    S s.watch r.1 r.2.watch :=
  h.law.performBlock limits (h.law.caller limits _) block s

end Watched

end StepsLang
