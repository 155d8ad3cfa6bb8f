import StepsLang.Proofs.Execution.Discipline

/-! One program under two observers.  As long as both want to go on, the two runs go through the
same environments and worlds, whatever the observers remember; a run can depend on who watches it
only by being stopped. -/

namespace StepsLang

namespace Session

def under (s : Session σ) (y : τ) : Session τ := ⟨s.env, s.world, y⟩

@[simp] theorem under_env (s : Session σ) (y : τ) : (s.under y).env = s.env := rfl

@[simp] theorem under_world (s : Session σ) (y : τ) : (s.under y).world = s.world := rfl

@[simp] theorem under_watch (s : Session σ) (y : τ) : (s.under y).watch = y := rfl

end Session

/-- What `a` does in a session, `b` does in the same session under another observer, with the
memories of both still related by `S`.  Only ends of `a` that satisfy `Q` are matched. -/
def Follows (S : σ → τ → Prop) (Q : α → Prop) (b : Session τ → α × Session τ)
    (a : Session σ → α × Session σ) : Prop :=
  ∀ s y, S s.watch y → Q (a s).1 →
    ∃ y', S (a s).2.watch y' ∧ b (s.under y) = ((a s).1, (a s).2.under y')

/-- An observer that follows another: it goes on when the other does, and if stops are to be matched
it also stops when the other does. -/
structure Follower (S : σ → τ → Prop) (Q : Outcome → Prop) (ob' : Observer τ) (ob : Observer σ) :
    Prop where
  ends : ∀ {o}, o ≠ .stopped → Q o
  goOn : ∀ {st env w x y}, S x y → (ob.before st env w x).1 = true →
    (ob'.before st env w y).1 = true ∧ S (ob.before st env w x).2 (ob'.before st env w y).2
  stop : Q .stopped → ∀ {st env w x y}, S x y → (ob.before st env w x).1 = false →
    (ob'.before st env w y).1 = false ∧ S (ob.before st env w x).2 (ob'.before st env w y).2
  onCall : ∀ {name env w x y}, S x y → S (ob.onCall name env w x) (ob'.onCall name env w y)
  onReturn : ∀ {name env w x y}, S x y → S (ob.onReturn name env w x) (ob'.onReturn name env w y)

namespace Follows
open StepsLang.Action

variable {S : σ → τ → Prop}

theorem done {Q : α → Prop} (x : α) : Follows S Q (fun s => (x, s)) (fun s => (x, s)) :=
  fun _ y h _ => ⟨y, h, rfl⟩

variable {Q : Outcome → Prop} {a b : Action σ} {a' b' : Action τ}

theorem obtaining (x : Effect α) {k : α → Action σ} {k' : α → Action τ}
    (hk : ∀ v, Follows S Q (k' v) (k v)) :
    Follows S Q (Action.obtaining x k') (Action.obtaining x k) := by
  intro s y h q
  simp only [Action.obtaining, Session.under_world] at q ⊢
  rcases e : x s.world with ⟨r | v, w⟩ <;> simp only [e] at q ⊢
  · exact ⟨y, h, rfl⟩
  · exact hk v { s with world := w } y h q

theorem evaluating (e : Expression) {k : Value → Action σ} {k' : Value → Action τ}
    (hk : ∀ v, Follows S Q (k' v) (k v)) :
    Follows S Q (Action.evaluating e k') (Action.evaluating e k) :=
  fun s => obtaining (e.eval s.env) hk s

theorem evaluatingAll (es : List Expression) {k : List Value → Action σ}
    {k' : List Value → Action τ} (hk : ∀ vs, Follows S Q (k' vs) (k vs)) :
    Follows S Q (Action.evaluatingAll es k') (Action.evaluatingAll es k) :=
  fun s => obtaining (Expression.evalItems s.env es) hk s

theorem reading (x : Bytes) (l : Location) {k : Value → Action σ} {k' : Value → Action τ}
    (hk : ∀ v, Follows S Q (k' v) (k v)) :
    Follows S Q (Action.reading x l k') (Action.reading x l k) := by
  intro s y h q
  simp only [Action.reading, Session.under_env] at q ⊢
  rcases e : s.env.get x l with r | v <;> simp only [e] at q ⊢
  · exact ⟨y, h, rfl⟩
  · exact hk v s y h q

theorem assign (x : Bytes) (v : Value) (l : Location) :
    Follows S Q (Action.assign x v l) (Action.assign x v l) := by
  intro s y h _
  simp only [Action.assign, Session.under_env]
  rcases Environment.setting x v l s.env with ⟨r | _, env⟩
  · exact ⟨y, h, rfl⟩
  · exact ⟨y, h, rfl⟩

theorem onHeap (c : Mutation Heap α) :
    Follows S Q (Action.onHeap c) (Action.onHeap c) := by
  intro s y h _
  simp only [Action.onHeap, Session.under_world]
  rcases c s.world.heap with ⟨r | _, heap⟩
  · exact ⟨y, h, rfl⟩
  · exact ⟨y, h, rfl⟩

theorem display (v : Value) : Follows S Q (Action.display v) (Action.display v) :=
  fun _ y h _ => ⟨y, h, rfl⟩

theorem inBlock (ha : Follows S Q a' a) : Follows S Q (Action.inBlock a') (Action.inBlock a) := by
  intro s y h q
  obtain ⟨y', h', e⟩ := ha { s with env := s.env.pushBlock } y h q
  refine ⟨y', h', ?_⟩
  unfold Action.inBlock
  exact congrArg (fun r : Outcome × Session τ => (r.1, { r.2 with env := r.2.env.popBlock })) e

theorem inBlockWith (x : Bytes) (v : Value) (ha : Follows S Q a' a) :
    Follows S Q (Action.inBlockWith x v a') (Action.inBlockWith x v a) :=
  inBlock fun s y h q => ha { s with env := s.env.define x v } y h q

variable (ends : ∀ {o}, o ≠ .stopped → Q o)
include ends

theorem andThen (ha : Follows S Q a' a) (hb : Follows S Q b' b) :
    Follows S Q (Action.andThen a' b') (Action.andThen a b) := by
  intro s y h q
  have first := ha s y h
  unfold Action.andThen at q ⊢
  rcases e : a s with ⟨o, t⟩
  rw [e] at q first
  cases o with
  | normal =>
    obtain ⟨y', h', e'⟩ := first (ends (by simp))
    rw [e']
    exact hb t y' h' q
  | _ =>
    obtain ⟨y', h', e'⟩ := first q
    rw [e']
    exact ⟨y', h', rfl⟩

theorem round (ha : Follows S Q a' a) (hb : Follows S Q b' b) :
    Follows S Q (fun s => afterRound b' (a' s)) (fun s => afterRound b (a s)) := by
  intro s y h q
  have first := ha s y h
  unfold Action.afterRound at q ⊢
  rcases e : a s with ⟨o, t⟩
  simp only [e] at q first ⊢
  cases o with
  | normal =>
    obtain ⟨y', h', e'⟩ := first (ends (by simp))
    rw [e']
    exact hb t y' h' q
  | exited =>
    obtain ⟨y', h', e'⟩ := first (ends (by simp))
    rw [e']
    exact ⟨y', h', rfl⟩
  | _ =>
    obtain ⟨y', h', e'⟩ := first q
    rw [e']
    exact ⟨y', h', rfl⟩

theorem times (ha : Follows S Q a' a) (n : Nat) :
    Follows S Q (Action.times a' n) (Action.times a n) := by
  induction n with
  | zero => exact done _
  | succ n ih => exact round ends ha ih

theorem forEach (x : Bytes) (ha : Follows S Q a' a) (vs : List Value) :
    Follows S Q (Action.forEach x a' vs) (Action.forEach x a vs) := by
  induction vs with
  | nil => exact done _
  | cons v vs ih => exact round ends (inBlockWith x v ha) ih

omit ends in
theorem choose (c : Expression) (hy : Follows S Q a' a) (hn : Follows S Q b' b) :
    Follows S Q (Action.choose c a' b') (Action.choose c a b) := by
  intro s y h q
  simp only [Action.choose, Action.holds, Session.under_env, Session.under_world] at q ⊢
  rcases e : c.eval s.env s.world with ⟨r | v, w⟩ <;> simp only [e] at q ⊢
  · exact ⟨y, h, rfl⟩
  · cases t : v.truthy w.heap with
    | true =>
      simp only [t] at q ⊢
      exact hy { s with world := w } y h q
    | false =>
      simp only [t] at q ⊢
      exact hn { s with world := w } y h q

theorem loopWhile (c : Expression) (tooLong : Report) (ha : Follows S Q a' a) (n : Nat) :
    Follows S Q (Action.loopWhile c tooLong a' n) (Action.loopWhile c tooLong a n) := by
  induction n with
  | zero => exact choose c (done _) (done _)
  | succ n ih => exact choose c (round ends ha ih) (done _)

theorem repeatTimes (l : Location) (ha : Follows S Q a' a) (v : Value) :
    Follows S Q (Action.repeatTimes l a' v) (Action.repeatTimes l a v) := by
  cases v with
  | number n => exact times ends ha _
  | _ => exact done _

theorem repeatForEach (l : Location) (x : Bytes) (ha : Follows S Q a' a) (v : Value) :
    Follows S Q (Action.repeatForEach l x a' v) (Action.repeatForEach l x a v) := by
  intro s y h q
  simp only [Action.repeatForEach, Session.under_world] at q ⊢
  rcases e : v.items? s.world.heap with _ | items <;> simp only [e] at q ⊢
  · exact ⟨y, h, rfl⟩
  · exact forEach ends x ha items s y h q

theorem handled (ha : Follows S Q a' a) {handler : Option (Action σ)}
    {handler' : Option (Action τ)} (hb : Option.Rel (Follows S Q) handler' handler) :
    Follows S Q (Action.handled a' handler') (Action.handled a handler) := by
  intro s y h q
  have first := ha s y h
  unfold Action.handled at q ⊢
  rcases e : a s with ⟨o, t⟩
  simp only [e] at q first ⊢
  cases o with
  | failed r =>
    obtain ⟨y', h', e'⟩ := first (ends (by simp))
    rw [e']
    cases hb with
    | none => exact ⟨y', h', rfl⟩
    | some hb => exact inBlockWith _ _ hb t y' h' q
  | _ =>
    obtain ⟨y', h', e'⟩ := first q
    rw [e']
    exact ⟨y', h', rfl⟩

theorem followedBy (ha : Follows S Q a' a) {last : Option (Action σ)}
    {last' : Option (Action τ)} (hb : Option.Rel (Follows S Q) last' last) :
    Follows S Q (Action.followedBy a' last') (Action.followedBy a last) := by
  intro s y h q
  have first := ha s y h
  rcases e : a s with ⟨o, t⟩
  rw [e] at first
  by_cases stop : o = .stopped
  · subst stop
    rw [followedBy_stopped e] at q ⊢
    obtain ⟨y', h', e'⟩ := first q
    exact ⟨y', h', followedBy_stopped e'⟩
  · obtain ⟨y', h', e'⟩ := first (ends stop)
    cases hb with
    | none =>
      rw [followedBy_none e]
      exact ⟨y', h', followedBy_none e'⟩
    | @some b' b hb =>
      rw [followedBy_some e stop] at q ⊢
      rw [followedBy_some e' stop]
      have q' : Q (Action.inBlock b t).1 := by
        cases p : (Action.inBlock b t).1 with
        | normal => exact ends (by simp)
        | _ =>
          rw [p] at q
          exact q
      obtain ⟨y'', h'', e''⟩ := inBlock hb t y' h' q'
      rw [e'']
      exact ⟨y'', h'', rfl⟩

omit ends in
theorem optional {a : Option (Action σ)} {a' : Option (Action τ)}
    (ha : Option.Rel (Follows S Q) a' a) :
    Follows S Q (Action.optional a') (Action.optional a) := by
  cases ha with
  | none => exact done _
  | some ha => exact inBlock ha

end Follows

namespace Follower
open StepsLang.Action

variable {S : σ → τ → Prop} {Q : Outcome → Prop} {ob : Observer σ} {ob' : Observer τ}
  (h : Follower S Q ob' ob)
include h

theorem announced (st : Statement) {a : Action σ} {a' : Action τ} (ha : Follows S Q a' a) :
    Follows S Q (announced ob' st a') (announced ob st a) := by
  intro s y hs q
  rw [announced_eq] at q ⊢
  rw [announced_eq]
  by_cases note : st.isNote = true
  · simp only [note, if_true]
    exact ⟨y, hs, rfl⟩
  · simp only [note, if_false, Bool.false_eq_true] at q ⊢
    cases go : (s.announce ob st).1 with
    | true =>
      obtain ⟨go', hs'⟩ := h.goOn hs go
      have same : ((s.under y).announce ob' st).1 = true := go'
      simp only [go, same, if_true] at q ⊢
      exact ha (s.announce ob st).2 _ hs' q
    | false =>
      simp only [go, if_false, Bool.false_eq_true] at q ⊢
      obtain ⟨halt, hs'⟩ := h.stop q hs go
      have same : ((s.under y).announce ob' st).1 = false := halt
      simp only [same, if_false, Bool.false_eq_true]
      exact ⟨_, hs', rfl⟩

theorem calling {call : Caller σ} {call' : Caller τ}
    (hc : ∀ x vs l, Follows S (fun r => Q r.outcome) (call' x vs l) (call x vs l)) (x : Bytes)
    (target : Option Bytes) (l : Location) (vs : List Value) :
    Follows S Q (calling call' x target l vs) (calling call x target l vs) := by
  intro s y hs q
  have called := hc x vs l s y hs
  unfold Action.calling at q ⊢
  rcases e : call x vs l s with ⟨r, t⟩
  rw [e] at q called
  cases r with
  | value v =>
    obtain ⟨y', hs', e'⟩ := called (h.ends (by simp [CallResult.outcome]))
    rw [e']
    cases target with
    | none => exact ⟨y', hs', rfl⟩
    | some z => exact Follows.assign z v l t y' hs' q
  | failed r =>
    obtain ⟨y', hs', e'⟩ := called (h.ends (by simp [CallResult.outcome]))
    rw [e']
    exact ⟨y', hs', rfl⟩
  | stopped =>
    obtain ⟨y', hs', e'⟩ := called q
    rw [e']
    exact ⟨y', hs', rfl⟩

omit h

mutual
theorem perform (h : Follower S Q ob' ob) (limits : Limits) {call : Caller σ} {call' : Caller τ}
    (hc : ∀ x vs l, Follows S (fun r => Q r.outcome) (call' x vs l) (call x vs l)) :
    (st : Statement) → Follows S Q (st.perform ob' limits call') (st.perform ob limits call)
  | .display _ e => .evaluating e Follows.display
  | .set l x e => .evaluating e fun v => .assign x v l
  | .setIndex l x index e =>
    .reading x l fun _ => .evaluating index fun _ => .evaluating e fun _ => .onHeap _
  | .call l x arguments target => .evaluatingAll arguments (h.calling hc x target l)
  | .giveBack _ none => .done _
  | .giveBack _ (some e) => .evaluating e fun _ => .done _
  | .exit _ => .done _
  | .branch _ arms otherwise =>
    performArms h limits hc arms (.optional (performOptional h limits hc otherwise))
  | .repeatTimes l count body =>
    .evaluating count (.repeatTimes h.ends l (.inBlock (performBlock h limits hc body)))
  | .repeatForEach l x collection body =>
    .evaluating collection (.repeatForEach h.ends l x (performBlock h limits hc body))
  | .repeatWhile _ condition body =>
    .loopWhile h.ends condition _ (.inBlock (performBlock h limits hc body)) _
  | .attempt _ body unsuccessful continuation =>
    .followedBy h.ends
      (.handled h.ends (.inBlock (performBlock h limits hc body))
        (performOptional h limits hc unsuccessful))
      (performOptional h limits hc continuation)
  | .addToList _ e x => .evaluating e fun _ => .reading x _ fun _ => .onHeap _
  | .removeFromList _ e x => .evaluating e fun _ => .reading x _ fun _ => .onHeap _
  | .note _ _ => .done _
termination_by structural st => st

theorem performBlock (h : Follower S Q ob' ob) (limits : Limits) {call : Caller σ}
    {call' : Caller τ}
    (hc : ∀ x vs l, Follows S (fun r => Q r.outcome) (call' x vs l) (call x vs l)) :
    (block : List Statement) → Follows S Q (Statement.performBlock ob' limits call' block)
      (Statement.performBlock ob limits call block)
  | [] => .done _
  | st :: rest =>
    .andThen h.ends (h.announced st (perform h limits hc st)) (performBlock h limits hc rest)
termination_by structural block => block

theorem performOptional (h : Follower S Q ob' ob) (limits : Limits) {call : Caller σ}
    {call' : Caller τ}
    (hc : ∀ x vs l, Follows S (fun r => Q r.outcome) (call' x vs l) (call x vs l)) :
    (body : Option (List Statement)) →
    Option.Rel (Follows S Q) (Statement.performOptional ob' limits call' body)
      (Statement.performOptional ob limits call body)
  | none => .none
  | some body => .some (performBlock h limits hc body)
termination_by structural body => body

theorem performArms (h : Follower S Q ob' ob) (limits : Limits) {call : Caller σ}
    {call' : Caller τ}
    (hc : ∀ x vs l, Follows S (fun r => Q r.outcome) (call' x vs l) (call x vs l))
    {otherwise : Action σ} {otherwise' : Action τ} :
    (arms : List (Location × Expression × List Statement)) → Follows S Q otherwise' otherwise →
    Follows S Q (Statement.performArms ob' limits call' arms otherwise')
      (Statement.performArms ob limits call arms otherwise)
  | [], ho => ho
  | (_, condition, body) :: rest, ho =>
    .choose condition (.inBlock (performBlock h limits hc body)) (performArms h limits hc rest ho)
termination_by structural arms => arms
end

theorem native (f : Native) (vs : List Value) (l : Location) :
    Follows S (fun r => Q r.outcome) (Call.native f vs l) (Call.native f vs l) := by
  intro s y hs _
  unfold Call.native
  cases f.call? vs l with
  | none => exact ⟨y, hs, rfl⟩
  | some effect =>
    simp only [Session.under_world]
    rcases effect s.world with ⟨r | v, w⟩
    · exact ⟨y, hs, rfl⟩
    · exact ⟨y, hs, rfl⟩

theorem byName {invoke : Call.Invoker σ} {invoke' : Call.Invoker τ}
    (hi : ∀ r owner vs l,
      Follows S (fun r => Q r.outcome) (invoke' r owner vs l) (invoke r owner vs l))
    (x : Bytes) (vs : List Value) (l : Location) :
    Follows S (fun r => Q r.outcome) (Call.byName invoke' x vs l) (Call.byName invoke x vs l) := by
  intro s y hs q
  simp only [Call.byName, Session.under_env] at q ⊢
  rcases riser : s.env.running.head?.bind fun owner => (owner.riser? x).map (·, owner) with
    _ | ⟨r, owner⟩ <;> simp only [riser] at q ⊢
  · rcases named : Native.ofName? x with _ | f <;> simp only [named] at q ⊢
    · rcases found : s.env.resolve x l with e | step <;> simp only [found] at q ⊢
      · exact ⟨y, hs, rfl⟩
      · exact hi _ _ vs l s y hs q
    · exact native f vs l s y hs q
  · exact hi r owner vs l s y hs q

theorem ends_of_finish (h : Follower S Q ob' ob) {name : Bytes} {r : Outcome × Session σ}
    (q : Q (Call.finish ob name r).1.outcome) : Q r.1 := by
  obtain ⟨o, s⟩ := r
  cases o with
  | stopped => exact q
  | _ => exact h.ends (by simp)

theorem finish (h : Follower S Q ob' ob) (name : Bytes) (o : Outcome) (s : Session σ) {y : τ}
    (hs : S s.watch y) :
    ∃ y', S (Call.finish ob name (o, s)).2.watch y' ∧
      Call.finish ob' name (o, s.under y) =
        ((Call.finish ob name (o, s)).1, (Call.finish ob name (o, s)).2.under y') := by
  cases o with
  | failed r => exact ⟨y, hs, rfl⟩
  | stopped => exact ⟨y, hs, rfl⟩
  | _ => exact ⟨_, h.onReturn hs, rfl⟩

theorem invoke (h : Follower S Q ob' ob) (limits : Limits) (n : Nat) (r : Routine) (owner : Step)
    (vs : List Value) (l : Location) :
    Follows S (fun r => Q r.outcome) (Call.invoke ob' limits n r owner vs l)
      (Call.invoke ob limits n r owner vs l) := by
  induction n generalizing r owner vs l with
  | zero => exact .done _
  | succ n ih =>
    intro s y hs q
    unfold Call.invoke at q ⊢
    by_cases count : (vs.length != r.parameters.length) = true
    · simp only [count, if_true]
      exact ⟨y, hs, rfl⟩
    · simp only [count, if_false, Bool.false_eq_true] at q ⊢
      obtain ⟨y', hs', e'⟩ :=
        h.performBlock limits (byName ih) r.body (s.call ob r owner vs l) _ (h.onCall hs)
          (h.ends_of_finish q)
      obtain ⟨y'', hs'', e''⟩ := finish h r.name _ _ hs'
      refine ⟨y'', hs'', ?_⟩
      exact (congrArg (Call.finish ob' r.name) e').trans e''

theorem within (h : Follower S Q ob' ob) (limits : Limits) (n : Nat) (x : Bytes) (vs : List Value)
    (l : Location) :
    Follows S (fun r => Q r.outcome) (Call.within ob' limits n x vs l)
      (Call.within ob limits n x vs l) :=
  byName (h.invoke limits n) x vs l

theorem runBlock (h : Follower S Q ob' ob) (limits : Limits) (body : List Statement)
    (s : Session σ) {y : τ} (hs : S s.watch y)
    (q : Q (Statement.performBlock ob limits
      (Call.within ob limits (s.callsLeft limits)) body s).1) :
    ∃ y', S (s.runBlock ob limits body).2.watch y' ∧
      (s.under y).runBlock ob' limits body =
        ((s.runBlock ob limits body).1, (s.runBlock ob limits body).2.under y') := by
  obtain ⟨y', hs', e⟩ :=
    h.performBlock limits (h.within limits (s.callsLeft limits)) body s y hs q
  exact ⟨y', hs', congrArg (fun r => (Result.ofOutcome r.1, r.2)) e⟩

end Follower

end StepsLang
