import StepsLang.Proofs.Execution.Discipline
import StepsLang.Proofs.Program.Parts

namespace StepsLang

structure Outcome.Plain (Q : Outcome → Prop) : Prop where
  normal : Q .normal
  failed (r : Report) : Q (.failed r)
  stopped : Q .stopped

theorem Outcome.Plain.orExited {Q : Outcome → Prop} (h : Plain Q) :
    Plain fun o => Q o ∨ o = .exited :=
  ⟨.inl h.normal, fun r => .inl (h.failed r), .inl h.stopped⟩

namespace Action

def EndsIn (Q : Outcome → Prop) (a : Action σ) : Prop := ∀ s, Q (a s).1

namespace EndsIn

variable {Q : Outcome → Prop} {a b : Action σ}

theorem inBlock (ha : EndsIn Q a) : EndsIn Q (inBlock a) :=
  fun s => ha { s with env := s.env.pushBlock }

theorem inBlockWith (ha : EndsIn Q a) (x : Bytes) (v : Value) : EndsIn Q (inBlockWith x v a) :=
  fun s => ha { s with env := s.env.pushBlock.define x v }

theorem andThen (ha : EndsIn Q a) (hb : EndsIn Q b) : EndsIn Q (andThen a b) := by
  intro s
  have first := ha s
  unfold Action.andThen
  split
  · exact hb _
  · next e => rwa [e] at first

theorem followedBy {last : Option (Action σ)} (ha : EndsIn Q a) (hb : ∀ b ∈ last, EndsIn Q b) :
    EndsIn Q (followedBy a last) := by
  intro s
  have first := ha s
  rcases e : a s with ⟨o, t⟩
  rw [e] at first
  by_cases stopped : o = .stopped
  · subst stopped
    rw [followedBy_stopped e]
    exact first
  · cases last with
    | none =>
      rw [followedBy_none e]
      exact first
    | some b =>
      have second := (hb b rfl).inBlock t
      rw [followedBy_some e stopped]
      cases ended : (Action.inBlock b t).1 with
      | normal => exact first
      | _ => rwa [ended] at second

theorem afterRound {o : Outcome} (normal : Q .normal) (ha : EndsIn Q a)
    (round : Q o ∨ o = .exited) (s : Session σ) : Q (afterRound a (o, s)).1 := by
  cases o with
  | normal => exact ha s
  | exited => exact normal
  | _ => exact round.resolve_right nofun

variable (h : Outcome.Plain Q)
include h

theorem obtaining (x : Effect α) {k : α → Action σ} (hk : ∀ a, EndsIn Q (k a)) :
    EndsIn Q (obtaining x k) := by
  intro s
  unfold Action.obtaining
  split
  · exact hk _ _
  · exact h.failed _

theorem evaluating (e : Expression) {k : Value → Action σ} (hk : ∀ v, EndsIn Q (k v)) :
    EndsIn Q (evaluating e k) :=
  fun s => obtaining h (e.eval s.env) hk s

theorem evaluatingAll (es : List Expression) {k : List Value → Action σ}
    (hk : ∀ vs, EndsIn Q (k vs)) : EndsIn Q (evaluatingAll es k) :=
  fun s => obtaining h (Expression.evalItems s.env es) hk s

theorem reading (x : Bytes) (l : Location) {k : Value → Action σ} (hk : ∀ v, EndsIn Q (k v)) :
    EndsIn Q (reading x l k) := by
  intro s
  unfold Action.reading
  split
  · exact hk _ s
  · exact h.failed _

theorem assign (x : Bytes) (v : Value) (l : Location) : EndsIn (σ := σ) Q (assign x v l) := by
  intro s
  unfold Action.assign
  split
  · exact h.normal
  · exact h.failed _

theorem onHeap (c : Mutation Heap α) : EndsIn (σ := σ) Q (onHeap c) := by
  intro s
  unfold Action.onHeap
  split
  · exact h.normal
  · exact h.failed _

theorem calling (call : Caller σ) (x : Bytes) (target : Option Bytes) (l : Location)
    (vs : List Value) : EndsIn Q (calling call x target l vs) := by
  intro s
  unfold Action.calling
  split
  · cases target with
    | none => exact h.normal
    | some y => exact assign h y _ l _
  · exact h.failed _
  · exact h.stopped

theorem choose (condition : Expression) (ha : EndsIn Q a) (hb : EndsIn Q b) :
    EndsIn Q (choose condition a b) := by
  intro s
  unfold Action.choose
  split
  · exact ha _
  · exact hb _
  · exact h.failed _

theorem times (round : EndsIn (fun o => Q o ∨ o = .exited) a) (n : Nat) : EndsIn Q (times a n) := by
  induction n with
  | zero => exact fun _ => h.normal
  | succ n ih => exact fun s => afterRound h.normal ih (round s) _

theorem forEach (x : Bytes) (round : EndsIn (fun o => Q o ∨ o = .exited) a) (vs : List Value) :
    EndsIn Q (forEach x a vs) := by
  induction vs with
  | nil => exact fun _ => h.normal
  | cons v vs ih => exact fun s => afterRound h.normal ih (round.inBlockWith x v s) _

theorem loopWhile (condition : Expression) (tooLong : Report)
    (round : EndsIn (fun o => Q o ∨ o = .exited) a) (n : Nat) :
    EndsIn Q (loopWhile condition tooLong a n) := by
  have ended : EndsIn (σ := σ) Q skip := fun _ => h.normal
  induction n with
  | zero => exact choose h condition (fun _ => h.failed tooLong) ended
  | succ n ih => exact choose h condition (fun s => afterRound h.normal ih (round s) _) ended

theorem repeatTimes (l : Location) (round : EndsIn (fun o => Q o ∨ o = .exited) a) (v : Value) :
    EndsIn Q (repeatTimes l a v) := by
  cases v with
  | number n => exact times h round n.rounds
  | _ => exact fun _ => h.failed _

theorem repeatForEach (l : Location) (x : Bytes) (round : EndsIn (fun o => Q o ∨ o = .exited) a)
    (v : Value) : EndsIn Q (repeatForEach l x a v) := by
  intro s
  unfold Action.repeatForEach
  split
  · exact forEach h x round _ s
  · exact h.failed _

theorem handled {handler : Option (Action σ)} (ha : EndsIn Q a) (hb : ∀ b ∈ handler, EndsIn Q b) :
    EndsIn Q (handled a handler) := by
  intro s
  have first := ha s
  rcases e : a s with ⟨o, t⟩
  rw [e] at first
  simp only [Action.handled, e]
  cases o with
  | failed r =>
    cases handler with
    | none => exact h.normal
    | some b => exact (hb b rfl).inBlockWith _ _ t
  | _ => exact first

theorem announced (ob : Observer σ) (st : Statement) (ha : EndsIn Q a) :
    EndsIn Q (announced ob st a) := by
  intro s
  rw [announced_eq]
  split
  · exact h.normal
  · split
    · exact ha _
    · exact h.stopped

end EndsIn

end Action

namespace Statement
open StepsLang.Action

def isLoop : Statement → Bool
  | repeatTimes .. | repeatForEach .. | repeatWhile .. => true
  | _ => false

inductive Loose (body : List Statement) : Statement → Prop
  | here : st ∈ body → Loose body st
  | deeper {inner : List Statement} : Loose body st → st.isLoop = false → inner ∈ st.blocks →
    st' ∈ inner → Loose body st'

variable {st inner part : Statement} {body : List Statement}

theorem Loose.under (h : Loose [inner] part) (open_ : st.isLoop = false)
    (hb : body ∈ st.blocks) (hi : inner ∈ body) : Loose [st] part := by
  induction h with
  | here h =>
    rw [List.mem_singleton.1 h]
    exact .deeper (.here (List.mem_singleton_self st)) open_ hb hi
  | deeper _ open_ hb hs ih => exact .deeper ih open_ hb hs

theorem Within.under (h : Within [inner] part) (hb : body ∈ st.blocks) (hi : inner ∈ body) :
    Within [st] part := by
  induction h with
  | here h =>
    rw [List.mem_singleton.1 h]
    exact .deeper (.here (List.mem_singleton_self st)) hb hi
  | deeper _ hb hs ih => exact .deeper ih hb hs

theorem Loose.of_loop (h : Loose [st] part) (loop : st.isLoop = true) : part = st := by
  induction h with
  | here h => exact List.mem_singleton.1 h
  | deeper _ open_ _ _ ih =>
    rw [ih, loop] at open_
    cases open_

/-- Among these ends are all that the `exit`s and `return`s of a statement can bring about. -/
structure Permits (Q : Outcome → Prop) (st : Statement) : Prop where
  exit {l : Location} : Loose [st] (.exit l) → Q .exited
  giveBack {l : Location} {e : Option Expression} (v : Value) :
    Within [st] (.giveBack l e) → Q (.returned v)

namespace Permits

variable {Q : Outcome → Prop}

theorem inside (h : Permits Q st) (open_ : st.isLoop = false) (hb : body ∈ st.blocks) :
    ∀ inner ∈ body, Permits Q inner :=
  fun _ hi => ⟨fun held => h.exit (held.under open_ hb hi),
    fun v held => h.giveBack v (held.under hb hi)⟩

theorem round (h : Permits Q st) (hb : body ∈ st.blocks) :
    ∀ inner ∈ body, Permits (fun o => Q o ∨ o = .exited) inner :=
  fun _ hi => ⟨fun _ => .inr rfl, fun v held => .inl (h.giveBack v (held.under hb hi))⟩

end Permits

mutual
theorem ends_perform (ob : Observer σ) (limits : Limits) (call : Caller σ) :
    (st : Statement) → {Q : Outcome → Prop} → Outcome.Plain Q → Permits Q st →
      EndsIn Q (st.perform ob limits call)
  | .display _ e, _, plain, _ => .evaluating plain e fun _ _ => plain.normal
  | .set l x e, _, plain, _ => .evaluating plain e fun v => .assign plain x v l
  | .setIndex l x index e, _, plain, _ =>
    .reading plain x l fun _ => .evaluating plain index fun _ =>
      .evaluating plain e fun _ => .onHeap plain _
  | .call l x arguments target, _, plain, _ =>
    .evaluatingAll plain arguments (.calling plain call x target l)
  | .giveBack _ none, _, _, h => fun _ => h.giveBack .nothing (.here (List.mem_singleton_self _))
  | .giveBack _ (some e), _, plain, h =>
    .evaluating plain e fun v _ => h.giveBack v (.here (List.mem_singleton_self _))
  | .exit _, _, _, h => fun _ => h.exit (.here (List.mem_singleton_self _))
  | .branch _ arms none, _, plain, h =>
    ends_performArms ob limits call arms plain
      (fun arm ha => h.inside rfl (mem_blocks_branch.2 (.inl ⟨arm, ha, rfl⟩)))
      fun _ => plain.normal
  | .branch _ arms (some body), _, plain, h =>
    ends_performArms ob limits call arms plain
      (fun arm ha => h.inside rfl (mem_blocks_branch.2 (.inl ⟨arm, ha, rfl⟩)))
      (ends_performBlock ob limits call body plain
        (h.inside rfl (mem_blocks_branch.2 (.inr rfl)))).inBlock
  | .repeatTimes l count body, _, plain, h =>
    .evaluating plain count (.repeatTimes plain l
      (ends_performBlock ob limits call body plain.orExited
        (h.round (List.mem_singleton_self _))).inBlock)
  | .repeatForEach l x collection body, _, plain, h =>
    .evaluating plain collection (.repeatForEach plain l x
      (ends_performBlock ob limits call body plain.orExited (h.round (List.mem_singleton_self _))))
  | .repeatWhile _ condition body, _, plain, h =>
    .loopWhile plain condition _
      (ends_performBlock ob limits call body plain.orExited
        (h.round (List.mem_singleton_self _))).inBlock _
  | .attempt _ body unsuccessful continuation, _, plain, h =>
    .followedBy
      (.handled plain
        (ends_performBlock ob limits call body plain
          (h.inside rfl (mem_blocks_attempt.2 (.inl rfl)))).inBlock
        (ends_performOptional ob limits call unsuccessful plain fun _ hb =>
          h.inside rfl (mem_blocks_attempt.2 (.inr (.inl hb)))))
      (ends_performOptional ob limits call continuation plain fun _ hb =>
        h.inside rfl (mem_blocks_attempt.2 (.inr (.inr hb))))
  | .addToList l e x, _, plain, _ | .removeFromList l e x, _, plain, _ =>
    .evaluating plain e fun _ => .reading plain x l fun _ => .onHeap plain _
  | .note _ _, _, plain, _ => fun _ => plain.normal
termination_by structural st => st

theorem ends_performBlock (ob : Observer σ) (limits : Limits) (call : Caller σ) :
    (block : List Statement) → {Q : Outcome → Prop} → Outcome.Plain Q →
      (∀ st ∈ block, Permits Q st) → EndsIn Q (performBlock ob limits call block)
  | [], _, plain, _ => fun _ => plain.normal
  | st :: rest, _, plain, h =>
    .andThen
      (.announced plain ob st (ends_perform ob limits call st plain (h st List.mem_cons_self)))
      (ends_performBlock ob limits call rest plain fun st hs => h st (List.mem_cons_of_mem _ hs))
termination_by structural block => block

theorem ends_performOptional (ob : Observer σ) (limits : Limits) (call : Caller σ) :
    (body : Option (List Statement)) → {Q : Outcome → Prop} → Outcome.Plain Q →
      (∀ block ∈ body, ∀ st ∈ block, Permits Q st) →
      ∀ b ∈ performOptional ob limits call body, EndsIn Q b
  | none, _, _, _, _, hb => by cases hb
  | some body, _, plain, h, _, hb => by
    cases hb
    exact ends_performBlock ob limits call body plain (h body rfl)
termination_by structural body => body

theorem ends_performArms (ob : Observer σ) (limits : Limits) (call : Caller σ) :
    (arms : List (Location × Expression × List Statement)) → {Q : Outcome → Prop} →
      Outcome.Plain Q → (∀ arm ∈ arms, ∀ st ∈ arm.2.2, Permits Q st) → EndsIn Q otherwise →
      EndsIn Q (performArms ob limits call arms otherwise)
  | [], _, _, _, ho => ho
  | (_, condition, body) :: rest, _, plain, h, ho =>
    .choose plain condition
      (ends_performBlock ob limits call body plain (h _ List.mem_cons_self)).inBlock
      (ends_performArms ob limits call rest plain
        (fun arm ha => h arm (List.mem_cons_of_mem _ ha)) ho)
termination_by structural arms => arms
end

theorem ends_execute {Q : Outcome → Prop} (ob : Observer σ) (limits : Limits) (n : Nat)
    (plain : Outcome.Plain Q) (h : Permits Q st) : EndsIn Q (st.execute ob limits n) :=
  .announced plain ob st (ends_perform ob limits (Call.within ob limits n) st plain h)

variable {ob : Observer σ} {limits : Limits} {n : Nat} {s : Session σ}

theorem loose_of_exited (exited : (st.execute ob limits n s).1 = .exited) :
    ∃ l, Loose [st] (.exit l) := by
  have held : Permits (fun o => o = .exited → ∃ l, Loose [st] (.exit l)) st :=
    ⟨fun held _ => ⟨_, held⟩, fun _ _ => nofun⟩
  exact ends_execute ob limits n ⟨nofun, fun _ => nofun, nofun⟩ held s exited

theorem within_of_returned {v : Value} (returned : (st.execute ob limits n s).1 = .returned v) :
    ∃ l e, Within [st] (.giveBack l e) := by
  have held : Permits (fun o => o = .returned v → ∃ l e, Within [st] (.giveBack l e)) st :=
    ⟨fun _ => nofun, fun _ held _ => ⟨_, _, held⟩⟩
  exact ends_execute ob limits n ⟨nofun, fun _ => nofun, nofun⟩ held s returned

theorem loop_not_exited (loop : st.isLoop = true) : (st.execute ob limits n s).1 ≠ .exited := by
  intro exited
  obtain ⟨l, held⟩ := loose_of_exited exited
  cases held.of_loop loop
  cases loop

theorem call_not_leaving (isCall : st.isCall = true) :
    (st.execute ob limits n s).1 ≠ .exited ∧ ∀ v, (st.execute ob limits n s).1 ≠ .returned v := by
  have plain : Outcome.Plain fun o => o ≠ .exited ∧ ∀ v, o ≠ .returned v :=
    ⟨⟨nofun, nofun⟩, fun _ => ⟨nofun, nofun⟩, ⟨nofun, nofun⟩⟩
  cases st with
  | call l x arguments target =>
    exact EndsIn.announced plain ob _
      (.evaluatingAll plain arguments (.calling plain (Call.within ob limits n) x target l)) s
  | _ => cases isCall

end Statement

end StepsLang
