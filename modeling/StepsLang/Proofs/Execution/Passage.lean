import StepsLang.Proofs.Execution.Machine

/-! The way of a machine through one statement.  What lies under a task is neither looked at nor
changed before the task has ended, so a run over an empty stack is one over any other.  Main
statement: a block that is entered over the tasks of a loop or an attempt passes to its end without
that loop or attempt opening another block, and its scope lies on those that were open before. -/

namespace StepsLang

namespace Machine
open StepsLang.Action

def atop (m : Machine σ) (outer : List Task) : Machine σ := { m with tasks := m.tasks ++ outer }

section Atop

variable {ob : Observer σ} {limits : Limits} (rest outer : List Task) {s : Session σ}

theorem branch_atop (condition : Expression) {yes no yes' no' : Session σ → Machine σ}
    (hy : ∀ s, yes' s = (yes s).atop outer) (hn : ∀ s, no' s = (no s).atop outer) :
    branch condition (rest ++ outer) yes' no' s = (branch condition rest yes no s).atop outer := by
  unfold branch
  rcases holds condition s with ⟨r | truth, t⟩
  · rfl
  · cases truth with
    | true => exact hy t
    | false => exact hn t

theorem openRoutine_atop (r : Routine) (owner : Step) (vs : List Value) (l : Location) :
    openRoutine ob limits r owner vs l (rest ++ outer) s =
      (openRoutine ob limits r owner vs l rest s).atop outer := by
  unfold openRoutine
  split
  · rfl
  · split <;> rfl

theorem openName_atop (x : Bytes) (vs : List Value) (l : Location) :
    openName ob limits x vs l (rest ++ outer) s =
      (openName ob limits x vs l rest s).atop outer := by
  unfold openName
  split
  · exact openRoutine_atop rest outer ..
  · split
    · rfl
    · split
      · exact openRoutine_atop rest outer ..
      · rfl

theorem start_atop (st : Statement) :
    start ob limits (rest ++ outer) s st = (start ob limits rest s st).atop outer := by
  cases st with
  | call l x arguments target =>
    simp only [start]
    split
    · exact openName_atop (.receive target l :: rest) outer x _ l
    · rfl
  | giveBack l e => cases e <;> rfl
  | repeatTimes l count body =>
    simp only [start]
    split <;> rfl
  | repeatForEach l x collection body =>
    simp only [start]
    split
    · split <;> rfl
    · rfl
  | _ => rfl

theorem begin_atop (st : Statement) :
    begin ob limits (rest ++ outer) s st = (begin ob limits rest s st).atop outer := by
  unfold begin
  split
  · rfl
  · split
    · exact start_atop rest outer st
    · rfl

theorem nextRound_atop (rounds : Rounds) :
    nextRound limits (rest ++ outer) s rounds = (nextRound limits rest s rounds).atop outer := by
  cases rounds with
  | times left body => cases left <;> rfl
  | each x left body => cases left <;> rfl
  | «while» l condition done body =>
    refine branch_atop rest outer condition (fun t => ?_) fun _ => rfl
    split <;> rfl

theorem perform_atop (task : Task) (o : Outcome) :
    perform ob limits (rest ++ outer) s task o = (perform ob limits rest s task o).atop outer := by
  cases task with
  | block sts =>
    cases sts with
    | nil => rfl
    | cons st more =>
      cases o with
      | normal => exact begin_atop (.block more :: rest) outer st
      | _ => rfl
  | loop rounds =>
    cases o with
    | normal => exact nextRound_atop rest outer rounds
    | _ => rfl
  | arms arms otherwise =>
    cases o with
    | normal =>
      cases arms with
      | nil => cases otherwise <;> rfl
      | cons arm arms => exact branch_atop rest outer arm.2.1 (fun _ => rfl) fun _ => rfl
    | _ => cases arms <;> cases otherwise <;> rfl
  | handler body => cases body <;> cases o <;> rfl
  | continuation body => cases body <;> cases o <;> rfl
  | receive target l => cases target <;> cases o <;> rfl
  | pending p => rfl
  | closeBlock => rfl
  | closeFrame name => rfl

theorem step_atop {m next : Machine σ} (h : m.step ob limits = some next) (outer : List Task) :
    (m.atop outer).step ob limits = some (next.atop outer) := by
  obtain ⟨o, tasks, s⟩ := m
  cases tasks with
  | nil => cases h
  | cons task rest =>
    cases h
    exact congrArg some (perform_atop rest outer task o)

end Atop

/-- A loop or an attempt over so many tasks begins one of its blocks: a block of its own lies above
two more tasks, and everything above that belongs to a block. -/
def Opens (height : Nat) (m next : Machine σ) : Prop :=
  m.tasks.length ≤ height + 2 ∧ height + 2 < next.tasks.length

/-- The run from one machine to another with more than so many tasks to do until then, and the
blocks that what lies on those tasks begins in the course of it. -/
inductive Passage (ob : Observer σ) (limits : Limits) (height : Nat) :
    Machine σ → List (Machine σ) → Machine σ → Prop
  | refl (m : Machine σ) : Passage ob limits height m [] m
  | goOn {m next m' : Machine σ} {opened : List (Machine σ)} :
    m.step ob limits = some next → height < m.tasks.length → ¬ Opens height m next →
    Passage ob limits height next opened m' → Passage ob limits height m opened m'
  | «open» {m next m' : Machine σ} {opened : List (Machine σ)} :
    m.step ob limits = some next → height < m.tasks.length → Opens height m next →
    Passage ob limits height next opened m' → Passage ob limits height m (next :: opened) m'

namespace Passage

variable {ob : Observer σ} {limits : Limits} {height : Nat} {m m' m'' : Machine σ}
  {opened opened' : List (Machine σ)}

theorem trans (h : Passage ob limits height m opened m')
    (h' : Passage ob limits height m' opened' m'') :
    Passage ob limits height m (opened ++ opened') m'' := by
  induction h with
  | refl => exact h'
  | goOn stepped above quiet _ ih => exact .goOn stepped above quiet (ih h')
  | «open» stepped above opens _ ih => exact .open stepped above opens (ih h')

theorem unique (h : Passage ob limits height m opened m')
    (h' : Passage ob limits height m opened' m'') (down : m'.tasks.length = height)
    (down' : m''.tasks.length = height) : opened' = opened ∧ m'' = m' := by
  induction h generalizing opened' with
  | refl m =>
    cases h' with
    | refl => exact ⟨rfl, rfl⟩
    | goOn _ above | «open» _ above => omega
  | goOn stepped above quiet _ ih =>
    cases h' with
    | refl => omega
    | goOn stepped' _ _ later =>
      cases stepped.symm.trans stepped'
      exact ih later down
    | «open» stepped' _ opens _ =>
      cases stepped.symm.trans stepped'
      exact absurd opens quiet
  | «open» stepped above opens _ ih =>
    cases h' with
    | refl => omega
    | goOn stepped' _ quiet _ =>
      cases stepped.symm.trans stepped'
      exact absurd opens quiet
    | «open» stepped' _ _ later =>
      cases stepped.symm.trans stepped'
      obtain ⟨rfl, same⟩ := ih later down
      exact ⟨rfl, same⟩

end Passage

structure Course (ob : Observer σ) (limits : Limits) (rest : List Task) (m : Machine σ)
    (opened : List (Machine σ)) (ended : Outcome × Session σ) : Prop where
  passage : Passage ob limits rest.length m opened ⟨ended.1, rest, ended.2⟩
  only : ∀ opened' o t, Passage ob limits rest.length m opened' ⟨o, rest, t⟩ →
    opened' = opened ∧ (o, t) = ended

namespace Passage

variable {ob : Observer σ} {limits : Limits} {height : Nat} {m : Machine σ}
  {opened : List (Machine σ)}

theorem course {rest : List Task} {o : Outcome} {t : Session σ}
    (h : Passage ob limits rest.length m opened ⟨o, rest, t⟩) :
    Course ob limits rest m opened (o, t) where
  passage := h
  only opened' o' t' h' := by
    obtain ⟨same, last⟩ := h.unique h' rfl rfl
    cases last
    exact ⟨same, rfl⟩

/-- What runs high enough above the tasks opens no block of what lies on them. -/
theorem of_leads {p : Outcome} {t : Session σ} (h : Leads ob limits m ⟨p, [], t⟩)
    (outer : List Task) (high : height + 2 ≤ outer.length) :
    Passage ob limits height (m.atop outer) [] ⟨p, outer, t⟩ := by
  obtain ⟨k, h⟩ := h
  induction k generalizing m with
  | zero =>
    cases h
    exact .refl _
  | succ k ih =>
    simp only [after] at h
    split at h
    · cases h
      exact .refl _
    · next next stepped =>
      have above : height + 2 < (m.atop outer).tasks.length := by
        obtain ⟨o, tasks, s⟩ := m
        cases tasks with
        | nil => cases stepped
        | cons task rest =>
          simp only [atop, List.length_append, List.length_cons]
          omega
      have quiet : ¬ Opens height (m.atop outer) (next.atop outer) :=
        fun opens => Nat.not_lt.2 opens.1 above
      exact .goOn (step_atop stepped outer) (by omega) quiet (ih h)

end Passage

end Machine

namespace Environment

def enter (env : Environment) : Option (Bytes × Value) → Environment
  | none => env.pushBlock
  | some (x, v) => env.pushBlock.define x v

structure Topped (item : Option (Bytes × Value)) (before after : Environment) : Prop where
  kept : Kept before after.popBlock
  domains : after.top.domains = item.toList.map (·.1) :: before.top.domains
  visible : ∀ x, after.has x = true ↔ x ∈ item.toList.map (·.1) ∨ before.has x = true
  bound : ∀ x v, item = some (x, v) → ∀ l, after.get x l = .ok v

theorem topped_enter {before env : Environment} (kept : Kept before env)
    (item : Option (Bytes × Value)) : Topped item before (env.enter item) := by
  have domains : (env.enter item).top.domains = item.toList.map (·.1) :: before.top.domains := by
    cases item with
    | none => exact congrArg ([] :: ·) kept.domains
    | some e => exact congrArg ([e.1] :: ·) kept.domains
  refine ⟨?_, domains, fun x => ?_, ?_⟩
  · cases item <;> exact kept
  · rw [has_eq, has_eq, domains, List.any_cons, Bool.or_eq_true, List.contains_iff_mem]
  · rintro x v rfl l
    simp [enter, get, define, pushBlock, Frame.find?, Frame.scopes, Frame.define, Frame.pushBlock]

end Environment

namespace Action

def inFresh (item : Option (Bytes × Value)) (a : Action σ) : Action σ :=
  match item with
  | none => inBlock a
  | some (x, v) => inBlockWith x v a

theorem inFresh_eq (item : Option (Bytes × Value)) (a : Action σ) (s : Session σ) :
    inFresh item a s =
      ((a { s with env := s.env.enter item }).1,
        { (a { s with env := s.env.enter item }).2 with
          env := (a { s with env := s.env.enter item }).2.env.popBlock }) := by
  cases item <;> rfl

end Action

namespace Machine
open StepsLang.Action

def entering (item : Option (Bytes × Value)) (body : List Statement) (rest : List Task)
    (s : Session σ) : Machine σ :=
  ⟨.normal, .block body :: .closeBlock :: rest, { s with env := s.env.enter item }⟩

variable {ob : Observer σ} {limits : Limits} {height n : Nat} {o : Outcome} {task : Task}
  {rest R : List Task} {s t : Session σ} {next : Machine σ}

theorem kept_inFresh (item : Option (Bytes × Value)) (body : List Statement) (s : Session σ) :
    Environment.Kept s.env
      (inFresh item (Statement.performBlock ob limits (Call.within ob limits n) body) s).2.env := by
  have confined := Environment.confined_performBlock ob limits n body
  cases item with
  | none => exact Environment.kept_inBlock confined s
  | some e => exact Environment.kept_inBlockWith confined e.1 e.2 s

theorem depth_inFresh (item : Option (Bytes × Value)) (body : List Statement) (s : Session σ) :
    (inFresh item
      (Statement.performBlock ob limits (Call.within ob limits n) body) s).2.env.depth =
        s.env.depth :=
  depth_eq_of_confined (kept_inFresh item body s).toConfined

theorem Passage.moves (performed : perform ob limits rest s task o = next)
    (above : height ≤ rest.length) (short : next.tasks.length ≤ rest.length + 1) :
    Passage ob limits height ⟨o, task :: rest, s⟩ [] next := by
  subst performed
  have down : ¬ Opens height ⟨o, task :: rest, s⟩ (perform ob limits rest s task o) := by
    rintro ⟨low, high⟩
    exact absurd (Nat.le_trans short low) (by omega)
  exact .goOn rfl (Nat.lt_succ_of_le above) down (.refl _)

theorem entering_passage (item : Option (Bytes × Value)) (body : List Statement)
    (high : height < R.length) (hs : limits.depth - s.env.depth = n) :
    Passage ob limits height (entering item body R s) []
      (atOnce (inFresh item (Statement.performBlock ob limits (Call.within ob limits n) body))
        R s) := by
  have same : (s.env.enter item).depth = s.env.depth := by
    rcases item with _ | ⟨x, v⟩ <;> rfl
  have ends : Leads ob limits _ _ := performBlock_ends body [] { s with env := s.env.enter item }
  have body := Passage.of_leads ends (.closeBlock :: R) (Nat.succ_le_succ high)
  rw [Session.callsLeft, same, hs] at body
  refine body.trans (.moves ?_ (Nat.le_of_lt high) (Nat.le_succ _))
  rw [atOnce, inFresh_eq]
  rfl

theorem Passage.enters {item : Option (Bytes × Value)} {body : List Statement}
    (performed : perform ob limits rest s task o = entering item body R t)
    (above : height ≤ rest.length) (low : rest.length ≤ height + 1) (high : height < R.length)
    (ht : limits.depth - t.env.depth = n) :
    Passage ob limits height ⟨o, task :: rest, s⟩ [entering item body R t]
      (atOnce (inFresh item (Statement.performBlock ob limits (Call.within ob limits n) body))
        R t) := by
  have opens : Opens height ⟨o, task :: rest, s⟩ (entering item body R t) :=
    ⟨Nat.succ_le_succ low, Nat.succ_le_succ (Nat.succ_le_succ high)⟩
  exact .open (congrArg some performed) (Nat.lt_succ_of_le above) opens
    (entering_passage item body high ht)

end Machine

end StepsLang
