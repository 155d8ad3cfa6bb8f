import Mathlib.Data.List.Induction
import StepsLang.Proofs.Execution.Filling
import StepsLang.Proofs.Execution.Move

namespace StepsLang

namespace Frame

def Unshadowed (f : Frame) (x : Bytes) : Prop := ∀ block ∈ f.blocks, block.find? x = none

theorem find?_of_unshadowed {f : Frame} {x : Bytes} (h : f.Unshadowed x) :
    f.find? x = f.main.find? x := by
  have skipped : f.blocks.findSome? (·.find? x) = none := List.findSome?_eq_none_iff.2 h
  simp [find?, scopes, List.findSome?_append, skipped]

theorem go_of_unshadowed {blocks : List Scope} {x : Bytes} (v : Variable)
    (h : ∀ block ∈ blocks, block.find? x = none) : replace.go x v blocks = none := by
  induction blocks with
  | nil => rfl
  | cons block rest ih =>
    obtain ⟨first, others⟩ := List.forall_mem_cons.1 h
    simp [replace.go, NameMap.contains, first, ih others]

theorem main_replace (f : Frame) (x y : Bytes) (v : Variable) :
    (f.replace x v).main.find? y = f.main.find? y ∨
      y = x ∧ f.Unshadowed x ∧ (f.replace x v).main.find? y = some v := by
  unfold replace
  split
  · exact .inl rfl
  · next e =>
    by_cases same : y = x
    · exact .inr ⟨same, go_eq_none e, by simp [same]⟩
    · exact .inl (by simp [same])

theorem main_define {f : Frame} {x y : Bytes} (v : Variable) (other : f.blocks ≠ [] ∨ y ≠ x) :
    (f.define x v).main.find? y = f.main.find? y := by
  unfold define
  split
  · next e => simp [other.resolve_left (not_not_intro e)]
  · rfl

theorem main_set {f g : Frame} {x y : Bytes} {v : Value} {l : Location} {old : Variable}
    (h : f.set x v l = .ok g) (known : f.main.find? y = some old) :
    g.main.find? y = some old ∨ y = x ∧ f.Unshadowed x ∧
      ∃ new, assigned old x v l = .ok new ∧ g.main.find? y = some new := by
  obtain ⟨unknown, rfl⟩ | ⟨seen, new, found, taken, rfl⟩ := set_cases h
  · refine .inl ((main_define _ ?_).trans known)
    by_cases same : y = x
    · refine .inl fun bare => ?_
      have found := find?_of_unshadowed (f := f) (x := x) (by simp [Unshadowed, bare])
      rw [unknown, ← same, known] at found
      cases found
    · exact .inr same
  · rcases f.main_replace x y new with kept | ⟨same, bare, changed⟩
    · exact .inl (kept.trans known)
    · rw [find?_of_unshadowed bare, ← same, known] at found
      cases found
      exact .inr ⟨same, bare, new, taken, changed⟩

end Frame

namespace Environment

/-- A variable of the main scope of a frame, which is told by the number of frames below it. -/
def mainAt (env : Environment) (n : Nat) (x : Bytes) : Option Variable :=
  env.frames.reverse[n]?.bind (·.main.find? x)

variable {env env' : Environment} {n : Nat} {x y : Bytes} {v : Value} {l : Location}
  {old : Variable}

theorem mainAt_depth (env : Environment) (x : Bytes) :
    env.mainAt env.depth x = env.top.main.find? x := by
  have innermost : env.frames.reverse[env.below.length]? = some env.top := by
    simp [frames]
  rw [mainAt, depth, innermost, Option.bind_some]

theorem mainAt_of_lt (h : n < env.depth) :
    env.mainAt n x = env.below.reverse[n]?.bind (·.main.find? x) := by
  have outer : env.frames.reverse[n]? = env.below.reverse[n]? := by
    rw [frames, List.reverse_cons, List.getElem?_append_left (by simpa [depth] using h)]
  rw [mainAt, outer]

theorem le_depth_of_mainAt (h : env.mainAt n x = some old) : n ≤ env.depth := by
  obtain ⟨f, there, -⟩ := Option.bind_eq_some_iff.1 h
  obtain ⟨inside, -⟩ := List.getElem?_eq_some_iff.1 there
  simp only [frames, List.reverse_cons, List.length_append, List.length_reverse, List.length_cons,
    List.length_nil] at inside
  exact Nat.le_of_lt_succ inside

theorem mainAt_congr (env env' : Environment) (below : env'.below = env.below)
    (main : env'.top.main.find? x = env.top.main.find? x) (n : Nat) :
    env'.mainAt n x = env.mainAt n x := by
  have same : env'.depth = env.depth := by rw [depth, depth, below]
  rcases Nat.lt_trichotomy n env.depth with outer | rfl | beyond
  · rw [mainAt_of_lt outer, mainAt_of_lt (same ▸ outer), below]
  · rw [mainAt_depth, ← same, mainAt_depth, main]
  · have absent (e : Environment) (h : e.depth < n) : e.mainAt n x = none :=
      Option.eq_none_iff_forall_ne_some.2 fun _ found =>
        Nat.not_le.2 h (le_depth_of_mainAt found)
    rw [absent env beyond, absent env' (same ▸ beyond)]

theorem mainAt_push (env env' : Environment) (below : env'.below = env.top :: env.below)
    (h : n ≤ env.depth) : env'.mainAt n x = env.mainAt n x := by
  have deeper : n < env'.depth := by
    rw [depth, below]
    exact Nat.lt_succ_of_le h
  rw [mainAt_of_lt deeper, below]
  rfl

theorem mainAt_popFrame (h : n ≤ env.popFrame.depth) :
    env.popFrame.mainAt n x = env.mainAt n x := by
  cases e : env.below with
  | nil => rw [popFrame, e]
  | cons f fs =>
    have back : env.popFrame = { env with top := f, below := fs } := by rw [popFrame, e]
    rw [back] at h ⊢
    exact (mainAt_push _ env e h).symm

theorem mainAt_set (h : env.set x v l = .ok env') (known : env.mainAt n y = some old) :
    env'.mainAt n y = some old ∨ y = x ∧ n = env.depth ∧ env.top.Unshadowed x ∧
      ∃ new, Frame.assigned old x v l = .ok new ∧ env'.mainAt n y = some new := by
  obtain ⟨ht, whole⟩ := top_set h
  rw [whole]
  rcases Nat.lt_or_eq_of_le (le_depth_of_mainAt known) with outer | rfl
  · rw [mainAt_of_lt outer] at known
    have outer' : n < ({ env with top := env'.top } : Environment).depth := outer
    exact .inl ((mainAt_of_lt outer').trans known)
  · rw [mainAt_depth] at known
    have here (z : Variable) (h : env'.top.main.find? y = some z) :
        ({ env with top := env'.top } : Environment).mainAt env.depth y = some z :=
      (mainAt_depth { env with top := env'.top } y).trans h
    rcases Frame.main_set ht known with kept | ⟨same, bare, new, changed, found⟩
    · exact .inl (here _ kept)
    · exact .inr ⟨same, rfl, bare, new, changed, here _ found⟩

theorem set_of_unshadowed (bare : env.top.Unshadowed x)
    (known : env.mainAt env.depth x = some old) :
    env.set x v l =
      (fun new => { env with top := env.top.replace x new }) <$> Frame.assigned old x v l := by
  rw [mainAt_depth, ← Frame.find?_of_unshadowed bare] at known
  simp only [set_eq, Frame.set_eq, known]
  cases Frame.assigned old x v l <;> rfl

theorem mainAt_replace (bare : env.top.Unshadowed x) (new : Variable) :
    ({ env with top := env.top.replace x new } : Environment).mainAt env.depth x = some new := by
  refine (mainAt_depth { env with top := env.top.replace x new } x).trans ?_
  simp [Frame.replace, Frame.go_of_unshadowed new bare]

end Environment

namespace Machine

variable {ob : Observer σ} {limits : Limits} {task : Task} {tasks rest : List Task}
  {s t : Session σ} {n : Nat} {x : Bytes} {old : Variable}

theorem Ready.mainAt (h : Ready ob s task t) (n : Nat) (x : Bytes) :
    t.env.mainAt n x = s.env.mainAt n x := by
  cases h with
  | still => rfl
  | @announced st => exact Environment.mainAt_congr s.env (s.env.moveTo st.location) rfl rfl n

theorem Does.mainAt (h : Does ob limits task rest s tasks t)
    (known : s.env.mainAt n x = some old) (open_ : n ≤ t.env.depth) :
    t.env.mainAt n x = some old ∨ n = s.env.depth ∧ s.env.top.Unshadowed x ∧
      ∃ v l new, task.Assigns x l ∧ Frame.assigned old x v l = .ok new ∧
        t.env.mainAt n x = some new := by
  have here := Environment.le_depth_of_mainAt known
  cases h with
  | stay => exact .inl known
  | assign w assigns set =>
    rcases Environment.mainAt_set set known with kept | ⟨rfl, top, bare, new, changed, found⟩
    · exact .inl kept
    · exact .inr ⟨top, bare, _, _, new, assigns, changed, found⟩
  | inside =>
    have same := Environment.mainAt_congr (x := x) s.env s.env.pushBlock rfl rfl n
    exact .inl (same.trans known)
  | insideWith y v =>
    have main := Frame.main_define (f := s.env.top.pushBlock) (x := y) (y := x) { value := v }
      (.inl (by simp [Frame.pushBlock]))
    have same := Environment.mainAt_congr s.env (s.env.pushBlock.define y v) rfl main n
    exact .inl (same.trans known)
  | @call l y r owner target new w vs =>
    have around := Session.around_call ob r owner vs l { s with world := w }
    exact .inl ((Environment.mainAt_push s.env _ around.below here).trans known)
  | closeBlock =>
    have same := Environment.mainAt_congr (x := x) s.env s.env.popBlock rfl rfl n
    exact .inl (same.trans known)
  | closeFrame o =>
    have closed (name : Bytes) : (Call.finish ob name (o, s)).2.env = s.env.popStep.popFrame := by
      cases o <;> rfl
    rw [closed] at open_ ⊢
    exact .inl ((Environment.mainAt_popFrame open_).trans known)

end Machine

/-- What a variable of a type holds before anything is assigned to it. -/
def Value.IsDefault (h : Heap) : TypeName → Value → Prop
  | .number, v => v = .number Number.zero
  | .text, v => v = .text []
  | .boolean, v => v = .boolean false
  | .list, v => ∃ id < h.lists.size, v = .list id ∧ h.items id = #[]
  | .table, v => ∃ id < h.tables.size, v = .table id ∧ h.entries id = []

namespace Value

theorem isDefault_default (h : Heap) (type : TypeName) :
    IsDefault (h.default type).2 type (h.default type).1 := by
  cases type with
  | list => exact ⟨_, by simp [Heap.default, Heap.newList], rfl, by
      simp [Heap.default, Heap.newList, Heap.items]⟩
  | table => exact ⟨_, by simp [Heap.default, Heap.newTable], rfl, by
      simp [Heap.default, Heap.newTable, Heap.entries, Entries.ofList]⟩
  | _ => rfl

theorem IsDefault.kept {h k : Heap} {type : TypeName} {v : Value} (hv : IsDefault h type v)
    (keeps : h.Keeps k v) : IsDefault k type v := by
  cases type with
  | list =>
    obtain ⟨id, known, rfl, empty⟩ := hv
    have there : k.lists[id]? = some #[] := by
      refine keeps #[] (Array.getElem?_eq_some_iff.2 ⟨known, ?_⟩)
      simpa [Heap.items, known] using empty
    obtain ⟨known', -⟩ := Array.getElem?_eq_some_iff.1 there
    exact ⟨id, known', rfl, by simp [Heap.items, there]⟩
  | table =>
    obtain ⟨id, known, rfl, empty⟩ := hv
    have there : k.tables[id]? = some h.tables[id] :=
      keeps _ (Array.getElem?_eq_some_iff.2 ⟨known, rfl⟩)
    obtain ⟨known', -⟩ := Array.getElem?_eq_some_iff.1 there
    refine ⟨id, known', rfl, ?_⟩
    rw [Heap.entries, Array.getD_eq_getD_getElem?, there]
    simpa [Heap.entries, known] using empty
  | _ => exact hv

theorem IsDefault.hasType {h : Heap} {type : TypeName} {v : Value} (hv : IsDefault h type v) :
    v.hasType type = true := by
  cases type with
  | list | table =>
    obtain ⟨id, -, rfl, -⟩ := hv
    rfl
  | _ =>
    cases hv
    rfl

end Value

namespace Session

theorem main_declare_all {d : Declaration} {ds : List Declaration} {x : Bytes}
    (last : ds.reverse.find? (·.name == x) = some d) (env : Environment) (heap : Heap) :
    let after := ds.foldl
      (fun (env, heap) d =>
        let (v, heap) := heap.default d.type
        (env.declare d v, heap)) (env, heap)
    ∃ v, v.IsDefault after.2 d.type ∧
      after.1.top.main.find? x = some { value := v, type := some d.type, fixed := d.fixed } := by
  induction ds using List.reverseRecOn with
  | nil => cases last
  | append_singleton ds e ih =>
    simp only [List.foldl_append, List.foldl_cons, List.foldl_nil]
    rw [List.reverse_concat, List.find?_cons] at last
    split at last
    · next same =>
      cases last
      obtain rfl : d.name = x := by simpa using same
      exact ⟨_, Value.isDefault_default _ _, by simp [Environment.declare, Frame.declare]⟩
    · next other =>
      obtain ⟨v, fresh, found⟩ := ih last
      refine ⟨v, fresh.kept ((Heap.grows_default _ e.type).keeps v), ?_⟩
      have different : x ≠ e.name := fun same => by simp [same] at other
      simpa [Environment.declare, Frame.declare, different] using found

theorem main_define_all {xs : List (TypedName × Value)} {x : Bytes}
    (other : ∀ e ∈ xs, e.1.name ≠ x) (env : Environment) :
    (xs.foldl (fun env (p, v) => env.define p.name v) env).top.main.find? x =
      env.top.main.find? x := by
  induction xs generalizing env with
  | nil => rfl
  | cons e es ih =>
    obtain ⟨first, others⟩ := List.forall_mem_cons.1 other
    rw [List.foldl_cons, ih others]
    exact Frame.main_define _ (.inr (Ne.symm first))

theorem mainAt_call {d : Declaration} {r : Routine} {x : Bytes}
    (last : r.declarations.reverse.find? (·.name == x) = some d) (free : x ∉ r.parameterNames)
    (ob : Observer σ) (owner : Step) (vs : List Value) (l : Location) (s : Session σ) :
    let opened := s.call ob r owner vs l
    ∃ v, v.IsDefault opened.world.heap d.type ∧ opened.env.mainAt (s.env.depth + 1) x =
      some { value := v, type := some d.type, fixed := d.fixed } := by
  obtain ⟨v, fresh, found⟩ :=
    main_declare_all last ((s.env.pushFrame r.name l).pushStep owner) s.world.heap
  have other : ∀ e ∈ r.parameters.zip vs, e.1.name ≠ x := by
    rintro e he rfl
    exact free (List.mem_map_of_mem (List.of_mem_zip he).1)
  have innermost : (s.call ob r owner vs l).env.depth = s.env.depth + 1 :=
    Machine.depth_call r owner vs l s
  refine ⟨v, fresh, ?_⟩
  rw [← innermost, Environment.mainAt_depth]
  exact (main_define_all other _).trans found

end Session

/-- How a fixed variable stands that was declared with a type and got a value then. -/
structure Variable.Fixed (type : TypeName) (initial : Value) (x : Variable) : Prop where
  declared : x.type = some type
  fixed : x.fixed = true
  typed : x.value.hasType type = true
  unassigned : x.assigned = false → x.value = initial

def Variable.assign (x : Variable) (v : Value) : Variable := { x with value := v, assigned := true }

namespace Variable.Fixed

variable {type : TypeName} {initial v : Value} {old new : Variable} {x : Bytes} {l : Location}
  (h : old.Fixed type initial)
include h

theorem again (assigned : old.assigned = true) :
    Frame.assigned old x v l = .error (Report.fill .fixedReassigned l [("name", x)]) := by
  simp [Frame.assigned_eq, h.fixed, assigned]

theorem otherType (unassigned : old.assigned = false) (other : v.hasType type = false) :
    Frame.assigned old x v l = .error (Report.fixedType x type.spelling v.typeName l) := by
  simp [Frame.assigned_eq, h.fixed, h.declared, unassigned, other]

theorem first (unassigned : old.assigned = false) (typed : v.hasType type = true) :
    Frame.assigned old x v l = .ok (old.assign v) := by
  simp [Frame.assigned_eq, h.fixed, h.declared, unassigned, typed, Variable.assign]

theorem of_assigned (e : Frame.assigned old x v l = .ok new) :
    old.assigned = false ∧ v.hasType type = true ∧ new = old.assign v := by
  cases assigned : old.assigned with
  | true =>
    rw [h.again assigned] at e
    cases e
  | false =>
    cases typed : v.hasType type with
    | true =>
      rw [h.first assigned typed] at e
      cases e
      exact ⟨rfl, rfl, rfl⟩
    | false =>
      rw [h.otherType assigned typed] at e
      cases e

theorem assign (typed : v.hasType type = true) : (old.assign v).Fixed type initial :=
  ⟨h.declared, h.fixed, typed, nofun⟩

end Variable.Fixed

namespace Machine

/-- A machine that comes to give a variable a value, at a `set` that the observer lets pass or with
the result of a call: what is to be done next, and in which session. -/
inductive Gives (ob : Observer σ) (x : Bytes) (v : Value) (l : Location) :
    Machine σ → List Task → Session σ → Prop
  | set {s : Session σ} {e : Expression} {w : World} :
    (s.announce ob (.set l x e)).1 = true →
    e.eval (s.announce ob (.set l x e)).2.env s.world = (.ok v, w) →
    Gives ob x v l ⟨.normal, .block (.set l x e :: more) :: rest, s⟩ (.block more :: rest)
      { (s.announce ob (.set l x e)).2 with world := w }
  | result : Gives ob x v l ⟨.returned v, .receive (some x) l :: rest, s⟩ rest s

theorem Gives.step {ob : Observer σ} {limits : Limits} {m : Machine σ} {x : Bytes} {v : Value}
    {l : Location} {rest : List Task} {t : Session σ} (h : Gives ob x v l m rest t) :
    m.step ob limits = some (atOnce (Action.assign x v l) rest t) := by
  cases h with
  | result => rfl
  | @set more rest s e w go value =>
    have evaluated : e.eval (s.announce ob (.set l x e)).2.env
        (s.announce ob (.set l x e)).2.world = (.ok v, w) := value
    simp only [Machine.step, perform, begin, Statement.isNote, go, Bool.false_eq_true, if_false,
      if_true, start, atOnce, Action.evaluating, Action.obtaining, evaluated]

theorem Gives.top {ob : Observer σ} {m : Machine σ} {x : Bytes} {v : Value} {l : Location}
    {rest : List Task} {t : Session σ} (h : Gives ob x v l m rest t) :
    t.env.below = m.session.env.below ∧ t.env.top.main = m.session.env.top.main ∧
      t.env.top.blocks = m.session.env.top.blocks := by
  cases h with
  | set | result => exact ⟨rfl, rfl, rfl⟩

inductive Binds (x : Bytes) (v : Value) : Machine σ → Prop
  | item : Binds x v ⟨.normal, .loop (.each x (v :: vs) body) :: rest, s⟩
  | message : x = "problem_message" → v = .text r.message →
    Binds x v ⟨.failed r, .handler (some body) :: rest, s⟩

theorem Binds.step {m : Machine σ} {x : Bytes} {v : Value} (h : Binds x v m) (ob : Observer σ)
    (limits : Limits) : ∃ m', m.step ob limits = some m' ∧
      m'.session.env.top.find? x = some { value := v } ∧
      ∀ n, m'.session.env.mainAt n x = m.session.env.mainAt n x := by
  have bound (s : Session σ) : (s.env.pushBlock.define x v).top.find? x = some { value := v } := by
    simp [Environment.pushBlock, Environment.define, Frame.pushBlock, Frame.define, Frame.find?,
      Frame.scopes]
  have kept (s : Session σ) (n : Nat) :
      (s.env.pushBlock.define x v).mainAt n x = s.env.mainAt n x :=
    Environment.mainAt_congr s.env (s.env.pushBlock.define x v) rfl
      (Frame.main_define _ (.inl (by simp [Environment.pushBlock, Frame.pushBlock]))) n
  cases h with
  | item => exact ⟨_, rfl, bound _, kept _⟩
  | message name text =>
    cases name
    cases text
    exact ⟨_, rfl, bound _, kept _⟩

/-- What the next step may do with a fixed variable of frame `n`: keep it, or give it its value. -/
structure Guards (ob : Observer σ) (limits : Limits) (n : Nat) (x : Bytes) (type : TypeName)
    (old : Variable) (m : Machine σ) : Prop where
  kept : ∀ m', m.step ob limits = some m' → n ≤ m'.session.env.depth →
    m'.session.env.mainAt n x = some old ∨
      old.assigned = false ∧ n = m.session.env.depth ∧ m.session.env.top.Unshadowed x ∧
        (∃ task l, m.tasks.head? = some task ∧ task.Assigns x l) ∧
        ∃ v, v.hasType type = true ∧ m'.session.env.mainAt n x = some (old.assign v)
  again : ∀ v l rest t, Gives ob x v l m rest t → n = m.session.env.depth →
    m.session.env.top.Unshadowed x → old.assigned = true →
      ∃ r : Report, r.code = "E403" ∧ r.location = l ∧
        m.step ob limits = some ⟨.failed r, rest, t⟩ ∧ t.env.mainAt n x = some old
  otherType : ∀ v l rest t, Gives ob x v l m rest t → n = m.session.env.depth →
    m.session.env.top.Unshadowed x → old.assigned = false → v.hasType type = false →
      ∃ r : Report, r.code = "E303" ∧ r.location = l ∧
        m.step ob limits = some ⟨.failed r, rest, t⟩ ∧ t.env.mainAt n x = some old
  first : ∀ v l rest t, Gives ob x v l m rest t → n = m.session.env.depth →
    m.session.env.top.Unshadowed x → old.assigned = false → v.hasType type = true →
      ∃ env, m.step ob limits = some ⟨.normal, rest, { t with env }⟩ ∧
        env.mainAt n x = some (old.assign v)
  shadowed : ∀ v, Binds x v m → ∃ m', m.step ob limits = some m' ∧
    m'.session.env.top.find? x = some { value := v } ∧ m'.session.env.mainAt n x = some old

variable {type : TypeName} {initial : Value} {m m' : Machine σ}

theorem kept_of_fixed (fixed : old.Fixed type initial) (known : m.session.env.mainAt n x = some old)
    (e : m.step ob limits = some m') (open_ : n ≤ m'.session.env.depth) :
    m'.session.env.mainAt n x = some old ∨
      old.assigned = false ∧ n = m.session.env.depth ∧ m.session.env.top.Unshadowed x ∧
        (∃ task l, m.tasks.head? = some task ∧ task.Assigns x l) ∧
        ∃ v, v.hasType type = true ∧ m'.session.env.mainAt n x = some (old.assign v) := by
  obtain ⟨o, tasks, s⟩ := m
  cases tasks with
  | nil => cases e
  | cons task rest =>
    cases e
    obtain ⟨t, ready, does⟩ := perform_does ob limits task o rest s
    have known' := (ready.mainAt n x).trans known
    rcases does.mainAt known' open_ with kept | ⟨here, bare, v, l, new, assigns, set, changed⟩
    · exact .inl kept
    · obtain ⟨unassigned, typed, rfl⟩ := fixed.of_assigned set
      have same : t.env.depth = s.env.depth ∧ t.env.top.blocks = s.env.top.blocks := by
        cases ready with
        | still | announced => exact ⟨rfl, rfl⟩
      refine .inr ⟨unassigned, here.trans same.1, ?_, ⟨task, l, rfl, assigns⟩, v, typed, changed⟩
      rwa [Frame.Unshadowed, same.2] at bare

theorem Gives.step_fixed {v : Value} {l : Location} {t : Session σ} (h : Gives ob x v l m rest t)
    (limits : Limits) (known : m.session.env.mainAt n x = some old) (here : n = m.session.env.depth)
    (bare : m.session.env.top.Unshadowed x) :
    t.env.mainAt n x = some old ∧
      (∀ r, Frame.assigned old x v l = .error r → m.step ob limits = some ⟨.failed r, rest, t⟩) ∧
      ∀ new, Frame.assigned old x v l = .ok new →
        ∃ env, m.step ob limits = some ⟨.normal, rest, { t with env }⟩ ∧
          env.mainAt n x = some new := by
  obtain ⟨below, main, blocks⟩ := h.top
  have known' : t.env.mainAt n x = some old :=
    (Environment.mainAt_congr m.session.env t.env below (by rw [main]) n).trans known
  have here' : n = t.env.depth := by rw [here, Environment.depth, Environment.depth, below]
  have bare' : t.env.top.Unshadowed x := by rwa [Frame.Unshadowed, blocks]
  refine ⟨known', fun r refused => ?_, fun new accepted => ?_⟩
  · subst here'
    have set := Environment.set_of_unshadowed (v := v) (l := l) bare' known'
    rw [refused] at set
    rw [h.step, atOnce, Action.assign_eq, set]
    rfl
  · subst here'
    have set := Environment.set_of_unshadowed (v := v) (l := l) bare' known'
    rw [accepted] at set
    refine ⟨_, ?_, Environment.mainAt_replace bare' new⟩
    rw [h.step, atOnce, Action.assign_eq, set]
    rfl

theorem guards_of_fixed (fixed : old.Fixed type initial)
    (known : m.session.env.mainAt n x = some old) : Guards ob limits n x type old m where
  kept := fun _ e open_ => kept_of_fixed fixed known e open_
  again := by
    intro v l rest t gives here bare assigned
    obtain ⟨same, refused, -⟩ := gives.step_fixed limits known here bare
    exact ⟨_, rfl, rfl, refused _ (fixed.again assigned), same⟩
  otherType := by
    intro v l rest t gives here bare unassigned other
    obtain ⟨same, refused, -⟩ := gives.step_fixed limits known here bare
    exact ⟨_, rfl, rfl, refused _ (fixed.otherType unassigned other), same⟩
  first := by
    intro v l rest t gives here bare unassigned typed
    obtain ⟨-, -, accepted⟩ := gives.step_fixed limits known here bare
    exact accepted _ (fixed.first unassigned typed)
  shadowed := by
    intro v binds
    obtain ⟨m', e, bound, kept⟩ := binds.step ob limits
    exact ⟨m', e, bound, (kept n).trans known⟩

theorem fixed_after_one (fixed : old.Fixed type initial)
    (known : m.session.env.mainAt n x = some old)
    (open_ : n ≤ (after ob limits 1 m).session.env.depth) :
    ∃ new, (after ob limits 1 m).session.env.mainAt n x = some new ∧ new.Fixed type initial ∧
      (old.assigned = true → new = old) := by
  cases e : m.step ob limits with
  | none =>
    rw [after_of_step_none e]
    exact ⟨old, known, fixed, fun _ => rfl⟩
  | some m' =>
    have one : after ob limits 1 m = m' := by simp only [after, e]
    rw [one] at open_ ⊢
    rcases kept_of_fixed fixed known e open_ with kept | ⟨unassigned, -, -, -, v, typed, changed⟩
    · exact ⟨old, kept, fixed, fun _ => rfl⟩
    · refine ⟨_, changed, fixed.assign typed, fun assigned => ?_⟩
      rw [unassigned] at assigned
      cases assigned

/-- As long as its frame is open a fixed variable stays one, and an assigned one stays the same. -/
theorem fixed_after (ob : Observer σ) (limits : Limits) (fixed : old.Fixed type initial)
    (known : m.session.env.mainAt n x = some old) (k : Nat)
    (open_ : ∀ j ≤ k, n ≤ (after ob limits j m).session.env.depth) :
    ∃ new, (after ob limits k m).session.env.mainAt n x = some new ∧ new.Fixed type initial ∧
      (old.assigned = true → new = old) := by
  -- The frame has to be open all the time: when it is closed, the next call opens another one in
  -- its place.
  induction k with
  | zero => exact ⟨old, known, fixed, fun _ => rfl⟩
  | succ k ih =>
    obtain ⟨mid, here, stays, same⟩ := ih fun j hj => open_ j (Nat.le_succ_of_le hj)
    have last := open_ (k + 1) (Nat.le_refl _)
    rw [after_add] at last ⊢
    obtain ⟨new, there, stays', same'⟩ := fixed_after_one stays here last
    refine ⟨new, there, stays', fun assigned => ?_⟩
    obtain rfl := same assigned
    exact same' assigned

theorem default_after (ob : Observer σ) (limits : Limits) {v : Value}
    (default : v.IsDefault m.session.world.heap type) (k : Nat)
    (untouched : ∀ j < k, ¬ (after ob limits j m).Fills v) :
    v.IsDefault (after ob limits k m).session.world.heap type := by
  induction k with
  | zero => exact default
  | succ k ih =>
    have before := ih fun j hj => untouched j (Nat.lt_succ_of_lt hj)
    rw [after_add]
    cases e : (after ob limits k m).step ob limits with
    | none => rwa [after_of_step_none e]
    | some m' =>
      have one : after ob limits 1 (after ob limits k m) = m' := by simp only [after, e]
      rw [one]
      exact before.kept ((step_keeps e v).resolve_right (untouched k (Nat.lt_succ_self k)))

/-- As long as the frame of its call is open, a variable that was declared as fixed has a value of
its type: first the one that was made for the declaration, then the one that was assigned. -/
theorem fixed_variable (ob : Observer σ) (limits : Limits) (r : Routine) (owner : Step)
    (vs : List Value) (l : Location) (rest : List Task) (s : Session σ) (x : Bytes)
    (d : Declaration) (last : r.declarations.reverse.find? (·.name == x) = some d)
    (fixed : d.fixed = true) (free : x ∉ r.parameterNames) :
    let opened := s.call ob r owner vs l
    let run k := after ob limits k ⟨.normal, .block r.body :: .closeFrame r.name :: rest, opened⟩
    let n := s.env.depth + 1
    ∃ initial, initial.IsDefault opened.world.heap d.type ∧
      opened.env.mainAt n x =
        some { value := initial, type := some d.type, fixed := true, assigned := false } ∧
      ∀ k, (∀ j ≤ k, n ≤ (run j).session.env.depth) →
        ∃ now, (run k).session.env.mainAt n x = some now ∧ now.Fixed d.type initial ∧
          ((∀ j < k, ¬ (run j).Fills initial) →
            initial.IsDefault (run k).session.world.heap d.type) ∧
          (∀ j ≤ k, ∀ before, (run j).session.env.mainAt n x = some before →
            before.assigned = true → now = before) ∧
          Guards ob limits n x d.type now (run k) := by
  intro opened run n
  obtain ⟨initial, default, known⟩ := Session.mainAt_call last free ob owner vs l s
  rw [fixed] at known
  have start : Variable.Fixed d.type initial
      { value := initial, type := some d.type, fixed := true, assigned := false } :=
    ⟨rfl, rfl, default.hasType, fun _ => rfl⟩
  refine ⟨initial, default, known, fun k open_ => ?_⟩
  obtain ⟨now, here, stands, -⟩ := fixed_after ob limits start known k open_
  refine ⟨now, here, stands, default_after ob limits default k, fun j hj before there assigned => ?_,
    guards_of_fixed stands here⟩
  -- The run from its state number `j` on is a run as well, and in it the variable begins assigned.
  obtain ⟨i, rfl⟩ := Nat.exists_eq_add_of_le hj
  obtain ⟨then_, there', stands', -⟩ :=
    fixed_after ob limits start known j fun i hi => open_ i (Nat.le_trans hi hj)
  obtain rfl : then_ = before := Option.some.inj (there'.symm.trans there)
  obtain ⟨new, here', -, same⟩ := fixed_after ob limits stands' there' i
    fun i' hi' => by
      rw [← after_add]
      exact open_ (j + i') (Nat.add_le_add_left hi' j)
  rw [← after_add] at here'
  exact (Option.some.inj (here.symm.trans here')).trans (same assigned)

theorem fixed_variable_twice :
    let x : Bytes := "x"
    let d : Declaration := ⟨{}, x, .number, true⟩
    let once : Step :=
      { name := "once", declarations := [d]
        body := [.set {} x (.number {} 1), .set {} x (.number {} 2)] }
    let s : Session Unit := ⟨.fresh "main" false, {}, ()⟩
    let opened := s.call Observer.none once.toRoutine once [] {}
    let run k := after Observer.none {} k
      ⟨.normal, [.block once.body, .closeFrame once.name], opened⟩
    once.declarations.reverse.find? (·.name == x) = some d ∧ d.fixed = true ∧
      x ∉ once.parameterNames ∧ (∀ j ≤ 2, 1 ≤ (run j).session.env.depth) ∧
      ∃ now, (run 2).session.env.mainAt 1 x = some now ∧ now.value = .number 1 ∧
        (run 2).signal = .failed (Report.fill .fixedReassigned {} [("name", x)]) := by
  intro x d once s opened run
  have open_ : ∀ j ≤ 2, 1 ≤ (run j).session.env.depth := by decide
  have assigned : ∃ before, (run 1).session.env.mainAt 1 x = some before ∧
      before.value = .number 1 ∧ before.assigned = true := ⟨_, rfl, rfl, rfl⟩
  obtain ⟨initial, -, -, holds⟩ := fixed_variable Observer.none {} once.toRoutine once [] {} [] s
    x d rfl rfl (by decide)
  obtain ⟨now, here, -, -, same, -⟩ := holds 2 open_
  obtain ⟨before, there, one, yes⟩ := assigned
  refine ⟨rfl, rfl, by decide, open_, now, here, ?_, rfl⟩
  rw [same 1 (by decide) before there yes, one]

/-- A name that is declared again without `fixed` can be assigned to again, and a list that was not
assigned to can be added to. -/
theorem redeclared_or_filled_changes :
    let x : Bytes := "x"
    let once : Step :=
      { name := "once", declarations := [⟨{}, x, .number, true⟩, ⟨{}, x, .number, false⟩]
        body := [.set {} x (.number {} 1), .set {} x (.number {} 2)] }
    let filled : Step :=
      { name := "filled", declarations := [⟨{}, x, .list, true⟩]
        body := [.addToList {} (.number {} 1) x] }
    let s : Session Unit := ⟨.fresh "main" false, {}, ()⟩
    let run (step : Step) k := after Observer.none {} k
      ⟨.normal, [.block step.body, .closeFrame step.name],
        s.call Observer.none step.toRoutine step [] {}⟩
    let value k := ((run once k).session.env.mainAt 1 x).map (·.value)
    let held := ((run filled 1).session.env.mainAt 1 x).map fun y => (y.assigned, y.value)
    ((∃ d ∈ once.declarations, d.name = x ∧ d.fixed = true) ∧ x ∉ once.parameterNames ∧
        (∀ j ≤ 2, 1 ≤ (run once j).session.env.depth) ∧
        (run once 1).signal = .normal ∧ value 1 = some (.number 1) ∧
        (run once 2).signal = .normal ∧ value 2 = some (.number 2)) ∧
      (∃ d ∈ filled.declarations, d.name = x ∧ d.fixed = true) ∧ x ∉ filled.parameterNames ∧
        (∀ j ≤ 1, 1 ≤ (run filled j).session.env.depth) ∧
        held = some (false, .list 0) ∧
        (run filled 1).session.world.heap.items 0 = #[.number 1] := by
  decide +kernel

end Machine

end StepsLang
