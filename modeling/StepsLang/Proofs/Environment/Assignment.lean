import StepsLang.Proofs.Execution.Discipline

namespace StepsLang

namespace Frame

theorem records_popBlock {f g : Frame} {x : Bytes} (h : f.records x = none :: g.records x) :
    f.popBlock.records x = g.records x := by
  have scopes (k : Frame) : k.records x = k.blocks.map (·.find? x) ++ [k.main.find? x] := by
    simp [records, Frame.scopes]
  cases e : f.blocks with
  | nil => simp [scopes, e] at h
  | cons block rest =>
    have closed : f.popBlock.records x = rest.map (·.find? x) ++ [f.main.find? x] := by
      rw [scopes, popBlock, e, List.tail_cons]
    rw [scopes f, e, List.map_cons, List.cons_append] at h
    exact closed.trans (List.cons.inj h).2

end Frame

namespace Variable

def given (x : Variable) (v : Value) : Variable :=
  { x with value := v, assigned := x.assigned || x.fixed }

/-- A fixed variable that has its value already, or is to get one of another type. -/
def Refuses (x : Variable) (v : Value) : Prop :=
  x.fixed = true ∧ (x.assigned = true ∨ ∃ type ∈ x.type, v.hasType type = false)

end Variable

namespace Frame

theorem assigned_cases (old : Variable) (x : Bytes) (v : Value) (l : Location) :
    assigned old x v l = .ok (old.given v) ∨
      (∃ r, assigned old x v l = .error r) ∧ old.Refuses v := by
  rw [assigned_eq]
  obtain ⟨value, type, fixed, again⟩ := old
  cases fixed with
  | false => exact .inl (by simp [Variable.given])
  | true =>
    cases again with
    | true => exact .inr ⟨⟨_, rfl⟩, rfl, .inl rfl⟩
    | false =>
      cases type with
      | none => exact .inl rfl
      | some type =>
        cases e : v.hasType type with
        | true => exact .inl (by simp [Variable.given, e])
        | false => exact .inr ⟨⟨_, by simp only [e]; rfl⟩, rfl, .inr ⟨type, rfl, e⟩⟩

/-- The scopes of a frame before and after a name is given a value: the record that was found first
has the value now, or else the innermost scope has a new record. -/
inductive Writes (x : Bytes) (v : Value) : List Scope → List Scope → Prop
  | found {inner outer : List Scope} {scope : Scope} {old : Variable} :
    (∀ block ∈ inner, block.find? x = none) → scope.find? x = some old →
    Writes x v (inner ++ scope :: outer) (inner ++ scope.insert x (old.given v) :: outer)
  | fresh {innermost : Scope} {outer : List Scope} :
    (∀ scope ∈ innermost :: outer, scope.find? x = none) →
    Writes x v (innermost :: outer) (innermost.insert x { value := v } :: outer)

theorem Writes.written {x : Bytes} {v : Value} {before after : List Scope}
    (h : Writes x v before after) :
    ∃ new, after.findSome? (·.find? x) = some new ∧ new.value = v := by
  cases h with
  | @found inner outer scope old absent here =>
    have skipped : inner.findSome? (·.find? x) = none := List.findSome?_eq_none_iff.2 absent
    exact ⟨old.given v, by simp [List.findSome?_append, skipped], rfl⟩
  | fresh => exact ⟨{ value := v }, by simp, rfl⟩

theorem writes_set {f g : Frame} {x : Bytes} {v : Value} {l : Location}
    (h : f.set x v l = .ok g) : Writes x v f.scopes g.scopes := by
  obtain ⟨unknown, rfl⟩ | ⟨old, new, known, taken, rfl⟩ := set_cases h
  · have absent : ∀ scope ∈ f.scopes, scope.find? x = none := List.findSome?_eq_none_iff.1 unknown
    cases e : f.blocks with
    | nil =>
      simp only [scopes, define, e, List.nil_append] at absent ⊢
      exact .fresh absent
    | cons block rest =>
      simp only [scopes, define, e, List.cons_append] at absent ⊢
      exact .fresh absent
  · obtain ⟨inner, scope, outer, before, absent, here, after⟩ := scopes_replace new known
    obtain given | ⟨⟨r, failed⟩, -⟩ := assigned_cases old x v l
    · cases taken.symm.trans given
      rw [before, after]
      exact .found absent here
    · cases taken.symm.trans failed

theorem eq_of_set {f g : Frame} {x : Bytes} {v : Value} {l : Location}
    (h : f.set x v l = .ok g) : g = { f with main := g.main, blocks := g.blocks } := by
  obtain ⟨-, rfl⟩ | ⟨old, new, -, -, rfl⟩ := set_cases h
  · unfold define
    split <;> rfl
  · unfold replace
    split <;> rfl

theorem refuses_of_set {f : Frame} {x : Bytes} {v : Value} {l : Location} {r : Report}
    (h : f.set x v l = .error r) : ∃ old, f.find? x = some old ∧ old.Refuses v := by
  rw [set_eq] at h
  split at h
  · cases h
  · next old known =>
    obtain given | ⟨-, refuses⟩ := assigned_cases old x v l
    · rw [given] at h
      cases h
    · exact ⟨old, known, refuses⟩

theorem records_declare (f : Frame) {d : Declaration} {y : Bytes} (v : Value) (other : y ≠ d.name) :
    (f.declare d v).records y = f.records y := by
  simp [records, scopes, declare, other]

end Frame

namespace Environment

inductive Change
  | assign (x : Bytes) (v : Value) (l : Location)
  | define (x : Bytes) (v : Value)
  | declare (d : Declaration) (v : Value)
  | pushBlock
  | popBlock
  | pushFrame (name : Bytes) (l : Location) (place : Option Location)
  | popFrame

def Change.apply (env : Environment) : Change → Environment
  | assign x v l => (setting x v l env).2
  | define x v => env.define x v
  | declare d v => env.declare d v
  | pushBlock => env.pushBlock
  | popBlock => env.popBlock
  | pushFrame name l place => env.pushFrame name l place
  | popFrame => env.popFrame

def changed (env : Environment) (cs : List Change) : Environment := cs.foldl Change.apply env

theorem changed_append (env : Environment) (cs ds : List Change) :
    env.changed (cs ++ ds) = (env.changed cs).changed ds :=
  List.foldl_append

/-- Changes in which every scope and frame that is opened is closed again, with the names that they
give a value to in the frame that they start from. -/
inductive Paired : List Bytes → List Change → Prop
  | nil : Paired [] []
  | assign (x : Bytes) (v : Value) (l : Location) : Paired [x] [.assign x v l]
  | define (x : Bytes) (v : Value) : Paired [x] [.define x v]
  | declare (d : Declaration) (v : Value) : Paired [d.name] [.declare d v]
  | block {xs : List Bytes} {cs : List Change} : Paired xs cs →
    Paired xs (.pushBlock :: cs ++ [.popBlock])
  | frame {xs : List Bytes} {cs : List Change} (name : Bytes) (l : Location)
    (place : Option Location) : Paired xs cs →
    Paired [] (.pushFrame name l place :: cs ++ [.popFrame])
  | append {xs ys : List Bytes} {cs ds : List Change} : Paired xs cs → Paired ys ds →
    Paired (xs ++ ys) (cs ++ ds)

theorem top_set_error {env : Environment} {x : Bytes} {v : Value} {l : Location} {r : Report}
    (h : env.set x v l = .error r) : env.top.set x v l = .error r := by
  rw [set_eq] at h
  cases e : env.top.set x v l with
  | error r' =>
    rw [e] at h
    cases h
    rfl
  | ok top =>
    rw [e] at h
    cases h

theorem around_changed {xs : List Bytes} {cs : List Change} (h : Paired xs cs)
    (env : Environment) : Around env (env.changed cs) := by
  induction h generalizing env with
  | nil => exact .refl env
  | assign x v l =>
    show Around env (setting x v l env).2
    rw [(atomic_setting x v l).made_eq]
    cases e : (setting x v l).made env with
    | ok after => exact (confined_set e).toAround
    | error r => exact .refl env
  | define x v => exact (confined_define env x v).toAround
  | declare d v => exact ⟨rfl, rfl, rfl, rfl, rfl⟩
  | block _ ih =>
    rw [changed_append]
    have inner := ih env.pushBlock
    exact ⟨inner.below, inner.running, inner.steps, inner.floors, inner.interactive⟩
  | frame name l place _ ih =>
    rw [changed_append]
    show Around env ((env.pushFrame name l place).changed _).popFrame
    rw [popFrame_of_around (ih _)]
    exact .refl env
  | append _ _ ih ih' =>
    rw [changed_append]
    exact (ih env).trans (ih' _)

/-- By induction on the pairs: a block that is closed takes its own record along, and a frame that
is closed gives back the one under it, whatever was done to the names of either. -/
theorem records_changed {xs : List Bytes} {cs : List Change} {y : Bytes} (h : Paired xs cs)
    (other : y ∉ xs) (env : Environment) :
    (env.changed cs).top.records y = env.top.records y := by
  induction h generalizing env with
  | nil => rfl
  | assign x v l =>
    have different : y ≠ x := by simpa using other
    show (setting x v l env).2.top.records y = _
    rw [(atomic_setting x v l).made_eq]
    cases e : (setting x v l).made env with
    | ok after => exact Frame.records_set (top_set e).1 different
    | error r => rfl
  | define x v => exact Frame.records_define env.top _ (by simpa using other)
  | declare d v => exact Frame.records_declare env.top v (by simpa using other)
  | block _ ih =>
    rw [changed_append]
    exact Frame.records_popBlock (ih other env.pushBlock)
  | frame name l place inner _ =>
    rw [changed_append]
    have back := popFrame_of_around (around_changed inner (env.pushFrame name l place))
    exact congrArg (·.top.records y) back
  | append _ _ ih ih' =>
    rw [List.mem_append, not_or] at other
    rw [changed_append, ih' other.2, ih other.1]

/-- An assignment that succeeds is what the name means from then on; it leaves every other name and
every other frame as they are, and is written where the name was found. -/
theorem assignment_lens (env : Environment) (x : Bytes) (v : Value) (l : Location) :
    (∀ after, env.set x v l = .ok after →
      (∀ l', after.get x l' = .ok v) ∧
      (∀ y, y ≠ x → after.top.find? y = env.top.find? y) ∧
      after = { env with
        top := { env.top with main := after.top.main, blocks := after.top.blocks } } ∧
      Frame.Writes x v env.top.scopes after.top.scopes) ∧
    (∀ r, env.set x v l = .error r →
      (∃ old, env.top.find? x = some old ∧ old.Refuses v) ∧
      ∀ s : Session σ, s.env = env → Action.assign x v l s = (.failed r, s)) ∧
    ∀ xs cs, Paired xs cs → Around env (env.changed cs) ∧
      ∀ y, y ∉ xs → (env.changed cs).top.find? y = env.top.find? y := by
  refine ⟨fun after h => ?_, fun r h => ⟨Frame.refuses_of_set (top_set_error h), ?_⟩,
    fun xs cs paired => ⟨around_changed paired env, fun y other => ?_⟩⟩
  · obtain ⟨ht, whole⟩ := top_set h
    have written := Frame.writes_set ht
    refine ⟨fun l' => ?_, fun y other => find?_set h other, ?_, written⟩
    · obtain ⟨new, found, rfl⟩ := written.written
      simp only [get, Frame.find?, found]
    · rw [← Frame.eq_of_set ht]
      exact whole
  · rintro s rfl
    rw [Action.assign_eq, h]
  · exact Frame.find?_congr (records_changed paired other env)

theorem assignment_lens_shadowed :
    let main : Scope := NameMap.insert (.insert {} "n" { value := .text "main" })
      "f" { value := .text "once", fixed := true, assigned := true }
    let block : Scope := .insert {} "n" { value := .text "block" }
    let env : Environment := { top := { name := "b", main, blocks := [block] } }
    let inner := [.pushBlock, .define "n" (.text "inner"), .popBlock]
    (∃ after, env.set "n" (.text "new") {} = .ok after ∧ after.get "n" {} = .ok (.text "new") ∧
      after.popBlock.get "n" {} = .ok (.text "main")) ∧
    (∃ r old, env.set "f" (.text "new") {} = .error r ∧ env.top.find? "f" = some old ∧
      old.Refuses (.text "new")) ∧
    Paired ["n"] inner ∧ (env.changed inner).top.find? "f" = env.top.find? "f" := by
  intro main block env inner
  let blockAfter : Scope := .insert {} "n" { value := .text "new" }
  have ok : env.set "n" (.text "new") {} =
      .ok { env with top := { env.top with blocks := [blockAfter] } } := rfl
  have refused : env.set "f" (.text "new") {} =
      .error (Report.fill .fixedReassigned {} [("name", "f")]) := rfl
  have ⟨written, _, _⟩ := assignment_lens (σ := Unit) env "n" (.text "new") {}
  have ⟨_, failed, others⟩ := assignment_lens (σ := Unit) env "f" (.text "new") {}
  have paired : Paired ["n"] inner := .block (.define "n" (.text "inner"))
  obtain ⟨old, known, refuses⟩ := (failed _ refused).1
  exact ⟨⟨_, ok, (written _ ok).1 {}, rfl⟩, ⟨_, old, refused, known, refuses⟩, paired,
    (others _ _ paired).2 "f" (by decide)⟩

end Environment

end StepsLang
