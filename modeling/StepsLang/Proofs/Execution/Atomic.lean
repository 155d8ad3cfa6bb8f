import StepsLang.Proofs.Execution.Discipline
import StepsLang.Proofs.Execution.Evaluation
import StepsLang.Proofs.Program.Parts

namespace StepsLang

/-- The statements without blocks that work on variables, containers and the output. -/
def Statement.isSimple : Statement → Bool
  | display .. | set .. | setIndex .. | addToList .. | removeFromList .. => true
  | _ => false

/-- Nothing has happened between two sessions but that `input`s at some of these places were
answered, and containers were made. -/
structure Session.Unharmed (places : List Location) (s t : Session σ) : Prop where
  env : t.env = s.env
  watch : t.watch = s.watch
  world : ∃ answers : List (Location × Bytes),
    (answers.map (·.1)).Sublist places ∧ s.world.Reads (answers.map (·.2)) t.world

namespace Session.Unharmed

variable {s t : Session σ} {places : List Location}

theorem refl (s : Session σ) (places : List Location) : s.Unharmed places s :=
  ⟨rfl, rfl, [], List.nil_sublist _, .refl s.world⟩

theorem evaluated (e : Expression) (s : Session σ) (places : List Location) :
    s.Unharmed (e.inputs ++ places) { s with world := (e.eval s.env s.world).2 } where
  env := rfl
  watch := rfl
  world := ⟨e.answers s.env s.world,
    (e.answers_sublist s.env s.world).trans (List.sublist_append_left ..),
    e.reads_eval s.env s.world⟩

theorem after_evaluation {e : Expression}
    (rest : Unharmed places { s with world := (e.eval s.env s.world).2 } t) :
    s.Unharmed (e.inputs ++ places) t where
  env := rest.env
  watch := rest.watch
  world := by
    obtain ⟨more, from_, reads⟩ := rest.world
    refine ⟨e.answers s.env s.world ++ more,
      Expression.sublist_append (e.answers_sublist s.env s.world) from_, ?_⟩
    rw [List.map_append]
    exact (e.reads_eval s.env s.world).trans reads

end Session.Unharmed

namespace Action

def Atomic (places : List Location) (a : Action σ) : Prop :=
  ∀ s r t, a s = (.failed r, t) → s.Unharmed places t

namespace Atomic

variable {places : List Location} {k : Value → Action σ}

theorem evaluating (e : Expression) (hk : ∀ v, Atomic places (k v)) :
    Atomic (e.inputs ++ places) (evaluating e k) := by
  intro s r t failed
  have evaluated := Session.Unharmed.evaluated e s places
  unfold Action.evaluating obtaining at failed
  split at failed
  · next v w eq =>
    refine .after_evaluation ?_
    rw [eq]
    exact hk v _ r t failed
  · next eq =>
    rw [eq] at evaluated
    cases failed
    exact evaluated

theorem reading (x : Bytes) (l : Location) (hk : ∀ v, Atomic places (k v)) :
    Atomic places (reading x l k) := by
  intro s r t failed
  unfold Action.reading at failed
  split at failed
  · exact hk _ s r t failed
  · cases failed
    exact .refl s places

theorem assign (x : Bytes) (v : Value) (l : Location) :
    Atomic (σ := σ) [] (assign x v l) := by
  intro s r t failed
  unfold Action.assign at failed
  split at failed
  · cases failed
  · next env e =>
    cases failed
    rw [Environment.atomic_setting x v l s.env r env e]
    exact .refl s []

theorem onHeap {c : Mutation Heap α} (hc : c.Atomic) : Atomic (σ := σ) [] (onHeap c) := by
  intro s r t failed
  unfold Action.onHeap at failed
  split at failed
  · cases failed
  · next heap e =>
    cases failed
    rw [hc s.world.heap r heap e]
    exact .refl s []

theorem display (v : Value) : Atomic (σ := σ) [] (display v) :=
  fun _ _ _ failed => nomatch failed

end Atomic

end Action

namespace Statement
open StepsLang.Action

theorem atomic_perform (ob : Observer σ) (limits : Limits) (call : Caller σ) {st : Statement}
    (simple : st.isSimple = true) :
    Atomic (st.expressions.flatMap (·.inputs)) (st.perform ob limits call) := by
  cases st with
  | display l e => exact .evaluating e .display
  | set l x e => exact .evaluating e fun v => .assign x v l
  | setIndex l x index e =>
    exact .reading x l fun container => .evaluating index fun key => .evaluating e fun v =>
      .onHeap (Value.atomic_storing container key v l)
  | addToList l e x =>
    exact .evaluating e fun v => .reading x l fun list => .onHeap (Value.atomic_addingTo list v l)
  | removeFromList l e x =>
    exact .evaluating e fun v => .reading x l fun list =>
      .onHeap (Value.atomic_removingFrom list v l)
  | _ => cases simple

/-- A simple statement that fails has changed no variable in any frame and no container, has
displayed nothing, and has used up no more than the lines that its `input`s read. -/
theorem simple_failure_harmless (ob : Observer σ) (limits : Limits) (n : Nat) {st : Statement}
    (simple : st.isSimple = true) {s t : Session σ} {r : Report}
    (failed : st.execute ob limits n s = (.failed r, t)) :
    t.env.frames.map Frame.scopes = s.env.frames.map Frame.scopes ∧
      (s.announce ob st).2.Unharmed (st.expressions.flatMap (·.inputs)) t := by
  have unharmed : (s.announce ob st).2.Unharmed (st.expressions.flatMap (·.inputs)) t := by
    unfold execute at failed
    rw [announced_eq] at failed
    split at failed
    · cases failed
    · split at failed
      · exact atomic_perform ob limits _ simple _ r t failed
      · cases failed
  refine ⟨?_, unharmed⟩
  rw [unharmed.env]
  rfl

theorem adding_to_number_harmless :
    let st : Statement := .addToList {} (.list {} [.input {}]) "x"
    let s : Session Unit :=
      ⟨(Environment.fresh "main" false).define "x" (.number 5), { input := .ofLines ["red"] }, ()⟩
    let t := (st.execute Observer.none {} 0 s).2
    st.isSimple = true ∧ (∃ r, st.execute Observer.none {} 0 s = (.failed r, t)) ∧
      t.world.input.reads = 1 ∧ t.world.heap.lists = #[#[.text "red"]] ∧
      t.env.frames.map Frame.scopes = s.env.frames.map Frame.scopes := by
  intro st s t
  have failed : ∃ r, st.execute Observer.none {} 0 s = (.failed r, t) := ⟨_, rfl⟩
  obtain ⟨r, e⟩ := failed
  exact ⟨rfl, ⟨r, e⟩, rfl, rfl, (simple_failure_harmless Observer.none {} 0 rfl e).1⟩

end Statement

end StepsLang
