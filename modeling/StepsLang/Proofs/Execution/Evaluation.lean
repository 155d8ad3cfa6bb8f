import StepsLang.Execution.Basic

namespace StepsLang

namespace Heap

structure Grows (h k : Heap) : Prop where
  lists : h.lists.toList <+: k.lists.toList
  tables : h.tables.toList <+: k.tables.toList

variable {h k j : Heap}

theorem Grows.refl (h : Heap) : h.Grows h := ⟨List.prefix_rfl, List.prefix_rfl⟩

theorem Grows.trans (first : h.Grows k) (second : k.Grows j) : h.Grows j :=
  ⟨first.lists.trans second.lists, first.tables.trans second.tables⟩

theorem grows_newList (h : Heap) (items : Array Value) : h.Grows (h.newList items).2 :=
  ⟨by simp [newList], List.prefix_rfl⟩

theorem grows_newTable (h : Heap) (pairs : List (Bytes × Value)) : h.Grows (h.newTable pairs).2 :=
  ⟨List.prefix_rfl, by simp [newTable]⟩

theorem grows_operateWord {op : WordOperator} {a b v : Value} {l : Location}
    (e : Value.operateWord h op a b l = .ok (v, k)) : h.Grows k := by
  -- A split makes a list, and the other operators make nothing.
  have same {x : Except Report Value} (e : (·, h) <$> x = .ok (v, k)) : h.Grows k := by
    cases x with
    | error r => cases e
    | ok a =>
      cases e
      exact .refl h
  cases op with
  | addedTo =>
    cases e
    exact .refl h
  | splitBy =>
    simp only [Value.operateWord, Value.splitBy] at e
    split at e
    · cases e
      exact grows_newList h _
    · cases e
  | characterAt => exact same e
  | contains => exact same e
  | startsWith => exact same e
  | endsWith => exact same e
  | isIn => exact same e

end Heap

def Input.take (files : Files) : Nat → Input → List Bytes × Input
  | 0, i => ([], i)
  | n + 1, i =>
    let (line, i) := i.read files
    let (lines, i) := take files n i
    (line :: lines, i)

theorem Input.take_add (files : Files) (m n : Nat) (i : Input) :
    i.take files (m + n) = ((i.take files m).1 ++ ((i.take files m).2.take files n).1,
      ((i.take files m).2.take files n).2) := by
  induction m generalizing i with
  | zero => simp [take]
  | succ m ih =>
    rw [Nat.succ_add]
    simp only [take, ih, List.cons_append]

structure World.Reads (w : World) (lines : List Bytes) (w' : World) : Prop where
  heap : w.heap.Grows w'.heap
  input : w.input.take w.files lines.length = (lines, w'.input)
  rest : w' = { w with heap := w'.heap, input := w'.input }

namespace World

variable {w w' w'' : World} {lines more : List Bytes}

theorem Reads.refl (w : World) : w.Reads [] w := ⟨.refl w.heap, rfl, rfl⟩

theorem Reads.trans (first : w.Reads lines w') (second : w'.Reads more w'') :
    w.Reads (lines ++ more) w'' where
  heap := first.heap.trans second.heap
  input := by
    have files : w'.files = w.files := by rw [first.rest]
    rw [List.length_append, Input.take_add, first.input, ← files, second.input]
  rest := by
    rw [second.rest, first.rest]

theorem reads_grown {heap : Heap} (grown : w.heap.Grows heap) : w.Reads [] { w with heap } :=
  ⟨grown, rfl, rfl⟩

end World

namespace Effect

def next (x : Effect α) (asks : α → World → List β) (w : World) : List β :=
  match x w with
  | (.ok a, w) => asks a w
  | (.error _, _) => []

def Reads (asks : World → List (Location × Bytes)) (x : Effect α) : Prop :=
  ∀ w : World, w.Reads ((asks w).map (·.2)) (x w).2

namespace Reads

variable {x : Effect α} {f : α → Effect β} {asks : World → List (Location × Bytes)}
  {k : α → World → List (Location × Bytes)}

theorem pure (a : α) : Reads (fun _ => []) (Pure.pure a : Effect α) :=
  World.Reads.refl

theorem ask (f : Heap → Except Report α) : Reads (fun _ => []) (Effect.ask f) :=
  World.Reads.refl

theorem onHeap {f : Heap → Except Report (α × Heap)}
    (h : ∀ {heap a heap'}, f heap = .ok (a, heap') → heap.Grows heap') :
    Reads (fun _ => []) (Effect.onHeap f) := by
  intro w
  unfold Effect.onHeap
  split
  · next e => exact World.reads_grown (h e)
  · exact .refl w

theorem newList (items : List Value) : Reads (fun _ => []) (Effect.newList items) :=
  fun w => World.reads_grown (w.heap.grows_newList items.toArray)

theorem newTable (pairs : List (Bytes × Value)) : Reads (fun _ => []) (Effect.newTable pairs) :=
  fun w => World.reads_grown (w.heap.grows_newTable pairs)

theorem readLine (l : Location) :
    Reads (fun w => [(l, (w.input.read w.files).1)]) Effect.readLine :=
  fun w => ⟨.refl w.heap, rfl, rfl⟩

theorem bind (hx : Reads asks x) (hf : ∀ a, Reads (k a) (f a)) :
    Reads (fun w => asks w ++ x.next k w) (x >>= f) := by
  intro w
  have first := hx w
  change w.Reads ((asks w ++ x.next k w).map (·.2)) (Mutation.andThen x f w).2
  rw [List.map_append]
  rcases e : x w with ⟨r | a, w'⟩
  · rw [e] at first
    simp only [Mutation.andThen, next, e]
    exact first.trans (.refl w')
  · rw [e] at first
    simp only [Mutation.andThen, next, e]
    exact first.trans (hf a w')

theorem looking {g : Heap → α} (hf : ∀ a, Reads (k a) (f a)) :
    Reads (fun w => k (g w.heap) w) (Effect.ask (fun h => .ok (g h)) >>= f) :=
  fun w => hf (g w.heap) w

theorem last (hx : Reads asks x) (hf : ∀ a, Reads (fun _ => []) (f a)) : Reads asks (x >>= f) := by
  have none (w : World) : x.next (fun _ _ => ([] : List (Location × Bytes))) w = [] := by
    unfold next
    split <;> rfl
  simpa only [none, List.append_nil] using hx.bind hf

end Reads

end Effect

namespace Expression
open Effect

mutual
def inputs : Expression → List Location
  | input l => [l]
  | list _ items => inputsOfItems items
  | table _ entries => inputsOfEntries entries
  | binary _ _ a b | word _ _ a b | decimal _ a b | index _ a b => a.inputs ++ b.inputs
  | negate _ e | not _ e | convert _ _ e | typeOf _ e | isA _ _ e | lengthOf _ e => e.inputs
  | number .. | text .. | boolean .. | nothing _ | name .. => []
termination_by structural e => e

def inputsOfItems : List Expression → List Location
  | [] => []
  | e :: rest => e.inputs ++ inputsOfItems rest
termination_by structural es => es

def inputsOfEntries : List (Expression × Expression) → List Location
  | [] => []
  | (key, e) :: rest => key.inputs ++ (e.inputs ++ inputsOfEntries rest)
termination_by structural es => es
end

mutual
/-- The `input`s that are evaluated in an expression, one after the other, each with its line. -/
def answers (env : Environment) : Expression → World → List (Location × Bytes)
  | input l => fun w => [(l, (w.input.read w.files).1)]
  | list _ items => answersOfItems env items
  | table _ entries => answersOfEntries env entries
  | binary _ op a b => fun w =>
    a.answers env w ++ (a.eval env).next
      (fun v w => if (op.decided? (v.truthy w.heap)).isSome then [] else b.answers env w) w
  | word _ _ a b | decimal _ a b | index _ a b => fun w =>
    a.answers env w ++ (a.eval env).next (fun _ => b.answers env) w
  | negate _ e | not _ e | convert _ _ e | typeOf _ e | isA _ _ e | lengthOf _ e => e.answers env
  | number .. | text .. | boolean .. | nothing _ | name .. => fun _ => []
termination_by structural e => e

def answersOfItems (env : Environment) : List Expression → World → List (Location × Bytes)
  | [] => fun _ => []
  | e :: rest => fun w =>
    e.answers env w ++ (e.eval env).next (fun _ => answersOfItems env rest) w
termination_by structural es => es

def answersOfEntries (env : Environment) :
    List (Expression × Expression) → World → List (Location × Bytes)
  | [] => fun _ => []
  | (key, e) :: rest => fun w =>
    key.answers env w ++ (key.eval env).next
      (fun _ w => e.answers env w ++ (e.eval env).next (fun _ => answersOfEntries env rest) w) w
termination_by structural es => es
end

theorem reads_binary {env : Environment} {l : Location} {op : Operator} {a b : Expression}
    (ha : Reads (a.answers env) (a.eval env)) (hb : Reads (b.answers env) (b.eval env)) :
    Reads ((binary l op a b).answers env) ((binary l op a b).eval env) := by
  refine ha.bind fun v => .looking (g := v.truthy)
    (k := fun truth w => if (op.decided? truth).isSome then [] else b.answers env w)
    fun truth => ?_
  cases op.decided? truth with
  | some b => exact .pure _
  | none => exact hb.last fun _ => .ask _

mutual
theorem reads_eval (env : Environment) : (e : Expression) → Reads (e.answers env) (e.eval env)
  | number .. | text .. | boolean .. | nothing _ => .pure _
  | name .. => .ask _
  | input l => .last (.readLine l) fun _ => .pure _
  | list _ items => .last (reads_evalItems env items) fun _ => .newList _
  | table _ entries => .last (reads_evalEntries env entries) fun _ => .newTable _
  | binary _ _ a b => reads_binary (reads_eval env a) (reads_eval env b)
  | word _ _ a b =>
    .bind (reads_eval env a) fun _ => .last (reads_eval env b) fun _ =>
      .onHeap Heap.grows_operateWord
  | decimal _ a b | index _ a b =>
    .bind (reads_eval env a) fun _ => .last (reads_eval env b) fun _ => .ask _
  | negate _ e | not _ e | convert _ _ e | lengthOf _ e =>
    .last (reads_eval env e) fun _ => .ask _
  | typeOf _ e | isA _ _ e => .last (reads_eval env e) fun _ => .pure _
termination_by structural e => e

theorem reads_evalItems (env : Environment) : (es : List Expression) →
    Reads (answersOfItems env es) (evalItems env es)
  | [] => .pure _
  | e :: rest =>
    .bind (reads_eval env e) fun _ => .last (reads_evalItems env rest) fun _ => .pure _
termination_by structural es => es

theorem reads_evalEntries (env : Environment) : (es : List (Expression × Expression)) →
    Reads (answersOfEntries env es) (evalEntries env es)
  | [] => .pure _
  | (key, e) :: rest =>
    .bind (reads_eval env key) fun _ => .bind (reads_eval env e) fun _ =>
      .looking fun _ => .last (reads_evalEntries env rest) fun _ => .pure _
termination_by structural es => es
end

theorem sublist_append {found found' : List (Location × Bytes)} {places places' : List Location}
    (first : (found.map (·.1)).Sublist places) (second : (found'.map (·.1)).Sublist places') :
    ((found ++ found').map (·.1)).Sublist (places ++ places') := by
  rw [List.map_append]
  exact first.append second

theorem sublist_next {x : Effect α} {k : α → World → List (Location × Bytes)} {w : World}
    {places : List Location} (h : ∀ a w, ((k a w).map (·.1)).Sublist places) :
    ((x.next k w).map (·.1)).Sublist places := by
  unfold next
  split
  · exact h _ _
  · exact List.nil_sublist _

mutual
theorem answers_sublist (env : Environment) : (e : Expression) → (w : World) →
    ((e.answers env w).map (·.1)).Sublist e.inputs
  | number .., _ | text .., _ | boolean .., _ | nothing _, _ | name .., _ => .slnil
  | input _, _ => .refl _
  | list _ items, w => answersOfItems_sublist env items w
  | table _ entries, w => answersOfEntries_sublist env entries w
  | binary _ op a b, w => by
    refine sublist_append (answers_sublist env a w) (sublist_next fun v w => ?_)
    split
    · exact List.nil_sublist _
    · exact answers_sublist env b w
  | word _ _ a b, w | decimal _ a b, w | index _ a b, w =>
    sublist_append (answers_sublist env a w) (sublist_next fun _ => answers_sublist env b)
  | negate _ e, w | not _ e, w | convert _ _ e, w | typeOf _ e, w | isA _ _ e, w
  | lengthOf _ e, w => answers_sublist env e w
termination_by structural e => e

theorem answersOfItems_sublist (env : Environment) : (es : List Expression) → (w : World) →
    ((answersOfItems env es w).map (·.1)).Sublist (inputsOfItems es)
  | [], _ => .slnil
  | e :: rest, w =>
    sublist_append (answers_sublist env e w)
      (sublist_next fun _ => answersOfItems_sublist env rest)
termination_by structural es => es

theorem answersOfEntries_sublist (env : Environment) :
    (es : List (Expression × Expression)) → (w : World) →
    ((answersOfEntries env es w).map (·.1)).Sublist (inputsOfEntries es)
  | [], _ => .slnil
  | (key, e) :: rest, w =>
    sublist_append (answers_sublist env key w) (sublist_next fun _ w =>
      sublist_append (answers_sublist env e w)
        (sublist_next fun _ => answersOfEntries_sublist env rest))
termination_by structural es => es
end

/-- An evaluation leaves variables, frames, earlier containers, output, files and the memory of who
watches as they were, whether it succeeds or fails. -/
theorem evaluation_pure (e : Expression) (k : Value → Action σ) (s : Session σ) :
    ∃ w, (s.world.Reads ((e.answers s.env s.world).map (·.2)) w ∧
        ((e.answers s.env s.world).map (·.1)).Sublist e.inputs) ∧
      ((∃ v, e.eval s.env s.world = (.ok v, w) ∧
          Action.evaluating e k s = k v { s with world := w }) ∨
        (∃ r, e.eval s.env s.world = (.error r, w) ∧
          Action.evaluating e k s = (.failed r, { s with world := w }))) := by
  refine ⟨(e.eval s.env s.world).2,
    ⟨reads_eval s.env e s.world, answers_sublist s.env e s.world⟩, ?_⟩
  unfold Action.evaluating Action.obtaining
  rcases e.eval s.env s.world with ⟨r | v, w⟩
  · exact .inr ⟨r, rfl, rfl⟩
  · exact .inl ⟨v, rfl, rfl⟩

example :
    let e : Expression := .binary {} .or (.input { line := 1 }) (.input { line := 2 })
    let w : World := { input := .ofLines ["yes", "no"] }
    e.inputs.map (·.line) = [1, 2] ∧
      (e.answers (.fresh "main" false) w).map (·.1.line) = [1] := by
  decide

end Expression

end StepsLang
