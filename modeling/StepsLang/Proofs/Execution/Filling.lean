import StepsLang.Proofs.Execution.Evaluation
import StepsLang.Proofs.Execution.Machine

namespace StepsLang

def Heap.Keeps (h k : Heap) : Value → Prop
  | .list id => ∀ items, h.lists[id]? = some items → k.lists[id]? = some items
  | .table id => ∀ t, h.tables[id]? = some t → k.tables[id]? = some t
  | _ => True

namespace Heap

variable {h k j : Heap} {v : Value}

theorem Keeps.refl (h : Heap) (v : Value) : h.Keeps h v := by
  cases v <;> simp [Keeps]

theorem Keeps.trans (first : h.Keeps k v) (second : k.Keeps j v) : h.Keeps j v := by
  cases v with
  | list id => exact fun items there => second items (first items there)
  | table id => exact fun t there => second t (first t there)
  | _ => trivial

theorem getElem?_of_prefix {xs ys : Array α} (grows : xs.toList <+: ys.toList) {i : Nat} {x : α}
    (there : xs[i]? = some x) : ys[i]? = some x := by
  rw [← Array.getElem?_toList] at there ⊢
  obtain ⟨inside, rfl⟩ := List.getElem?_eq_some_iff.1 there
  exact List.prefix_iff_getElem?.1 grows i inside

theorem Grows.keeps (grows : h.Grows k) (v : Value) : h.Keeps k v := by
  cases v with
  | list id => exact fun _ => getElem?_of_prefix grows.lists
  | table id => exact fun _ => getElem?_of_prefix grows.tables
  | _ => trivial

theorem keeps_setItems {id : Nat} (other : v ≠ .list id) (items : Array Value) :
    h.Keeps (h.setItems id items) v := by
  cases v with
  | list i =>
    intro items there
    have apart : id ≠ i := fun same => other (same ▸ rfl)
    rwa [setItems, Array.getElem?_setIfInBounds_ne apart]
  | table i => exact fun _ there => there
  | _ => trivial

theorem keeps_addItem {id : Nat} (other : v ≠ .list id) (item : Value) :
    h.Keeps (h.addItem id item) v := by
  cases v with
  | list i =>
    intro items there
    have apart : id ≠ i := fun same => other (same ▸ rfl)
    rwa [addItem, Array.getElem?_modify, if_neg apart]
  | table i => exact fun _ there => there
  | _ => trivial

theorem keeps_setKey {id : Nat} (other : v ≠ .table id) (key : Bytes) (x : Value) :
    h.Keeps (h.setKey id key x) v := by
  cases v with
  | table i =>
    intro t there
    have apart : id ≠ i := fun same => other (same ▸ rfl)
    rwa [setKey, Array.getElem?_modify, if_neg apart]
  | list i => exact fun _ there => there
  | _ => trivial

end Heap

namespace Value

variable {container v : Value} (other : v ≠ container) (h : Heap) (l : Location)
include other

theorem keeps_storing (key x : Value) : h.Keeps (storing container key x l h).2 v := by
  cases container with
  | list id =>
    cases key with
    | number n =>
      rw [storing, Heap.settingItem_apply]
      split
      · exact Heap.keeps_setItems other _
      · exact .refl h v
    | _ => exact .refl h v
  | table id => exact Heap.keeps_setKey other _ x
  | _ => exact .refl h v

theorem keeps_addingTo (item : Value) : h.Keeps (addingTo container item l h).2 v := by
  cases container with
  | list id => exact Heap.keeps_addItem other item
  | _ => exact .refl h v

theorem keeps_removingFrom (item : Value) : h.Keeps (removingFrom container item l h).2 v := by
  cases container with
  | list id =>
    show h.Keeps (h.removeItem id item).2 v
    unfold Heap.removeItem
    split
    · exact Heap.keeps_setItems other _
    · exact .refl h v
  | _ => exact .refl h v

end Value

def Effect.Grows (x : Effect α) : Prop := ∀ w : World, w.heap.Grows (x w).2.heap

namespace Effect.Grows

variable {x : Effect α} {f : α → Effect β}

theorem pure (a : α) : Grows (Pure.pure a : Effect α) := fun w => .refl w.heap

theorem fail (r : Report) : Grows (Mutation.fail r : Effect α) := fun w => .refl w.heap

theorem ask (f : Heap → Except Report α) : Grows (Effect.ask f) := fun w => .refl w.heap

theorem bind (hx : x.Grows) (hf : ∀ a, (f a).Grows) : Grows (x >>= f) := by
  intro w
  have first := hx w
  rw [Mutation.bind_apply]
  split
  · next a t e =>
    rw [e] at first
    exact first.trans (hf a t)
  · next r t e =>
    rw [e] at first
    exact first

theorem shown (v : Value) {f : Bytes → Effect α} (hf : ∀ s, (f s).Grows) :
    Grows (Effect.ask (fun h => .ok (h.display v)) >>= f) :=
  .bind (.ask _) hf

theorem newList (items : List Value) : Grows (Effect.newList items) :=
  fun w => w.heap.grows_newList items.toArray

theorem eval (env : Environment) (e : Expression) : (e.eval env).Grows :=
  fun w => (Expression.reads_eval env e w).heap

theorem evalItems (env : Environment) (es : List Expression) :
    (Expression.evalItems env es).Grows :=
  fun w => (Expression.reads_evalItems env es w).heap

end Effect.Grows

namespace Native
open Effect

variable {l : Location}

theorem grows_textOf (v : Value) (task usage : Bytes) : (Text.textOf v task usage l).Grows := by
  cases v with
  | text s => exact .pure s
  | _ => exact .fail _

theorem grows_boundOf (which : Bytes) (v : Value) : (Text.boundOf which v l).Grows := by
  cases v with
  | number n => exact .pure n
  | _ => exact .fail _

theorem grows_pathOf (v : Value) (name usage : Bytes) : (File.pathOf v name usage l).Grows := by
  cases v with
  | text path => exact .pure path
  | _ => exact .fail _

theorem grows_content (path missing : Bytes) : (File.content path missing l).Grows := by
  intro w
  unfold File.content
  split <;> exact .refl w.heap

theorem grows_fileStore (change : Files → Option Files) (refused : Bytes) :
    (File.store change refused l).Grows := by
  intro w
  unfold File.store
  split <;> exact .refl w.heap

theorem grows_tablesOf (v : Value) : (File.tablesOf v l).Grows := by
  cases v with
  | list id =>
    refine .bind (.ask _) fun items => ?_
    split
    · exact .pure _
    · exact .pure _
    · exact .fail _
  | _ => exact .fail _

theorem grows_newRows (h : Heap) (header : Csv.Row) (rows : List Csv.Row) :
    h.Grows (File.newRows h header rows).2 := by
  induction rows generalizing h with
  | nil => exact .refl h
  | cons row rows ih => exact (h.grows_newTable _).trans (ih _)

theorem grows_readRows (h : Heap) (rows : List Csv.Row) : h.Grows (File.readRows h rows).2 := by
  cases rows with
  | nil => exact h.grows_newList _
  | cons header rows => exact (grows_newRows h header rows).trans (Heap.grows_newList _ _)

theorem grows_readCsv (path : Value) : (File.readCsv path l).Grows := by
  refine .bind (grows_pathOf _ _ _) fun path => .bind (grows_content path _) fun text => ?_
  split
  · exact .fail _
  · exact fun w => grows_readRows w.heap _

theorem grows_writeCsv (path data : Value) : (File.writeCsv path data l).Grows :=
  .bind (grows_pathOf _ _ _) fun _ => .bind (grows_tablesOf data) fun _ =>
    .bind (.ask _) fun _ => grows_fileStore _ _

theorem grows_below (n : Nat) : (Draw.below n).Grows := by
  intro w
  unfold Draw.below
  rcases w.random.below n with ⟨i, random⟩
  exact .refl w.heap

theorem grows_int (low high : Value) : (Draw.int low high l).Grows := by
  unfold Draw.int
  split
  · dsimp only
    split
    · exact .fail _
    · exact .bind (grows_below _) fun _ => .pure _
  · exact .fail _

theorem grows_choice (v : Value) : (Draw.choice v l).Grows := by
  cases v with
  | list id =>
    refine .bind (.ask _) fun items => ?_
    split
    · exact .fail _
    · exact .bind (grows_below _) fun _ => .pure _
  | _ => exact .fail _

theorem grows_call {f : Native} {vs : List Value} {x : Effect Value}
    (h : f.call? vs l = some x) : x.Grows := by
  unfold call? at h
  split at h <;> cases h
  · exact .bind (grows_textOf _ _ _) fun _ => .pure _
  · exact .bind (grows_textOf _ _ _) fun _ => .pure _
  · exact .bind (grows_textOf _ _ _) fun _ => .pure _
  · exact .bind (grows_textOf _ _ _) fun _ => .shown _ fun _ => .pure _
  · exact .bind (grows_textOf _ _ _) fun _ => .shown _ fun _ => .shown _ fun _ => .pure _
  · exact .bind (grows_textOf _ _ _) fun _ => .bind (grows_boundOf _ _) fun _ =>
      .bind (grows_boundOf _ _) fun _ => .pure _
  · exact .bind (grows_textOf _ _ _) fun _ => .newList _
  · exact grows_int _ _
  · exact grows_choice _
  · exact .bind (grows_pathOf _ _ _) fun path => .bind (grows_content path _) fun _ => .pure _
  · exact .bind (grows_pathOf _ _ _) fun _ => .shown _ fun _ => grows_fileStore _ _
  · exact .bind (grows_pathOf _ _ _) fun _ => .shown _ fun _ => grows_fileStore _ _
  · exact .bind (grows_pathOf _ _ _) fun _ w => .refl w.heap
  · exact grows_readCsv _
  · exact grows_writeCsv _ _

end Native

theorem Heap.grows_default (h : Heap) (type : TypeName) : h.Grows (h.default type).2 := by
  cases type with
  | list => exact h.grows_newList _
  | table => exact h.grows_newTable _
  | _ => exact .refl h

theorem Session.grows_call (ob : Observer σ) (r : Routine) (owner : Step) (vs : List Value)
    (l : Location) (s : Session σ) : s.world.heap.Grows (s.call ob r owner vs l).world.heap := by
  suffices ∀ (ds : List Declaration) (env : Environment) (h : Heap), h.Grows (ds.foldl
      (fun x d => (x.1.declare d (x.2.default d.type).1, (x.2.default d.type).2)) (env, h)).2 from
    this r.declarations _ s.world.heap
  intro ds
  induction ds with
  | nil => exact fun _ h => .refl h
  | cons d ds ih => exact fun env h => (h.grows_default d.type).trans (ih _ _)

inductive Statement.FillsAt (x : Bytes) (l : Location) : Statement → Prop
  | put (index e) : FillsAt x l (.setIndex l x index e)
  | add (e) : FillsAt x l (.addToList l e x)
  | remove (e) : FillsAt x l (.removeFromList l e x)

namespace Machine
open StepsLang.Action

/-- A machine that comes to change a container in place. -/
inductive Fills (c : Value) : Machine σ → Prop
  | next : st.FillsAt x l → s.env.get x l = .ok c →
      Fills c ⟨.normal, .block (st :: more) :: rest, s⟩

variable {ob : Observer σ} {limits : Limits} {rest : List Task} {s : Session σ} {v : Value}

abbrev Spared (v : Value) (s t : Session σ) : Prop := s.world.heap.Keeps t.world.heap v

theorem spared_evaluating {e : Expression} {k : Value → Action σ}
    (hk : ∀ a w, Spared v { s with world := w } (k a { s with world := w }).2) :
    Spared v s (evaluating e k s).2 := by
  have grown := Effect.Grows.eval s.env e s.world
  unfold evaluating obtaining
  split
  · next a w made =>
    rw [made] at grown
    exact (grown.keeps v).trans (hk a w)
  · next r w made =>
    rw [made] at grown
    exact grown.keeps v

theorem spared_onHeap {c : Mutation Heap α} (h : ∀ heap : Heap, heap.Keeps (c heap).2 v) :
    Spared v s (onHeap c s).2 := by
  have kept := h s.world.heap
  unfold Action.onHeap
  split <;> next made => rw [made] at kept; exact kept

theorem spared_assign (x : Bytes) (a : Value) (l : Location) : Spared v s (assign x a l s).2 := by
  rw [assign_eq]
  split <;> exact .refl _ v

theorem spared_branch {condition : Expression} {yes no : Session σ → Machine σ}
    (hy : ∀ t, Spared v t (yes t).session) (hn : ∀ t, Spared v t (no t).session) :
    Spared v s (branch condition rest yes no s).session := by
  have grown := Effect.Grows.eval s.env condition s.world
  unfold branch holds
  rcases made : condition.eval s.env s.world with ⟨r | a, w⟩ <;> rw [made] at grown
  · exact grown.keeps v
  · cases e : a.truthy w.heap with
    | true =>
      simp only [e]
      exact (grown.keeps v).trans (hy { s with world := w })
    | false =>
      simp only [e]
      exact (grown.keeps v).trans (hn { s with world := w })

theorem spared_openName (x : Bytes) (vs : List Value) (l : Location) :
    Spared v s (openName ob limits x vs l rest s).session := by
  have opens (r : Routine) (owner : Step) :
      Spared v s (openRoutine ob limits r owner vs l rest s).session := by
    unfold openRoutine
    split
    · exact .refl _ v
    · split
      · exact .refl _ v
      · exact (Session.grows_call ob r owner vs l s).keeps v
  unfold openName
  split
  · exact opens _ _
  · split
    · next f _ =>
      unfold Call.native
      split
      · exact .refl _ v
      · next x called =>
        have grown := Native.grows_call called s.world
        split <;> next made => rw [made] at grown; exact grown.keeps v
    · split
      · exact opens _ _
      · exact .refl _ v

theorem spared_reading {x : Bytes} {l : Location} {k : Value → Action σ}
    (hk : ∀ c, s.env.get x l = .ok c → v ≠ c → Spared v s (k c s).2) :
    Spared v s (reading x l k s).2 ∨ s.env.get x l = .ok v := by
  unfold reading
  split
  · next c found =>
    by_cases same : v = c
    · exact .inr (same ▸ found)
    · exact .inl (hk c found same)
  · exact .inl (.refl _ v)

theorem get_moveTo {env : Environment} {x : Bytes} {l here : Location} :
    (env.moveTo here).get x l = .ok v ↔ env.get x l = .ok v := by
  have same : (env.moveTo here).top.find? x = env.top.find? x := rfl
  unfold Environment.get
  rw [same]
  split <;> simp

theorem spared_start (st : Statement) :
    Spared v s (start ob limits rest s st).session ∨
      ∃ x l, st.FillsAt x l ∧ s.env.get x l = .ok v := by
  have same : Spared v s s := .refl _ v
  cases st with
  | display l e => exact .inl (spared_evaluating fun _ _ => .refl _ v)
  | set l x e => exact .inl (spared_evaluating fun _ _ => spared_assign x _ l)
  | setIndex l x index e =>
    refine (spared_reading fun c _ other => ?_).imp_right fun here => ⟨x, l, .put index e, here⟩
    exact spared_evaluating fun key _ => spared_evaluating fun a _ =>
      spared_onHeap fun h => Value.keeps_storing other h l key a
  | call l x arguments target =>
    have grown := Effect.Grows.evalItems s.env arguments s.world
    simp only [start]
    rcases made : Expression.evalItems s.env arguments s.world with ⟨r | vs, w⟩ <;>
      rw [made] at grown
    · exact .inl (grown.keeps v)
    · exact .inl ((grown.keeps v).trans (spared_openName (s := { s with world := w }) x vs l))
  | giveBack l e =>
    cases e with
    | none => exact .inl same
    | some e => exact .inl (spared_evaluating fun _ _ => .refl _ v)
  | exit l => exact .inl same
  | branch l arms otherwise => exact .inl same
  | repeatTimes l count body =>
    have grown := Effect.Grows.eval s.env count s.world
    simp only [start]
    rcases made : count.eval s.env s.world with ⟨r | a, w⟩ <;> rw [made] at grown
    · exact .inl (grown.keeps v)
    · cases a <;> exact .inl (grown.keeps v)
  | repeatForEach l x collection body =>
    have grown := Effect.Grows.eval s.env collection s.world
    simp only [start]
    rcases made : collection.eval s.env s.world with ⟨r | a, w⟩ <;> rw [made] at grown
    · exact .inl (grown.keeps v)
    · simp only
      cases e : a.items? w.heap with
      | none =>
        simp only [atOnce, Action.repeatForEach, e]
        exact .inl (grown.keeps v)
      | some items => exact .inl (grown.keeps v)
  | repeatWhile l condition body => exact .inl same
  | attempt l body unsuccessful continuation => exact .inl same
  | addToList l e x =>
    by_cases here : s.env.get x l = .ok v
    · exact .inr ⟨x, l, .add e, here⟩
    · refine .inl (spared_evaluating fun a w => ?_)
      refine (spared_reading fun c _ other => ?_).resolve_right here
      exact spared_onHeap fun h => Value.keeps_addingTo other h l a
  | removeFromList l e x =>
    by_cases here : s.env.get x l = .ok v
    · exact .inr ⟨x, l, .remove e, here⟩
    · refine .inl (spared_evaluating fun a w => ?_)
      refine (spared_reading fun c _ other => ?_).resolve_right here
      exact spared_onHeap fun h => Value.keeps_removingFrom other h l a
  | note l text => exact .inl same

theorem spared_begin (st : Statement) :
    Spared v s (begin ob limits rest s st).session ∨
      ∃ x l, st.FillsAt x l ∧ s.env.get x l = .ok v := by
  have same : Spared v s (s.announce ob st).2 := .refl _ v
  unfold begin
  split
  · exact .inl same
  · split
    · have started : Spared v _ (start ob limits rest (s.announce ob st).2 st).session ∨
          ∃ x l, st.FillsAt x l ∧ (s.announce ob st).2.env.get x l = .ok v := spared_start st
      exact started.imp id fun ⟨x, l, fills, here⟩ => ⟨x, l, fills, get_moveTo.1 here⟩
    · exact .inl same

theorem spared_nextRound (rounds : Rounds) :
    Spared v s (nextRound limits rest s rounds).session := by
  cases rounds with
  | times left body => cases left <;> exact .refl _ v
  | each x left body => cases left <;> exact .refl _ v
  | «while» l condition done body =>
    refine spared_branch (fun t => ?_) fun t => .refl _ v
    split <;> exact .refl _ v

/-- A step leaves a container as it is, unless it begins a statement that changes it in place. -/
theorem step_keeps {m m' : Machine σ} (e : m.step ob limits = some m') (v : Value) :
    Spared v m.session m'.session ∨ m.Fills v := by
  obtain ⟨o, tasks, s⟩ := m
  cases tasks with
  | nil => cases e
  | cons task rest =>
    cases e
    have same : Spared v s s := .refl _ v
    cases task with
    | block sts =>
      cases sts with
      | nil => exact .inl same
      | cons st more =>
        cases o with
        | normal =>
          exact (spared_begin st).imp_right fun ⟨x, l, fills, here⟩ => .next fills here
        | _ => exact .inl same
    | arms arms otherwise =>
      cases o with
      | normal =>
        rcases arms with _ | ⟨⟨l, condition, body⟩, arms⟩
        · cases otherwise <;> exact .inl same
        · exact .inl (spared_branch (fun _ => .refl _ v) fun _ => .refl _ v)
      | _ => cases arms <;> cases otherwise <;> exact .inl same
    | loop rounds =>
      cases o with
      | normal => exact .inl (spared_nextRound rounds)
      | _ => exact .inl same
    | handler body => cases body <;> cases o <;> exact .inl same
    | continuation body => cases body <;> cases o <;> exact .inl same
    | pending p => exact .inl same
    | closeBlock => exact .inl same
    | closeFrame name => cases o <;> exact .inl same
    | receive target l =>
      cases target with
      | none => cases o <;> exact .inl same
      | some x =>
        cases o with
        | returned a => exact .inl (spared_assign x a l)
        | _ => exact .inl same

end Machine

end StepsLang
