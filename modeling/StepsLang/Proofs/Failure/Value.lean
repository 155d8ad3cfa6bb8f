import StepsLang.Native.Call
import StepsLang.Proofs.Failure.Catalogue

namespace StepsLang

def FailsOnly (P : Report → Prop) (x : Except Report α) : Prop := ∀ r, x = .error r → P r

section
variable {P : Report → Prop}

@[simp]
theorem failsOnly_ok (a : α) : FailsOnly P (.ok a) := nofun

@[simp]
theorem failsOnly_error (r : Report) : FailsOnly P (.error r : Except Report α) ↔ P r :=
  ⟨fun h => h r rfl, fun h _ e => by cases e; exact h⟩

@[simp]
theorem failsOnly_map (f : α → β) (x : Except Report α) :
    FailsOnly P (f <$> x) ↔ FailsOnly P x := by
  cases x <;> simp [Functor.map, Except.map]

end

def Mutation.FailsOnly (P : Report → Prop) (x : Mutation S α) : Prop :=
  ∀ s, StepsLang.FailsOnly P (x s).1

namespace Mutation.FailsOnly

variable {P : Report → Prop} {x : Mutation S α} {f : α → Mutation S β}

theorem mono {Q : Report → Prop} (h : ∀ r, P r → Q r) (hx : x.FailsOnly P) : x.FailsOnly Q :=
  fun w r e => h r (hx w r e)

theorem pure (a : α) : (Pure.pure a : Mutation S α).FailsOnly P := fun _ => failsOnly_ok a

theorem fail {r : Report} (h : P r) : (Mutation.fail r : Mutation S α).FailsOnly P :=
  fun _ => (failsOnly_error r).2 h

theorem update (f : S → S) : (Mutation.update f).FailsOnly P := fun _ => failsOnly_ok _

theorem ask {f : Heap → Except Report α} (h : ∀ heap, StepsLang.FailsOnly P (f heap)) :
    (Effect.ask f).FailsOnly P := fun w => h w.heap

theorem onHeap {f : Heap → Except Report (α × Heap)} (h : ∀ heap, StepsLang.FailsOnly P (f heap)) :
    (Effect.onHeap f).FailsOnly P := by
  intro w r e
  have failed := h w.heap r
  unfold Effect.onHeap at e
  split at e
  · cases e
  · next r' e' =>
    cases e
    exact failed e'

theorem newList (items : List Value) : (Effect.newList items).FailsOnly P :=
  onHeap fun _ => failsOnly_ok _

theorem newTable (pairs : List (Bytes × Value)) : (Effect.newTable pairs).FailsOnly P :=
  onHeap fun _ => failsOnly_ok _

theorem readLine : Effect.readLine.FailsOnly P := fun _ => failsOnly_ok _

theorem bind (hx : x.FailsOnly P) (hf : ∀ a, (f a).FailsOnly P) : (x >>= f).FailsOnly P := by
  intro s
  have first := hx s
  rw [Mutation.bind_apply]
  split
  · next a t _ => exact hf a t
  · next r _ e =>
    rw [e] at first
    exact (failsOnly_error r).2 ((failsOnly_error r).1 first)

end Mutation.FailsOnly

namespace Value
open Report

variable {l : Location} {message hint : Bytes}

@[simp]
theorem ofRun_unfit : (unfit l message hint).OfRun l ↔ message ≠ [] ∧ hint ≠ [] :=
  ofRun_tell (by decide)

theorem ofRun_outOfBounds (container : Bytes) {empty : Bytes} (worded : empty ≠ []) (index : Int)
    (length : Nat) (l : Location) : (Heap.outOfBounds container empty index length l).OfRun l := by
  have plain (values : List (Bytes × Bytes)) : (fill .indexOutOfBounds l values).OfRun l :=
    ofRun_fill (by decide) (by decide)
  unfold Heap.outOfBounds
  split
  · exact ⟨(plain []).code, (plain _).message, worded, rfl⟩
  · exact plain _

@[simp]
theorem ofRun_outOfList (index : Int) (length : Nat) (l : Location) :
    (Heap.outOfList index length l).OfRun l :=
  ofRun_outOfBounds _ (by simp) index length l

theorem failsOnly_arithmetic (op : Operator) (m n : Number) (l : Location) :
    FailsOnly (OfRun l) (arithmetic op m n l) := by
  have division : (divisionByZero l).OfRun l := ofRun_fill (by decide) (by decide)
  cases op <;> simp only [arithmetic, failsOnly_ok] <;> split <;> simp [division]

theorem failsOnly_operate (h : Heap) (op : Operator) (a b : Value) (l : Location) :
    FailsOnly (OfRun l) (operate h op a b l) := by
  unfold operate
  split <;> try exact failsOnly_ok _
  split
  · exact failsOnly_arithmetic op _ _ l
  · exact (failsOnly_error _).2 (ofRun_operandTypes _ _ _ l _)

theorem failsOnly_negated (v : Value) (l : Location) : FailsOnly (OfRun l) (v.negated l) := by
  cases v <;> simp [negated]

theorem failsOnly_asNumber (v : Value) (l : Location) : FailsOnly (OfRun l) (v.asNumber l) := by
  cases v with
  | text s => simp only [asNumber]; split <;> simp
  | _ => simp [asNumber]

theorem failsOnly_convert (h : Heap) (v : Value) (type : TypeName) (l : Location) :
    FailsOnly (OfRun l) (v.convert h type l) := by
  cases type with
  | number => exact (failsOnly_map _ _).2 (failsOnly_asNumber v l)
  | text | boolean => exact failsOnly_ok _
  | list | table => simp only [convert]; split <;> simp

theorem failsOnly_withPlaces (h : Heap) (v places : Value) (l : Location) :
    FailsOnly (OfRun l) (v.withPlaces h places l) := by
  have bad (values : List (Bytes × Bytes)) : (fill .badPlaces l values).OfRun l :=
    ofRun_fill (by decide) (by decide)
  cases v with
  | number n =>
    cases places with
    | number p => simp only [withPlaces]; split <;> simp [bad]
    | _ => simp [withPlaces, bad]
  | _ => simp [withPlaces]

theorem failsOnly_lengthOf (h : Heap) (v : Value) (l : Location) :
    FailsOnly (OfRun l) (v.lengthOf h l) := by
  cases v <;> simp [lengthOf]

theorem failsOnly_characterAt (index v : Value) (l : Location) :
    FailsOnly (OfRun l) (characterAt index v l) := by
  unfold characterAt
  split
  · dsimp only
    split
    · exact failsOnly_ok _
    · exact (failsOnly_error _).2 (ofRun_outOfBounds _ (by simp) _ _ l)
  · simp
  · simp

theorem failsOnly_operateWord (h : Heap) (op : WordOperator) (a b : Value) (l : Location) :
    FailsOnly (OfRun l) (operateWord h op a b l) := by
  cases op with
  | addedTo => exact failsOnly_ok _
  | characterAt => exact (failsOnly_map _ _).2 (failsOnly_characterAt a b l)
  | splitBy => cases a <;> simp [operateWord, splitBy]
  | contains => cases a <;> simp [operateWord, contains]
  | startsWith => cases a <;> simp [operateWord, startsWith]
  | endsWith => cases a <;> simp [operateWord, endsWith]
  | isIn => cases b <;> simp [operateWord, isIn]

theorem failsOnly_load (h : Heap) (container key : Value) (l : Location) :
    FailsOnly (OfRun l) (load h container key l) := by
  cases container with
  | list id =>
    cases key with
    | number n => simp only [load, Heap.getItem]; split <;> simp
    | _ => simp [load, badListIndex]
  | table id =>
    simp only [load, Heap.getKey]
    split
    · exact failsOnly_ok _
    · exact (failsOnly_error _).2 (ofRun_fill (by decide) (by decide))
  | _ => simp [load]

theorem failsOnly_storing (container key v : Value) (l : Location) :
    (storing container key v l).FailsOnly (OfRun l) := by
  cases container with
  | list id =>
    cases key with
    | number n =>
      intro h
      rw [storing, Heap.settingItem_apply]
      split <;> simp
    | _ => exact .fail (by simp [badListIndex])
  | table id => exact .update _
  | _ => exact .fail (by simp)

theorem failsOnly_addingTo (list item : Value) (l : Location) :
    (addingTo list item l).FailsOnly (OfRun l) := by
  cases list with
  | list id => exact .update _
  | _ => exact .fail (by simp)

theorem failsOnly_removingFrom (list item : Value) (l : Location) :
    (removingFrom list item l).FailsOnly (OfRun l) := by
  cases list with
  | list id => exact fun _ => failsOnly_ok _
  | _ => exact .fail (by simp)

end Value

namespace Native
open Report Effect

variable {l : Location}

theorem failsOnly_textOf (v : Value) (task usage : Bytes) :
    (Text.textOf v task usage l).FailsOnly (OfRun l) := by
  cases v with
  | text s => exact .pure s
  | _ => exact .fail (by simp)

theorem failsOnly_boundOf (which : Bytes) (v : Value) :
    (Text.boundOf which v l).FailsOnly (OfRun l) := by
  cases v with
  | number n => exact .pure n
  | _ => exact .fail (by simp)

theorem failsOnly_pathOf (v : Value) (name usage : Bytes) :
    (File.pathOf v name usage l).FailsOnly (OfRun l) := by
  cases v with
  | text path => exact .pure path
  | _ => exact .fail (by simp)

theorem failsOnly_content (path : Bytes) {missing : Bytes} (worded : missing ≠ []) :
    (File.content path missing l).FailsOnly (OfRun l) := by
  intro w
  unfold File.content
  split <;> simp [worded]

theorem failsOnly_fileStore (change : Files → Option Files) {refused : Bytes}
    (worded : refused ≠ []) : (File.store change refused l).FailsOnly (OfRun l) := by
  intro w
  unfold File.store
  split <;> simp [worded]

theorem failsOnly_tablesOf (v : Value) : (File.tablesOf v l).FailsOnly (OfRun l) := by
  cases v with
  | list id =>
    refine .bind (.ask fun _ => failsOnly_ok _) fun items => ?_
    split
    · exact .pure _
    · exact .pure _
    · exact .fail (by simp)
  | _ => exact .fail (by simp)

theorem failsOnly_shown (v : Value) {f : Bytes → Effect α}
    (hf : ∀ s, (f s).FailsOnly (OfRun l)) :
    (Effect.ask (fun h => .ok (h.display v)) >>= f).FailsOnly (OfRun l) :=
  .bind (.ask fun _ => failsOnly_ok _) hf

theorem failsOnly_readCsv (path : Value) : (File.readCsv path l).FailsOnly (OfRun l) := by
  refine .bind (failsOnly_pathOf _ _ _) fun path => ?_
  refine .bind (failsOnly_content path (by simp)) fun text => ?_
  split
  · exact .fail (by simp)
  · exact .onHeap fun _ => failsOnly_ok _

theorem failsOnly_writeCsv (path data : Value) :
    (File.writeCsv path data l).FailsOnly (OfRun l) := by
  refine .bind (failsOnly_pathOf _ _ _) fun path => .bind (failsOnly_tablesOf data) fun items => ?_
  exact .bind (.ask fun _ => failsOnly_ok _) fun rows => failsOnly_fileStore _ (by simp)

theorem failsOnly_int (low high : Value) : (Draw.int low high l).FailsOnly (OfRun l) := by
  unfold Draw.int
  split
  · dsimp only
    split
    · exact .fail (by simp)
    · exact .bind (fun _ => failsOnly_ok _) fun _ => .pure _
  · exact .fail (by simp)

theorem failsOnly_choice (v : Value) : (Draw.choice v l).FailsOnly (OfRun l) := by
  cases v with
  | list id =>
    refine .bind (.ask fun _ => failsOnly_ok _) fun items => ?_
    split
    · exact .fail (by simp)
    · exact .bind (fun _ => failsOnly_ok _) fun _ => .pure _
  | _ => exact .fail (by simp)

theorem failsOnly_call {f : Native} {vs : List Value} {x : Effect Value}
    (h : f.call? vs l = some x) : x.FailsOnly (OfRun l) := by
  unfold call? at h
  split at h <;> cases h
  · exact .bind (failsOnly_textOf _ _ _) fun _ => .pure _
  · exact .bind (failsOnly_textOf _ _ _) fun _ => .pure _
  · exact .bind (failsOnly_textOf _ _ _) fun _ => .pure _
  · exact .bind (failsOnly_textOf _ _ _) fun _ => failsOnly_shown _ fun _ => .pure _
  · exact .bind (failsOnly_textOf _ _ _) fun _ => failsOnly_shown _ fun _ =>
      failsOnly_shown _ fun _ => .pure _
  · exact .bind (failsOnly_textOf _ _ _) fun _ => .bind (failsOnly_boundOf _ _) fun _ =>
      .bind (failsOnly_boundOf _ _) fun _ => .pure _
  · exact .bind (failsOnly_textOf _ _ _) fun _ => .newList _
  · exact failsOnly_int _ _
  · exact failsOnly_choice _
  · exact .bind (failsOnly_pathOf _ _ _) fun path =>
      .bind (failsOnly_content path (by simp)) fun _ => .pure _
  · exact .bind (failsOnly_pathOf _ _ _) fun _ => failsOnly_shown _ fun _ =>
      failsOnly_fileStore _ (by simp)
  · exact .bind (failsOnly_pathOf _ _ _) fun _ => failsOnly_shown _ fun _ =>
      failsOnly_fileStore _ (by simp)
  · exact .bind (failsOnly_pathOf _ _ _) fun _ _ => failsOnly_ok _
  · exact failsOnly_readCsv _
  · exact failsOnly_writeCsv _ _

end Native

end StepsLang
