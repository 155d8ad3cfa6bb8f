import StepsLang.Native.Call
import StepsLang.Proofs.Recovery.Relocate

namespace StepsLang

def Report.relocate (f : Location → Location) (r : Report) : Report :=
  { r with location := f r.location }

section Except
variable (f : Report → Report)

@[simp] theorem mapError_ok (a : α) :
    (Except.ok a : Except Report α).mapError f = .ok a := rfl

@[simp] theorem mapError_error (r : Report) :
    (Except.error r : Except Report α).mapError f = .error (f r) := rfl

@[simp] theorem mapError_map (g : α → β) (x : Except Report α) :
    (g <$> x).mapError f = g <$> x.mapError f := by
  cases x <;> rfl

end Except

/-- What is told a place, and moves its report along with the place. -/
def Equivariant (x : Location → Except Report α) : Prop :=
  ∀ f l, x (f l) = (x l).mapError (Report.relocate f)

def Mutation.relocate (f : Location → Location) (x : Mutation S α) : Mutation S α :=
  fun s => ((x s).1.mapError (Report.relocate f), (x s).2)

namespace Effect
open Mutation

variable (f : Location → Location)

@[simp] theorem relocate_pure (a : α) : (pure a : Effect α).relocate f = pure a := rfl

@[simp] theorem relocate_ask (g : Heap → Except Report α) :
    (ask g).relocate f = ask fun h => (g h).mapError (Report.relocate f) := rfl

@[simp] theorem relocate_onHeap (g : Heap → Except Report (α × Heap)) :
    (onHeap g).relocate f = onHeap fun h => (g h).mapError (Report.relocate f) := by
  funext w
  simp only [relocate, onHeap]
  cases g w.heap <;> rfl

@[simp] theorem relocate_newList (items : List Value) :
    (newList items).relocate f = newList items := rfl

@[simp] theorem relocate_newTable (pairs : List (Bytes × Value)) :
    (newTable pairs).relocate f = newTable pairs := rfl

@[simp] theorem relocate_bind (x : Effect α) (k : α → Effect β) :
    (x >>= k).relocate f = x.relocate f >>= fun a => (k a).relocate f := by
  funext w
  simp only [relocate, bind_apply]
  rcases x w with ⟨r | a, w'⟩ <;> rfl

end Effect

namespace Report

variable (f : Location → Location) (l : Location)

theorem relocate_undefinedVariable (x : Bytes) (visible : List Bytes) :
    (undefinedVariable x l visible).relocate f = undefinedVariable x (f l) visible := by
  unfold undefinedVariable
  split <;> rfl

theorem relocate_undefinedStep (x : Bytes) (available : List Bytes) :
    (undefinedStep x l available).relocate f = undefinedStep x (f l) available := by
  unfold undefinedStep
  split <;> rfl

end Report

namespace Value
open Report

theorem equivariant_operate (h : Heap) (op : Operator) (a b : Value) :
    Equivariant (operate h op a b) := by
  intro f l
  have arithmetic (m n : Number) :
      arithmetic op m n (f l) = (arithmetic op m n l).mapError (relocate f) := by
    cases op with
    | divide | modulo =>
      simp only [Value.arithmetic]
      split <;> rfl
    | _ => rfl
  unfold operate
  split <;> try rfl
  split
  · exact arithmetic _ _
  · rfl

theorem equivariant_negated (v : Value) : Equivariant v.negated := by
  intro f l
  cases v <;> rfl

theorem equivariant_convert (h : Heap) (v : Value) (type : TypeName) :
    Equivariant (v.convert h type) := by
  intro f l
  have number : v.asNumber (f l) = (v.asNumber l).mapError (relocate f) := by
    cases v with
    | text s => simp only [asNumber]; split <;> rfl
    | _ => rfl
  cases type with
  | number => simp [convert, number]
  | text | boolean => rfl
  | list | table => simp only [convert]; split <;> rfl

theorem equivariant_withPlaces (h : Heap) (v places : Value) :
    Equivariant (v.withPlaces h places) := by
  intro f l
  cases v with
  | number n =>
    cases places with
    | number p => simp only [withPlaces]; split <;> rfl
    | _ => rfl
  | _ => rfl

theorem equivariant_lengthOf (h : Heap) (v : Value) : Equivariant (v.lengthOf h) := by
  intro f l
  cases v <;> rfl

theorem relocate_outOfBounds (container empty : Bytes) (index : Int) (length : Nat)
    (f : Location → Location) (l : Location) :
    (Heap.outOfBounds container empty index length l).relocate f =
      Heap.outOfBounds container empty index length (f l) := by
  unfold Heap.outOfBounds
  split <;> rfl

theorem equivariant_characterAt (index v : Value) : Equivariant (characterAt index v) := by
  intro f l
  unfold characterAt
  split
  · dsimp only
    split
    · rfl
    · rw [mapError_error, relocate_outOfBounds]
  · rfl
  · rfl

theorem equivariant_operateWord (h : Heap) (op : WordOperator) (a b : Value) :
    Equivariant (operateWord h op a b) := by
  intro f l
  cases op with
  | addedTo => rfl
  | characterAt => simp [operateWord, equivariant_characterAt a b f l]
  | isIn => cases b <;> rfl
  | _ => cases a <;> rfl

theorem equivariant_load (h : Heap) (container key : Value) :
    Equivariant (load h container key) := by
  intro f l
  cases container with
  | list id =>
    cases key with
    | number n =>
      simp only [load, Heap.getItem]
      split
      · rfl
      · rw [mapError_error, Heap.outOfList, Heap.outOfList, relocate_outOfBounds]
    | _ => rfl
  | table id =>
    simp only [load, Heap.getKey]
    split <;> rfl
  | _ => rfl

variable (f : Location → Location) (l : Location)

theorem relocate_storing (container key v : Value) :
    (storing container key v l).relocate f = storing container key v (f l) := by
  cases container with
  | list id =>
    cases key with
    | number n =>
      funext h
      simp only [Mutation.relocate, storing, Heap.settingItem_apply]
      split
      · rfl
      · rw [mapError_error, Heap.outOfList, Heap.outOfList, relocate_outOfBounds]
    | _ => rfl
  | _ => rfl

theorem relocate_addingTo (list item : Value) :
    (addingTo list item l).relocate f = addingTo list item (f l) := by
  cases list <;> rfl

theorem relocate_removingFrom (list item : Value) :
    (removingFrom list item l).relocate f = removingFrom list item (f l) := by
  cases list <;> rfl

end Value

namespace Native
open Effect

variable (f : Location → Location) (l : Location)

@[simp] theorem relocate_textOf (v : Value) (task usage : Bytes) :
    (Text.textOf v task usage l).relocate f = Text.textOf v task usage (f l) := by
  cases v <;> rfl

@[simp] theorem relocate_boundOf (which : Bytes) (v : Value) :
    (Text.boundOf which v l).relocate f = Text.boundOf which v (f l) := by
  cases v <;> rfl

@[simp] theorem relocate_pathOf (v : Value) (name usage : Bytes) :
    (File.pathOf v name usage l).relocate f = File.pathOf v name usage (f l) := by
  cases v <;> rfl

@[simp] theorem relocate_content (path missing : Bytes) :
    (File.content path missing l).relocate f = File.content path missing (f l) := by
  funext w
  unfold Mutation.relocate File.content
  split <;> rfl

@[simp] theorem relocate_store (change : Files → Option Files) (refused : Bytes) :
    (File.store change refused l).relocate f = File.store change refused (f l) := by
  funext w
  unfold Mutation.relocate File.store
  split <;> rfl

@[simp] theorem relocate_below (n : Nat) : (Draw.below n).relocate f = Draw.below n := rfl

theorem relocate_tablesOf (v : Value) :
    (File.tablesOf v l).relocate f = File.tablesOf v (f l) := by
  cases v with
  | list id =>
    simp only [File.tablesOf, relocate_bind, relocate_ask, mapError_ok]
    congr 1
    funext items
    split <;> rfl
  | _ => rfl

theorem relocate_present (path : Value) :
    (File.present path l).relocate f = File.present path (f l) := by
  cases path <;> rfl

theorem relocate_readCsv (path : Value) :
    (File.readCsv path l).relocate f = File.readCsv path (f l) := by
  simp only [File.readCsv, relocate_bind, relocate_pathOf, relocate_content]
  congr 1
  funext path
  congr 1
  funext text
  split
  · rfl
  · exact relocate_onHeap f _

theorem relocate_int (low high : Value) :
    (Draw.int low high l).relocate f = Draw.int low high (f l) := by
  unfold Draw.int
  split
  · dsimp only
    split
    · rfl
    · simp
  · rfl

theorem relocate_choice (v : Value) : (Draw.choice v l).relocate f = Draw.choice v (f l) := by
  cases v with
  | list id =>
    simp only [Draw.choice, relocate_bind, relocate_ask, mapError_ok]
    congr 1
    funext items
    split
    · rfl
    · simp
  | _ => rfl

theorem call?_relocate (n : Native) (vs : List Value) :
    n.call? vs (f l) = (n.call? vs l).map (Mutation.relocate f) := by
  unfold call?
  split <;> simp only [Option.map_some, Option.map_none, Option.some.injEq]
  case h_8 => exact (relocate_int f l _ _).symm
  case h_9 => exact (relocate_choice f l _).symm
  case h_13 => exact (relocate_present f l _).symm
  case h_14 => exact (relocate_readCsv f l _).symm
  case h_15 =>
    simp only [File.writeCsv, relocate_bind, relocate_pathOf, relocate_tablesOf, relocate_ask,
      mapError_ok, relocate_store]
  all_goals
    simp [Text.uppercase, Text.lowercase, Text.trim, Text.indexOf, Text.replace, Text.slice,
      Text.characters, File.read, File.write, File.append]

end Native

end StepsLang
