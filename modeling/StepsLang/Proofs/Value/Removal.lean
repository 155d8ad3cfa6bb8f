import Mathlib.Data.List.Basic
import StepsLang.Proofs.Value.Likeness
import StepsLang.Proofs.Value.Place

namespace StepsLang

theorem exists_split_of_findIdx? {α : Type _} {p : α → Bool} {xs : List α} {i : Nat}
    (found : xs.findIdx? p = some i) :
    ∃ before x after, xs = before ++ x :: after ∧ (∀ y ∈ before, p y = false) ∧ p x = true ∧
      xs.eraseIdx i = before ++ after := by
  obtain ⟨inside, here, first⟩ := List.findIdx?_eq_some_iff_getElem.1 found
  refine ⟨xs.take i, xs[i], xs.drop (i + 1), ?_, fun y hy => ?_, here,
    List.eraseIdx_eq_take_drop_succ ..⟩
  · rw [List.getElem_cons_drop, List.take_append_drop]
  · obtain ⟨j, hj, rfl⟩ := List.getElem_of_mem hy
    rw [List.length_take] at hj
    rw [List.getElem_take]
    exact Bool.eq_false_iff.2 (first j (by omega))

namespace Heap

variable {h : Heap} {id : Nat} {v : Value}

theorem items_addItem (there : id < h.lists.size) (v : Value) :
    (h.addItem id v).items id = (h.items id).push v := by
  simp [addItem, items, there, Array.getElem_modify]

theorem items_setItems_ne {j : Nat} (other : j ≠ id) (items : Array Value) :
    (h.setItems id items).items j = h.items j := by
  simp [setItems, Heap.items, Array.getElem?_setIfInBounds_ne other.symm]

structure TakenOut (h h' : Heap) (id : Nat) (v : Value) : Prop where
  items : ∃ before x after, (h.items id).toList = before ++ x :: after ∧
    (∀ y ∈ before, h.equal y v = false) ∧ h.equal x v = true ∧
    (h'.items id).toList = before ++ after
  lists : ∀ j, j ≠ id → h'.items j = h.items j
  tables : h'.tables = h.tables

theorem TakenOut.size {h' : Heap} (taken : h.TakenOut h' id v) :
    (h'.items id).size + 1 = (h.items id).size := by
  obtain ⟨before, x, after, whole, -, -, rest⟩ := taken.items
  rw [← Array.length_toList, ← Array.length_toList, whole, rest]
  simp [Nat.add_assoc]

theorem containsItem_of_mem (own : h.equal v v = true) (there : v ∈ h.items id) :
    h.containsItem id v = true :=
  List.any_eq_true.2 ⟨v, Array.mem_toList_iff.2 there, own⟩

theorem removeItem_of_contains (has : h.containsItem id v = true) :
    ∃ h', h.removeItem id v = (true, h') ∧ h.TakenOut h' id v := by
  rw [containsItem, ← List.findIdx?_isSome, Option.isSome_iff_exists] at has
  obtain ⟨i, found⟩ := has
  obtain ⟨before, x, after, whole, others, here, rest⟩ := exists_split_of_findIdx? found
  have inside : i < (h.items id).size := (List.findIdx?_eq_some_iff_getElem.1 found).1
  refine ⟨_, by rw [removeItem, found], ⟨before, x, after, whole, others, here, ?_⟩,
    fun j other => items_setItems_ne other _, rfl⟩
  rw [items_setItems (lt_size_lists inside), Array.eraseIdxIfInBounds, dif_pos inside,
    Array.toList_eraseIdx, rest]

theorem removeItem_of_not_contains (lacks : h.containsItem id v = false) :
    h.removeItem id v = (false, h) := by
  rw [removeItem, List.findIdx?_eq_none_iff.2 fun x hx => ?_]
  simpa using List.any_eq_false.1 lacks x hx

end Heap

namespace Value

/-- Whatever a list holds, a value that is added to it and then removed leaves it as long as it was,
except for the number that equals nothing. -/
theorem add_then_remove :
    (∀ (h : Heap) (id : Nat) (v : Value) (l : Location), id < h.lists.size →
      (∀ n, v = .number n → n.isNaN = false) →
      ∃ added removed, addTo h (.list id) v l = .ok added ∧
        removeFrom added (.list id) v l = .ok (true, removed) ∧
        (removed.items id).size = (h.items id).size ∧ added.TakenOut removed id v) ∧
    ∀ (h : Heap) (id : Nat) (v : Value) (l : Location), ∃ found removed,
      contains h (.list id) v l = .ok (.boolean found) ∧
        removeFrom h (.list id) v l = .ok (found, removed) ∧
        (found = true → h.TakenOut removed id v) ∧ (found = false → removed = h) := by
  refine ⟨fun h id v l there isNumber => ?_, fun h id v l => ?_⟩
  · have pushed := Heap.items_addItem there v
    have has : (h.addItem id v).containsItem id v = true :=
      Heap.containsItem_of_mem ((Heap.equal_self v).2 isNumber) (by simp [pushed])
    obtain ⟨removed, done, taken⟩ := Heap.removeItem_of_contains has
    have size : (removed.items id).size + 1 = (h.items id).size + 1 := by
      rw [taken.size, pushed, Array.size_push]
    exact ⟨_, removed, rfl, congrArg Except.ok done, Nat.succ.inj size, taken⟩
  · cases has : h.containsItem id v with
    | true =>
      obtain ⟨removed, done, taken⟩ := Heap.removeItem_of_contains has
      exact ⟨true, removed, by rw [contains, has], congrArg Except.ok done, fun _ => taken, nofun⟩
    | false =>
      have done := Heap.removeItem_of_not_contains has
      exact ⟨false, h, by rw [contains, has], congrArg Except.ok done, nofun, fun _ => rfl⟩

def ring : Heap := (Heap.empty.newList #[.number 1, .list 0]).2

theorem add_then_remove_ring :
    0 < ring.lists.size ∧ (∀ n, Value.list 0 = .number n → n.isNaN = false) ∧
      ∃ added removed, addTo ring (.list 0) (.list 0) {} = .ok added ∧
        removeFrom added (.list 0) (.list 0) {} = .ok (true, removed) ∧
        (removed.items 0).size = 2 ∧ added.TakenOut removed 0 (.list 0) :=
  ⟨by decide, nofun, add_then_remove.1 ring 0 (.list 0) {} (by decide) nofun⟩

/-- The number that is none is not found where it was added. -/
theorem nan_not_removed :
    let h := (Heap.empty.newList #[]).2
    let v : Value := .number (Number.nan false)
    ∃ added, addTo h (.list 0) v {} = .ok added ∧
      removeFrom added (.list 0) v {} = .ok (false, added) ∧
      (h.items 0).size = 0 ∧ (added.items 0).size = 1 := by
  intro h v
  have lacks : (h.addItem 0 v).containsItem 0 v = false := by decide +kernel
  exact ⟨_, rfl, congrArg Except.ok (Heap.removeItem_of_not_contains lacks), rfl, rfl⟩

end Value

end StepsLang
