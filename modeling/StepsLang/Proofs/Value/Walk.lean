import StepsLang.Value.Equality
import StepsLang.Value.Tree

namespace StepsLang.Heap

def unfoldWithin (h : Heap) : Nat → List Ref → Value → Option Tree
  | 0, _, _ => none
  | n + 1, path, .list id =>
    if .list id ∈ path then some .cycle
    else .list <$> (h.items id).toList.mapM (h.unfoldWithin n (.list id :: path))
  | n + 1, path, .table id =>
    if .table id ∈ path then some .cycle
    else .table <$> (h.entries id).mapM fun (key, v) =>
      (key, ·) <$> h.unfoldWithin n (.table id :: path) v
  | _ + 1, _, v => some (.leaf v)

def equalWithin (h : Heap) : Nat → List (Ref × Ref) → Value → Value → Option Bool
  | 0, _, _, _ => none
  | n + 1, path, .list i, .list j =>
    if i = j || path.contains (.list i, .list j) then some true
    else if (h.items i).size ≠ (h.items j).size then some false
    else ((h.items i).toList.zip (h.items j).toList).allM fun e =>
      h.equalWithin n ((.list i, .list j) :: path) e.1 e.2
  | n + 1, path, .table i, .table j =>
    if i = j || path.contains (.table i, .table j) then some true
    else if (h.entries i).length ≠ (h.entries j).length then some false
    else (h.entries i).allM fun e =>
      ((h.entries j).find? (·.1 == e.1)).elim (some false) fun found =>
        h.equalWithin n ((.table i, .table j) :: path) e.2 found.2
  | _ + 1, path, v, w => some (h.equalOn path v w)

theorem mapM_of_forall {f : α → Option β} {g : α → β} {xs : List α}
    (h : ∀ x ∈ xs, f x = some (g x)) : xs.mapM f = some (xs.map g) := by
  induction xs with
  | nil => rfl
  | cons x xs ih =>
    have first := h x (by simp)
    have rest := ih fun y hy => h y (by simp [hy])
    simp [List.mapM_cons, first, rest]

theorem allM_of_forall {f : α → Option Bool} {g : α → Bool} {xs : List α}
    (h : ∀ x ∈ xs, f x = some (g x)) : xs.allM f = some (xs.all g) := by
  induction xs with
  | nil => rfl
  | cons x xs ih =>
    have first := h x (by simp)
    have rest := ih fun y hy => h y (by simp [hy])
    cases e : g x with
    | false => simp [List.allM, first, e]
    | true => simp [List.allM, first, rest, e]

theorem all_attach (xs : List α) (p : α → Bool) : (xs.attach.all fun x => p x.1) = xs.all p := by
  calc (xs.attach.all fun x => p x.1)
      = (xs.attach.map Subtype.val).all p := List.all_map.symm
    _ = xs.all p := by rw [List.attach_map_subtype_val]

theorem unfold_list (h : Heap) (path : List Ref) (id : Nat) :
    h.unfold path (.list id) =
      if .list id ∈ path then .cycle
      else .list ((h.items id).toList.map (h.unfold (.list id :: path))) := by
  rw [unfold]
  simp

theorem unfold_table (h : Heap) (path : List Ref) (id : Nat) :
    h.unfold path (.table id) =
      if .table id ∈ path then .cycle
      else .table ((h.entries id).map fun e => (e.1, h.unfold (.table id :: path) e.2)) := by
  rw [unfold, ← List.attach_map_val (l := h.entries id)]
  rfl

theorem equalOn_list (h : Heap) (path : List (Ref × Ref)) (i j : Nat) :
    h.equalOn path (.list i) (.list j) =
      if i = j ∨ (.list i, .list j) ∈ path then true
      else (h.items i).size == (h.items j).size &&
        ((h.items i).toList.zip (h.items j).toList).all fun e =>
          h.equalOn ((.list i, .list j) :: path) e.1 e.2 := by
  rw [equalOn]
  by_cases same : i = j
  · simp [same]
  · simp only [same, if_false, false_or, dite_eq_ite]
    rw [← all_attach (_ : List (Value × Value))]

def hasEqual (h : Heap) (path : List (Ref × Ref)) (j : Nat) (e : Bytes × Value) : Bool :=
  ((h.entries j).find? (·.1 == e.1)).any fun found => h.equalOn path e.2 found.2

theorem equalOn_table (h : Heap) (path : List (Ref × Ref)) (i j : Nat) :
    h.equalOn path (.table i) (.table j) =
      if i = j ∨ (.table i, .table j) ∈ path then true
      else (h.entries i).length == (h.entries j).length &&
        (h.entries i).all (h.hasEqual ((.table i, .table j) :: path) j) := by
  rw [equalOn]
  by_cases same : i = j
  · simp [same]
  · simp only [same, if_false, false_or, dite_eq_ite]
    rw [← all_attach (_ : List (Bytes × Value)) (h.hasEqual _ _)]
    congr
    funext e
    obtain ⟨e, he⟩ := e
    simp only [hasEqual]
    split
    · next found => rw [found, Option.any_none]
    · next found => rw [found, Option.any_some]

theorem unfoldWithin_eq {h : Heap} {n : Nat} {path : List Ref}
    (hn : (unseen h.refs path).length < n) (v : Value) :
    h.unfoldWithin n path v = some (h.unfold path v) := by
  induction n generalizing path v with
  | zero => omega
  | succ n ih =>
    cases v with
    | list id =>
      rw [unfoldWithin, unfold_list]
      split
      · rfl
      · next fresh =>
        rw [mapM_of_forall fun v hv => ih ?_ v]
        · rfl
        · have fewer := unseen_cons_lt (list_mem_refs (Array.mem_toList_iff.1 hv)) fresh
          omega
    | table id =>
      rw [unfoldWithin, unfold_table]
      split
      · rfl
      · next fresh =>
        have each (e : Bytes × Value) (he : e ∈ h.entries id) :
            (e.1, ·) <$> h.unfoldWithin n (.table id :: path) e.2 =
              some (e.1, h.unfold (.table id :: path) e.2) := by
          have fewer := unseen_cons_lt (table_mem_refs he) fresh
          rw [ih (by omega)]
          rfl
        rw [mapM_of_forall each]
        rfl
    | _ => simp [unfoldWithin, unfold]

section

variable {h : Heap} {n : Nat} {path : List (Ref × Ref)}

theorem equalWithin_list (ih : ∀ path, (unseen h.refPairs path).length < n → ∀ v w,
      h.equalWithin n path v w = some (h.equalOn path v w))
    (hn : (unseen h.refPairs path).length < n + 1) (i j : Nat) :
    h.equalWithin (n + 1) path (.list i) (.list j) =
      some (h.equalOn path (.list i) (.list j)) := by
  rw [equalWithin, equalOn_list]
  simp only [Bool.or_eq_true, decide_eq_true_eq, List.contains_iff_mem]
  split
  · rfl
  · next fresh =>
    by_cases size : (h.items i).size = (h.items j).size
    · have each (e : Value × Value) (he : e ∈ (h.items i).toList.zip (h.items j).toList) :
          h.equalWithin n ((.list i, .list j) :: path) e.1 e.2 =
            some (h.equalOn ((.list i, .list j) :: path) e.1 e.2) := by
        have ⟨hv, hw⟩ := List.of_mem_zip he
        have fewer := unseen_cons_lt (mem_refPairs (list_mem_refs (Array.mem_toList_iff.1 hv))
          (list_mem_refs (Array.mem_toList_iff.1 hw))) fun met => fresh (.inr met)
        exact ih _ (by omega) _ _
      simp [size, allM_of_forall each]
    · simp [size]

theorem equalWithin_table (ih : ∀ path, (unseen h.refPairs path).length < n → ∀ v w,
      h.equalWithin n path v w = some (h.equalOn path v w))
    (hn : (unseen h.refPairs path).length < n + 1) (i j : Nat) :
    h.equalWithin (n + 1) path (.table i) (.table j) =
      some (h.equalOn path (.table i) (.table j)) := by
  rw [equalWithin, equalOn_table]
  simp only [Bool.or_eq_true, decide_eq_true_eq, List.contains_iff_mem]
  split
  · rfl
  · next fresh =>
    by_cases size : (h.entries i).length = (h.entries j).length
    · have each (e : Bytes × Value) (he : e ∈ h.entries i) :
          (((h.entries j).find? (·.1 == e.1)).elim (some false) fun found =>
            h.equalWithin n ((.table i, .table j) :: path) e.2 found.2) =
              some (h.hasEqual ((.table i, .table j) :: path) j e) := by
        rw [hasEqual]
        cases found : (h.entries j).find? (·.1 == e.1) with
        | none => rfl
        | some other =>
          have there := List.mem_of_find?_eq_some found
          have fewer := unseen_cons_lt (mem_refPairs (table_mem_refs he)
            (table_mem_refs there)) fun met => fresh (.inr met)
          exact ih _ (by omega) _ _
      rw [if_neg (by simp [size]), allM_of_forall each]
      simp [size]
    · simp [size]

theorem equalWithin_eq (hn : (unseen h.refPairs path).length < n) (v w : Value) :
    h.equalWithin n path v w = some (h.equalOn path v w) := by
  induction n generalizing path v w with
  | zero => omega
  | succ n ih =>
    have within : ∀ path, (unseen h.refPairs path).length < n → ∀ v w,
        h.equalWithin n path v w = some (h.equalOn path v w) := fun _ hn => ih hn
    cases v with
    | list i =>
      cases w with
      | list j => exact equalWithin_list within hn i j
      | _ => rfl
    | table i =>
      cases w with
      | table j => exact equalWithin_table within hn i j
      | _ => rfl
    | _ => rfl

end

end StepsLang.Heap
