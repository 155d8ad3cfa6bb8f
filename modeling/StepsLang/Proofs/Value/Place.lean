import StepsLang.Proofs.Value.Table
import StepsLang.Proofs.Value.Unfolding

namespace StepsLang

namespace Heap

variable {h : Heap} {id : Nat}

theorem position?_eq_some_iff {i : Int} {n j : Nat} :
    position? i n = some j ↔ (j : Int) = i ∧ j < n := by
  unfold position?
  split <;> simp <;> omega

theorem lt_size_lists {j : Nat} (inside : j < (h.items id).size) : id < h.lists.size := by
  rcases Nat.lt_or_ge id h.lists.size with there | beyond
  · exact there
  · simp [items, Nat.not_lt.2 beyond] at inside

theorem items_setItems (there : id < h.lists.size) (items : Array Value) :
    (h.setItems id items).items id = items := by
  simp [setItems, Heap.items, there]

end Heap

namespace Value
open Heap

inductive Place
  | position (i : Int)
  | entry (name : Bytes)
  deriving DecidableEq

def place? (h : Heap) (container key : Value) : Option Place :=
  match container, key with
  | .list _, .number n => some (.position n.toIndex)
  | .table _, key => some (.entry (h.display key))
  | _, _ => none

def read? (h : Heap) (container : Value) (p : Place) : Option Value :=
  match container, p with
  | .list id, .position i => (position? i (h.items id).size).bind fun j => (h.items id)[j]?
  | .table id, .entry name => (h.entries id).get? name
  | _, _ => none

variable {h h' : Heap} {c k v : Value} {l : Location} {id : Nat}

theorem load_toOption (h : Heap) (c k : Value) (l : Location) :
    (load h c k l).toOption = (place? h c k).bind (read? h c) := by
  cases c with
  | list id =>
    cases k with
    | number n =>
      simp only [load, place?, Option.bind_some, read?, getItem]
      cases found : position? n.toIndex (h.items id).size with
      | none => rfl
      | some j =>
        have inside := (position?_eq_some_iff.1 found).2
        simp [Except.toOption, inside]
    | _ => rfl
  | table id =>
    simp only [load, place?, Option.bind_some, read?]
    cases found : (h.entries id).get? (h.display k) with
    | none => rw [getKey, found]; rfl
    | some v => rw [getKey_eq_ok_iff.2 found]; rfl
  | _ => rfl

theorem load_eq_ok_iff : load h c k l = .ok v ↔ (place? h c k).bind (read? h c) = some v := by
  rw [← load_toOption h c k l]
  cases load h c k l <;> simp [Except.toOption]

theorem display_of_plain (plain : k.ref? = none) (h h' : Heap) : h'.display k = h.display k := by
  cases k <;> first | rfl | cases plain

structure Stored (h h' : Heap) (c k v : Value) : Prop where
  loads : ∀ l, load h' c k l = .ok v
  others : ∀ p, place? h c k ≠ some p → read? h' c p = read? h c p
  length : ∀ id, c = .list id → (h'.items id).size = (h.items id).size

theorem stored_setItem {i : Int} {n : Number} (index : n.toIndex = i)
    (done : h.setItem id i v l = .ok h') : Stored h h' (.list id) (.number n) v := by
  subst index
  rw [setItem_eq] at done
  split at done
  · next j found =>
    cases done
    obtain ⟨same, inside⟩ := position?_eq_some_iff.1 found
    have written := items_setItems (lt_size_lists inside) ((h.items id).setIfInBounds j v)
    have size : ((h.setItems id ((h.items id).setIfInBounds j v)).items id).size =
        (h.items id).size := by
      rw [written, Array.size_setIfInBounds]
    refine ⟨fun l => ?_, fun p other => ?_, fun _ e => ?_⟩
    · rw [load_eq_ok_iff]
      simp [place?, read?, found, written, inside]
    · cases p with
      | entry name => rfl
      | position i' =>
        simp only [read?, size]
        refine Option.bind_congr fun j' found' => ?_
        have apart : j ≠ j' := by
          rintro rfl
          exact other (by rw [place?, ← same, (position?_eq_some_iff.1 found').1])
        rw [written, Array.getElem?_setIfInBounds_ne apart]
    · cases e
      exact size
  · cases done

theorem stored_setKey (there : id < h.tables.size) (plain : k.ref? = none) (v : Value) :
    Stored h (h.setKey id (h.display k) v) (.table id) k v where
  loads l := by
    rw [load_eq_ok_iff]
    simp [place?, read?, entries_setKey there, Entries.get?_set, display_of_plain plain h]
  others p other := by
    cases p with
    | position i => rfl
    | entry name =>
      have apart : name ≠ h.display k := fun same => other (by rw [place?, same])
      simp [read?, entries_setKey there, Entries.get?_set, apart]
  length _ e := nomatch e

theorem keys_setKey (there : id < h.tables.size) (k v : Value) (l : Location) :
    ((h.setKey id (h.display k) v).entries id).keys =
      if (load h (.table id) k l).toOption.isSome then (h.entries id).keys
      else (h.entries id).keys ++ [h.display k] := by
  rw [entries_setKey there, Entries.keys_set, load_toOption]
  exact if_congr Entries.hasKey_iff.symm rfl rfl

theorem store_list_succeeds_iff :
    (∃ h', store h (.list id) k v l = .ok h') ↔ ∃ w, load h (.list id) k l = .ok w := by
  cases k with
  | number n =>
    simp only [store_eq, load, setItem_eq, getItem]
    split <;> simp
  | _ => simp [store_eq, load]

theorem load_written {env : Environment} {entries : List (Expression × Expression)} {w w' : World}
    (made : (Expression.table l entries).eval env w = (.ok c, w')) :
    ∃ pairs w₁, Expression.EntriesRun env entries w pairs w₁ ∧ ∀ k v l,
      load w'.heap c k l = .ok v ↔ Entries.LastSet pairs (w'.heap.display k) v := by
  obtain ⟨pairs, w₁, run, rfl, rfl⟩ := Expression.eval_table_eq_ok_iff.1 made
  refine ⟨pairs, w₁, run, fun k v l => ?_⟩
  rw [setKeys_newTable, load_eq_ok_iff, ← Entries.get?_ofList_iff]
  change ((w₁.heap.newTable pairs).2.entries w₁.heap.tables.size).get? _ = _ ↔ _
  rw [entries_newTable]

/-- What is put into a container under a key that is no container is read there, and every other
place of it reads as before. -/
theorem store_load :
    (∀ (h : Heap) (c k : Value) (l : Location),
      (load h c k l).toOption = (place? h c k).bind (read? h c)) ∧
    (∀ (h h' : Heap) (c k v : Value) (l : Location), k.ref? = none →
      (∀ id, c = .table id → id < h.tables.size) →
      store h c k v l = .ok h' → Stored h h' c k v) ∧
    (∀ (h : Heap) (id : Nat) (k v : Value) (l : Location),
      (∃ h', store h (.list id) k v l = .ok h') ↔ ∃ w, load h (.list id) k l = .ok w) ∧
    (∀ (h : Heap) (id : Nat) (k v : Value) (l : Location), id < h.tables.size →
      ∃ h', store h (.table id) k v l = .ok h' ∧ (h'.entries id).keys =
        if (load h (.table id) k l).toOption.isSome then (h.entries id).keys
        else (h.entries id).keys ++ [h.display k]) ∧
    (∀ (h : Heap) (c k v : Value) (l : Location), c.ref? = none →
      ∃ r r', load h c k l = .error r ∧ store h c k v l = .error r' ∧
        r.code = "E302" ∧ r'.code = "E302") ∧
    (∀ (h : Heap) (id : Nat) (k k' v : Value) (l : Location), h.display k' = h.display k →
      load h (.table id) k' l = load h (.table id) k l ∧
        store h (.table id) k' v l = store h (.table id) k v l) ∧
    ∀ (env : Environment) (l : Location) (entries : List (Expression × Expression)) (w w' : World)
      (c : Value), (Expression.table l entries).eval env w = (.ok c, w') →
      ∃ pairs w₁, Expression.EntriesRun env entries w pairs w₁ ∧ ∀ k v l,
        load w'.heap c k l = .ok v ↔ Entries.LastSet pairs (w'.heap.display k) v := by
  refine ⟨load_toOption, fun h h' c k v l plain known done => ?_,
    fun _ _ _ _ _ => store_list_succeeds_iff,
    fun h id k v l there => ⟨_, rfl, keys_setKey there k v l⟩, fun h c k v l none_ => ?_,
    fun h id k k' v l same => ?_, fun _ _ _ _ _ _ => load_written⟩
  · cases c with
    | list id =>
      cases k with
      | number n => exact stored_setItem rfl done
      | _ => cases done
    | table id =>
      cases done
      exact stored_setKey (known id rfl) plain v
    | _ => cases done
  · cases c with
    | list id | table id => cases none_
    | _ => exact ⟨_, _, rfl, rfl, rfl, rfl⟩
  · simp only [load, store_eq, same, and_self]

def cupboard : Heap :=
  let h := (Heap.empty.newList #[.number 10, .number 20]).2
  (h.newTable [("1", .text "one")]).2

theorem store_load_cupboard :
    (∃ h', store cupboard (.list 0) (.number 1) (.text "new") {} = .ok h' ∧
      Stored cupboard h' (.list 0) (.number 1) (.text "new")) ∧
    (∃ h', store cupboard (.table 0) (.number 1) (.text "new") {} = .ok h' ∧
      Stored cupboard h' (.table 0) (.number 1) (.text "new") ∧ (h'.entries 0).keys = ["1"] ∧
      load h' (.table 0) (.text "1") {} = .ok (.text "new")) ∧
    ∃ r r', load cupboard (.text "shelf") (.number 1) {} = .error r ∧
      store cupboard (.text "shelf") (.number 1) (.text "new") {} = .error r' ∧
      r.code = "E302" ∧ r'.code = "E302" := by
  obtain ⟨-, stored, listed, tabled, others, same, -⟩ := store_load
  refine ⟨?_, ?_, others cupboard (.text "shelf") (.number 1) (.text "new") {} rfl⟩
  · obtain ⟨h', done⟩ := (listed cupboard 0 (.number 1) (.text "new") {}).2 ⟨.number 20, rfl⟩
    exact ⟨h', done, stored _ _ _ _ _ _ rfl nofun done⟩
  · obtain ⟨h', done, keys⟩ := tabled cupboard 0 (.number 1) (.text "new") {} (by decide)
    have here := stored _ _ _ _ _ _ rfl (fun id e => by cases e; decide) done
    have text : h'.display (.text "1") = h'.display (.number 1) := by
      change ("1" : Bytes) = Number.text 1
      decide
    exact ⟨h', done, here, keys.trans (by decide),
      (same h' 0 _ _ .nothing {} text).1.trans (here.loads {})⟩

end Value

end StepsLang
