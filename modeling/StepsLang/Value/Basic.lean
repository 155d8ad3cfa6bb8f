import StepsLang.Bytes
import StepsLang.Number.Basic

/-!
Values, and the heap that lists and tables live on. A list or table value is a reference, so two
variables can share one container, and a container can hold itself.
-/

namespace StepsLang

inductive Value
  | nothing
  | number (n : Number)
  | text (s : Bytes)
  | boolean (b : Bool)
  | list (id : Nat)
  | table (id : Nat)
  deriving DecidableEq, Repr, Inhabited

inductive Ref
  | list (id : Nat)
  | table (id : Nat)
  deriving DecidableEq, Repr

def Value.typeName : Value → Bytes
  | .nothing => "nothing"
  | .number _ => "number"
  | .text _ => "text"
  | .boolean _ => "boolean"
  | .list _ => "list"
  | .table _ => "table"

abbrev Entries := List (Bytes × Value)

namespace Entries

def get? (es : Entries) (key : Bytes) : Option Value := es.lookup key

def set (es : Entries) (key : Bytes) (v : Value) : Entries :=
  match es with
  | [] => [(key, v)]
  | (k, old) :: rest => if k == key then (k, v) :: rest else (k, old) :: set rest key v

def ofList (pairs : List (Bytes × Value)) : Entries :=
  pairs.foldl (fun es e => es.set e.1 e.2) []

def keys (es : Entries) : List Bytes := es.map (·.1)

def hasKey (es : Entries) (key : Bytes) : Bool := (es.get? key).isSome

theorem keys_set (es : Entries) (key : Bytes) (v : Value) :
    (es.set key v).keys = if key ∈ es.keys then es.keys else es.keys ++ [key] := by
  induction es with
  | nil => rfl
  | cons e rest ih =>
    obtain ⟨k, old⟩ := e
    by_cases same : k = key
    · simp [set, keys, same]
    · have other : key ≠ k := fun eq => same eq.symm
      simp only [keys] at ih
      by_cases there : key ∈ rest.map (·.1)
      · simp [set, keys, same, ih, there]
      · simp [set, keys, same, other, ih, there]

theorem nodup_set {es : Entries} (h : es.keys.Nodup) (key : Bytes) (v : Value) :
    (es.set key v).keys.Nodup := by
  rw [keys_set]
  split
  · exact h
  · next fresh => exact List.nodup_append.2 ⟨h, by simp, by grind⟩

theorem nodup_ofList (pairs : List (Bytes × Value)) : (ofList pairs).keys.Nodup := by
  suffices ∀ es : Entries, es.keys.Nodup →
      (pairs.foldl (fun es e => es.set e.1 e.2) es).keys.Nodup from this [] List.nodup_nil
  induction pairs with
  | nil => exact fun _ h => h
  | cons e rest ih => exact fun es h => ih _ (nodup_set h e.1 e.2)

end Entries

structure Table where
  entries : Entries
  distinct : entries.keys.Nodup
  deriving Repr

namespace Table

def ofList (pairs : List (Bytes × Value)) : Table := ⟨.ofList pairs, Entries.nodup_ofList pairs⟩

@[simp] theorem entries_ofList (pairs : List (Bytes × Value)) :
    (ofList pairs).entries = .ofList pairs := rfl

instance : Inhabited Table := ⟨.ofList []⟩

def set (t : Table) (key : Bytes) (v : Value) : Table :=
  ⟨t.entries.set key v, Entries.nodup_set t.distinct key v⟩

@[simp] theorem entries_set (t : Table) (key : Bytes) (v : Value) :
    (t.set key v).entries = t.entries.set key v := rfl

end Table

structure Heap where
  lists : Array (Array Value) := #[]
  tables : Array Table := #[]
  deriving Repr, Inhabited

namespace Heap

def empty : Heap := {}

def items (h : Heap) (id : Nat) : Array Value := h.lists.getD id #[]

def entries (h : Heap) (id : Nat) : Entries := (h.tables.getD id default).entries

theorem nodup_keys (h : Heap) (id : Nat) : (h.entries id).keys.Nodup :=
  (h.tables.getD id default).distinct

def newList (h : Heap) (items : Array Value) : Value × Heap :=
  (.list h.lists.size, { h with lists := h.lists.push items })

def newTable (h : Heap) (pairs : List (Bytes × Value)) : Value × Heap :=
  (.table h.tables.size, { h with tables := h.tables.push (.ofList pairs) })

def setItems (h : Heap) (id : Nat) (items : Array Value) : Heap :=
  { h with lists := h.lists.setIfInBounds id items }

def addItem (h : Heap) (id : Nat) (v : Value) : Heap :=
  { h with lists := h.lists.modify id (·.push v) }

def setKey (h : Heap) (id : Nat) (key : Bytes) (v : Value) : Heap :=
  { h with tables := h.tables.modify id (·.set key v) }

def refs (h : Heap) : List Ref :=
  (List.range h.lists.size).map Ref.list ++ (List.range h.tables.size).map Ref.table

theorem list_mem_refs {h : Heap} {id : Nat} {v : Value} (hv : v ∈ h.items id) :
    Ref.list id ∈ h.refs := by
  have : id < h.lists.size := by
    rcases Nat.lt_or_ge id h.lists.size with hlt | hge
    · exact hlt
    · simp [items, Array.getD, Nat.not_lt.2 hge] at hv
  simp [refs, this]

theorem table_mem_refs {h : Heap} {id : Nat} {e : Bytes × Value} (he : e ∈ h.entries id) :
    Ref.table id ∈ h.refs := by
  have : id < h.tables.size := by
    rcases Nat.lt_or_ge id h.tables.size with hlt | hge
    · exact hlt
    · have none : h.entries id = [] := by
        rw [entries, Array.getD, dif_neg (Nat.not_lt.2 hge)]
        rfl
      simp [none] at he
  simp [refs, this]

end Heap

end StepsLang
