import Mathlib.Data.Finset.Card
import Mathlib.Data.List.Induction
import StepsLang.Expression.Evaluation
import StepsLang.Proofs.List
import StepsLang.Proofs.Value.Likeness

namespace StepsLang

namespace Entries

variable {es : Entries} {pairs : List (Bytes × Value)} {key k : Bytes} {v : Value}

theorem get?_cons (l : Bytes) (old : Value) (rest : Entries) (k : Bytes) :
    get? ((l, old) :: rest) k = if k = l then some old else rest.get? k := by
  by_cases same : k = l
  · simp [get?, same]
  · simp [get?, List.lookup_cons, beq_false_of_ne same, same]

theorem get?_set (es : Entries) (key : Bytes) (v : Value) (k : Bytes) :
    (es.set key v).get? k = if k = key then some v else es.get? k := by
  induction es with
  | nil => exact get?_cons key v [] k
  | cons e rest ih =>
    obtain ⟨l, old⟩ := e
    by_cases here : l = key
    · subst here
      by_cases same : k = l <;> simp [set, get?_cons, same]
    · by_cases first : k = l
      · subst first
        simp [set, get?_cons, here]
      · simp [set, get?_cons, here, first, ih]

theorem hasKey_iff : es.hasKey key = true ↔ key ∈ es.keys := by
  rw [hasKey, get?, Option.isSome_iff_ne_none, ne_eq, List.lookup_eq_none_iff, keys, List.mem_map]
  grind

theorem ofList_concat (pairs : List (Bytes × Value)) (e : Bytes × Value) :
    ofList (pairs ++ [e]) = (ofList pairs).set e.1 e.2 := by
  simp [ofList]

theorem mem_keys_ofList : key ∈ (ofList pairs).keys ↔ key ∈ pairs.map (·.1) := by
  induction pairs using List.reverseRecOn with
  | nil => rfl
  | append_singleton pairs e ih =>
    rw [ofList_concat, keys_set]
    split <;> grind

theorem keys_ofList_ordered (pairs : List (Bytes × Value)) :
    (ofList pairs).keys.Pairwise fun k l =>
      (pairs.map (·.1)).idxOf k < (pairs.map (·.1)).idxOf l := by
  induction pairs using List.reverseRecOn with
  | nil => exact List.Pairwise.nil
  | append_singleton pairs e ih =>
    -- The place of a key that was there is the same among more pairs.
    have place {k} (there : k ∈ (ofList pairs).keys) :
        ((pairs ++ [e]).map (·.1)).idxOf k = (pairs.map (·.1)).idxOf k := by
      rw [List.map_append, List.idxOf_append_of_mem (mem_keys_ofList.1 there)]
    have before : (ofList pairs).keys.Pairwise fun k l =>
        ((pairs ++ [e]).map (·.1)).idxOf k < ((pairs ++ [e]).map (·.1)).idxOf l :=
      ih.imp_of_mem fun hk hl less => by rwa [place hk, place hl]
    rw [ofList_concat, keys_set]
    split
    · exact before
    · next fresh =>
      refine List.pairwise_append.2 ⟨before, List.pairwise_singleton _ _, fun k hk l hl => ?_⟩
      have absent : e.1 ∉ pairs.map (·.1) := fun there => fresh (mem_keys_ofList.2 there)
      rw [List.mem_singleton.1 hl, place hk, List.map_append,
        List.idxOf_append_of_notMem absent]
      exact Nat.lt_add_right _ (List.idxOf_lt_length_iff.2 (mem_keys_ofList.1 hk))

theorem length_ofList (pairs : List (Bytes × Value)) :
    (ofList pairs).length = (pairs.map (·.1)).toFinset.card := by
  have same : (pairs.map (·.1)).toFinset = (ofList pairs).keys.toFinset := by
    ext key
    rw [List.mem_toFinset, List.mem_toFinset, mem_keys_ofList]
  rw [same, List.toFinset_card_of_nodup (nodup_ofList pairs), keys, List.length_map]

/-- The last of the pairs with this key has this value. -/
def LastSet (pairs : List (Bytes × Value)) (key : Bytes) (v : Value) : Prop :=
  ∃ before after, pairs = before ++ (key, v) :: after ∧ key ∉ after.map (·.1)

theorem lastSet_concat {e : Bytes × Value} :
    LastSet (pairs ++ [e]) key v ↔ if key = e.1 then e.2 = v else LastSet pairs key v := by
  constructor
  · rintro ⟨before, after, whole, none_⟩
    rcases append_eq_append_cons whole with ⟨more, rfl, rfl⟩ | ⟨more, rfl, back⟩
    · have later : key ∉ more.map (·.1) ∧ key ≠ e.1 := by simpa using none_
      rw [if_neg later.2]
      exact ⟨before, more, rfl, later.1⟩
    · cases more with
      | nil =>
        obtain ⟨rfl, -⟩ := List.cons.inj back
        rw [if_pos rfl]
      | cons _ _ => simp at back
  · intro last
    split at last
    · next same =>
      subst same
      subst last
      exact ⟨pairs, [], rfl, by simp⟩
    · next other =>
      obtain ⟨before, after, rfl, none_⟩ := last
      exact ⟨before, after ++ [e], by simp, by simpa using ⟨by simpa using none_, other⟩⟩

theorem get?_ofList_iff : (ofList pairs).get? key = some v ↔ LastSet pairs key v := by
  induction pairs using List.reverseRecOn with
  | nil =>
    refine ⟨nofun, ?_⟩
    rintro ⟨before, after, whole, -⟩
    simp at whole
  | append_singleton pairs e ih =>
    rw [ofList_concat, get?_set, lastSet_concat]
    split
    · exact Option.some_inj
    · exact ih

end Entries

namespace Heap

variable {h : Heap} {id : Nat}

def setKeys (h : Heap) (id : Nat) (pairs : List (Bytes × Value)) : Heap :=
  pairs.foldl (fun h e => h.setKey id e.1 e.2) h

theorem entries_newTable (h : Heap) (pairs : List (Bytes × Value)) :
    (h.newTable pairs).2.entries h.tables.size = .ofList pairs := by
  simp [newTable, entries]

theorem entries_setKey (there : id < h.tables.size) (key : Bytes) (v : Value) :
    (h.setKey id key v).entries id = (h.entries id).set key v := by
  simp [setKey, entries, there, Array.getElem_modify]

theorem setKeys_concat (h : Heap) (id : Nat) (pairs : List (Bytes × Value)) (e : Bytes × Value) :
    h.setKeys id (pairs ++ [e]) = (h.setKeys id pairs).setKey id e.1 e.2 := by
  simp [setKeys]

theorem size_tables_setKeys (h : Heap) (id : Nat) (pairs : List (Bytes × Value)) :
    (h.setKeys id pairs).tables.size = h.tables.size := by
  induction pairs using List.reverseRecOn with
  | nil => rfl
  | append_singleton pairs e ih => simp [setKeys_concat, setKey, ih]

theorem entries_setKeys (there : id < h.tables.size) (new : h.entries id = [])
    (pairs : List (Bytes × Value)) : (h.setKeys id pairs).entries id = .ofList pairs := by
  induction pairs using List.reverseRecOn with
  | nil => exact new
  | append_singleton pairs e ih =>
    rw [setKeys_concat, entries_setKey (by rwa [size_tables_setKeys]), ih, Entries.ofList_concat]

theorem setKeys_newTable (h : Heap) (pairs : List (Bytes × Value)) :
    (h.newTable []).2.setKeys h.tables.size pairs = (h.newTable pairs).2 := by
  induction pairs using List.reverseRecOn with
  | nil => rfl
  | append_singleton pairs e ih =>
    have longer : (Table.ofList pairs).set e.1 e.2 = .ofList (pairs ++ [e]) := by
      simp [Table.set, Table.ofList, Entries.ofList_concat]
    rw [setKeys_concat, ih]
    refine congrArg (Heap.mk h.lists) (Array.ext_getElem? fun i => ?_)
    rw [newTable, Array.getElem?_modify, Array.getElem?_push, Array.getElem?_push]
    grind

theorem getKey_eq_ok_iff {key : Bytes} {l : Location} {v : Value} :
    h.getKey id key l = .ok v ↔ (h.entries id).get? key = some v := by
  unfold getKey
  split <;> simp_all

theorem getKey_eq_error_iff {key : Bytes} {l : Location} :
    (∃ r, h.getKey id key l = .error r ∧ r.code = "E406") ↔ (h.entries id).hasKey key = false := by
  unfold getKey Entries.hasKey
  split
  · next found => simp [found]
  · next missing => exact ⟨fun _ => by rw [missing]; rfl, fun _ => ⟨_, rfl, rfl⟩⟩

structure HoldsMap (h : Heap) (id : Nat) (pairs : List (Bytes × Value)) : Prop where
  distinct : (h.entries id).keys.Nodup
  keys : ∀ key, key ∈ (h.entries id).keys ↔ key ∈ pairs.map (·.1)
  ordered : (h.entries id).keys.Pairwise fun k l =>
    (pairs.map (·.1)).idxOf k < (pairs.map (·.1)).idxOf l
  size : (h.entries id).length = (pairs.map (·.1)).toFinset.card
  hasKey : ∀ key, (h.entries id).hasKey key = true ↔ key ∈ pairs.map (·.1)
  found : ∀ key l, (h.entries id).hasKey key = true →
    ∃ v, h.getKey id key l = .ok v ∧ ∀ u, Entries.LastSet pairs key u ↔ u = v
  missing : ∀ key l,
    (∃ r, h.getKey id key l = .error r ∧ r.code = "E406") ↔ (h.entries id).hasKey key = false

theorem holdsMap_of_entries {pairs : List (Bytes × Value)} (made : h.entries id = .ofList pairs) :
    h.HoldsMap id pairs where
  distinct := by rw [made]; exact Entries.nodup_ofList pairs
  keys key := by rw [made]; exact Entries.mem_keys_ofList
  ordered := by rw [made]; exact Entries.keys_ofList_ordered pairs
  size := by rw [made]; exact Entries.length_ofList pairs
  hasKey key := by rw [Entries.hasKey_iff, made]; exact Entries.mem_keys_ofList
  found key l has := by
    obtain ⟨v, there⟩ := Option.isSome_iff_exists.1 has
    refine ⟨v, getKey_eq_ok_iff.2 there, fun u => ?_⟩
    rw [made] at there
    rw [← Entries.get?_ofList_iff, there, Option.some_inj, eq_comm]
  missing key l := getKey_eq_error_iff

end Heap

theorem Effect.bind_eq_ok_iff {x : Effect α} {f : α → Effect β} {w w' : World} {b : β} :
    (x >>= f) w = (.ok b, w') ↔ ∃ a w₁, x w = (.ok a, w₁) ∧ f a w₁ = (.ok b, w') := by
  rw [Mutation.bind_apply]
  split
  · next a w₁ first => simp [first]
  · next r w₁ first => simp [first]

namespace Expression

inductive EntriesRun (env : Environment) :
    List (Expression × Expression) → World → List (Bytes × Value) → World → Prop
  | nil (w : World) : EntriesRun env [] w [] w
  | cons {key e : Expression} {rest : List (Expression × Expression)} {w w₁ w₂ w₃ : World}
      {k v : Value} {pairs : List (Bytes × Value)} (first : key.eval env w = (.ok k, w₁))
      (second : e.eval env w₁ = (.ok v, w₂)) (others : EntriesRun env rest w₂ pairs w₃) :
      EntriesRun env ((key, e) :: rest) w ((w₂.heap.display k, v) :: pairs) w₃

variable {env : Environment} {entries : List (Expression × Expression)} {w w' : World}

theorem evalEntries_eq_ok_iff {pairs : List (Bytes × Value)} :
    evalEntries env entries w = (.ok pairs, w') ↔ EntriesRun env entries w pairs w' := by
  induction entries generalizing w w' pairs with
  | nil =>
    constructor
    · intro done
      cases done
      exact .nil _
    · intro run
      cases run
      rfl
  | cons e rest ih =>
    obtain ⟨key, e⟩ := e
    rw [evalEntries]
    simp only [Effect.bind_eq_ok_iff, ih]
    constructor
    · rintro ⟨k, w₁, first, v, w₂, second, _, _, asked, pairs, w₃, others, done⟩
      cases asked
      cases done
      exact .cons first second others
    · intro run
      cases run with
      | cons first second others =>
        exact ⟨_, _, first, _, _, second, _, _, rfl, _, _, others, rfl⟩

theorem eval_table_eq_ok_iff {l : Location} {v : Value} :
    (table l entries).eval env w = (.ok v, w') ↔ ∃ pairs w₁, EntriesRun env entries w pairs w₁ ∧
      v = (w₁.heap.newTable []).1 ∧
      w' = { w₁ with heap := (w₁.heap.newTable []).2.setKeys w₁.heap.tables.size pairs } := by
  rw [eval]
  simp only [Effect.bind_eq_ok_iff, evalEntries_eq_ok_iff]
  refine exists_congr fun pairs => exists_congr fun w₁ => and_congr_right fun _ => ?_
  rw [Heap.setKeys_newTable]
  simp [Effect.newTable, Effect.onHeap, Heap.newTable, eq_comm]

end Expression

/-- Pairs that are put into an empty table make a map in the order of insertion, and a table in a
program evaluates to a new table into which the pairs written there are put. -/
theorem Heap.table_maps :
    (∀ (h : Heap) (id : Nat) (pairs : List (Bytes × Value)), id < h.tables.size →
      h.entries id = [] → (h.setKeys id pairs).HoldsMap id pairs) ∧
    ∀ (env : Environment) (l : Location) (entries : List (Expression × Expression)) (w : World)
      (v : Value) (w' : World),
      (Expression.table l entries).eval env w = (.ok v, w') ↔
        ∃ pairs w₁, Expression.EntriesRun env entries w pairs w₁ ∧
          v = (w₁.heap.newTable []).1 ∧
          w' = { w₁ with heap := (w₁.heap.newTable []).2.setKeys w₁.heap.tables.size pairs } :=
  ⟨fun _ _ pairs there new => holdsMap_of_entries (entries_setKeys there new pairs),
    fun _ _ _ _ _ _ => Expression.eval_table_eq_ok_iff⟩

theorem Heap.table_maps_repeated :
    let h := (Heap.empty.newTable []).2
    let pairs : List (Bytes × Value) := [("b", .number 1), ("a", .number 2), ("b", .number 3)]
    let written (l : Location) : Expression := .table l
      [(.text l "b", .number l 1), (.text l "a", .number l 2), (.text l "b", .number l 3)]
    0 < h.tables.size ∧ h.entries 0 = [] ∧ (h.setKeys 0 pairs).HoldsMap 0 pairs ∧
      ((h.setKeys 0 pairs).entries 0).keys = ["b", "a"] ∧
      (h.setKeys 0 pairs).getKey 0 "b" {} = .ok (.number 3) ∧
      (written {}).eval (.fresh "main" false) {} =
        (.ok (.table 0), { heap := h.setKeys 0 pairs }) := by
  intro h pairs written
  refine ⟨by decide, rfl, table_maps.1 h 0 pairs (by decide) rfl, rfl, rfl, ?_⟩
  exact (table_maps.2 _ _ _ _ _ _).2
    ⟨pairs, {}, Expression.evalEntries_eq_ok_iff.1 rfl, rfl, rfl⟩

end StepsLang
