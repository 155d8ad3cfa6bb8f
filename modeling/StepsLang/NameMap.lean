import StepsLang.Bytes

namespace StepsLang

namespace NameMap

def place (name : Bytes) (a : α) : List (Bytes × α) → List (Bytes × α)
  | [] => [(name, a)]
  | e :: rest =>
    if name = e.1 then (name, a) :: rest
    else if name < e.1 then (name, a) :: e :: rest
    else e :: place name a rest

def Sorted (entries : List (Bytes × α)) : Prop := entries.Pairwise fun e f => e.1 < f.1

theorem mem_place {name : Bytes} {a : α} {entries : List (Bytes × α)} {f : Bytes × α}
    (h : f ∈ place name a entries) : f = (name, a) ∨ f ∈ entries := by
  induction entries with
  | nil => simpa [place] using h
  | cons e rest ih =>
    simp only [place] at h
    split at h
    · simp only [List.mem_cons] at h ⊢
      grind
    · split at h
      · simpa using h
      · simp only [List.mem_cons] at h ⊢
        grind

theorem sorted_place {name : Bytes} {a : α} {entries : List (Bytes × α)} (h : Sorted entries) :
    Sorted (place name a entries) := by
  induction entries with
  | nil => simp [place, Sorted]
  | cons e rest ih =>
    have ⟨first, others⟩ := List.pairwise_cons.1 h
    simp only [place]
    split
    · next same => exact List.pairwise_cons.2 ⟨fun f hf => same ▸ first f hf, others⟩
    · next different =>
      split
      · next before =>
        refine List.pairwise_cons.2 ⟨fun f hf => ?_, h⟩
        rcases List.mem_cons.1 hf with rfl | hf
        · exact before
        · exact List.lt_trans before (first f hf)
      · next notBefore =>
        refine List.pairwise_cons.2 ⟨fun f hf => ?_, ih others⟩
        rcases mem_place hf with rfl | hf
        · exact Std.lt_of_le_of_ne (List.not_lt.1 notBefore) (Ne.symm different)
        · exact first f hf

end NameMap

structure NameMap (α : Type) where
  entries : List (Bytes × α) := []
  sorted : NameMap.Sorted entries := by exact List.Pairwise.nil

namespace NameMap

def empty : NameMap α := {}

instance : Inhabited (NameMap α) := ⟨{}⟩

def find? (m : NameMap α) (name : Bytes) : Option α := m.entries.lookup name

def contains (m : NameMap α) (name : Bytes) : Bool := (m.find? name).isSome

def insert (m : NameMap α) (name : Bytes) (a : α) : NameMap α :=
  ⟨place name a m.entries, sorted_place m.sorted⟩

def names (m : NameMap α) : List Bytes := m.entries.map (·.1)

def size (m : NameMap α) : Nat := m.entries.length

/-- All entries of both maps; where both have a name, the entry of `upper` counts. -/
def overlay (m upper : NameMap α) : NameMap α :=
  upper.entries.foldl (fun m e => m.insert e.1 e.2) m

theorem lookup_place {name x : Bytes} {a : α} {entries : List (Bytes × α)} :
    (place name a entries).lookup x = if x = name then some a else entries.lookup x := by
  induction entries with
  | nil => by_cases h : x = name <;> simp [place, List.lookup_cons, h, beq_eq_false_iff_ne.2]
  | cons e rest ih =>
    obtain ⟨k, b⟩ := e
    by_cases h : x = name <;> by_cases hk : x = k <;> simp only [place] <;> split <;>
      grind

@[simp]
theorem find?_insert (m : NameMap α) (name x : Bytes) (a : α) :
    (m.insert name a).find? x = if x = name then some a else m.find? x :=
  lookup_place

theorem names_place {name : Bytes} {a : α} {entries : List (Bytes × α)} (h : Sorted entries)
    (known : name ∈ entries.map (·.1)) :
    (place name a entries).map (·.1) = entries.map (·.1) := by
  induction entries with
  | nil => simp at known
  | cons e rest ih =>
    obtain ⟨first, others⟩ := List.pairwise_cons.1 h
    simp only [place]
    split
    · next same => simp [same]
    · next different =>
      have later : name ∈ rest.map (·.1) := by
        rcases List.mem_cons.1 known with same | later
        · exact absurd same different
        · exact later
      obtain ⟨f, hf, hn⟩ := List.mem_map.1 later
      have after : ¬ name < e.1 := by
        intro before
        rw [← hn] at before
        exact List.lt_irrefl _ (List.lt_trans before (first f hf))
      simp [after, ih others later]

theorem names_insert {m : NameMap α} {name : Bytes} (a : α) (known : name ∈ m.names) :
    (m.insert name a).names = m.names :=
  names_place m.sorted known

theorem mem_names_iff {m : NameMap α} {x : Bytes} : x ∈ m.names ↔ (m.find? x).isSome := by
  unfold names find?
  induction m.entries with
  | nil => simp
  | cons e rest ih =>
    by_cases h : x = e.1 <;> simp [h, ih]

theorem place_of_mem {name : Bytes} {a : α} {entries : List (Bytes × α)} (h : Sorted entries)
    (there : (name, a) ∈ entries) : place name a entries = entries := by
  induction entries with
  | nil => cases there
  | cons e rest ih =>
    obtain ⟨first, others⟩ := List.pairwise_cons.1 h
    rcases List.mem_cons.1 there with rfl | later
    · simp [place]
    · have before : e.1 < name := first _ later
      have different : name ≠ e.1 := fun same => List.lt_irrefl _ (same ▸ before)
      have after : ¬ name < e.1 := fun h => List.lt_irrefl _ (List.lt_trans h before)
      simp [place, different, after, ih others later]

theorem insert_of_find? {m : NameMap α} {name : Bytes} {a : α} (h : m.find? name = some a) :
    m.insert name a = m := by
  obtain ⟨entries, sorted⟩ := m
  have there : (name, a) ∈ entries := by
    obtain ⟨before, after, rfl, -⟩ := List.lookup_eq_some_iff.1 h
    simp
  simp only [insert, place_of_mem sorted there]

theorem mem_names_insert {m : NameMap α} {name x : Bytes} (a : α) :
    x ∈ (m.insert name a).names ↔ x = name ∨ x ∈ m.names := by
  simp only [mem_names_iff, find?_insert]
  by_cases h : x = name <;> simp [h]

end NameMap

end StepsLang
