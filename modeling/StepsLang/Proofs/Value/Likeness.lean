import Mathlib.Data.List.Forall2
import Mathlib.Data.List.Perm.Subperm
import Mathlib.Order.Bounds.Basic
import StepsLang.Proofs.Value.Walk

/-! What equality of values means on a heap where containers may share and contain each other.  One
look at two values gives an operator on relations, and `Alike` is its greatest fixed point; the
walk that takes pairs on its own path for equal decides exactly that.  The tables of a heap are maps,
so no key stands twice in one. -/

namespace StepsLang

namespace Number

theorem equals_comm (m n : Number) : m.equals n = n.equals m := by
  simp only [equals, Bool.and_comm (!m.isNaN), Bool.beq_comm (a := m.key)]

theorem equals_trans {l m n : Number} (first : l.equals m = true) (second : m.equals n = true) :
    l.equals n = true := by
  simp only [equals, Bool.and_eq_true, beq_iff_eq] at *
  exact ⟨⟨first.1.1, second.1.2⟩, first.2.trans second.2⟩

theorem equals_self (n : Number) : n.equals n = !n.isNaN := by simp [equals]

end Number

namespace Entries

theorem key_mem {es : Entries} {key : Bytes} {v : Value} (there : (key, v) ∈ es) : key ∈ es.keys :=
  List.mem_map.2 ⟨(key, v), there, rfl⟩

theorem find?_eq_some_iff {es : Entries} (h : es.keys.Nodup) {key : Bytes} {e : Bytes × Value} :
    es.find? (·.1 == key) = some e ↔ e ∈ es ∧ e.1 = key := by
  constructor
  · intro found
    exact ⟨List.mem_of_find?_eq_some found, by simpa using List.find?_some found⟩
  · rintro ⟨there, rfl⟩
    induction es with
    | nil => cases there
    | cons first rest ih =>
      obtain ⟨alone, unique⟩ := List.nodup_cons.1 h
      rcases List.mem_cons.1 there with rfl | later
      · simp
      · have other : first.1 ≠ e.1 := fun same =>
          alone (List.mem_map.2 ⟨e, later, same.symm⟩)
        simp [other, ih unique later]

theorem value_unique {es : Entries} (h : es.keys.Nodup) {key : Bytes} {v w : Value}
    (hv : (key, v) ∈ es) (hw : (key, w) ∈ es) : v = w := by
  have first := (find?_eq_some_iff h).2 ⟨hv, rfl⟩
  have second := (find?_eq_some_iff h).2 ⟨hw, rfl⟩
  cases first.symm.trans second
  rfl

theorem keys_subset_symm {es fs : Entries} (he : es.keys.Nodup) (size : es.length = fs.length)
    (sub : es.keys ⊆ fs.keys) : fs.keys ⊆ es.keys :=
  ((List.subperm_of_subset he sub).perm_of_length_le (by simp [keys, size])).symm.subset

end Entries

namespace Heap

def Agrees (h : Heap) (R : Value → Value → Prop) : Value → Value → Prop
  | .nothing, .nothing => True
  | .number m, .number n => m.equals n
  | .text s, .text t => s = t
  | .boolean b, .boolean c => b = c
  | .list i, .list j => i = j ∨ List.Forall₂ R (h.items i).toList (h.items j).toList
  | .table i, .table j =>
    i = j ∨ (h.entries i).length = (h.entries j).length ∧
      ∀ key v, (key, v) ∈ h.entries i → ∃ w, (key, w) ∈ h.entries j ∧ R v w
  | _, _ => False

/-- Related values stay related at every deeper look. -/
def Bisimulation (h : Heap) (R : Value → Value → Prop) : Prop := ∀ v w, R v w → h.Agrees R v w

def Alike (h : Heap) (v w : Value) : Prop := ∃ R, h.Bisimulation R ∧ R v w

variable {h : Heap} {R S : Value → Value → Prop}

def entered : Value → Value → Option (Ref × Ref)
  | .list i, .list j => some (.list i, .list j)
  | .table i, .table j => some (.table i, .table j)
  | _, _ => none

theorem Agrees.mono_inside {v w : Value} (agree : h.Agrees R v w)
    (le : ∀ v' w', R v' w' → (∃ p ∈ entered v w, p ∈ h.refPairs) → S v' w') : h.Agrees S v w := by
  cases v <;> cases w <;> try exact agree
  case list.list i j =>
    refine agree.imp_right fun items => ?_
    obtain ⟨size, each⟩ := List.forall₂_iff_zip.1 items
    refine List.forall₂_iff_zip.2 ⟨size, fun {v w} there => le v w (each there) ?_⟩
    have ⟨hv, hw⟩ := List.of_mem_zip there
    exact ⟨_, rfl, mem_refPairs (list_mem_refs (Array.mem_toList_iff.1 hv))
      (list_mem_refs (Array.mem_toList_iff.1 hw))⟩
  case table.table i j =>
    refine agree.imp_right fun ⟨size, each⟩ => ⟨size, fun key v hv => ?_⟩
    obtain ⟨w, hw, related⟩ := each key v hv
    exact ⟨w, hw, le v w related ⟨_, rfl, mem_refPairs (table_mem_refs hv) (table_mem_refs hw)⟩⟩

theorem Agrees.mono {v w : Value} (agree : h.Agrees R v w) (le : ∀ v w, R v w → S v w) :
    h.Agrees S v w :=
  agree.mono_inside fun v w related _ => le v w related

theorem alike_bisimulation : h.Bisimulation h.Alike := fun v w ⟨_, bisim, related⟩ =>
  (bisim v w related).mono fun _ _ inner => ⟨_, bisim, inner⟩

theorem alike_greatest : IsGreatest {R | h.Bisimulation R} h.Alike :=
  ⟨alike_bisimulation, fun R bisim _ _ related => ⟨R, bisim, related⟩⟩

theorem Agrees.symm {v w : Value} (agree : h.Agrees R v w) :
    h.Agrees (fun v w => R w v) w v := by
  cases v <;> cases w <;> try exact agree.elim
  case nothing.nothing => trivial
  case number.number m n => exact (Number.equals_comm n m).trans agree
  case text.text s t => exact Eq.symm agree
  case boolean.boolean b c => exact Eq.symm agree
  case list.list i j => exact agree.imp Eq.symm List.Forall₂.flip
  case table.table i j =>
    refine agree.imp Eq.symm fun ⟨size, each⟩ => ⟨size.symm, fun key w hw => ?_⟩
    have sub : (h.entries i).keys ⊆ (h.entries j).keys := fun key there => by
      obtain ⟨⟨_, v⟩, hv, rfl⟩ := List.mem_map.1 there
      obtain ⟨w, hw, -⟩ := each _ v hv
      exact Entries.key_mem hw
    have back : key ∈ (h.entries i).keys :=
      Entries.keys_subset_symm (h.nodup_keys i) size sub (Entries.key_mem hw)
    obtain ⟨⟨_, v⟩, hv, rfl⟩ := List.mem_map.1 back
    obtain ⟨w', hw', related⟩ := each _ v hv
    exact ⟨v, hv, Entries.value_unique (h.nodup_keys j) hw hw' ▸ related⟩

theorem forall₂_between {us vs ws : List Value} (first : List.Forall₂ R us vs)
    (second : List.Forall₂ S vs ws) :
    List.Forall₂ (fun u w => R u w ∨ S u w ∨ ∃ v, R u v ∧ S v w) us ws := by
  induction first generalizing ws with
  | nil => cases second; exact .nil
  | cons before _ ih =>
    cases second with
    | cons after rest => exact .cons (.inr (.inr ⟨_, before, after⟩)) (ih rest)

/-- A container that is compared with itself is not entered, so what is inside it may be related by
the other comparison only. -/
theorem Agrees.trans {u v w : Value} (first : h.Agrees R u v) (second : h.Agrees S v w) :
    h.Agrees (fun u w => R u w ∨ S u w ∨ ∃ v, R u v ∧ S v w) u w := by
  cases u <;> cases v <;> try exact first.elim
  all_goals cases w <;> try exact second.elim
  case nothing.nothing.nothing => trivial
  case number.number.number => exact Number.equals_trans first second
  case text.text.text => exact Eq.trans first second
  case boolean.boolean.boolean => exact Eq.trans first second
  case list.list.list i j k =>
    rcases first with rfl | first
    · exact second.imp_right (List.Forall₂.imp fun _ _ related => .inr (.inl related))
    · rcases second with rfl | second
      · exact .inr (first.imp fun _ _ => .inl)
      · exact .inr (forall₂_between first second)
  case table.table.table i j k =>
    rcases first with rfl | ⟨size, first⟩
    · refine second.imp_right fun ⟨size, each⟩ => ⟨size, fun key u hu => ?_⟩
      obtain ⟨w, hw, related⟩ := each key u hu
      exact ⟨w, hw, .inr (.inl related)⟩
    · rcases second with rfl | ⟨size', second⟩
      · refine .inr ⟨size, fun key u hu => ?_⟩
        obtain ⟨w, hw, related⟩ := first key u hu
        exact ⟨w, hw, .inl related⟩
      · refine .inr ⟨size.trans size', fun key u hu => ?_⟩
        obtain ⟨v, hv, before⟩ := first key u hu
        obtain ⟨w, hw, after⟩ := second key v hv
        exact ⟨w, hw, .inr (.inr ⟨v, before, after⟩)⟩

theorem Alike.symm {v w : Value} : h.Alike v w → h.Alike w v :=
  fun ⟨R, bisim, related⟩ =>
    ⟨fun v w => R w v, fun v w back => (bisim w v back).symm, related⟩

theorem Alike.trans {u v w : Value} (first : h.Alike u v) (second : h.Alike v w) : h.Alike u w := by
  refine ⟨fun u w => h.Alike u w ∨ ∃ v, h.Alike u v ∧ h.Alike v w, fun u w related => ?_,
    .inr ⟨v, first, second⟩⟩
  rcases related with alike | ⟨v, first, second⟩
  · exact (alike_bisimulation u w alike).mono fun _ _ => .inl
  · refine ((alike_bisimulation u v first).trans (alike_bisimulation v w second)).mono fun u w => ?_
    rintro (alike | alike | between)
    · exact .inl alike
    · exact .inl alike
    · exact .inr between

/-- As `Alike`, but with so many looks only. -/
def AlikeTo (h : Heap) : Nat → Value → Value → Prop
  | 0 => fun _ _ => True
  | n + 1 => h.Agrees (h.AlikeTo n)

theorem AlikeTo.pred {n : Nat} {v w : Value} (alike : h.AlikeTo (n + 1) v w) : h.AlikeTo n v w := by
  induction n generalizing v w with
  | zero => trivial
  | succ n ih => exact Agrees.mono alike fun _ _ => ih

/-- What no number of looks tells apart is alike: a table has one value for each key, so looking
deeper never moves from one partner of an entry to another. -/
theorem alike_of_forall {v w : Value} (alike : ∀ n, h.AlikeTo n v w) :
    h.Alike v w := by
  refine ⟨fun v w => ∀ n, h.AlikeTo n v w, fun v w alike => ?_, alike⟩
  have look (n : Nat) : h.Agrees (h.AlikeTo n) v w := alike (n + 1)
  cases v <;> cases w <;> try exact look 0
  case list.list i j =>
    by_cases same : i = j
    · exact .inl same
    · have items (n : Nat) := (look n).resolve_left same
      refine .inr (List.forall₂_iff_get.2 ⟨(items 0).length_eq, fun k hi hj n => ?_⟩)
      exact (items n).get hi hj
  case table.table i j =>
    by_cases same : i = j
    · exact .inl same
    · have entries (n : Nat) := (look n).resolve_left same
      refine .inr ⟨(entries 0).1, fun key v hv => ?_⟩
      obtain ⟨w, hw, -⟩ := (entries 0).2 key v hv
      refine ⟨w, hw, fun n => ?_⟩
      obtain ⟨w', hw', deeper⟩ := (entries n).2 key v hv
      rwa [Entries.value_unique (h.nodup_keys j) hw hw']

theorem hasEqual_iff (path : List (Ref × Ref)) (j : Nat) (e : Bytes × Value) :
    h.hasEqual path j e = true ↔ ∃ w, (e.1, w) ∈ h.entries j ∧ h.equalOn path e.2 w = true := by
  simp only [hasEqual, Option.any_eq_true, Entries.find?_eq_some_iff (h.nodup_keys j)]
  constructor
  · rintro ⟨⟨_, w⟩, ⟨there, rfl⟩, equal⟩
    exact ⟨w, there, equal⟩
  · rintro ⟨w, there, equal⟩
    exact ⟨(e.1, w), ⟨there, rfl⟩, equal⟩

theorem all_zip_iff (p : Value × Value → Bool) (vs ws : List Value) :
    (vs.length = ws.length ∧ (vs.zip ws).all p = true) ↔
      List.Forall₂ (fun v w => p (v, w) = true) vs ws := by
  rw [List.all_eq_true, List.forall₂_iff_zip]
  exact and_congr_right fun _ =>
    ⟨fun each _ _ there => each _ there, fun each _ there => each there⟩

theorem equalOn_iff (path : List (Ref × Ref)) (v w : Value) :
    h.equalOn path v w = true ↔
      (∃ p ∈ entered v w, p ∈ path) ∨
        h.Agrees (fun v' w' => h.equalOn ((entered v w).toList ++ path) v' w' = true) v w := by
  cases v <;> cases w
  case list.list i j =>
    have inside := all_zip_iff (fun e => h.equalOn ((.list i, .list j) :: path) e.1 e.2)
      (h.items i).toList (h.items j).toList
    simp only [Array.length_toList] at inside
    rw [equalOn_list]
    split
    · next met => exact ⟨fun _ => met.symm.imp (⟨_, rfl, ·⟩) .inl, fun _ => rfl⟩
    · next fresh =>
      obtain ⟨differ, new⟩ := not_or.1 fresh
      simpa [entered, Agrees, differ, new] using inside
  case table.table i j =>
    rw [equalOn_table]
    split
    · next met => exact ⟨fun _ => met.symm.imp (⟨_, rfl, ·⟩) .inl, fun _ => rfl⟩
    · next fresh =>
      obtain ⟨differ, new⟩ := not_or.1 fresh
      simp [entered, Agrees, differ, new, hasEqual_iff]
  all_goals simp [equalOn, entered, Agrees]

def Ref.value : Ref → Value
  | .list id => .list id
  | .table id => .table id

theorem values_of_entered {v w : Value} {p : Ref × Ref} (enter : p ∈ entered v w) :
    Ref.value p.1 = v ∧ Ref.value p.2 = w := by
  cases v <;> cases w <;> cases enter <;> exact ⟨rfl, rfl⟩

/-- Soundness of the walk.  A pair on its path is taken for equal only inside the containers of that
pair, which is one look deeper than the pair itself. -/
theorem alikeTo_of_equalOn (n : Nat) {path : List (Ref × Ref)}
    (known : ∀ p ∈ path, h.AlikeTo n (Ref.value p.1) (Ref.value p.2)) {v w : Value}
    (equal : h.equalOn path v w = true) : h.AlikeTo n v w := by
  induction n generalizing path v w with
  | zero => trivial
  | succ n ih =>
    rcases (equalOn_iff path v w).1 equal with ⟨p, enter, met⟩ | agree
    · obtain ⟨rfl, rfl⟩ := values_of_entered enter
      exact known p met
    · have before (p) (hp : p ∈ path) := (known p hp).pred
      refine agree.mono fun v' w' inner => ih (fun p hp => ?_) inner
      rcases List.mem_append.1 hp with enter | met
      · obtain ⟨rfl, rfl⟩ := values_of_entered (Option.mem_toList.1 enter)
        exact ih before equal
      · exact before p met

/-- Completeness of the walk, whatever is on its path: related containers only lead to related
values, so the walk goes on until there is no container left to enter. -/
theorem equalOn_of_bisimulation (bisim : h.Bisimulation R)
    (path : List (Ref × Ref)) {v w : Value} (related : R v w) : h.equalOn path v w = true := by
  generalize size : (unseen h.refPairs path).length = n
  induction n using Nat.strong_induction_on generalizing path v w with
  | _ n ih =>
    rw [equalOn_iff]
    by_cases met : ∃ p ∈ entered v w, p ∈ path
    · exact .inl met
    · refine .inr ((bisim v w related).mono_inside fun v' w' inner ⟨p, enter, inside⟩ => ?_)
      have fewer := unseen_cons_lt inside fun there => met ⟨p, enter, there⟩
      rw [show entered v w = some p from enter]
      exact ih _ (by omega) (p :: path) inner rfl

theorem equal_iff_alike (v w : Value) : h.equal v w = true ↔ h.Alike v w :=
  ⟨fun equal => alike_of_forall fun n => alikeTo_of_equalOn n (by simp) equal,
    fun ⟨_, bisim, related⟩ => equalOn_of_bisimulation bisim [] related⟩

theorem equal_self (v : Value) : h.equal v v = true ↔ ∀ n, v = .number n → n.isNaN = false := by
  cases v <;> simp [equal, equalOn, Number.equals_self]

/-- Equality of values is the greatest relation that holds up at every look, on every heap.  The
walk that decides it always comes to an end: it goes no deeper than there are pairs of containers. -/
theorem equal_decides_alike (h : Heap) :
    IsGreatest {R | h.Bisimulation R} h.Alike ∧
      (∀ v w, h.equalWithin (h.refPairs.length + 1) [] v w = some (h.equal v w)) ∧
      (∀ v w, h.equal v w = true ↔ h.Alike v w) ∧
      (∀ v w, h.equal v w = h.equal w v) ∧
      (∀ u v w, h.equal u v = true → h.equal v w = true → h.equal u w = true) ∧
      ∀ v, h.equal v v = true ↔ ∀ n, v = .number n → n.isNaN = false := by
  refine ⟨alike_greatest, fun v w => equalWithin_eq ?_ v w, equal_iff_alike, ?_, ?_, equal_self⟩
  · simp [unseen]
  · intro v w
    rw [Bool.eq_iff_iff, equal_iff_alike, equal_iff_alike]
    exact ⟨Alike.symm, Alike.symm⟩
  · intro u v w
    simp only [equal_iff_alike]
    exact Alike.trans

def knot : Heap :=
  let h := (Heap.empty.newList #[]).2
  let h := (h.newList #[]).2
  let h := (h.newList #[]).2
  let h := (h.newTable [("name", .text "knot"), ("back", .list 0)]).2
  let h := (h.newTable [("back", .list 1), ("name", .text "knot")]).2
  let h := (h.addItem 0 (.list 0)).addItem 0 (.table 0)
  let h := (h.addItem 1 (.list 2)).addItem 1 (.table 1)
  (h.addItem 2 (.list 1)).addItem 2 (.table 0)

theorem equal_decides_alike_knot :
    knot.equal (.list 0) (.list 1) = true ∧ knot.equal (.list 1) (.list 2) = true ∧
      knot.equal (.list 0) (.list 2) = true ∧ knot.Alike (.table 0) (.table 1) ∧
      ¬ knot.Alike (.list 0) (.table 0) := by
  obtain ⟨-, -, alike, -, trans, -⟩ := equal_decides_alike knot
  have first : knot.equal (.list 0) (.list 1) = true := by decide +kernel
  have second : knot.equal (.list 1) (.list 2) = true := by decide +kernel
  have inside : knot.equal (.table 0) (.table 1) = true := by decide +kernel
  have apart : knot.equal (.list 0) (.table 0) = false := by decide +kernel
  refine ⟨first, second, trans _ _ _ first second, (alike _ _).1 inside, ?_⟩
  rw [← alike, apart]
  exact Bool.false_ne_true

end Heap

end StepsLang
