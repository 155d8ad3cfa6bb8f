import Mathlib.Data.List.Infix
import Mathlib.Data.List.Induction
import StepsLang.Proofs.Value.Walk

namespace StepsLang

def Value.ref? : Value → Option Ref
  | .list id => some (.list id)
  | .table id => some (.table id)
  | _ => none

theorem Value.ref?_inj {v w : Value} {r : Ref} (hv : v.ref? = some r) (hw : w.ref? = some r) :
    v = w := by
  cases v <;> cases hv <;> cases w <;> cases hw <;> rfl

def descend (parts : α → List α) : α → List Nat → Option α
  | a, [] => some a
  | a, i :: p => (parts a)[i]?.bind fun b => descend parts b p

theorem descend_append (parts : α → List α) (a : α) (p q : List Nat) :
    descend parts a (p ++ q) = (descend parts a p).bind fun b => descend parts b q := by
  induction p generalizing a with
  | nil => rfl
  | cons i p ih =>
    simp only [List.cons_append, descend, ih]
    exact (Option.bind_assoc _ _ _).symm

def Above (q p : List Nat) : Prop := q <+: p ∧ q ≠ p

theorem not_above_nil (q : List Nat) : ¬ Above q [] := fun above =>
  above.2 (List.prefix_nil.1 above.1)

theorem above_concat {q p : List Nat} {i : Nat} : Above q (p ++ [i]) ↔ q <+: p := by
  rw [Above, List.prefix_concat_iff]
  constructor
  · rintro ⟨same | before, other⟩
    · exact absurd same other
    · exact before
  · rintro ⟨more, rfl⟩
    exact ⟨.inr ⟨more, rfl⟩, by simp⟩

theorem prefix_iff_above {q p : List Nat} : q <+: p ↔ q = p ∨ Above q p := by
  constructor
  · intro before
    by_cases same : q = p
    · exact .inl same
    · exact .inr ⟨before, same⟩
  · rintro (rfl | above)
    · exact List.prefix_rfl
    · exact above.1

theorem Above.length_lt {q p : List Nat} (above : Above q p) : q.length < p.length :=
  Nat.lt_of_le_of_ne above.1.length_le fun same => above.2 (above.1.eq_of_length same)

theorem Above.trans {q p o : List Nat} (first : Above q p) (second : p <+: o) : Above q o := by
  refine ⟨first.1.trans second, ?_⟩
  rintro rfl
  exact Nat.not_lt.2 second.length_le first.length_lt

namespace Tree

/-- What stands at one place of a tree, without what is below it. -/
inductive Node
  | leaf (v : Value)
  | cycle
  | list (size : Nat)
  | table (keys : List Bytes)
  deriving DecidableEq

def node : Tree → Node
  | .leaf v => .leaf v
  | .cycle => .cycle
  | .list items => .list items.length
  | .table entries => .table (entries.map (·.1))

def parts : Tree → List Tree
  | .list items => items
  | .table entries => entries.map (·.2)
  | _ => []

def at? (t : Tree) (p : List Nat) : Option Tree := descend parts t p

def node? (t : Tree) (p : List Nat) : Option Node := (t.at? p).map node

theorem node?_cons (t : Tree) (i : Nat) (p : List Nat) :
    t.node? (i :: p) = t.parts[i]?.bind fun u => u.node? p := by
  rw [node?, at?, descend, Option.map_bind]
  rfl

mutual
theorem eq_of_nodes : (t u : Tree) → (∀ p, t.node? p = u.node? p) → t = u
  | .leaf v, u, same => by
    have root : Node.leaf v = u.node := Option.some.inj (same [])
    cases u <;> cases root
    rfl
  | .cycle, u, same => by
    have root : Node.cycle = u.node := Option.some.inj (same [])
    cases u <;> cases root
    rfl
  | .list ts, u, same => by
    have root : Node.list ts.length = u.node := Option.some.inj (same [])
    cases u with
    | list us =>
      refine congrArg Tree.list (eq_of_items ts us (Node.list.inj root) fun i p => ?_)
      simpa only [node?_cons, parts] using same (i :: p)
    | _ => cases root
  | .table es, u, same => by
    have root : Node.table (es.map (·.1)) = u.node := Option.some.inj (same [])
    cases u with
    | table fs =>
      refine congrArg Tree.table (eq_of_entries es fs (Node.table.inj root) fun i p => ?_)
      simpa only [node?_cons, parts] using same (i :: p)
    | _ => cases root
termination_by structural t => t

theorem eq_of_items : (ts us : List Tree) → ts.length = us.length →
    (∀ (i : Nat) p, (ts[i]?.bind fun t => t.node? p) = us[i]?.bind fun u => u.node? p) → ts = us
  | [], us, size, _ => (List.length_eq_zero_iff.1 size.symm).symm
  | _ :: _, [], size, _ => nomatch size
  | t :: ts, u :: us, size, same => by
    rw [eq_of_nodes t u fun p => same 0 p,
      eq_of_items ts us (Nat.succ.inj size) fun i p => same (i + 1) p]
termination_by structural ts => ts

theorem eq_of_entries : (es fs : List (Bytes × Tree)) → es.map (·.1) = fs.map (·.1) →
    (∀ (i : Nat) p, ((es.map (·.2))[i]?.bind fun t => t.node? p) =
      (fs.map (·.2))[i]?.bind fun u => u.node? p) → es = fs
  | [], fs, keys, _ => (List.map_eq_nil_iff.1 keys.symm).symm
  | _ :: _, [], keys, _ => nomatch keys
  | (k, t) :: es, (l, u) :: fs, keys, same => by
    obtain ⟨key, others⟩ := List.cons.inj keys
    rw [show k = l from key, eq_of_nodes t u fun p => same 0 p,
      eq_of_entries es fs others fun i p => same (i + 1) p]
termination_by structural es => es
end

end Tree

namespace Heap

def parts (h : Heap) : Value → List Value
  | .list id => (h.items id).toList
  | .table id => (h.entries id).map (·.2)
  | _ => []

/-- The value at a position of the unfolding, which goes on below containers met before. -/
def at? (h : Heap) (v : Value) (p : List Nat) : Option Value := descend h.parts v p

def node (h : Heap) : Value → Tree.Node
  | .list id => .list (h.items id).size
  | .table id => .table (h.entries id).keys
  | v => .leaf v

/-- At this position of the unfolding stands a container that also stands above it. -/
def Recurs (h : Heap) (v : Value) (p : List Nat) : Prop :=
  ∃ c r, c.ref? = some r ∧ h.at? v p = some c ∧ ∃ q, Above q p ∧ h.at? v q = some c

/-- The tree is the unfolding of the value, where the containers that stand above themselves, and
only these, are replaced by `cycle`. -/
structure Unfolds (h : Heap) (v : Value) (t : Tree) : Prop where
  cut : ∀ p, h.Recurs v p → (∀ q, Above q p → ¬ h.Recurs v q) → t.node? p = some .cycle
  kept : ∀ p, (∀ q, q <+: p → ¬ h.Recurs v q) → t.node? p = (h.at? v p).map h.node
  dropped : ∀ p q, Above q p → h.Recurs v q → t.node? p = none

/-- No container that is reached from the value, itself included, contains itself. -/
def Acyclic (h : Heap) (v : Value) : Prop :=
  ∀ p q c r, h.at? v p = some c → c.ref? = some r → h.at? c q = some c → q = []

variable {h : Heap} {v w : Value} {p : List Nat}

theorem at?_append (h : Heap) (v : Value) (p q : List Nat) :
    h.at? v (p ++ q) = (h.at? v p).bind fun w => h.at? w q :=
  descend_append h.parts v p q

theorem Unfolds.unique {t u : Tree} (ht : h.Unfolds v t) (hu : h.Unfolds v u) : t = u := by
  refine Tree.eq_of_nodes t u fun p => ?_
  by_cases below : ∃ q, Above q p ∧ h.Recurs v q
  · obtain ⟨q, above, recurs⟩ := below
    rw [ht.dropped p q above recurs, hu.dropped p q above recurs]
  · have clear (q) (above : Above q p) : ¬ h.Recurs v q := fun recurs => below ⟨q, above, recurs⟩
    by_cases here : h.Recurs v p
    · rw [ht.cut p here clear, hu.cut p here clear]
    · have whole (q) (before : q <+: p) : ¬ h.Recurs v q :=
        (prefix_iff_above.1 before).elim (fun same => same ▸ here) (clear q)
      rw [ht.kept p whole, hu.kept p whole]

section Unfold
variable {path : List Ref}

theorem unfold_met {r : Ref} (isRef : w.ref? = some r) (met : r ∈ path) :
    h.unfold path w = .cycle := by
  cases w <;> cases isRef
  · rw [unfold_list, if_pos met]
  · rw [unfold_table, if_pos met]

variable (fresh : ∀ r, w.ref? = some r → r ∉ path)
include fresh

theorem node_unfold : (h.unfold path w).node = h.node w := by
  cases w with
  | list id => simp [unfold_list, fresh _ rfl, Tree.node, node]
  | table id => simp [unfold_table, fresh _ rfl, Tree.node, node, Entries.keys]
  | _ => simp [unfold, Tree.node, node]

theorem parts_unfold :
    (h.unfold path w).parts = (h.parts w).map (h.unfold (w.ref?.toList ++ path)) := by
  cases w with
  | list id => simp [unfold_list, fresh _ rfl, Tree.parts, parts, Value.ref?]
  | table id => simp [unfold_table, fresh _ rfl, Tree.parts, parts, Value.ref?]
  | _ => simp [unfold, Tree.parts, parts]

end Unfold

/-- What the tree of a value has at a position that is not below a cut: what stands there is
unfolded from the containers above it. -/
theorem at?_tree (clear : ∀ q, Above q p → ¬ h.Recurs v q) :
    ∃ path, (∀ r, r ∈ path ↔ ∃ q c, Above q p ∧ h.at? v q = some c ∧ c.ref? = some r) ∧
      (h.tree v).at? p = (h.at? v p).map (h.unfold path) := by
  -- From the root down, since the path grows at its lower end.
  induction p using List.reverseRecOn with
  | nil =>
    refine ⟨[], fun r => ⟨nofun, ?_⟩, rfl⟩
    rintro ⟨q, c, above, -⟩
    exact absurd above (not_above_nil q)
  | append_singleton p i ih =>
    obtain ⟨path, mem, subtree⟩ := ih fun q above => clear q (above.trans ⟨[i], rfl⟩)
    refine ⟨((h.at? v p).bind Value.ref?).toList ++ path, fun r => ?_, ?_⟩
    · simp only [List.mem_append, Option.mem_toList, Option.bind_eq_some_iff, mem,
        above_concat, prefix_iff_above]
      grind
    · rw [Tree.at?, descend_append, ← Tree.at?, subtree, at?_append]
      cases here : h.at? v p with
      | none => rfl
      | some w =>
        have fresh (r) (isRef : w.ref? = some r) : r ∉ path := by
          intro met
          obtain ⟨q, c, above, there, same⟩ := (mem r).1 met
          cases Value.ref?_inj same isRef
          exact clear p (above_concat.2 List.prefix_rfl) ⟨w, r, isRef, here, q, above, there⟩
        simp [descend, at?, parts_unfold fresh]

theorem tree_kept (clear : ∀ q, q <+: p → ¬ h.Recurs v q) :
    (h.tree v).node? p = (h.at? v p).map h.node := by
  obtain ⟨path, mem, subtree⟩ := at?_tree fun q above => clear q above.1
  rw [Tree.node?, subtree, Option.map_map]
  refine Option.map_congr fun w here => node_unfold fun r isRef met => ?_
  obtain ⟨q, c, above, there, same⟩ := (mem r).1 met
  cases Value.ref?_inj same isRef
  exact clear p List.prefix_rfl ⟨w, r, isRef, here, q, above, there⟩

theorem tree_cut (recurs : h.Recurs v p) (clear : ∀ q, Above q p → ¬ h.Recurs v q) :
    (h.tree v).at? p = some .cycle := by
  obtain ⟨path, mem, subtree⟩ := at?_tree clear
  obtain ⟨c, r, isRef, here, q, above, there⟩ := recurs
  rw [subtree, here, Option.map_some, unfold_met isRef ((mem r).2 ⟨q, c, above, there, isRef⟩)]

theorem exists_first_recurs {q : List Nat} (recurs : h.Recurs v q) :
    ∃ p, p <+: q ∧ h.Recurs v p ∧ ∀ o, Above o p → ¬ h.Recurs v o := by
  generalize size : q.length = n
  induction n using Nat.strong_induction_on generalizing q with
  | _ n ih =>
    by_cases first : ∀ o, Above o q → ¬ h.Recurs v o
    · exact ⟨q, List.prefix_rfl, recurs, first⟩
    · simp only [not_forall, not_not] at first
      obtain ⟨o, above, earlier⟩ := first
      obtain ⟨p, before, found, clear⟩ := ih o.length (size ▸ above.length_lt) earlier rfl
      exact ⟨p, before.trans above.1, found, clear⟩

theorem tree_dropped {q : List Nat} (above : Above q p) (recurs : h.Recurs v q) :
    (h.tree v).at? p = none := by
  obtain ⟨o, before, found, clear⟩ := exists_first_recurs recurs
  obtain ⟨s, rfl⟩ := before.trans above.1
  have further : s ≠ [] := by
    rintro rfl
    rw [List.append_nil] at above
    exact Nat.not_lt.2 before.length_le above.length_lt
  obtain ⟨i, s, rfl⟩ := List.exists_cons_of_ne_nil further
  rw [Tree.at?, descend_append, ← Tree.at?, tree_cut found clear]
  rfl

theorem unfolds_tree (h : Heap) (v : Value) : h.Unfolds v (h.tree v) where
  cut p recurs clear := by rw [Tree.node?, tree_cut recurs clear]; rfl
  kept p clear := tree_kept clear
  dropped p q above recurs := by rw [Tree.node?, tree_dropped above recurs]; rfl

theorem unfolds_iff {t : Tree} : h.Unfolds v t ↔ t = h.tree v :=
  ⟨fun ht => ht.unique (unfolds_tree h v), fun same => same ▸ unfolds_tree h v⟩

theorem recurs_iff : h.Recurs v p ↔ ∃ q s c r, p = q ++ s ∧ s ≠ [] ∧ c.ref? = some r ∧
    h.at? v q = some c ∧ h.at? c s = some c := by
  constructor
  · rintro ⟨c, r, isRef, here, q, ⟨⟨s, rfl⟩, other⟩, there⟩
    rw [at?_append, there] at here
    exact ⟨q, s, c, r, rfl, by rintro rfl; simp at other, isRef, there, here⟩
  · rintro ⟨q, s, c, r, rfl, further, isRef, there, around⟩
    refine ⟨c, r, isRef, ?_, q, ⟨⟨s, rfl⟩, by simpa using further⟩, there⟩
    rw [at?_append, there]
    exact around

theorem Acyclic.not_recurs (acyclic : h.Acyclic v) (p : List Nat) : ¬ h.Recurs v p := by
  intro recurs
  obtain ⟨q, s, c, r, -, further, isRef, there, around⟩ := recurs_iff.1 recurs
  exact further (acyclic q s c r there isRef around)

/-- Below a container without a cycle nothing recurs: a way from a container above it to itself
would go on to be one in it. -/
theorem Acyclic.not_recurs_below (acyclic : h.Acyclic w) (here : h.at? v p = some w)
    (s : List Nat) : ¬ h.Recurs v (p ++ s) := by
  intro recurs
  obtain ⟨q, t, c, r, whole, further, isRef, there, around⟩ := recurs_iff.1 recurs
  rcases List.append_eq_append_iff.1 whole with ⟨u, rfl, rfl⟩ | ⟨u, rfl, rfl⟩
  · rw [at?_append, here] at there
    exact further (acyclic u t c r there isRef around)
  · rw [at?_append, there] at here
    have back : h.at? w s = some c := by
      rw [at?_append, show h.at? c u = some w from here] at around
      exact around
    exact further (acyclic s (u ++ s) c r back isRef around)

theorem Acyclic.whole (acyclic : h.Acyclic w) (here : h.at? v p = some w)
    (clear : ∀ q, Above q p → ¬ h.Recurs v q) :
    (h.tree v).at? p = some (h.tree w) ∧ ∀ q, (h.tree w).node? q = (h.at? w q).map h.node := by
  have full (q) : (h.tree w).node? q = (h.at? w q).map h.node :=
    tree_kept fun o _ => acyclic.not_recurs o
  refine ⟨?_, full⟩
  obtain ⟨path, -, subtree⟩ := at?_tree clear
  rw [here, Option.map_some] at subtree
  rw [subtree]
  refine congrArg some (Tree.eq_of_nodes _ _ fun q => ?_)
  have shown : (h.tree v).node? (p ++ q) = (h.at? v (p ++ q)).map h.node := by
    refine tree_kept fun o before => ?_
    by_cases above : Above o p
    · exact clear o above
    · rcases List.prefix_or_prefix_of_prefix before (List.prefix_append p q) with up | ⟨s, rfl⟩
      · cases (prefix_iff_above.1 up).resolve_right above
        simpa using acyclic.not_recurs_below here []
      · exact acyclic.not_recurs_below here s
  rw [at?_append, here, Tree.node?, Tree.at?, descend_append, ← Tree.at?, subtree] at shown
  exact shown.trans (full q).symm

theorem at?_flat (flat : ∀ w ∈ h.parts v, w.ref? = none) {c : Value} {r : Ref}
    (here : h.at? v p = some c) (isRef : c.ref? = some r) : p = [] := by
  cases p with
  | nil => rfl
  | cons i p =>
    obtain ⟨w, part, there⟩ := Option.bind_eq_some_iff.1 here
    have noRef := flat w (List.mem_of_getElem? part)
    cases w <;> cases noRef <;> cases p <;> cases there <;> cases isRef

theorem acyclic_of_flat (flat : ∀ w ∈ h.parts v, w.ref? = none) : h.Acyclic v := by
  intro p q c r here isRef around
  cases at?_flat flat here isRef
  cases here
  exact at?_flat flat around isRef

end Heap

end StepsLang
