import Mathlib.Data.List.Basic
import Mathlib.Order.Bounds.Basic
import Mathlib.Order.MinMax
import StepsLang.EditDistance

namespace StepsLang.EditDistance

inductive Edit : Bytes → Bytes → Prop
  | insert (before : Bytes) (x : UInt8) (after : Bytes) :
    Edit (before ++ after) (before ++ x :: after)
  | delete (before : Bytes) (x : UInt8) (after : Bytes) :
    Edit (before ++ x :: after) (before ++ after)
  | replace (before : Bytes) (x y : UInt8) (after : Bytes) :
    Edit (before ++ x :: after) (before ++ y :: after)

inductive Edits : Nat → Bytes → Bytes → Prop
  | none (a : Bytes) : Edits 0 a a
  | more {n : Nat} {a b c : Bytes} : Edit a b → Edits n b c → Edits (n + 1) a c

def apart : Bytes → Bytes → Nat
  | [], b => b.length
  | a, [] => a.length
  | x :: a, y :: b =>
    min (min (apart a (y :: b) + 1) (apart (x :: a) b + 1)) (apart a b + if x = y then 0 else 1)
termination_by a b => a.length + b.length

variable {a b c : Bytes} {m n : Nat}

section Edits

theorem Edit.symm (h : Edit a b) : Edit b a := by
  cases h with
  | insert before x after => exact .delete before x after
  | delete before x after => exact .insert before x after
  | replace before x y after => exact .replace before y x after

theorem Edit.cons (h : Edit a b) (x : UInt8) : Edit (x :: a) (x :: b) := by
  cases h with
  | insert before y after => exact .insert (x :: before) y after
  | delete before y after => exact .delete (x :: before) y after
  | replace before y z after => exact .replace (x :: before) y z after

theorem Edit.reverse (h : Edit a b) : Edit a.reverse b.reverse := by
  cases h with
  | insert before x after => simpa using Edit.insert after.reverse x before.reverse
  | delete before x after => simpa using Edit.delete after.reverse x before.reverse
  | replace before x y after => simpa using Edit.replace after.reverse x y before.reverse

theorem Edits.one (h : Edit a b) : Edits 1 a b := .more h (.none b)

theorem Edits.trans (h : Edits m a b) (h' : Edits n b c) : Edits (m + n) a c := by
  induction h with
  | none => simpa using h'
  | more edit _ ih => simpa [Nat.add_right_comm] using Edits.more edit (ih h')

theorem Edits.symm (h : Edits n a b) : Edits n b a := by
  induction h with
  | none => exact .none _
  | more edit _ ih => exact ih.trans (.one edit.symm)

theorem Edits.cons (h : Edits n a b) (x : UInt8) : Edits n (x :: a) (x :: b) := by
  induction h with
  | none => exact .none _
  | more edit _ ih => exact .more (edit.cons x) ih

theorem Edits.reverse (h : Edits n a b) : Edits n a.reverse b.reverse := by
  induction h with
  | none => exact .none _
  | more edit _ ih => exact .more edit.reverse ih

theorem edits_reverse_iff : Edits n a.reverse b.reverse ↔ Edits n a b :=
  ⟨fun h => by simpa using h.reverse, Edits.reverse⟩

theorem edits_zero_iff : Edits 0 a b ↔ a = b := by
  constructor
  · intro h
    cases h
    rfl
  · rintro rfl
    exact .none a

theorem edits_nil (b : Bytes) : Edits b.length [] b := by
  induction b with
  | nil => exact .none []
  | cons y b ih => exact .more (.insert [] y []) (ih.cons y)

end Edits

section Recursion

@[simp] theorem apart_nil (b : Bytes) : apart [] b = b.length := by rw [apart]

@[simp] theorem apart_nil_right (a : Bytes) : apart a [] = a.length := by
  cases a <;> simp [apart]

theorem apart_cons (x y : UInt8) (a b : Bytes) :
    apart (x :: a) (y :: b) =
      min (min (apart a (y :: b) + 1) (apart (x :: a) b + 1))
        (apart a b + if x = y then 0 else 1) := by
  rw [apart]

theorem edits_apart (a b : Bytes) : Edits (apart a b) a b := by
  fun_induction apart a b with
  | case1 b => exact edits_nil b
  | case2 a => exact (edits_nil a).symm
  | case3 x a y b delete insert keep =>
    rcases min_choice (min (apart a (y :: b) + 1) (apart (x :: a) b + 1))
      (apart a b + if x = y then 0 else 1) with outer | outer <;> rw [outer]
    · rcases min_choice (apart a (y :: b) + 1) (apart (x :: a) b + 1) with inner | inner <;>
        rw [inner]
      · exact .more (.delete [] x a) delete
      · exact insert.trans (.one (.insert [] y b))
    · split
      · next same => exact same ▸ keep.cons x
      · exact .more (.replace [] x y a) (keep.cons y)

theorem apart_self (a : Bytes) : apart a a = 0 := by
  induction a with
  | nil => simp
  | cons x a ih => simp [apart_cons, ih]

theorem apart_delete_le (x : UInt8) (a b : Bytes) : apart (x :: a) b ≤ apart a b + 1 := by
  cases b with
  | nil => simp
  | cons y b =>
    rw [apart_cons]
    omega

theorem apart_cons_right_le (a : Bytes) (y : UInt8) (b : Bytes) :
    apart a (y :: b) ≤ apart a b + 1 := by
  cases a with
  | nil => simp
  | cons x a =>
    rw [apart_cons]
    omega

theorem apart_insert_le (x : UInt8) (a b : Bytes) : apart a b ≤ apart (x :: a) b + 1 := by
  induction b with
  | nil => simp; omega
  | cons y b ih =>
    have right := apart_cons_right_le a y b
    rw [apart_cons]
    omega

theorem apart_replace_le (x y : UInt8) (a b : Bytes) :
    apart (x :: a) b ≤ apart (y :: a) b + 1 := by
  induction b with
  | nil => simp
  | cons z b ih =>
    rw [apart_cons, apart_cons]
    split <;> split <;> omega

theorem apart_cons_le (x : UInt8) (h : ∀ c, apart a c ≤ apart b c + 1) (c : Bytes) :
    apart (x :: a) c ≤ apart (x :: b) c + 1 := by
  induction c with
  | nil => simpa using h []
  | cons z c ih =>
    have first := h (z :: c)
    have rest := h c
    rw [apart_cons, apart_cons]
    omega

theorem Edit.apart_le (h : Edit a b) (c : Bytes) : apart a c ≤ apart b c + 1 := by
  have behind (before : Bytes) {a b : Bytes} (h : ∀ c, apart a c ≤ apart b c + 1) :
      ∀ c, apart (before ++ a) c ≤ apart (before ++ b) c + 1 := by
    induction before with
    | nil => exact h
    | cons x before ih => exact apart_cons_le x ih
  cases h with
  | insert before x after => exact behind before (apart_insert_le x after) c
  | delete before x after => exact behind before (apart_delete_le x after) c
  | replace before x y after => exact behind before (apart_replace_le x y after) c

theorem Edits.apart_le (h : Edits n a b) : apart a b ≤ n := by
  induction h with
  | none a => exact (apart_self a).le
  | more edit _ ih => exact (edit.apart_le _).trans (Nat.succ_le_succ ih)

theorem apart_isLeast (a b : Bytes) : IsLeast {n | Edits n a b} (apart a b) :=
  ⟨edits_apart a b, fun _ h => h.apart_le⟩

theorem apart_reverse (a b : Bytes) : apart a.reverse b.reverse = apart a b := by
  refine (apart_isLeast a.reverse b.reverse).unique ?_
  simp only [edits_reverse_iff]
  exact apart_isLeast a b

end Recursion

section Table

/-- The entries of a row of the table from a place on: `p` and `q` are the letters before the row
and before the place, last ones first. -/
def entries (p q : Bytes) : Bytes → List Nat
  | [] => [apart p q]
  | y :: ys => apart p q :: entries p (y :: q) ys

theorem entries_eq_cons (p q ys : Bytes) :
    entries p q ys = apart p q :: (entries p q ys).tail := by
  cases ys <;> rfl

theorem nextEntries_entries (x : UInt8) (p q ys : Bytes) :
    nextEntries x (apart (x :: p) q) ys (entries p q ys) = (entries (x :: p) q ys).tail := by
  induction ys generalizing q with
  | nil => rfl
  | cons y ys ih =>
    have here : min (min (apart p (y :: q) + 1) (apart (x :: p) q + 1))
        (apart p q + if (x == y) = true then 0 else 1) = apart (x :: p) (y :: q) := by
      simp only [apart_cons, beq_iff_eq]
    rw [entries, entries_eq_cons, nextEntries, here, ← entries_eq_cons, ih, entries, List.tail_cons,
      ← entries_eq_cons]

theorem nextRow_entries (x : UInt8) (p b : Bytes) :
    nextRow b (entries p [] b) x = entries (x :: p) [] b := by
  have first : (entries p [] b).headD 0 + 1 = apart (x :: p) [] := by
    rw [entries_eq_cons]
    simp
  rw [nextRow, first, nextEntries_entries, ← entries_eq_cons]

theorem foldl_nextRow (a p b : Bytes) :
    a.foldl (nextRow b) (entries p [] b) = entries (a.reverse ++ p) [] b := by
  induction a generalizing p with
  | nil => rfl
  | cons x a ih => rw [List.foldl_cons, nextRow_entries, ih, List.reverse_cons, List.append_assoc,
      List.singleton_append]

theorem entries_nil (q ys : Bytes) : entries [] q ys = List.range' q.length (ys.length + 1) := by
  induction ys generalizing q with
  | nil => simp [entries]
  | cons y ys ih => simp [entries, ih, List.range'_succ]

theorem getLast?_entries (p q ys : Bytes) :
    (entries p q ys).getLast? = some (apart p (ys.reverse ++ q)) := by
  induction ys generalizing q with
  | nil => rfl
  | cons y ys ih =>
    have more : entries p (y :: q) ys ≠ [] := by
      rw [entries_eq_cons]
      exact List.cons_ne_nil _ _
    rw [entries, List.getLast?_cons_of_ne_nil more, ih, List.reverse_cons, List.append_assoc,
      List.singleton_append]

theorem distance_eq_apart (a b : Bytes) : distance a b = apart a b := by
  have first : List.range (b.length + 1) = entries [] [] b := by
    rw [entries_nil, List.range_eq_range']
    rfl
  rw [distance, first, foldl_nextRow, List.getLastD_eq_getLast?, getLast?_entries, List.append_nil,
    List.append_nil, Option.getD_some, apart_reverse]

end Table

/-- The distance is the least number of edits from one name to the other, which is the number that
the recursion gives.  So it tells names apart, goes both ways alike, and no detour is shorter. -/
theorem distance_least (a b c : Bytes) :
    IsLeast {n | Edits n a b} (distance a b) ∧ distance a b = apart a b ∧
      (distance a b = 0 ↔ a = b) ∧ distance a b = distance b a ∧
      distance a c ≤ distance a b + distance b c := by
  have least (a b : Bytes) : IsLeast {n | Edits n a b} (distance a b) :=
    distance_eq_apart a b ▸ apart_isLeast a b
  refine ⟨least a b, distance_eq_apart a b, ⟨fun zero => ?_, ?_⟩, ?_, ?_⟩
  · exact edits_zero_iff.1 (zero ▸ (least a b).1)
  · rintro rfl
    rw [distance_eq_apart, apart_self]
  · exact le_antisymm ((least a b).2 (least b a).1.symm) ((least b a).2 (least a b).1.symm)
  · exact (least a c).2 ((least a b).1.trans (least b c).1)

end StepsLang.EditDistance
