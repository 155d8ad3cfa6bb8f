import Mathlib.Data.List.Basic

namespace StepsLang

universe u v

variable {α : Type u} {κ : Type v} {xs ys ps qs : List α} {a : α}

theorem append_eq_append_cons (h : xs ++ ys = ps ++ a :: qs) :
    (∃ more, xs = ps ++ a :: more ∧ qs = more ++ ys) ∨
      ∃ more, ps = xs ++ more ∧ ys = more ++ a :: qs := by
  rcases List.append_eq_append_iff.1 h with ⟨more, front, back⟩ | ⟨more, front, back⟩
  · exact .inr ⟨more, front, back⟩
  · cases more with
    | nil => exact .inr ⟨[], by simpa using front.symm, by simpa using back.symm⟩
    | cons b more =>
      obtain ⟨rfl, rfl⟩ := List.cons.inj back
      exact .inl ⟨more, front, rfl⟩

theorem split_left (h : xs ++ ys = ps ++ a :: qs) (out : a ∉ ys) :
    ∃ more, xs = ps ++ a :: more ∧ qs = more ++ ys :=
  (append_eq_append_cons h).resolve_right fun ⟨_, _, back⟩ => out (by simp [back])

theorem split_right (h : xs ++ ys = ps ++ a :: qs) (out : a ∉ xs) :
    ∃ more, ps = xs ++ more ∧ ys = more ++ a :: qs :=
  (append_eq_append_cons h).resolve_left fun ⟨_, front, _⟩ => out (by simp [front])

theorem bne_of_not_mem [BEq α] [LawfulBEq α] (out : a ∉ xs) : ∀ x ∈ xs, (x != a) = true :=
  fun _ there => bne_iff_ne.2 fun same => out (same ▸ there)

theorem lookup_filter_ne [BEq κ] [LawfulBEq κ] {k l : κ} (other : l ≠ k) (m : List (κ × α)) :
    (m.filter (·.1 != k)).lookup l = m.lookup l := by
  induction m with
  | nil => rfl
  | cons e m ih =>
    obtain ⟨i, b⟩ := e
    by_cases dropped : i = k
    · subst dropped
      simp [List.lookup_cons, beq_eq_false_iff_ne.2 other, ih]
    · simp [List.lookup_cons, dropped, ih]

end StepsLang
