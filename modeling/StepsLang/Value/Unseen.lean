/-!
Walks that remember where they have been. On a finite heap a walk that never enters a container
twice comes to an end, because each new container on its path leaves fewer to enter.
-/

namespace StepsLang

def unseen [DecidableEq α] (all path : List α) : List α := all.filter (· ∉ path)

theorem unseen_cons_lt [DecidableEq α] {all path : List α} {x : α} (hx : x ∈ all)
    (hp : x ∉ path) : (unseen all (x :: path)).length < (unseen all path).length := by
  have split : unseen all (x :: path) = (unseen all path).filter (· ≠ x) := by
    simp [unseen, List.filter_filter]
  rw [split]
  exact List.length_filter_lt_length_iff_exists.2 ⟨x, by simp [unseen, hx, hp], by simp⟩

end StepsLang
