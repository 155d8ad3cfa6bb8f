import Mathlib.Data.List.Basic
import StepsLang.Token.Cursor

namespace StepsLang

namespace Cursor

theorem hear_eq (c : Cursor) (n : Nat) : c.hear n =
    { c with
      reports := c.reports ++ (c.rest.take n).flatMap (·.reports)
      rest := (c.rest.take n).map (⟨[], ·.token⟩) ++ c.rest.drop n } := by
  unfold hear
  split
  · next silent =>
    have none : ∀ x ∈ c.rest.take n, x.reports = [] := fun x hx =>
      List.isEmpty_iff.1 (List.all_eq_true.1 silent x hx)
    have same : (c.rest.take n).map (⟨[], ·.token⟩) = c.rest.take n := by
      conv_rhs => rw [← List.map_id (c.rest.take n)]
      exact List.map_congr_left fun x hx => by rw [← none x hx]; rfl
    rw [same, List.take_append_drop, List.flatMap_eq_nil_iff.2 none, List.append_nil]
  · rfl

/-- Everything that is wrong so far and that will be heard of. -/
def faults (c : Cursor) : Nat := c.reports.length + (c.rest.flatMap (·.reports)).length

theorem faults_hear (c : Cursor) (n : Nat) : (c.hear n).faults = c.faults := by
  have silent : ∀ xs : List Heard,
      (xs.map fun x => (⟨[], x.token⟩ : Heard)).flatMap (·.reports) = [] := by
    intro xs
    rw [List.flatMap_map]
    exact List.flatMap_eq_nil_iff.2 fun _ _ => rfl
  rw [hear_eq]
  conv_rhs => rw [faults, ← List.take_append_drop n c.rest]
  simp only [faults, List.flatMap_append, silent, List.length_append, List.nil_append]
  omega

theorem hear_one {c : Cursor} {x : Heard} {rest : List Heard} (h : c.rest = x :: rest) :
    c.hear 1 = { c with reports := c.reports ++ x.reports, rest := ⟨[], x.token⟩ :: rest } := by
  rw [hear_eq, h]
  simp

theorem hear_hear (c : Cursor) : (c.hear 1).hear 1 = c.hear 1 := by
  cases h : c.rest with
  | nil => rw [hear_eq, hear_eq]; simp [h]
  | cons x rest => rw [hear_one h, hear_one rfl, List.append_nil]

theorem faults_advance (c : Cursor) : (c.hear 1).advance.faults = c.faults := by
  rw [← faults_hear c 1]
  cases h : c.rest with
  | nil => rw [hear_eq]; simp [h, advance]
  | cons x rest =>
    rw [hear_one h, advance]
    cases rest with
    | nil => rfl
    | cons y rest =>
      dsimp only
      split <;> rfl

theorem faults_report (c : Cursor) (r : Report) : c.faults ≤ (Reader.report r c).2.faults := by
  change c.faults ≤ (if c.base < c.reports.length then c else _).faults
  split
  · exact Nat.le_refl _
  · simp only [faults, List.length_append]
    omega

structure Grows (c d : Cursor) : Prop where
  reports : c.reports.length ≤ d.reports.length
  faults : c.faults ≤ d.faults

namespace Grows

theorem refl (c : Cursor) : c.Grows c := ⟨Nat.le_refl _, Nat.le_refl _⟩

theorem trans {c d e : Cursor} (h : c.Grows d) (h' : d.Grows e) : c.Grows e :=
  ⟨Nat.le_trans h.reports h'.reports, Nat.le_trans h.faults h'.faults⟩

theorem loud {c d : Cursor} (h : c.Grows d) (hc : c.reports ≠ []) : d.reports ≠ [] := by
  intro silent
  have grows := h.reports
  rw [silent] at grows
  exact hc (List.length_eq_zero_iff.1 (Nat.le_zero.1 grows))

theorem hear (c : Cursor) (n : Nat) : c.Grows (c.hear n) := by
  refine ⟨?_, Nat.le_of_eq (faults_hear c n).symm⟩
  rw [hear_eq]
  simp

theorem advance (c : Cursor) : c.Grows (Reader.advance c).2 := by
  refine ⟨?_, Nat.le_of_eq (faults_advance c).symm⟩
  change _ ≤ ((c.hear 1).advance).reports.length
  unfold Cursor.advance
  split
  · split <;> exact (hear c 1).reports
  · exact (hear c 1).reports

theorem report (c : Cursor) (r : Report) : c.Grows (Reader.report r c).2 := by
  refine ⟨?_, faults_report c r⟩
  change _ ≤ (if c.base < c.reports.length then c else _ : Cursor).reports.length
  split
  · exact Nat.le_refl _
  · simp

end Grows

end Cursor

end StepsLang
