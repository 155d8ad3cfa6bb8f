import StepsLang.Report

/-!
Computations that work on a state in place and may fail. What was done before a failure stays done,
so that a failure leaves the state alone has to be proved of each of them.
-/

namespace StepsLang

def Mutation (S α : Type) : Type := S → Except Report α × S

namespace Mutation

def succeed (a : α) : Mutation S α := fun s => (.ok a, s)

def fail (r : Report) : Mutation S α := fun s => (.error r, s)

def andThen (x : Mutation S α) (f : α → Mutation S β) : Mutation S β := fun s =>
  match x s with
  | (.ok a, s) => f a s
  | (.error r, s) => (.error r, s)

instance : Monad (Mutation S) where
  pure := succeed
  bind := andThen

def read : Mutation S S := fun s => (.ok s, s)

def update (f : S → S) : Mutation S Unit := fun s => (.ok (), f s)

theorem bind_apply (x : Mutation S α) (f : α → Mutation S β) (s : S) :
    (x >>= f) s = match x s with
      | (.ok a, t) => f a t
      | (.error r, t) => (.error r, t) := rfl

def result (c : Mutation S α) (s : S) : Except Report (α × S) :=
  match c s with
  | (.ok a, s) => .ok (a, s)
  | (.error r, _) => .error r

def made (c : Mutation S Unit) (s : S) : Except Report S := (·.2) <$> c.result s

/-- A change that fails has changed nothing. -/
def Atomic (c : Mutation S α) : Prop := ∀ s r t, c s = (.error r, t) → t = s

theorem atomic_fail (r : Report) : (fail r : Mutation S α).Atomic := by
  rintro s r' t ⟨⟩
  rfl

theorem atomic_update (f : S → S) : (update f).Atomic := fun _ _ _ failed => nomatch failed

theorem made_eq (c : Mutation S Unit) (s : S) :
    c.made s = match c s with
      | (.ok _, t) => .ok t
      | (.error r, _) => .error r := by
  unfold made result
  rcases c s with ⟨_ | _, t⟩ <;> rfl

theorem Atomic.made_eq {c : Mutation S Unit} (h : c.Atomic) (s : S) :
    c s = match c.made s with
      | .ok t => (.ok (), t)
      | .error r => (.error r, s) := by
  rw [Mutation.made_eq]
  rcases e : c s with ⟨r | a, t⟩
  · rw [h s r t e]
  · rfl

end Mutation

end StepsLang
