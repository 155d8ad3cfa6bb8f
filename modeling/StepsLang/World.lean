import StepsLang.Mutation
import StepsLang.Input
import StepsLang.Value.Basic

/-!
What a running program shares with everything around it: containers, files, input, output and
random numbers. Variables are not part of it.
-/

namespace StepsLang

structure Random where
  state : Nat := 0
  deriving Repr, Inhabited

namespace Random

def next (r : Random) : Random :=
  ⟨(6364136223846793005 * r.state + 1442695040888963407) % Nat.pow 2 64⟩

/-- A number below `n`, from the upper halves of two states, as the lower bits repeat soon. -/
def below (n : Nat) (r : Random) : Nat × Random :=
  let first := r.next
  let second := first.next
  ((first.state / Nat.pow 2 32 * Nat.pow 2 32 + second.state / Nat.pow 2 32) % n, second)

end Random

structure World where
  heap : Heap := {}
  files : Files := {}
  input : Input := {}
  output : Array Bytes := #[]
  random : Random := {}
  deriving Repr, Inhabited

abbrev Effect : Type → Type := Mutation World

namespace Effect

def ask (f : Heap → Except Report α) : Effect α := fun w => (f w.heap, w)

def onHeap (f : Heap → Except Report (α × Heap)) : Effect α := fun w =>
  match f w.heap with
  | .ok (a, heap) => (.ok a, { w with heap })
  | .error r => (.error r, w)

def newList (items : List Value) : Effect Value :=
  onHeap fun h => .ok (h.newList items.toArray)

def newTable (pairs : List (Bytes × Value)) : Effect Value :=
  onHeap fun h => .ok (h.newTable pairs)

def readLine : Effect Bytes := fun w =>
  let (line, input) := w.input.read w.files
  (.ok line, { w with input })

end Effect

end StepsLang
