import StepsLang.Bytes

namespace StepsLang.EditDistance

/-- One row of the distance table from the row above it. Entry `j` of a row is the distance from
the letters read so far to the first `j` letters of the other name; `left` is the entry before the
ones still to compute, and the row above starts with its neighbour. -/
def nextEntries (x : UInt8) : Nat → Bytes → List Nat → List Nat
  | left, y :: ys, corner :: above :: rest =>
    let here := min (min (above + 1) (left + 1)) (corner + if x == y then 0 else 1)
    here :: nextEntries x here ys (above :: rest)
  | _, _, _ => []

def nextRow (b : Bytes) (row : List Nat) (x : UInt8) : List Nat :=
  let first := row.headD 0 + 1
  first :: nextEntries x first b row

def distance (a b : Bytes) : Nat :=
  (a.foldl (nextRow b) (List.range (b.length + 1))).getLastD 0

def nearest? (name : Bytes) (candidates : List Bytes) : Option (Bytes × Nat) :=
  candidates.foldl step none
where
  step (best : Option (Bytes × Nat)) (c : Bytes) : Option (Bytes × Nat) :=
    if c == name then best
    else
      let d := distance name c
      match best with
      | none => some (c, d)
      | some (_, e) => if d < e then some (c, d) else best

/-- How far apart two names may be for one to be suggested for the other: a third of the longer
one, and never less than two. -/
def limit (name candidate : Bytes) : Nat := max 2 (max name.length candidate.length / 3)

def suggestion? (name : Bytes) (candidates : List Bytes) : Option Bytes :=
  match nearest? name candidates with
  | none => none
  | some (c, d) => if c.isEmpty || limit name c < d then none else some c

end StepsLang.EditDistance
