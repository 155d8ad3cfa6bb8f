import StepsLang.Bytes

namespace StepsLang.Template

def splitClose (s : Bytes) : Option (Bytes × Bytes) :=
  match s.dropWhile (· != Byte.closeBrace) with
  | [] => none
  | _ :: after => some (s.takeWhile (· != Byte.closeBrace), after)

def placeholder? (values : List (Bytes × Bytes)) : Bytes → Option (Bytes × Bytes)
  | [] => none
  | b :: rest =>
    if b == Byte.openBrace then
      match splitClose rest with
      | none => none
      | some (key, after) => (values.lookup key).map (·, after)
    else none

theorem length_splitClose {s key after : Bytes} (h : splitClose s = some (key, after)) :
    after.length < s.length := by
  unfold splitClose at h
  have hs := (List.dropWhile_sublist (fun b => b != Byte.closeBrace) (l := s)).length_le
  split at h
  · contradiction
  · next hd =>
    cases h
    simp only [hd, List.length_cons] at hs
    omega

theorem length_placeholder? {values : List (Bytes × Bytes)} {s v rest : Bytes}
    (h : placeholder? values s = some (v, rest)) : rest.length < s.length := by
  cases s with
  | nil => simp [placeholder?] at h
  | cons b tail =>
    simp only [placeholder?] at h
    split at h
    · split at h
      · contradiction
      · next hs =>
        obtain ⟨w, -, hw⟩ := Option.map_eq_some_iff.1 h
        cases hw
        have := length_splitClose hs
        simp only [List.length_cons]
        omega
    · contradiction

/-- Replaces every placeholder that has a value; all other bytes stay, unbalanced braces too. -/
def fill (values : List (Bytes × Bytes)) (s : Bytes) : Bytes :=
  match h : placeholder? values s with
  | some (v, rest) =>
    have := length_placeholder? h
    v ++ fill values rest
  | none =>
    match s with
    | [] => []
    | b :: rest => b :: fill values rest
termination_by s.length

end StepsLang.Template
