import Mathlib.Data.List.Induction
import StepsLang.EditDistance
import StepsLang.Proofs.List

namespace StepsLang.EditDistance

/-- A candidate that is near enough to be suggested: at most two letters away, or a third of the
longer name. -/
def Near (name c : Bytes) : Prop := distance name c ≤ max 2 (max name.length c.length / 3)

/-- The first of the candidates that are nearest to the name, among those with a property. -/
def FirstNearest (p : Bytes → Prop) (name : Bytes) (cs : List Bytes) (c : Bytes) : Prop :=
  ∃ before after, cs = before ++ c :: after ∧ p c ∧
    (∀ d ∈ before, p d → distance name c < distance name d) ∧
    ∀ d ∈ after, p d → distance name c ≤ distance name d

instance (name c : Bytes) : Decidable (Near name c) :=
  inferInstanceAs (Decidable (distance name c ≤ _))

section

variable {p q : Bytes → Prop} {name c d : Bytes} {cs : List Bytes}

namespace FirstNearest

theorem mem (h : FirstNearest p name cs c) : c ∈ cs := by
  obtain ⟨before, after, rfl, -⟩ := h
  simp

theorem unique (h : FirstNearest p name cs c) (h' : FirstNearest p name cs d) : c = d := by
  obtain ⟨before, after, rfl, hc, earlier, later⟩ := h
  obtain ⟨before', after', whole, hd, earlier', later'⟩ := h'
  rcases append_eq_append_cons whole with ⟨more, rfl, rfl⟩ | ⟨more, rfl, back⟩
  · have less := earlier d (by simp) hd
    have least := later' c (by simp) hc
    omega
  · cases more with
    | nil => exact (List.cons.inj back).1
    | cons b more =>
      obtain ⟨rfl, rfl⟩ := List.cons.inj back
      have less := earlier' c (by simp) hc
      have least := later d (by simp) hd
      omega

theorem has (h : FirstNearest p name cs c) : p c := by
  obtain ⟨_, _, _, hc, -⟩ := h
  exact hc

theorem narrow (h : FirstNearest p name cs c) (hq : q c) :
    FirstNearest (fun d => p d ∧ q d) name cs c := by
  obtain ⟨before, after, whole, hc, earlier, later⟩ := h
  exact ⟨before, after, whole, ⟨hc, hq⟩, fun d hd other => earlier d hd other.1,
    fun d hd other => later d hd other.1⟩

theorem concat (h : FirstNearest p name cs c) (last : p d → distance name c ≤ distance name d) :
    FirstNearest p name (cs ++ [d]) c := by
  obtain ⟨before, after, rfl, hc, earlier, later⟩ := h
  refine ⟨before, after ++ [d], by simp, hc, earlier, fun e he => ?_⟩
  rcases List.mem_append.1 he with inside | here
  · exact later e inside
  · obtain rfl := List.mem_singleton.1 here
    exact last

theorem last (hd : p d) (least : ∀ c ∈ cs, p c → distance name d < distance name c) :
    FirstNearest p name (cs ++ [d]) d :=
  ⟨cs, [], rfl, hd, least, fun _ none => nomatch none⟩

theorem distance_le (h : FirstNearest p name cs c) (hd : d ∈ cs) (other : p d) :
    distance name c ≤ distance name d := by
  obtain ⟨before, after, rfl, -, earlier, later⟩ := h
  rcases List.mem_append.1 hd with front | back
  · exact Nat.le_of_lt (earlier d front other)
  · rcases List.mem_cons.1 back with rfl | back
    · exact Nat.le_refl _
    · exact later d back other

end FirstNearest

def Best (name : Bytes) (cs : List Bytes) : Option (Bytes × Nat) → Prop
  | none => ∀ c ∈ cs, c = name
  | some (c, n) => FirstNearest (· ≠ name) name cs c ∧ n = distance name c

theorem Best.step {best : Option (Bytes × Nat)} (h : Best name cs best) (d : Bytes) :
    Best name (cs ++ [d]) (nearest?.step name best d) := by
  unfold nearest?.step
  split
  · next same =>
    obtain rfl := eq_of_beq same
    cases best with
    | none =>
      rw [Best, List.forall_mem_append]
      exact ⟨h, by simp⟩
    | some best => exact ⟨h.1.concat fun other => absurd rfl other, h.2⟩
  · next other =>
    have other : d ≠ name := by simpa using other
    cases best with
    | none => exact ⟨.last other fun c hc odd => absurd (h c hc) odd, rfl⟩
    | some best =>
      obtain ⟨c, n⟩ := best
      obtain ⟨nearest, rfl⟩ := h
      dsimp only
      split
      · next less =>
        exact ⟨.last other fun e he odd => Nat.lt_of_lt_of_le less (nearest.distance_le he odd), rfl⟩
      · next more => exact ⟨nearest.concat fun _ => Nat.le_of_not_lt more, rfl⟩

theorem best_nearest? (name : Bytes) (cs : List Bytes) : Best name cs (nearest? name cs) := by
  unfold nearest?
  induction cs using List.reverseRecOn with
  | nil => exact fun _ none => nomatch none
  | append_singleton cs d ih =>
    rw [List.foldl_concat]
    exact ih.step d

theorem nearest?_eq_none_iff : nearest? name cs = none ↔ ∀ c ∈ cs, c = name := by
  have best := best_nearest? name cs
  cases found : nearest? name cs with
  | none =>
    rw [found] at best
    exact ⟨fun _ => best, fun _ => rfl⟩
  | some best' =>
    rw [found] at best
    exact ⟨nofun, fun all => absurd (all _ best.1.mem) best.1.has⟩

theorem nearest?_eq_some_iff {n : Nat} :
    nearest? name cs = some (c, n) ↔ FirstNearest (· ≠ name) name cs c ∧ n = distance name c := by
  have best := best_nearest? name cs
  cases found : nearest? name cs with
  | none =>
    have all := nearest?_eq_none_iff.1 found
    exact ⟨nofun, fun ⟨h, _⟩ => absurd (all c h.mem) h.has⟩
  | some best' =>
    rw [found] at best
    constructor
    · rintro ⟨⟩
      exact best
    · rintro ⟨h, rfl⟩
      obtain rfl := h.unique best.1
      rw [← best.2]

theorem suggestion?_eq_some_iff :
    suggestion? name cs = some c ↔ FirstNearest (· ≠ name) name cs c ∧ c ≠ [] ∧ Near name c := by
  have near (c : Bytes) :
      (c.isEmpty || decide (limit name c < distance name c)) = false ↔ c ≠ [] ∧ Near name c := by
    rw [Bool.or_eq_false_iff, List.isEmpty_eq_false_iff, decide_eq_false_iff_not, Nat.not_lt]
    rfl
  unfold suggestion?
  constructor
  · intro h
    split at h
    · cases h
    · next c' n found =>
      obtain ⟨nearest, rfl⟩ := nearest?_eq_some_iff.1 found
      obtain ⟨fits, h⟩ := Option.ite_none_left_eq_some.1 h
      cases h
      exact ⟨nearest, (near c).1 (Bool.eq_false_iff.2 fits)⟩
  · rintro ⟨nearest, fits⟩
    rw [nearest?_eq_some_iff.2 ⟨nearest, rfl⟩]
    exact if_neg (Bool.eq_false_iff.1 ((near c).2 fits))

end

/-- What is suggested is the first of the nearest candidates, if it is near enough and not empty. -/
theorem suggestion?_nearest (name : Bytes) (cs : List Bytes) :
    (∀ c, suggestion? name cs = some c ↔
        FirstNearest (· ≠ name) name cs c ∧ c ≠ [] ∧ Near name c) ∧
      (∀ c, suggestion? name cs = some c →
        FirstNearest (fun d => d ≠ name ∧ Near name d) name cs c) ∧
      (suggestion? name cs = none ↔
        (∀ c ∈ cs, c ≠ name → ¬ Near name c) ∨
          ∃ c, FirstNearest (· ≠ name) name cs c ∧ (c = [] ∨ ¬ Near name c)) := by
  refine ⟨fun c => suggestion?_eq_some_iff, fun c h => ?_, fun none => ?_, fun h => ?_⟩
  · obtain ⟨nearest, -, near⟩ := suggestion?_eq_some_iff.1 h
    exact nearest.narrow near
  · cases found : nearest? name cs with
    | none => exact .inl fun c hc other => absurd (nearest?_eq_none_iff.1 found c hc) other
    | some best =>
      obtain ⟨nearest, -⟩ := nearest?_eq_some_iff.1 found
      refine .inr ⟨_, nearest, or_iff_not_imp_left.2 fun filled near => ?_⟩
      cases none.symm.trans (suggestion?_eq_some_iff.2 ⟨nearest, filled, near⟩)
  · refine Option.eq_none_iff_forall_ne_some.2 fun c some => ?_
    obtain ⟨nearest, filled, near⟩ := suggestion?_eq_some_iff.1 some
    rcases h with far | ⟨d, nearest', odd⟩
    · exact far c nearest.mem nearest.has near
    · obtain rfl := nearest.unique nearest'
      exact odd.elim filled fun far => far near

theorem suggestion?_nearest_tie :
    let cs : List Bytes := ["count", "totl", "total", "tote"]
    suggestion? "totl" cs = some "total" ∧
      FirstNearest (fun d => d ≠ "totl" ∧ Near "totl" d) "totl" cs "total" := by
  intro cs
  have found : suggestion? "totl" cs = some "total" := by decide +kernel
  exact ⟨found, (suggestion?_nearest "totl" cs).2.1 _ found⟩

/-- Nothing is suggested though a candidate is near enough, because another one that is too far off
for its length is as near or nearer; with the same candidates in the other order it is suggested. -/
theorem near_candidate_missed :
    let name : Bytes := "aaaaaaaaa"
    let near : Bytes := "aaaaaaaabbbb"
    let far : Bytes := "aaaaabbbb"
    near ≠ name ∧ Near name near ∧ ¬ Near name far ∧
      suggestion? name [far, near] = none ∧ suggestion? name [near, far] = some near ∧
      Near "ab" [] ∧ suggestion? "ab" [[]] = none := by
  decide +kernel

end StepsLang.EditDistance
