import StepsLang.Proofs.List
import StepsLang.Utf8

namespace StepsLang.Utf8

inductive WellFormed : Bytes → Prop
  | nil : WellFormed []
  | character {c s : Bytes} (hc : sequence? c = some c.length) (hs : WellFormed s) :
    WellFormed (c ++ s)

def Tail (n : Nat) (low high : UInt8) (rest : Bytes) : Prop :=
  ∃ c more, rest = c :: more ∧ low ≤ c ∧ c ≤ high ∧
    n - 2 ≤ more.length ∧ (more.take (n - 2)).all Byte.isContinuation = true

theorem shape?_bounds {b : UInt8} {n : Nat} {low high : UInt8}
    (h : shape? b = some (n, low, high)) :
    0 < n ∧ 0x80 ≤ low ∧ (n = 1 → b < 0x80) ∧ (n ≠ 1 → 0x80 ≤ b) := by
  simp only [shape?] at h
  grind

theorem sequence?_cons {b : UInt8} {rest : Bytes} {n : Nat} :
    sequence? (b :: rest) = some n ↔
      ∃ low high, shape? b = some (n, low, high) ∧ (n = 1 ∨ Tail n low high rest) := by
  simp only [sequence?]
  constructor
  · intro h
    split at h
    · cases h
    · next shape =>
      cases h
      exact ⟨_, _, shape, .inl rfl⟩
    · next m low high _ shape =>
      cases rest with
      | nil => cases h
      | cons c more =>
        simp only [Bool.and_eq_true, decide_eq_true_eq] at h
        split at h
        · next fits =>
          cases h
          exact ⟨low, high, shape, .inr ⟨c, more, rfl, fits.1.1.1, fits.1.1.2, fits.1.2, fits.2⟩⟩
        · cases h
  · rintro ⟨low, high, shape, rfl | ⟨c, more, rfl, above, below, long, tail⟩⟩
    · simp [shape]
    · rw [shape]
      split
      · next none => cases none
      · next one =>
        cases one
        rfl
      · next other =>
        cases other
        simp [above, below, long, tail]

theorem sequence?_bounds {s : Bytes} {n : Nat} (h : sequence? s = some n) :
    0 < n ∧ n ≤ s.length := by
  cases s with
  | nil => cases h
  | cons b rest =>
    obtain ⟨low, high, shape, rfl | ⟨c, more, rfl, _, _, long, _⟩⟩ := sequence?_cons.1 h
    · simp
    · have pos := (shape?_bounds shape).1
      simp only [List.length_cons]
      omega

theorem sequence?_append {c : Bytes} {n : Nat} (h : sequence? c = some n) (s : Bytes) :
    sequence? (c ++ s) = some n := by
  cases c with
  | nil => cases h
  | cons b rest =>
    obtain ⟨low, high, shape, rfl | ⟨d, more, rfl, above, below, long, tail⟩⟩ := sequence?_cons.1 h
    · exact sequence?_cons.2 ⟨low, high, shape, .inl rfl⟩
    · refine sequence?_cons.2 ⟨low, high, shape, .inr ⟨d, more ++ s, rfl, above, below, ?_, ?_⟩⟩
      · rw [List.length_append]
        omega
      · rwa [List.take_append_of_le_length long]

theorem sequence?_take {s : Bytes} {n : Nat} (h : sequence? s = some n) :
    sequence? (s.take n) = some n := by
  cases s with
  | nil => cases h
  | cons b rest =>
    obtain ⟨low, high, shape, rfl | ⟨d, more, rfl, above, below, long, tail⟩⟩ := sequence?_cons.1 h
    · exact sequence?_cons.2 ⟨low, high, shape, .inl rfl⟩
    · have pos := (shape?_bounds shape).1
      by_cases one : n = 1
      · subst one
        exact sequence?_cons.2 ⟨low, high, shape, .inl rfl⟩
      · obtain ⟨k, rfl⟩ : ∃ k, n = k + 2 := ⟨n - 2, by omega⟩
        rw [Nat.add_sub_cancel] at long tail
        refine sequence?_cons.2 ⟨low, high, shape, .inr ⟨d, more.take k, rfl, above, below, ?_, ?_⟩⟩
        · rw [List.length_take]
          omega
        · rwa [Nat.add_sub_cancel, List.take_take, Nat.min_self]

theorem go_append {c : Bytes} (s : Bytes) (place : Malformed) :
    malformed?.go c.length (c ++ s) place = malformed?.go 0 s place := by
  induction c with
  | nil => rfl
  | cons b c ih =>
    rw [← ih]
    rfl

theorem WellFormed.malformed? {s : Bytes} (h : WellFormed s) (place : Malformed) :
    malformed? s place = none := by
  unfold Utf8.malformed?
  induction h generalizing place with
  | nil => rfl
  | @character c s hc hs ih =>
    have whole := sequence?_append hc s
    cases c with
    | nil => exact ih place
    | cons b c =>
      rw [List.cons_append] at whole ⊢
      simp only [malformed?.go, whole]
      rw [List.length_cons, Nat.add_sub_cancel, go_append]
      exact ih _

theorem wellFormed_of_go {owed : Nat} {s : Bytes} {place : Malformed}
    (h : malformed?.go owed s place = none) : WellFormed (s.drop owed) := by
  induction s generalizing owed place with
  | nil =>
    rw [List.drop_nil]
    exact .nil
  | cons b rest ih =>
    cases owed with
    | succ owed => exact ih h
    | zero =>
      -- A character starts here, and the bytes it still owes are the rest of it.
      simp only [malformed?.go] at h
      split at h
      · cases h
      · next n found =>
        have ⟨pos, fits⟩ := sequence?_bounds found
        have here := sequence?_take found
        have later := ih h
        have split : b :: rest = (b :: rest).take n ++ rest.drop (n - 1) := by
          obtain ⟨n, rfl⟩ : ∃ k, n = k + 1 := ⟨n - 1, by omega⟩
          simp
        rw [List.drop_zero, split]
        refine .character ?_ later
        rw [here, List.length_take, Nat.min_eq_left fits]

theorem isValid_iff {s : Bytes} : isValid s = true ↔ WellFormed s := by
  constructor
  · intro h
    exact wellFormed_of_go (Option.isNone_iff_eq_none.1 h)
  · intro h
    rw [isValid, h.malformed?]
    rfl

theorem WellFormed.append {s t : Bytes} (hs : WellFormed s) (ht : WellFormed t) :
    WellFormed (s ++ t) := by
  induction hs with
  | nil => exact ht
  | character hc _ ih =>
    rw [List.append_assoc]
    exact .character hc ih

theorem wellFormed_of_ascii {s : Bytes} (h : ∀ b ∈ s, b < 0x80) : WellFormed s := by
  induction s with
  | nil => exact .nil
  | cons b s ih =>
    have first : sequence? [b] = some 1 := by
      simp [sequence?, shape?, h b (by simp)]
    exact WellFormed.character first (ih fun c hc => h c (by simp [hc]))

theorem wellFormed_of_all {s : Bytes} (h : s.all (· < 0x80) = true) : WellFormed s :=
  wellFormed_of_ascii fun b hb => of_decide_eq_true (List.all_eq_true.1 h b hb)

theorem high_of_isContinuation {b : UInt8} (h : Byte.isContinuation b = true) : 0x80 ≤ b := by
  have same : b &&& 0xC0 = 0x80 := by simpa [Byte.isContinuation] using h
  have below : (b &&& 0xC0).toNat ≤ b.toNat := by
    rw [UInt8.toNat_and]
    exact Nat.and_le_left
  rw [same] at below
  exact UInt8.le_iff_toNat_le.2 below

theorem ascii_or_high {c : Bytes} (h : sequence? c = some c.length) :
    (∃ b, c = [b] ∧ b < 0x80) ∨ ∀ b ∈ c, 0x80 ≤ b := by
  cases c with
  | nil => cases h
  | cons b rest =>
    obtain ⟨low, high, shape, one | ⟨d, more, rfl, above, below, long, tail⟩⟩ := sequence?_cons.1 h
    · left
      have last : rest = [] := List.length_eq_zero_iff.1 (by simpa using one)
      exact ⟨b, by rw [last], (shape?_bounds shape).2.2.1 one⟩
    · right
      have ⟨_, hlow, _, hb⟩ := shape?_bounds shape
      have rest : ∀ e ∈ more, 0x80 ≤ e := by
        intro e he
        have all : more.all Byte.isContinuation = true := by simpa using tail
        exact high_of_isContinuation (List.all_eq_true.1 all e he)
      intro e he
      rcases List.mem_cons.1 he with rfl | he
      · exact hb (by simp)
      · rcases List.mem_cons.1 he with rfl | he
        · exact UInt8.le_trans hlow above
        · exact rest e he

theorem WellFormed.split {x y : Bytes} {b : UInt8} (low : b < 0x80)
    (h : WellFormed (x ++ b :: y)) : WellFormed x ∧ WellFormed y := by
  generalize whole : x ++ b :: y = s at h
  induction h generalizing x with
  | nil => simp at whole
  | @character c s hc hs ih =>
    -- The byte is the first character, or it stands behind that.
    rcases append_eq_append_cons whole.symm with ⟨w, rfl, rfl⟩ | ⟨w, rfl, behind⟩
    · rcases ascii_or_high hc with ⟨e, one, -⟩ | high
      · obtain ⟨rfl, last⟩ := (List.append_eq_singleton_iff.1 one).resolve_right (by simp)
        obtain rfl := (List.cons.inj last).2
        exact ⟨.nil, hs⟩
      · exact absurd low (UInt8.not_lt.2 (high b (by simp)))
    · obtain ⟨front, back⟩ := ih behind.symm
      exact ⟨.character hc front, back⟩

theorem WellFormed.flatMap {s : Bytes} (h : WellFormed s) {f : UInt8 → Bytes}
    (low : ∀ b, b < 0x80 → WellFormed (f b)) (high : ∀ b, 0x80 ≤ b → f b = [b]) :
    WellFormed (s.flatMap f) := by
  induction h with
  | nil => exact .nil
  | @character c s hc hs ih =>
    rw [List.flatMap_append]
    rcases ascii_or_high hc with ⟨b, rfl, ascii⟩ | beyond
    · refine WellFormed.append ?_ ih
      simpa using low b ascii
    · have same : c.flatMap f = c := by
        calc c.flatMap f = c.flatMap fun b => [b] := by
              rw [List.flatMap_def, List.flatMap_def,
                List.map_congr_left fun b hb => high b (beyond b hb)]
          _ = c := by simp
      rw [same]
      exact .character hc ih

end StepsLang.Utf8
