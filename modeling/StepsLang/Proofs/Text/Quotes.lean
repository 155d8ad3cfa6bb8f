import Mathlib.Algebra.Ring.Parity
import StepsLang.Csv

namespace StepsLang.Csv

/-- A reader that looks at no byte but the next one.  A quote inside quotes closes them, and opens
them again if it is followed by another one; `closed` says that the last byte closed them. -/
structure Reader where
  state : State := {}
  closed : Bool := false

def lineEnds : List Bytes := ["\r\n", "\r", "\n"]

namespace Reader

def step (r : Reader) (b : UInt8) : Reader :=
  if r.state.quoted then
    if b = Byte.quote then ⟨{ r.state with quoted := false }, true⟩
    else ⟨{ r.state with field := b :: r.state.field }, false⟩
  else if b = Byte.quote then
    if r.closed then ⟨{ r.state with field := b :: r.state.field, quoted := true }, false⟩
    else ⟨{ r.state with quoted := true, started := true }, false⟩
  else if b = Byte.comma then ⟨{ r.state.endField with started := true }, false⟩
  else if b = Byte.carriageReturn ∨ b = Byte.lineFeed then ⟨r.state.endRow, false⟩
  else ⟨r.state.put b, false⟩

end Reader

namespace State

@[simp] theorem quoted_endRow (s : State) : s.endRow.quoted = s.quoted := by
  unfold endRow endField
  dsimp only
  split <;> split <;> rfl

@[simp] theorem endRow_endRow (s : State) : s.endRow.endRow = s.endRow := by
  unfold endRow endField
  dsimp only
  split <;> simp_all

def Filled (s : State) : Prop := ∀ row ∈ s.rows, row ≠ []

theorem Filled.endRow {s : State} (h : s.Filled) : s.endRow.Filled := by
  unfold State.endRow
  have ended : (if s.started || !s.row.isEmpty then s.endField else s).Filled := by
    split <;> exact h
  generalize (if s.started || !s.row.isEmpty then s.endField else s) = t at ended
  dsimp only
  split
  · exact ended
  · next some =>
    refine List.forall_mem_cons.2 ⟨fun none => some ?_, ended⟩
    simpa using none

end State

namespace Reader

section Step

variable {s : State} {b : UInt8}

theorem step_within (inside : s.quoted = true) (other : b ≠ Byte.quote) (closed : Bool) :
    step ⟨s, closed⟩ b = ⟨{ s with field := b :: s.field }, false⟩ := by
  simp [step, inside, other]

theorem step_close (inside : s.quoted = true) (closed : Bool) :
    step ⟨s, closed⟩ Byte.quote = ⟨{ s with quoted := false }, true⟩ := by
  simp [step, inside]

theorem step_open (outside : s.quoted = false) :
    step ⟨s, false⟩ Byte.quote = ⟨{ s with quoted := true, started := true }, false⟩ := by
  simp [step, outside]

theorem step_reopen (outside : s.quoted = false) :
    step ⟨s, true⟩ Byte.quote =
      ⟨{ s with field := Byte.quote :: s.field, quoted := true }, false⟩ := by
  simp [step, outside]

theorem step_comma (outside : s.quoted = false) (closed : Bool) :
    step ⟨s, closed⟩ Byte.comma = ⟨{ s.endField with started := true }, false⟩ := by
  have other : Byte.comma ≠ Byte.quote := by decide
  simp [step, outside, other]

theorem step_lineEnd (outside : s.quoted = false)
    (ends : b = Byte.carriageReturn ∨ b = Byte.lineFeed) (closed : Bool) :
    step ⟨s, closed⟩ b = ⟨s.endRow, false⟩ := by
  have quote : b ≠ Byte.quote := by
    rcases ends with rfl | rfl <;> decide
  have comma : b ≠ Byte.comma := by
    rcases ends with rfl | rfl <;> decide
  simp only [step, outside, quote, comma, ends, if_false, if_true, Bool.false_eq_true]

theorem step_closed (outside : s.quoted = false) (other : b ≠ Byte.quote) :
    step ⟨s, true⟩ b = step ⟨s, false⟩ b := by
  simp [step, outside, other]

end Step

theorem quoted_step (r : Reader) (b : UInt8) :
    (r.step b).state.quoted = (r.state.quoted ^^ b == Byte.quote) := by
  unfold step
  repeat' split
  all_goals simp_all [State.endField, State.put]

theorem filled_step {r : Reader} (h : r.state.Filled) (b : UInt8) :
    (r.step b).state.Filled := by
  unfold step
  repeat' split
  all_goals first | exact h | exact h.endRow

theorem quoted_foldl (text : Bytes) (r : Reader) :
    (text.foldl step r).state.quoted =
      (r.state.quoted ^^ decide (Odd (text.count Byte.quote))) := by
  induction text generalizing r with
  | nil => simp
  | cons b text ih =>
    have flip (n : Nat) : decide (Odd (n + 1)) = !decide (Odd n) :=
      (decide_eq_decide.2 Nat.odd_add_one).trans decide_not
    rw [List.foldl_cons, ih, quoted_step, List.count_cons]
    cases b == Byte.quote with
    | false => simp
    | true => rw [if_pos rfl, flip, Bool.xor_true, Bool.not_xor, Bool.xor_not]

theorem foldl_lineEnd {r : Reader} (outside : r.state.quoted = false) {ending : Bytes}
    (ends : ending ∈ lineEnds) : ending.foldl step r = ⟨r.state.endRow, false⟩ := by
  have return_ := step_lineEnd outside (.inl rfl) r.closed
  have lineFeed := step_lineEnd outside (.inr rfl) r.closed
  have again : r.state.endRow.quoted = false := by simpa using outside
  obtain rfl | rfl | rfl := by simpa [lineEnds] using ends
  · exact (congrArg (step · Byte.lineFeed) return_).trans
      ((step_lineEnd again (.inr rfl) false).trans (by rw [State.endRow_endRow]))
  · exact return_
  · exact lineFeed

end Reader

open Reader in
/-- The reader that looks ahead reads the same. -/
theorem read_eq_foldl (s : State) (text : Bytes) :
    read s text = (text.foldl step ⟨s, false⟩).state := by
  fun_induction read s text with
  | case1 => rfl
  | case2 s b rest inside other ih =>
    rw [List.foldl_cons, step_within inside (bne_iff_ne.1 other), ih]
  | case3 s b inside quote c rest again ih =>
    obtain rfl : b = Byte.quote := by simpa using quote
    obtain rfl : c = Byte.quote := by simpa using again
    rw [List.foldl_cons, List.foldl_cons, step_close inside, step_reopen rfl, ih, inside]
  | case4 s b inside quote c rest other ih =>
    obtain rfl : b = Byte.quote := by simpa using quote
    have other : c ≠ Byte.quote := by simpa using other
    rw [List.foldl_cons, List.foldl_cons, step_close inside, step_closed rfl other, ih,
      List.foldl_cons]
  | case5 s b inside quote =>
    obtain rfl : b = Byte.quote := by simpa using quote
    rw [List.foldl_cons, step_close inside, List.foldl_nil]
  | case6 s b rest outside quote ih =>
    obtain rfl : b = Byte.quote := by simpa using quote
    rw [List.foldl_cons, step_open (Bool.eq_false_iff.2 outside), ih]
  | case7 s b rest outside quote comma ih =>
    obtain rfl : b = Byte.comma := by simpa using comma
    rw [List.foldl_cons, step_comma (Bool.eq_false_iff.2 outside), ih]
  | case8 s b outside quote comma return_ c rest lineFeed ih =>
    have ends := step_lineEnd (Bool.eq_false_iff.2 outside) (.inl (eq_of_beq return_)) false
    have outside : s.endRow.quoted = false := by simpa using outside
    rw [List.foldl_cons, List.foldl_cons, ends,
      step_lineEnd outside (.inr (eq_of_beq lineFeed)), State.endRow_endRow, ih]
  | case9 s b outside quote comma return_ c rest lineFeed ih =>
    rw [List.foldl_cons, step_lineEnd (Bool.eq_false_iff.2 outside) (.inl (eq_of_beq return_)), ih]
  | case10 s b outside quote comma return_ =>
    rw [List.foldl_cons, step_lineEnd (Bool.eq_false_iff.2 outside) (.inl (eq_of_beq return_)),
      List.foldl_nil]
  | case11 s b rest outside quote comma return_ lineFeed ih =>
    rw [List.foldl_cons, step_lineEnd (Bool.eq_false_iff.2 outside) (.inr (eq_of_beq lineFeed)), ih]
  | case12 s b rest outside quote comma return_ lineFeed ih =>
    simp only [beq_iff_eq] at quote comma return_ lineFeed
    rw [List.foldl_cons, ih]
    simp [step, outside, quote, comma, return_, lineFeed]

theorem decode?_eq_foldl (text : Bytes) :
    decode? text =
      let s := (text.foldl Reader.step {}).state
      if s.quoted then none else some s.endRow.rows.reverse := by
  unfold decode?
  rw [read_eq_foldl]

/-- A text can be read if and only if its quotes come in pairs.  What is read are rows with a field
or more, and outside quotes it makes no difference which line end ends a line. -/
theorem quotes_and_line_ends (text : Bytes) :
    (decode? text = none ↔ Odd (text.count Byte.quote)) ∧
      (∀ rows ∈ decode? text, ∀ row ∈ rows, row ≠ []) ∧
      ∀ before ending after, text = before ++ ending ++ after → Even (before.count Byte.quote) →
        ending ∈ lineEnds → ∀ other ∈ lineEnds,
          decode? (before ++ other ++ after) = decode? text := by
  refine ⟨?_, ?_, ?_⟩
  · rw [decode?_eq_foldl]
    simp [Reader.quoted_foldl]
  · intro rows read
    rw [decode?_eq_foldl] at read
    have filled : (text.foldl Reader.step {}).state.Filled :=
      List.foldlRecOn (motive := (·.state.Filled)) text Reader.step (by simp [State.Filled])
        fun _ h b _ => Reader.filled_step h b
    dsimp only at read
    split at read
    · cases read
    · obtain rfl := Option.mem_some.1 read
      exact fun row hrow => filled.endRow row (List.mem_reverse.1 hrow)
  · rintro before ending after rfl even ends other ends'
    have outside : (before.foldl Reader.step {}).state.quoted = false := by
      simpa [Reader.quoted_foldl] using even
    simp only [decode?_eq_foldl, List.foldl_append, Reader.foldl_lineEnd outside ends,
      Reader.foldl_lineEnd outside ends']

theorem quotes_and_line_ends_mixed :
    let before : Bytes := "a,\"b\nb\""
    let text := before ++ "\r\n" ++ "c\r\n"
    decode? text = some [[("a" : Bytes), ("b\nb" : Bytes)], [("c" : Bytes)]] ∧
      Even (before.count Byte.quote) ∧
      decode? (before ++ "\n" ++ "c\r\n") = decode? text := by
  intro before text
  have even : Even (before.count Byte.quote) := by decide
  obtain ⟨-, -, same⟩ := quotes_and_line_ends text
  refine ⟨by decide +kernel, even, ?_⟩
  exact same before "\r\n" "c\r\n" rfl even (by decide) "\n" (by decide)

end StepsLang.Csv
