import Mathlib.Data.List.TakeWhile
import StepsLang.CommandLine.Options
import StepsLang.Proofs.List
import StepsLang.Proofs.Number.Text

namespace StepsLang

namespace Bytes

theorem readDecimal?_eq_some_iff {limit n : Nat} {digits : Bytes} :
    readDecimal? limit digits = some n ↔
      digits ≠ [] ∧ Number.Numeral.Digits digits ∧ digitsValue digits ≤ limit ∧
        digitsValue digits = n := by
  rw [readDecimal?, Option.ite_none_right_eq_some, Option.some.injEq]
  simp only [Bool.and_eq_true, Bool.not_eq_true', List.isEmpty_eq_false_iff, List.all_eq_true,
    decide_eq_true_eq, and_assoc]
  rfl

end Bytes

namespace CommandLine

open Debug (Breakpoint)
open Number.Numeral (Digits)

/-- How a breakpoint is written.  There is no colon among the digits, so the one before them is the
last one. -/
inductive Written : Bytes → Breakpoint → Prop
  | spec {file digits : Bytes} : file ≠ [] → Digits digits → digits ≠ [] →
    0 < Bytes.digitsValue digits → Bytes.digitsValue digits < 2 ^ 32 →
    Written (file ++ Byte.colon :: digits) { file, line := Bytes.digitsValue digits }

def lastColon? (spec : Bytes) : Option Nat :=
  (spec.reverse.findIdx? (· == Byte.colon)).map (spec.length - 1 - ·)

def store (spec : Bytes) (held : Breakpoint) : Bool × Breakpoint :=
  match lastColon? spec with
  | none => (false, held)
  | some colon =>
    if colon == 0 || spec.length ≤ colon + 1 then (false, held)
    else
      match Bytes.readDecimal? (Nat.pow 2 32 - 1) (spec.drop (colon + 1)) with
      | none | some 0 => (false, held)
      | some line =>
        let held := { held with file := spec.take colon }
        (true, { held with line })

section

variable {spec file line digits : Bytes} {b : Breakpoint} {n : Nat}

theorem exists_last_colon (h : Byte.colon ∈ spec) :
    ∃ file line, spec = file ++ Byte.colon :: line ∧ Byte.colon ∉ line := by
  obtain ⟨before, behind, whole, out⟩ := List.eq_append_cons_of_mem (List.mem_reverse.2 h)
  refine ⟨behind.reverse, before.reverse, ?_, by simpa using out⟩
  rw [← spec.reverse_reverse, whole]
  simp

theorem others_of_not_mem (out : Byte.colon ∉ line) :
    ∀ c ∈ line.reverse, (c != Byte.colon) = true :=
  bne_of_not_mem (List.mem_reverse.not.2 out)

theorem lastColon?_last (out : Byte.colon ∉ line) (file : Bytes) :
    lastColon? (file ++ Byte.colon :: line) = some file.length := by
  have nowhere : line.reverse.findIdx? (· == Byte.colon) = none := by
    simpa using others_of_not_mem out
  simp [lastColon?, List.findIdx?_append, List.findIdx?_cons, nowhere]

theorem lastColon?_none (out : Byte.colon ∉ spec) : lastColon? spec = none := by
  simpa [lastColon?] using others_of_not_mem out

theorem breakpoint?_eq (h : (spec.reverse.takeWhile (· != Byte.colon)).reverse = line) :
    breakpoint? spec =
      let file := spec.take (spec.length - line.length - 1)
      if file.isEmpty then none else (count? line).map ({ file, line := · }) := by
  subst h
  rfl

theorem breakpoint?_last (out : Byte.colon ∉ line) (file : Bytes) :
    breakpoint? (file ++ Byte.colon :: line) =
      if file.isEmpty then none else (count? line).map ({ file, line := · }) := by
  have behind :
      ((file ++ Byte.colon :: line).reverse.takeWhile (· != Byte.colon)).reverse = line := by
    rw [List.reverse_append, List.reverse_cons, List.append_assoc,
      List.takeWhile_append_of_pos (others_of_not_mem out)]
    simp
  have before : (file ++ Byte.colon :: line).length - line.length - 1 = file.length := by
    simp only [List.length_append, List.length_cons]
    omega
  rw [breakpoint?_eq behind, before, List.take_left]

theorem breakpoint?_none (out : Byte.colon ∉ spec) : breakpoint? spec = none := by
  have behind : (spec.reverse.takeWhile (· != Byte.colon)).reverse = spec := by
    rw [List.takeWhile_eq_self_iff.2 (others_of_not_mem out), List.reverse_reverse]
  simp [breakpoint?_eq behind]

theorem count?_eq_some_iff :
    count? digits = some n ↔
      digits ≠ [] ∧ Digits digits ∧ Bytes.digitsValue digits = n ∧ 0 < n ∧ n < 2 ^ 32 := by
  have limit : Nat.pow 2 32 - 1 = 2 ^ 32 - 1 := rfl
  rw [count?, Option.filter_eq_some_iff, Bytes.readDecimal?_eq_some_iff, limit, decide_eq_true_iff]
  constructor
  · rintro ⟨⟨some, digits, small, value⟩, positive⟩
    exact ⟨some, digits, value, positive, by omega⟩
  · rintro ⟨some, digits, value, positive, small⟩
    exact ⟨⟨some, digits, by omega, value⟩, positive⟩

theorem colon_not_mem_digits (h : Digits digits) : Byte.colon ∉ digits := fun there =>
  absurd (h _ there) (by decide)

theorem breakpoint?_eq_some_iff : breakpoint? spec = some b ↔ Written spec b := by
  constructor
  · intro h
    by_cases colon : Byte.colon ∈ spec
    · obtain ⟨file, line, rfl, out⟩ := exists_last_colon colon
      rw [breakpoint?_last out] at h
      obtain ⟨filled, h⟩ := Option.ite_none_left_eq_some.1 h
      obtain ⟨n, counted, rfl⟩ := Option.map_eq_some_iff.1 h
      obtain ⟨some, digits, rfl, positive, small⟩ := count?_eq_some_iff.1 counted
      exact .spec (by simpa using filled) digits some positive small
    · rw [breakpoint?_none colon] at h
      cases h
  · rintro ⟨filled, digits, some, positive, small⟩
    have counted := count?_eq_some_iff.2 ⟨some, digits, rfl, positive, small⟩
    rw [breakpoint?_last (colon_not_mem_digits digits), counted]
    exact if_neg (by simpa using filled)

theorem written_decimal (filled : file ≠ []) (positive : 1 ≤ n) (small : n < 2 ^ 32) :
    Written (file ++ Byte.colon :: Bytes.decimal n) { file, line := n } := by
  have value := Number.digitsValue_decimal n
  have written := Written.spec filled (Number.digits_decimal n) (Number.decimal_ne_nil n)
    (by omega) (by omega)
  rwa [value] at written

theorem store_none (out : Byte.colon ∉ spec) (held : Breakpoint) :
    store spec held = (false, held) := by
  rw [store, lastColon?_none out]

theorem store_last (out : Byte.colon ∉ line) (file : Bytes) (held : Breakpoint) :
    store (file ++ Byte.colon :: line) held =
      match (if file.isEmpty then none else count? line) with
      | some n => (true, { file, line := n })
      | none => (false, held) := by
  have behind : (file ++ Byte.colon :: line).drop (file.length + 1) = line := by
    simp [List.drop_append]
  have parts :
      (file.length == 0 || decide ((file ++ Byte.colon :: line).length ≤ file.length + 1)) =
        (file.isEmpty || line.isEmpty) := by
    cases file <;> cases line <;> simp
  rw [store, lastColon?_last out]
  -- Without a file or without digits, neither form gets to read a number.
  simp only [parts, behind, List.take_left]
  cases file with
  | nil => rfl
  | cons f file =>
    cases line with
    | nil => rfl
    | cons d line =>
      simp only [List.isEmpty_cons, Bool.or_self, Bool.false_eq_true, if_false, count?]
      rcases Bytes.readDecimal? (Nat.pow 2 32 - 1) (d :: line) with _ | _ | n <;> rfl

theorem store_eq (spec : Bytes) (held : Breakpoint) :
    store spec held =
      match breakpoint? spec with
      | some b => (true, b)
      | none => (false, held) := by
  by_cases colon : Byte.colon ∈ spec
  · obtain ⟨file, line, rfl, out⟩ := exists_last_colon colon
    rw [breakpoint?_last out, store_last out]
    cases file.isEmpty <;> cases count? line <;> rfl
  · rw [breakpoint?_none colon, store_none colon]

end

/-- A breakpoint is read if and only if it is written as a file, a colon and the decimal number of a
line, from 1 to `2 ^ 32 - 1`, and then it is that file and that line which are stored. -/
theorem store_written (spec : Bytes) (held : Breakpoint) :
    (store spec held =
        match breakpoint? spec with
        | some b => (true, b)
        | none => (false, held)) ∧
      (∀ file line, spec = file ++ Byte.colon :: Bytes.decimal line → file ≠ [] → 1 ≤ line →
        line < 2 ^ 32 → store spec held = (true, { file, line })) ∧
      (∀ b, store spec held = (true, b) ↔ Written spec b) ∧
      ∀ kept, store spec held = (false, kept) ↔ (∀ b, ¬ Written spec b) ∧ kept = held := by
  have written (b : Breakpoint) : store spec held = (true, b) ↔ Written spec b := by
    rw [store_eq, ← breakpoint?_eq_some_iff]
    cases breakpoint? spec <;> simp
  refine ⟨store_eq spec held, ?_, written, fun kept => ?_⟩
  · rintro file line rfl filled positive small
    exact (written _).2 (written_decimal filled positive small)
  · simp only [store_eq, ← breakpoint?_eq_some_iff]
    cases breakpoint? spec <;> simp [eq_comm]

theorem store_written_colons :
    let held : Breakpoint := { file := "-", line := 0 }
    store "C:/demo:1:2" held = (true, { file := "C:/demo:1", line := 2 }) ∧
      store "C:/demo:0" held = (false, held) := by
  intro held
  obtain ⟨-, colons, -⟩ := store_written "C:/demo:1:2" held
  obtain ⟨-, -, -, zero⟩ := store_written "C:/demo:0" held
  have nothing : breakpoint? "C:/demo:0" = none := by decide
  refine ⟨colons "C:/demo:1" 2 rfl (by decide) (by decide) (by decide), (zero _).2 ⟨?_, rfl⟩⟩
  simp [← breakpoint?_eq_some_iff, nothing]

end CommandLine

end StepsLang
