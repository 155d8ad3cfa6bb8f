import StepsLang.Report
import StepsLang.Native.Basic

namespace StepsLang

@[simp]
theorem Bytes.ofString_eq_nil_iff {s : String} : Bytes.ofString s = [] ↔ s = "" := by
  constructor
  · intro empty
    apply String.toByteArray_inj.1
    apply ByteArray.ext
    simpa [Bytes.ofString] using empty
  · rintro rfl
    rfl

namespace Template

theorem fill_ne_nil {values : List (Bytes × Bytes)} {b : UInt8} {rest : Bytes}
    (plain : b ≠ Byte.openBrace) : fill values (b :: rest) ≠ [] := by
  have own : placeholder? values (b :: rest) = none := by simp [placeholder?, plain]
  rw [fill]
  split
  · next e =>
    rw [own] at e
    cases e
  · simp

theorem fill_value_ne_nil {values : List (Bytes × Bytes)} {s v rest : Bytes}
    (h : placeholder? values s = some (v, rest)) (worded : v ≠ []) : fill values s ≠ [] := by
  rw [fill]
  split
  · next e =>
    rw [h] at e
    cases e
    simp [worded]
  · next e =>
    rw [h] at e
    cases e

end Template

def Fault.ofRun : List Fault :=
  [.operandTypes, .wrongKind, .fixedType, .badPlaces, .undefinedVariable, .undefinedStep,
   .fixedReassigned, .divisionByZero, .stepCallUnavailable, .keyMissing, .indexOutOfBounds,
   .callTooDeep, .argumentCount, .loopTooLong]

def Fault.runCodes : List Bytes :=
  [("E301" : Bytes), "E302", "E303", "E304", "E401", "E402", "E403", "E404", "E405", "E406",
   "E407", "E408", "E409", "E410"]

theorem Fault.code_mem {f : Fault} (h : f ∈ ofRun) : f.code ∈ runCodes := List.mem_map_of_mem h

structure Report.OfRun (l : Location) (r : Report) : Prop where
  code : r.code ∈ Fault.runCodes
  message : r.message ≠ []
  hint : r.hint ≠ []
  location : r.location = l

namespace Report

variable {f : Fault} {l : Location} {message hint : Bytes} {values : List (Bytes × Bytes)}

theorem ofRun_tell (known : f ∈ Fault.ofRun) :
    (tell f l message hint).OfRun l ↔ message ≠ [] ∧ hint ≠ [] :=
  ⟨fun h => ⟨h.message, h.hint⟩, fun ⟨hm, hh⟩ => ⟨Fault.code_mem known, hm, hh, rfl⟩⟩

@[simp]
theorem ofRun_operand :
    (tell .operandTypes l message hint).OfRun l ↔ message ≠ [] ∧ hint ≠ [] :=
  ofRun_tell (by decide)

@[simp]
theorem ofRun_failure : (Native.failure l message hint).OfRun l ↔ message ≠ [] ∧ hint ≠ [] :=
  ofRun_tell (by decide)

theorem filled_ne_nil {s : Bytes} (h : s.headD Byte.openBrace ≠ Byte.openBrace) :
    Template.fill values s ≠ [] := by
  cases s with
  | nil => exact absurd rfl h
  | cons b rest => exact Template.fill_ne_nil h

theorem ofRun_fill (known : f ∈ Fault.ofRun) (other : f ≠ .operandTypes) :
    (fill f l values).OfRun l := by
  have plain : ∀ f ∈ Fault.ofRun, f ≠ .operandTypes →
      f.message.headD Byte.openBrace ≠ Byte.openBrace ∧
        f.hint.headD Byte.openBrace ≠ Byte.openBrace := by decide +kernel
  obtain ⟨hm, hh⟩ := plain f known other
  exact ⟨Fault.code_mem known, filled_ne_nil hm, filled_ne_nil hh, rfl⟩

theorem ofRun_operandTypes (operation left right : Bytes) (l : Location) (advice : Bytes) :
    (operandTypes operation left right l advice).OfRun l := by
  have known : Fault.operandTypes ∈ Fault.ofRun := by decide
  have plain : Fault.operandTypes.message.headD Byte.openBrace ≠ Byte.openBrace := by
    decide +kernel
  refine ⟨Fault.code_mem known, filled_ne_nil plain, ?_, rfl⟩
  refine Template.fill_value_ne_nil rfl ?_
  split
  · simp
  · next advised => simpa using advised

theorem ofRun_undefinedVariable (x : Bytes) (l : Location) (visible : List Bytes) :
    (undefinedVariable x l visible).OfRun l := by
  have plain : (fill .undefinedVariable l [("name", x)]).OfRun l :=
    ofRun_fill (by decide) (by decide)
  unfold undefinedVariable
  split
  · exact ⟨plain.code, plain.message, by simp, rfl⟩
  · exact plain

theorem ofRun_undefinedStep (x : Bytes) (l : Location) (available : List Bytes) :
    (undefinedStep x l available).OfRun l := by
  unfold undefinedStep
  split
  · exact ofRun_fill (by decide) (by decide)
  · have plain : (fill .undefinedStep l [("name", x)]).OfRun l :=
      ofRun_fill (by decide) (by decide)
    exact (ofRun_tell (by decide)).2 ⟨plain.message, by simp⟩

end Report

end StepsLang
