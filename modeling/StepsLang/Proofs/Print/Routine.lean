import StepsLang.Routine.Basic
import StepsLang.Proofs.Print.Statement

namespace StepsLang
open Expression (Numerals)

namespace TypedName

def pieces (x : TypedName) : List Piece :=
  .name x.name :: match x.type with
    | none => []
    | some type => [.blank, .word .as, .blank, .word type.kind]

def unlocated (x : TypedName) : TypedName := { x with location := {} }

end TypedName

namespace Declaration

def pieces (d : Declaration) : List Piece :=
  .name d.name :: .blank :: .word .as :: .blank :: .word d.type.kind ::
    if d.fixed then [.blank, .word .fixed] else []

def unlocated (d : Declaration) : Declaration := { d with location := {} }

end Declaration

theorem type_written (type : TypeName) : Written Closing [.word type.kind] :=
  let ⟨known, plain, _⟩ := Expression.type_known type
  Expression.written_last known plain

theorem typed_written {x : TypedName} (h : Word.isName x.name = true) :
    Written Closing x.pieces := by
  rw [TypedName.pieces]
  cases x.type with
  | none => exact .cons h .nil fun _ hm => hm
  | some type =>
    have as_ := Written.word (x := .as) (by decide) (by decide) (type_written type).blank
      fun more _ => by cases type <;> exact Closing.space _ (by decide) (by decide)
    exact .cons h as_.blank fun more _ => Closing.space _ (by decide) (by decide)

theorem typed_starts (x : TypedName) (ps : List Piece) : Expression.Starts (x.pieces ++ ps) :=
  ⟨_, _, rfl, rfl, by simp⟩

theorem declaration_written {d : Declaration} (h : Word.isName d.name = true) :
    Written Closing d.pieces := by
  have last : Written Closing (if d.fixed then [.blank, .word .fixed] else []) := by
    cases d.fixed
    · exact .nil
    · exact (Expression.written_last (by decide) (by decide)).blank
  have type : Written Closing
      (.word d.type.kind :: if d.fixed then [.blank, .word .fixed] else []) := by
    obtain ⟨known, plain, -⟩ := Expression.type_known d.type
    refine .word known plain last fun more hm => ?_
    cases d.fixed
    · exact hm
    · exact Closing.space _ (by decide) (by decide)
  have as_ := Written.word (x := .as) (by decide) (by decide) type.blank fun more _ => by
    cases d.type <;> exact Closing.space _ (by decide) (by decide)
  exact .cons h as_.blank fun more _ => Closing.space _ (by decide) (by decide)

namespace Routine

def expectsOutlines : List TypedName → List Outline
  | [] => []
  | x :: xs =>
    [.line (clause .expects (x.pieces ++ listed (xs.map (·.pieces)))) []]

def returnsOutlines : Option TypedName → List Outline
  | none => []
  | some x => [.line (clause .returns x.pieces) []]

def declareOutlines : List Declaration → List Outline
  | [] => []
  | ds => [.line [.word .declare] (ds.map fun d => .line d.pieces [])]

def doOutlines (spell : Numerals) (body : List Statement) : List Outline :=
  [.line [.word .doWord] (Statement.outlinesAll spell body)]

def headOutlines (r : Routine) : List Outline :=
  expectsOutlines r.parameters ++ (returnsOutlines r.returns ++ declareOutlines r.declarations)

def riserOutline (spell : Numerals) (r : Routine) : Outline :=
  .line (clause .riser [.name r.name]) (r.headOutlines ++ doOutlines spell r.body)

def printable (spell : Numerals) (r : Routine) : Bool :=
  Word.isName r.name && r.parameters.all (Word.isName ·.name) &&
    r.returns.all (Word.isName ·.name) && r.declarations.all (Word.isName ·.name) &&
    r.hasDo && !r.body.isEmpty && r.body.all (·.printable spell)

structure Printed (spell : Numerals) (r : Routine) : Prop where
  name : Word.isName r.name = true
  parameters : r.parameters.all (Word.isName ·.name) = true
  returns : r.returns.all (Word.isName ·.name) = true
  declarations : r.declarations.all (Word.isName ·.name) = true
  hasDo : r.hasDo = true
  filled : r.body ≠ []
  body : ∀ s ∈ r.body, s.printable spell = true

theorem printed {spell : Numerals} {r : Routine} (h : r.printable spell = true) :
    Printed spell r := by
  simp only [printable, Bool.and_eq_true, Bool.not_eq_true', List.isEmpty_eq_false_iff] at h
  obtain ⟨⟨⟨⟨⟨⟨name, parameters⟩, returns⟩, declarations⟩, hasDo⟩, filled⟩, body⟩ := h
  exact ⟨name, parameters, returns, declarations, hasDo, filled, List.all_eq_true.1 body⟩

def unlocated (r : Routine) : Routine where
  location := {}
  name := r.name
  parameters := r.parameters.map (·.unlocated)
  returns := r.returns.map (·.unlocated)
  declarations := r.declarations.map (·.unlocated)
  hasDo := r.hasDo
  body := r.body.map (·.unlocated)

open Outline Statement

theorem expects_readable {xs : List TypedName} (h : xs.all (Word.isName ·.name) = true) :
    ReadableAll (expectsOutlines xs) := by
  cases xs with
  | nil => trivial
  | cons x xs =>
    rw [List.all_cons, Bool.and_eq_true, List.all_eq_true] at h
    have rows : ∀ ps ∈ xs.map (·.pieces), Written Closing ps := by
      intro ps hps
      obtain ⟨x, hx, rfl⟩ := List.mem_map.1 hps
      exact typed_written (h.2 x hx)
    have line := ((typed_written h.1).listed rows).weaken fun _ => Ends.closing
    exact readable_line (clause_row (by decide) (by decide) (typed_starts x _) line) trivial

theorem returns_readable {x : Option TypedName} (h : x.all (Word.isName ·.name) = true) :
    ReadableAll (returnsOutlines x) := by
  cases x with
  | none => trivial
  | some x =>
    have line := (typed_written h).weaken fun _ => Ends.closing
    have start := typed_starts x []
    rw [List.append_nil] at start
    exact readable_line (clause_row (by decide) (by decide) start line) trivial

theorem declare_readable {ds : List Declaration} (h : ds.all (Word.isName ·.name) = true) :
    ReadableAll (declareOutlines ds) := by
  have rows : ReadableAll (ds.map fun d => .line d.pieces []) := by
    refine readableAll_iff.2 fun o ho => ?_
    obtain ⟨d, hd, rfl⟩ := List.mem_map.1 ho
    have line := declaration_written (List.all_eq_true.1 h d hd)
    exact ⟨(line.weaken fun _ => Ends.closing).row rfl, trivial⟩
  cases ds with
  | nil => trivial
  | cons d ds => exact readable_line ((Written.ending (by decide)).row rfl) rows

theorem do_readable {spell : Numerals} {body : List Statement}
    (h : ∀ s ∈ body, s.printable spell = true) : ReadableAll (doOutlines spell body) := by
  rw [← List.all_eq_true, ← printableAll_eq] at h
  exact readable_line ((Written.ending (by decide)).row rfl) (outlinesAll_readable body h)

theorem named_row {k : Kind} {x : Bytes} (hk : k ∈ Word.keywords ++ Word.phrases)
    (hn : k ∉ Written.extended) (h : Word.isName x = true) : Row (clause k [.name x]) :=
  clause_row hk hn (starts_name x []) (written_name h)

variable {spell : Numerals} {r : Routine}

theorem Printed.head (h : Printed spell r) : ReadableAll r.headOutlines :=
  readableAll_append.2 ⟨expects_readable h.parameters,
    readableAll_append.2 ⟨returns_readable h.returns, declare_readable h.declarations⟩⟩

theorem Printed.riser (h : Printed spell r) : (r.riserOutline spell).Readable :=
  ⟨named_row (by decide) (by decide) h.name, readableAll_append.2 ⟨h.head, do_readable h.body⟩⟩

end Routine

namespace Step

def outlines (spell : Numerals) (s : Step) : List Outline :=
  [.line (clause .step [.name s.name])
    (.line (clause .belongsTo [.name s.floor]) [] ::
      (s.headOutlines ++
        (s.risers.map (·.riserOutline spell) ++ Routine.doOutlines spell s.body)))]

def printable (spell : Numerals) (s : Step) : Bool :=
  s.toRoutine.printable spell && Word.isName s.floor && s.risers.all (·.printable spell)

def unlocated (s : Step) : Step where
  toRoutine := s.toRoutine.unlocated
  floor := s.floor
  floorLocation := {}
  risers := s.risers.map (·.unlocated)

open Outline Statement

theorem outlines_readable {spell : Numerals} {s : Step} (h : s.printable spell = true) :
    ReadableAll (s.outlines spell) := by
  simp only [printable, Bool.and_eq_true] at h
  obtain ⟨⟨whole, floor⟩, risers⟩ := h
  have whole := Routine.printed whole
  have risers_ : ReadableAll (s.risers.map (·.riserOutline spell)) := by
    refine readableAll_iff.2 fun o ho => ?_
    obtain ⟨r, hr, rfl⟩ := List.mem_map.1 ho
    exact (Routine.printed (List.all_eq_true.1 risers r hr)).riser
  have sections := readableAll_append.2 ⟨whole.head,
    readableAll_append.2 ⟨risers_, Routine.do_readable whole.body⟩⟩
  have floor_ := Routine.named_row (k := .belongsTo) (by decide) (by decide) floor
  exact readable_line (Routine.named_row (by decide) (by decide) whole.name)
    ⟨⟨floor_, trivial⟩, sections⟩

end Step

end StepsLang
