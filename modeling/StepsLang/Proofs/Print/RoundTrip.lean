import StepsLang.Parse
import StepsLang.Proofs.Parse.Routine

namespace StepsLang
open Expression (Numerals)

def Statement.print (spell : Numerals) (ss : List Statement) : Bytes :=
  Outline.text (outlinesAll spell ss)

def Step.print (spell : Numerals) (s : Step) : Bytes := Outline.text (s.outlines spell)

namespace Parsed
open Reader

theorem run_text {p : Reader α} {m : α → β} {b : β} (file : Nat) {os : List Outline}
    (readable : Outline.ReadableAll os)
    (reads : Reads m p (Outline.tokensAll os) b (· = .endOfFile)) :
    (run p file (Outline.text os)).reports = [] ∧ m (run p file (Outline.text os)).result = b := by
  obtain ⟨ts, scanned, same⟩ := Outline.ofSource_text file readable
  obtain ⟨us, vs, rfl, body, last⟩ := List.map_eq_append_iff.1 same
  obtain ⟨f, rfl, end_⟩ := List.map_eq_singleton_iff.1 last
  have eof : f.kind = .endOfFile := congrArg Token.kind end_
  obtain ⟨a, meant, result⟩ := reads us f [] body eof
  have start : (Cursor.ofStream (TokenStream.ofSource file (Outline.text os))).hear 1 =
      Cursor.quiet (us ++ [f]) := by
    rw [Cursor.ofStream, scanned]
    exact hear_quiet 1 _
  have whole : run p file (Outline.text os) = ⟨a, []⟩ := by
    simp only [run, start, StateT.run]
    rw [result]
    rfl
  rw [whole]
  exact ⟨rfl, meant⟩

theorem statements_print {spell : Numerals} (file : Nat) {ss : List Statement}
    (h : ∀ s ∈ ss, s.printable spell = true) :
    (statements file (Statement.print spell ss)).reports = [] ∧
      (statements file (Statement.print spell ss)).result.map Statement.unlocated =
        ss.map Statement.unlocated := by
  have readable : Outline.ReadableAll (Statement.outlinesAll spell ss) := by
    apply Statement.outlinesAll_readable
    rwa [Statement.printableAll_eq, List.all_eq_true]
  exact run_text file readable (Statement.Parser.statements_reads h)

theorem step_print {spell : Numerals} (file : Nat) {s : Step} (h : s.printable spell = true) :
    (step file (Step.print spell s)).reports = [] ∧
      (step file (Step.print spell s)).result.map Step.unlocated = some s.unlocated :=
  run_text file (Step.outlines_readable h)
    ((Routine.Parser.step_reads h).weaken fun _ _ => trivial)

/-- Reading undoes printing, for statements and for steps, whatever numerals numbers are written
as. -/
theorem read_print (spell : Numerals) (file : Nat) :
    (∀ ss : List Statement, (∀ s ∈ ss, s.printable spell = true) →
      (statements file (Statement.print spell ss)).reports = [] ∧
        (statements file (Statement.print spell ss)).result.map Statement.unlocated =
          ss.map Statement.unlocated) ∧
    ∀ s : Step, s.printable spell = true →
      (step file (Step.print spell s)).reports = [] ∧
        (step file (Step.print spell s)).result.map Step.unlocated = some s.unlocated :=
  ⟨fun _ => statements_print file, fun _ => step_print file⟩

def greeting : Statement :=
  .branch {} [({}, .binary {} .less (.name {} "age")
      (.number {} ((Number.ofNumeral? "7.5").getD Number.zero)),
    [.call {} "greet" [.text {} "a\"b\n", .boolean {} true] (some "reply")])]
    (some [.note {} "done", .giveBack {} none])

def greeter : Step where
  name := "main"
  floor := "ground"
  parameters := [{ location := {}, name := "age", type := some .number }]
  declarations := [{ location := {}, name := "reply", type := .text, fixed := true }]
  hasDo := true
  body := [greeting]
  risers := [{ name := "greet", hasDo := true, body := [.exit {}] }]

theorem read_print_greeting :
    Statement.print (fun _ _ => "7.5") [greeting] =
      "if (age) is less than (7.5)\n" ++
        ("    call greet with \"a\\\"b\\n\", true storing result in reply\n" ++
          "otherwise\n    note: done\n    return\n") ∧
      (statements 1 (Statement.print (fun _ _ => "7.5") [greeting])).result.map
        Statement.unlocated = [greeting.unlocated] ∧
      (step 1 (Step.print (fun _ _ => "7.5") greeter)).result.map Step.unlocated =
        some greeter.unlocated := by
  have one : ∀ s ∈ [greeting], s.printable (fun _ _ => "7.5") = true := by decide
  have two : greeter.printable (fun _ _ => "7.5") = true := by decide
  have both := read_print (fun _ _ => "7.5") 1
  exact ⟨by decide, (both.1 [greeting] one).2, (both.2 greeter two).2⟩

end Parsed

end StepsLang
