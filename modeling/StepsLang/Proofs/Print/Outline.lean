import StepsLang.Proofs.Token.Scan

namespace StepsLang

inductive Outline
  | line (pieces : List Piece) (under : List Outline)

namespace Outline

mutual
def lines (d : Nat) : Outline → List Line
  | line ps under => ⟨d, ps⟩ :: linesAll (d + 1) under
termination_by structural o => o

def linesAll (d : Nat) : List Outline → List Line
  | [] => []
  | o :: os => o.lines d ++ linesAll d os
termination_by structural os => os
end

mutual
def tokens : Outline → List Token
  | line ps [] => StepsLang.tokens ps ++ [.newline]
  | line ps (o :: os) =>
    StepsLang.tokens ps ++
      (.newline :: .indent :: (o.tokens ++ (tokensAll os ++ [.dedent])))
termination_by structural o => o

def tokensAll : List Outline → List Token
  | [] => []
  | o :: os => o.tokens ++ tokensAll os
termination_by structural os => os
end

mutual
def Readable : Outline → Prop
  | line ps under => Row ps ∧ ReadableAll under
termination_by structural o => o

def ReadableAll : List Outline → Prop
  | [] => True
  | o :: os => o.Readable ∧ ReadableAll os
termination_by structural os => os
end

def text (os : List Outline) : Bytes := (linesAll 0 os).flatMap Line.text

theorem tokens_block (ps : List Piece) {os : List Outline} (h : os ≠ []) :
    (line ps os).tokens =
      StepsLang.tokens ps ++ .newline :: .indent :: (tokensAll os ++ [.dedent]) := by
  cases os with
  | nil => contradiction
  | cons o os => simp [tokens, tokensAll]

theorem length_under (ps : List Piece) (os : List Outline) :
    (tokensAll os).length < (line ps os).tokens.length := by
  cases os with
  | nil => simp [tokensAll, tokens]
  | cons o os =>
    simp only [tokens, tokensAll, List.length_append, List.length_cons]
    omega

theorem tokensAll_first (k : Kind) (ps : List Piece) (under os : List Outline) :
    ∃ us, tokensAll (line (.word k :: ps) under :: os) =
      { kind := k, text := k.spelling } :: us := by
  cases under <;> exact ⟨_, rfl⟩

theorem tokensAll_eq (os : List Outline) : tokensAll os = os.flatMap tokens := by
  induction os with
  | nil => rfl
  | cons o os ih => rw [tokensAll, ih, List.flatMap_cons]

@[simp] theorem tokensAll_append (os us : List Outline) :
    tokensAll (os ++ us) = tokensAll os ++ tokensAll us := by
  rw [tokensAll_eq, tokensAll_eq, tokensAll_eq, List.flatMap_append]

theorem length_tokens_le {o : Outline} {os : List Outline} (h : o ∈ os) :
    o.tokens.length ≤ (tokensAll os).length := by
  rw [tokensAll_eq, List.flatMap_def]
  exact (List.sublist_flatten_of_mem (List.mem_map_of_mem h)).length_le

theorem readableAll_iff {os : List Outline} : ReadableAll os ↔ ∀ o ∈ os, o.Readable := by
  induction os with
  | nil => simp [ReadableAll]
  | cons o os ih => rw [ReadableAll, ih, List.forall_mem_cons]

theorem readableAll_append {os us : List Outline} :
    ReadableAll (os ++ us) ↔ ReadableAll os ∧ ReadableAll us := by
  simp only [readableAll_iff, List.forall_mem_append]

def Shallow (d : Nat) (ls : List Line) : Prop := ∀ l ∈ ls.head?, l.depth ≤ d

theorem layout_shallow {d : Nat} {ls : List Line} (h : Shallow d ls) :
    Line.layout (d + 1) ls = .dedent :: Line.layout d ls := by
  cases ls with
  | nil => rfl
  | cons l ls =>
    have low : l.depth ≤ d := h l rfl
    have split : d + 1 - l.depth = d - l.depth + 1 := by omega
    simp only [Line.layout, Scanner.margin, low, Nat.le_succ_of_le low, if_true, split]
    rfl

theorem layout_deeper (d : Nat) (o : Outline) (ls : List Line) :
    Line.layout d (o.lines (d + 1) ++ ls) =
      .indent :: Line.layout (d + 1) (o.lines (d + 1) ++ ls) := by
  obtain ⟨ps, under⟩ := o
  have above : ¬ d + 1 ≤ d := by omega
  simp [lines, Line.layout, Scanner.margin, above]

theorem linesAll_shallow (d : Nat) (os : List Outline) {rest : List Line}
    (h : Shallow d rest) : Shallow d (linesAll d os ++ rest) := by
  cases os with
  | nil => exact h
  | cons o os =>
    obtain ⟨ps, under⟩ := o
    intro l hl
    cases hl
    exact Nat.le_refl d

mutual
theorem layout_lines : (o : Outline) → ∀ d rest, Shallow d rest →
    Line.layout d (o.lines d ++ rest) = o.tokens ++ Line.layout d rest
  | line ps [], d, rest, h => by
    simp [lines, linesAll, tokens, Line.layout, Scanner.margin]
  | line ps (o :: os), d, rest, h => by
    -- What follows is no deeper than the line, so exactly one level ends after the block.
    have low : Shallow (d + 1) rest := fun l hl => Nat.le_succ_of_le (h l hl)
    have below := linesAll_shallow (d + 1) os low
    calc Line.layout d ((line ps (o :: os)).lines d ++ rest)
        = StepsLang.tokens ps ++ .newline ::
            Line.layout d (o.lines (d + 1) ++ (linesAll (d + 1) os ++ rest)) := by
          simp [lines, linesAll, Line.layout, Scanner.margin]
      _ = StepsLang.tokens ps ++ .newline :: .indent ::
            (o.tokens ++ (tokensAll os ++ Line.layout (d + 1) rest)) := by
          rw [layout_deeper, layout_lines o (d + 1) _ below, layout_linesAll os (d + 1) rest low]
      _ = (line ps (o :: os)).tokens ++ Line.layout d rest := by
          rw [layout_shallow h]
          simp [tokens]
termination_by structural o => o

theorem layout_linesAll : (os : List Outline) → ∀ d rest, Shallow d rest →
    Line.layout d (linesAll d os ++ rest) = tokensAll os ++ Line.layout d rest
  | [], _, _, _ => rfl
  | o :: os, d, rest, h => by
    have first := layout_lines o d (linesAll d os ++ rest) (linesAll_shallow d os h)
    rw [linesAll, List.append_assoc, first, layout_linesAll os d rest h, tokensAll,
      List.append_assoc]
termination_by structural os => os
end

mutual
theorem stepwise_lines : (o : Outline) → ∀ d e rest, d ≤ e + 1 →
    (∀ e, d ≤ e + 1 → Line.Stepwise e rest) → Line.Stepwise e (o.lines d ++ rest)
  | line ps under, d, e, rest, h, later => by
    refine ⟨h, stepwise_linesAll under (d + 1) d rest (Nat.le_refl _) fun e he => later e ?_⟩
    omega
termination_by structural o => o

theorem stepwise_linesAll : (os : List Outline) → ∀ d e rest, d ≤ e + 1 →
    (∀ e, d ≤ e + 1 → Line.Stepwise e rest) → Line.Stepwise e (linesAll d os ++ rest)
  | [], d, e, rest, h, later => later e h
  | o :: os, d, e, rest, h, later => by
    rw [linesAll, List.append_assoc]
    exact stepwise_lines o d e _ h fun e he => stepwise_linesAll os d e rest he later
termination_by structural os => os
end

mutual
theorem readable_lines : (o : Outline) → o.Readable → ∀ d, ∀ l ∈ o.lines d, Row l.pieces
  | line ps under, h, d, l, hl => by
    obtain ⟨row, rest⟩ := h
    rcases List.mem_cons.1 hl with rfl | hl
    · exact row
    · exact readable_linesAll under rest (d + 1) l hl
termination_by structural o => o

theorem readable_linesAll : (os : List Outline) → ReadableAll os →
    ∀ d, ∀ l ∈ linesAll d os, Row l.pieces
  | [], _, _, _, hl => by cases hl
  | o :: os, h, d, l, hl => by
    rcases List.mem_append.1 hl with hl | hl
    · exact readable_lines o h.1 d l hl
    · exact readable_linesAll os h.2 d l hl
termination_by structural os => os
end

theorem ofSource_text (file : Nat) {os : List Outline} (h : ReadableAll os) :
    ∃ ts, (TokenStream.ofSource file (text os)).tokens = TokenStream.quiet ts ∧
      ts.map Token.unlocated = tokensAll os ++ [.endOfFile] := by
  have stepwise := stepwise_linesAll os 0 0 [] (by omega) fun _ _ => trivial
  rw [List.append_nil] at stepwise
  have layout := layout_linesAll os 0 [] (by simp [Shallow])
  rw [List.append_nil] at layout
  obtain ⟨ts, scanned, same⟩ := TokenStream.ofSource_lines file (readable_linesAll os h 0) stepwise
  exact ⟨ts, scanned, same.trans layout⟩

end Outline

end StepsLang
