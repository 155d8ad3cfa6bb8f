import StepsLang.Token.Lexeme

/-!
The scanner: where it stands in a source file, and the tokens of the next piece of text. The width
of a line's indentation is compared with the open levels, which are 0, 4, 8 and so on, and every
level opened or closed is a token of its own.
-/

namespace StepsLang

/-- A place in a source file, with the text that follows it. `fresh` says that a line starts here,
`levels` are the widths of the open levels, innermost first, and `last` is the kind of the token
made last. -/
structure Scanner where
  file : Nat
  rest : Bytes
  line : Nat := 1
  column : Nat := 1
  fresh : Bool := true
  levels : List Nat := [0]
  last : Kind := .newline
  deriving Repr

structure Batch where
  reports : List Report := []
  tokens : List Token := []
  deriving Repr

namespace Scanner

def location (s : Scanner) : Location := { file := s.file, line := s.line, column := s.column }

/-- Goes past one byte. A line feed starts a line; the later bytes of a character have no column of
their own. -/
def pass (s : Scanner) (b : UInt8) (rest : Bytes) : Scanner :=
  if b == Byte.lineFeed then { s with rest, line := s.line + 1, column := 1, fresh := true }
  else if Byte.isContinuation b then { s with rest }
  else { s with rest, column := s.column + 1 }

def skip : Nat → Scanner → Scanner
  | 0, s => s
  | n + 1, s =>
    match s.rest with
    | [] => s
    | b :: rest => skip n (s.pass b rest)

def skipLine (s : Scanner) : Scanner :=
  s.skip ((s.rest.takeWhile (· != Byte.lineFeed)).length + 1)

def token (s : Scanner) (start : Location) (kind : Kind) (text : Bytes := []) : Token :=
  { kind, text, location := { start with endLine := s.line, endColumn := s.column } }

def remember (s : Scanner) (tokens : List Token) : Scanner :=
  match tokens.getLast? with
  | some t => { s with last := t.kind }
  | none => s

def width (b : UInt8) : Nat := if b == Byte.tab then 4 else 1

def level (s : Scanner) : Nat := s.levels.headD 0

/-- A line that is wider than the open level opens the next one. A width between two levels counts
as the lower one, and only one level opens at a time. -/
def openLevel (s : Scanner) (here : Location) (found : Nat) : Scanner × Batch :=
  let wide := found - found % 4
  let odd :=
    if found % 4 == 0 then []
    else [Report.fill .badIndentation here [("spaces", Bytes.decimal found)]]
  let jump :=
    if s.level + 4 < wide then
      [Report.tell .badIndentation here "Indentation increased by more than one level."
        ("Expected " ++ Bytes.decimal (s.level + 4) ++ " spaces, found " ++ Bytes.decimal found
          ++ ".")]
    else []
  if s.level < wide then
    ({ s with levels := (s.level + 4) :: s.levels, last := .indent },
      ⟨odd ++ jump, [s.token here .indent]⟩)
  else (s, ⟨odd ++ jump, []⟩)

def closeLevels (s : Scanner) (here : Location) (found : Nat) : Scanner × Batch :=
  let levels := s.levels.dropWhile (found < ·)
  let tokens := List.replicate (s.levels.length - levels.length) (s.token here .dedent)
  let reports :=
    if levels.headD 0 == found then []
    else
      [Report.fill .unmatchedDedent here
        [("spaces", Bytes.decimal found),
         ("levels", Bytes.join ", " (levels.reverse.map Bytes.decimal) ++ " spaces")]]
  ({ s with levels }.remember tokens, ⟨reports, tokens⟩)

def atLineEnd : Bytes → Bool
  | [] => true
  | [b] => b == Byte.lineFeed
  | b :: c :: _ => b == Byte.lineFeed || (b == Byte.carriageReturn && c == Byte.lineFeed)

/-- The start of a line: its indentation. Blank lines and block comments have none; the rest of the
line on which a block comment of one line ends belongs to the comment. -/
def startLine (s : Scanner) : Scanner × Batch :=
  let here := { s.location with column := 1 }
  let s := { s with fresh := false }
  let indentation := s.rest.takeWhile fun b => b == Byte.space || b == Byte.tab
  let tabs :=
    match indentation.idxOf? Byte.tab with
    | some i => [Report.fill .tabIndentation (s.skip i).location []]
    | none => []
  let found := indentation.foldl (fun n b => n + width b) 0
  let s := s.skip indentation.length
  if atLineEnd s.rest then (s.skipLine, ⟨tabs, []⟩)
  else if Word.standsAt Word.blockCommentStart s.rest then
    let s := s.skip (Word.blockCommentLength s.rest)
    (if s.fresh then s else s.skipLine, ⟨tabs, []⟩)
  else
    let (s, batch) := if s.level < found then s.openLevel here found else s.closeLevels here found
    (s, { batch with reports := tabs ++ batch.reports })

def lexeme (s : Scanner) (b : UInt8) (rest : Bytes) : Scanner × Batch :=
  let x := Lexeme.read b rest
  let reports := x.flaws.map fun (n, flaw) => flaw.report (s.skip n).location
  let after := s.skip x.length
  match x.kind with
  | none => (after, ⟨reports, []⟩)
  | some k =>
    if k == .newline && s.last == .newline then (after, ⟨reports, []⟩)
    else
      ({ after with last := k },
        ⟨reports, [{ after.token s.location k x.text with value := x.value }]⟩)

def finish (s : Scanner) : List Token :=
  let ended := s.last == .newline || s.last == .dedent || s.last == .indent
  (if ended then [] else [s.token s.location .newline])
    ++ List.replicate (s.levels.length - 1) (s.token s.location .dedent)
    ++ [s.token s.location .endOfFile]

def step (s : Scanner) : Option (Scanner × Batch) :=
  match s.rest with
  | [] => none
  | b :: rest => some (if s.fresh then s.startLine else s.lexeme b rest)

theorem step_eq_none {s : Scanner} : s.step = none ↔ s.rest = [] := by
  unfold step
  split
  · next none => exact ⟨fun _ => none, fun _ => rfl⟩
  · next c rest e => simp [e]

theorem rest_of_step {s t : Scanner} {b : Batch} (hs : s.step = some (t, b)) : s.rest ≠ [] := by
  intro none
  rw [step_eq_none.2 none] at hs
  cases hs

theorem step_start {s : Scanner} (fresh : s.fresh = true) (filled : s.rest ≠ []) :
    s.step = some s.startLine := by
  obtain ⟨b, rest, e⟩ := List.exists_cons_of_ne_nil filled
  simp [step, e, fresh]

theorem step_within {s : Scanner} {c : UInt8} {rest : Bytes} (inside : s.fresh = false)
    (hs : s.rest = c :: rest) : s.step = some (s.lexeme c rest) := by simp [step, hs, inside]

theorem step_cases {s t : Scanner} {b : Batch} (hs : s.step = some (t, b)) :
    s.fresh = true ∧ s.startLine = (t, b) ∨
      s.fresh = false ∧ ∃ c rest, s.rest = c :: rest ∧ s.lexeme c rest = (t, b) := by
  obtain ⟨c, rest, e⟩ := List.exists_cons_of_ne_nil (rest_of_step hs)
  cases fresh : s.fresh with
  | true =>
    rw [step_start fresh (rest_of_step hs)] at hs
    exact .inl ⟨rfl, Option.some.inj hs⟩
  | false =>
    rw [step_within fresh e] at hs
    exact .inr ⟨rfl, c, rest, e, Option.some.inj hs⟩

def distance (s : Scanner) : Nat := 2 * s.rest.length + if s.fresh then 1 else 0

theorem distance_pass {s : Scanner} {b : UInt8} {rest : Bytes} (h : s.rest = b :: rest) :
    (s.pass b rest).distance < s.distance := by
  unfold pass distance
  have grows : rest.length + 1 = s.rest.length := by simp [h]
  split
  · simp only [if_true]
    omega
  · split <;> (simp only; omega)

theorem distance_skip (n : Nat) (s : Scanner) : (s.skip n).distance ≤ s.distance := by
  induction n generalizing s with
  | zero => exact Nat.le_refl _
  | succ n ih =>
    unfold skip
    split
    · exact Nat.le_refl _
    · next h => exact Nat.le_trans (ih _) (Nat.le_of_lt (distance_pass h))

theorem distance_skip_lt {n : Nat} {s : Scanner} (hn : 0 < n) (hs : s.rest ≠ []) :
    (s.skip n).distance < s.distance := by
  cases n with
  | zero => contradiction
  | succ n =>
    unfold skip
    split
    · contradiction
    · next h => exact Nat.lt_of_le_of_lt (distance_skip n _) (distance_pass h)

theorem distance_remember (s : Scanner) (tokens : List Token) :
    (s.remember tokens).distance = s.distance := by
  unfold remember
  split <;> rfl

theorem distance_openLevel (s : Scanner) (here : Location) (found : Nat) :
    (s.openLevel here found).1.distance = s.distance := by
  simp only [openLevel]
  split <;> rfl

theorem distance_closeLevels (s : Scanner) (here : Location) (found : Nat) :
    (s.closeLevels here found).1.distance = s.distance := by
  simp only [closeLevels, distance_remember]
  rfl

theorem distance_startLine {s : Scanner} (h : s.fresh = true) :
    s.startLine.1.distance < s.distance := by
  have clear : ({ s with fresh := false } : Scanner).distance < s.distance := by
    simp [distance, h]
  refine Nat.lt_of_le_of_lt ?_ clear
  unfold startLine
  simp only
  split
  · exact Nat.le_trans (distance_skip _ _) (distance_skip _ _)
  · split
    · split
      · exact Nat.le_trans (distance_skip _ _) (distance_skip _ _)
      · exact Nat.le_trans (distance_skip _ _)
          (Nat.le_trans (distance_skip _ _) (distance_skip _ _))
    · split
      · exact Nat.le_trans (Nat.le_of_eq (distance_openLevel _ _ _)) (distance_skip _ _)
      · exact Nat.le_trans (Nat.le_of_eq (distance_closeLevels _ _ _)) (distance_skip _ _)

theorem distance_lexeme {s : Scanner} {b : UInt8} {rest : Bytes} (h : s.rest = b :: rest) :
    (s.lexeme b rest).1.distance < s.distance := by
  have less := distance_skip_lt (Lexeme.length_read b rest) (s := s) (by simp [h])
  simp only [lexeme]
  split
  · exact less
  · split
    · exact less
    · exact less

theorem distance_step {s t : Scanner} {b : Batch} (h : s.step = some (t, b)) :
    t.distance < s.distance := by
  obtain ⟨fresh, made⟩ | ⟨-, c, rest, filled, made⟩ := step_cases h
  · have less := distance_startLine fresh
    rwa [made] at less
  · have less := distance_lexeme filled
    rwa [made] at less

def run (s : Scanner) : List Batch × Location :=
  match h : s.step with
  | none => ([⟨[], s.finish⟩], s.location)
  | some (t, batch) =>
    have := distance_step h
    let (batches, last) := t.run
    (batch :: batches, last)
termination_by s.distance

end Scanner

end StepsLang
