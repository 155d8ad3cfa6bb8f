import StepsLang.Proofs.Token.Join

namespace StepsLang.Scanner

variable {s t u : Scanner} {b : Batch}

theorem startLine_cases (s : Scanner) :
    (∃ n, s.startLine = (s.indented.skip n, ⟨s.tabFaults, []⟩)) ∨
      s.startLine = (s.leveled.1, ⟨s.tabFaults ++ s.leveled.2.reports, s.leveled.2.tokens⟩) := by
  cases blank : atLineEnd s.indented.rest with
  | true => exact .inl ⟨_, startLine_blank blank⟩
  | false =>
    cases comment : Word.standsAt Word.blockCommentStart s.indented.rest with
    | true =>
      rw [startLine_comment blank comment]
      split
      · exact .inl ⟨_, rfl⟩
      · exact .inl ⟨_, by rw [skipLine, ← skip_add]⟩
    | false => exact .inr (startLine_filled blank comment)

theorem lexeme_kept (s : Scanner) (c : UInt8) (rest : Bytes) :
    ∃ last, (s.lexeme c rest).1 = { s.skip (Lexeme.read c rest).length with last } := by
  unfold lexeme
  dsimp only
  split
  · exact ⟨_, rfl⟩
  · split
    · exact ⟨_, rfl⟩
    · exact ⟨_, rfl⟩

theorem lexeme_content {c : UInt8} {rest : Bytes} {x : Lexeme} {k : Kind}
    (read : Lexeme.read c rest = x) (made : x.kind = some k) (content : k.isContent = true)
    (s : Scanner) : s.lexeme c rest = ({ s.skip x.length with last := k },
      ⟨x.flaws.map fun (n, flaw) => flaw.report (s.skip n).location,
        [{ (s.skip x.length).token s.location k x.text with value := x.value }]⟩) := by
  have other : (k == .newline) = false :=
    beq_false_of_ne (Place.ne_of_content content (l := .newline) rfl)
  simp only [lexeme, read, made, other, Bool.false_and, Bool.false_eq_true, if_false]

def point (s : Scanner) : Bytes × Nat × Nat × Nat := (s.rest, s.file, s.line, s.column)

theorem pass_point (h : s.point = t.point) (c : UInt8) (rest : Bytes) :
    (s.pass c rest).point = (t.pass c rest).point := by
  obtain ⟨-, place⟩ := Prod.mk.inj h
  obtain ⟨file, place⟩ := Prod.mk.inj place
  obtain ⟨line, column⟩ := Prod.mk.inj place
  unfold pass
  split
  · simp only [point, file, line]
  · split
    · simp only [point, file, line, column]
    · simp only [point, file, line, column]

theorem skip_point (h : s.point = t.point) (n : Nat) : (s.skip n).point = (t.skip n).point := by
  induction n generalizing s t with
  | zero => exact h
  | succ n ih =>
    have same : s.rest = t.rest := congrArg Prod.fst h
    cases e : t.rest with
    | nil =>
      rw [skip_nil e, skip_nil (same.trans e)]
      exact h
    | cons c rest =>
      simp only [skip, same, e]
      exact ih (pass_point h c rest)

def Passes (s t : Scanner) : Prop := ∃ n, t.point = (s.skip n).point

namespace Passes

theorem skip (n : Nat) (s : Scanner) : s.Passes (s.skip n) := ⟨n, rfl⟩

theorem trans (h : s.Passes t) (more : t.Passes u) : s.Passes u := by
  obtain ⟨m, here⟩ := h
  obtain ⟨n, there⟩ := more
  exact ⟨m + n, by rw [there, skip_point here, skip_add]⟩

theorem of_point (h : t.point = s.point) : s.Passes t := ⟨0, h⟩

theorem suffix (h : s.Passes t) : t.rest <:+ s.rest := by
  obtain ⟨n, here⟩ := h
  have rest : t.rest = (s.skip n).rest := congrArg Prod.fst here
  rw [rest, skip_rest]
  exact List.drop_suffix n s.rest

end Passes

theorem passes_indented (s : Scanner) : s.Passes s.indented :=
  ⟨s.indentation.length, skip_point (s := { s with fresh := false }) (t := s) rfl _⟩

theorem passes_relevel (s : Scanner) (here : Location) (found : Nat) :
    s.Passes (s.relevel here found).1 := by
  obtain ⟨levels, last, kept⟩ := relevel_kept s here found
  rw [kept]
  exact .of_point rfl

theorem passes_startLine (s : Scanner) : s.Passes s.startLine.1 := by
  refine (passes_indented s).trans ?_
  obtain ⟨n, made⟩ | made := startLine_cases s
  · rw [made]
    exact .skip n _
  · rw [made]
    exact passes_relevel _ _ _

theorem passes_lexeme (s : Scanner) (c : UInt8) (rest : Bytes) :
    s.Passes (s.lexeme c rest).1 := by
  obtain ⟨last, kept⟩ := lexeme_kept s c rest
  rw [kept]
  exact (Passes.skip _ s).trans (.of_point rfl)

theorem passes_step (hs : s.step = some (t, b)) : s.Passes t := by
  obtain ⟨-, made⟩ | ⟨-, c, rest, -, made⟩ := step_cases hs
  · have start := passes_startLine s
    rwa [made] at start
  · have within := passes_lexeme s c rest
    rwa [made] at within

theorem step_advances (hs : s.step = some (t, b)) :
    t.rest <:+ s.rest ∧ (t.rest.length < s.rest.length ∨
      s.fresh = true ∧ t.fresh = false ∧ t.rest = s.rest) := by
  have suffix := (passes_step hs).suffix
  refine ⟨suffix, ?_⟩
  have closer := distance_step hs
  rcases Nat.lt_or_eq_of_le suffix.length_le with less | same
  · exact .inl less
  · rw [distance, distance, same, Nat.add_lt_add_iff_left] at closer
    refine .inr ⟨?_, ?_, suffix.eq_of_length same⟩
    · cases fresh : s.fresh with
      | true => rfl
      | false => simp [fresh] at closer
    · cases fresh : t.fresh with
      | true => cases e : s.fresh <;> simp [fresh, e] at closer
      | false => rfl

end StepsLang.Scanner
