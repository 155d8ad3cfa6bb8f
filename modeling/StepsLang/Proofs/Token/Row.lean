import StepsLang.Proofs.Token.LineEnd
import StepsLang.Proofs.Token.Step

namespace StepsLang

namespace Bytes

variable {u v s : Bytes}

def rows : Bytes → List Bytes
  | [] => []
  | b :: s =>
    if b = Byte.lineFeed then [b] :: rows s
    else
      match rows s with
      | [] => [[b]]
      | r :: rs => (b :: r) :: rs

theorem rows_line (h : Byte.lineFeed ∉ u) (s : Bytes) :
    rows (u ++ Byte.lineFeed :: s) = (u ++ [Byte.lineFeed]) :: rows s := by
  induction u with
  | nil => simp [rows]
  | cons b u ih =>
    rw [List.mem_cons, not_or] at h
    rw [List.cons_append, rows, if_neg (Ne.symm h.1), ih h.2]
    rfl

theorem rows_last (h : Byte.lineFeed ∉ u) (filled : u ≠ []) : rows u = [u] := by
  induction u with
  | nil => exact absurd rfl filled
  | cons b u ih =>
    rw [List.mem_cons, not_or] at h
    rw [rows, if_neg (Ne.symm h.1)]
    cases u with
    | nil => rfl
    | cons c u => rw [ih h.2 (List.cons_ne_nil c u)]

theorem rows_cons (h : Byte.lineFeed ∉ u) (ends : LineEnd v) (filled : u ++ v ≠ []) :
    rows (u ++ v) = (u ++ v.take 1) :: rows (v.drop 1) := by
  cases v with
  | nil =>
    rw [List.append_nil] at filled
    simpa [rows] using rows_last h filled
  | cons b s =>
    obtain rfl := ends b rfl
    exact rows_line h s

def blanks (r : Bytes) : Bytes := r.takeWhile fun b => b == Byte.space || b == Byte.tab

def breadth (r : Bytes) : Nat := r.blanks.foldl (fun n b => n + Scanner.width b) 0

def isBare (r : Bytes) : Bool := Scanner.atLineEnd (r.drop r.blanks.length)

/-- The number of open blocks behind the indentation of a line, where `d` are open before it: the
levels of its width, but one more at most than before. -/
def depthBehind (d : Nat) (r : Bytes) : Nat :=
  if r.isBare then d else min (d + 1) (r.breadth / 4)

theorem depthBehind_bare {r : Bytes} (h : r.isBare = true) (d : Nat) : depthBehind d r = d :=
  if_pos h

theorem depthBehind_filled {r : Bytes} (h : r.isBare = false) (d : Nat) :
    depthBehind d r = min (d + 1) (r.breadth / 4) := if_neg (by simp [h])

theorem blanks_line (ends : LineEnd v) : (u ++ v).blanks = u.blanks := takeWhile_ends rfl ends

theorem lineEnd_take (ends : LineEnd v) : LineEnd (v.take 1) := by
  cases v with
  | nil => exact ends
  | cons b v => exact ends

theorem atLineEnd_take (ends : LineEnd v) (w : Bytes) :
    Scanner.atLineEnd (w ++ v.take 1) = Scanner.atLineEnd (w ++ v) := by
  cases v with
  | nil => rfl
  | cons b v =>
    obtain rfl := ends b rfl
    match w with
    | [] => cases v <;> rfl
    | [_] | _ :: _ :: _ => rfl

theorem isBare_line (ends : LineEnd v) :
    (u ++ v.take 1).isBare = Scanner.atLineEnd (u.drop u.blanks.length ++ v) := by
  have within : u.blanks.length ≤ u.length := (List.takeWhile_prefix _).length_le
  rw [isBare, blanks_line (lineEnd_take ends), List.drop_append_of_le_length within,
    atLineEnd_take ends]

end Bytes

namespace Scanner

inductive Scans : Scanner → List Batch → Scanner → Prop
  | refl (s : Scanner) : Scans s [] s
  | step {s t u : Scanner} {b : Batch} {bs : List Batch} (first : s.step = some (t, b))
    (more : Scans t bs u) : Scans s (b :: bs) u

namespace Scans

variable {s t u : Scanner} {bs cs : List Batch}

theorem trans (h : Scans s bs t) (h' : Scans t cs u) : Scans s (bs ++ cs) u := by
  induction h with
  | refl => exact h'
  | step first _ ih => exact .step first (ih h')

theorem run (h : Scans s bs t) : s.run = (bs ++ t.run.1, t.run.2) := by
  induction h with
  | refl => rfl
  | step first _ ih =>
    rw [Scanner.run]
    split
    · next none =>
      rw [first] at none
      cases none
    · next same =>
      rw [first] at same
      cases same
      rw [ih]
      rfl

theorem run_done (h : Scans s bs t) (done : t.rest = []) :
    s.run = (bs ++ [⟨[], t.finish⟩], t.location) := by
  rw [h.run, TokenStream.run_of_none (step_eq_none.2 done)]

end Scans

variable {s t : Scanner} {u v : Bytes}

structure Past (n : Nat) (levels : List Nat) (v : Bytes) (t : Scanner) : Prop where
  rest : t.rest = v.drop 1
  levels : t.levels = levels
  next : v ≠ [] → t.fresh = true ∧ t.line = n + 1

theorem skip_starts {n : Nat} (h : s.fresh = true ∨ Byte.lineFeed ∈ s.rest.take n) :
    (s.skip n).fresh = true := by
  induction n generalizing s with
  | zero => exact h.resolve_right (by simp)
  | succ n ih =>
    cases e : s.rest with
    | nil =>
      rw [skip_nil e]
      exact h.resolve_right (by simp [e])
    | cons b rest =>
      simp only [skip, e]
      refine ih ?_
      by_cases hb : b = Byte.lineFeed
      · subst hb
        exact .inl rfl
      · rw [e, List.take_succ_cons, List.mem_cons] at h
        rw [pass_rest]
        refine h.imp (fun fresh => ?_) (·.resolve_left (Ne.symm hb))
        unfold pass
        rw [beq_false_of_ne hb]
        split
        · rfl
        · split <;> exact fresh

theorem past_skip (here : s.rest = u ++ v) (line : Byte.lineFeed ∉ u) (ends : LineEnd v) :
    Past s.line s.levels v (s.skip (u.length + 1)) := by
  refine ⟨?_, skip_levels _ _, fun some => ?_⟩
  · rw [skip_rest, here, ← List.drop_drop, List.drop_left]
  · obtain ⟨b, more, rfl⟩ := List.exists_cons_of_ne_nil some
    obtain rfl := ends b rfl
    have counted := skip_line (u.length + 1) s
    rw [skip_rest, here, ← List.drop_drop, List.drop_left, List.count_append,
      List.count_eq_zero_of_not_mem line, List.drop_one, List.tail_cons, List.count_cons_self]
      at counted
    refine ⟨skip_starts (.inr ?_), by omega⟩
    rw [here, List.take_length_add_append]
    simp

theorem past_skipLine (here : s.rest = u ++ v) (line : Byte.lineFeed ∉ u) (ends : LineEnd v) :
    Past s.line s.levels v s.skipLine := by
  rw [skipLine, here, Bytes.takeWhile_ends rfl ends, Bytes.takeWhile_line line]
  exact past_skip here line ends

@[simp] theorem indented_line (s : Scanner) : s.indented.line = s.line :=
  skip_line_eq (s := { s with fresh := false }) (line_indentation s)

structure Inside (n : Nat) (ts : List Token) : Prop where
  parts : ∃ cs nl, ts = cs ++ nl ∧ (∀ c ∈ cs, c.kind.isContent = true) ∧ ∀ x ∈ nl, x.kind = .newline
  line : ∀ t ∈ ts, t.location.line = n

theorem Inside.nil (n : Nat) : Inside n [] := ⟨⟨[], [], rfl, by simp, by simp⟩, by simp⟩

theorem Inside.cons {n : Nat} {x : Token} {ts : List Token} (content : x.kind.isContent = true)
    (here : x.location.line = n) (h : Inside n ts) : Inside n (x :: ts) := by
  obtain ⟨⟨cs, nl, rfl, words, ends⟩, line⟩ := h
  exact ⟨⟨x :: cs, nl, rfl, List.forall_mem_cons.2 ⟨content, words⟩, ends⟩,
    List.forall_mem_cons.2 ⟨here, line⟩⟩

theorem Inside.newline {n : Nat} {x : Token} (kind : x.kind = .newline)
    (here : x.location.line = n) : Inside n [x] :=
  ⟨⟨[], [x], rfl, by simp, by simpa using kind⟩, by simpa using here⟩

theorem lexeme_silent {b : UInt8} {rest : Bytes} {x : Lexeme} (read : Lexeme.read b rest = x)
    (none : x.kind = none) (s : Scanner) : s.lexeme b rest =
      (s.skip x.length, ⟨x.flaws.map fun (n, flaw) => flaw.report (s.skip n).location, []⟩) := by
  simp only [lexeme, read, none]

theorem scans_lineFeed (inside : s.fresh = false) (here : s.rest = Byte.lineFeed :: v) :
    ∃ bs t, Scans s bs t ∧ Past s.line s.levels (Byte.lineFeed :: v) t ∧
      Inside s.line (bs.flatMap (·.tokens)) := by
  have read : Lexeme.read Byte.lineFeed v = { length := 1, kind := some .newline } := rfl
  have past := past_skip (u := []) here (by simp) (lineEnd_cons v)
  refine ⟨_, _, .step (step_within inside here) (.refl _), ?_⟩
  simp only [read, List.flatMap_cons, List.flatMap_nil, List.append_nil]
  split
  · exact ⟨past, .nil _⟩
  · exact ⟨⟨past.rest, past.levels, past.next⟩, .newline rfl rfl⟩

theorem scans_lexeme {b : UInt8} (inside : s.fresh = false) (here : s.rest = b :: (u ++ v))
    (line : Byte.lineFeed ∉ b :: u) (ends : LineEnd v)
    (plain : Word.standsAt Word.blockCommentStart s.rest = false) :
    ∃ r n t, s.step = some (t, r) ∧ t.rest = (b :: u).drop (n + 1) ++ v ∧ t.fresh = false ∧
      t.levels = s.levels ∧ t.line = s.line ∧
      (r.tokens = [] ∨ ∃ x : Token, r.tokens = [x] ∧ x.kind.isContent = true ∧
        x.location.line = s.line) := by
  rw [here] at plain
  rw [List.mem_cons, not_or] at line
  have within := Lexeme.length_read_before line.2 ends plain
  have stays := Lexeme.lineFeed_not_mem_read (Ne.symm line.1) plain
  obtain ⟨n, length⟩ := Nat.exists_eq_add_one_of_ne_zero
    (Nat.ne_of_gt (Lexeme.length_read b (u ++ v)))
  have rest : (s.skip (Lexeme.read b (u ++ v)).length).rest = (b :: u).drop (n + 1) ++ v := by
    rw [skip_rest, here, ← List.cons_append, List.drop_append_of_le_length within, length]
  rw [← here] at stays
  have fresh := (skip_fresh stays).trans inside
  have row := skip_line_eq stays
  cases kind : (Lexeme.read b (u ++ v)).kind with
  | none =>
    refine ⟨_, n, _, (step_within inside here).trans (congrArg some (lexeme_silent rfl kind s)), ?_⟩
    exact ⟨rest, fresh, skip_levels _ _, row, .inl rfl⟩
  | some k =>
    have content := Lexeme.isContent_read kind (Ne.symm line.1)
    refine ⟨_, n, _, (step_within inside here).trans
      (congrArg some (lexeme_content rfl kind content s)), ?_⟩
    exact ⟨rest, fresh, skip_levels _ _, row, .inr ⟨_, rfl, content, rfl⟩⟩

theorem scans_inside (inside : s.fresh = false) (here : s.rest = u ++ v)
    (line : Byte.lineFeed ∉ u) (ends : LineEnd v) (plain : NoComment s.rest) :
    ∃ bs t, Scans s bs t ∧ Past s.line s.levels v t ∧ Inside s.line (bs.flatMap (·.tokens)) := by
  induction size : u.length using Nat.strongRecOn generalizing u s with
  | ind m ih =>
    subst size
    cases u with
    | nil =>
      cases v with
      | nil => exact ⟨[], s, .refl s, ⟨here, rfl, absurd rfl⟩, .nil _⟩
      | cons b v =>
        obtain rfl := ends b rfl
        exact scans_lineFeed inside here
    | cons b u =>
      obtain ⟨r, n, t, one, rest, fresh, levels, row, made⟩ :=
        scans_lexeme inside here line ends plain.standsAt
      have shorter : ((b :: u).drop (n + 1)).length < (b :: u).length := by
        rw [List.length_drop, List.length_cons]
        omega
      obtain ⟨bs, w, more, past, tokens⟩ := ih _ shorter fresh rest
        (fun there => line (List.mem_of_mem_drop there))
        (plain.of_suffix (passes_step one).suffix) rfl
      refine ⟨r :: bs, w, .step one more, ?_, ?_⟩
      · exact ⟨past.rest, past.levels.trans levels, row ▸ past.next⟩
      · rw [row] at tokens
        rw [List.flatMap_cons]
        obtain none | ⟨x, one, content, line⟩ := made
        · rwa [none]
        · rw [one]
          exact tokens.cons content line

end Scanner

end StepsLang
