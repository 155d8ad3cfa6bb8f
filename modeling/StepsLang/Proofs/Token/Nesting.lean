import Mathlib.Data.List.Chain
import StepsLang.Proofs.Token.Layout

namespace StepsLang

def indents (ts : List Token) : Nat := ts.countP (·.kind == .indent)

def dedents (ts : List Token) : Nat := ts.countP (·.kind == .dedent)

structure WellNested (ts : List Token) : Prop where
  opened : ∀ ps, ps <+: ts → dedents ps ≤ indents ps
  closed : indents ts = dedents ts

def Kind.climb (k : Kind) (d : Nat) : Option Nat :=
  match k, d with
  | .indent, d => some (d + 1)
  | .dedent, 0 => none
  | .dedent, d + 1 => some d
  | _, d => some d

def climb (d : Nat) (ts : List Token) : Option Nat := ts.foldlM (fun d t => t.kind.climb d) d

section

variable {d e : Nat} {t : Token} {ts us : List Token}

@[simp] theorem climb_nil (d : Nat) : climb d [] = some d := rfl

theorem climb_cons (d : Nat) (t : Token) (ts : List Token) :
    climb d (t :: ts) = (t.kind.climb d).bind (climb · ts) := List.foldlM_cons

theorem climb_append (d : Nat) (ts us : List Token) :
    climb d (ts ++ us) = (climb d ts).bind (climb · us) := List.foldlM_append

theorem Kind.climb_flat {k : Kind} (hi : k ≠ .indent) (hd : k ≠ .dedent) (d : Nat) :
    k.climb d = some d := by
  cases k <;> first | contradiction | rfl

theorem Kind.climb_eq {k : Kind} (h : k.climb d = some e) :
    e + (if k = .dedent then 1 else 0) = d + if k = .indent then 1 else 0 := by
  cases k <;> cases d <;> cases h <;> rfl

theorem dedents_cons (t : Token) (ts : List Token) :
    dedents (t :: ts) = dedents ts + if t.kind = .dedent then 1 else 0 := by
  simp [dedents, List.countP_cons]

theorem indents_cons (t : Token) (ts : List Token) :
    indents (t :: ts) = indents ts + if t.kind = .indent then 1 else 0 := by
  simp [indents, List.countP_cons]

theorem climb_count (h : climb d ts = some e) : e + dedents ts = d + indents ts := by
  induction ts generalizing d with
  | nil =>
    cases h
    rfl
  | cons t ts ih =>
    rw [climb_cons] at h
    obtain ⟨d', one, more⟩ := Option.bind_eq_some_iff.1 h
    have first := Kind.climb_eq one
    have rest := ih more
    rw [dedents_cons, indents_cons]
    omega

theorem WellNested.of_climb (h : climb 0 ts = some 0) : WellNested ts where
  opened := by
    rintro ps ⟨us, rfl⟩
    rw [climb_append] at h
    obtain ⟨e, first, -⟩ := Option.bind_eq_some_iff.1 h
    have count := climb_count first
    omega
  closed := by
    have count := climb_count h
    omega

end

/-- What is known between two tokens of any text: how many blocks are open, and the kind of the
token before. -/
structure Mark where
  depth : Nat
  last : Kind

namespace Mark

/-- The mark behind one more token, if it can stand here. The end of the file stands nowhere, and
an end of line not behind another one. -/
def next (m : Mark) (k : Kind) : Option Mark :=
  if k = .endOfFile ∨ k = .newline ∧ m.last = .newline then none
  else (k.climb m.depth).map (⟨·, k⟩)

def after (m : Mark) (ts : List Token) : Option Mark := ts.foldlM (fun m t => m.next t.kind) m

variable {m n : Mark} {ts us : List Token}

theorem after_cons (m : Mark) (t : Token) (ts : List Token) :
    m.after (t :: ts) = (m.next t.kind).bind (·.after ts) := List.foldlM_cons

theorem after_append (m : Mark) (ts us : List Token) :
    m.after (ts ++ us) = (m.after ts).bind (·.after us) := List.foldlM_append

theorem after_one {t : Token} (h : m.next t.kind = some n) : m.after [t] = some n := by
  rw [after_cons, h]
  rfl

theorem after_dedents {t : Token} (ht : t.kind = .dedent) (d n : Nat) (last : Kind) :
    after ⟨d + n, last⟩ (List.replicate n t) = some ⟨d, if n = 0 then last else .dedent⟩ := by
  induction n generalizing last with
  | zero => rfl
  | succ n ih =>
    have one : next ⟨d + (n + 1), last⟩ t.kind = some ⟨d + n, .dedent⟩ := by
      rw [ht]
      rfl
    rw [List.replicate_succ, after_cons, one, Option.bind_some, ih]
    simp

theorem next_inside {k : Kind} (h : k.isContent = true) (m : Mark) :
    m.next k = some ⟨m.depth, k⟩ := by
  cases k <;> first | contradiction | rfl

theorem of_next {k : Kind} (h : m.next k = some n) :
    k ≠ .endOfFile ∧ ¬ (m.last = .newline ∧ k = .newline) ∧ k.climb m.depth = some n.depth ∧
      n.last = k := by
  unfold next at h
  split at h
  · cases h
  · next stands =>
    obtain ⟨d, climbs, rfl⟩ := Option.map_eq_some_iff.1 h
    exact ⟨fun e => stands (.inl e), fun both => stands (.inr both.symm), climbs, rfl⟩

theorem climb_of_after (h : m.after ts = some n) : climb m.depth ts = some n.depth := by
  induction ts generalizing m with
  | nil =>
    cases h
    rfl
  | cons t ts ih =>
    rw [after_cons] at h
    obtain ⟨m', one, more⟩ := Option.bind_eq_some_iff.1 h
    rw [climb_cons, (of_next one).2.2.1]
    exact ih more

theorem ne_of_after (h : m.after ts = some n) : ∀ t ∈ ts, t.kind ≠ .endOfFile := by
  induction ts generalizing m with
  | nil => simp
  | cons t ts ih =>
    rw [after_cons] at h
    obtain ⟨m', one, more⟩ := Option.bind_eq_some_iff.1 h
    exact List.forall_mem_cons.2 ⟨(of_next one).1, ih more⟩

theorem isChain_of_after (h : m.after ts = some n) :
    (m.last :: ts.map (·.kind)).IsChain fun a b => ¬ (a = .newline ∧ b = .newline) := by
  induction ts generalizing m with
  | nil => exact .singleton _
  | cons t ts ih =>
    rw [after_cons] at h
    obtain ⟨m', one, more⟩ := Option.bind_eq_some_iff.1 h
    obtain ⟨-, apart, -, last⟩ := of_next one
    have rest := ih more
    rw [last] at rest
    exact .cons_cons apart rest

end Mark

namespace Scanner

inductive Emits : Scanner → List Token → Scanner → Prop
  | refl (s : Scanner) : Emits s [] s
  | step {s t u : Scanner} {b : Batch} {ts : List Token} (first : s.step = some (t, b))
    (more : Emits t ts u) : Emits s (b.tokens ++ ts) u

def mark (s : Scanner) : Mark := ⟨s.levels.length - 1, s.last⟩

def Regular (s : Scanner) : Prop := ∃ d, s.levels = levelsAt d

structure Tells (s : Scanner) (r : Scanner × Batch) : Prop where
  regular : r.1.Regular
  mark : s.mark.after r.2.tokens = some r.1.mark

variable {s t : Scanner}

theorem Regular.levels_eq (h : s.Regular) : s.levels = levelsAt s.mark.depth := by
  obtain ⟨d, levels⟩ := h
  simp [mark, levels]

theorem Tells.silent {reports : List Report} (h : s.Regular) (levels : t.levels = s.levels)
    (last : t.last = s.last) : s.Tells (t, ⟨reports, []⟩) := by
  refine ⟨?_, ?_⟩
  · obtain ⟨d, regular⟩ := h
    exact ⟨d, levels.trans regular⟩
  · simp [Scanner.mark, levels, last, Mark.after]

theorem tells_openLevel (h : s.Regular) (here : Location) (found : Nat) :
    s.Tells (s.openLevel here found) := by
  obtain ⟨d, levels⟩ := h
  simp only [openLevel]
  split
  · refine ⟨⟨d + 1, by simp [level, levels, levelsAt, Nat.mul_succ]⟩, Mark.after_one ?_⟩
    simp [mark, levels, Mark.next, Kind.climb, token]
  · exact .silent ⟨d, levels⟩ rfl rfl

theorem tells_closeLevels (h : s.Regular) (here : Location) (found : Nat) :
    s.Tells (s.closeLevels here found) := by
  obtain ⟨d, levels⟩ := h
  obtain ⟨e, he, kept⟩ := dropWhile_levelsAt_eq found d
  obtain ⟨n, rfl⟩ := Nat.exists_eq_add_of_le he
  have closing := Mark.after_dedents (t := s.token here .dedent) rfl e n s.last
  simp only [closeLevels, levels, kept, length_levelsAt, Nat.add_sub_add_right,
    Nat.add_sub_cancel_left, remember_replicate]
  refine ⟨⟨e, rfl⟩, ?_⟩
  simpa [mark, levels, token] using closing

theorem tells_startLine (h : s.Regular) : s.Tells s.startLine := by
  cases blank : atLineEnd s.indented.rest with
  | true =>
    rw [startLine_blank blank]
    exact .silent h (by simp [skipLine]) (by simp [skipLine])
  | false =>
    cases comment : Word.standsAt Word.blockCommentStart s.indented.rest with
    | true =>
      rw [startLine_comment blank comment]
      exact .silent h (by split <;> simp [skipLine]) (by split <;> simp [skipLine])
    | false =>
      have same : s.indented.Tells s.leveled := by
        have regular : s.indented.Regular := by simpa [Regular] using h
        rw [leveled, relevel]
        split
        · exact tells_openLevel regular _ _
        · exact tells_closeLevels regular _ _
      have mark : s.indented.mark = s.mark := by simp [Scanner.mark]
      rw [startLine_filled blank comment]
      exact ⟨same.regular, mark ▸ same.mark⟩

theorem tells_lexeme (h : s.Regular) (b : UInt8) (rest : Bytes) : s.Tells (s.lexeme b rest) := by
  obtain ⟨d, levels⟩ := h
  cases read : (Lexeme.read b rest).kind with
  | none =>
    simp only [lexeme, read]
    exact .silent ⟨d, levels⟩ (by simp) (by simp)
  | some k =>
    simp only [lexeme, read]
    split
    · exact .silent ⟨d, levels⟩ (by simp) (by simp)
    · next stands =>
      refine ⟨⟨d, by simpa using levels⟩, Mark.after_one ?_⟩
      by_cases hb : b = Byte.lineFeed
      · subst hb
        have newline : k = .newline := (Option.some.inj read).symm
        subst newline
        have apart : s.last ≠ .newline := by simpa using stands
        simp [Mark.next, mark, apart, Kind.climb, token]
      · simpa [mark, token] using Mark.next_inside (Lexeme.isContent_read read hb) s.mark

theorem tells_step {b : Batch} (h : s.Regular) (hs : s.step = some (t, b)) : s.Tells (t, b) := by
  obtain ⟨-, made⟩ | ⟨-, c, rest, -, made⟩ := step_cases hs
  · exact made ▸ tells_startLine h
  · exact made ▸ tells_lexeme h c rest

theorem after_finish (h : s.Regular) :
    ∃ zs last, s.finish = zs ++ [s.token s.location .endOfFile] ∧
      s.mark.after zs = some ⟨0, last⟩ := by
  obtain ⟨d, levels⟩ := h
  have dedents := Mark.after_dedents (t := s.token s.location .dedent) rfl 0 d
  rw [Nat.zero_add] at dedents
  have here : s.mark = ⟨d, s.last⟩ := by simp [mark, levels]
  simp only [finish, levels, length_levelsAt, Nat.add_sub_cancel, here]
  split
  · exact ⟨_, _, by rw [List.nil_append], dedents s.last⟩
  · next ended =>
    have newline : Mark.next ⟨d, s.last⟩ .newline = some ⟨d, .newline⟩ := by
      have apart : s.last ≠ .newline := fun e => ended (by simp [e])
      simp [Mark.next, apart, Kind.climb]
    refine ⟨_, if d = 0 then .newline else .dedent, rfl, ?_⟩
    rw [Mark.after_append, Mark.after_one newline]
    exact dedents .newline

theorem after_run (s : Scanner) (h : s.Regular) :
    ∃ zs e last, s.run.1.flatMap (·.tokens) = zs ++ [e] ∧ e.kind = .endOfFile ∧
      s.mark.after zs = some ⟨0, last⟩ := by
  cases hs : s.step with
  | none =>
    obtain ⟨zs, last, made, closed⟩ := after_finish h
    refine ⟨zs, s.token s.location .endOfFile, last, ?_, rfl, closed⟩
    simp [TokenStream.run_of_none hs, made]
  | some p =>
    obtain ⟨t, b⟩ := p
    have _ := distance_step hs
    obtain ⟨regular, one⟩ := tells_step h hs
    obtain ⟨zs, e, last, made, ends, closed⟩ := after_run t regular
    refine ⟨b.tokens ++ zs, e, last, ?_, ends, ?_⟩
    · rw [TokenStream.run_of_some hs, List.flatMap_cons, made, List.append_assoc]
    · rw [Mark.after_append, one]
      exact closed
termination_by s.distance

/-- Wherever the scanner stands, its levels are those of the blocks that its tokens leave open. -/
theorem emits_tells {ts : List Token} (he : Emits s ts t) (h : s.Regular) :
    t.Regular ∧ s.mark.after ts = some t.mark ∧
      s.run.1.flatMap (·.tokens) = ts ++ t.run.1.flatMap (·.tokens) := by
  induction he with
  | refl s => exact ⟨h, rfl, rfl⟩
  | step first _ ih =>
    obtain ⟨regular, one⟩ := tells_step h first
    obtain ⟨regular, more, run⟩ := ih regular
    refine ⟨regular, ?_, ?_⟩
    · rw [Mark.after_append, one]
      exact more
    · rw [TokenStream.run_of_some first, List.flatMap_cons, run, List.append_assoc]

end Scanner

namespace TokenStream
open Scanner

theorem start_regular (file : Nat) (source : Bytes) : (start file source).Regular := ⟨0, rfl⟩

theorem after_ofSource (file : Nat) (source : Bytes) :
    ∃ zs e last, (ofSource file source).tokens.map (·.token) = zs ++ [e] ∧
      e.kind = .endOfFile ∧ Mark.after ⟨0, .newline⟩ zs = some ⟨0, last⟩ := by
  obtain ⟨zs, e, last, made, ends, closed⟩ := after_run _ (start_regular file source)
  exact ⟨zs, e, last, (token_spread _ _).trans made, ends, closed⟩

/-- In the tokens of any text the end of the file stands last and nowhere else, no end of line
follows another, and blocks are well nested; and wherever the scanner stands, its levels are 0, 4,
8 and so on up to the number of blocks that it has opened and not closed. -/
theorem ofSource_wellNested (file : Nat) (source : Bytes) :
    let tokens := (ofSource file source).tokens.map (·.token)
    (∃ zs e, tokens = zs ++ [e] ∧ e.kind = .endOfFile ∧ ∀ t ∈ zs, t.kind ≠ .endOfFile) ∧
      tokens.IsChain (fun a b => ¬ (a.kind = .newline ∧ b.kind = .newline)) ∧
      WellNested tokens ∧
      ∀ ts s, Emits (start file source) ts s → ts <+: tokens ∧
        ∃ k, indents ts = dedents ts + k ∧ s.levels = levelsAt k := by
  intro tokens
  obtain ⟨zs, e, last, made, ends, closed⟩ := after_ofSource file source
  have whole : tokens = zs ++ [e] := made
  refine ⟨⟨zs, e, whole, ends, Mark.ne_of_after closed⟩, ?_, ?_, ?_⟩
  · have before := (List.isChain_map _).1 (List.isChain_cons.1 (Mark.isChain_of_after closed)).2
    rw [whole]
    refine before.append (.singleton e) fun a _ b hb both => ?_
    obtain rfl : b = e := by simpa using hb.symm
    rw [ends] at both
    cases both.2
  · refine .of_climb ?_
    rw [whole, climb_append, Mark.climb_of_after closed]
    simp [climb_cons, ends, Kind.climb]
  · intro ts s reached
    obtain ⟨regular, marked, run⟩ := emits_tells reached (start_regular file source)
    refine ⟨⟨_, run.symm.trans (token_spread _ _).symm⟩, s.mark.depth, ?_, regular.levels_eq⟩
    have count := climb_count (Mark.climb_of_after marked)
    have zero : (start file source).mark.depth = 0 := rfl
    omega

end TokenStream

end StepsLang
