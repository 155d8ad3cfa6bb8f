import StepsLang.Proofs.List
import StepsLang.Proofs.Token.Join
import StepsLang.Proofs.Token.Nesting

namespace StepsLang

def lastKind (ts : List Token) : Kind := (ts.getLast?.map (·.kind)).getD .newline

@[simp] theorem lastKind_concat (ts : List Token) (t : Token) : lastKind (ts ++ [t]) = t.kind := by
  simp [lastKind]

theorem lastKind_append {ds : List Token} {k : Kind} (ts : List Token) (some : ds ≠ [])
    (all : ∀ d ∈ ds, d.kind = k) : lastKind (ts ++ ds) = k := by
  obtain ⟨es, d, rfl⟩ := List.eq_nil_or_concat ds |>.resolve_left some
  rw [List.concat_eq_append, ← List.append_assoc, lastKind_concat]
  exact all d (by simp)

/-- Every line of some tokens ends before anything else follows, except where `gap` holds of the
tokens up to there. -/
structure LinesEnd (gap : List Token → Prop) (tokens : List Token) : Prop where
  apart : ∀ ps a ms c qs, tokens = ps ++ a :: (ms ++ c :: qs) → a.kind.isContent = true →
    c.kind.isContent = true → a.location.line ≠ c.location.line →
    (∃ m ∈ ms, m.kind = .newline) ∨ ∃ cs, cs <+: ms ∧ gap (ps ++ a :: cs)
  closed : ∀ ps a b qs, tokens = ps ++ a :: b :: qs → a.kind.isContent = true →
    b.kind.isContent = true ∨ b.kind = .newline ∨ gap (ps ++ [a])
  ended : (∃ e, tokens = [e] ∧ e.kind = .endOfFile) ∨
    ∃ ts ds e, tokens = ts ++ (ds ++ [e]) ∧ (∀ d ∈ ds, d.kind = .dedent) ∧ e.kind = .endOfFile ∧
      (ts ≠ [] ∧ lastKind ts = .newline ∨ gap ts)

theorem LinesEnd.before_dedents {ts : List Token} (h : LinesEnd (fun _ => False) ts)
    (some : 1 < ts.length) :
    (((ts.map (·.kind)).reverse.drop 1).dropWhile (· == .dedent)).head? = .some .newline := by
  rcases h.ended with ⟨e, rfl, -⟩ | ⟨us, ds, e, rfl, all, -, ⟨filled, newline⟩ | none⟩
  · exact absurd some (Nat.lt_irrefl 1)
  · obtain ⟨vs, n, rfl⟩ := List.eq_nil_or_concat us |>.resolve_left filled
    rw [List.concat_eq_append, lastKind_concat] at newline
    have dedents : ∀ k ∈ (ds.map (·.kind)).reverse, (k == Kind.dedent) = true := by
      simpa using all
    have reversed : ((vs.concat n ++ (ds ++ [e])).map (·.kind)).reverse.drop 1 =
        (ds.map (·.kind)).reverse ++ .newline :: (vs.map (·.kind)).reverse := by
      simp [newline]
    rw [reversed, List.dropWhile_append_of_pos dedents, List.dropWhile_cons_of_neg (by decide)]
    rfl
  · exact none.elim

namespace Scanner

inductive LeavesOpen (s : Scanner) : Prop
  | comment (inside : s.fresh = false) (behind : s.last ≠ .newline)
    (stands : Word.standsAt Word.blockCommentStart s.rest = true)
    (beyond : Byte.lineFeed ∈ s.rest.take (Word.blockCommentLength s.rest))
  | block (inside : s.fresh = false) (opened : s.last = .indent) (done : s.rest = [])

/-- What one step does to the line on which the scanner stands. -/
inductive Turn (s t : Scanner) : List Token → Prop
  | passes (here : s.fresh = true) (last : t.last = s.last) : Turn s t []
  | opens (here : s.fresh = true) (x : Token) (kind : x.kind = .indent) (inside : t.fresh = false)
    (last : t.last = .indent) : Turn s t [x]
  | closes (here : s.fresh = true) (ds : List Token) (some : ds ≠ [])
    (all : ∀ d ∈ ds, d.kind = .dedent) (inside : t.fresh = false) (last : t.last = .dedent) :
    Turn s t ds
  | stays (here : s.fresh = false) (inside : t.fresh = false) (line : t.line = s.line)
    (last : t.last = s.last) : Turn s t []
  | adds (here : s.fresh = false) (x : Token) (content : x.kind.isContent = true)
    (at_ : x.location.line = s.line) (inside : t.fresh = false) (line : t.line = s.line)
    (last : t.last = x.kind) : Turn s t [x]
  | ends (here : s.fresh = false) (x : Token) (kind : x.kind = .newline)
    (last : t.last = .newline) : Turn s t [x]
  | breaks (here : s.fresh = false) (beyond : s.last = .newline ∨ s.LeavesOpen)
    (last : t.last = s.last) : Turn s t []

variable {s t : Scanner} {b : UInt8} {rest : Bytes}

theorem skip_line_eq {n : Nat} (h : Byte.lineFeed ∉ s.rest.take n) :
    (s.skip n).line = s.line := by
  have split := congrArg (List.count Byte.lineFeed) (List.take_append_drop n s.rest)
  rw [List.count_append, List.count_eq_zero_of_not_mem h, Nat.zero_add] at split
  have lines := skip_line n s
  rw [skip_rest, split] at lines
  exact Nat.add_right_cancel lines

theorem turn_relevel (here : t.fresh = true) (s : Scanner) (inside : s.fresh = false)
    (last : s.last = t.last) (place : Location) (found : Nat) :
    Turn t (s.relevel place found).1 (s.relevel place found).2.tokens := by
  unfold relevel
  split
  · simp only [openLevel]
    split
    · exact .opens here _ rfl inside rfl
    · exact .passes here last
  · simp only [closeLevels, remember_replicate]
    cases s.levels.length - (s.levels.dropWhile (found < ·)).length with
    | zero => exact .passes here last
    | succ n =>
      refine .closes here _ (by simp) (fun d hd => ?_) inside rfl
      rw [(List.mem_replicate.1 hd).2]
      rfl

theorem turn_startLine (here : s.fresh = true) : Turn s s.startLine.1 s.startLine.2.tokens := by
  cases blank : atLineEnd s.indented.rest with
  | true =>
    rw [startLine_blank blank]
    exact .passes here (by simp [skipLine])
  | false =>
    cases comment : Word.standsAt Word.blockCommentStart s.indented.rest with
    | true =>
      rw [startLine_comment blank comment]
      exact .passes here (by dsimp only; split <;> simp [skipLine])
    | false =>
      rw [startLine_filled blank comment]
      exact turn_relevel here _ (by simp) (by simp) _ _

theorem turn_comment (here : s.fresh = false) (hs : s.rest = b :: rest)
    (stands : Word.standsAt Word.blockCommentStart (b :: rest) = true) :
    Turn s (s.lexeme b rest).1 (s.lexeme b rest).2.tokens := by
  simp only [lexeme, Lexeme.read_comment stands]
  rw [← hs] at stands ⊢
  by_cases beyond : Byte.lineFeed ∈ s.rest.take (Word.blockCommentLength s.rest)
  · refine .breaks here ?_ (skip_last _ _)
    by_cases behind : s.last = .newline
    · exact .inl behind
    · exact .inr (.comment here behind stands beyond)
  · exact .stays here ((skip_fresh beyond).trans here) (skip_line_eq beyond) (skip_last _ _)

theorem turn_lexeme (here : s.fresh = false) (hs : s.rest = b :: rest) :
    Turn s (s.lexeme b rest).1 (s.lexeme b rest).2.tokens := by
  by_cases hb : b = Byte.lineFeed
  · subst hb
    have read : Lexeme.read Byte.lineFeed rest = { length := 1, kind := some .newline } := rfl
    simp only [lexeme, read]
    by_cases last : s.last = .newline
    · rw [if_pos (by simp [last])]
      exact .breaks here (.inl last) (skip_last _ _)
    · rw [if_neg (by simp [last])]
      exact .ends here _ rfl rfl
  · cases stands : Word.standsAt Word.blockCommentStart (b :: rest) with
    | true => exact turn_comment here hs stands
    | false =>
      have within : Byte.lineFeed ∉ s.rest.take (Lexeme.read b rest).length := by
        rw [hs]
        exact Lexeme.lineFeed_not_mem_read hb stands
      have inside := (skip_fresh within).trans here
      have line := skip_line_eq within
      cases e : (Lexeme.read b rest).kind with
      | none =>
        simp only [lexeme, e]
        exact .stays here inside line (skip_last _ _)
      | some k =>
        have content := Lexeme.isContent_read e hb
        have other : (k == .newline) = false := by cases k <;> first | contradiction | rfl
        simp only [lexeme, e, other, Bool.false_and, Bool.false_eq_true, if_false]
        exact .adds here _ content rfl inside line rfl

theorem turn_step {b : Batch} (hs : s.step = some (t, b)) : Turn s t b.tokens := by
  obtain ⟨fresh, made⟩ | ⟨inside, c, rest, filled, made⟩ := step_cases hs
  · have turn := turn_startLine fresh
    rwa [made] at turn
  · have turn := turn_lexeme inside filled
    rwa [made] at turn

theorem Emits.append {u : Scanner} {ts us : List Token} (h : Emits s ts t) (h' : Emits t us u) :
    Emits s (ts ++ us) u := by
  induction h with
  | refl => exact h'
  | step first _ ih =>
    rw [List.append_assoc]
    exact .step first (ih h')

theorem Emits.one {b : Batch} (h : s.step = some (t, b)) : Emits s b.tokens t := by
  have both := Emits.step h (.refl t)
  rwa [List.append_nil] at both

theorem emits_end (s : Scanner) : ∃ ts t, Emits s ts t ∧ t.rest = [] ∧
    s.run.1.flatMap (·.tokens) = ts ++ t.finish := by
  cases hs : s.step with
  | none =>
    exact ⟨[], s, .refl s, step_eq_none.1 hs, by simp [TokenStream.run_of_none hs]⟩
  | some p =>
    obtain ⟨t, b⟩ := p
    have _ := distance_step hs
    obtain ⟨ts, u, more, done, made⟩ := emits_end t
    refine ⟨b.tokens ++ ts, u, .step hs more, done, ?_⟩
    rw [TokenStream.run_of_some hs, List.flatMap_cons, made, List.append_assoc]
termination_by s.distance

structure Behind (s : Scanner) (a : Token) : Prop where
  content : a.kind.isContent = true
  inside : s.fresh = false
  last : s.last = a.kind
  line : s.line = a.location.line

theorem emits_behind {ts ps qs : List Token} {a : Token} (h : Emits s ts t)
    (split : ts = ps ++ a :: qs) (content : a.kind.isContent = true) :
    ∃ u, Emits s (ps ++ [a]) u ∧ Emits u qs t ∧ u.Behind a := by
  induction h generalizing ps with
  | refl => simp at split
  | @step s t u b ts first more ih =>
    have later : ∀ rest, ps = b.tokens ++ rest → ts = rest ++ a :: qs →
        ∃ w, Emits s (ps ++ [a]) w ∧ Emits w qs u ∧ w.Behind a := by
      rintro rest rfl next
      obtain ⟨w, before, after, behind⟩ := ih next
      refine ⟨w, ?_, after, behind⟩
      rw [List.append_assoc]
      exact .step first before
    -- A step that makes no token of a line makes those before `a`.
    have other : (∀ x ∈ b.tokens, x.kind.isContent = false) →
        ∃ w, Emits s (ps ++ [a]) w ∧ Emits w qs u ∧ w.Behind a := by
      intro none
      have out : a ∉ b.tokens := by
        intro there
        have clash := none a there
        rw [content] at clash
        cases clash
      obtain ⟨rest, here, next⟩ := split_right split out
      exact later rest here next
    have turn := turn_step first
    generalize made : b.tokens = bs at turn
    cases turn with
    | passes here last | stays here inside line last | breaks here beyond last =>
      exact other (by simp [made])
    | opens here x kind inside last | ends here x kind last =>
      refine other fun y hy => ?_
      rw [made, List.mem_singleton] at hy
      rw [hy, kind]
      rfl
    | closes here ds some all inside last =>
      refine other fun y hy => ?_
      rw [all y (made ▸ hy)]
      rfl
    | adds here x content' at_ inside line last =>
      rw [made] at split
      cases ps with
      | nil =>
        obtain ⟨rfl, rfl⟩ := List.cons.inj split
        exact ⟨t, made ▸ .one first, more, content, inside, last, line.trans at_.symm⟩
      | cons p ps =>
        obtain ⟨rfl, next⟩ := List.cons.inj split
        exact later ps (by rw [made]; rfl) next

/-- The tokens behind a token of a line: more of the line, and then its end, unless the scanner
leaves the line without one. -/
theorem emits_line {ts : List Token} {a : Token} (h : Emits s ts t) (done : t.rest = [])
    (behind : s.Behind a) :
    ∃ cs zs, ts ++ t.finish = cs ++ zs ∧
      (∀ c ∈ cs, c.kind.isContent = true ∧ c.location.line = a.location.line) ∧
      ((∃ n more, zs = n :: more ∧ n.kind = .newline) ∨ ∃ u, Emits s cs u ∧ u.LeavesOpen) := by
  induction h generalizing a with
  | refl s =>
    refine ⟨[], s.finish, rfl, by simp, .inl ?_⟩
    obtain ⟨content, inside, last, line⟩ := behind
    have other : ∀ k : Kind, k.isContent = false → s.last ≠ k := fun k hk =>
      last ▸ Place.ne_of_content content hk
    have going : (s.last == .newline || s.last == .dedent || s.last == .indent) = false := by
      simp [other .newline rfl, other .dedent rfl, other .indent rfl]
    unfold finish
    rw [going]
    exact ⟨_, _, rfl, rfl⟩
  | @step s t u b ts first more ih =>
    obtain ⟨content, inside, last, line⟩ := behind
    have turn := turn_step first
    generalize made : b.tokens = bs at turn
    cases turn with
    | passes here | opens here | closes here =>
      rw [inside] at here
      cases here
    | stays here inside' line' last' =>
      obtain ⟨cs, zs, whole, all, next⟩ :=
        ih done ⟨content, inside', last'.trans last, line'.trans line⟩
      refine ⟨cs, zs, whole, all, next.imp_right fun ⟨w, there, opened⟩ => ⟨w, ?_, opened⟩⟩
      have from_ := Emits.step first there
      rwa [made] at from_
    | adds here x content' at_ inside' line' last' =>
      obtain ⟨cs, zs, whole, all, next⟩ :=
        ih done ⟨content', inside', last', line'.trans at_.symm⟩
      have same : x.location.line = a.location.line := at_.trans line
      refine ⟨x :: cs, zs, congrArg (x :: ·) whole, ?_, ?_⟩
      · refine List.forall_mem_cons.2 ⟨⟨content', same⟩, fun c hc => ?_⟩
        exact ⟨(all c hc).1, (all c hc).2.trans same⟩
      · refine next.imp_right fun ⟨w, there, opened⟩ => ⟨w, ?_, opened⟩
        have from_ := Emits.step first there
        rwa [made] at from_
    | ends here x kind last' => exact ⟨[], _, rfl, by simp, .inl ⟨x, _, rfl, kind⟩⟩
    | breaks here beyond last' =>
      refine ⟨[], _, rfl, by simp, .inr ⟨s, .refl s, beyond.resolve_left ?_⟩⟩
      rw [last]
      exact Place.ne_of_content content rfl

/-- What is known of the last token wherever the scanner stands: a line starts behind the end of
another one, and so does a line that closes blocks. -/
structure Follows (o : Scanner) (ts : List Token) (s : Scanner) : Prop where
  last : s.last = lastKind ts
  fresh : s.fresh = true → lastKind ts = .newline ∨ ∃ u, Emits o ts u ∧ u.LeavesOpen
  closed : lastKind ts = .dedent → ∃ us ds, ts = us ++ ds ∧ (∀ d ∈ ds, d.kind = .dedent) ∧
    (lastKind us = .newline ∨ ∃ u, Emits o us u ∧ u.LeavesOpen)

theorem follows_turn {o : Scanner} {ts made : List Token} (h : Follows o ts s)
    (reached : Emits o ts s) (turn : Turn s t made) : Follows o (ts ++ made) t := by
  cases turn with
  | passes here last =>
    rw [List.append_nil]
    exact ⟨last.trans h.last, fun _ => h.fresh here, h.closed⟩
  | opens here x kind inside last =>
    refine ⟨?_, fun fresh => ?_, fun closed => ?_⟩
    · rw [last, lastKind_concat, kind]
    · rw [inside] at fresh
      cases fresh
    · rw [lastKind_concat, kind] at closed
      cases closed
  | closes here _ some all inside last =>
    refine ⟨?_, fun fresh => ?_, fun _ => ⟨ts, made, rfl, all, h.fresh here⟩⟩
    · rw [last, lastKind_append ts some all]
    · rw [inside] at fresh
      cases fresh
  | stays here inside line last =>
    rw [List.append_nil]
    refine ⟨last.trans h.last, fun fresh => ?_, h.closed⟩
    rw [inside] at fresh
    cases fresh
  | adds here x content at_ inside line last =>
    refine ⟨?_, fun fresh => ?_, fun closed => ?_⟩
    · rw [last, lastKind_concat]
    · rw [inside] at fresh
      cases fresh
    · rw [lastKind_concat] at closed
      exact absurd closed (Place.ne_of_content content rfl)
  | ends here x kind last =>
    refine ⟨?_, fun _ => .inl ?_, fun closed => ?_⟩
    · rw [last, lastKind_concat, kind]
    · rw [lastKind_concat, kind]
    · rw [lastKind_concat, kind] at closed
      cases closed
  | breaks here beyond last =>
    rw [List.append_nil]
    exact ⟨last.trans h.last, fun _ => beyond.imp (h.last.symm.trans ·) fun opened =>
      ⟨s, reached, opened⟩, h.closed⟩

theorem follows_emits {o : Scanner} {ps ts : List Token} (h : Follows o ps s)
    (reached : Emits o ps s) (more : Emits s ts t) : Follows o (ps ++ ts) t := by
  induction more generalizing ps with
  | refl =>
    rw [List.append_nil]
    exact h
  | step first _ ih =>
    rw [← List.append_assoc]
    exact ih (follows_turn h reached (turn_step first)) (reached.append (.one first))

theorem follows_finish {o : Scanner} {ts : List Token} (h : Follows o ts s)
    (reached : Emits o ts s) (done : s.rest = []) :
    ∃ us ds e, ts ++ s.finish = us ++ (ds ++ [e]) ∧ (∀ d ∈ ds, d.kind = .dedent) ∧
      e.kind = .endOfFile ∧ (lastKind us = .newline ∨ ∃ u, Emits o us u ∧ u.LeavesOpen) := by
  have dedents : ∀ d ∈ List.replicate (s.levels.length - 1) (s.token s.location .dedent),
      d.kind = .dedent := by
    intro d hd
    rw [(List.mem_replicate.1 hd).2]
    rfl
  have eof : (s.token s.location .endOfFile).kind = .endOfFile := rfl
  simp only [finish]
  generalize List.replicate (s.levels.length - 1) (s.token s.location .dedent) = ds at *
  generalize s.token s.location .endOfFile = e at *
  split
  · next stop =>
    rw [List.nil_append]
    by_cases newline : s.last = .newline
    · exact ⟨ts, ds, e, rfl, dedents, eof, .inl (h.last ▸ newline)⟩
    · by_cases dedent : s.last = .dedent
      · obtain ⟨us, cs, rfl, all, before⟩ := h.closed (h.last ▸ dedent)
        refine ⟨us, cs ++ ds, e, ?_, List.forall_mem_append.2 ⟨all, dedents⟩, eof, before⟩
        simp only [List.append_assoc]
      · have indent : s.last = .indent := by simpa [newline, dedent] using stop
        refine ⟨ts, ds, e, rfl, dedents, eof, .inr ?_⟩
        cases inside : s.fresh with
        | false => exact ⟨s, reached, .block inside indent done⟩
        | true => exact (h.fresh inside).resolve_left (h.last ▸ newline)
  · refine ⟨ts ++ [s.token s.location .newline], ds, e, ?_, dedents, eof, .inl ?_⟩
    · simp only [List.append_assoc]
    · rw [lastKind_concat]
      rfl

theorem content_finish (s : Scanner) : ∀ x ∈ s.finish, x.kind.isContent = false := by
  intro x hx
  have all : ∀ k, x = s.token s.location k → k.isContent = false → x.kind.isContent = false := by
    rintro k rfl none
    exact none
  unfold finish at hx
  rcases List.mem_append.1 hx with hx | hx
  · rcases List.mem_append.1 hx with hx | hx
    · split at hx
      · cases hx
      · exact all .newline (List.mem_singleton.1 hx) rfl
    · exact all .dedent (List.mem_replicate.1 hx).2 rfl
  · exact all .endOfFile (List.mem_singleton.1 hx) rfl

theorem rest_of_line {o : Scanner} {ts ps qs : List Token} {a : Token} (h : Emits o ts t)
    (done : t.rest = []) (split : ts ++ t.finish = ps ++ a :: qs)
    (content : a.kind.isContent = true) :
    ∃ cs zs, qs = cs ++ zs ∧
      (∀ c ∈ cs, c.kind.isContent = true ∧ c.location.line = a.location.line) ∧
      ((∃ n more, zs = n :: more ∧ n.kind = .newline) ∨
        ∃ s, Emits o (ps ++ a :: cs) s ∧ s.LeavesOpen) := by
  have made : a ∉ t.finish := by
    intro there
    have none := content_finish t a there
    rw [content] at none
    cases none
  obtain ⟨us, here, rfl⟩ := split_left split made
  obtain ⟨u, before, after, behind⟩ := emits_behind h here content
  obtain ⟨cs, zs, whole, all, next⟩ := emits_line after done behind
  refine ⟨cs, zs, whole, all, next.imp_right fun ⟨s, there, opened⟩ => ⟨s, ?_, opened⟩⟩
  have both := before.append there
  rwa [List.append_assoc] at both

end Scanner

theorem WellNested.nil_of_dedents {ds ts : List Token} (h : WellNested (ds ++ ts))
    (all : ∀ d ∈ ds, d.kind = .dedent) : ds = [] := by
  have count := h.opened ds (List.prefix_append ds ts)
  have closing : dedents ds = ds.length := List.countP_eq_length.2 (by simpa using all)
  have opening : indents ds = 0 := List.countP_eq_zero.2 fun d hd => by simp [all d hd]
  exact List.length_eq_zero_iff.1 (by omega)

namespace TokenStream
open Scanner

/-- In the tokens of any text there is an end of line between two words or signs on different lines,
no block opens or closes and no file ends behind a word or a sign, and the file ends with an end of
line and the ends of the open blocks, but for the places where the scanner leaves a line without an
end. -/
theorem ofSource_linesEnd (file : Nat) (source : Bytes) :
    LinesEnd (fun ts => ∃ s, Emits (start file source) ts s ∧ s.LeavesOpen)
      ((ofSource file source).tokens.map (·.token)) := by
  obtain ⟨ts, t, reached, done, run⟩ := emits_end (start file source)
  have made : (ofSource file source).tokens.map (·.token) = ts ++ t.finish :=
    (token_spread _ _).trans run
  have follows : Follows (start file source) ts t :=
    follows_emits ⟨rfl, fun _ => .inl rfl, fun h => by cases h⟩ (.refl _) reached
  rw [made]
  refine ⟨?_, ?_, ?_⟩
  · intro ps a ms c qs split ha hc apart
    obtain ⟨cs, zs, rest, all, next⟩ := rest_of_line reached done split ha
    rcases List.append_eq_append_iff.1 rest with ⟨us, rfl, tail⟩ | ⟨us, rfl, tail⟩
    · cases us with
      | nil =>
        rcases next with ⟨n, more, rfl, newline⟩ | gap
        · obtain ⟨rfl, -⟩ := List.cons.inj tail
          exact absurd newline (Place.ne_of_content hc rfl)
        · exact .inr ⟨ms, List.prefix_rfl, by simpa using gap⟩
      | cons x us =>
        obtain ⟨rfl, -⟩ := List.cons.inj tail
        exact absurd (all c (by simp)).2.symm apart
    · rcases next with ⟨n, more, rfl, newline⟩ | gap
      · cases us with
        | nil =>
          obtain ⟨rfl, -⟩ := List.cons.inj tail
          exact absurd newline (Place.ne_of_content hc rfl)
        | cons x us =>
          obtain ⟨rfl, -⟩ := List.cons.inj tail
          exact .inl ⟨n, by simp, newline⟩
      · exact .inr ⟨cs, List.prefix_append cs us, gap⟩
  · intro ps a b qs split ha
    obtain ⟨cs, zs, rest, all, next⟩ := rest_of_line reached done split ha
    cases cs with
    | nil =>
      rcases next with ⟨n, more, rfl, newline⟩ | gap
      · obtain ⟨rfl, -⟩ := List.cons.inj rest
        exact .inr (.inl newline)
      · exact .inr (.inr gap)
    | cons c cs =>
      obtain ⟨rfl, -⟩ := List.cons.inj rest
      exact .inl (all b List.mem_cons_self).1
  · obtain ⟨us, ds, e, whole, all, eof, before⟩ := follows_finish follows reached done
    rcases before with newline | gap
    · cases us with
      | nil =>
        refine .inl ⟨e, ?_, eof⟩
        obtain ⟨-, -, nested, -⟩ := ofSource_wellNested file source
        rw [List.nil_append] at whole
        rw [made, whole] at nested
        obtain rfl := nested.nil_of_dedents all
        exact whole
      | cons u us => exact .inr ⟨u :: us, ds, e, whole, all, eof, .inl ⟨by simp, newline⟩⟩
    · exact .inr ⟨us, ds, e, whole, all, eof, .inr gap⟩

/-- A comment that stands behind a statement joins its line to a later one, and a block that opens
on the last line is not preceded by an end of that line. -/
theorem not_linesEnd :
    ¬ LinesEnd (fun _ => False)
        ((ofSource 0 "display 1 note block:\nend note\ndisplay 2\n").tokens.map (·.token)) ∧
      ¬ LinesEnd (fun _ => False) ((ofSource 0 "display 1\n    $").tokens.map (·.token)) := by
  constructor
  · generalize made : (ofSource 0 "display 1 note block:\nend note\ndisplay 2\n").tokens.map
      (·.token) = ts
    intro h
    have facts : ts = ts.take 1 ++ ts[1]! :: ([] ++ ts[2]! :: ts.drop 3) ∧
        ts[1]!.kind.isContent = true ∧ ts[2]!.kind.isContent = true ∧
        ts[1]!.location.line ≠ ts[2]!.location.line := by
      rw [← made]
      decide +kernel
    obtain ⟨split, one, two, apart⟩ := facts
    rcases h.apart _ _ _ _ _ split one two apart with ⟨m, none, -⟩ | ⟨cs, -, none⟩
    · cases none
    · exact none
  · generalize made : (ofSource 0 "display 1\n    $").tokens.map (·.token) = ts
    intro h
    have kinds : ts.map (·.kind) =
        [.display, .numeral, .newline, .indent, .dedent, .endOfFile] := by
      rw [← made]
      decide +kernel
    have long : 1 < ts.length := by
      have count := congrArg List.length kinds
      rw [List.length_map] at count
      rw [count]
      decide
    have before := h.before_dedents long
    rw [kinds] at before
    cases before

end TokenStream

end StepsLang
