import Mathlib.Data.Prod.Lex
import StepsLang.Proofs.Text.Lines
import StepsLang.Proofs.Token.Step

namespace StepsLang

open Bytes

namespace Lexeme

variable {b : UInt8} {u v rest : Bytes} {k : Kind}

theorem quotedRest_taken (read : Nat) (content : Bytes) (flaws : List (Nat × Flaw)) (u : Bytes) :
    (0, Flaw.unclosed) ∈ (quotedRest read content flaws u).flaws ∨
      ∃ w v, u = w ++ Byte.quote :: v ∧
        (quotedRest read content flaws u).length = read + w.length + 1 := by
  fun_induction quotedRest read content flaws u with
  | case1 | case2 | case4 | case5 => exact .inl (by simp)
  | case3 read content flaws b rest _ quote =>
    exact .inr ⟨[], rest, by simp [eq_of_beq quote], rfl⟩
  | case6 read content flaws b _ _ _ e more _ c _ ih
  | case7 read content flaws b _ _ _ e more _ _ ih =>
    obtain unclosed | ⟨w, v, whole, length⟩ := ih
    · exact .inl unclosed
    · refine .inr ⟨b :: e :: w, v, by rw [whole]; rfl, ?_⟩
      rw [length, List.length_cons, List.length_cons]
      omega
  | case8 read content flaws b rest _ _ _ ih =>
    obtain unclosed | ⟨w, v, whole, length⟩ := ih
    · exact .inl unclosed
    · refine .inr ⟨b :: w, v, by rw [whole]; rfl, ?_⟩
      rw [length, List.length_cons]
      omega

theorem quoted_return (u : Bytes) :
    (0, Flaw.unclosed) ∈ (quoted (u ++ [Byte.carriageReturn])).flaws ∨
      (quoted (u ++ [Byte.carriageReturn])).length ≤ u.length + 1 := by
  obtain unclosed | ⟨w, v, whole, length⟩ := quotedRest_taken 1 [] [] (u ++ [Byte.carriageReturn])
  · exact .inl unclosed
  · right
    have lengths := congrArg List.length whole
    simp only [List.length_append, List.length_cons, List.length_nil] at lengths
    cases v with
    | nil => exact absurd (List.cons.inj (List.append_inj' whole rfl).2).1 (by decide)
    | cons b v =>
      rw [List.length_cons] at lengths
      show (quotedRest 1 [] [] _).length ≤ _
      omega

theorem kind_continuation (h : Byte.isContinuation b = true) (rest : Bytes) :
    (read b rest).kind = none := by
  obtain ⟨lineFeed, quote, symbol, digit, name⟩ : (b == Byte.lineFeed) = false ∧
      (b == Byte.quote) = false ∧ symbol? b = none ∧ Byte.isDigit b = false ∧
        Byte.startsName b = false := by
    induction b using Byte.cases with
    | ofNat n =>
      revert n
      decide +kernel
  simp only [read, lineFeed, quote, symbol, digit, name, Bool.false_eq_true, if_false]
  split
  · rfl
  · split <;> rfl

theorem not_comment (made : (read b rest).kind = some k) :
    Word.standsAt Word.blockCommentStart (b :: rest) = false := by
  cases comment : Word.standsAt Word.blockCommentStart (b :: rest) with
  | true =>
    rw [read_comment comment] at made
    cases made
  | false => rfl

theorem length_read_line (line : Byte.lineFeed ∉ u) (ends : LineEnd v)
    (made : (read b (u ++ v)).kind = some k) : (read b (u ++ v)).length ≤ u.length + 1 :=
  length_read_before line ends (not_comment made)

theorem read_return (line : Byte.lineFeed ∉ u)
    (made : (read b (u ++ Byte.carriageReturn :: Byte.lineFeed :: v)).kind = some k) :
    let x := read b (u ++ Byte.carriageReturn :: Byte.lineFeed :: v)
    x.length ≤ u.length + 1 ∨
      x.length = u.length + 2 ∧ (k = .note ∨ k = .quoted ∧ (0, Flaw.unclosed) ∈ x.flaws) := by
  intro x
  have shape : u ++ Byte.carriageReturn :: Byte.lineFeed :: v =
      u ++ [Byte.carriageReturn] ++ Byte.lineFeed :: v := by simp
  have short : x.length ≤ u.length + 2 := by
    have within := length_read_line (line_return line) (lineEnd_cons v) (shape ▸ made)
    rw [← shape, List.length_append] at within
    exact within
  by_cases inside : x.length ≤ u.length + 1
  · exact .inl inside
  refine .inr ⟨by omega, ?_⟩
  have stop : LineStop (Byte.carriageReturn :: Byte.lineFeed :: v) :=
    fun _ hb => .inr (Option.some.inj hb).symm
  have comment : Word.standsAt Word.blockCommentStart (b :: u) = false := by
    rw [← Word.standsAt_stops (by decide) (by decide) stop]
    exact not_comment made
  by_cases quote : b = Byte.quote
  · subst quote
    have quoted : x = Lexeme.quoted (u ++ [Byte.carriageReturn]) := by
      show Lexeme.quoted (u ++ Byte.carriageReturn :: Byte.lineFeed :: v) = _
      simp only [Lexeme.quoted, shape,
        quotedRest_ends 1 [] [] (line_return line) (lineEnd_cons v)]
    rw [quoted] at inside ⊢
    exact .inr ⟨(Option.some.inj made).symm, (quoted_return u).resolve_right inside⟩
  · obtain same | ⟨n, r, -, -, -, longer⟩ := read_stops b stop comment (absurd · quote)
    · have short := length_read_le b u comment
      rw [← same] at short
      exact absurd short inside
    · rw [longer] at made
      exact .inl (Option.some.inj made).symm

theorem read_shown {c : UInt8} (line : c ≠ Byte.lineFeed) (made : (read c rest).kind = some k) :
    ∃ u v, rest = u ++ v ∧ Byte.lineFeed ∉ c :: u ∧ LineEnd v ∧
      ((c :: rest).take (read c rest).length <+: (if v = [] then c :: u else dropReturn (c :: u)) ∨
        v ≠ [] ∧ (c :: rest).take (read c rest).length =
          dropReturn (c :: u) ++ [Byte.carriageReturn] ∧
        (c :: rest).drop (read c rest).length = v ∧
        (k = .note ∨ k = .quoted ∧ (0, Flaw.unclosed) ∈ (read c rest).flaws)) := by
  obtain ⟨u, v, rfl, plain, ends⟩ := exists_line rest
  have within : Byte.lineFeed ∉ c :: u := by
    rw [List.mem_cons, not_or]
    exact ⟨line.symm, plain⟩
  refine ⟨u, v, rfl, within, ends, ?_⟩
  have short := length_read_line plain ends made
  rw [← List.cons_append, List.take_append_of_le_length short]
  cases v with
  | nil => exact .inl (List.take_prefix _ _)
  | cons b more =>
    obtain rfl := ends b rfl
    rw [if_neg (List.cons_ne_nil _ _)]
    obtain same | return_ := dropReturn_cases (c :: u)
    · exact .inl (by rw [same]; exact List.take_prefix _ _)
    · obtain ⟨d, w, shown⟩ : ∃ d w, dropReturn (c :: u) = d :: w := by
        refine List.exists_cons_of_ne_nil fun none => ?_
        rw [none] at return_
        obtain rfl := (List.cons.inj return_).1
        cases made
      rw [shown, List.cons_append] at return_
      obtain ⟨rfl, rfl⟩ := List.cons.inj return_
      have shape : w ++ [Byte.carriageReturn] ++ Byte.lineFeed :: more =
          w ++ Byte.carriageReturn :: Byte.lineFeed :: more := by simp
      have taken := read_return (fun there => plain (List.mem_append_left _ there)) (shape ▸ made)
      rw [← shape, ← List.length_cons (a := c)] at taken
      rw [shown]
      obtain inside | ⟨whole, flawed⟩ := taken
      · left
        rw [← List.cons_append, List.take_append_of_le_length inside]
        exact List.take_prefix _ _
      · have count : w.length + 2 = (c :: (w ++ [Byte.carriageReturn])).length := by simp
        rw [whole, count, List.take_length, List.drop_left]
        exact .inr ⟨List.cons_ne_nil _ _, rfl, rfl, flawed⟩

end Lexeme

structure Token.Spelled (t : Token) (before spelling after : Bytes) : Prop where
  read : ∃ b more flaws, spelling = b :: more ∧ Lexeme.read b (more ++ after) =
    { length := spelling.length, kind := some t.kind, text := t.text, value := t.value, flaws }
  line : t.location.line = 1 + before.count Byte.lineFeed
  column : t.location.column = 1 + Utf8.length before.lastLine
  endLine : t.location.endLine = t.location.line
  endColumn : t.location.endColumn = t.location.column + Utf8.length spelling

namespace Location

def opens (l : Location) : ℕ ×ₗ ℕ := toLex (l.line, l.column)

def closes (l : Location) : ℕ ×ₗ ℕ := toLex (l.endLine, l.endColumn)

end Location

namespace Scanner

variable {s t : Scanner} {b : Batch} {c : UInt8} {rest p : Bytes} {x : Token}

structure Placed (s : Scanner) (p : Bytes) : Prop where
  line : s.line = 1 + p.count Byte.lineFeed
  column : s.column = 1 + Utf8.length p.lastLine

theorem Placed.of_point (h : s.Placed p) (same : t.point = s.point) : t.Placed p :=
  ⟨(congrArg (·.2.2.1) same).trans h.line, (congrArg (·.2.2.2) same).trans h.column⟩

theorem Placed.pass (h : s.Placed p) (c : UInt8) (rest : Bytes) :
    (s.pass c rest).Placed (p ++ [c]) := by
  by_cases hc : c = Byte.lineFeed
  · subst hc
    exact ⟨by simp [Scanner.pass, h.line, Nat.add_assoc], by simp [Scanner.pass, Utf8.length]⟩
  · have line : (p ++ [c]).count Byte.lineFeed = p.count Byte.lineFeed := by simp [hc]
    have other : (c == Byte.lineFeed) = false := beq_false_of_ne hc
    refine ⟨?_, ?_⟩
    · rw [line, ← h.line]
      unfold Scanner.pass
      rw [other]
      split
      · contradiction
      · split <;> rfl
    · rw [lastLine_concat hc, Utf8.length_append, ← Nat.add_assoc, ← h.column]
      unfold Scanner.pass
      rw [other]
      cases e : Byte.isContinuation c <;> simp [Utf8.length, e]

theorem Placed.skip (h : s.Placed p) (n : Nat) : (s.skip n).Placed (p ++ s.rest.take n) := by
  induction n generalizing s p with
  | zero => simpa [Scanner.skip] using h
  | succ n ih =>
    cases e : s.rest with
    | nil =>
      rw [skip_nil e]
      simpa using h
    | cons c rest =>
      have later := ih (h.pass c rest)
      rw [pass_rest] at later
      simpa [Scanner.skip, e] using later

theorem placed_step (h : s.Placed p) (hs : s.step = some (t, b)) :
    ∃ q, p ++ s.rest = q ++ t.rest ∧ t.Placed q := by
  obtain ⟨n, point⟩ := passes_step hs
  have rest : t.rest = s.rest.drop n := (congrArg Prod.fst point).trans (skip_rest n s)
  refine ⟨p ++ s.rest.take n, ?_, (h.skip n).of_point point⟩
  rw [rest, List.append_assoc, List.take_append_drop]

def stand (s : Scanner) : ℕ ×ₗ ℕ := toLex (s.line, s.column)

/-- Where the tokens that are still to come begin at the earliest. What a scanner finds at the start
of a line counts from the first column, also behind a block comment that ends on that line. -/
def bound (s : Scanner) : ℕ ×ₗ ℕ := toLex (s.line, if s.fresh then 1 else s.column)

theorem Placed.bound_le_stand (h : s.Placed p) : s.bound ≤ s.stand := by
  refine Prod.Lex.toLex_le_toLex.2 (.inr ⟨rfl, ?_⟩)
  dsimp only
  split
  · rw [h.column]
    exact Nat.le_add_right 1 _
  · exact Nat.le_refl _

theorem stand_eq_bound (inside : s.fresh = false) : s.stand = s.bound := by
  rw [bound, inside]
  rfl

theorem stand_pass (s : Scanner) (c : UInt8) (rest : Bytes) :
    s.stand ≤ (s.pass c rest).stand ∧ s.bound ≤ (s.pass c rest).bound := by
  unfold pass
  split
  · exact ⟨Prod.Lex.toLex_le_toLex.2 (.inl (Nat.lt_succ_self _)),
      Prod.Lex.toLex_le_toLex.2 (.inl (Nat.lt_succ_self _))⟩
  · split
    · exact ⟨le_refl _, le_refl _⟩
    · refine ⟨Prod.Lex.toLex_le_toLex.2 (.inr ⟨rfl, Nat.le_succ _⟩),
        Prod.Lex.toLex_le_toLex.2 (.inr ⟨rfl, ?_⟩)⟩
      dsimp only
      split
      · exact Nat.le_refl 1
      · exact Nat.le_succ _

theorem stand_skip (n : Nat) (s : Scanner) :
    s.stand ≤ (s.skip n).stand ∧ s.bound ≤ (s.skip n).bound := by
  induction n generalizing s with
  | zero => exact ⟨le_refl _, le_refl _⟩
  | succ n ih =>
    cases e : s.rest with
    | nil =>
      rw [skip_nil e]
      exact ⟨le_refl _, le_refl _⟩
    | cons c rest =>
      have first := stand_pass s c rest
      have later := ih (s.pass c rest)
      simp only [skip, e]
      exact ⟨first.1.trans later.1, first.2.trans later.2⟩

theorem bound_relevel (s : Scanner) (here : Location) (found : Nat) :
    (s.relevel here found).1.bound = s.bound := by
  obtain ⟨levels, last, kept⟩ := relevel_kept s here found
  rw [kept]
  rfl

theorem tokens_relevel {here : Location} {found : Nat}
    (hx : x ∈ (s.relevel here found).2.tokens) : ∃ k, k.isContent = false ∧ x = s.token here k := by
  unfold relevel at hx
  split at hx
  · unfold openLevel at hx
    dsimp only at hx
    split at hx
    · exact ⟨.indent, rfl, List.mem_singleton.1 hx⟩
    · cases hx
  · exact ⟨.dedent, rfl, (List.mem_replicate.1 hx).2⟩

theorem tokens_startLine (hx : x ∈ s.startLine.2.tokens) :
    ∃ k, k.isContent = false ∧ x = s.indented.token { s.location with column := 1 } k := by
  obtain ⟨n, made⟩ | made := startLine_cases s
  · rw [made] at hx
    cases hx
  · rw [made] at hx
    exact tokens_relevel hx

theorem tokens_lexeme (hx : x ∈ (s.lexeme c rest).2.tokens) :
    ∃ k, (Lexeme.read c rest).kind = some k ∧ (s.lexeme c rest).2.tokens = [x] ∧
      x = { (s.skip (Lexeme.read c rest).length).token s.location k (Lexeme.read c rest).text with
        value := (Lexeme.read c rest).value } := by
  unfold lexeme at hx ⊢
  dsimp only at hx ⊢
  split at hx
  · cases hx
  · next k kind =>
    split at hx
    · cases hx
    · next some =>
      obtain rfl := List.mem_singleton.1 hx
      exact ⟨k, kind, if_neg some ▸ rfl, rfl⟩

def Between (lower upper : ℕ ×ₗ ℕ) (ts : List Token) : Prop :=
  lower ≤ upper ∧ ∀ x ∈ ts, x.location.opens = lower ∧ lower ≤ x.location.closes

theorem between_startLine (h : s.Placed p) (fresh : s.fresh = true) :
    Between s.bound s.startLine.1.bound s.startLine.2.tokens := by
  have begun : s.bound ≤ s.indented.bound := by
    have clear : s.bound ≤ ({ s with fresh := false } : Scanner).bound := h.bound_le_stand
    exact clear.trans (stand_skip _ _).2
  refine ⟨begun.trans ?_, fun x hx => ?_⟩
  · obtain ⟨n, made⟩ | made := startLine_cases s
    · rw [made]
      exact (stand_skip n _).2
    · rw [made]
      exact (bound_relevel _ _ _).ge
  · obtain ⟨k, -, rfl⟩ := tokens_startLine hx
    rw [← stand_eq_bound s.indented_fresh] at begun
    refine ⟨?_, begun⟩
    rw [bound, fresh]
    rfl

theorem between_lexeme (inside : s.fresh = false) (c : UInt8) (rest : Bytes) :
    Between s.bound (s.lexeme c rest).1.bound (s.lexeme c rest).2.tokens := by
  obtain ⟨stand, bound⟩ := stand_skip (Lexeme.read c rest).length s
  refine ⟨?_, fun x hx => ?_⟩
  · obtain ⟨last, kept⟩ := lexeme_kept s c rest
    rw [kept]
    exact bound
  · obtain ⟨k, -, -, rfl⟩ := tokens_lexeme hx
    rw [← stand_eq_bound inside]
    exact ⟨rfl, stand⟩

theorem between_step (h : s.Placed p) (hs : s.step = some (t, b)) :
    Between s.bound t.bound b.tokens := by
  obtain ⟨fresh, made⟩ | ⟨inside, c, rest, -, made⟩ := step_cases hs
  · have start := between_startLine h fresh
    rwa [made] at start
  · have within := between_lexeme inside c rest
    rwa [made] at within

theorem tokens_finish (hx : x ∈ s.finish) :
    ∃ k, k.isContent = false ∧ x = s.token s.location k := by
  unfold finish at hx
  simp only [List.mem_append, List.mem_singleton, List.mem_replicate] at hx
  obtain (end_ | ⟨-, dedent⟩) | eof := hx
  · split at end_
    · cases end_
    · exact ⟨.newline, rfl, List.mem_singleton.1 end_⟩
  · exact ⟨.dedent, rfl, dedent⟩
  · exact ⟨.endOfFile, rfl, eof⟩

theorem ordered_run (s : Scanner) {p : Bytes} (h : s.Placed p) :
    (∀ x ∈ s.run.1.flatMap (·.tokens),
      s.bound ≤ x.location.opens ∧ x.location.opens ≤ x.location.closes) ∧
    (s.run.1.flatMap (·.tokens)).Pairwise (fun x y => x.location.opens ≤ y.location.opens) := by
  cases hs : s.step with
  | none =>
    have made : s.run.1.flatMap (·.tokens) = s.finish := by simp [TokenStream.run_of_none hs]
    rw [made]
    refine ⟨fun x hx => ?_, List.pairwise_of_forall_mem_list fun x hx y hy => ?_⟩
    · obtain ⟨k, -, rfl⟩ := tokens_finish hx
      exact ⟨h.bound_le_stand, le_refl _⟩
    · obtain ⟨k, -, rfl⟩ := tokens_finish hx
      obtain ⟨l, -, rfl⟩ := tokens_finish hy
      exact le_refl _
  | some next =>
    obtain ⟨t, b⟩ := next
    have _ := distance_step hs
    obtain ⟨before, here⟩ := between_step h hs
    obtain ⟨q, -, placed⟩ := placed_step h hs
    obtain ⟨later, sorted⟩ := ordered_run t placed
    rw [TokenStream.run_of_some hs, List.flatMap_cons, List.pairwise_append]
    refine ⟨fun x hx => ?_, List.pairwise_of_forall_mem_list fun x hx y hy => ?_, sorted,
      fun x hx y hy => ?_⟩
    · rcases List.mem_append.1 hx with hx | hx
      · exact ⟨(here x hx).1.ge, (here x hx).1.trans_le (here x hx).2⟩
      · exact ⟨before.trans (later x hx).1, (later x hx).2⟩
    · exact ((here x hx).1.trans (here y hy).1.symm).le
    · exact (here x hx).1.trans_le (before.trans (later y hy).1)
termination_by s.distance

theorem content_step (hs : s.step = some (t, b)) (hx : x ∈ b.tokens)
    (content : x.kind.isContent = true) : ∃ c rest k, s.rest = c :: rest ∧ c ≠ Byte.lineFeed ∧
      (Lexeme.read c rest).kind = some k ∧ b.tokens = [x] ∧
      x = { (s.skip (Lexeme.read c rest).length).token s.location k (Lexeme.read c rest).text with
        value := (Lexeme.read c rest).value } ∧
      b.reports = (Lexeme.read c rest).flaws.map fun (n, flaw) =>
        flaw.report (s.skip n).location := by
  obtain ⟨-, made⟩ | ⟨-, c, rest, e, made⟩ := step_cases hs
  · rw [← show s.startLine.2 = b from congrArg Prod.snd made] at hx
    obtain ⟨k, other, rfl⟩ := tokens_startLine hx
    exact Bool.noConfusion (content.symm.trans other)
  · rw [← show (s.lexeme c rest).2 = b from congrArg Prod.snd made] at hx ⊢
    obtain ⟨k, kind, alone, same⟩ := tokens_lexeme hx
    refine ⟨c, rest, k, e, ?_, kind, alone, same, reports_lexeme s c rest⟩
    rintro rfl
    obtain rfl : Kind.newline = k := Option.some.inj kind
    rw [same] at content
    cases content

theorem file_step (hs : s.step = some (t, b)) : t.file = s.file := by
  obtain ⟨n, point⟩ := passes_step hs
  exact (congrArg (·.2.1) point).trans (skip_file n s)

theorem spelled_lexeme {k : Kind} (h : s.Placed p) (hs : s.rest = c :: rest)
    (line : c ≠ Byte.lineFeed) (kind : (Lexeme.read c rest).kind = some k) :
    Token.Spelled { (s.skip (Lexeme.read c rest).length).token s.location k
        (Lexeme.read c rest).text with value := (Lexeme.read c rest).value } p
      ((c :: rest).take (Lexeme.read c rest).length)
      ((c :: rest).drop (Lexeme.read c rest).length) := by
  have comment := Lexeme.not_comment kind
  have within := Lexeme.lineFeed_not_mem_read line comment
  have behind := h.skip (Lexeme.read c rest).length
  rw [hs] at behind
  have last : (s.skip (Lexeme.read c rest).length).line = s.line := by
    rw [behind.line, h.line, List.count_append, List.count_eq_zero_of_not_mem within, Nat.add_zero]
  refine ⟨?_, h.line, h.column, last, ?_⟩
  · obtain ⟨n, length⟩ := Nat.exists_eq_succ_of_ne_zero (Nat.ne_of_gt (Lexeme.length_read c rest))
    refine ⟨c, rest.take n, (Lexeme.read c rest).flaws, by rw [length, List.take_succ_cons], ?_⟩
    have whole : rest.take n ++ (c :: rest).drop (Lexeme.read c rest).length = rest := by
      rw [length, List.drop_succ_cons, List.take_append_drop]
    rw [whole, List.length_take_of_le (Lexeme.length_read_le c rest comment)]
    exact congrArg (fun k => { Lexeme.read c rest with kind := k }) kind
  · show (s.skip (Lexeme.read c rest).length).column = s.column + _
    rw [behind.column, h.column, lastLine_append within, Utf8.length_append, Nat.add_assoc]

end Scanner

/-- What is shown of the line of a token from where the token begins on goes on with what the token
takes, but for a carriage return at the end of the line, which a note takes, and a text that is
reported as not closed. -/
def Heard.Shown (h : Heard) (shown spelling after : Bytes) : Prop :=
  spelling <+: shown ∨ spelling = shown ++ [Byte.carriageReturn] ∧
    (∃ more, after = Byte.lineFeed :: more) ∧
    (h.token.kind = .note ∨ h.token.kind = .quoted ∧ ∃ r ∈ h.reports,
      r.code = Fault.unclosedText.code ∧
        r.location = { h.token.location with endLine := 0, endColumn := 0 })

def Heard.Located (sources : Sources) (file : Nat) (source : Bytes) (h : Heard) : Prop :=
  ∃ before spelling after, source = before ++ spelling ++ after ∧
    h.token.location.file = file ∧ h.token.Spelled before spelling after ∧
      h.Shown ((sources.attach file source).shownAt file h.token.location) spelling after

namespace Scanner

variable {s t : Scanner} {b : Batch} {p : Bytes} {x : Token}

theorem located_step (sources : Sources) (known : s.file ≠ 0) (h : s.Placed p)
    (hs : s.step = some (t, b)) (hx : x ∈ b.tokens) (content : x.kind.isContent = true)
    (rs : List Report) : Heard.Located sources s.file (p ++ s.rest) ⟨rs ++ b.reports, x⟩ := by
  obtain ⟨c, rest, k, e, line, kind, -, rfl, reports⟩ := content_step hs hx content
  have spelled := spelled_lexeme h e line kind
  refine ⟨p, _, _, ?_, rfl, spelled, ?_⟩
  · rw [e, List.append_assoc, List.take_append_drop]
  · obtain ⟨u, v, rfl, within, ends, taken⟩ := Lexeme.read_shown line kind
    have place := Sources.shownAt_attach sources known (Bool.eq_false_iff.2 fun continuation => ?_)
      within ends spelled.line spelled.column
    · rw [e, ← List.cons_append, place]
      obtain inside | ⟨filled, taken, behind, flawed⟩ := taken
      · exact .inl inside
      · rw [if_neg filled]
        refine .inr ⟨taken, ?_, flawed.imp_right fun ⟨quoted, unclosed⟩ => ⟨quoted, ?_⟩⟩
        · obtain ⟨d, more, rfl⟩ := List.exists_cons_of_ne_nil filled
          obtain rfl := ends d rfl
          exact ⟨more, behind⟩
        · refine ⟨Flaw.report (s.skip 0).location .unclosed, List.mem_append_right _ ?_, rfl, rfl⟩
          rw [reports]
          exact List.mem_map_of_mem unclosed
    · rw [Lexeme.kind_continuation continuation] at kind
      cases kind

theorem located_run (sources : Sources) (s : Scanner) {p : Bytes} (known : s.file ≠ 0)
    (h : s.Placed p) (rs : List Report) : ∀ x ∈ TokenStream.spread rs s.run.1,
      x.token.kind.isContent = true → x.Located sources s.file (p ++ s.rest) := by
  intro x hx content
  cases hs : s.step with
  | none =>
    have made := List.mem_map_of_mem (f := (·.token)) hx
    rw [TokenStream.token_spread, TokenStream.run_of_none hs, List.flatMap_singleton] at made
    obtain ⟨k, other, same⟩ := tokens_finish made
    rw [same] at content
    exact Bool.noConfusion (content.symm.trans other)
  | some next =>
    obtain ⟨t, b⟩ := next
    have _ := distance_step hs
    obtain ⟨q, source, placed⟩ := placed_step h hs
    have file := file_step hs
    have later : ∀ rs, x ∈ TokenStream.spread rs t.run.1 →
        x.Located sources s.file (p ++ s.rest) := by
      intro rs hx
      rw [source, ← file]
      exact located_run sources t (file ▸ known) placed rs x hx content
    rw [TokenStream.run_of_some hs, TokenStream.spread] at hx
    split at hx
    · exact later _ hx
    · next y ys made =>
      rcases List.mem_cons.1 hx with rfl | hx
      · exact located_step sources known h hs (made ▸ List.mem_cons_self) content rs
      · rcases List.mem_append.1 hx with hx | hx
        · obtain ⟨z, hz, rfl⟩ := List.mem_map.1 hx
          obtain ⟨c, rest, k, -, -, -, alone, -⟩ :=
            content_step hs (made ▸ List.mem_cons_of_mem y hz) content
          rw [made] at alone
          rw [(List.cons.inj alone).2] at hz
          cases hz
        · exact later _ hx
termination_by s.distance

end Scanner

namespace TokenStream

/-- Locations point at the tokens. -/
theorem ofSource_located (sources : Sources) {file : Nat} (known : file ≠ 0) {source : Bytes}
    (unmarked : source.startsWith byteOrderMark = false) :
    (∀ h ∈ (ofSource file source).tokens, h.token.kind.isContent = true →
      h.Located sources file source) ∧
    (ofSource file source).tokens.Pairwise
      (fun g h => g.token.location.opens ≤ h.token.location.opens) ∧
    ∀ h ∈ (ofSource file source).tokens, h.token.location.opens ≤ h.token.location.closes := by
  have placed : (start file source).Placed [] := ⟨rfl, rfl⟩
  have rest : [] ++ (start file source).rest = source := text_of_unmarked unmarked
  obtain ⟨ends, sorted⟩ := Scanner.ordered_run _ placed
  rw [tokens_ofSource]
  refine ⟨fun h hh content => ?_, ?_, fun h hh => ?_⟩
  · have located := Scanner.located_run sources _ known placed _ h hh content
    rwa [rest] at located
  · rwa [← token_spread, List.pairwise_map] at sorted
  · refine (ends h.token ?_).2
    rw [← token_spread]
    exact List.mem_map_of_mem hh

theorem ofSource_located_returns :
    let source : Bytes := "set a to \"é\" + 1\r\n\tnote: ü \r\n  display \"abc\r\n"
    1 ≠ 0 ∧ source.startsWith byteOrderMark = false ∧
      ((ofSource 1 source).tokens.filter fun h => h.token.kind.isContent).length = 9 ∧
      (∀ h ∈ (ofSource 1 source).tokens, h.token.kind.isContent = true →
        h.Located Sources.empty 1 source) ∧
      (ofSource 1 source).tokens.Pairwise
        (fun g h => g.token.location.opens ≤ h.token.location.opens) ∧
      ∀ h ∈ (ofSource 1 source).tokens,
        h.token.location.opens ≤ h.token.location.closes := by
  intro source
  have unmarked : source.startsWith byteOrderMark = false := by decide +kernel
  exact ⟨by decide, unmarked, by decide +kernel,
    ofSource_located Sources.empty (by decide) unmarked⟩

/-- A text that is not closed takes the carriage return that ends its line, and the line is shown
without it. -/
theorem unclosed_text_takes_return :
    let source : Bytes := "display \"abc\r\n"
    ∃ h ∈ (ofSource 1 source).tokens, h.token.kind.isContent = true ∧
      h.token.Spelled "display " "\"abc\r" "\n" ∧
      ¬ ("\"abc\r" : Bytes) <+:
        (Sources.empty.attach 1 source).shownAt 1 h.token.location := by
  intro source
  refine ⟨(ofSource 1 source).tokens.get ⟨1, by decide +kernel⟩, List.get_mem _ _,
    by decide +kernel, ?_, by decide +kernel⟩
  exact
    { read := ⟨Byte.quote, "abc\r", [(0, .unclosed)], by decide +kernel, by decide +kernel⟩
      line := by decide +kernel
      column := by decide +kernel
      endLine := by decide +kernel
      endColumn := by decide +kernel }

end TokenStream

end StepsLang
