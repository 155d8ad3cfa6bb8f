import Mathlib.Data.List.Forall2
import StepsLang.Proofs.Text.Character
import StepsLang.Proofs.Token.Step

/-! Texts with a carriage return before every line feed.  Two scanners go over the two texts side by
side: apart from one step over a carriage return, each step of one is a step of the other. -/

namespace StepsLang

namespace Bytes

def withReturns (s : Bytes) : Bytes :=
  s.flatMap fun b => if b = Byte.lineFeed then [Byte.carriageReturn, b] else [b]

variable {b : UInt8} {s u v w : Bytes}

@[simp] theorem withReturns_nil : withReturns [] = [] := rfl

theorem withReturns_append (u v : Bytes) :
    withReturns (u ++ v) = withReturns u ++ withReturns v := List.flatMap_append

@[simp] theorem withReturns_lineFeed (s : Bytes) : withReturns (Byte.lineFeed :: s) =
    Byte.carriageReturn :: Byte.lineFeed :: withReturns s := rfl

theorem withReturns_cons (h : b ≠ Byte.lineFeed) (s : Bytes) :
    withReturns (b :: s) = b :: withReturns s := by
  rw [withReturns, List.flatMap_cons, if_neg h]
  rfl

theorem withReturns_ne_nil (b : UInt8) (s : Bytes) : withReturns (b :: s) ≠ [] := by
  by_cases h : b = Byte.lineFeed
  · subst h
    simp
  · rw [withReturns_cons h]
    simp

theorem withReturns_plain (h : Byte.lineFeed ∉ s) : withReturns s = s := by
  induction s with
  | nil => rfl
  | cons b s ih =>
    rw [List.mem_cons, not_or] at h
    rw [withReturns_cons (Ne.symm h.1), ih h.2]

theorem withReturns_line (h : Byte.lineFeed ∉ u) (v : Bytes) :
    withReturns (u ++ v) = u ++ withReturns v := by rw [withReturns_append, withReturns_plain h]

theorem lineStop_withReturns (h : LineEnd v) : LineStop (withReturns v) := by
  cases v with
  | nil => intro b hb; cases hb
  | cons b v =>
    obtain rfl := h b rfl
    intro c hc
    exact .inr (Option.some.inj hc).symm

theorem takeWhile_withReturns {p : UInt8 → Bool} (hp : p Byte.lineFeed = false)
    (hr : p Byte.carriageReturn = false) (s : Bytes) :
    (withReturns s).takeWhile p = s.takeWhile p := by
  obtain ⟨u, v, rfl, line, ends⟩ := exists_line s
  rw [withReturns_line line, takeWhile_ends hp ends,
    takeWhile_before (head?_stops hp hr (lineStop_withReturns ends))]

theorem prefix_withReturns (hw : Byte.lineFeed ∉ w) (hr : Byte.carriageReturn ∉ w) :
    w <+: withReturns s ↔ w <+: s := by
  obtain ⟨u, v, rfl, line, ends⟩ := exists_line s
  rw [withReturns_line line, prefix_ends hw ends, prefix_before fun b hb => ?_]
  rcases lineStop_withReturns ends b hb with rfl | rfl
  · exact hw
  · exact hr

end Bytes

open Bytes

namespace Word

theorem standsAt_withReturns {w : Bytes} (hw : Byte.lineFeed ∉ w) (hr : Byte.carriageReturn ∉ w)
    (s : Bytes) : standsAt w (withReturns s) = standsAt w s := by
  obtain ⟨u, v, rfl, line, ends⟩ := exists_line s
  rw [withReturns_line line, standsAt_ends hw ends,
    standsAt_stops hw hr (lineStop_withReturns ends)]

variable {b : UInt8} {s : Bytes}

theorem blockCommentLength_start (h : blockCommentEnd <+: s) :
    blockCommentLength s = blockCommentEnd.length := by
  rw [blockCommentLength]
  obtain ⟨-, nowhere⟩ | ⟨i, found, -, first⟩ := find?_cases blockCommentEnd s
  · exact absurd h (nowhere 0)
  · cases i with
    | zero =>
      rw [found]
      exact Nat.zero_add _
    | succ i => exact absurd h (first 0 (Nat.succ_pos i))

theorem blockCommentLength_cons (h : ¬ blockCommentEnd <+: b :: s) :
    blockCommentLength (b :: s) = blockCommentLength s + 1 := by
  rw [blockCommentLength, blockCommentLength]
  obtain ⟨none, nowhere⟩ | ⟨i, found, here, first⟩ := find?_cases blockCommentEnd s
  · obtain ⟨none', -⟩ | ⟨j, -, there, -⟩ := find?_cases blockCommentEnd (b :: s)
    · rw [none, none', List.length_cons]
    · cases j with
      | zero => exact absurd there h
      | succ j => exact absurd there (nowhere j)
  · obtain ⟨-, nowhere⟩ | ⟨j, found', there, first'⟩ := find?_cases blockCommentEnd (b :: s)
    · exact absurd here (nowhere (i + 1))
    · cases j with
      | zero => exact absurd there h
      | succ j =>
        obtain rfl : j = i := by
          rcases Nat.lt_trichotomy j i with less | same | more
          · exact absurd there (first j less)
          · exact same
          · exact absurd here (first' (i + 1) (Nat.succ_lt_succ more))
        rw [found, found', Nat.add_right_comm]

theorem not_blockCommentEnd (h : b ≠ 101) : ¬ blockCommentEnd <+: b :: s :=
  fun ⟨_, whole⟩ => h (List.cons.inj whole).1.symm

theorem blockCommentLength_withReturns (s : Bytes) : blockCommentLength (withReturns s) =
    (withReturns (s.take (blockCommentLength s))).length := by
  have plain : Byte.lineFeed ∉ blockCommentEnd ∧ Byte.carriageReturn ∉ blockCommentEnd := by decide
  induction s with
  | nil => rfl
  | cons b s ih =>
    by_cases h : blockCommentEnd <+: b :: s
    · rw [blockCommentLength_start h,
        blockCommentLength_start ((prefix_withReturns plain.1 plain.2).2 h),
        ← List.prefix_iff_eq_take.1 h]
      rfl
    · rw [blockCommentLength_cons h, List.take_succ_cons]
      by_cases hb : b = Byte.lineFeed
      · subst hb
        rw [withReturns_lineFeed, withReturns_lineFeed,
          blockCommentLength_cons (not_blockCommentEnd (by decide)),
          blockCommentLength_cons (not_blockCommentEnd (by decide)), ih]
        rfl
      · have other := (prefix_withReturns plain.1 plain.2).not.2 h
        rw [withReturns_cons hb] at other ⊢
        rw [blockCommentLength_cons other, withReturns_cons hb, ih]
        rfl

end Word

namespace Lexeme

theorem quotedRest_closed (read : Nat) (content : Bytes) (flaws : List (Nat × Flaw)) {u : Bytes}
    (closed : ∀ x ∈ (quotedRest read content flaws u).flaws, x.2 ≠ .unclosed) (v : Bytes) :
    quotedRest read content flaws (u ++ v) = quotedRest read content flaws u := by
  have unclosed {fs : List (Nat × Flaw)} : ¬ ∀ x ∈ fs ++ [(0, Flaw.unclosed)], x.2 ≠ .unclosed :=
    fun h => h (0, .unclosed) (by simp) rfl
  fun_induction quotedRest read content flaws u with
  | case1 | case2 | case4 | case5 => exact absurd closed unclosed
  | _ =>
    rw [List.cons_append, quotedRest.eq_def]
    simp_all

theorem flaws_quotedRest (read : Nat) (content : Bytes) (flaws : List (Nat × Flaw)) {u : Bytes}
    (h : ∀ x ∈ flaws, x.1 ≤ read) : ∀ x ∈ (quotedRest read content flaws u).flaws,
      x.1 ≤ (quotedRest read content flaws u).length := by
  have ends {n : Nat} {fs : List (Nat × Flaw)} (h : ∀ x ∈ fs, x.1 ≤ n) :
      ∀ x ∈ fs.reverse ++ [(0, Flaw.unclosed)], x.1 ≤ n := by
    intro x hx
    rcases List.mem_append.1 hx with hx | hx
    · exact h x (List.mem_reverse.1 hx)
    · rw [List.mem_singleton.1 hx]
      exact Nat.zero_le n
  have later {m n : Nat} {fs : List (Nat × Flaw)} (h : ∀ x ∈ fs, x.1 ≤ m) (less : m ≤ n) :
      ∀ x ∈ fs, x.1 ≤ n := fun x hx => Nat.le_trans (h x hx) less
  fun_induction quotedRest read content flaws u with
  | case1 | case2 => exact ends h
  | case3 => exact fun x hx => later h (Nat.le_succ _) x (List.mem_reverse.1 hx)
  | case4 | case5 => exact ends (later h (Nat.le_succ _))
  | case6 _ _ _ _ _ _ _ _ _ _ _ _ ih => exact ih (later h (Nat.le_add_right _ 2))
  | case7 _ _ _ _ _ _ _ _ _ _ _ ih =>
    refine ih (List.forall_mem_cons.2 ⟨?_, later h (Nat.le_add_right _ 2)⟩)
    exact Nat.le_add_right _ 2
  | case8 _ _ _ _ _ _ _ _ ih => exact ih (later h (Nat.le_succ _))

theorem flaws_word (s : Bytes) : (word s).flaws = [] := by
  simp only [word]
  repeat' split
  all_goals rfl

theorem flaws_read (b : UInt8) (rest : Bytes) :
    ∀ x ∈ (read b rest).flaws, x.1 ≤ (read b rest).length := by
  unfold read
  repeat' split
  · simp
  · simp
  · simp
  · exact flaws_quotedRest 1 [] [] (by simp)
  · simp
  · simp [numeral]
  · simp [flaws_word]
  · simp [strange]

theorem length_note {r : Bytes} (n : Nat) (line : Byte.lineFeed ∉ r) :
    (note n r).length = n + r.length := by simp only [note, takeWhile_line line]

theorem note_return {r : Bytes} (n : Nat) (line : Byte.lineFeed ∉ r) :
    note n (r ++ [Byte.carriageReturn]) = { note n r with length := (note n r).length + 1 } := by
  have blanks : (r ++ [Byte.carriageReturn]).dropWhile (· == Byte.space) =
      r.dropWhile (· == Byte.space) ++ [Byte.carriageReturn] := dropWhile_before rfl
  simp only [note, takeWhile_line line, takeWhile_line (line_return line), blanks,
    List.length_append, List.length_singleton, ← Nat.add_assoc]
  simp [trimEnd]

theorem read_withReturns {b : UInt8} {rest : Bytes} (hb : b ≠ Byte.lineFeed)
    (comment : Word.standsAt Word.blockCommentStart (b :: rest) = false)
    (closed : ∀ x ∈ (read b rest).flaws, x.2 ≠ .unclosed) :
    read b (withReturns rest) = read b rest ∨
      (read b rest).kind = some .note ∧
        (∃ u v, rest = u ++ Byte.lineFeed :: v ∧ Byte.lineFeed ∉ u ∧
          (read b rest).length = u.length + 1) ∧
        read b (withReturns rest) = { read b rest with length := (read b rest).length + 1 } := by
  obtain ⟨u, v, rfl, line, ends⟩ := exists_line rest
  rw [withReturns_line line]
  cases v with
  | nil => exact .inl rfl
  | cons c v =>
    obtain rfl := ends c rfl
    have comment' : Word.standsAt Word.blockCommentStart (b :: u) = false := by
      rwa [← List.cons_append, Word.standsAt_ends (by decide) ends] at comment
    have stop : LineStop [Byte.carriageReturn] := fun b hb => .inr (Option.some.inj hb).symm
    have comment'' : Word.standsAt Word.blockCommentStart (b :: (u ++ [Byte.carriageReturn])) =
        false := by
      rwa [← List.cons_append, Word.standsAt_stops (by decide) (by decide) stop]
    have shape : u ++ Byte.carriageReturn :: Byte.lineFeed :: withReturns v =
        u ++ [Byte.carriageReturn] ++ Byte.lineFeed :: withReturns v := by simp
    rw [read_ends b u line ends comment'] at closed ⊢
    rw [withReturns_lineFeed, shape, read_ends b _ (line_return line) (lineEnd_cons _) comment'']
    have quotes : b = Byte.quote → quoted (u ++ [Byte.carriageReturn]) = quoted u := by
      rintro rfl
      simp only [quoted, quotedRest_closed 1 [] [] closed]
    obtain same | ⟨n, r, inside, count, here, longer⟩ := read_stops b stop comment' quotes
    · exact .inl same
    · have plain : Byte.lineFeed ∉ r := fun there =>
        (List.mem_cons.1 (inside.subset there)).elim (fun e => hb e.symm) line
      refine .inr ⟨by rw [here]; rfl, ⟨u, v, rfl, line, ?_⟩, ?_⟩
      · rw [here, length_note n plain, count]
      · rw [longer, note_return n plain, here]

end Lexeme

namespace Utf8

variable {b : UInt8} {s t : Bytes} {n : Nat}

theorem sequence?_of_prefix (h : sequence? s = some n) (same : s.take n <+: t) :
    sequence? t = some n := by
  obtain ⟨u, rfl⟩ := same
  exact sequence?_append (sequence?_take h) u

theorem plain_sequence (h : sequence? (b :: s) = some n) (hb : b ≠ Byte.lineFeed)
    (hr : b ≠ Byte.carriageReturn) :
    Byte.lineFeed ∉ (b :: s).take n ∧ Byte.carriageReturn ∉ (b :: s).take n := by
  have bounds := sequence?_bounds h
  have whole : sequence? ((b :: s).take n) = some ((b :: s).take n).length := by
    rw [List.length_take_of_le bounds.2]
    exact sequence?_take h
  obtain ⟨c, one, -⟩ | high := ascii_or_high whole
  · obtain ⟨m, rfl⟩ := Nat.exists_eq_succ_of_ne_zero (Nat.ne_of_gt bounds.1)
    obtain ⟨rfl, rest⟩ := List.cons.inj ((List.take_succ_cons ..).symm.trans one)
    rw [one]
    simp [hb.symm, hr.symm]
  · exact ⟨fun there => absurd (high _ there) (by decide),
      fun there => absurd (high _ there) (by decide)⟩

theorem sequence?_withReturns (hb : b ≠ Byte.lineFeed) (hr : b ≠ Byte.carriageReturn) (s : Bytes) :
    sequence? (b :: withReturns s) = sequence? (b :: s) := by
  refine Option.ext fun n => ⟨fun h => ?_, fun h => ?_⟩
  · obtain ⟨line, return_⟩ := plain_sequence h hb hr
    refine sequence?_of_prefix h ?_
    rw [← prefix_withReturns line return_, withReturns_cons hb]
    exact List.take_prefix n _
  · obtain ⟨line, return_⟩ := plain_sequence h hb hr
    refine sequence?_of_prefix h ?_
    rw [← withReturns_cons hb, prefix_withReturns line return_]
    exact List.take_prefix n _

def Malformed.lineColumn (m : Malformed) : Nat × Nat := (m.line, m.column)

theorem malformed?_withReturns {owed : Nat} (plain : Byte.carriageReturn ∉ s)
    (line : Byte.lineFeed ∉ s.take owed) {x y : Malformed} (h : y.lineColumn = x.lineColumn) :
    (malformed?.go owed (withReturns s) y).map Malformed.lineColumn =
      (malformed?.go owed s x).map Malformed.lineColumn := by
  induction s generalizing owed x y with
  | nil => cases owed <;> rfl
  | cons b s ih =>
    rw [List.mem_cons, not_or] at plain
    cases owed with
    | succ owed =>
      rw [List.take_succ_cons, List.mem_cons, not_or] at line
      rw [withReturns_cons (Ne.symm line.1)]
      exact ih plain.2 line.2 h
    | zero =>
      by_cases hb : b = Byte.lineFeed
      · subst hb
        have lone (c : UInt8) (low : c < 0x80) (r : Bytes) : sequence? (c :: r) = some 1 := by
          rw [sequence?, shape?, if_pos low]
          rfl
        rw [withReturns_lineFeed]
        simp only [malformed?.go, lone Byte.lineFeed (by decide),
          lone Byte.carriageReturn (by decide)]
        refine ih plain.2 (by simp) ?_
        exact congrArg (fun p : Nat × Nat => (p.1 + 1, 1)) h
      · have same := sequence?_withReturns hb (Ne.symm plain.1) s
        have other : (b == Byte.lineFeed) = false := beq_false_of_ne hb
        rw [withReturns_cons hb]
        simp only [malformed?.go, same, other]
        cases found : sequence? (b :: s) with
        | none => exact congrArg some h
        | some n =>
          have inside := (plain_sequence found hb (Ne.symm plain.1)).1
          obtain ⟨m, rfl⟩ := Nat.exists_eq_succ_of_ne_zero (Nat.ne_of_gt (sequence?_bounds found).1)
          rw [List.take_succ_cons, List.mem_cons, not_or] at inside
          exact ih plain.2 inside.2 (congrArg (fun p : Nat × Nat => (p.1, p.2 + 1)) h)

end Utf8

structure Token.Coincides (t u : Token) : Prop where
  kind : u.kind = t.kind
  text : u.text = t.text
  value : u.value = t.value
  file : u.location.file = t.location.file
  line : u.location.line = t.location.line
  column : t.kind ≠ .newline → u.location.column = t.location.column

theorem Token.Coincides.refl (t : Token) : t.Coincides t := ⟨rfl, rfl, rfl, rfl, rfl, fun _ => rfl⟩

def Report.fault (r : Report) : Bytes × Location := (r.code, r.location)

structure Batch.Coincides (b c : Batch) : Prop where
  reports : c.reports.map Report.fault = b.reports.map Report.fault
  tokens : List.Forall₂ Token.Coincides b.tokens c.tokens

theorem Batch.Coincides.refl (b : Batch) : b.Coincides b :=
  ⟨rfl, List.forall₂_same.2 fun t _ => .refl t⟩

structure Heard.Coincides (x y : Heard) : Prop where
  reports : y.reports.map Report.fault = x.reports.map Report.fault
  token : x.token.Coincides y.token

namespace Scanner

def withReturns (s : Scanner) : Scanner := { s with rest := Bytes.withReturns s.rest }

variable {s t : Scanner} {b : UInt8} {rest : Bytes}

theorem pass_withReturns (s : Scanner) (b : UInt8) (rest : Bytes) :
    s.withReturns.pass b (Bytes.withReturns rest) = (s.pass b rest).withReturns := by
  unfold pass withReturns
  split
  · rfl
  · split <;> rfl

def behindReturn (s : Scanner) (rest : Bytes) : Scanner :=
  { s with rest := Byte.lineFeed :: Bytes.withReturns rest, column := s.column + 1 }

theorem withReturns_rest (h : s.rest = Byte.lineFeed :: rest) : s.withReturns.rest =
    Byte.carriageReturn :: Byte.lineFeed :: Bytes.withReturns rest := by
  rw [withReturns, h, withReturns_lineFeed]

theorem pass_return (s : Scanner) (rest : Bytes) :
    s.withReturns.pass Byte.carriageReturn (Byte.lineFeed :: Bytes.withReturns rest) =
      s.behindReturn rest := rfl

theorem pass_behindReturn (s : Scanner) (rest : Bytes) :
    (s.behindReturn rest).pass Byte.lineFeed (Bytes.withReturns rest) =
      (s.pass Byte.lineFeed rest).withReturns := rfl

theorem skip_return (h : s.rest = Byte.lineFeed :: rest) (n : Nat) :
    s.withReturns.skip (n + 1) = (s.behindReturn rest).skip n := by
  simp only [skip, withReturns_rest h]
  rw [pass_return]

theorem skip_withReturns (n : Nat) (s : Scanner) :
    s.withReturns.skip (Bytes.withReturns (s.rest.take n)).length = (s.skip n).withReturns := by
  induction n generalizing s with
  | zero => rfl
  | succ n ih =>
    cases e : s.rest with
    | nil =>
      rw [skip_nil e]
      rfl
    | cons b rest =>
      have step : (s.skip (n + 1)) = (s.pass b rest).skip n := by simp [skip, e]
      have later := ih (s.pass b rest)
      rw [pass_rest] at later
      rw [step, ← later, List.take_succ_cons]
      by_cases hb : b = Byte.lineFeed
      · subst hb
        rw [withReturns_lineFeed, List.length_cons, List.length_cons, skip_return e, ←
          pass_behindReturn]
        rfl
      · have whole : s.withReturns.rest = b :: Bytes.withReturns rest := by
          rw [withReturns, e, withReturns_cons hb]
        rw [withReturns_cons hb]
        simp only [List.length_cons, skip, whole]
        rw [pass_withReturns]

theorem skip_within {n : Nat} (h : Byte.lineFeed ∉ s.rest.take n) :
    s.withReturns.skip n = (s.skip n).withReturns := by
  by_cases short : n ≤ s.rest.length
  · have whole := skip_withReturns n s
    rwa [withReturns_plain h, List.length_take_of_le short] at whole
  · rw [List.take_of_length_le (Nat.le_of_not_le short)] at h
    have same : s.withReturns = s := by rw [withReturns, withReturns_plain h]
    rw [same, withReturns, withReturns_plain]
    rw [skip_rest]
    exact fun there => h (List.drop_subset n _ there)

theorem indentation_withReturns (s : Scanner) : s.withReturns.indentation = s.indentation :=
  takeWhile_withReturns rfl rfl s.rest

theorem indented_withReturns (s : Scanner) : s.withReturns.indented = s.indented.withReturns := by
  rw [indented, indentation_withReturns]
  exact skip_within (s := { s with fresh := false }) s.line_indentation

theorem tabFaults_withReturns (s : Scanner) : s.withReturns.tabFaults = s.tabFaults := by
  unfold tabFaults
  rw [indentation_withReturns]
  split
  · next i found =>
    obtain ⟨inside, -⟩ := List.findIdx?_eq_some_iff_getElem.1 found
    have line : Byte.lineFeed ∉ s.rest.take i := fun there =>
      s.line_indentation (List.take_subset_take_left _ (Nat.le_of_lt inside) there)
    have same : (skip i { s.withReturns with fresh := false }).location =
        (skip i { s with fresh := false }).location :=
      (congrArg location (skip_within (s := { s with fresh := false }) line)).trans rfl
    rw [same]
  · rfl

theorem atLineEnd_withReturns {s : Bytes} (plain : Byte.carriageReturn ∉ s) :
    atLineEnd (Bytes.withReturns s) = atLineEnd s := by
  cases s with
  | nil => rfl
  | cons b s =>
    by_cases hb : b = Byte.lineFeed
    · subst hb
      cases s <;> rfl
    · have hr : b ≠ Byte.carriageReturn := fun same => plain (by simp [same])
      have goesOn (x : Bytes) : atLineEnd (b :: x) = false := by
        cases x <;> simp [atLineEnd, hb, hr]
      rw [withReturns_cons hb, goesOn, goesOn]

theorem skipLine_withReturns (s : Scanner) : s.withReturns.skipLine = s.skipLine.withReturns := by
  obtain ⟨u, v, e, line, ends⟩ := exists_line s.rest
  have whole : s.withReturns.rest = u ++ Bytes.withReturns v := by
    rw [withReturns, e, withReturns_line line]
  cases v with
  | nil =>
    rw [withReturns_nil, List.append_nil] at whole
    rw [List.append_nil] at e
    rw [skipLine, skipLine, whole, e]
    refine skip_within fun there => ?_
    rw [e] at there
    exact line (List.take_subset _ u there)
  | cons b v =>
    obtain rfl := ends b rfl
    rw [withReturns_lineFeed] at whole
    have first (r : Bytes) : (u ++ Byte.lineFeed :: r).takeWhile (· != Byte.lineFeed) = u :=
      (takeWhile_ends rfl (lineEnd_cons r)).trans (takeWhile_line line)
    have return_ : u ++ Byte.carriageReturn :: Byte.lineFeed :: Bytes.withReturns v =
        u ++ [Byte.carriageReturn] ++ Byte.lineFeed :: Bytes.withReturns v := by simp
    have behind : (Bytes.withReturns (s.rest.take (u.length + 1))).length =
        (u ++ [Byte.carriageReturn]).length + 1 := by
      have taken : (u ++ Byte.lineFeed :: v).take (u.length + 1) = u ++ [Byte.lineFeed] := by
        simp [List.take_append]
      rw [e, taken, withReturns_line line]
      simp
    rw [skipLine, skipLine, whole, e, first, ← skip_withReturns, behind, return_,
      takeWhile_ends rfl (lineEnd_cons _), takeWhile_line (line_return line)]

theorem remember_withReturns (s : Scanner) (ts : List Token) :
    s.withReturns.remember ts = (s.remember ts).withReturns := by
  unfold remember
  cases ts.getLast? <;> rfl

theorem relevel_withReturns (s : Scanner) (here : Location) (found : Nat) :
    s.withReturns.relevel here found =
      ((s.relevel here found).1.withReturns, (s.relevel here found).2) := by
  have level : s.withReturns.level = s.level := rfl
  unfold relevel
  rw [level]
  split
  · simp only [openLevel, level]
    split <;> rfl
  · exact Prod.ext
      (remember_withReturns { s with levels := s.levels.dropWhile (found < ·) } _) rfl

theorem startLine_withReturns (plain : Byte.carriageReturn ∉ s.rest) :
    s.withReturns.startLine = (s.startLine.1.withReturns, s.startLine.2) := by
  have there : s.withReturns.indented.rest = Bytes.withReturns s.indented.rest := by
    rw [indented_withReturns, withReturns]
  have ends : atLineEnd s.withReturns.indented.rest = atLineEnd s.indented.rest := by
    rw [there, atLineEnd_withReturns]
    rw [indented_rest]
    exact fun inside => plain (List.drop_subset _ _ inside)
  have words : Word.standsAt Word.blockCommentStart s.withReturns.indented.rest =
      Word.standsAt Word.blockCommentStart s.indented.rest := by
    rw [there, Word.standsAt_withReturns (by decide) (by decide)]
  cases blank : atLineEnd s.indented.rest with
  | true =>
    rw [startLine_blank blank, startLine_blank (ends.trans blank), tabFaults_withReturns,
      indented_withReturns, skipLine_withReturns]
  | false =>
    cases comment : Word.standsAt Word.blockCommentStart s.indented.rest with
    | true =>
      have behind : s.withReturns.indented.skip
          (Word.blockCommentLength s.withReturns.indented.rest) =
          (s.indented.skip (Word.blockCommentLength s.indented.rest)).withReturns := by
        rw [there, Word.blockCommentLength_withReturns, indented_withReturns, skip_withReturns]
      rw [startLine_comment blank comment,
        startLine_comment (ends.trans blank) (words.trans comment), tabFaults_withReturns]
      dsimp only
      rw [behind, skipLine_withReturns, apply_ite withReturns]
      rfl
    | false =>
      have leveled : s.withReturns.leveled = (s.leveled.1.withReturns, s.leveled.2) := by
        rw [Scanner.leveled, indented_withReturns, indentation_withReturns]
        exact relevel_withReturns _ _ _
      rw [startLine_filled blank comment,
        startLine_filled (ends.trans blank) (words.trans comment), tabFaults_withReturns, leveled]

/-- A scanner before the text with carriage returns is as far as another one before the text
without them, or it is in front of a line feed of which it has passed the carriage return. -/
inductive Abreast (s : Scanner) : Scanner → Prop
  | level : Abreast s s.withReturns
  | ahead {rest : Bytes} (inside : s.fresh = false) (line : s.rest = Byte.lineFeed :: rest) :
    Abreast s (s.behindReturn rest)

theorem Abreast.remember (h : s.Abreast t) (k : Kind) :
    Abreast { s with last := k } { t with last := k } := by
  cases h with
  | level => exact .level
  | ahead inside line => exact .ahead (s := { s with last := k }) inside line

theorem abreast_read (inside : s.fresh = false) (hs : s.rest = b :: rest) (hb : b ≠ Byte.lineFeed)
    (closed : ∀ x ∈ (Lexeme.read b rest).flaws, x.2 ≠ .unclosed) :
    ∃ n, Lexeme.read b (Bytes.withReturns rest) = { Lexeme.read b rest with length := n } ∧
      (s.skip (Lexeme.read b rest).length).Abreast (s.withReturns.skip n) := by
  cases comment : Word.standsAt Word.blockCommentStart (b :: rest) with
  | true =>
    have comment' : Word.standsAt Word.blockCommentStart (b :: Bytes.withReturns rest) = true := by
      rwa [← withReturns_cons hb, Word.standsAt_withReturns (by decide) (by decide)]
    refine ⟨_, by rw [Lexeme.read_comment comment, Lexeme.read_comment comment'], ?_⟩
    rw [← withReturns_cons hb, Word.blockCommentLength_withReturns, Lexeme.read_comment comment,
      ← hs, skip_withReturns]
    exact .level
  | false =>
    have line : Byte.lineFeed ∉ s.rest.take (Lexeme.read b rest).length := by
      rw [hs]
      exact Lexeme.lineFeed_not_mem_read hb comment
    obtain same | ⟨-, ⟨u, v, e, -, whole⟩, longer⟩ :=
      Lexeme.read_withReturns hb comment closed
    · refine ⟨(Lexeme.read b rest).length, same, ?_⟩
      rw [skip_within line]
      exact .level
    · refine ⟨(Lexeme.read b rest).length + 1, longer, ?_⟩
      have stop : (s.skip (Lexeme.read b rest).length).rest = Byte.lineFeed :: v := by
        rw [skip_rest, hs, whole, e, List.drop_succ_cons, List.drop_left]
      rw [skip_add, skip_within line, skip_return stop]
      exact .ahead ((skip_fresh line).trans inside) stop

theorem line_flaws {x : Nat × Flaw} (hb : b ≠ Byte.lineFeed)
    (hx : x ∈ (Lexeme.read b rest).flaws) : Byte.lineFeed ∉ (b :: rest).take x.1 := by
  cases comment : Word.standsAt Word.blockCommentStart (b :: rest) with
  | true =>
    rw [Lexeme.read_comment comment] at hx
    cases hx
  | false =>
    have inside := Lexeme.flaws_read b rest x hx
    exact fun there => Lexeme.lineFeed_not_mem_read hb comment
      (List.take_subset_take_left _ inside there)

theorem abreast_lexeme (inside : s.fresh = false) (hs : s.rest = b :: rest)
    (hb : b ≠ Byte.lineFeed)
    (closed : ∀ r ∈ (s.lexeme b rest).2.reports, r.code ≠ Fault.unclosedText.code) :
    Abreast (s.lexeme b rest).1 (s.withReturns.lexeme b (Bytes.withReturns rest)).1 ∧
      (s.lexeme b rest).2.Coincides (s.withReturns.lexeme b (Bytes.withReturns rest)).2 := by
  have closed' : ∀ x ∈ (Lexeme.read b rest).flaws, x.2 ≠ .unclosed := by
    rintro ⟨n, flaw⟩ hx rfl
    rw [reports_lexeme] at closed
    exact closed _ (List.mem_map_of_mem hx) rfl
  obtain ⟨n, read, beside⟩ := abreast_read inside hs hb closed'
  have flaws : ((Lexeme.read b rest).flaws.map fun x =>
        x.2.report (s.withReturns.skip x.1).location) =
      (Lexeme.read b rest).flaws.map fun x => x.2.report (s.skip x.1).location := by
    refine List.map_congr_left fun x hx => ?_
    have line := hs ▸ line_flaws hb hx
    rw [skip_within line]
    rfl
  cases e : (Lexeme.read b rest).kind with
  | none =>
    simp only [lexeme, read, e]
    exact ⟨beside, congrArg _ flaws, .nil⟩
  | some k =>
    have content := Lexeme.isContent_read e hb
    have other : (k == .newline) = false := by cases k <;> first | contradiction | rfl
    simp only [lexeme, read, e, other, Bool.false_and, Bool.false_eq_true, if_false]
    exact ⟨beside.remember k, congrArg _ flaws, .cons ⟨rfl, rfl, rfl, rfl, rfl, fun _ => rfl⟩ .nil⟩

theorem abreast_lineFeed (s : Scanner) (rest : Bytes) (hs : s.rest = Byte.lineFeed :: rest) :
    let one := s.lexeme Byte.lineFeed rest
    let other := (s.behindReturn rest).lexeme Byte.lineFeed (Bytes.withReturns rest)
    one.1.Abreast other.1 ∧ one.2.Coincides other.2 := by
  have read (r : Bytes) :
      Lexeme.read Byte.lineFeed r = { length := 1, kind := some .newline } := rfl
  have here : s.skip 1 = s.pass Byte.lineFeed rest := by simp [skip, hs]
  have there : (s.behindReturn rest).skip 1 = (s.skip 1).withReturns := by
    rw [here, ← pass_behindReturn]
    rfl
  have last : (s.behindReturn rest).last = s.last := rfl
  simp only [lexeme, read, there, last]
  split
  · exact ⟨.level, rfl, .nil⟩
  · exact ⟨.level, rfl, .cons ⟨rfl, rfl, rfl, rfl, rfl, fun other => absurd rfl other⟩ .nil⟩

theorem step_return (inside : s.fresh = false) (hs : s.rest = Byte.lineFeed :: rest) :
    s.withReturns.step = some (s.behindReturn rest, {}) := by
  have read (r : Bytes) : Lexeme.read Byte.carriageReturn r = { length := 1 } := rfl
  have fresh : s.withReturns.fresh = false := inside
  simp only [step, withReturns_rest hs, fresh, Bool.false_eq_true, if_false, lexeme, read,
    skip_return hs 0]
  rfl

theorem abreast_step {u : Scanner} {made : Batch} (h : s.Abreast t)
    (plain : Byte.carriageReturn ∉ s.rest) (hs : s.step = some (u, made))
    (closed : ∀ r ∈ made.reports, r.code ≠ Fault.unclosedText.code) :
    ∃ t' v made', (t = t' ∨ t.step = some (t', {})) ∧ t'.step = some (v, made') ∧ u.Abreast v ∧
      made.Coincides made' := by
  obtain ⟨b, rest, e⟩ := List.exists_cons_of_ne_nil (rest_of_step hs)
  cases fresh : s.fresh with
  | true =>
    cases h with
    | ahead inside => rw [fresh] at inside; cases inside
    | level =>
      have filled : s.withReturns.rest ≠ [] := by
        rw [withReturns, e]
        exact withReturns_ne_nil b rest
      rw [step_start fresh (by simp [e]), Option.some.injEq] at hs
      have next := step_start (s := s.withReturns) fresh filled
      rw [startLine_withReturns plain, hs] at next
      exact ⟨_, _, _, .inl rfl, next, .level, .refl made⟩
  | false =>
    rw [step_within fresh e, Option.some.injEq] at hs
    by_cases hb : b = Byte.lineFeed
    · subst hb
      have both := abreast_lineFeed s rest e
      rw [hs] at both
      have next := step_within (s := s.behindReturn rest) fresh rfl
      cases h with
      | level => exact ⟨_, _, _, .inr (step_return fresh e), next, both⟩
      | ahead inside line =>
        rw [e, List.cons.injEq] at line
        obtain ⟨-, rfl⟩ := line
        exact ⟨_, _, _, .inl rfl, next, both⟩
    · have there : s.withReturns.rest = b :: Bytes.withReturns rest := by
        rw [withReturns, e, withReturns_cons hb]
      have both := abreast_lexeme fresh e hb
      rw [hs] at both
      cases h with
      | ahead inside line =>
        rw [e, List.cons.injEq] at line
        exact absurd line.1 hb
      | level =>
        exact ⟨_, _, _, .inl rfl, step_within (s := s.withReturns) fresh there, both closed⟩

end Scanner

namespace TokenStream
open Scanner

theorem spread_coincides {b c : Batch} {bs cs : List Batch} (h : b.Coincides c)
    (more : ∀ {rs rs' : List Report}, rs'.map Report.fault = rs.map Report.fault →
      List.Forall₂ Heard.Coincides (spread rs bs) (spread rs' cs))
    {rs rs' : List Report} (same : rs'.map Report.fault = rs.map Report.fault) :
    List.Forall₂ Heard.Coincides (spread rs (b :: bs)) (spread rs' (c :: cs)) := by
  obtain ⟨reports, tokens⟩ := b
  obtain ⟨reports', tokens'⟩ := c
  obtain ⟨here, each⟩ := h
  have faults : (rs' ++ reports').map Report.fault = (rs ++ reports).map Report.fault := by
    rw [List.map_append, List.map_append, same, here]
  simp only [spread]
  cases each with
  | nil => exact more faults
  | cons first rest =>
    refine .cons ⟨faults, first⟩ (List.rel_append ?_ (more rfl))
    exact List.forall₂_map_left_iff.2 (List.forall₂_map_right_iff.2
      (rest.imp fun _ _ h => ⟨rfl, h⟩))

theorem coincides_run {s t : Scanner} (h : s.Abreast t) (plain : Byte.carriageReturn ∉ s.rest)
    (closed : ∀ b ∈ s.run.1, ∀ r ∈ b.reports, r.code ≠ Fault.unclosedText.code)
    {rs rs' : List Report} (same : rs'.map Report.fault = rs.map Report.fault) :
    List.Forall₂ Heard.Coincides (spread rs s.run.1) (spread rs' t.run.1) := by
  cases hs : s.step with
  | none =>
    have done := step_eq_none.1 hs
    cases h with
    | ahead inside line =>
      rw [done] at line
      cases line
    | level =>
      have none : s.withReturns.step = none := by
        rw [step_eq_none, Scanner.withReturns, done]
        rfl
      rw [run_of_none hs, run_of_none none]
      exact spread_coincides (.refl ⟨[], s.finish⟩) (fun _ => .nil) same
  | some p =>
    obtain ⟨u, made⟩ := p
    have _ := distance_step hs
    rw [run_of_some hs, List.forall_mem_cons] at closed
    obtain ⟨t', v, made', passed, next, beside, alike⟩ := abreast_step h plain hs closed.1
    have run : spread rs' t.run.1 = spread rs' t'.run.1 := by
      rcases passed with rfl | passed
      · rfl
      · rw [run_of_some passed, spread, List.append_nil]
    have plain' : Byte.carriageReturn ∉ u.rest := fun there =>
      plain ((passes_step hs).suffix.subset there)
    rw [run, run_of_some hs, run_of_some next]
    exact spread_coincides alike (fun same => coincides_run beside plain' closed.2 same) same
termination_by s.distance

theorem text_subset (source : Bytes) : text source ⊆ source := by
  unfold text
  split
  · exact List.drop_subset _ source
  · exact fun _ h => h

theorem marked_withReturns (source : Bytes) :
    (withReturns source).startsWith byteOrderMark = source.startsWith byteOrderMark := by
  rw [Bytes.startsWith, Bytes.startsWith, Bool.eq_iff_iff, List.isPrefixOf_iff_prefix,
    List.isPrefixOf_iff_prefix, prefix_withReturns (by decide) (by decide)]

theorem text_withReturns (source : Bytes) :
    text (withReturns source) = withReturns (text source) := by
  unfold text
  rw [marked_withReturns]
  split
  · next marked =>
    obtain ⟨rest, rfl⟩ := List.isPrefixOf_iff_prefix.1 marked
    rw [withReturns_line (by decide), List.drop_left, List.drop_left]
  · rfl

theorem encoding_withReturns {s : Bytes} (plain : Byte.carriageReturn ∉ s) (file n : Nat) :
    (encoding file (withReturns s) n).map Report.fault = (encoding file s n).map Report.fault := by
  have same := Utf8.malformed?_withReturns plain (show Byte.lineFeed ∉ s.take 0 by simp)
    (rfl : Utf8.Malformed.lineColumn ⟨n, 1, 1⟩ = Utf8.Malformed.lineColumn ⟨n, 1, 1⟩)
  unfold encoding Utf8.malformed?
  cases there : Utf8.malformed?.go 0 (withReturns s) ⟨n, 1, 1⟩ with
  | none =>
    rw [there] at same
    rw [Option.map_eq_none_iff.1 same.symm]
  | some place =>
    rw [there] at same
    obtain ⟨place', here, alike⟩ := Option.map_eq_some_iff.1 same.symm
    obtain ⟨line, column⟩ := Prod.mk.inj alike
    rw [here]
    simp only [List.map_cons, List.map_nil, Report.fault, Report.fill, line, column]

theorem reports_coincide {xs ys : List Heard} (h : List.Forall₂ Heard.Coincides xs ys) :
    (ys.flatMap (·.reports)).map Report.fault = (xs.flatMap (·.reports)).map Report.fault := by
  induction h with
  | nil => rfl
  | cons first _ ih =>
    rw [List.flatMap_cons, List.flatMap_cons, List.map_append, List.map_append, ih, first.reports]

/-- Line endings do not matter: with a carriage return before every line feed a text has the same
tokens, which begin at the same places, but for the columns of the ends of lines, and the same
faults in the same order before each of them. -/
theorem ofSource_withReturns (file : Nat) (source : Bytes)
    (plain : Byte.carriageReturn ∉ source)
    (closed : ∀ r ∈ (ofSource file source).reports, r.code ≠ Fault.unclosedText.code) :
    List.Forall₂ Heard.Coincides (ofSource file source).tokens
        (ofSource file (withReturns source)).tokens ∧
      (ofSource file (withReturns source)).reports.map Report.fault =
        (ofSource file source).reports.map Report.fault := by
  have each : List.Forall₂ Heard.Coincides (ofSource file source).tokens
      (ofSource file (withReturns source)).tokens := by
    have plain' : Byte.carriageReturn ∉ text source := fun there => plain (text_subset source there)
    have closed' : ∀ b ∈ (start file source).run.1, ∀ r ∈ b.reports,
        r.code ≠ Fault.unclosedText.code := by
      intro b hb r hr
      refine closed r ?_
      rw [reports, tokens_ofSource, reports_spread_run]
      exact List.mem_append_right _ (List.mem_flatMap.2 ⟨b, hb, hr⟩)
    have beside : (start file source).Abreast (start file (withReturns source)) := by
      have same : start file (withReturns source) = (start file source).withReturns := by
        rw [start, text_withReturns]
        rfl
      exact same ▸ .level
    rw [tokens_ofSource, tokens_ofSource, marked_withReturns, text_withReturns]
    exact coincides_run beside plain' closed' (encoding_withReturns plain' file _)
  exact ⟨each, reports_coincide each⟩

theorem ofSource_withReturns_faulty :
    let source : Bytes := "do: note: a \n\tset é to \"b\"\n  add @\n\n"
    Byte.carriageReturn ∉ source ∧
      (∀ r ∈ (ofSource 1 source).reports, r.code ≠ Fault.unclosedText.code) ∧
      (ofSource 1 source).reports.length = 4 ∧
      List.Forall₂ Heard.Coincides (ofSource 1 source).tokens
        (ofSource 1 (withReturns source)).tokens ∧
      (ofSource 1 (withReturns source)).reports.map Report.fault =
        (ofSource 1 source).reports.map Report.fault := by
  intro source
  have plain : Byte.carriageReturn ∉ source := by decide +kernel
  have closed : ∀ r ∈ (ofSource 1 source).reports, r.code ≠ Fault.unclosedText.code := by
    decide +kernel
  exact ⟨plain, closed, by decide +kernel, ofSource_withReturns 1 source plain closed⟩

end TokenStream

end StepsLang
