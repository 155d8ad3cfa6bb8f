import StepsLang.Proofs.Token.Layout

/-! The tokens of a text that is put together from two.  Lines that end are read as if nothing
followed them, and what follows is read as if it stood alone, but for the lines before it and for
the blocks that are open where it begins: these end at its first line. -/

namespace StepsLang

def Location.down (k : Nat) (l : Location) : Location :=
  { l with line := l.line + k, endLine := l.endLine + k }

def Token.relocate (f : Location → Location) (t : Token) : Token :=
  { t with location := f t.location }

structure WholeLines (x : Bytes) : Prop where
  ends : ∀ b ∈ x.getLast?, b = Byte.lineFeed
  plain : NoComment x

theorem WholeLines.drop {x : Bytes} (h : WholeLines x) (n : Nat) : WholeLines (x.drop n) := by
  refine ⟨fun b hb => ?_, h.plain.drop n⟩
  rw [List.getLast?_drop] at hb
  split at hb
  · cases hb
  · exact h.ends b hb

theorem WholeLines.mem {x : Bytes} (h : WholeLines x) (some : x ≠ []) : Byte.lineFeed ∈ x := by
  have last := List.getLast_mem some
  rwa [h.ends _ (List.getLast?_eq_some_getLast some)] at last

/-- A text whose next line is the same whether or not `more` follows. -/
def Apart (x more : Bytes) : Prop := more = [] ∨ x ≠ [] ∧ WholeLines x

namespace Apart

variable {x more : Bytes}

theorem takeWhile {p : UInt8 → Bool} (h : Apart x more)
    (hp : p Byte.lineFeed = false) : (x ++ more).takeWhile p = x.takeWhile p := by
  obtain rfl | ⟨filled, whole⟩ := h
  · rw [List.append_nil]
  · obtain ⟨u, v, rfl, -⟩ := List.eq_append_cons_of_mem (whole.mem filled)
    rw [List.append_assoc, List.cons_append, Bytes.takeWhile_ends hp (lineEnd_cons _),
      Bytes.takeWhile_ends hp (lineEnd_cons _)]

theorem read {b : UInt8} {rest : Bytes} (h : Apart (b :: rest) more) (hb : b ≠ Byte.lineFeed) :
    Lexeme.read b (rest ++ more) = Lexeme.read b rest := by
  obtain rfl | ⟨filled, whole⟩ := h
  · rw [List.append_nil]
  · obtain ⟨u, v, e, line⟩ := List.eq_append_cons_of_mem (whole.mem filled)
    obtain _ | ⟨c, u⟩ := u
    · exact absurd (List.cons.inj e).1 hb
    · rw [List.cons_append, List.cons.injEq] at e
      obtain ⟨rfl, rfl⟩ := e
      rw [List.mem_cons, not_or] at line
      have comment : Word.standsAt Word.blockCommentStart (b :: u) = false := by
        rw [← Word.standsAt_ends (by decide) (lineEnd_cons v)]
        exact whole.plain.standsAt
      rw [List.append_assoc, List.cons_append, Lexeme.read_ends b u line.2 (lineEnd_cons _) comment,
        Lexeme.read_ends b u line.2 (lineEnd_cons _) comment]

theorem standsAt {w : Bytes} (h : Apart x more) (hw : Byte.lineFeed ∉ w) :
    Word.standsAt w (x ++ more) = Word.standsAt w x := by
  obtain rfl | ⟨filled, whole⟩ := h
  · rw [List.append_nil]
  · obtain ⟨u, v, rfl, -⟩ := List.eq_append_cons_of_mem (whole.mem filled)
    rw [List.append_assoc, List.cons_append, Word.standsAt_ends hw (lineEnd_cons _),
      Word.standsAt_ends hw (lineEnd_cons _)]

theorem length_line (h : Apart x more) :
    more = [] ∨ (x.takeWhile (· != Byte.lineFeed)).length + 1 ≤ x.length := by
  refine h.imp_right fun apart => ?_
  obtain ⟨u, v, rfl, other⟩ := List.eq_append_cons_of_mem (apart.2.mem apart.1)
  have first : (u ++ Byte.lineFeed :: v).takeWhile (· != Byte.lineFeed) = u := by
    refine Bytes.takeWhile_append (List.all_eq_true.2 fun b hb => ?_) (Bytes.head_cons rfl v)
    simpa using fun same : b = Byte.lineFeed => other (same ▸ hb)
  rw [first, List.length_append, List.length_cons]
  omega

theorem atLineEnd (h : Apart x more) :
    Scanner.atLineEnd (x ++ more) = Scanner.atLineEnd x := by
  obtain rfl | ⟨filled, whole⟩ := h
  · rw [List.append_nil]
  · match x, filled with
    | [b], _ =>
      obtain rfl := whole.ends b rfl
      cases more <;> rfl
    | b :: c :: x, _ => rfl

end Apart

namespace Scanner

def moved (s : Scanner) (k : Nat) (more : Bytes) : Scanner :=
  { s with rest := s.rest ++ more, line := s.line + k }

variable {k : Nat} {more : Bytes}

theorem pass_moved (s : Scanner) (b : UInt8) (rest : Bytes) :
    (s.moved k more).pass b (rest ++ more) = (s.pass b rest).moved k more := by
  unfold pass moved
  split
  · simp only [Nat.add_right_comm]
  · split <;> rfl

theorem skip_moved {n : Nat} {s : Scanner} (h : more = [] ∨ n ≤ s.rest.length) :
    (s.moved k more).skip n = (s.skip n).moved k more := by
  induction n generalizing s with
  | zero => rfl
  | succ n ih =>
    cases e : s.rest with
    | nil =>
      rw [e] at h
      obtain rfl : more = [] := h.resolve_right (by simp)
      simp [skip, e, moved]
    | cons b rest =>
      have there : (s.moved k more).rest = b :: (rest ++ more) := by rw [moved, e, List.cons_append]
      have passed : (s.pass b rest).rest = rest := by simpa [skip, e] using skip_rest 1 s
      simp only [skip, e, there]
      rw [pass_moved, ih (h.imp_right fun h => ?_)]
      rw [e, List.length_cons] at h
      rw [passed]
      omega

theorem token_moved (s : Scanner) (l : Location) (x : Kind) (text : Bytes) :
    (s.moved k more).token { l with line := l.line + k } x text =
      (s.token l x text).relocate (Location.down k) := rfl

theorem indentation_moved {s : Scanner} (h : Apart s.rest more) :
    (s.moved k more).indentation = s.indentation := h.takeWhile rfl

theorem indented_moved {s : Scanner} (h : Apart s.rest more) :
    (s.moved k more).indented = s.indented.moved k more := by
  rw [indented, indentation_moved h]
  exact skip_moved (s := { s with fresh := false }) (.inr (List.takeWhile_prefix _).length_le)

theorem skipLine_moved {s : Scanner} (h : Apart s.rest more) :
    (s.moved k more).skipLine = s.skipLine.moved k more := by
  have line : (s.rest ++ more).takeWhile (· != Byte.lineFeed) =
      s.rest.takeWhile (· != Byte.lineFeed) := h.takeWhile rfl
  have there : (s.moved k more).rest = s.rest ++ more := rfl
  rw [skipLine, skipLine, there, line]
  exact skip_moved h.length_line

theorem apart_indented {s : Scanner} (h : Apart s.rest more) : Apart s.indented.rest more := by
  refine h.imp_right fun apart => ⟨fun none => ?_, by simpa using apart.2.drop _⟩
  rw [indented_rest, List.drop_eq_nil_iff] at none
  have all : s.indentation = s.rest := (List.takeWhile_prefix _).eq_of_length_le none
  have blank := List.mem_takeWhile_imp
    (all ▸ apart.2.mem apart.1 : Byte.lineFeed ∈ s.indentation)
  contradiction

theorem tabFaults_moved {s : Scanner} (h : Apart s.rest more)
    (quiet : s.tabFaults = []) : (s.moved k more).tabFaults = [] := by
  unfold tabFaults at quiet ⊢
  rw [indentation_moved h]
  split at quiet
  · cases quiet
  · rfl

theorem openLevel_quiet {s : Scanner} {here : Location} {found : Nat}
    (quiet : (s.openLevel here found).2.reports = []) : found % 4 = 0 ∧ found ≤ s.level + 4 := by
  simp only [openLevel] at quiet
  split at quiet
  all_goals
    rw [List.append_eq_nil_iff] at quiet
    obtain ⟨odd, jump⟩ := quiet
    split at odd
    · next even =>
      split at jump
      · cases jump
      · next next =>
        rw [eq_of_beq even, Nat.sub_zero] at next
        exact ⟨eq_of_beq even, Nat.le_of_not_lt next⟩
    · cases odd

theorem openLevel_eq {s : Scanner} {found : Nat} (here : Location) (even : found % 4 = 0)
    (next : found ≤ s.level + 4) : s.openLevel here found =
      if s.level < found then
        ({ s with levels := (s.level + 4) :: s.levels, last := .indent },
          ⟨[], [s.token here .indent]⟩)
      else (s, ⟨[], []⟩) := by
  simp only [openLevel, even, Nat.sub_zero, beq_self_eq_true, if_true, if_neg (Nat.not_lt.2 next),
    List.append_nil]

theorem closeLevels_quiet {s : Scanner} {here : Location} {found : Nat}
    (quiet : (s.closeLevels here found).2.reports = []) :
    (s.levels.dropWhile (found < ·)).headD 0 = found := by
  simp only [closeLevels] at quiet
  split at quiet
  · next same => exact eq_of_beq same
  · cases quiet

theorem closeLevels_eq {s : Scanner} {found : Nat} (here : Location)
    (level : (s.levels.dropWhile (found < ·)).headD 0 = found) : s.closeLevels here found =
      ({ s with levels := s.levels.dropWhile (found < ·) }.remember
          (List.replicate (s.levels.length - (s.levels.dropWhile (found < ·)).length)
            (s.token here .dedent)),
        ⟨[], List.replicate (s.levels.length - (s.levels.dropWhile (found < ·)).length)
          (s.token here .dedent)⟩) := by
  simp only [closeLevels, level, beq_self_eq_true, if_true]

theorem relevel_moved {s : Scanner} {here : Location} {found : Nat}
    (quiet : (s.relevel here found).2.reports = []) :
    (s.moved k more).relevel { here with line := here.line + k } found =
      ((s.relevel here found).1.moved k more,
        ⟨[], (s.relevel here found).2.tokens.map (Token.relocate (Location.down k))⟩) := by
  have level : (s.moved k more).level = s.level := rfl
  unfold relevel at quiet ⊢
  rw [level]
  split
  · next wider =>
    rw [if_pos wider] at quiet
    obtain ⟨even, next⟩ := openLevel_quiet quiet
    rw [openLevel_eq _ even next, openLevel_eq _ even (by rwa [level]), level, if_pos wider,
      if_pos wider]
    rfl
  · next within =>
    rw [if_neg within] at quiet
    have width := closeLevels_quiet quiet
    rw [closeLevels_eq _ width, closeLevels_eq (s := s.moved k more) _ width]
    simp only [remember_replicate, List.map_replicate, token_moved]
    rfl

theorem startLine_moved {s : Scanner} (h : Apart s.rest more) (plain : NoComment s.rest)
    (quiet : s.startLine.2.reports = []) :
    (s.moved k more).startLine = (s.startLine.1.moved k more,
      ⟨[], s.startLine.2.tokens.map (Token.relocate (Location.down k))⟩) := by
  have behind := indented_moved (k := k) h
  have rest : (s.moved k more).indented.rest = s.indented.rest ++ more := by rw [behind, moved]
  have apart := apart_indented h
  have ends := apart.atLineEnd
  rw [← rest] at ends
  cases blank : atLineEnd s.indented.rest with
  | true =>
    rw [startLine_blank blank] at quiet ⊢
    rw [startLine_blank (ends.trans blank), tabFaults_moved h quiet, behind, skipLine_moved apart]
    rfl
  | false =>
    have comment := (plain_indented plain).standsAt
    have comment' :
        Word.standsAt Word.blockCommentStart (s.moved k more).indented.rest = false := by
      rw [rest, apart.standsAt (by decide), comment]
    rw [startLine_filled blank comment] at quiet ⊢
    obtain ⟨tabs, width⟩ := List.append_eq_nil_iff.1 quiet
    have leveled : (s.moved k more).leveled = (s.leveled.1.moved k more,
        ⟨[], s.leveled.2.tokens.map (Token.relocate (Location.down k))⟩) := by
      rw [Scanner.leveled, behind, indentation_moved h]
      exact relevel_moved width
    rw [startLine_filled (ends.trans blank) comment', tabFaults_moved h tabs, leveled,
      List.append_nil]

theorem reports_lexeme (s : Scanner) (b : UInt8) (rest : Bytes) :
    (s.lexeme b rest).2.reports =
      (Lexeme.read b rest).flaws.map fun (n, flaw) => flaw.report (s.skip n).location := by
  unfold lexeme
  dsimp only
  split
  · rfl
  · split <;> rfl

theorem lexeme_moved {s : Scanner} {b : UInt8} {rest : Bytes} (h : Apart s.rest more)
    (hs : s.rest = b :: rest) (plain : NoComment s.rest)
    (quiet : (s.lexeme b rest).2.reports = []) :
    (s.moved k more).lexeme b (rest ++ more) = ((s.lexeme b rest).1.moved k more,
      ⟨[], (s.lexeme b rest).2.tokens.map (Token.relocate (Location.down k))⟩) := by
  have same : Lexeme.read b (rest ++ more) = Lexeme.read b rest := by
    by_cases hb : b = Byte.lineFeed
    · rw [hb]
      rfl
    · exact (hs ▸ h).read hb
  have skipped : (s.moved k more).skip (Lexeme.read b rest).length =
      (s.skip (Lexeme.read b rest).length).moved k more := by
    refine skip_moved (.inr ?_)
    rw [hs] at plain ⊢
    exact Lexeme.length_read_le b rest plain.standsAt
  have flaws : (Lexeme.read b rest).flaws = [] := by
    rwa [reports_lexeme, List.map_eq_nil_iff] at quiet
  have last : (s.moved k more).last = s.last := rfl
  unfold lexeme
  simp only [same, skipped, flaws, List.map_nil, last]
  split
  · rfl
  · split <;> rfl

theorem step_moved {s t : Scanner} {ts : List Token} (h : Apart s.rest more)
    (plain : NoComment s.rest) (hs : s.step = some (t, ⟨[], ts⟩)) :
    (s.moved k more).step =
      some (t.moved k more, ⟨[], ts.map (Token.relocate (Location.down k))⟩) := by
  obtain ⟨fresh, made⟩ | ⟨inside, c, rest, e, made⟩ := step_cases hs
  · have filled : (s.moved k more).rest ≠ [] :=
      List.append_ne_nil_of_left_ne_nil (rest_of_step hs) more
    rw [step_start (s := s.moved k more) fresh filled, startLine_moved h plain (by rw [made]), made]
  · have there : (s.moved k more).rest = c :: (rest ++ more) := by
      rw [moved, e, List.cons_append]
    rw [step_within (s := s.moved k more) inside there, lexeme_moved h e plain (by rw [made]), made]

theorem skip_add (m n : Nat) (s : Scanner) : s.skip (m + n) = (s.skip m).skip n := by
  induction m generalizing s with
  | zero => rw [Nat.zero_add, skip]
  | succ m ih =>
    rw [Nat.add_right_comm]
    simp only [skip]
    split
    · next none =>
      cases n with
      | zero => rfl
      | succ n => simp [skip, none]
    · exact ih _

theorem relevel_kept (s : Scanner) (here : Location) (found : Nat) :
    ∃ levels last, (s.relevel here found).1 = { s with levels, last } := by
  unfold relevel
  split
  · simp only [openLevel]
    split
    · exact ⟨_, _, rfl⟩
    · exact ⟨_, _, rfl⟩
  · simp only [closeLevels, remember]
    split
    · exact ⟨_, _, rfl⟩
    · exact ⟨_, _, rfl⟩

theorem step_skip {s t : Scanner} {b : Batch} (plain : NoComment s.rest)
    (hs : s.step = some (t, b)) :
    ∃ n fresh levels last, t = { skip n { s with fresh } with levels, last } := by
  obtain ⟨-, made⟩ | ⟨-, c, rest, -, made⟩ := step_cases hs
  · have made := congrArg Prod.fst made
    cases blank : atLineEnd s.indented.rest with
    | true =>
      rw [startLine_blank blank] at made
      refine ⟨s.indentation.length +
        ((s.indented.rest.takeWhile (· != Byte.lineFeed)).length + 1),
        false, t.levels, t.last, ?_⟩
      rw [skip_add, ← show s.indented.skipLine = t from made]
      rfl
    | false =>
      have comment := (plain_indented plain).standsAt
      rw [startLine_filled blank comment] at made
      obtain ⟨levels, last, kept⟩ := relevel_kept s.indented { s.location with column := 1 }
        (s.indentation.foldl (fun n b => n + width b) 0)
      exact ⟨_, _, levels, last, made.symm.trans kept⟩
  · have made := congrArg Prod.fst made
    unfold lexeme at made
    dsimp only at made
    split at made
    · exact ⟨_, s.fresh, _, _, made.symm⟩
    · split at made
      · exact ⟨_, s.fresh, _, _, made.symm⟩
      · exact ⟨_, s.fresh, _, _, made.symm⟩

theorem step_rest {s t : Scanner} {b : Batch} (plain : NoComment s.rest)
    (hs : s.step = some (t, b)) : ∃ n, t.rest = s.rest.drop n := by
  obtain ⟨n, fresh, levels, last, rfl⟩ := step_skip plain hs
  exact ⟨n, by simp⟩

theorem reaches_moved (more : Bytes) {s t : Scanner} {ts : List Token} (h : Reaches s ts t)
    (apart : more = [] ∨ WholeLines s.rest) (plain : NoComment s.rest) :
    Reaches (s.moved k more) (ts.map (Token.relocate (Location.down k))) (t.moved k more) := by
  induction h with
  | refl s => exact .refl _
  | step first _ ih =>
    obtain ⟨n, rest⟩ := step_rest plain first
    rw [List.map_append]
    refine .step (step_moved (apart.imp_right fun whole => ⟨rest_of_step first, whole⟩) plain first)
      (ih (apart.imp_right fun whole => rest ▸ whole.drop n) (rest ▸ plain.drop n))

theorem skip_nil {s : Scanner} (none : s.rest = []) (n : Nat) : s.skip n = s := by
  cases n with
  | zero => rfl
  | succ n => simp [skip, none]

theorem pass_rest (s : Scanner) (b : UInt8) (rest : Bytes) : (s.pass b rest).rest = rest := by
  unfold pass
  split
  · rfl
  · split <;> rfl

theorem skip_end {n : Nat} {s : Scanner} (filled : s.rest ≠ [])
    (ends : ∀ b ∈ s.rest.getLast?, b = Byte.lineFeed) (done : (s.skip n).rest = []) :
    (s.skip n).fresh = true ∧ (s.skip n).column = 1 := by
  induction n generalizing s with
  | zero => exact absurd done filled
  | succ n ih =>
    cases e : s.rest with
    | nil => exact absurd e filled
    | cons b rest =>
      rw [e] at ends
      simp only [skip, e] at done ⊢
      cases rest with
      | nil =>
        obtain rfl := ends b rfl
        rw [skip_nil (pass_rest s _ _)]
        exact ⟨rfl, rfl⟩
      | cons c rest =>
        refine ih ?_ ?_ done
        · rw [pass_rest]
          exact List.cons_ne_nil _ _
        · rw [pass_rest]
          rwa [List.getLast?_cons_cons] at ends

theorem skip_line (n : Nat) (s : Scanner) :
    (s.skip n).line + (s.skip n).rest.count Byte.lineFeed =
      s.line + s.rest.count Byte.lineFeed := by
  induction n generalizing s with
  | zero => rfl
  | succ n ih =>
    cases e : s.rest with
    | nil => simp [skip, e]
    | cons b rest =>
      have passed : (s.pass b rest).line = s.line + if b = Byte.lineFeed then 1 else 0 := by
        by_cases hb : b = Byte.lineFeed
        · simp [pass, hb]
        · simp only [pass, beq_iff_eq, hb, if_false]
          split <;> rfl
      simp only [skip, e]
      rw [ih, pass_rest, passed, List.count_cons]
      simp only [beq_iff_eq]
      omega

def behind (file line d : Nat) (rest : Bytes) : Scanner :=
  { file, rest, line, levels := levelsAt d }

theorem finish_behind (file line d : Nat) :
    ∃ a e : Token, (behind file line d []).finish = List.replicate d a ++ [e] ∧
      a.kind = .dedent ∧ e.kind = .endOfFile := by
  refine ⟨(behind file line d []).token (behind file line d []).location .dedent,
    (behind file line d []).token (behind file line d []).location .endOfFile, ?_, rfl, rfl⟩
  simp [finish, behind]

/-- Behind whole lines the scanner stands at the start of the next one. -/
theorem reaches_behind {s t : Scanner} {ts : List Token} (h : Reaches s ts t) (laid : s.Laid)
    (whole : WholeLines s.rest) (done : t.rest = [])
    (begins : s.rest = [] → s.fresh = true ∧ s.column = 1) :
    ∃ d, t = behind s.file (s.line + s.rest.count Byte.lineFeed) d [] := by
  induction h with
  | refl s =>
    obtain ⟨d, levels⟩ := laid.levels
    obtain ⟨fresh, column⟩ := begins done
    have last := laid.fresh fresh
    obtain ⟨file, rest, line, column', fresh', levels', last'⟩ := s
    cases done
    cases levels
    cases fresh
    cases column
    cases last
    exact ⟨d, rfl⟩
  | @step s t u made ts first _ ih =>
    obtain ⟨n, fresh, levels, last, same⟩ := step_skip laid.plain first
    have filled := rest_of_step first
    have rest : t.rest = s.rest.drop n := by simp [same]
    have line : t.line + t.rest.count Byte.lineFeed = s.line + s.rest.count Byte.lineFeed := by
      rw [same]
      exact skip_line n { s with fresh }
    have file : t.file = s.file := by simp [same]
    have ends : t.rest = [] → t.fresh = true ∧ t.column = 1 := by
      rw [same]
      exact skip_end (s := { s with fresh }) filled whole.ends
    obtain ⟨d, last⟩ := ih (laid_step laid first).1 (rest ▸ whole.drop n) done ends
    exact ⟨d, by rw [last, line, file]⟩

def afterKind (s : Scanner) (k : Kind) : Scanner := { s with last := k }

theorem pass_afterKind (s : Scanner) (k : Kind) (b : UInt8) (rest : Bytes) :
    (s.afterKind k).pass b rest = (s.pass b rest).afterKind k := by
  unfold pass afterKind
  split
  · rfl
  · split <;> rfl

theorem skip_afterKind (n : Nat) (s : Scanner) (k : Kind) :
    (s.afterKind k).skip n = (s.skip n).afterKind k := by
  induction n generalizing s with
  | zero => rfl
  | succ n ih =>
    cases e : s.rest with
    | nil => simp only [skip, afterKind, e]
    | cons b rest =>
      have there : (s.afterKind k).rest = b :: rest := e
      simp only [skip, e, there]
      rw [pass_afterKind, ih]

/-- Two scanners inside a line that differ in the token made last, which was the end of a line for
one and the end of a block for the other.  The other makes a token of the next end of line if
nothing else comes before it. -/
theorem reaches_closed {s t : Scanner} {ts : List Token} (h : Reaches s ts t)
    (last : s.last = .newline) (inside : s.fresh = false) (plain : NoComment s.rest)
    (done : t.rest = []) :
    ∃ nl u, Reaches (s.afterKind .dedent) (nl ++ ts) u ∧ u.rest = [] ∧
      u.finish = t.finish ∧ (nl = [] ∨ ∃ x, nl = [x] ∧ x.kind = .newline) := by
  induction h with
  | refl s =>
    refine ⟨[], _, .refl _, done, ?_, .inl rfl⟩
    simp only [finish, last, token]
    rfl
  | @step s t u made ts first more ih =>
    obtain ⟨b, rest, e⟩ := List.exists_cons_of_ne_nil (rest_of_step first)
    have other : (s.afterKind .dedent).step = some ((s.afterKind .dedent).lexeme b rest) :=
      step_within inside e
    rw [step_within inside e] at first
    have first := Option.some.inj first
    have flaws : (Lexeme.read b rest).flaws = [] := by
      have quiet := reports_lexeme s b rest
      rw [first] at quiet
      exact List.map_eq_nil_iff.1 quiet.symm
    have here : (s.afterKind .dedent).last = .dedent := rfl
    unfold lexeme at first other
    simp only [flaws, List.map_nil, skip_afterKind, here, last] at first other
    cases kind : (Lexeme.read b rest).kind with
    | none =>
      rw [kind] at first other
      cases first
      have hb : b ≠ Byte.lineFeed := by
        rintro rfl
        cases kind
      obtain ⟨nl, v, reach, rest⟩ := ih (by simpa using last)
        ((skip_read_fresh e plain hb).trans inside) (by simpa using plain.drop _) done
      have all := Reaches.step other reach
      exact ⟨nl, v, all, rest⟩
    | some k =>
      simp only [kind] at first other
      by_cases again : k = .newline
      · subst again
        rw [if_pos (by decide)] at first
        rw [if_neg (by decide)] at other
        cases first
        refine ⟨[_], u, .step other ?_, done, rfl, .inr ⟨_, rfl, rfl⟩⟩
        have same : (s.skip (Lexeme.read b rest).length).last = .newline := by simpa using last
        simp only [afterKind, ← same]
        exact more
      · rw [if_neg (by simp [again])] at first other
        cases first
        have all := Reaches.step other more
        exact ⟨[], u, all, done, rfl, .inl rfl⟩

theorem skipLine_fresh (s : Scanner) : s.skipLine.fresh = true ∨ s.skipLine.rest = [] := by
  have whole := List.takeWhile_append_dropWhile (l := s.rest) (p := (· != Byte.lineFeed))
  have line := @List.drop_left _ (s.rest.takeWhile (· != Byte.lineFeed))
    (s.rest.dropWhile (· != Byte.lineFeed))
  rw [whole, ← skip_rest] at line
  rw [skipLine, skip_add]
  cases e : s.rest.dropWhile (· != Byte.lineFeed) with
  | nil => exact .inr (by rw [skip_rest, line, e]; rfl)
  | cons b v =>
    have stop := List.head?_dropWhile_not (· != Byte.lineFeed) s.rest
    rw [e] at stop line
    obtain rfl : b = Byte.lineFeed := by simpa using stop
    refine .inl ?_
    simp only [skip, line]
    rfl

def deep (s : Scanner) (d : Nat) : Scanner := { s with levels := levelsAt d }

theorem skip_deep (n d : Nat) (s : Scanner) : (s.deep d).skip n = (s.skip n).deep d := by
  induction n generalizing s with
  | zero => rfl
  | succ n ih =>
    cases e : s.rest with
    | nil => simp only [skip, deep, e]
    | cons b rest =>
      have there : (s.deep d).rest = b :: rest := e
      have passed : (s.deep d).pass b rest = (s.pass b rest).deep d := by
        unfold pass deep
        split
        · rfl
        · split <;> rfl
      simp only [skip, e, there]
      rw [passed, ih]

theorem indented_deep (s : Scanner) (d : Nat) : (s.deep d).indented = s.indented.deep d :=
  skip_deep _ d { s with fresh := false }

theorem skipLine_deep (s : Scanner) (d : Nat) : (s.deep d).skipLine = s.skipLine.deep d :=
  skip_deep _ d s

theorem tabFaults_deep {s : Scanner} (d : Nat) (quiet : s.tabFaults = []) :
    (s.deep d).tabFaults = [] := by
  have same : (s.deep d).indentation = s.indentation := rfl
  unfold tabFaults at quiet ⊢
  rw [same]
  split at quiet
  · cases quiet
  · rfl

def indentWidth (s : Scanner) : Nat := s.indentation.foldl (fun n b => n + width b) 0

theorem leveled_margin {s : Scanner} {d : Nat} (levels : s.levels = levelsAt d)
    (none : s.indentWidth = 0) : ∃ x : Token, x.kind = .dedent ∧
      s.leveled = ((s.indented.deep 0).remember (List.replicate d x),
        ⟨[], List.replicate d x⟩) := by
  have kept : (levelsAt d).dropWhile (0 < ·) = levelsAt 0 := dropWhile_levelsAt (Nat.zero_le d)
  have width : (s.indented.levels.dropWhile (0 < ·)).headD 0 = 0 := by
    rw [indented_levels, levels, kept]
    rfl
  refine ⟨s.indented.token { s.location with column := 1 } .dedent, rfl, ?_⟩
  rw [leveled, relevel, ← indentWidth, none, if_neg (Nat.not_lt_zero _), closeLevels_eq _ width,
    indented_levels, levels, kept, length_levelsAt, length_levelsAt, Nat.add_sub_cancel]
  rfl

theorem leveled_wide {s : Scanner} (levels : s.levels = [0]) (wide : 0 < s.indentWidth)
    (quiet : s.leveled.2.reports = []) : ∃ levels last x,
      s.leveled = ({ s.indented with levels, last }, ⟨[], [x]⟩) ∧ x.kind = .indent := by
  have level : s.indented.level = 0 := by simp [level, levels]
  have wider : s.indented.level < s.indentWidth := by rwa [level]
  have opened : s.leveled = s.indented.openLevel { s.location with column := 1 } s.indentWidth :=
    if_pos wider
  rw [opened] at quiet
  obtain ⟨even, next⟩ := openLevel_quiet quiet
  rw [openLevel_eq _ even next, if_pos wider] at opened
  exact ⟨_, _, _, opened, rfl⟩

/-- Behind `d` open blocks the text makes their ends, perhaps an end of line, and then `ts`. -/
def Closes (s : Scanner) (d : Nat) (ts : List Token) : Prop :=
  ∃ x nl us u, Reaches (s.deep d) us u ∧ u.rest = [] ∧
    us ++ u.finish = List.replicate d x ++ nl ++ ts ∧ x.kind = .dedent ∧
    (nl = [] ∨ ∃ y, nl = [y] ∧ y.kind = .newline)

theorem closes_blank {s : Scanner} {d : Nat} {ts : List Token} (fresh : s.fresh = true)
    (filled : s.rest ≠ []) (blank : atLineEnd s.indented.rest = true) (tabs : s.tabFaults = [])
    (later : s.indented.skipLine.Closes d ts) : s.Closes d ts := by
  have first : (s.deep d).step = some (s.deep d).startLine := step_start fresh filled
  have blank' : atLineEnd (s.deep d).indented.rest = true := by
    rw [indented_deep]
    exact blank
  rw [startLine_blank blank', tabFaults_deep _ tabs, indented_deep, skipLine_deep] at first
  obtain ⟨x, nl, us, v, reach, same⟩ := later
  have all := Reaches.step first reach
  exact ⟨x, nl, us, v, all, same⟩

theorem closes_margin {s t : Scanner} {ts : List Token} (d : Nat) (fresh : s.fresh = true)
    (blank : atLineEnd s.indented.rest = false) (levels : s.levels = [0])
    (last : s.last = .newline) (plain : NoComment s.rest) (tabs : s.tabFaults = [])
    (none : s.indentWidth = 0) (more : Reaches s.leveled.1 ts t) (done : t.rest = []) :
    s.Closes (d + 1) (s.leveled.2.tokens ++ ts ++ t.finish) := by
  have filled : s.rest ≠ [] := by
    intro none
    rw [indented_rest, none, List.drop_nil] at blank
    cases blank
  have blank' : atLineEnd (s.deep (d + 1)).indented.rest = false := by
    rw [indented_deep]
    exact blank
  have comment : Word.standsAt Word.blockCommentStart (s.deep (d + 1)).indented.rest = false := by
    rw [indented_deep]
    exact (plain_indented plain).standsAt
  have first : (s.deep (d + 1)).step = some (s.deep (d + 1)).startLine := step_start fresh filled
  rw [startLine_filled blank' comment, tabFaults_deep _ tabs] at first
  -- The same line outside all blocks makes nothing, and leaves the scanner behind another token.
  have outside : s.indented.deep 0 = s.indented := by
    have same : s.indented.levels = levelsAt 0 := (indented_levels s).trans levels
    rw [deep, ← same]
  obtain ⟨_, _, mine⟩ := leveled_margin (d := 0) levels none
  have mine : s.leveled = (s.indented, ⟨[], []⟩) := mine.trans (by rw [outside]; rfl)
  obtain ⟨x, hx, other⟩ := leveled_margin (s := s.deep (d + 1)) rfl none
  have other : (s.deep (d + 1)).leveled =
      (s.indented.afterKind .dedent, ⟨[], List.replicate (d + 1) x⟩) := by
    rw [other, indented_deep, remember_replicate, if_neg (Nat.succ_ne_zero d), hx]
    exact congrArg (fun t => (afterKind t .dedent, _)) outside
  rw [mine] at more
  rw [other] at first
  obtain ⟨nl, u, reach, done, finish, ends⟩ := reaches_closed more (by simpa using last)
    (by simp) (plain_indented plain) done
  refine ⟨x, nl, _, u, .step first reach, done, ?_, hx, ends⟩
  simp only [mine, finish, List.append_assoc, List.nil_append]

/-- A text that begins outside all blocks, read behind lines with `d + 1` open blocks: they end at
its first line. -/
theorem closes_of_reaches (d : Nat) {s t : Scanner} {ts : List Token} (h : Reaches s ts t)
    (levels : s.levels = [0]) (last : s.last = .newline) (begins : s.fresh = true ∨ s.rest = [])
    (plain : NoComment s.rest) (done : t.rest = [])
    (first : ∀ x ∈ (ts ++ t.finish).head?, x.kind ≠ .indent) :
    s.Closes (d + 1) (ts ++ t.finish) := by
  induction h with
  | refl s =>
    refine ⟨s.token s.location .dedent, [], [], _, .refl _, done, ?_, rfl, .inl rfl⟩
    simp [finish, deep, last, levels, token, location]
  | @step s t u made ts one more ih =>
    have filled := rest_of_step one
    have fresh := begins.resolve_right filled
    rw [step_start fresh filled, Option.some.injEq] at one
    cases blank : atLineEnd s.indented.rest with
    | true =>
      rw [startLine_blank blank, Prod.mk.injEq, Batch.mk.injEq] at one
      obtain ⟨rfl, tabs, rfl⟩ := one
      exact closes_blank fresh filled blank tabs (ih (by simp [skipLine, levels])
        (by simp [skipLine, last]) (skipLine_fresh _)
        (by simpa [skipLine] using (plain_indented plain).drop _) done first)
    | false =>
      rw [startLine_filled blank (plain_indented plain).standsAt, Prod.mk.injEq, Batch.mk.injEq,
        List.append_eq_nil_iff] at one
      obtain ⟨rfl, ⟨tabs, quiet⟩, rfl⟩ := one
      rcases Nat.eq_zero_or_pos s.indentWidth with none | wide
      · exact closes_margin d fresh blank levels last plain tabs none more done
      · obtain ⟨_, _, x, leveled, indent⟩ := leveled_wide levels wide quiet
        rw [leveled] at first
        exact absurd indent (first x rfl)

theorem finish_moved (s : Scanner) (k : Nat) :
    (s.moved k []).finish = s.finish.map (Token.relocate (Location.down k)) := by
  have here : (s.moved k []).location = { s.location with line := s.location.line + k } := rfl
  have last : (s.moved k []).last = s.last := rfl
  simp only [finish, here, last, token_moved, List.map_append, List.map_replicate]
  cases s.last == .newline || s.last == .dedent || s.last == .indent <;> rfl

theorem reaches_after {file d k : Nat} {y : Bytes} {u : Scanner} {us : List Token}
    (h : Reaches { file, rest := y } us u) (plain : NoComment y) (done : u.rest = [])
    (first : ∀ x ∈ (us ++ u.finish).head?, x.kind ≠ .indent) :
    ∃ x nl vs v, Reaches (behind file (1 + k) d y) vs v ∧ v.rest = [] ∧
      vs ++ v.finish = List.replicate d x ++ nl ++
        (us ++ u.finish).map (Token.relocate (Location.down k)) ∧
      x.kind = .dedent ∧ (nl = [] ∨ 0 < d ∧ ∃ n : Token, nl = [n] ∧ n.kind = .newline) := by
  have there : ({ file, rest := y } : Scanner).moved k [] = behind file (1 + k) 0 y := by
    rw [moved, List.append_nil]
    rfl
  have moved := reaches_moved (k := k) [] h (.inl rfl) plain
  rw [there] at moved
  have done : (u.moved k []).rest = [] := by rw [Scanner.moved, done, List.append_nil]
  have tokens : us.map (Token.relocate (Location.down k)) ++ (u.moved k []).finish =
      (us ++ u.finish).map (Token.relocate (Location.down k)) := by
    rw [finish_moved, List.map_append]
  cases d with
  | zero =>
    exact ⟨{ kind := .dedent }, [], _, _, moved, done, tokens, rfl, .inl rfl⟩
  | succ d =>
    obtain ⟨x, nl, vs, v, reach, done, same, hx, ends⟩ := closes_of_reaches d moved rfl rfl
      (.inl rfl) plain done (by
        rw [tokens]
        intro z hz
        rw [List.head?_map, Option.mem_def, Option.map_eq_some_iff] at hz
        obtain ⟨z, hz, rfl⟩ := hz
        exact first z hz)
    exact ⟨x, nl, vs, v, reach, done, same.trans (by rw [tokens]), hx,
      ends.imp_right fun one => ⟨Nat.succ_pos d, one⟩⟩

end Scanner

namespace TokenStream
open Scanner

theorem encoding_eq_nil {file start : Nat} {s : Bytes} :
    encoding file s start = [] ↔ Utf8.WellFormed s := by
  refine ⟨fun h => ?_, fun h => by rw [encoding, h.malformed?]⟩
  unfold encoding at h
  split at h
  · next valid => exact Utf8.wellFormed_of_go valid
  · cases h

theorem reaches_of_silent (s : Scanner) {first : List Report}
    (h : (spread first s.run.1).flatMap (·.reports) = []) :
    first = [] ∧ ∃ ts t, Reaches s ts t ∧ t.rest = [] := by
  cases hs : s.step with
  | none =>
    obtain ⟨t, ts, made⟩ : ∃ t ts, s.finish = t :: ts :=
      List.exists_cons_of_ne_nil (by simp [finish])
    rw [run_of_none hs] at h
    simp only [spread, made, List.flatMap_cons, List.append_nil] at h
    exact ⟨(List.append_eq_nil_iff.1 h).1, [], s, .refl s, step_eq_none.1 hs⟩
  | some p =>
    obtain ⟨t, b⟩ := p
    have _ := distance_step hs
    rw [run_of_some hs, spread] at h
    obtain ⟨reports, made⟩ := b
    dsimp only at h hs
    split at h
    · obtain ⟨silent, ts, u, reach, done⟩ := reaches_of_silent t h
      obtain ⟨rfl, rfl⟩ := List.append_eq_nil_iff.1 silent
      exact ⟨rfl, _, u, .step hs reach, done⟩
    · simp only [List.flatMap_cons, List.flatMap_append, List.append_eq_nil_iff] at h
      obtain ⟨⟨rfl, rfl⟩, -, rest⟩ := h
      obtain ⟨-, ts, u, reach, done⟩ := reaches_of_silent t rest
      exact ⟨rfl, _, u, .step hs reach, done⟩
termination_by s.distance

/-- The tokens of a text in which the scanner finds nothing wrong. -/
structure Made (file : Nat) (source : Bytes) (ts : List Token) (t : Scanner) : Prop where
  reach : Reaches (start file source) ts t
  done : t.rest = []
  encoded : Utf8.WellFormed (text source)

theorem made_of_silent {file : Nat} {source : Bytes} (h : (ofSource file source).reports = []) :
    ∃ ts t, Made file source ts t := by
  obtain ⟨encoded, ts, t, reach, done⟩ := reaches_of_silent (start file source) h
  exact ⟨ts, t, reach, done, encoding_eq_nil.1 encoded⟩

theorem Made.tokens {file : Nat} {source : Bytes} {ts : List Token} {t : Scanner}
    (h : Made file source ts t) : (ofSource file source).tokens = quiet (ts ++ t.finish) := by
  have encoded : encoding file (text source)
      (if source.startsWith byteOrderMark then byteOrderMark.length else 0) = [] :=
    encoding_eq_nil.2 h.encoded
  exact (congrArg (spread · _) encoded).trans (spread_run h.reach h.done)

/-- A text put together from two that have nothing wrong with them: the tokens of the first, the
ends of the blocks that it leaves open, and the tokens of the second. -/
theorem ofSource_append {file : Nat} {x y : Bytes} (hx : WholeLines (text x))
    (hy : NoComment (text y))
    (both : text (x ++ y) = text x ++ text y) (sx : (ofSource file x).reports = [])
    (sy : (ofSource file y).reports = [])
    (first : ∀ h ∈ (ofSource file y).tokens.head?, h.token.kind ≠ .indent) :
    ∃ ts d a b e nl ws, (ofSource file x).tokens = quiet (ts ++ List.replicate d a ++ [e]) ∧
      (ofSource file y).tokens = quiet ws ∧
      (ofSource file (x ++ y)).tokens = quiet (ts ++ (List.replicate d b ++ nl ++
        ws.map (Token.relocate (Location.down ((text x).count Byte.lineFeed))))) ∧
      a.kind = .dedent ∧ b.kind = .dedent ∧ e.kind = .endOfFile ∧
      (nl = [] ∨ 0 < d ∧ ∃ n : Token, nl = [n] ∧ n.kind = .newline) := by
  obtain ⟨ts, t, made⟩ := made_of_silent sx
  obtain ⟨us, u, made'⟩ := made_of_silent sy
  have laid : (start file x).Laid := ⟨⟨0, rfl⟩, fun _ => rfl, hx.plain⟩
  obtain ⟨d, rfl⟩ := reaches_behind made.reach laid hx made.done fun _ => ⟨rfl, rfl⟩
  have first' : ∀ z ∈ (us ++ u.finish).head?, z.kind ≠ .indent := by
    intro z hz
    refine first ⟨[], z⟩ ?_
    rw [made'.tokens, quiet, List.head?_map, Option.mem_def.1 hz]
    rfl
  obtain ⟨b, nl, vs, v, reach, done, tokens, hb, ends⟩ :=
    reaches_after (k := (text x).count Byte.lineFeed) (d := d) made'.reach hy made'.done first'
  have begun := reaches_moved (k := 0) (text y) made.reach (.inr hx) hx.plain
  have stays : ts.map (Token.relocate (Location.down 0)) = ts := List.map_id ts
  have all : Made file (x ++ y) (ts ++ vs) v := by
    refine ⟨?_, done, both ▸ made.encoded.append made'.encoded⟩
    rw [stays] at begun
    rw [start, both]
    exact begun.trans reach
  obtain ⟨a, e, finish, ha, he⟩ :=
    finish_behind (start file x).file (1 + (text x).count Byte.lineFeed) d
  refine ⟨ts, d, a, b, e, nl, us ++ u.finish, ?_, made'.tokens, ?_, ha, hb, he, ends⟩
  · rw [made.tokens, List.append_assoc]
    exact congrArg (fun zs => quiet (ts ++ zs)) finish
  · rw [all.tokens, List.append_assoc, tokens]

end TokenStream

end StepsLang
