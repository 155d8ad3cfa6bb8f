import StepsLang.Proofs.Token.Row

/-! What the scanner makes of a text, but for the places.  It depends on the text and on the blocks
that are open, not on the lines and columns counted before, and it does not depend on the text
behind whole lines. -/

namespace StepsLang

structure Gist where
  tokens : List Token := []
  codes : List Bytes := []
  deriving DecidableEq

instance : Append Gist := ⟨fun x y => ⟨x.tokens ++ y.tokens, x.codes ++ y.codes⟩⟩

def Batch.gist (b : Batch) : Gist := ⟨b.tokens.map Token.unlocated, b.reports.map (·.code)⟩

def gist : List Batch → Gist
  | [] => {}
  | b :: bs => b.gist ++ gist bs

theorem Gist.append_assoc (x y z : Gist) : x ++ y ++ z = x ++ (y ++ z) :=
  congrArg₂ Gist.mk (List.append_assoc ..) (List.append_assoc ..)

theorem gist_append (bs cs : List Batch) : gist (bs ++ cs) = gist bs ++ gist cs := by
  induction bs with
  | nil => rfl
  | cons b bs ih => rw [List.cons_append, gist, ih, gist, Gist.append_assoc]

theorem gist_eq (bs : List Batch) : gist bs =
    ⟨(bs.flatMap (·.tokens)).map Token.unlocated, (bs.flatMap (·.reports)).map (·.code)⟩ := by
  induction bs with
  | nil => rfl
  | cons b bs ih =>
    rw [gist, ih, List.flatMap_cons, List.flatMap_cons, List.map_append, List.map_append]
    rfl

namespace Scanner

structure Like (more : Bytes) (s t : Scanner) : Prop where
  rest : t.rest = s.rest ++ more
  fresh : t.fresh = s.fresh
  levels : t.levels = s.levels
  last : t.last = s.last

variable {more : Bytes} {s t : Scanner}

theorem code_report (flaw : Flaw) (l l' : Location) :
    (flaw.report l).code = (flaw.report l').code := by
  cases flaw <;> rfl

namespace Like

theorem skip {n : Nat} (h : Like more s t) (within : more = [] ∨ n ≤ s.rest.length) :
    Like more (s.skip n) (t.skip n) := by
  obtain ⟨taken, left⟩ :
      t.rest.take n = s.rest.take n ∧ t.rest.drop n = s.rest.drop n ++ more := by
    rw [h.rest]
    rcases within with rfl | fits
    · simp
    · exact ⟨List.take_append_of_le_length fits, List.drop_append_of_le_length fits⟩
  refine ⟨by rw [skip_rest, skip_rest, left], ?_, by simp [h.levels], by simp [h.last]⟩
  by_cases crosses : Byte.lineFeed ∈ s.rest.take n
  · rw [skip_starts (.inr crosses), skip_starts (.inr (taken ▸ crosses))]
  · rw [skip_fresh crosses, skip_fresh (taken ▸ crosses), h.fresh]

theorem indentation (h : Like more s t) (apart : Apart s.rest more) :
    t.indentation = s.indentation := by
  rw [Scanner.indentation, h.rest]
  exact apart.takeWhile rfl

theorem indented (h : Like more s t) (apart : Apart s.rest more) :
    Like more s.indented t.indented := by
  rw [Scanner.indented, Scanner.indented, h.indentation apart]
  exact skip (s := { s with fresh := false }) (t := { t with fresh := false })
    ⟨h.rest, rfl, h.levels, h.last⟩ (.inr (List.takeWhile_prefix _).length_le)

theorem skipLine (h : Like more s t) (apart : Apart s.rest more) :
    Like more s.skipLine t.skipLine := by
  have line : t.rest.takeWhile (· != Byte.lineFeed) =
      s.rest.takeWhile (· != Byte.lineFeed) := by
    rw [h.rest]
    exact apart.takeWhile rfl
  rw [Scanner.skipLine, Scanner.skipLine, line]
  exact h.skip apart.length_line

theorem tabFaults (h : Like more s t) (apart : Apart s.rest more) :
    t.tabFaults.map (·.code) = s.tabFaults.map (·.code) := by
  unfold Scanner.tabFaults
  rw [h.indentation apart]
  split <;> rfl

theorem remember {k : Kind} (h : Like more s t) :
    Like more { s with last := k } { t with last := k } := ⟨h.rest, h.fresh, h.levels, rfl⟩

theorem openLevel (h : Like more s t) (here there : Location) (found : Nat) :
    Like more (s.openLevel here found).1 (t.openLevel there found).1 ∧
      (t.openLevel there found).2.gist = (s.openLevel here found).2.gist := by
  have level : t.level = s.level := congrArg (List.headD · 0) h.levels
  simp only [Scanner.openLevel, level, Batch.gist]
  split
  · exact ⟨⟨h.rest, h.fresh, by rw [h.levels], rfl⟩, by split <;> split <;> rfl⟩
  · exact ⟨h, by split <;> split <;> rfl⟩

theorem closeLevels (h : Like more s t) (here there : Location) (found : Nat) :
    Like more (s.closeLevels here found).1 (t.closeLevels there found).1 ∧
      (t.closeLevels there found).2.gist = (s.closeLevels here found).2.gist := by
  simp only [Scanner.closeLevels, h.levels, remember_replicate, Batch.gist, List.map_replicate]
  refine ⟨⟨h.rest, h.fresh, rfl, ?_⟩, by split <;> rfl⟩
  split
  · exact h.last
  · rfl

theorem relevel (h : Like more s t) (here there : Location) (found : Nat) :
    Like more (s.relevel here found).1 (t.relevel there found).1 ∧
      (t.relevel there found).2.gist = (s.relevel here found).2.gist := by
  have level : t.level = s.level := congrArg (List.headD · 0) h.levels
  unfold Scanner.relevel
  rw [level]
  split
  · exact h.openLevel here there found
  · exact h.closeLevels here there found

theorem startLine (h : Like more s t) (apart : Apart s.rest more) :
    Like more s.startLine.1 t.startLine.1 ∧ t.startLine.2.gist = s.startLine.2.gist := by
  have inner := h.indented apart
  have apart' := apart_indented apart
  have ends : atLineEnd t.indented.rest = atLineEnd s.indented.rest := by
    rw [inner.rest]
    exact apart'.atLineEnd
  have stands : Word.standsAt Word.blockCommentStart t.indented.rest =
      Word.standsAt Word.blockCommentStart s.indented.rest := by
    rw [inner.rest]
    exact apart'.standsAt (by decide)
  have tabs := h.tabFaults apart
  cases bare : atLineEnd s.indented.rest with
  | true =>
    rw [startLine_blank bare, startLine_blank (ends.trans bare)]
    exact ⟨inner.skipLine apart', congrArg (Gist.mk []) tabs⟩
  | false =>
    cases comment : Word.standsAt Word.blockCommentStart s.indented.rest with
    | true =>
      -- There is no comment in whole lines without comments.
      have all : more = [] := by
        refine apart'.resolve_right fun whole => ?_
        rw [whole.2.plain.standsAt] at comment
        cases comment
      have same : t.indented.rest = s.indented.rest := by rw [inner.rest, all, List.append_nil]
      rw [startLine_comment bare comment, startLine_comment (ends.trans bare) (stands.trans comment),
        same]
      have after := inner.skip (n := Word.blockCommentLength s.indented.rest) (.inl all)
      refine ⟨?_, congrArg (Gist.mk []) tabs⟩
      rw [after.fresh]
      split
      · exact after
      · exact after.skipLine (.inl all)
    | false =>
      rw [startLine_filled bare comment, startLine_filled (ends.trans bare) (stands.trans comment)]
      obtain ⟨like, same⟩ := inner.relevel { s.location with column := 1 }
        { t.location with column := 1 } (s.indentation.foldl (fun n b => n + width b) 0)
      rw [leveled, leveled, h.indentation apart]
      obtain ⟨tokens, codes⟩ := Gist.mk.inj same
      refine ⟨like, congrArg₂ Gist.mk tokens ?_⟩
      rw [List.map_append, List.map_append, tabs, codes]

theorem lexeme {b : UInt8} {rest : Bytes} (h : Like more s t) (apart : Apart s.rest more)
    (here : s.rest = b :: rest) :
    Like more (s.lexeme b rest).1 (t.lexeme b (rest ++ more)).1 ∧
      (t.lexeme b (rest ++ more)).2.gist = (s.lexeme b rest).2.gist := by
  have read : Lexeme.read b (rest ++ more) = Lexeme.read b rest := by
    by_cases hb : b = Byte.lineFeed
    · rw [hb]
      rfl
    · exact (here ▸ apart).read hb
  have after : Like more (s.skip (Lexeme.read b rest).length)
      (t.skip (Lexeme.read b rest).length) := by
    refine h.skip (apart.imp_right fun whole => ?_)
    have plain := whole.2.plain
    rw [here] at plain ⊢
    exact Lexeme.length_read_le b rest plain.standsAt
  have codes : (t.lexeme b (rest ++ more)).2.reports.map (·.code) =
      (s.lexeme b rest).2.reports.map (·.code) := by
    rw [reports_lexeme, reports_lexeme, read, List.map_map, List.map_map]
    exact List.map_congr_left fun x _ => code_report x.2 _ _
  have made : Like more (s.lexeme b rest).1 (t.lexeme b (rest ++ more)).1 ∧
      (t.lexeme b (rest ++ more)).2.tokens.map Token.unlocated =
        (s.lexeme b rest).2.tokens.map Token.unlocated := by
    simp only [Scanner.lexeme, read, h.last]
    split
    · exact ⟨after, rfl⟩
    · split
      · exact ⟨after, rfl⟩
      · exact ⟨after.remember, rfl⟩
  exact ⟨made.1, congrArg₂ Gist.mk made.2 codes⟩

theorem step {s' : Scanner} {b : Batch} (h : Like more s t) (apart : Apart s.rest more)
    (hs : s.step = some (s', b)) :
    ∃ t' c, t.step = some (t', c) ∧ Like more s' t' ∧ c.gist = b.gist := by
  have filled := rest_of_step hs
  obtain ⟨c, rest, e⟩ := List.exists_cons_of_ne_nil filled
  have there : t.rest = c :: (rest ++ more) := by rw [h.rest, e, List.cons_append]
  obtain ⟨fresh, made⟩ | ⟨inside, c', rest', e', made⟩ := step_cases hs
  · have both := h.startLine apart
    rw [made] at both
    exact ⟨_, _, step_start (h.fresh.trans fresh) (by simp [there]), both⟩
  · obtain ⟨rfl, rfl⟩ := List.cons.inj (e.symm.trans e')
    have both := h.lexeme apart e
    rw [made] at both
    exact ⟨_, _, step_within (h.fresh.trans inside) there, both⟩

theorem scans {s' : Scanner} {bs : List Batch} (h : Like more s t)
    (whole : more = [] ∨ WholeLines s.rest) (hs : Scans s bs s') :
    ∃ cs t', Scans t cs t' ∧ Like more s' t' ∧ gist cs = gist bs := by
  induction hs generalizing t with
  | refl s => exact ⟨[], t, .refl t, h, rfl⟩
  | @step s u s' b bs first _ ih =>
    obtain ⟨v, c, one, like, same⟩ :=
      h.step (whole.imp_right fun lines => ⟨rest_of_step first, lines⟩) first
    have later : more = [] ∨ WholeLines u.rest := whole.imp_right fun lines => by
      obtain ⟨n, rest⟩ := step_rest lines.plain first
      exact rest ▸ lines.drop n
    obtain ⟨cs, t', rest, like', same'⟩ := ih like later
    exact ⟨c :: cs, t', .step one rest, like', by rw [gist, gist, same, same']⟩

theorem finish (h : Like more s t) :
    t.finish.map Token.unlocated = s.finish.map Token.unlocated := by
  simp only [Scanner.finish, h.last, h.levels, List.map_append, List.map_replicate]
  split <;> rfl

end Like

theorem scans_end (s : Scanner) : ∃ bs t, Scans s bs t ∧ t.rest = [] := by
  cases hs : s.step with
  | none => exact ⟨[], s, .refl s, step_eq_none.1 hs⟩
  | some p =>
    obtain ⟨t, b⟩ := p
    have _ := distance_step hs
    obtain ⟨bs, u, more, done⟩ := scans_end t
    exact ⟨b :: bs, u, .step hs more, done⟩
termination_by s.distance

theorem Like.run (h : Like [] s t) : gist t.run.1 = gist s.run.1 := by
  obtain ⟨bs, s', scans, done⟩ := scans_end s
  obtain ⟨cs, t', scans', like, same⟩ := h.scans (.inl rfl) scans
  have done' : t'.rest = [] := by rw [like.rest, done, List.append_nil]
  have ends : gist [⟨[], t'.finish⟩] = gist [⟨[], s'.finish⟩] := by
    simp only [gist, Batch.gist, like.finish]
  rw [scans.run_done done, scans'.run_done done', gist_append, gist_append, same, ends]

end Scanner

namespace TokenStream
open Scanner

def gist (s : TokenStream) : Gist :=
  ⟨s.tokens.map (·.token.unlocated), s.reports.map (·.code)⟩

theorem gist_ofSource (file : Nat) {source : Bytes} (valid : Utf8.WellFormed (text source)) :
    (ofSource file source).gist = StepsLang.gist (start file source).run.1 := by
  have silent : encoding file (text source)
      (if source.startsWith byteOrderMark then byteOrderMark.length else 0) = [] :=
    encoding_eq_nil.2 valid
  have tokens := token_spread [] (start file source).run.1
  have reports := reports_spread_run (start file source) []
  rw [← silent, ← tokens_ofSource] at tokens reports
  rw [gist_eq, ← tokens, ← List.nil_append (List.flatMap _ _), ← silent, ← reports, List.map_map]
  rfl

end TokenStream

end StepsLang
