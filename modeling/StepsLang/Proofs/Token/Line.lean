import StepsLang.Proofs.Token.Step

namespace StepsLang

theorem eq_concat_of_ends {x : Bytes} (filled : x ≠ []) (h : ∀ b ∈ x.getLast?, b = Byte.lineFeed) :
    ∃ u, x = u ++ [Byte.lineFeed] := by
  refine ⟨x.dropLast, ?_⟩
  rw [← h _ (List.getLast?_eq_some_getLast filled), List.dropLast_concat_getLast]

theorem NoComment.append {x y : Bytes} (hx : WholeLines x) (hy : NoComment y) :
    NoComment (x ++ y) := by
  rintro ⟨s, t, split⟩
  have stands : Word.blockCommentStart <+: (x ++ y).drop s.length := by
    rw [← split, List.append_assoc, List.drop_left]
    exact List.prefix_append _ t
  rw [List.drop_append] at stands
  rcases Nat.lt_or_ge s.length x.length with inside | beyond
  · have filled : x ≠ [] := List.ne_nil_of_length_pos (Nat.zero_lt_of_lt inside)
    obtain ⟨u, rfl⟩ := eq_concat_of_ends filled hx.ends
    rw [List.length_append, List.length_singleton] at inside
    rw [List.drop_append_of_le_length (Nat.le_of_lt_succ inside), List.append_assoc,
      List.singleton_append, Bytes.prefix_ends (by decide) (lineEnd_cons _)] at stands
    exact hx.plain ((stands.isInfix.trans (List.drop_suffix _ u).isInfix).trans
      (List.prefix_append u _).isInfix)
  · rw [List.drop_eq_nil_of_le beyond, List.nil_append] at stands
    exact hy (stands.isInfix.trans (List.drop_suffix _ y).isInfix)

theorem WholeLines.append {x y : Bytes} (hx : WholeLines x) (hy : WholeLines y) :
    WholeLines (x ++ y) := by
  refine ⟨fun b hb => ?_, hy.plain.append hx⟩
  rw [List.getLast?_append] at hb
  cases e : y.getLast? with
  | none =>
    rw [e] at hb
    exact hx.ends b hb
  | some c =>
    rw [e] at hb
    exact hy.ends b (e.trans hb)

namespace TokenStream

theorem wholeLines_text {x : Bytes} (h : WholeLines x) : WholeLines (text x) := by
  unfold text
  split
  · exact h.drop _
  · exact h

theorem text_concat {x : Bytes} (filled : x ≠ []) (h : ∀ b ∈ x.getLast?, b = Byte.lineFeed)
    (y : Bytes) : text (x ++ y) = text x ++ y := by
  obtain ⟨u, rfl⟩ := eq_concat_of_ends filled h
  have same : Bytes.startsWith (u ++ [Byte.lineFeed] ++ y) byteOrderMark =
      Bytes.startsWith (u ++ [Byte.lineFeed]) byteOrderMark := by
    rw [List.append_assoc, List.singleton_append, Bytes.startsWith, Bytes.startsWith,
      Bool.eq_iff_iff, List.isPrefixOf_iff_prefix, List.isPrefixOf_iff_prefix,
      Bytes.prefix_ends (by decide) (lineEnd_cons _),
      Bytes.prefix_ends (by decide) (lineEnd_cons _)]
  unfold text
  rw [same]
  split
  · next marked =>
    exact List.drop_append_of_le_length (List.isPrefixOf_iff_prefix.1 marked).length_le
  · rfl

end TokenStream

namespace Utf8

theorem WellFormed.of_append {s t : Bytes} (hs : WellFormed s) (h : WellFormed (s ++ t)) :
    WellFormed t := by
  induction hs with
  | nil => exact h
  | @character c s hc _ ih =>
    refine ih ?_
    rw [List.append_assoc] at h
    cases c with
    | nil => exact h
    | cons b c =>
      have whole := sequence?_append hc (s ++ t)
      have rest := h.malformed? ⟨0, 1, 1⟩
      rw [List.cons_append] at whole rest
      unfold Utf8.malformed? at rest
      simp only [malformed?.go, whole] at rest
      rw [List.length_cons, Nat.add_sub_cancel, go_append] at rest
      exact wellFormed_of_go rest

end Utf8

namespace Scanner

def OneLine (x : Bytes) : Prop := ∀ u v, x = u ++ Byte.lineFeed :: v → v = []

theorem OneLine.drop {x : Bytes} (h : OneLine x) (n : Nat) : OneLine (x.drop n) := by
  intro u v split
  refine h (x.take n ++ u) v ?_
  rw [List.append_assoc, ← split, List.take_append_drop]

theorem oneLine_concat {u : Bytes} (h : Byte.lineFeed ∉ u) : OneLine (u ++ [Byte.lineFeed]) := by
  intro v w split
  rcases List.append_eq_append_iff.1 split with ⟨a, rfl, rest⟩ | ⟨a, rfl, rest⟩
  · cases a with
    | nil => exact (List.cons.inj rest).2.symm
    | cons b a => simp at rest
  · cases a with
    | nil => exact (List.cons.inj rest).2
    | cons b a =>
      obtain ⟨rfl, -⟩ := List.cons.inj rest
      exact absurd (by simp) h

theorem Reaches.of_done {s t : Scanner} {ts : List Token} (h : Reaches s ts t)
    (done : s.rest = []) : ts = [] ∧ t = s := by
  cases h with
  | refl => exact ⟨rfl, rfl⟩
  | step first _ => exact absurd done (rest_of_step first)

theorem step_flawless {s : Scanner} {b : UInt8} {rest : Bytes} (inside : s.fresh = false)
    (e : s.rest = b :: rest) (quiet : (Lexeme.read b rest).flaws = []) :
    ∃ t made, s.step = some (t, ⟨[], made⟩) ∧ t.rest = s.rest.drop (Lexeme.read b rest).length ∧
      (t.fresh = (s.skip (Lexeme.read b rest).length).fresh) ∧
      ∀ x ∈ made, made = [x] ∧ (Lexeme.read b rest).kind = some x.kind := by
  rw [step_within inside e]
  unfold lexeme
  simp only [quiet, List.map_nil]
  cases (Lexeme.read b rest).kind with
  | none => exact ⟨_, [], rfl, skip_rest _ s, rfl, by simp⟩
  | some k =>
    dsimp only
    split
    · exact ⟨_, [], rfl, skip_rest _ s, rfl, by simp⟩
    · refine ⟨_, [_], rfl, skip_rest _ s, rfl, fun x hx => ?_⟩
      obtain rfl := List.mem_singleton.1 hx
      exact ⟨rfl, rfl⟩

theorem step_inside {s t : Scanner} {made : List Token} (inside : s.fresh = false)
    (line : OneLine s.rest) (plain : NoComment s.rest) (h : s.step = some (t, ⟨[], made⟩)) :
    ∃ b rest, s.rest = b :: rest ∧ (Lexeme.read b rest).flaws = [] ∧
      t.rest = s.rest.drop (Lexeme.read b rest).length ∧ (t.rest = [] ∨ t.fresh = false) ∧
      ∀ x ∈ made, made = [x] ∧ (x.kind.isContent = true ∨ x.kind = .newline ∧ t.rest = []) := by
  obtain ⟨b, rest, e⟩ := List.exists_cons_of_ne_nil (rest_of_step h)
  have flaws : (Lexeme.read b rest).flaws = [] := by
    have quiet := reports_lexeme s b rest
    rw [step_within inside e] at h
    rw [Option.some.inj h] at quiet
    exact List.map_eq_nil_iff.1 quiet.symm
  obtain ⟨t', made', first, drop, fresh, kind⟩ := step_flawless inside e flaws
  obtain ⟨rfl, rfl⟩ : t = t' ∧ made = made' := by simpa using h.symm.trans first
  refine ⟨b, rest, e, flaws, drop, ?_, fun x hx => ?_⟩
  · by_cases hb : b = Byte.lineFeed
    · subst hb
      left
      rw [drop, e, line [] rest e]
      rfl
    · exact .inr (fresh.trans ((skip_read_fresh e plain hb).trans inside))
  · obtain ⟨one, same⟩ := kind x hx
    refine ⟨one, ?_⟩
    by_cases hb : b = Byte.lineFeed
    · subst hb
      refine .inr ⟨(Option.some.inj same).symm, ?_⟩
      rw [drop, e, line [] rest e]
      rfl
    · exact .inl (Lexeme.isContent_read same hb)

theorem reaches_one_line {s t : Scanner} {ts : List Token} (h : Reaches s ts t)
    (done : t.rest = []) (inside : s.rest = [] ∨ s.fresh = false) (line : OneLine s.rest)
    (plain : NoComment s.rest) :
    ∃ cs nl, ts = cs ++ nl ∧ (∀ x ∈ cs, x.kind.isContent = true) ∧ nl.length ≤ 1 ∧
      ∀ x ∈ nl, x.kind = .newline := by
  induction h with
  | refl => exact ⟨[], [], rfl, by simp, by simp, by simp⟩
  | @step s t u made ts first more ih =>
    have inside := inside.resolve_left (rest_of_step first)
    obtain ⟨b, rest, -, -, drop, next, kinds⟩ := step_inside inside line plain first
    obtain ⟨cs, nl, rfl, content, short, ends⟩ :=
      ih done next (drop ▸ line.drop _) (drop ▸ plain.drop _)
    cases made with
    | nil => exact ⟨cs, nl, rfl, content, short, ends⟩
    | cons x made =>
      obtain ⟨one, kind | ⟨kind, stop⟩⟩ := kinds x (by simp)
      · rw [one]
        exact ⟨x :: cs, nl, rfl, List.forall_mem_cons.2 ⟨kind, content⟩, short, ends⟩
      · rw [one, (more.of_done stop).1]
        exact ⟨[], [x], rfl, by simp, by simp, by simpa using kind⟩

theorem skipLine_rest {s : Scanner} (line : OneLine s.rest) : s.skipLine.rest = [] := by
  have whole := List.takeWhile_append_dropWhile (l := s.rest) (p := (· != Byte.lineFeed))
  have rest := @List.drop_left _ (s.rest.takeWhile (· != Byte.lineFeed))
    (s.rest.dropWhile (· != Byte.lineFeed))
  rw [whole] at rest
  rw [skipLine, skip_rest, ← List.drop_drop, rest]
  cases e : s.rest.dropWhile (· != Byte.lineFeed) with
  | nil => rfl
  | cons b v =>
    have stop := List.head?_dropWhile_not (· != Byte.lineFeed) s.rest
    rw [e] at stop whole
    obtain rfl : b = Byte.lineFeed := by simpa using stop
    exact line _ v whole.symm

theorem step_outside {s t : Scanner} {made : List Token} (fresh : s.fresh = true)
    (levels : s.levels = [0]) (line : OneLine s.rest) (plain : NoComment s.rest)
    (h : s.step = some (t, ⟨[], made⟩)) :
    (t.rest = [] ∨ t.fresh = false) ∧ (∃ n, t.rest = s.rest.drop n) ∧
      (made = [] ∨ s.indentation ≠ [] ∧ ∃ i : Token, made = [i] ∧ i.kind = .indent) := by
  have drop := step_rest plain h
  rw [step_start fresh (rest_of_step h)] at h
  have h := Option.some.inj h
  have here : OneLine s.indented.rest := by simpa using line.drop _
  cases blank : atLineEnd s.indented.rest with
  | true =>
    rw [startLine_blank blank, Prod.mk.injEq, Batch.mk.injEq] at h
    obtain ⟨rfl, -, rfl⟩ := h
    exact ⟨.inl (skipLine_rest here), drop, .inl rfl⟩
  | false =>
    have comment := (plain_indented plain).standsAt
    rw [startLine_filled blank comment, Prod.mk.injEq, Batch.mk.injEq,
      List.append_eq_nil_iff] at h
    obtain ⟨rfl, ⟨-, quiet⟩, rfl⟩ := h
    rcases Nat.eq_zero_or_pos s.indentWidth with none | wide
    · obtain ⟨x, -, leveled⟩ := leveled_margin (d := 0) levels none
      rw [leveled]
      exact ⟨.inr (indented_fresh s), leveled ▸ drop, .inl rfl⟩
    · have indented : s.indentation ≠ [] := by
        intro none
        simp [indentWidth, none] at wide
      obtain ⟨_, _, x, leveled, indent⟩ := leveled_wide levels wide quiet
      rw [leveled]
      exact ⟨.inr (indented_fresh s), leveled ▸ drop, .inr ⟨indented, x, rfl, indent⟩⟩

end Scanner

namespace TokenStream
open Scanner

theorem silent_of_tokens {s : TokenStream} {ts : List Token} (h : s.tokens = quiet ts) :
    s.reports = [] := by
  rw [reports, h, quiet, List.flatMap_map]
  exact List.flatMap_eq_nil_iff.2 fun _ _ => rfl

theorem indentation_margin {s : Scanner}
    (h : ∀ b ∈ s.rest.head?, b ≠ Byte.space ∧ b ≠ Byte.tab) : s.indentation = [] := by
  unfold indentation
  cases e : s.rest with
  | nil => rfl
  | cons b rest =>
    obtain ⟨space, tab⟩ := h b (by rw [e]; rfl)
    simp [space, tab]

theorem made_line {file : Nat} {y : Bytes} {ts : List Token} {t : Scanner}
    (h : Made file y ts t) (line : OneLine (text y)) (plain : NoComment (text y)) :
    ∃ ind cs nl, ts = ind ++ cs ++ nl ∧
      (ind = [] ∨ (start file y).indentation ≠ [] ∧ ∃ i : Token, ind = [i] ∧ i.kind = .indent) ∧
      (∀ x ∈ cs, x.kind.isContent = true) ∧ nl.length ≤ 1 ∧ ∀ x ∈ nl, x.kind = .newline := by
  cases h.reach with
  | refl => exact ⟨[], [], [], rfl, .inl rfl, by simp, by simp, by simp⟩
  | step first more =>
    obtain ⟨next, ⟨n, rest⟩, begins⟩ := step_outside (s := start file y) rfl rfl line plain first
    obtain ⟨cs, nl, rfl, content, short, ends⟩ := reaches_one_line more h.done next
      (rest ▸ line.drop n) (rest ▸ plain.drop n)
    exact ⟨_, cs, nl, (List.append_assoc ..).symm, begins, content, short, ends⟩

end TokenStream

namespace Place

theorem after_content {cs : List Token} (all : ∀ x ∈ cs, x.kind.isContent = true)
    (filled : cs ≠ []) (x : Place) : x.after cs = some ⟨x.depth, .inside⟩ := by
  induction cs generalizing x with
  | nil => exact absurd rfl filled
  | cons c cs ih =>
    obtain ⟨first, all⟩ := List.forall_mem_cons.1 all
    rw [after, next_content first, spot_content first, Option.bind_some]
    cases cs with
    | nil => rfl
    | cons d cs => exact ih all (List.cons_ne_nil _ _) _

theorem eq_nil_of_dedents {x y : Place} {ds : List Token} (outer : x.depth = 0)
    (all : ∀ t ∈ ds, t.kind = .dedent) (h : x.after ds = some y) : ds = [] := by
  cases ds with
  | nil => rfl
  | cons t ds =>
    rw [after, all t (by simp)] at h
    obtain ⟨_, one, -⟩ := Option.bind_eq_some_iff.1 h
    exact absurd rfl (ne_dedent outer one)

theorem depth_next {x y : Place} {k : Kind} (flat : k ≠ .indent) (h : x.next k = some y) :
    y.depth ≤ x.depth := by
  obtain ⟨-, rfl⟩ | ⟨-, -, rfl⟩ | ⟨indent, -⟩ | ⟨-, -, d, deep, rfl⟩ := next_cases h
  · exact Nat.le_refl _
  · exact Nat.le_refl _
  · exact absurd indent flat
  · exact deep ▸ Nat.le_succ d

end Place

theorem Place.depth_after {x y : Place} {ts : List Token} (flat : ∀ t ∈ ts, t.kind ≠ .indent)
    (h : x.after ts = some y) : y.depth ≤ x.depth := by
  induction ts generalizing x with
  | nil => exact Option.some.inj h ▸ Nat.le_refl _
  | cons t ts ih =>
    obtain ⟨first, flat⟩ := List.forall_mem_cons.1 flat
    obtain ⟨z, one, rest⟩ := Option.bind_eq_some_iff.1 h
    exact Nat.le_trans (ih flat rest) (depth_next first one)

/-- The tokens of a line.  It may be a block, and then is over when the block is. -/
structure Lone (zs : List Token) : Prop where
  ended : ∀ pre post y, zs = pre ++ post → pre ≠ [] → Place.after ⟨0, .fresh⟩ pre = some y →
    y.depth = 0 → y.spot ≠ .inside → post = []
  flat : ∀ t ∈ zs.tail, t.kind ≠ .indent

theorem inside_of_begun {ind cs pre post : List Token} {y : Place}
    (begins : ind = [] ∨ ∃ i : Token, ind = [i] ∧ i.kind = .indent)
    (content : ∀ x ∈ cs, x.kind.isContent = true) (split : ind ++ cs = pre ++ post)
    (filled : pre ≠ []) (here : Place.after ⟨0, .fresh⟩ pre = some y) (outer : y.depth = 0) :
    y.spot = .inside := by
  obtain rfl | ⟨i, rfl, kind⟩ := begins
  · rw [List.nil_append] at split
    subst split
    rw [Place.after_content (fun x hx => content x (by simp [hx])) filled] at here
    cases here
    rfl
  · obtain ⟨j, pre, rfl⟩ := List.exists_cons_of_ne_nil filled
    obtain ⟨rfl, rfl⟩ := List.cons.inj split
    rw [Place.after, kind] at here
    cases pre with
    | nil =>
      cases here
      cases outer
    | cons c pre =>
      have there : Place.after ⟨1, .opened⟩ (c :: pre) = some y := here
      rw [Place.after_content (fun x hx => content x (List.mem_append_left _ hx))
        (List.cons_ne_nil _ _)] at there
      cases there
      cases outer

theorem flat_of_line {cs nl ds : List Token} (content : ∀ x ∈ cs, x.kind.isContent = true)
    (line : ∀ x ∈ nl, x.kind = .newline) (ends : ∀ x ∈ ds, x.kind = .dedent) :
    ∀ t ∈ cs ++ nl ++ ds, t.kind ≠ .indent := by
  intro t ht kind
  rcases List.mem_append.1 ht with ht | ht
  · rcases List.mem_append.1 ht with ht | ht
    · exact Place.ne_of_content (content t ht) rfl kind
    · cases kind.symm.trans (line t ht)
  · cases kind.symm.trans (ends t ht)

theorem lone_of_line {ind cs nl ds : List Token} {z : Place}
    (begins : ind = [] ∨ ∃ i : Token, ind = [i] ∧ i.kind = .indent)
    (content : ∀ x ∈ cs, x.kind.isContent = true) (short : nl.length ≤ 1)
    (line : ∀ x ∈ nl, x.kind = .newline) (ends : ∀ x ∈ ds, x.kind = .dedent)
    (all : Place.after ⟨0, .fresh⟩ (ind ++ cs ++ nl ++ ds) = some z) :
    Lone (ind ++ cs ++ nl ++ ds) := by
  have flat := flat_of_line content line ends
  refine ⟨fun pre post y split filled here outer spot => ?_, fun t ht => ?_⟩
  swap
  · simp only [List.append_assoc] at ht flat
    obtain rfl | ⟨i, rfl, -⟩ := begins
    · exact flat t (List.mem_of_mem_tail ht)
    · exact flat t ht
  rw [split, Place.after_append, here] at all
  rw [List.append_assoc] at split
  rcases List.append_eq_append_iff.1 split with ⟨mid, rfl, rest⟩ | ⟨mid, whole, -⟩
  · cases mid with
    | nil =>
      rw [List.append_nil] at filled here
      exact absurd (inside_of_begun begins content (List.append_nil _).symm filled here outer) spot
    | cons m mid =>
      -- What is left now are the ends of blocks.
      have left : post <:+ ds := by
        refine List.suffix_of_suffix_length_le (rest ▸ List.suffix_append _ _)
          (List.suffix_append nl ds) ?_
        have count := congrArg List.length rest
        simp only [List.length_append, List.length_cons] at count
        omega
      exact Place.eq_nil_of_dedents outer (fun x hx => ends x (left.subset hx)) all
  · exact absurd (inside_of_begun begins content whole filled here outer) spot

namespace TokenStream
open Scanner

theorem lone_ofSource {file : Nat} {y : Bytes} {zs : List Token} {e : Token} {finish : Spot}
    (whole : WholeLines (text y)) (line : OneLine (text y))
    (silent : (ofSource file y).reports = [])
    (tokens : (ofSource file y).tokens = quiet (zs ++ [e])) (leads : Leads ⟨0, .fresh⟩ zs finish) :
    Lone zs ∧ ((∀ b ∈ (text y).head?, b ≠ Byte.space ∧ b ≠ Byte.tab) →
      ∀ t ∈ zs.head?, t.kind ≠ .indent) := by
  obtain ⟨ts, t, made⟩ := made_of_silent silent
  have laid : (start file y).Laid := ⟨⟨0, rfl⟩, fun _ => rfl, whole.plain⟩
  obtain ⟨ind, cs, nl, rfl, begins, content, short, ends⟩ := made_line made line whole.plain
  obtain ⟨d, rfl⟩ := reaches_behind made.reach laid whole made.done fun _ => ⟨rfl, rfl⟩
  obtain ⟨a, e', finish', ha, -⟩ := finish_behind (start file y).file
    ((start file y).line + (start file y).rest.count Byte.lineFeed) d
  have same := congrArg (List.map (·.token)) (made.tokens.symm.trans tokens)
  rw [tokens_quiet, tokens_quiet] at same
  have split : ind ++ cs ++ nl ++ List.replicate d a = zs := by
    rw [finish', ← List.append_assoc] at same
    exact (List.append_inj' same rfl).1
  subst split
  have closed : ∀ x ∈ List.replicate d a, x.kind = .dedent := fun x hx =>
    List.eq_of_mem_replicate hx ▸ ha
  refine ⟨lone_of_line (begins.imp_right fun h => h.2) content short ends closed leads.after,
    fun margin t ht => ?_⟩
  have none := indentation_margin (s := start file y) margin
  obtain rfl := begins.resolve_right fun h => h.1 none
  exact flat_of_line content ends closed t (List.mem_of_mem_head? ht)

end TokenStream

end StepsLang
