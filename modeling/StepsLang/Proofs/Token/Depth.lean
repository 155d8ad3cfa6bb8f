import StepsLang.Proofs.Token.Indentation

namespace StepsLang

def layout (ts : List Token) : List (Kind × Nat) :=
  (ts.filter fun t => t.kind == .indent || t.kind == .dedent).map fun t => (t.kind, t.location.line)

section

variable {d e n : Nat} {ts us : List Token}

theorem layout_append (ts us : List Token) : layout (ts ++ us) = layout ts ++ layout us := by
  simp [layout]

theorem layout_flat (h : ∀ t ∈ ts, t.kind.isContent = true ∨ t.kind = .newline) :
    layout ts = [] := by
  have none : (ts.filter fun t => t.kind == .indent || t.kind == .dedent) = [] := by
    refine List.filter_eq_nil_iff.2 fun t ht => ?_
    rcases h t ht with content | newline
    · simp [Place.ne_of_content content (l := .indent) rfl,
        Place.ne_of_content content (l := .dedent) rfl]
    · simp [newline]
  rw [layout, none, List.map_nil]

theorem climb_flat (h : ∀ t ∈ ts, t.kind.isContent = true ∨ t.kind = .newline) (d : Nat) :
    climb d ts = some d := by
  induction ts with
  | nil => rfl
  | cons t ts ih =>
    obtain ⟨first, rest⟩ := List.forall_mem_cons.1 h
    have flat : t.kind.climb d = some d := by
      rcases first with content | newline
      · exact Kind.climb_flat (Place.ne_of_content content rfl) (Place.ne_of_content content rfl) d
      · rw [newline]
        rfl
    rw [climb_cons, flat]
    exact ih rest

theorem climb_kinds (same : ts.map (·.kind) = us.map (·.kind)) (d : Nat) :
    climb d ts = climb d us := by
  have kinds (ts : List Token) : climb d ts = (ts.map (·.kind)).foldlM (fun d k => k.climb d) d := by
    rw [climb, List.foldlM_map]
  rw [kinds, kinds, same]

namespace Scanner

theorem kind_margin : ∀ t ∈ margin d e, t.kind = .indent ∨ t.kind = .dedent := by
  intro t ht
  unfold margin at ht
  split at ht
  · exact .inr (congrArg Token.kind (List.mem_replicate.1 ht).2)
  · exact .inl (congrArg Token.kind (List.mem_singleton.1 ht))

theorem climb_margin (h : e ≤ d + 1) : climb d (margin d e) = some e := by
  unfold margin
  split
  · next within =>
    obtain ⟨n, rfl⟩ := Nat.exists_eq_add_of_le within
    rw [Nat.add_sub_cancel_left]
    exact Mark.climb_of_after (Mark.after_dedents rfl e n .newline)
  · next deeper =>
    obtain rfl : e = d + 1 := by omega
    rfl

theorem layout_margin (kinds : ts.map (·.kind) = (margin d e).map (·.kind))
    (line : ∀ t ∈ ts, t.location.line = n) :
    layout ts = (margin d e).map fun t => (t.kind, n) := by
  have all : ∀ t ∈ ts, (t.kind == .indent || t.kind == .dedent) = true := by
    intro t ht
    have there : t.kind ∈ (margin d e).map (·.kind) := kinds ▸ List.mem_map_of_mem ht
    obtain ⟨x, hx, same⟩ := List.mem_map.1 there
    simpa [same] using kind_margin x hx
  have here : layout ts = (ts.map (·.kind)).map (·, n) := by
    rw [layout, List.filter_eq_self.2 all, List.map_map]
    exact List.map_congr_left fun t ht => congrArg _ (line t ht)
  rw [here, kinds, List.map_map]
  rfl

end Scanner

end

namespace Bytes

theorem depthBehind_le (d : Nat) (r : Bytes) : depthBehind d r ≤ d + 1 := by
  unfold depthBehind
  split <;> omega

def spaces (r : Bytes) : Nat := (r.takeWhile (· == Byte.space)).length

theorem blanks_of_plain {r : Bytes} (plain : Byte.tab ∉ r.blanks) :
    r.blanks = r.takeWhile (· == Byte.space) := by
  induction r with
  | nil => rfl
  | cons b r ih =>
    unfold blanks at plain ih ⊢
    rw [List.takeWhile_cons] at plain
    rw [List.takeWhile_cons, List.takeWhile_cons]
    by_cases space : b = Byte.space
    · simp only [space, beq_self_eq_true, Bool.true_or, if_true] at plain ⊢
      rw [ih fun there => plain (List.mem_cons_of_mem _ there)]
    · have other : b ≠ Byte.tab := by
        rintro rfl
        exact plain (by simp)
      simp [space, other]

theorem breadth_of_plain {r : Bytes} (plain : Byte.tab ∉ r.blanks) : r.breadth = r.spaces := by
  have all : r.takeWhile (· == Byte.space) = List.replicate r.spaces Byte.space :=
    List.eq_replicate_iff.2 ⟨rfl, fun b hb => by simpa using List.mem_takeWhile_imp hb⟩
  rw [breadth, blanks_of_plain plain, all, Scanner.width_replicate]

def turn (v w : Nat) : List Kind :=
  if w = v + 4 then [.indent] else List.replicate ((v - w) / 4) .dedent

/-- What opens and closes on the lines from line `n` on, where the line before them is indented by
`v` spaces and blank lines do not count. What is open at the end closes on line `last`. -/
def turns (last v n : Nat) : List Bytes → List (Kind × Nat)
  | [] => List.replicate (v / 4) (.dedent, last)
  | r :: rows =>
    if r.isBare then turns last v (n + 1) rows
    else (turn v r.spaces).map (·, n) ++ turns last r.spaces (n + 1) rows

theorem turn_levels {d e : Nat} (h : e ≤ d + 1) :
    turn (4 * d) (4 * e) = (Scanner.margin d e).map (·.kind) := by
  unfold turn Scanner.margin
  by_cases deeper : e = d + 1
  · rw [if_pos (by omega), if_neg (by omega)]
    rfl
  · have closed : (4 * d - 4 * e) / 4 = d - e := by omega
    rw [if_neg (by omega), if_pos (by omega), closed, List.map_replicate]
    rfl

end Bytes

def Fault.indentation : List Fault := [.badIndentation, .tabIndentation, .unmatchedDedent]

/-- Nothing is reported of the indentation. -/
def IndentsEvenly (rs : List Report) : Prop := ∀ x ∈ rs, ∀ f ∈ Fault.indentation, x.code ≠ f.code

instance (rs : List Report) : Decidable (IndentsEvenly rs) :=
  inferInstanceAs (Decidable (∀ x ∈ rs, ∀ f ∈ Fault.indentation, x.code ≠ f.code))

namespace Scanner

variable {n d : Nat} {r : Bytes} {ts ps qs : List Token} {a : Token} {rs : List Report}

theorem Inside.flat (h : Inside n ts) : ∀ t ∈ ts, t.kind.isContent = true ∨ t.kind = .newline := by
  obtain ⟨⟨cs, nl, rfl, words, ends⟩, -⟩ := h
  intro t ht
  exact (List.mem_append.1 ht).imp (words t) (ends t)

namespace RowTokens

theorem line (h : RowTokens n d r ts) : ∀ t ∈ ts, t.location.line = n := by
  obtain ⟨⟨ms, us, rfl, -, line, inside⟩, -⟩ := h
  intro t ht
  exact (List.mem_append.1 ht).elim (line t) (inside.line t)

theorem climb (h : RowTokens n d r ts) : climb d ts = some (r.depthBehind d) := by
  obtain ⟨⟨ms, us, rfl, kinds, -, inside⟩, -⟩ := h
  rw [climb_append, climb_kinds kinds, climb_margin (Bytes.depthBehind_le d r), Option.bind_some,
    climb_flat inside.flat]

theorem layout (h : RowTokens n d r ts) :
    layout ts = (margin d (r.depthBehind d)).map fun t => (t.kind, n) := by
  obtain ⟨⟨ms, us, rfl, kinds, line, inside⟩, -⟩ := h
  rw [layout_append, layout_margin kinds line, layout_flat inside.flat, List.append_nil]

theorem before (h : RowTokens n d r (ps ++ a :: qs)) (content : a.kind.isContent = true) :
    r.isBare = false ∧ StepsLang.climb d ps = some (r.depthBehind d) ∧
      StepsLang.layout ps = (margin d (r.depthBehind d)).map (fun t => (t.kind, n)) ∧
      StepsLang.layout qs = [] := by
  have filled : r.isBare = false := by
    rw [Bool.eq_false_iff]
    intro bare
    have none := h.bare bare
    simp at none
  obtain ⟨ms, us, split, kinds, line, inside⟩ := h.parts
  have out : a ∉ ms := by
    intro there
    have kind : a.kind ∈ (margin d (r.depthBehind d)).map (·.kind) :=
      kinds ▸ List.mem_map_of_mem there
    obtain ⟨x, hx, same⟩ := List.mem_map.1 kind
    rw [← same] at content
    rcases kind_margin x hx with other | other <;> simp [other, Kind.isContent] at content
  obtain ⟨ws, rfl, rfl⟩ := split_right split.symm out
  have flat := inside.flat
  have early : ∀ t ∈ ws, t.kind.isContent = true ∨ t.kind = .newline := fun t ht =>
    flat t (List.mem_append_left _ ht)
  have late : ∀ t ∈ qs, t.kind.isContent = true ∨ t.kind = .newline := fun t ht =>
    flat t (List.mem_append_right _ (List.mem_cons_of_mem _ ht))
  refine ⟨filled, ?_, ?_, layout_flat late⟩
  · rw [climb_append, climb_kinds kinds, climb_margin (Bytes.depthBehind_le d r), Option.bind_some,
      climb_flat early]
  · rw [layout_append, layout_margin kinds line, layout_flat early, List.append_nil]

end RowTokens

namespace Page

variable {rows : List Bytes}

theorem line (h : Page rs n d rows ts) : ∀ t ∈ ts, n ≤ t.location.line := by
  induction h with
  | nil => simp
  | cons tokens _ _ ih =>
    intro t ht
    rcases List.mem_append.1 ht with here | later
    · exact (tokens.line t here).ge
    · exact Nat.le_of_succ_le (ih t later)

theorem climb (h : Page rs n d rows ts) :
    climb d ts = some (rows.foldl Bytes.depthBehind d) := by
  induction h with
  | nil => rfl
  | cons tokens _ _ ih => rw [climb_append, tokens.climb, Option.bind_some, ih, List.foldl_cons]

structure Cut (rs : List Report) (n d : Nat) (before : List Bytes) (r : Bytes) (after : List Bytes)
    (ps us : List Token) (a : Token) (xs qs : List Token) : Prop where
  front : Page rs n d before ps
  tokens : RowTokens (n + before.length) (before.foldl Bytes.depthBehind d) r (us ++ a :: xs)
  reports : RowReports (n + before.length) (before.foldl Bytes.depthBehind d) r rs
  back : Page rs (n + before.length + 1) (r.depthBehind (before.foldl Bytes.depthBehind d)) after qs

namespace Cut

variable {before after : List Bytes} {us xs : List Token}

theorem line (h : Cut rs n d before r after ps us a xs qs) :
    a.location.line = n + before.length := h.tokens.line a (by simp)

theorem climb (h : Cut rs n d before r after ps us a xs qs) (content : a.kind.isContent = true) :
    StepsLang.climb d (ps ++ us) = some (r.depthBehind (before.foldl Bytes.depthBehind d)) := by
  rw [climb_append, h.front.climb]
  exact (h.tokens.before content).2.1

end Cut

theorem cut (h : Page rs n d rows ts) (split : ts = ps ++ a :: qs) :
    ∃ before r after ps' us xs qs', rows = before ++ r :: after ∧ ps = ps' ++ us ∧ qs = xs ++ qs' ∧
      Cut rs n d before r after ps' us a xs qs' := by
  induction h generalizing ps with
  | nil => simp at split
  | @cons n d r more ts later tokens reports rest ih =>
    by_cases there : a ∈ ts
    · have out : a ∉ later := fun beyond => by
        have below := rest.line a beyond
        rw [tokens.line a there] at below
        exact absurd below (Nat.not_succ_le_self n)
      obtain ⟨xs, rfl, rfl⟩ := split_left split out
      exact ⟨[], r, more, [], ps, xs, later, rfl, rfl, rfl, .nil n d, tokens, reports, rest⟩
    · obtain ⟨ws, rfl, behind⟩ := split_right split there
      obtain ⟨before, q, after, ps', us, xs, qs', rfl, rfl, rfl, front, here, wrong, back⟩ :=
        ih behind
      have next : n + 1 + before.length = n + (r :: before).length := by
        rw [List.length_cons]
        omega
      rw [next] at here wrong back
      exact ⟨r :: before, q, after, ts ++ ps', us, xs, qs', rfl, (List.append_assoc ..).symm, rfl,
        .cons tokens reports front, here, wrong, back⟩

end Page

namespace RowReports

theorem plain (h : RowReports n d r rs) (even : IndentsEvenly rs) : Byte.tab ∉ r.blanks := by
  intro tab
  obtain ⟨x, hx, code⟩ := h.tabs tab
  exact even x hx .tabIndentation (by decide) code

theorem spaces (h : RowReports n d r rs) (even : IndentsEvenly rs) (filled : r.isBare = false) :
    r.spaces = 4 * r.depthBehind d := by
  have wide := h.width filled
  have whole : r.breadth % 4 = 0 := by
    by_contra odd
    obtain ⟨x, hx, code | code⟩ := wide.uneven odd
    · exact even x hx .badIndentation (by decide) code
    · exact even x hx .unmatchedDedent (by decide) code
  have near : r.breadth / 4 ≤ d + 1 := by
    by_contra far
    obtain ⟨x, hx, code, -⟩ := wide.jump (by omega)
    exact even x hx .badIndentation (by decide) code
  rw [← Bytes.breadth_of_plain (h.plain even), Bytes.depthBehind_filled filled]
  omega

end RowReports

namespace Page

variable {between after : List Bytes}

theorem blank {rows : List Bytes} (h : Page rs n d rows ts) (bare : ∀ x ∈ rows, x.isBare = true) :
    ts = [] ∧ rows.foldl Bytes.depthBehind d = d := by
  induction h with
  | nil => exact ⟨rfl, rfl⟩
  | cons tokens _ _ ih =>
    obtain ⟨first, rest⟩ := List.forall_mem_cons.1 bare
    obtain ⟨rfl, same⟩ := ih rest
    obtain rfl := tokens.bare first
    exact ⟨rfl, by rw [List.foldl_cons, same, Bytes.depthBehind_bare first]⟩

theorem layout_next (h : Page rs n d (between ++ r :: after) (ps ++ a :: qs))
    (bare : ∀ x ∈ between, x.isBare = true) (content : a.kind.isContent = true)
    (line : a.location.line = n + between.length) :
    r.isBare = false ∧ StepsLang.layout ps =
      (margin d (r.depthBehind d)).map fun t => (t.kind, a.location.line) := by
  obtain ⟨between', r', after', ps', us, xs, qs', rows, rfl, -, cut⟩ := h.cut rfl
  have lines := cut.line
  obtain ⟨rfl, rest⟩ := List.append_inj rows (by omega)
  obtain ⟨rfl, -⟩ := List.cons.inj rest
  obtain ⟨rfl, stays⟩ := cut.front.blank bare
  obtain ⟨filled, -, turns, -⟩ := cut.tokens.before content
  exact ⟨filled, by rw [List.nil_append, turns, stays, lines]⟩

end Page

theorem layout_finish (s : Scanner) :
    StepsLang.layout s.finish = List.replicate (s.levels.length - 1) (.dedent, s.line) := by
  simp only [finish, layout_append]
  split <;> simp [StepsLang.layout, token, location]

theorem Page.layout {rows : List Bytes} (h : Page rs n d rows ts) (even : IndentsEvenly rs)
    (last : Nat) :
    layout ts ++ List.replicate (rows.foldl Bytes.depthBehind d) (.dedent, last) =
      Bytes.turns last (4 * d) n rows := by
  induction h with
  | nil n d =>
    have closed : 4 * d / 4 = d := by omega
    rw [Bytes.turns, closed]
    rfl
  | @cons n d r more ts us tokens reports rest ih =>
    rw [layout_append, List.append_assoc, List.foldl_cons, ih, tokens.layout, Bytes.turns]
    cases bare : r.isBare with
    | true =>
      rw [Bytes.depthBehind_bare bare, margin, if_pos (Nat.le_refl d), Nat.sub_self]
      rfl
    | false =>
      rw [reports.spaces even bare, Bytes.turn_levels (Bytes.depthBehind_le d r), List.map_map]
      rfl

end Scanner

namespace TokenStream
open Scanner

theorem page_ofSource (file : Nat) {source : Bytes} (plain : NoComment source) :
    ∃ ts, ∃ t : Scanner, (ofSource file source).tokens.map (·.token) = ts ++ t.finish ∧
      (ofSource file source).last = t.location ∧
      t.levels = levelsAt ((text source).rows.foldl Bytes.depthBehind 0) ∧
      Page (ofSource file source).reports 1 0 (text source).rows ts := by
  obtain ⟨bs, t, scans, done, levels, page⟩ := scans_page (s := start file source) (d := 0)
    (fun _ => rfl) rfl (plain_text plain)
  have run := scans.run_done done
  refine ⟨_, t, ?_, congrArg Prod.snd run, levels, page _ fun x hx => ?_⟩
  · rw [tokens_ofSource, token_spread, run]
    simp
  · rw [reports, tokens_ofSource, reports_spread_run, run]
    simp only [List.mem_append, List.flatMap_append]
    exact .inr (.inl hx)

theorem cut_ofSource (file : Nat) {source : Bytes} (plain : NoComment source) {ps qs : List Token}
    {a : Token} (tokens : (ofSource file source).tokens.map (·.token) = ps ++ a :: qs)
    (content : a.kind.isContent = true) :
    ∃ before r after ps' us xs qs' zs, (text source).rows = before ++ r :: after ∧
      ps = ps' ++ us ∧ qs = xs ++ qs' ++ zs ∧ (∀ z ∈ zs, z.kind.isContent = false) ∧
      Page.Cut (ofSource file source).reports 1 0 before r after ps' us a xs qs' := by
  obtain ⟨ts, t, whole, -, -, page⟩ := page_ofSource file plain
  have out : a ∉ t.finish := fun there => by
    rw [content_finish t a there] at content
    cases content
  obtain ⟨qs₀, split, rfl⟩ := split_left (whole.symm.trans tokens) out
  obtain ⟨before, r, after, ps', us, xs, qs', rows, rfl, rfl, cut⟩ := page.cut split
  exact ⟨before, r, after, ps', us, xs, qs', t.finish, rows, rfl, rfl, content_finish t, cut⟩

/-- Where nothing is wrong with the indentation, the blocks that are open at a word are as many as
the spaces before its line, by four, and blocks open and close where the width of the lines changes,
as many as it changes by levels. -/
theorem ofSource_depth (file : Nat) {source : Bytes} (plain : NoComment source)
    (even : IndentsEvenly (ofSource file source).reports) :
    let tokens := (ofSource file source).tokens.map (·.token)
    (∀ ps t qs, tokens = ps ++ t :: qs → t.kind.isContent = true →
      ∃ n r, t.location.line = n + 1 ∧ (text source).rows[n]? = some r ∧ 4 ∣ r.spaces ∧
        indents ps = dedents ps + r.spaces / 4) ∧
      layout tokens = Bytes.turns (ofSource file source).last.line 0 1 (text source).rows := by
  intro tokens
  constructor
  · intro ps t qs split content
    obtain ⟨before, r, after, ps', us, xs, qs', zs, rows, rfl, -, -, cut⟩ :=
      cut_ofSource file plain split content
    have count := climb_count (cut.climb content)
    have width := cut.reports.spaces even (cut.tokens.before content).1
    refine ⟨before.length, r, by rw [cut.line, Nat.add_comm], by simp [rows], ⟨_, width⟩, ?_⟩
    omega
  · obtain ⟨ts, t, whole, last, levels, page⟩ := page_ofSource file plain
    have turns := page.layout even (ofSource file source).last.line
    rw [show tokens = ts ++ t.finish from whole, layout_append, layout_finish, levels,
      length_levelsAt, ← turns, last]
    rfl

theorem ofSource_depth_two :
    let source : Bytes := "do:\n    display 1\n\n        display 2\ndisplay 3\n"
    let tokens := (ofSource 1 source).tokens.map (·.token)
    NoComment source ∧ IndentsEvenly (ofSource 1 source).reports ∧
      (∃ n r, 4 = n + 1 ∧ (text source).rows[n]? = some r ∧ 4 ∣ r.spaces ∧
        indents (tokens.take 7) = dedents (tokens.take 7) + r.spaces / 4) ∧
      layout tokens = [(.indent, 2), (.indent, 4), (.dedent, 5), (.dedent, 5)] := by
  intro source tokens
  obtain ⟨plain, even, split, content, line⟩ :
      NoComment source ∧ IndentsEvenly (ofSource 1 source).reports ∧
      tokens = tokens.take 7 ++ tokens[7]! :: tokens.drop 8 ∧
      tokens[7]!.kind.isContent = true ∧ tokens[7]!.location.line = 4 := by
    decide +kernel
  obtain ⟨depth, turns⟩ := ofSource_depth 1 plain even
  exact ⟨plain, even, line ▸ depth _ _ _ split content, turns.trans (by decide +kernel)⟩

/-- Two words on lines that are indented equally wide, with nothing but blank lines between them,
stand in the same block, also where the indentation is faulty; only where the first of the lines is
indented by more than one level at once, which is reported, is it at a lower level than its width
says, and then the second opens one block more. -/
theorem ofSource_level (file : Nat) {source : Bytes} (plain : NoComment source)
    {before between after : List Bytes} {r q : Bytes} {ps ms qs : List Token} {a b : Token}
    (rows : (text source).rows = before ++ r :: (between ++ q :: after))
    (blank : ∀ x ∈ between, x.isBare = true) (wide : q.breadth = r.breadth)
    (tokens : (ofSource file source).tokens.map (·.token) = ps ++ a :: (ms ++ b :: qs))
    (content : a.kind.isContent = true) (line : a.location.line = before.length + 1)
    (content' : b.kind.isContent = true)
    (line' : b.location.line = before.length + between.length + 2) :
    ∃ d, indents ps = dedents ps + d ∧
      (d = r.breadth / 4 ∧ layout ms = [] ∨
        d < r.breadth / 4 ∧ layout ms = [(.indent, b.location.line)] ∧
          ∃ x ∈ (ofSource file source).reports, x.code = Fault.badIndentation.code ∧
            x.message = "Indentation increased by more than one level." ∧
            x.location.line = a.location.line) := by
  obtain ⟨before', r', after', ps', us, xs, qs', zs, rows', rfl, behind, late, cut⟩ :=
    cut_ofSource file plain tokens content
  -- The line of `a` is the one that is given.
  have same := cut.line
  obtain ⟨rfl, rest⟩ := List.append_inj (rows.symm.trans rows') (by omega)
  obtain ⟨rfl, rfl⟩ := List.cons.inj rest
  -- What stands between the words is the rest of that line and the margin of the next.
  obtain ⟨w, between', -⟩ := split_left behind.symm fun there => by
    rw [late b there] at content'
    cases content'
  obtain ⟨vs, rfl, next⟩ := split_right between' fun there => by
    have := cut.tokens.line b (by simp [there])
    omega
  obtain ⟨filled, -, -, flat⟩ := cut.tokens.before content
  obtain ⟨filled', turns⟩ := (next ▸ cut.back).layout_next blank content' (by omega)
  have count := climb_count (cut.climb content)
  rw [Bytes.depthBehind_filled filled] at count turns
  rw [Bytes.depthBehind_filled filled', wide] at turns
  refine ⟨min (before.foldl Bytes.depthBehind 0 + 1) (r.breadth / 4), by omega, ?_⟩
  rw [layout_append, flat, List.nil_append, turns]
  by_cases jump : before.foldl Bytes.depthBehind 0 + 1 < r.breadth / 4
  · obtain ⟨x, hx, code, message, there⟩ := (cut.reports.width filled).jump jump
    refine .inr ⟨by omega, ?_, x, hx, code, message, there.trans cut.line.symm⟩
    rw [margin, if_neg (by omega)]
    rfl
  · have level : min (before.foldl Bytes.depthBehind 0 + 1) (r.breadth / 4) = r.breadth / 4 := by
      omega
    have stays : min (r.breadth / 4 + 1) (r.breadth / 4) = r.breadth / 4 := by omega
    refine .inl ⟨level, ?_⟩
    rw [level, stays, margin, if_pos (Nat.le_refl _), Nat.sub_self]
    rfl

theorem ofSource_level_uneven :
    let source : Bytes := "do:\n     display 1\n  \n     display 2\n"
    let tokens := (ofSource 1 source).tokens.map (·.token)
    ¬ IndentsEvenly (ofSource 1 source).reports ∧ NoComment source ∧
      (∃ before between after r q, (text source).rows = before ++ r :: (between ++ q :: after) ∧
        (∀ x ∈ between, x.isBare = true) ∧ q.breadth = r.breadth) ∧
      ∃ d, indents (tokens.take 4) = dedents (tokens.take 4) + d ∧
        (d = 5 / 4 ∧ layout ((tokens.drop 5).take 2) = [] ∨
          d < 5 / 4 ∧ layout ((tokens.drop 5).take 2) = [(.indent, 4)] ∧
            ∃ x ∈ (ofSource 1 source).reports, x.code = Fault.badIndentation.code ∧
              x.message = "Indentation increased by more than one level." ∧
              x.location.line = 2) := by
  intro source tokens
  have rows : (text source).rows =
      ["do:\n"] ++ "     display 1\n" :: (["  \n"] ++ "     display 2\n" :: []) := by
    decide +kernel
  have blank : ∀ x ∈ (["  \n"] : List Bytes), x.isBare = true := by decide
  obtain ⟨odd, plain, split, content, line, content', line'⟩ :
      ¬ IndentsEvenly (ofSource 1 source).reports ∧ NoComment source ∧
      tokens = tokens.take 4 ++ tokens[4]! ::
        ((tokens.drop 5).take 2 ++ tokens[7]! :: tokens.drop 8) ∧
      tokens[4]!.kind.isContent = true ∧ tokens[4]!.location.line = 2 ∧
      tokens[7]!.kind.isContent = true ∧ tokens[7]!.location.line = 4 := by
    decide +kernel
  have level := @ofSource_level 1 source plain ["do:\n"] ["  \n"] [] "     display 1\n"
    "     display 2\n" _ _ _ _ _ rows blank rfl split content line content' line'
  rw [line, line'] at level
  exact ⟨odd, plain, ⟨["do:\n"], ["  \n"], [], _, _, rows, blank, rfl⟩, level⟩

/-- Two lines of eight spaces behind one without: between them a second block opens, and nothing is
reported of it. -/
theorem jump_opens_again :
    let source : Bytes := "display 1\n        display 2\n        display 3\n"
    let tokens := (ofSource 1 source).tokens.map (·.token)
    NoComment source ∧ Byte.tab ∉ source ∧ (text source).rows.map Bytes.spaces = [0, 8, 8] ∧
      (tokens[4]!.kind.isContent = true ∧ tokens[4]!.location.line = 2) ∧
      (tokens[8]!.kind.isContent = true ∧ tokens[8]!.location.line = 3) ∧
      layout ((tokens.drop 5).take 3) = [(.indent, 3)] ∧
      (ofSource 1 source).reports.map (·.location.line) = [2] := by
  decide +kernel

end TokenStream

end StepsLang
