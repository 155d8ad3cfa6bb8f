import StepsLang.Proofs.Token.Piece
import StepsLang.Token.Stream

namespace StepsLang

def Token.unlocated (t : Token) : Token := { t with location := {} }

def Token.newline : Token := { kind := .newline }

def Token.indent : Token := { kind := .indent }

def Token.dedent : Token := { kind := .dedent }

def Token.endOfFile : Token := {}

def render (ps : List Piece) : Bytes := ps.flatMap Piece.spelling

def tokens (ps : List Piece) : List Token := ps.filterMap Piece.token?

/-- Each piece can stand before the next ones, and the last one before what follows. -/
def Fit : List Piece → Bytes → Prop
  | [], _ => True
  | p :: ps, more => p.Before (render ps ++ more) ∧ Fit ps more

@[simp] theorem render_cons (p : Piece) (ps : List Piece) :
    render (p :: ps) = p.spelling ++ render ps := rfl

@[simp] theorem render_append (ps qs : List Piece) : render (ps ++ qs) = render ps ++ render qs :=
  List.flatMap_append

@[simp] theorem tokens_nil : tokens [] = [] := rfl

theorem tokens_cons (p : Piece) (ps : List Piece) :
    tokens (p :: ps) = p.token?.toList ++ tokens ps := by
  rw [tokens, List.filterMap_cons]
  cases p.token? <;> rfl

@[simp] theorem tokens_append (ps qs : List Piece) : tokens (ps ++ qs) = tokens ps ++ tokens qs :=
  List.filterMap_append

theorem fit_append {ps qs : List Piece} {more : Bytes} :
    Fit (ps ++ qs) more ↔ Fit ps (render qs ++ more) ∧ Fit qs more := by
  induction ps with
  | nil => simp [Fit]
  | cons p ps ih => simp [Fit, ih, and_assoc]

namespace Scanner

structure Stands (s : Scanner) (fresh : Bool) (levels : List Nat) (last : Kind)
    (rest : Bytes) : Prop where
  rest : s.rest = rest
  fresh : s.fresh = fresh
  levels : s.levels = levels
  last : s.last = last

inductive Reaches : Scanner → List Token → Scanner → Prop
  | refl (s : Scanner) : Reaches s [] s
  | step {s t u : Scanner} {made ts : List Token} (first : s.step = some (t, ⟨[], made⟩))
    (more : Reaches t ts u) : Reaches s (made ++ ts) u

theorem Reaches.one {s t : Scanner} {made : List Token} (h : s.step = some (t, ⟨[], made⟩)) :
    Reaches s made t := by
  have both := Reaches.step h (.refl t)
  rwa [List.append_nil] at both

theorem Reaches.trans {s t u : Scanner} {ts us : List Token} (h : Reaches s ts t)
    (h' : Reaches t us u) : Reaches s (ts ++ us) u := by
  induction h with
  | refl => exact h'
  | step first _ ih =>
    rw [List.append_assoc]
    exact .step first (ih h')

variable {s : Scanner} {fresh : Bool} {levels : List Nat} {last : Kind} {more : Bytes}

theorem stands_skip {w : Bytes} (h : s.Stands fresh levels last (w ++ more))
    (line : w.all (· != Byte.lineFeed) = true) :
    (s.skip w.length).Stands fresh levels last more := by
  induction w generalizing s with
  | nil => exact h
  | cons b w ih =>
    rw [List.all_cons, Bool.and_eq_true] at line
    have other : (b == Byte.lineFeed) = false := by simpa using line.1
    simp only [List.length_cons, skip, h.rest, List.cons_append]
    refine ih ?_ line.2
    unfold pass
    rw [other]
    split
    · contradiction
    · split
      · exact ⟨rfl, h.fresh, h.levels, h.last⟩
      · exact ⟨rfl, h.fresh, h.levels, h.last⟩

theorem reaches_piece {p : Piece} (hp : p.isSound = true) (hm : p.Before more)
    (h : s.Stands false levels last (p.spelling ++ more)) :
    ∃ t ts, Reaches s ts t ∧ ts.map Token.unlocated = p.token?.toList ∧
      t.Stands false levels ((p.token?.map (·.kind)).getD last) more := by
  obtain ⟨b, rest, whole, read⟩ := Piece.reads hp hm
  have after := stands_skip h (Piece.line_spelling hp)
  have one := step_within h.fresh (h.rest.trans whole)
  cases e : p.token? with
  | none =>
    refine ⟨s.skip p.spelling.length, [], .one ?_, rfl, after⟩
    rw [one, lexeme, read]
    simp [Piece.lexeme, e]
  | some x =>
    have other : (x.kind == .newline) = false := by simpa using Piece.kind_token? hp x e
    refine ⟨{ s.skip p.spelling.length with last := x.kind },
      [{ (s.skip p.spelling.length).token s.location x.kind x.text with value := x.value }],
      .one ?_, ?_, ⟨after.rest, after.fresh, after.levels, rfl⟩⟩
    · rw [one, lexeme, read]
      simp [Piece.lexeme, e, other]
    · have bare : x.location = {} := by
        cases p <;> cases e <;> rfl
      simp only [List.map_cons, List.map_nil, Option.toList_some, List.cons.injEq, and_true]
      cases x
      cases bare
      rfl

theorem reaches_pieces {ps : List Piece} (hp : ∀ p ∈ ps, p.isSound = true) (hm : Fit ps more)
    (h : s.Stands false levels last (render ps ++ more)) :
    ∃ t ts last', Reaches s ts t ∧ ts.map Token.unlocated = tokens ps ∧
      t.Stands false levels last' more ∧ (last ≠ .newline → last' ≠ .newline) := by
  induction ps generalizing s last with
  | nil => exact ⟨s, [], last, .refl s, rfl, h, id⟩
  | cons p ps ih =>
    rw [render_cons, List.append_assoc] at h
    have sound := hp p (by simp)
    obtain ⟨t, ts, first, same, stands⟩ := reaches_piece sound hm.1 h
    obtain ⟨u, us, last', later, same', stands', kept⟩ :=
      ih (fun q hq => hp q (by simp [hq])) hm.2 stands
    refine ⟨u, ts ++ us, last', first.trans later, ?_, stands', fun known => kept ?_⟩
    · rw [List.map_append, same, same', tokens_cons]
    · cases e : p.token? with
      | none => exact known
      | some x => exact Piece.kind_token? sound x e

theorem reaches_newline (h : s.Stands false levels last (Byte.lineFeed :: more))
    (hl : last ≠ .newline) :
    ∃ t ts, Reaches s ts t ∧ ts.map Token.unlocated = [.newline] ∧
      t.Stands true levels .newline more := by
  have other : (s.last == .newline) = false := by simpa [h.last] using hl
  have passed : s.skip 1 = s.pass Byte.lineFeed more := by
    simp only [skip, h.rest]
  refine ⟨{ s.pass Byte.lineFeed more with last := .newline },
    [(s.pass Byte.lineFeed more).token s.location .newline], .one ?_, rfl,
    ⟨rfl, rfl, h.levels, rfl⟩⟩
  rw [step_within h.fresh h.rest]
  simp [lexeme, Lexeme.read, other, passed]
  rfl

def levelsAt : Nat → List Nat
  | 0 => [0]
  | d + 1 => 4 * (d + 1) :: levelsAt d

@[simp] theorem head?_levelsAt (d : Nat) : (levelsAt d).head? = some (4 * d) := by
  cases d <;> rfl

@[simp] theorem length_levelsAt (d : Nat) : (levelsAt d).length = d + 1 := by
  induction d with
  | zero => rfl
  | succ d ih => simp [levelsAt, ih]

theorem dropWhile_levelsAt {d e : Nat} (h : d ≤ e) :
    (levelsAt e).dropWhile (fun w => 4 * d < w) = levelsAt d := by
  induction e with
  | zero =>
    obtain rfl : d = 0 := by omega
    rfl
  | succ e ih =>
    rcases Nat.lt_or_ge e d with beyond | within
    · obtain rfl : d = e + 1 := by omega
      simp [levelsAt]
    · rw [levelsAt, List.dropWhile_cons_of_pos (by simp; omega), ih within]

def margin (e d : Nat) : List Token :=
  if d ≤ e then List.replicate (e - d) .dedent else [.indent]

structure Begins (s : Bytes) : Prop where
  head : ∃ b rest, s = b :: rest ∧ b ≠ Byte.space ∧ b ≠ Byte.tab ∧ b ≠ Byte.lineFeed ∧
    b ≠ Byte.carriageReturn
  comment : Word.standsAt Word.blockCommentStart s = false

theorem begins_of_reads {p : Piece} (hp : p.isSound = true) (some : p.token?.isSome = true)
    (h : p.Reads more) : Begins (p.spelling ++ more) := by
  obtain ⟨b, rest, whole, read⟩ := h
  obtain ⟨x, hx⟩ := Option.isSome_iff_exists.1 some
  have kind : (Lexeme.read b rest).kind = .some x.kind := by
    rw [read, Piece.lexeme, hx]
  have other : x.kind ≠ .newline := Piece.kind_token? hp x hx
  rw [whole]
  refine ⟨⟨b, rest, rfl, ?_, ?_, ?_, ?_⟩, ?_⟩
  · rintro rfl
    cases kind
  · rintro rfl
    cases kind
  · rintro rfl
    exact other (Option.some.inj kind).symm
  · rintro rfl
    cases kind
  · rw [Bool.eq_false_iff]
    intro stands
    obtain ⟨t, ht⟩ := Word.isPrefix_of_standsAt stands
    have letter : b = 110 := (List.cons.inj ht).1.symm
    subst letter
    rw [Lexeme.read_eq_word rest rfl, Lexeme.word, if_pos stands] at kind
    cases kind

theorem idxOf?_tab (n : Nat) : (List.replicate n Byte.space).idxOf? Byte.tab = none := by
  refine List.idxOf?_eq_none_iff.2 fun h => ?_
  cases (List.mem_replicate.1 h).2

theorem width_replicate (n : Nat) :
    (List.replicate n Byte.space).foldl (fun n b => n + width b) 0 = n := by
  have from_ (k : Nat) :
      (List.replicate n Byte.space).foldl (fun n b => n + width b) k = k + n := by
    induction n generalizing k with
    | zero => rfl
    | succ n ih =>
      rw [List.replicate_succ, List.foldl_cons, ih]
      have one : width Byte.space = 1 := rfl
      omega
  rw [from_, Nat.zero_add]

theorem stands_remember {ts : List Token} (h : s.Stands fresh levels last more) :
    (s.remember ts).Stands fresh levels (s.remember ts).last more := by
  unfold remember
  split
  · exact ⟨h.rest, h.fresh, h.levels, rfl⟩
  · exact ⟨h.rest, h.fresh, h.levels, rfl⟩

def Margin (result : Scanner × Batch) (e d : Nat) (fresh : Bool) (rest : Bytes) : Prop :=
  result.2.reports = [] ∧ result.2.tokens.map Token.unlocated = margin e d ∧
    result.1.Stands fresh (levelsAt d) result.1.last rest

theorem closeLevels_margin {d e : Nat} (hd : d ≤ e) (here : Location)
    (h : s.Stands fresh (levelsAt e) last more) :
    Margin (s.closeLevels here (4 * d)) e d fresh more := by
  have kept := dropWhile_levelsAt hd
  simp only [Margin, closeLevels, h.levels, kept]
  refine ⟨by simp, ?_, stands_remember ⟨h.rest, h.fresh, rfl, rfl⟩⟩
  simp only [margin, hd, if_true, List.map_replicate, length_levelsAt, Nat.add_sub_add_right]
  rfl

theorem openLevel_margin (d : Nat) (here : Location)
    (h : s.Stands fresh (levelsAt d) last more) :
    Margin (s.openLevel here (4 * (d + 1))) d (d + 1) fresh more := by
  have level : s.level = 4 * d := by simp [level, h.levels]
  have whole : 4 * (d + 1) % 4 = 0 := by omega
  have wider : 4 * d < 4 * (d + 1) := by omega
  have next : ¬ 4 * d + 4 < 4 * (d + 1) := by omega
  simp only [Margin, openLevel, level, whole, Nat.sub_zero, wider, next, if_true, if_false]
  refine ⟨rfl, ?_, h.rest, h.fresh, ?_, rfl⟩
  · rw [margin, if_neg (by omega)]
    rfl
  · rw [h.levels]
    rfl

theorem startLine_margin {d e : Nat} (hd : d ≤ e + 1) (hm : Begins more)
    (h : s.Stands true (levelsAt e) last (List.replicate (4 * d) Byte.space ++ more)) :
    Margin s.startLine e d false more := by
  obtain ⟨b, rest, rfl, space, tab, lineFeed, carriageReturn⟩ := hm.head
  have indentation : s.rest.takeWhile (fun b => b == Byte.space || b == Byte.tab) =
      List.replicate (4 * d) Byte.space := by
    rw [h.rest]
    exact Bytes.takeWhile_append (by simp) (Bytes.head_cons (by simp [space, tab]) rest)
  have below : Stands { s with fresh := false } false (levelsAt e) last
      (List.replicate (4 * d) Byte.space ++ b :: rest) := ⟨h.rest, rfl, h.levels, h.last⟩
  have blank : (List.replicate (4 * d) Byte.space).all (· != Byte.lineFeed) = true := by
    rw [List.all_replicate]
    split <;> rfl
  have after := stands_skip below blank
  rw [List.length_replicate] at after
  have filled : atLineEnd (b :: rest) = false := by
    cases rest with
    | nil => simpa [atLineEnd] using lineFeed
    | cons c rest => simp [atLineEnd, lineFeed, carriageReturn]
  simp only [startLine, indentation, idxOf?_tab, width_replicate, List.length_replicate,
    after.rest, filled, hm.comment, Bool.false_eq_true, if_false]
  have level : (skip (4 * d) { s with fresh := false }).level = 4 * e := by
    simp [level, after.levels]
  rcases Nat.lt_or_ge e d with wider | within
  · obtain rfl : d = e + 1 := by omega
    rw [level, if_pos (by omega)]
    exact openLevel_margin e _ after
  · rw [level, if_neg (by omega)]
    exact closeLevels_margin within _ after

theorem reaches_margin {d e : Nat} (hd : d ≤ e + 1) (hm : Begins more)
    (h : s.Stands true (levelsAt e) last (List.replicate (4 * d) Byte.space ++ more)) :
    ∃ t ts, Reaches s ts t ∧ ts.map Token.unlocated = margin e d ∧
      t.Stands false (levelsAt d) t.last more := by
  have ⟨quiet, made, stands⟩ := startLine_margin hd hm h
  refine ⟨s.startLine.1, s.startLine.2.tokens, .one ?_, made, stands⟩
  have filled : s.rest ≠ [] := by
    obtain ⟨b, rest, rfl, _⟩ := hm.head
    rw [h.rest]
    simp
  rw [step_start h.fresh filled, ← quiet]

end Scanner

structure Row (ps : List Piece) : Prop where
  begins : ∃ p qs, ps = p :: qs ∧ p.token?.isSome = true
  sound : ∀ p ∈ ps, p.isSound = true
  fit : ∀ more, Fit ps (Byte.lineFeed :: more)

structure Line where
  depth : Nat
  pieces : List Piece

namespace Line

def text (l : Line) : Bytes :=
  List.replicate (4 * l.depth) Byte.space ++ (render l.pieces ++ [Byte.lineFeed])

def layout : Nat → List Line → List Token
  | e, [] => List.replicate e .dedent ++ [.endOfFile]
  | e, l :: ls =>
    Scanner.margin e l.depth ++ (tokens l.pieces ++ .newline :: layout l.depth ls)

def Stepwise : Nat → List Line → Prop
  | _, [] => True
  | e, l :: ls => l.depth ≤ e + 1 ∧ Stepwise l.depth ls

end Line

namespace Scanner

variable {s : Scanner} {more : Bytes}

theorem reaches_line {l : Line} {e : Nat} (hl : Row l.pieces) (hd : l.depth ≤ e + 1)
    (h : s.Stands true (levelsAt e) .newline (l.text ++ more)) :
    ∃ t ts, Reaches s ts t ∧
      ts.map Token.unlocated = margin e l.depth ++ (tokens l.pieces ++ [.newline]) ∧
      t.Stands true (levelsAt l.depth) .newline more := by
  obtain ⟨d, ps⟩ := l
  obtain ⟨⟨p, qs, rfl, some⟩, sound, fit⟩ := hl
  have fits := fit more
  have first := sound p (by simp)
  have begins := begins_of_reads first some (Piece.reads first fits.1)
  simp only [Line.text, List.append_assoc, List.cons_append, List.nil_append, render_cons] at h
  obtain ⟨t, ts, start, same, stands⟩ := reaches_margin hd begins h
  obtain ⟨u, us, one, same', stands'⟩ := reaches_piece first fits.1 stands
  obtain ⟨x, hx⟩ := Option.isSome_iff_exists.1 some
  have known : ((p.token?.map (·.kind)).getD t.last) ≠ .newline := by
    rw [hx]
    exact Piece.kind_token? first x hx
  obtain ⟨v, vs, last, rest, same'', stands'', kept⟩ :=
    reaches_pieces (fun q hq => sound q (by simp [hq])) fits.2 stands'
  obtain ⟨w, ws, done, same''', stands'''⟩ := reaches_newline stands'' (kept known)
  refine ⟨w, ts ++ (us ++ (vs ++ ws)), start.trans (one.trans (rest.trans done)), ?_, stands'''⟩
  simp [tokens_cons, same, same', same'', same''']

theorem reaches_lines {ls : List Line} {e : Nat} (hl : ∀ l ∈ ls, Row l.pieces)
    (hd : Line.Stepwise e ls)
    (h : s.Stands true (levelsAt e) .newline (ls.flatMap Line.text)) :
    ∃ t ts, Reaches s ts t ∧ (ts ++ t.finish).map Token.unlocated = Line.layout e ls ∧
      t.rest = [] := by
  induction ls generalizing s e with
  | nil =>
    refine ⟨s, [], .refl s, ?_, h.rest⟩
    simp [finish, h.last, h.levels, Line.layout]
    exact ⟨.inr rfl, rfl⟩
  | cons l ls ih =>
    obtain ⟨t, ts, first, same, stands⟩ := reaches_line (hl l (by simp)) hd.1 h
    obtain ⟨u, us, rest, same', done⟩ := ih (fun m hm => hl m (by simp [hm])) hd.2 stands
    refine ⟨u, ts ++ us, first.trans rest, ?_, done⟩
    rw [List.append_assoc, List.map_append, same, same']
    simp [Line.layout]

end Scanner

namespace TokenStream
open Scanner

def quiet (ts : List Token) : List Heard := ts.map (⟨[], ·⟩)

theorem tokens_quiet (ts : List Token) : (quiet ts).map (·.token) = ts := by
  rw [quiet, List.map_map]
  exact List.map_id ts

theorem spread_made (made : List Token) (bs : List Batch) :
    spread [] (⟨[], made⟩ :: bs) = quiet made ++ spread [] bs := by
  cases made with
  | nil => rfl
  | cons t made => rfl

theorem run_of_none {s : Scanner} (h : s.step = none) :
    s.run = ([⟨[], s.finish⟩], s.location) := by
  rw [run]
  split
  · rfl
  · next other =>
    rw [h] at other
    cases other

theorem run_of_some {s t : Scanner} {b : Batch} (h : s.step = some (t, b)) :
    s.run.1 = b :: t.run.1 := by
  rw [run]
  split
  · next other =>
    rw [h] at other
    cases other
  · next same =>
    rw [h] at same
    cases same
    rfl

theorem spread_run {s t : Scanner} {ts : List Token} (h : Reaches s ts t) (done : t.rest = []) :
    spread [] s.run.1 = quiet (ts ++ t.finish) := by
  induction h with
  | refl s =>
    have stop : s.step = none := by
      rw [step]
      simp [done]
    rw [run_of_none stop, spread_made]
    simp [spread]
  | step first _ ih =>
    rw [run_of_some first, spread_made, ih done]
    simp [quiet]

theorem wellFormed_render {ps : List Piece} (h : ∀ p ∈ ps, p.isSound = true) :
    Utf8.WellFormed (render ps) := by
  induction ps with
  | nil => exact .nil
  | cons p ps ih =>
    exact (Piece.wellFormed_spelling (h p (by simp))).append (ih fun q hq => h q (by simp [hq]))

theorem wellFormed_lines {ls : List Line} (h : ∀ l ∈ ls, Row l.pieces) :
    Utf8.WellFormed (ls.flatMap Line.text) := by
  induction ls with
  | nil => exact .nil
  | cons l ls ih =>
    have blanks : Utf8.WellFormed (List.replicate (4 * l.depth) Byte.space) := by
      refine Utf8.wellFormed_of_ascii fun b hb => ?_
      rw [(List.mem_replicate.1 hb).2]
      decide
    have lineFeed : Utf8.WellFormed [Byte.lineFeed] := Utf8.wellFormed_of_all (by decide)
    have pieces := wellFormed_render (h l (by simp)).sound
    exact (blanks.append (pieces.append lineFeed)).append (ih fun m hm => h m (by simp [hm]))

theorem unmarked {ls : List Line} (h : ∀ l ∈ ls, Row l.pieces) :
    Bytes.startsWith (ls.flatMap Line.text) byteOrderMark = false := by
  cases ls with
  | nil => rfl
  | cons l ls =>
    obtain ⟨d, ps⟩ := l
    obtain ⟨⟨p, qs, rfl, some⟩, sound, fit⟩ := h _ List.mem_cons_self
    have first := sound p (by simp)
    obtain ⟨b, rest, whole, read⟩ := Piece.reads first (fit (ls.flatMap Line.text)).1
    cases d with
    | succ d => rfl
    | zero =>
      -- A line at the margin begins with a token, and no token begins like the mark.
      rw [Bool.eq_false_iff]
      intro marked
      obtain ⟨t, ht⟩ := List.isPrefixOf_iff_prefix.1 marked
      simp [Line.text] at ht
      rw [whole] at ht
      have first : b = 0xEF := (List.cons.inj ht).1.symm
      subst first
      obtain ⟨x, hx⟩ := Option.isSome_iff_exists.1 some
      have kind := congrArg Lexeme.kind read
      rw [Piece.lexeme, hx] at kind
      cases kind

theorem ofSource_lines (file : Nat) {ls : List Line} (hl : ∀ l ∈ ls, Row l.pieces)
    (hd : Line.Stepwise 0 ls) :
    ∃ ts, (ofSource file (ls.flatMap Line.text)).tokens = quiet ts ∧
      ts.map Token.unlocated = Line.layout 0 ls := by
  have valid : encoding file (ls.flatMap Line.text) 0 = [] := by
    rw [encoding, (wellFormed_lines hl).malformed?]
  have start : Stands { file, rest := ls.flatMap Line.text } true (levelsAt 0) .newline
      (ls.flatMap Line.text) := ⟨rfl, rfl, rfl, rfl⟩
  obtain ⟨t, ts, reach, same, done⟩ := reaches_lines hl hd start
  refine ⟨ts ++ t.finish, ?_, same⟩
  simp only [ofSource, unmarked hl, Bool.false_eq_true, if_false]
  rw [valid, spread_run reach done]

end TokenStream

end StepsLang
