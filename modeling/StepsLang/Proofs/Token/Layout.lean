import StepsLang.Proofs.Token.Lexeme
import StepsLang.Proofs.Token.Scan

namespace StepsLang

inductive Spot
  | fresh | opened | closed | inside
  deriving DecidableEq, Repr

def Kind.spot : Kind → Spot
  | .newline => .fresh
  | .indent => .opened
  | .dedent => .closed
  | _ => .inside

/-- A place between two tokens: how many blocks are open there, and what stands before it. -/
structure Place where
  depth : Nat
  spot : Spot
  deriving DecidableEq, Repr

namespace Place

def next (x : Place) (k : Kind) : Option Place :=
  match k, x with
  | .endOfFile, _ | .newline, ⟨_, .fresh⟩ | .dedent, ⟨_, .inside⟩ | .dedent, ⟨0, _⟩ => none
  | .newline, ⟨d, _⟩ => some ⟨d, .fresh⟩
  | .indent, ⟨d, .fresh⟩ => some ⟨d + 1, .opened⟩
  | .indent, _ => none
  | .dedent, ⟨d + 1, _⟩ => some ⟨d, .closed⟩
  | _, ⟨d, _⟩ => some ⟨d, .inside⟩

def after (x : Place) : List Token → Option Place
  | [] => some x
  | t :: ts => (x.next t.kind).bind (·.after ts)

theorem spot_content {k : Kind} (h : k.isContent = true) : k.spot = .inside := by
  cases k <;> first | contradiction | rfl

theorem ne_of_content {k l : Kind} (h : k.isContent = true) (hl : l.isContent = false) :
    k ≠ l := by
  rintro rfl
  rw [h] at hl
  cases hl

theorem next_content {x : Place} {k : Kind} (h : k.isContent = true) :
    x.next k = some ⟨x.depth, k.spot⟩ := by
  cases k <;> first | contradiction | rfl

theorem next_cases {x y : Place} {k : Kind} (h : x.next k = some y) :
    k.isContent = true ∧ y = ⟨x.depth, .inside⟩ ∨
    k = .newline ∧ x.spot ≠ .fresh ∧ y = ⟨x.depth, .fresh⟩ ∨
    k = .indent ∧ x.spot = .fresh ∧ y = ⟨x.depth + 1, .opened⟩ ∨
    k = .dedent ∧ x.spot ≠ .inside ∧ ∃ d, x.depth = d + 1 ∧ y = ⟨d, .closed⟩ := by
  cases content : k.isContent with
  | true =>
    rw [next_content content, spot_content content] at h
    exact .inl ⟨rfl, (Option.some.inj h).symm⟩
  | false =>
    obtain ⟨d, s⟩ := x
    cases k with
    | newline => cases s <;> cases h <;> exact .inr (.inl ⟨rfl, Spot.noConfusion, rfl⟩)
    | indent =>
      cases s <;> cases h
      exact .inr (.inr (.inl ⟨rfl, rfl, rfl⟩))
    | dedent =>
      cases s <;> cases d <;> cases h <;>
        exact .inr (.inr (.inr ⟨rfl, Spot.noConfusion, _, rfl, rfl⟩))
    | endOfFile => cases h
    | _ => cases content

theorem next_newline {x y : Place} (h : x.next .newline = some y) : y = ⟨x.depth, .fresh⟩ := by
  obtain ⟨none, -⟩ | ⟨-, -, same⟩ | ⟨none, -⟩ | ⟨none, -⟩ := next_cases h
  · cases none
  · exact same
  · cases none
  · cases none

theorem next_indent {x y : Place} (h : x.next .indent = some y) :
    x.spot = .fresh ∧ y = ⟨x.depth + 1, .opened⟩ := by
  obtain ⟨none, -⟩ | ⟨none, -⟩ | ⟨-, here⟩ | ⟨none, -⟩ := next_cases h
  · cases none
  · cases none
  · exact here
  · cases none

theorem next_dedent {x y : Place} (h : x.next .dedent = some y) :
    x.spot ≠ .inside ∧ ∃ d, x.depth = d + 1 ∧ y = ⟨d, .closed⟩ := by
  obtain ⟨none, -⟩ | ⟨none, -⟩ | ⟨none, -⟩ | ⟨-, here⟩ := next_cases h
  · cases none
  · cases none
  · cases none
  · exact here

theorem ne_dedent {x y : Place} {k : Kind} (outer : x.depth = 0) (h : x.next k = some y) :
    k ≠ .dedent := by
  rintro rfl
  obtain ⟨-, d, deep, -⟩ := next_dedent h
  rw [outer] at deep
  cases deep

theorem next_opens {x y : Place} {k : Kind} (line : k ≠ .newline) (block : k ≠ .dedent)
    (h : x.next k = some y) : k.isContent = true ∨ k = .indent := by
  obtain ⟨content, -⟩ | ⟨ends, -⟩ | ⟨opens, -⟩ | ⟨closes, -⟩ := next_cases h
  · exact .inl content
  · exact absurd ends line
  · exact .inr opens
  · exact absurd closes block

theorem spot_next {x y : Place} {k : Kind} (h : x.next k = some y) : y.spot = k.spot := by
  obtain ⟨content, rfl⟩ | ⟨rfl, -, rfl⟩ | ⟨rfl, -, rfl⟩ | ⟨rfl, -, _, -, rfl⟩ := next_cases h
  · exact (spot_content content).symm
  · rfl
  · rfl
  · rfl

theorem after_append (x : Place) (ts us : List Token) :
    x.after (ts ++ us) = (x.after ts).bind (·.after us) := by
  induction ts generalizing x with
  | nil => rfl
  | cons t ts ih =>
    simp only [List.cons_append, after, Option.bind_assoc]
    exact congrArg _ (funext ih)

theorem after_dedents {t : Token} (ht : t.kind = .dedent) {s : Spot} (hs : s ≠ .inside)
    (d n : Nat) : after ⟨d + n, s⟩ (List.replicate n t) =
      some ⟨d, if n = 0 then s else .closed⟩ := by
  induction n generalizing s with
  | zero => rfl
  | succ n ih =>
    have one : next ⟨d + (n + 1), s⟩ .dedent = some ⟨d + n, .closed⟩ := by
      cases s <;> first | contradiction | rfl
    rw [List.replicate_succ, after, ht, one, Option.bind_some, ih (by decide)]
    simp

def Sound (x : Place) : Prop := x.spot = .opened → 0 < x.depth

theorem sound_next {x y : Place} {k : Kind} (h : x.next k = some y) : y.Sound := by
  obtain ⟨-, rfl⟩ | ⟨-, -, rfl⟩ | ⟨-, -, rfl⟩ | ⟨-, -, _, -, rfl⟩ := next_cases h <;>
    simp [Sound]

theorem sound_after {x y : Place} {ts : List Token} (hx : x.Sound) (h : x.after ts = some y) :
    y.Sound := by
  induction ts generalizing x with
  | nil =>
    cases h
    exact hx
  | cons t ts ih =>
    obtain ⟨z, first, rest⟩ := Option.bind_eq_some_iff.1 h
    exact ih (sound_next first) rest

end Place

structure Leads (x : Place) (ts : List Token) (finish : Spot) : Prop where
  after : x.after ts = some ⟨0, finish⟩
  ended : finish = .fresh ∨ finish = .closed

theorem Leads.inside {d : Nat} (ts : List Token) {zs : List Token} {finish : Spot}
    (all : ∀ t ∈ ts, t.kind.isContent = true) (h : Leads ⟨d, .inside⟩ (ts ++ zs) finish) :
    ∃ t us, zs = t :: us ∧ (t.kind.isContent = true ∨ t.kind = .newline) := by
  induction ts with
  | nil =>
    cases zs with
    | nil =>
      cases h.after
      rcases h.ended with h | h <;> cases h
    | cons t us =>
      refine ⟨t, us, rfl, ?_⟩
      obtain ⟨y, one, -⟩ := Option.bind_eq_some_iff.1 h.after
      obtain ⟨content, -⟩ | ⟨line, -⟩ | ⟨-, fresh, -⟩ | ⟨-, outside, -⟩ := Place.next_cases one
      · exact .inl content
      · exact .inr line
      · cases fresh
      · exact absurd rfl outside
  | cons t ts ih =>
    obtain ⟨content, all⟩ := List.forall_mem_cons.1 all
    obtain ⟨y, one, rest⟩ := Option.bind_eq_some_iff.1 h.after
    rw [Place.next_content content, Place.spot_content content] at one
    cases one
    exact ih all ⟨rest, h.ended⟩

namespace Scanner

@[simp] theorem skip_rest (n : Nat) (s : Scanner) : (s.skip n).rest = s.rest.drop n := by
  induction n generalizing s with
  | zero => rfl
  | succ n ih =>
    unfold skip
    split
    · next h => simp [h]
    · next b rest h =>
      have passed : (s.pass b rest).rest = rest := by
        unfold pass
        split
        · rfl
        · split <;> rfl
      rw [ih, passed, h, List.drop_succ_cons]

theorem skip_kept (n : Nat) (s : Scanner) :
    (s.skip n).file = s.file ∧ (s.skip n).levels = s.levels ∧ (s.skip n).last = s.last := by
  induction n generalizing s with
  | zero => exact ⟨rfl, rfl, rfl⟩
  | succ n ih =>
    unfold skip
    split
    · exact ⟨rfl, rfl, rfl⟩
    · next b rest h =>
      have passed : (s.pass b rest).file = s.file ∧ (s.pass b rest).levels = s.levels ∧
          (s.pass b rest).last = s.last := by
        unfold pass
        split
        · exact ⟨rfl, rfl, rfl⟩
        · split <;> exact ⟨rfl, rfl, rfl⟩
      obtain ⟨file, levels, last⟩ := ih (s.pass b rest)
      exact ⟨file.trans passed.1, levels.trans passed.2.1, last.trans passed.2.2⟩

@[simp] theorem skip_file (n : Nat) (s : Scanner) : (s.skip n).file = s.file := (skip_kept n s).1

@[simp] theorem skip_levels (n : Nat) (s : Scanner) : (s.skip n).levels = s.levels :=
  (skip_kept n s).2.1

@[simp] theorem skip_last (n : Nat) (s : Scanner) : (s.skip n).last = s.last := (skip_kept n s).2.2

theorem skip_fresh {n : Nat} {s : Scanner} (h : Byte.lineFeed ∉ s.rest.take n) :
    (s.skip n).fresh = s.fresh := by
  induction n generalizing s with
  | zero => rfl
  | succ n ih =>
    unfold skip
    split
    · rfl
    · next b rest e =>
      rw [e, List.take_succ_cons, List.mem_cons, not_or] at h
      have other : (b == Byte.lineFeed) = false := by simpa using Ne.symm h.1
      have passed : (s.pass b rest).rest = rest ∧ (s.pass b rest).fresh = s.fresh := by
        unfold pass
        rw [other]
        split
        · contradiction
        · split <;> exact ⟨rfl, rfl⟩
      rw [ih (by rw [passed.1]; exact h.2), passed.2]

def place (s : Scanner) : Place := ⟨s.levels.length - 1, s.last.spot⟩

/-- What holds of a scanner between two steps. -/
structure Laid (s : Scanner) : Prop where
  levels : ∃ d, s.levels = levelsAt d
  fresh : s.fresh = true → s.last = .newline
  plain : NoComment s.rest

theorem dropWhile_levelsAt_eq (found d : Nat) :
    ∃ e, e ≤ d ∧ (levelsAt d).dropWhile (found < ·) = levelsAt e := by
  induction d with
  | zero => exact ⟨0, Nat.le_refl 0, rfl⟩
  | succ d ih =>
    rcases Nat.lt_or_ge found (4 * (d + 1)) with less | more
    · obtain ⟨e, he, same⟩ := ih
      refine ⟨e, Nat.le_succ_of_le he, ?_⟩
      rw [levelsAt, List.dropWhile_cons_of_pos (by simpa using less), same]
    · refine ⟨d + 1, Nat.le_refl _, ?_⟩
      rw [levelsAt, List.dropWhile_cons_of_neg (by simpa using more)]

theorem remember_replicate (s : Scanner) (n : Nat) (t : Token) :
    s.remember (List.replicate n t) = { s with last := if n = 0 then s.last else t.kind } := by
  cases n with
  | zero => rfl
  | succ n => simp [remember, List.getLast?_replicate]

theorem laid_closeLevels {s : Scanner} (h : s.Laid) (fresh : s.fresh = false)
    (last : s.last = .newline) (here : Location) (found : Nat) :
    (s.closeLevels here found).1.Laid ∧
      s.place.after (s.closeLevels here found).2.tokens =
        some (s.closeLevels here found).1.place := by
  obtain ⟨d, levels⟩ := h.levels
  obtain ⟨e, he, kept⟩ := dropWhile_levelsAt_eq found d
  obtain ⟨n, rfl⟩ := Nat.exists_eq_add_of_le he
  simp only [closeLevels, levels, kept, length_levelsAt, Nat.add_sub_add_right,
    Nat.add_sub_cancel_left, remember_replicate, place]
  refine ⟨⟨⟨e, rfl⟩, fun now => ?_, h.plain⟩, ?_⟩
  · rw [fresh] at now
    cases now
  · rw [last]
    refine Eq.trans
      (Place.after_dedents (t := s.token here .dedent) rfl (s := .fresh) (by decide) e n) ?_
    split <;> rfl

theorem laid_openLevel {s : Scanner} (h : s.Laid) (fresh : s.fresh = false)
    (last : s.last = .newline) (here : Location) (found : Nat) :
    (s.openLevel here found).1.Laid ∧
      s.place.after (s.openLevel here found).2.tokens = some (s.openLevel here found).1.place := by
  obtain ⟨d, levels⟩ := h.levels
  have level : s.level = 4 * d := by simp [level, levels]
  simp only [openLevel]
  split
  · refine ⟨⟨⟨d + 1, ?_⟩, fun now => ?_, h.plain⟩, ?_⟩
    · rw [level, levels]
      rfl
    · rw [fresh] at now
      cases now
    · simp only [place, levels, last, List.length_cons, length_levelsAt]
      rfl
  · exact ⟨h, rfl⟩

def indentation (s : Scanner) : Bytes := s.rest.takeWhile fun b => b == Byte.space || b == Byte.tab

def tabFaults (s : Scanner) : List Report :=
  match s.indentation.idxOf? Byte.tab with
  | some i => [Report.fill .tabIndentation (skip i { s with fresh := false }).location []]
  | none => []

def indented (s : Scanner) : Scanner := skip s.indentation.length { s with fresh := false }

def relevel (s : Scanner) (here : Location) (found : Nat) : Scanner × Batch :=
  if s.level < found then s.openLevel here found else s.closeLevels here found

def leveled (s : Scanner) : Scanner × Batch :=
  s.indented.relevel { s.location with column := 1 }
    (s.indentation.foldl (fun n b => n + width b) 0)

theorem startLine_blank {s : Scanner} (h : atLineEnd s.indented.rest = true) :
    s.startLine = (s.indented.skipLine, ⟨s.tabFaults, []⟩) := by
  unfold startLine
  exact if_pos h

theorem startLine_comment {s : Scanner} (h : atLineEnd s.indented.rest = false)
    (comment : Word.standsAt Word.blockCommentStart s.indented.rest = true) :
    let after := s.indented.skip (Word.blockCommentLength s.indented.rest)
    s.startLine = (if after.fresh then after else after.skipLine, ⟨s.tabFaults, []⟩) := by
  unfold startLine
  exact (if_neg (ne_true_of_eq_false h)).trans (if_pos comment)

theorem startLine_filled {s : Scanner} (h : atLineEnd s.indented.rest = false)
    (comment : Word.standsAt Word.blockCommentStart s.indented.rest = false) :
    s.startLine = (s.leveled.1, ⟨s.tabFaults ++ s.leveled.2.reports, s.leveled.2.tokens⟩) := by
  unfold startLine
  exact (if_neg (ne_true_of_eq_false h)).trans (if_neg (ne_true_of_eq_false comment))

@[simp] theorem indented_rest (s : Scanner) :
    s.indented.rest = s.rest.drop s.indentation.length := skip_rest _ _

theorem plain_indented {s : Scanner} (plain : NoComment s.rest) : NoComment s.indented.rest := by
  rw [indented_rest]
  exact plain.drop _

@[simp] theorem indented_levels (s : Scanner) : s.indented.levels = s.levels := skip_levels _ _

@[simp] theorem indented_last (s : Scanner) : s.indented.last = s.last := skip_last _ _

theorem line_indentation (s : Scanner) : Byte.lineFeed ∉ s.rest.take s.indentation.length := by
  intro there
  have whole : s.rest.take s.indentation.length = s.indentation :=
    (List.prefix_iff_eq_take.1 (List.takeWhile_prefix _)).symm
  have blank := List.mem_takeWhile_imp (whole ▸ there)
  contradiction

@[simp] theorem indented_fresh (s : Scanner) : s.indented.fresh = false :=
  skip_fresh (line_indentation s)

theorem laid_startLine {s : Scanner} (h : s.Laid) (fresh : s.fresh = true) :
    s.startLine.1.Laid ∧ s.place.after s.startLine.2.tokens = some s.startLine.1.place := by
  have last := h.fresh fresh
  have plain := plain_indented h.plain
  cases blank : atLineEnd s.indented.rest with
  | true =>
    rw [startLine_blank blank]
    refine ⟨⟨?_, fun _ => ?_, ?_⟩, ?_⟩
    · simpa [skipLine] using h.levels
    · simpa [skipLine] using last
    · simpa [skipLine] using plain.drop _
    · simp [skipLine, place, Place.after]
  | false =>
    rw [startLine_filled blank plain.standsAt]
    have laid : s.indented.Laid := ⟨by simpa using h.levels, by simp, plain⟩
    have place : s.indented.place = s.place := by simp [Scanner.place]
    rw [← place, leveled, relevel]
    split
    · exact laid_openLevel laid (by simp) (by simpa using last) _ _
    · exact laid_closeLevels laid (by simp) (by simpa using last) _ _

theorem skip_read_fresh {s : Scanner} {b : UInt8} {rest : Bytes} (hs : s.rest = b :: rest)
    (plain : NoComment s.rest) (hb : b ≠ Byte.lineFeed) :
    (s.skip (Lexeme.read b rest).length).fresh = s.fresh := by
  refine skip_fresh ?_
  rw [hs] at plain ⊢
  exact Lexeme.lineFeed_not_mem_read hb plain.standsAt

theorem laid_lexeme {s : Scanner} {b : UInt8} {rest : Bytes} (h : s.Laid) (hs : s.rest = b :: rest)
    (fresh : s.fresh = false) :
    (s.lexeme b rest).1.Laid ∧
      s.place.after (s.lexeme b rest).2.tokens = some (s.lexeme b rest).1.place := by
  have plain : NoComment ((s.skip (Lexeme.read b rest).length).rest) := by
    simpa using h.plain.drop _
  have levels : ∃ d, (s.skip (Lexeme.read b rest).length).levels = levelsAt d := by
    simpa using h.levels
  have made : ∀ (t : Scanner) (x : Token), t.levels = s.levels → t.last = x.kind →
      s.place.next x.kind = some ⟨s.place.depth, x.kind.spot⟩ →
      s.place.after [x] = some t.place := by
    intro t x levels last one
    rw [Place.after, one]
    simp [Place.after, Scanner.place, levels, last]
  by_cases hb : b = Byte.lineFeed
  · subst hb
    have read : Lexeme.read Byte.lineFeed rest = { length := 1, kind := some .newline } := rfl
    rw [read] at plain levels
    by_cases last : s.last = .newline
    · simp only [lexeme, read, last, beq_self_eq_true, Bool.and_self, if_true]
      exact ⟨⟨levels, fun _ => by simpa using last, plain⟩, by simp [Scanner.place, Place.after]⟩
    · have other : (s.last == .newline) = false := by simpa using last
      simp only [lexeme, read, other, Bool.and_false, Bool.false_eq_true, if_false]
      refine ⟨⟨levels, fun _ => rfl, plain⟩, made _ _ (by simp) rfl ?_⟩
      unfold Scanner.place
      cases e : s.last <;> first | exact absurd e last | rfl
  · have inside := (skip_read_fresh hs h.plain hb).trans fresh
    cases e : (Lexeme.read b rest).kind with
    | none =>
      simp only [lexeme, e]
      exact ⟨⟨levels, by simp [inside], plain⟩, by simp [Scanner.place, Place.after]⟩
    | some k =>
      have content := Lexeme.isContent_read e hb
      have other : (k == .newline) = false := by cases k <;> first | contradiction | rfl
      simp only [lexeme, e, other, Bool.false_and, Bool.false_eq_true, if_false]
      refine ⟨⟨levels, by simp [inside], plain⟩, made _ _ (by simp) rfl ?_⟩
      exact Place.next_content content

theorem laid_step {s t : Scanner} {b : Batch} (h : s.Laid) (hs : s.step = some (t, b)) :
    t.Laid ∧ s.place.after b.tokens = some t.place := by
  obtain ⟨fresh, made⟩ | ⟨inside, c, rest, filled, made⟩ := step_cases hs
  · have start := laid_startLine h fresh
    rwa [made] at start
  · have within := laid_lexeme h filled inside
    rwa [made] at within

theorem leads_finish {s : Scanner} (h : s.Laid) (sound : s.place.Sound) :
    ∃ zs finish, s.finish = zs ++ [s.token s.location .endOfFile] ∧ Leads s.place zs finish := by
  obtain ⟨d, levels⟩ := h.levels
  have depth : s.place = ⟨d, s.last.spot⟩ := by simp [place, levels]
  have dedents := fun {p : Spot} (hp : p ≠ .inside) =>
    Place.after_dedents (t := s.token s.location .dedent) rfl hp 0 d
  rw [Nat.zero_add] at dedents
  rw [depth] at sound ⊢
  simp only [finish, levels, length_levelsAt, Nat.add_sub_cancel]
  cases ended : (s.last == .newline || s.last == .dedent || s.last == .indent) with
  | true =>
    have stop : s.last.spot ≠ .inside := by
      cases e : s.last <;> first | (rw [e] at ended; contradiction) | decide
    refine ⟨_, _, by rw [if_pos rfl, List.nil_append], dedents stop, ?_⟩
    split
    · next none =>
      subst none
      cases e : s.last.spot with
      | fresh => exact .inl rfl
      | closed => exact .inr rfl
      | inside => exact absurd e stop
      | opened => exact absurd (sound e) (Nat.lt_irrefl 0)
    · exact .inr rfl
  | false =>
    have inside : Place.next ⟨d, s.last.spot⟩ .newline = some ⟨d, .fresh⟩ := by
      cases e : s.last <;> first | (rw [e] at ended; contradiction) | rfl
    have leads : Place.after ⟨d, s.last.spot⟩ ([s.token s.location .newline] ++
        List.replicate d (s.token s.location .dedent)) =
          some ⟨0, if d = 0 then .fresh else .closed⟩ :=
      (congrArg (Option.bind · _) inside).trans (dedents (p := .fresh) (by decide))
    refine ⟨_, _, by rw [if_neg (by decide)], leads, ?_⟩
    split
    · exact .inl rfl
    · exact .inr rfl

theorem leads_run (s : Scanner) (h : s.Laid) (sound : s.place.Sound) :
    ∃ zs e finish, s.run.1.flatMap (·.tokens) = zs ++ [e] ∧ e.kind = .endOfFile ∧
      Leads s.place zs finish := by
  cases hs : s.step with
  | none =>
    obtain ⟨zs, finish, made, leads⟩ := leads_finish h sound
    refine ⟨zs, s.token s.location .endOfFile, finish, ?_, rfl, leads⟩
    simp [TokenStream.run_of_none hs, made]
  | some p =>
    obtain ⟨t, b⟩ := p
    have _ := distance_step hs
    obtain ⟨laid, one⟩ := laid_step h hs
    obtain ⟨zs, e, finish, made, last, leads⟩ := leads_run t laid (Place.sound_after sound one)
    refine ⟨b.tokens ++ zs, e, finish, ?_, last, ?_, leads.ended⟩
    · rw [TokenStream.run_of_some hs, List.flatMap_cons, made, List.append_assoc]
    · rw [Place.after_append, one]
      exact leads.after
termination_by s.distance

end Scanner

namespace TokenStream

def text (source : Bytes) : Bytes :=
  if source.startsWith byteOrderMark then source.drop byteOrderMark.length else source

theorem text_of_unmarked {x : Bytes} (h : x.startsWith byteOrderMark = false) : text x = x := by
  rw [text, h]
  rfl

theorem plain_text {x : Bytes} (h : NoComment x) : NoComment (text x) := by
  unfold text
  split
  · exact h.drop _
  · exact h

def start (file : Nat) (source : Bytes) : Scanner := { file, rest := text source }

theorem tokens_ofSource (file : Nat) (source : Bytes) : (ofSource file source).tokens =
    spread (encoding file (text source)
      (if source.startsWith byteOrderMark then byteOrderMark.length else 0))
      (start file source).run.1 := rfl

theorem token_spread (reports : List Report) (bs : List Batch) :
    (spread reports bs).map (·.token) = bs.flatMap (·.tokens) := by
  induction bs generalizing reports with
  | nil => rfl
  | cons b bs ih =>
    rw [spread, List.flatMap_cons]
    split
    · next e => rw [e, ih, List.nil_append]
    · next t ts e =>
      rw [e, List.map_cons, List.map_append, List.map_map, ih, List.cons_append]
      exact congrArg (t :: · ++ _) (List.map_id ts)

theorem reports_spread_run (s : Scanner) (rs : List Report) :
    (spread rs s.run.1).flatMap (·.reports) = rs ++ s.run.1.flatMap (·.reports) := by
  cases hs : s.step with
  | none =>
    obtain ⟨t, ts, made⟩ : ∃ t ts, s.finish = t :: ts :=
      List.exists_cons_of_ne_nil (by simp [Scanner.finish])
    rw [run_of_none hs]
    simp [spread, made]
  | some p =>
    obtain ⟨t, b⟩ := p
    have _ := Scanner.distance_step hs
    rw [run_of_some hs, spread]
    split
    · rw [reports_spread_run t, List.flatMap_cons, List.append_assoc]
    · have none (ts : List Token) :
          (ts.map (⟨[], ·⟩ : Token → Heard)).flatMap (·.reports) = [] := by
        simp
      rw [List.flatMap_cons, List.flatMap_append, none, reports_spread_run t, List.flatMap_cons]
      simp
termination_by s.distance

theorem leads_ofSource (file : Nat) {source : Bytes} (plain : NoComment (text source)) :
    ∃ zs e finish, (ofSource file source).tokens.map (·.token) = zs ++ [e] ∧
      e.kind = .endOfFile ∧ Leads ⟨0, .fresh⟩ zs finish := by
  have laid : (start file source).Laid := ⟨⟨0, rfl⟩, fun _ => rfl, plain⟩
  obtain ⟨zs, e, finish, made, last, leads⟩ := Scanner.leads_run _ laid (by intro h; cases h)
  exact ⟨zs, e, finish, (token_spread _ _).trans made, last, leads⟩

end TokenStream

end StepsLang
