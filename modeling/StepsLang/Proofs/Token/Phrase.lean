import StepsLang.Proofs.Token.Step

namespace StepsLang

namespace Word

variable {w s more : Bytes} {k : Kind}

/-- `w` is spelled at the start of `s`, and if it ends in a letter, no name goes on behind it. -/
def Matches (w s : Bytes) : Prop :=
  ∃ more, s = w ++ more ∧
    (w.getLast?.any Byte.isLetter = true → more.head?.any Byte.isNameByte = false)

theorem standsAt_iff : standsAt w s = true ↔ Matches w s := by
  constructor
  · intro stands
    obtain ⟨more, rfl⟩ := isPrefix_of_standsAt stands
    refine ⟨more, rfl, fun letter => ?_⟩
    simpa [standsAt, Bytes.startsWith, letter] using stands
  · rintro ⟨more, rfl, boundary⟩
    cases letter : w.getLast?.any Byte.isLetter with
    | false => simp [standsAt, Bytes.startsWith, letter]
    | true => simp [standsAt, Bytes.startsWith, boundary letter]

theorem phrase?_eq_none_iff : phrase? s = none ↔ ∀ k ∈ phrases, ¬ Matches k.spelling s := by
  rw [phrase?, List.find?_eq_none]
  exact forall₂_congr fun k _ => not_congr standsAt_iff

/-- The table is searched in order, and yet the phrase that is found is longer than any other one
that stands at the same place. -/
theorem phrase?_longest (h : phrase? s = some k) :
    k ∈ phrases ∧ Matches k.spelling s ∧
      ∀ j ∈ phrases, Matches j.spelling s → j ≠ k → j.spelling.length < k.spelling.length := by
  obtain ⟨stands, before, after, split, first⟩ := List.find?_eq_some_iff_append.1 h
  refine ⟨by simp [split], standsAt_iff.1 stands, fun j hj there other => ?_⟩
  have later : j ∈ after := by
    rw [split, List.mem_append, List.mem_cons] at hj
    obtain early | rfl | late := hj
    · exact absurd (standsAt_iff.2 there) (by simpa using first j early)
    · exact absurd rfl other
    · exact late
  have ordered := phrases_pairwise
  rw [split, List.pairwise_append, List.pairwise_cons] at ordered
  have shorter : ¬ k.spelling <+: j.spelling := ordered.2.1.1 j later
  -- Both are spelled at the start of `s`, so one is the start of the other.
  rcases List.prefix_or_prefix_of_prefix (isPrefix_of_standsAt (standsAt_iff.2 there))
      (isPrefix_of_standsAt stands) with within | beyond
  · refine Nat.lt_of_le_of_ne within.length_le fun same => ?_
    exact shorter (within.eq_of_length same ▸ List.prefix_rfl)
  · exact absurd beyond shorter

/-- What a single word stands for: the keyword that is spelled so, or a name. -/
def Denotes (w : Bytes) (k : Kind) : Prop :=
  k ∈ keywords ∧ bare k = w ∨ k = .name ∧ ∀ j ∈ keywords, bare j ≠ w

theorem denotes_kind (w : Bytes) : Denotes w (kind w) := by
  unfold kind
  cases found : keywords.find? fun k => bare k == w with
  | none =>
    refine .inr ⟨rfl, fun j hj same => ?_⟩
    simpa [same] using List.find?_eq_none.1 found j hj
  | some k =>
    have same := List.find?_some found
    exact .inl ⟨List.mem_of_find?_eq_some found, eq_of_beq same⟩

structure Whole (w more s : Bytes) : Prop where
  split : s = w ++ more
  inside : w.all Byte.isNameByte = true
  ends : ∀ b ∈ more.head?, Byte.isNameByte b = false
  alone : ∀ k ∈ phrases, ¬ Matches k.spelling s

inductive Takes (s : Bytes) : Kind → Bytes → Bytes → Prop
  | phrase {k : Kind} {more : Bytes} (known : k ∈ phrases) (stands : Matches k.spelling s)
      (split : s = k.spelling ++ more)
      (longest : ∀ j ∈ phrases, Matches j.spelling s → j ≠ k →
        j.spelling.length < k.spelling.length) :
      Takes s k k.spelling more
  | word {w more : Bytes} {k : Kind} (whole : Whole w more s)
      (plain : ¬ (w ∈ colonWords ∧
        (more.dropWhile (· == Byte.space)).head? = some Byte.colon))
      (denotes : Denotes w k) : Takes s k w more
  | colonWord {w more : Bytes} {k : Kind} (spaces : Nat)
      (whole : Whole w (List.replicate spaces Byte.space ++ Byte.colon :: more) s)
      (known : w ∈ colonWords) (other : w ≠ "note") (denotes : Denotes w k) :
      Takes s k (w ++ [Byte.colon]) more
  | note {content more : Bytes} (spaces : Nat)
      (whole : Whole "note" (List.replicate spaces Byte.space ++ Byte.colon :: (content ++ more)) s)
      (line : Byte.lineFeed ∉ content) (ends : LineEnd more) :
      Takes s .note (Bytes.trimEnd (fun b => b == Byte.space || b == Byte.carriageReturn)
        (content.dropWhile (· == Byte.space))) more

end Word

namespace Bytes

theorem exists_run (p : UInt8 → Bool) (s : Bytes) :
    ∃ u v, s = u ++ v ∧ u.all p = true ∧ ∀ b ∈ v.head?, p b = false := by
  refine ⟨s.takeWhile p, s.dropWhile p, List.takeWhile_append_dropWhile.symm,
    List.all_takeWhile, fun b hb => ?_⟩
  have stop := List.head?_dropWhile_not p s
  rw [Option.mem_def.1 hb] at stop
  simpa using stop

theorem exists_spaces (s : Bytes) : ∃ n, s = List.replicate n Byte.space ++
    s.dropWhile (· == Byte.space) := by
  obtain ⟨u, v, rfl, all, ends⟩ := exists_run (· == Byte.space) s
  have spaces : u = List.replicate u.length Byte.space :=
    List.eq_replicate_of_mem fun b hb => eq_of_beq (List.all_eq_true.1 all b hb)
  refine ⟨u.length, ?_⟩
  rw [← spaces, List.dropWhile_append_of_pos (List.all_eq_true.1 all)]
  cases v with
  | nil => rfl
  | cons b v => rw [List.dropWhile_cons_of_neg (by simpa using ends b rfl)]

end Bytes

namespace Lexeme
open Word

structure Leaves (x : Lexeme) (s : Bytes) (k : Kind) (text more : Bytes) : Prop where
  kind : x.kind = some k
  text : x.text = text
  flaws : x.flaws = []
  rest : s.drop x.length = more

theorem note_line {u v : Bytes} (before : Nat) (line : Byte.lineFeed ∉ u) (ends : LineEnd v) :
    note before (u ++ v) =
      { length := before + u.length, kind := some .note,
        text := Bytes.trimEnd (fun b => b == Byte.space || b == Byte.carriageReturn)
          (u.dropWhile (· == Byte.space)) } := by
  rw [note_ends before u ends]
  simp only [note, Bytes.takeWhile_line line]

theorem drop_colon (w more : Bytes) (n m : Nat) :
    (w ++ (List.replicate n Byte.space ++ Byte.colon :: more)).drop (w.length + n + 1 + m) =
      more.drop m := by
  have split : w ++ (List.replicate n Byte.space ++ Byte.colon :: more) =
      (w ++ List.replicate n Byte.space ++ [Byte.colon]) ++ more := by simp
  rw [split, ← List.drop_drop, List.drop_left' (by simp [Nat.add_assoc])]

theorem word_takes {s : Bytes} (comment : standsAt blockCommentStart s = false) :
    ∃ k text more, (word s).Leaves s k text more ∧ Takes s k text more := by
  cases found : phrase? s with
  | some k =>
    obtain ⟨known, stands, longest⟩ := phrase?_longest found
    obtain ⟨more, split, -⟩ := id stands
    refine ⟨k, k.spelling, more, ?_, .phrase known stands split longest⟩
    have made : word s = { length := k.spelling.length, kind := some k, text := k.spelling } := by
      simp only [word, comment, found, Bool.false_eq_true, if_false]
    rw [made]
    exact ⟨rfl, rfl, rfl, by rw [split, List.drop_left]⟩
  | none =>
    obtain ⟨w, more, rfl, inside, ends⟩ := Bytes.exists_run Byte.isNameByte s
    have whole : Whole w more (w ++ more) := ⟨rfl, inside, ends, phrase?_eq_none_iff.1 found⟩
    have after := Bytes.exists_spaces more
    simp only [word, comment, found, Bool.false_eq_true, if_false,
      Bytes.takeWhile_append inside ends, List.drop_left]
    split
    · next colon =>
      simp only [Bool.and_eq_true, List.contains_eq_mem, decide_eq_true_eq, beq_iff_eq] at colon
      obtain ⟨known, colon⟩ := colon
      obtain ⟨n, spaces⟩ := after
      generalize more.dropWhile (· == Byte.space) = rest at colon spaces ⊢
      subst spaces
      obtain ⟨left, rfl⟩ : ∃ left, rest = Byte.colon :: left := List.head?_eq_some_iff.1 colon
      have length : w.length + ((List.replicate n Byte.space ++ Byte.colon :: left).length -
          (Byte.colon :: left).length) + 1 = w.length + n + 1 := by simp
      rw [length]
      split
      · next note =>
        obtain rfl := eq_of_beq note
        obtain ⟨u, v, rfl, line, ends⟩ := Bytes.exists_line left
        rw [List.drop_one, List.tail_cons, note_line _ line ends]
        refine ⟨.note, _, v, ⟨rfl, rfl, rfl, ?_⟩, .note n whole line ends⟩
        rw [drop_colon, List.drop_left]
      · next other =>
        refine ⟨Word.kind w, _, left, ⟨rfl, rfl, rfl, drop_colon w left n 0⟩, ?_⟩
        exact .colonWord n whole known (by simpa using other) (denotes_kind w)
    · next plain =>
      refine ⟨Word.kind w, w, more, ⟨rfl, rfl, rfl, List.drop_left⟩, .word whole ?_ (denotes_kind w)⟩
      simpa using plain

end Lexeme

namespace Scanner
open Word

/-- Where a word begins inside a line, and no block comment, one token is made: of the longest
phrase that stands there or, where none does, of the word as far as a name can go. -/
theorem longest_phrase_taken {s : Scanner} {b : UInt8} {rest : Bytes} (inside : s.fresh = false)
    (here : s.rest = b :: rest) (begins : Byte.startsName b = true)
    (comment : ¬ Matches blockCommentStart s.rest) :
    ∃ t x, s.step = some (t, ⟨[], [x]⟩) ∧ Takes s.rest x.kind x.text t.rest := by
  have plain : standsAt blockCommentStart (b :: rest) = false := by
    rw [Bool.eq_false_iff, ← here]
    exact fun stands => comment (standsAt_iff.1 stands)
  obtain ⟨k, text, more, left, takes⟩ := Lexeme.word_takes plain
  rw [← Lexeme.read_eq_word rest begins] at left
  have content : k.isContent = true := by
    refine Lexeme.isContent_read left.kind ?_
    rintro rfl
    cases begins
  have one := lexeme_content rfl left.kind content s
  rw [left.flaws, left.text] at one
  refine ⟨_, _, (step_within inside here).trans (congrArg some one), ?_⟩
  have more : (s.skip (Lexeme.read b rest).length).rest = more := by
    rw [skip_rest, here, left.rest]
  rw [here]
  exact more ▸ takes

theorem longest_phrase_taken_boundary :
    let s : Scanner := { file := 1, rest := "is greater than or equal tools", fresh := false }
    let rest : Bytes := "s greater than or equal tools"
    s.fresh = false ∧ s.rest = 105 :: rest ∧ Byte.startsName 105 = true ∧
      ¬ Matches blockCommentStart s.rest ∧
      ∃ t x, s.step = some (t, ⟨[], [x]⟩) ∧ Takes s.rest x.kind x.text t.rest ∧
        x.kind = .isGreaterThan ∧ t.rest = " or equal tools" := by
  intro s rest
  have comment : ¬ Matches blockCommentStart s.rest := by
    rw [← standsAt_iff]
    decide +kernel
  refine ⟨rfl, rfl, rfl, comment, ?_⟩
  obtain ⟨t, x, made, takes⟩ :=
    @longest_phrase_taken s 105 rest rfl rfl rfl comment
  have seen : s.step.map (fun r => (r.2.tokens.map (·.kind), r.1.rest)) =
      some ([Kind.isGreaterThan], (" or equal tools" : Bytes)) := by decide +kernel
  rw [made] at seen
  obtain ⟨kind, left⟩ := Prod.mk.inj (Option.some.inj seen)
  exact ⟨t, x, made, takes, List.singleton_inj.1 kind, left⟩

/-- The word of a note does not make a keyword or a name, and more is taken than the word and its
colon. -/
theorem note_takes_line :
    let s : Scanner := { file := 1, rest := "note: hi", fresh := false }
    (∀ k ∈ phrases, ¬ Matches k.spelling s.rest) ∧
      ∃ t x, s.step = some (t, ⟨[], [x]⟩) ∧ ¬ Denotes "note" x.kind ∧ t.rest = [] := by
  intro s
  refine ⟨phrase?_eq_none_iff.1 (by decide +kernel), ?_⟩
  have begins : s.step = some (s.lexeme 110 "ote: hi") := rfl
  have note : Lexeme.read 110 "ote: hi" = { length := 8, kind := some .note, text := "hi" } := by
    decide +kernel
  refine ⟨_, _, begins.trans (congrArg some (lexeme_content note rfl rfl s)), ?_, ?_⟩
  · show ¬ Denotes "note" .note
    unfold Denotes
    decide
  · rw [skip_rest]
    rfl

end Scanner

end StepsLang
