import StepsLang.Proofs.Text.Utf8
import StepsLang.Proofs.Token.Word

namespace StepsLang

inductive Piece
  | blank
  | word (k : Kind)
  | name (x : Bytes)
  | numeral (s : Bytes)
  | quoted (s : Bytes)
  | note (s : Bytes)
  deriving DecidableEq, Repr

namespace Piece

def escape (b : UInt8) : Bytes :=
  if b == Byte.backslash then [Byte.backslash, Byte.backslash]
  else if b == Byte.quote then [Byte.backslash, Byte.quote]
  else if b == Byte.lineFeed then [Byte.backslash, 110]
  else if b == Byte.tab then [Byte.backslash, 116]
  else if b == Byte.carriageReturn then [Byte.backslash, 114]
  else [b]

def spelling : Piece → Bytes
  | blank => [Byte.space]
  | word k => k.spelling
  | name x => x
  | numeral s => s
  | quoted s => Byte.quote :: (s.flatMap escape ++ [Byte.quote])
  | note s => "note: " ++ s

def token? : Piece → Option Token
  | blank => none
  | word k => some { kind := k, text := k.spelling }
  | name x => some { kind := .name, text := x }
  | numeral s =>
    some { kind := .numeral, text := s, value := (Number.ofNumeral? s).getD Number.zero }
  | quoted s => some { kind := .quoted, text := s }
  | note s => some { kind := .note, text := s }

def lexeme (p : Piece) : Lexeme :=
  match p.token? with
  | none => { length := p.spelling.length }
  | some t => { length := p.spelling.length, kind := some t.kind, text := t.text, value := t.value }

def signs : List Kind :=
  [.plus, .minus, .star, .slash, .colon, .comma, .leftBracket, .rightBracket, .leftParen,
   .rightParen]

def isNumeral (s : Bytes) : Bool :=
  let whole := s.takeWhile Byte.isDigit
  !whole.isEmpty &&
    match s.drop whole.length with
    | [] => true
    | b :: fraction => b == Byte.dot && !fraction.isEmpty && fraction.all Byte.isDigit

def isNote (s : Bytes) : Bool :=
  Utf8.isValid s && s.all (· != Byte.lineFeed) && s.head? != some Byte.space
    && s.getLast? != some Byte.space && s.getLast? != some Byte.carriageReturn

def isSound : Piece → Bool
  | blank => true
  | word k => (signs ++ Word.keywords ++ Word.phrases).contains k
  | name x => Word.isName x
  | numeral s => isNumeral s
  | quoted s => Utf8.isValid s
  | note s => isNote s

def Before : Piece → Bytes → Prop
  | blank, _ | quoted _, _ => True
  | word k, more => k ∈ signs ∨ (Closing more ∧ Word.Unextended k.spelling more)
  | name _, more | numeral _, more => Closing more
  | note _, more => more.head? = some Byte.lineFeed

def Reads (p : Piece) (more : Bytes) : Prop :=
  ∃ b rest, p.spelling ++ more = b :: rest ∧ Lexeme.read b rest = p.lexeme

variable {more : Bytes}

theorem reads_blank : Reads blank more := ⟨_, _, rfl, rfl⟩

theorem reads_sign {k : Kind} (hk : k ∈ signs) : Reads (word k) more := by
  simp only [signs, List.mem_cons, List.not_mem_nil, or_false] at hk
  rcases hk with rfl | rfl | rfl | rfl | rfl | rfl | rfl | rfl | rfl | rfl <;>
    exact ⟨_, _, rfl, rfl⟩

theorem reads_of_word {p : Piece} (head : p.spelling.head?.any Byte.startsName = true)
    (h : Lexeme.word (p.spelling ++ more) = p.lexeme) : Reads p more := by
  cases e : p.spelling with
  | nil => simp [e] at head
  | cons b s =>
    refine ⟨b, s ++ more, by rw [e]; rfl, ?_⟩
    rw [Lexeme.read_eq_word _ (by simpa [e] using head), ← h, e]
    rfl

theorem reads_name {x : Bytes} (hx : Word.isName x = true) (hm : Closing more) :
    Reads (name x) more := by
  simp only [Word.isName, Bool.and_eq_true, beq_iff_eq, bne_iff_ne, Bool.not_eq_true',
    List.contains_eq_mem, decide_eq_false_iff_not, List.mem_map] at hx
  obtain ⟨⟨⟨⟨head, inside⟩, kind⟩, notNote⟩, notFirst⟩ := hx
  have alone : Word.phrase? (x ++ more) = none :=
    Word.phrase?_eq_none inside hm.isNameByte fun k hk first _ => notFirst ⟨k, hk, first⟩
  refine reads_of_word head ?_
  rw [spelling, Lexeme.word_eq inside hm notNote alone, kind]
  rfl

theorem keyword_facts : ∀ k ∈ Word.keywords,
    k.spelling.head?.any Byte.startsName = true ∧ (Word.bare k).all Byte.isNameByte = true ∧
      Word.bare k ≠ "note" ∧ Word.kind (Word.bare k) = k ∧
      (k.spelling = Word.bare k ∨
        k.spelling = Word.bare k ++ [Byte.colon] ∧ Word.colonWords.contains (Word.bare k) = true ∧
          ∀ j ∈ Word.phrases, Word.firstWord j ≠ Word.bare k) := by
  decide

theorem firstWord_isPrefix {k : Kind} (hk : k ∈ Word.phrases) :
    Word.firstWord k <+: k.spelling ∧ Word.firstWord k ≠ k.spelling := by
  obtain ⟨whole, -⟩ := Word.phrase_eq k hk
  have longer := congrArg List.length whole
  constructor
  · exact List.takeWhile_prefix _
  · intro same
    rw [same] at longer
    simp at longer

theorem reads_keyword {k : Kind} (hk : k ∈ Word.keywords) (hm : Closing more)
    (longer : Word.Unextended k.spelling more) : Reads (word k) more := by
  obtain ⟨head, inside, notNote, kind, plain | ⟨colon, known, notFirst⟩⟩ := keyword_facts k hk
  · refine reads_of_word head ?_
    rw [plain] at longer
    have alone : Word.phrase? (Word.bare k ++ more) = none := by
      refine Word.phrase?_eq_none inside hm.isNameByte fun j hj first => ?_
      have ⟨start, proper⟩ := firstWord_isPrefix hj
      rw [first] at start proper
      exact longer j hj start proper
    rw [spelling, plain, Lexeme.word_eq inside hm notNote alone, kind]
    simp [lexeme, token?, spelling, plain]
  · have alone : Word.phrase? (Word.bare k ++ Byte.colon :: more) = none := by
      exact Word.phrase?_eq_none inside (Bytes.head_cons rfl more) fun j hj first =>
        absurd first (notFirst j hj)
    refine reads_of_word head ?_
    rw [spelling, colon, List.append_assoc, List.cons_append, List.nil_append,
      Lexeme.word_colon more inside notNote known alone, kind]
    simp [lexeme, token?, spelling, colon]

theorem reads_phrase {k : Kind} (hk : k ∈ Word.phrases) (hm : Closing more)
    (longer : Word.Unextended k.spelling more) : Reads (word k) more := by
  have head : ∀ k ∈ Word.phrases, k.spelling.head?.any Byte.startsName = true ∧
      Word.firstWord k ≠ "note" := by decide
  have open_ : Word.standsAt Word.blockCommentStart (k.spelling ++ more) = false := by
    obtain ⟨whole, inside⟩ := Word.phrase_eq k hk
    rw [whole, List.append_assoc]
    exact Word.not_blockComment inside (Bytes.head_cons rfl _) (head k hk).2
  refine reads_of_word (head k hk).1 ?_
  unfold Lexeme.word
  rw [spelling, open_, Word.phrase?_spelling hk hm longer]
  rfl

theorem numeral_cases {s : Bytes} (h : isNumeral s = true) :
    ∃ whole, whole ≠ [] ∧ whole.all Byte.isDigit = true ∧
      (s = whole ∨ ∃ fraction, s = whole ++ Byte.dot :: fraction ∧ fraction ≠ [] ∧
        fraction.all Byte.isDigit = true) := by
  simp only [isNumeral, Bool.and_eq_true, Bool.not_eq_true', List.isEmpty_eq_false_iff] at h
  obtain ⟨some, rest⟩ := h
  refine ⟨s.takeWhile Byte.isDigit, some, List.all_takeWhile, ?_⟩
  have split := List.take_append_drop (s.takeWhile Byte.isDigit).length s
  rw [List.prefix_iff_eq_take.1 (List.takeWhile_prefix Byte.isDigit) |>.symm] at split
  cases e : s.drop (s.takeWhile Byte.isDigit).length with
  | nil =>
    left
    rw [e, List.append_nil] at split
    exact split.symm
  | cons b fraction =>
    right
    rw [e] at rest split
    simp only [Bool.and_eq_true, beq_iff_eq, Bool.not_eq_true', List.isEmpty_eq_false_iff] at rest
    obtain ⟨⟨rfl, more⟩, digits⟩ := rest
    exact ⟨fraction, split.symm, more, digits⟩

theorem numeral_eq {s : Bytes} (hs : isNumeral s = true) (hm : Closing more) :
    Lexeme.numeral (s ++ more) = (numeral s).lexeme := by
  have stop : ∀ b ∈ more.head?, Byte.isDigit b = false := by
    intro b hb
    have other := hm.isNameByte b hb
    simp only [Byte.isNameByte, Bool.or_eq_false_iff] at other
    exact other.1.2
  obtain ⟨whole, -, digits, rfl | ⟨fraction, rfl, some, tail⟩⟩ := numeral_cases hs
  · simp only [Lexeme.numeral, Bytes.takeWhile_append digits stop, List.drop_left]
    cases more with
    | nil => rfl
    | cons b more =>
      have point : (b == Byte.dot) = false := by simpa using (hm.head b rfl).2
      simp [point, lexeme, token?, spelling]
  · have point := Bytes.head_cons (p := Byte.isDigit) (b := Byte.dot) rfl (fraction ++ more)
    rw [List.append_assoc, List.cons_append]
    simp only [Lexeme.numeral, Bytes.takeWhile_append digits point, List.drop_left]
    simp [Bytes.takeWhile_append tail stop, some, lexeme, token?, spelling]

theorem reads_numeral {s : Bytes} (hs : isNumeral s = true) (hm : Closing more) :
    Reads (numeral s) more := by
  cases s with
  | nil => cases hs
  | cons b s =>
    have digit : Byte.isDigit b = true := by
      cases e : Byte.isDigit b with
      | true => rfl
      | false => simp [isNumeral, e] at hs
    refine ⟨b, s ++ more, rfl, ?_⟩
    rw [Lexeme.read_eq_numeral _ digit, ← List.cons_append, numeral_eq hs hm]

theorem quotedRest_escape (read : Nat) (content : Bytes) (b : UInt8) (rest : Bytes) :
    Lexeme.quotedRest read content [] (escape b ++ rest) =
      Lexeme.quotedRest (read + (escape b).length) (b :: content) [] rest := by
  unfold escape
  split
  · next h =>
    rw [eq_of_beq h]
    rfl
  · split
    · next h =>
      rw [eq_of_beq h]
      rfl
    · split
      · next h =>
        rw [eq_of_beq h]
        rfl
      · split
        · next h =>
          rw [eq_of_beq h]
          rfl
        · split
          · next h =>
            rw [eq_of_beq h]
            rfl
          · rw [List.cons_append, Lexeme.quotedRest.eq_def]
            simp [*]

theorem quotedRest_eq (s more : Bytes) (read : Nat) (content : Bytes) :
    Lexeme.quotedRest read content [] (s.flatMap escape ++ Byte.quote :: more) =
      ⟨read + (s.flatMap escape).length + 1, content.reverse ++ s, []⟩ := by
  induction s generalizing read content with
  | nil =>
    rw [List.flatMap_nil, List.nil_append, Lexeme.quotedRest.eq_def]
    simp [show Byte.quote ≠ Byte.lineFeed by decide]
  | cons b s ih =>
    rw [List.flatMap_cons, List.append_assoc, quotedRest_escape, ih]
    simp only [List.reverse_cons, List.append_assoc, List.cons_append, List.nil_append,
      List.length_append, Nat.add_assoc]

theorem reads_quoted (s : Bytes) : Reads (quoted s) more := by
  refine ⟨Byte.quote, s.flatMap escape ++ Byte.quote :: more, by simp [spelling], ?_⟩
  have whole := quotedRest_eq s more 1 []
  change Lexeme.quoted _ = _
  simp only [Lexeme.quoted, whole, lexeme, token?, spelling]
  simp
  omega

theorem trimEnd_eq {p : UInt8 → Bool} {s : Bytes} (h : ∀ b ∈ s.getLast?, p b = false) :
    Bytes.trimEnd p s = s := by
  rw [Bytes.trimEnd]
  cases e : s.reverse with
  | nil => simpa using e.symm
  | cons b rest =>
    have last : s.getLast? = some b := by rw [List.getLast?_eq_head?_reverse, e]; rfl
    rw [List.dropWhile_cons_of_neg (by simp [h b last]), ← e, List.reverse_reverse]

theorem note_eq {s : Bytes} (hs : isNote s = true) (before : Nat) (rest : Bytes) :
    Lexeme.note before (Byte.space :: (s ++ Byte.lineFeed :: rest)) =
      { length := before + (s.length + 1), kind := some .note, text := s } := by
  simp only [isNote, Bool.and_eq_true, bne_iff_ne] at hs
  obtain ⟨⟨⟨⟨-, line⟩, first⟩, space⟩, ret⟩ := hs
  have stop := Bytes.head_cons (p := (· != Byte.lineFeed)) (b := Byte.lineFeed) rfl rest
  have inside : (Byte.space :: s).all (· != Byte.lineFeed) = true := by
    rw [List.all_cons, line]
    rfl
  have start : (Byte.space :: s).dropWhile (· == Byte.space) = s := by
    rw [List.dropWhile_cons_of_pos rfl]
    cases s with
    | nil => rfl
    | cons b s => exact List.dropWhile_cons_of_neg (by simpa using first)
  have end_ : Bytes.trimEnd (fun b => b == Byte.space || b == Byte.carriageReturn) s = s := by
    refine trimEnd_eq fun b hb => ?_
    rw [hb] at space ret
    simp_all
  have content := Bytes.takeWhile_append inside stop
  rw [List.cons_append] at content
  simp only [Lexeme.note, content, start, end_, List.length_cons]

theorem reads_note {s : Bytes} (hs : isNote s = true) (hm : more.head? = some Byte.lineFeed) :
    Reads (note s) more := by
  obtain ⟨rest, rfl⟩ : ∃ rest, more = Byte.lineFeed :: rest := by
    cases more with
    | nil => cases hm
    | cons b rest =>
      cases hm
      exact ⟨rest, rfl⟩
  have stop := Bytes.head_cons (p := Byte.isNameByte) (b := Byte.colon) rfl
    (Byte.space :: (s ++ Byte.lineFeed :: rest))
  have notFirst : ∀ k ∈ Word.phrases, Word.firstWord k ≠ "note" := by decide
  have alone := Word.phrase?_eq_none (w := "note") (by decide) stop
    fun k hk first _ => notFirst k hk first
  have whole : (note s).spelling ++ Byte.lineFeed :: rest =
      ("note" : Bytes) ++ Byte.colon :: Byte.space :: (s ++ Byte.lineFeed :: rest) := rfl
  refine reads_of_word rfl ?_
  have comment : Word.standsAt Word.blockCommentStart
      (("note" : Bytes) ++ Byte.colon :: Byte.space :: (s ++ Byte.lineFeed :: rest)) = false := rfl
  have after : (Byte.colon :: Byte.space :: (s ++ Byte.lineFeed :: rest)).dropWhile
      (· == Byte.space) = Byte.colon :: Byte.space :: (s ++ Byte.lineFeed :: rest) := rfl
  have colon : Word.colonWords.contains "note" = true := by decide
  rw [whole]
  simp only [Lexeme.word, comment, alone, Bytes.takeWhile_append (w := "note") (by decide) stop,
    List.drop_left, after, colon]
  rw [if_neg (by simp), if_pos (by simp), if_pos (by simp), List.drop_one, List.tail_cons,
    note_eq hs]
  have lengths : ("note: " : Bytes).length = 6 ∧ ("note" : Bytes).length = 4 := by decide
  simp [lexeme, token?, spelling, lengths]
  omega

theorem reads {p : Piece} (hp : p.isSound = true) (hm : p.Before more) : p.Reads more := by
  cases p with
  | blank => exact reads_blank
  | word k =>
    simp only [isSound, List.contains_eq_mem, List.mem_append, decide_eq_true_eq] at hp
    rcases hm with sign | ⟨closing, longer⟩
    · exact reads_sign sign
    · rcases hp with (sign | keyword) | phrase
      · exact reads_sign sign
      · exact reads_keyword keyword closing longer
      · exact reads_phrase phrase closing longer
  | name x => exact reads_name hp hm
  | numeral s => exact reads_numeral hp hm
  | quoted s => exact reads_quoted s
  | note s => exact reads_note hp hm

theorem ascii_of_isNameByte {b : UInt8} (h : Byte.isNameByte b = true) : b < 0x80 := by
  simp only [Byte.isNameByte, Byte.isLetter, Byte.isUpper, Byte.isLower, Byte.isDigit] at h
  grind

theorem wellFormed_of_name {x : Bytes} (h : x.all Byte.isNameByte = true) :
    Utf8.WellFormed x :=
  Utf8.wellFormed_of_ascii fun b hb => ascii_of_isNameByte (List.all_eq_true.1 h b hb)

theorem names_of_digits {s : Bytes} (h : s.all Byte.isDigit = true) :
    s.all Byte.isNameByte = true := by
  refine List.all_eq_true.2 fun b hb => ?_
  simp [Byte.isNameByte, List.all_eq_true.1 h b hb]

theorem wellFormed_escape {b : UInt8} (h : b < 0x80) : Utf8.WellFormed (escape b) := by
  refine Utf8.wellFormed_of_ascii ?_
  simp only [escape]
  grind

theorem escape_of_high {b : UInt8} (h : 0x80 ≤ b) : escape b = [b] := by
  simp only [escape]
  grind

theorem wellFormed_spelling {p : Piece} (hp : p.isSound = true) :
    Utf8.WellFormed p.spelling := by
  cases p with
  | blank => exact Utf8.wellFormed_of_all (by decide)
  | word k =>
    have all : ∀ k ∈ signs ++ Word.keywords ++ Word.phrases,
        k.spelling.all (· < 0x80) = true := by decide
    exact Utf8.wellFormed_of_all (all k (by simpa [isSound] using hp))
  | name x =>
    simp only [isSound, Word.isName, Bool.and_eq_true] at hp
    exact wellFormed_of_name hp.1.1.1.2
  | numeral s =>
    obtain ⟨whole, -, digits, rfl | ⟨fraction, rfl, -, tail⟩⟩ := numeral_cases hp
    · exact wellFormed_of_name (names_of_digits digits)
    · have point : Utf8.WellFormed [Byte.dot] := Utf8.wellFormed_of_all (by decide)
      exact (wellFormed_of_name (names_of_digits digits)).append
        (point.append (wellFormed_of_name (names_of_digits tail)))
  | quoted s =>
    have quote : Utf8.WellFormed [Byte.quote] := Utf8.wellFormed_of_all (by decide)
    have inside := (Utf8.isValid_iff.1 hp).flatMap (fun b => wellFormed_escape)
      fun b => escape_of_high
    exact quote.append (inside.append quote)
  | note s =>
    simp only [isSound, isNote, Bool.and_eq_true] at hp
    have start : Utf8.WellFormed "note: " := Utf8.wellFormed_of_all (by decide)
    exact start.append (Utf8.isValid_iff.1 hp.1.1.1.1)

theorem kind_token? {p : Piece} (hp : p.isSound = true) : ∀ t ∈ p.token?, t.kind ≠ .newline := by
  intro t ht
  cases p with
  | word k =>
    cases ht
    have all : ∀ k ∈ signs ++ Word.keywords ++ Word.phrases, k ≠ .newline := by decide
    exact all k (by simpa [isSound] using hp)
  | blank => cases ht
  | _ =>
    cases ht
    simp

theorem line_spelling {p : Piece} (hp : p.isSound = true) :
    p.spelling.all (· != Byte.lineFeed) = true := by
  have inside {x : Bytes} (h : x.all Byte.isNameByte = true) :
      x.all (· != Byte.lineFeed) = true := by
    refine List.all_eq_true.2 fun b hb => ?_
    have name := List.all_eq_true.1 h b hb
    rw [bne_iff_ne]
    rintro rfl
    cases name
  cases p with
  | blank => rfl
  | word k =>
    have all : ∀ k ∈ signs ++ Word.keywords ++ Word.phrases,
        k.spelling.all (· != Byte.lineFeed) = true := by decide
    exact all k (by simpa [isSound] using hp)
  | name x =>
    simp only [isSound, Word.isName, Bool.and_eq_true] at hp
    exact inside hp.1.1.1.2
  | numeral s =>
    obtain ⟨whole, -, digits, rfl | ⟨fraction, rfl, -, tail⟩⟩ := numeral_cases hp
    · exact inside (names_of_digits digits)
    · rw [spelling, List.all_append, List.all_cons, inside (names_of_digits digits),
        inside (names_of_digits tail)]
      rfl
  | quoted s =>
    have escaped : (s.flatMap escape).all (· != Byte.lineFeed) = true := by
      refine List.all_eq_true.2 fun b hb => ?_
      obtain ⟨c, -, hc⟩ := List.mem_flatMap.1 hb
      simp only [escape] at hc
      grind
    rw [spelling, List.all_cons, List.all_append, escaped]
    rfl
  | note s =>
    simp only [isSound, isNote, Bool.and_eq_true] at hp
    simp only [spelling, List.all_append, hp.1.1.1.2]
    rfl

end Piece

end StepsLang
