import StepsLang.Number.Numeral
import StepsLang.Report
import StepsLang.Token.Word

namespace StepsLang

inductive Flaw
  | tab
  | unclosed
  | escape (byte : UInt8)
  | strange (character : Bytes)
  deriving DecidableEq, Repr

def Flaw.report (l : Location) : Flaw → Report
  | .tab => Report.fill .tabIndentation l []
  | .unclosed => Report.fill .unclosedText l []
  | .escape b =>
    Report.tell .strangeCharacter l ("Unknown escape sequence: \\" ++ [b])
      "Valid escapes are: \\n, \\t, \\r, \\\\, \\\""
  | .strange c => Report.fill .strangeCharacter l [("char", c)]

structure Lexeme where
  length : Nat
  kind : Option Kind := none
  text : Bytes := []
  value : Number := Number.zero
  flaws : List (Nat × Flaw) := []
  deriving DecidableEq, Repr

namespace Lexeme

def symbol? (b : UInt8) : Option Kind :=
  if b == Byte.plus then some .plus
  else if b == Byte.minus then some .minus
  else if b == 42 then some .star
  else if b == Byte.slash then some .slash
  else if b == 37 then some .modulo
  else if b == Byte.colon then some .colon
  else if b == Byte.comma then some .comma
  else if b == 91 then some .leftBracket
  else if b == 93 then some .rightBracket
  else if b == 40 then some .leftParen
  else if b == 41 then some .rightParen
  else none

def escape? (b : UInt8) : Option UInt8 :=
  if b == 110 then some Byte.lineFeed
  else if b == 116 then some Byte.tab
  else if b == 114 then some Byte.carriageReturn
  else if b == Byte.backslash then some Byte.backslash
  else if b == Byte.quote then some Byte.quote
  else none

structure Quoted where
  length : Nat
  content : Bytes
  flaws : List (Nat × Flaw)

/-- Reads a quoted text after its opening quote. `read` bytes are behind, `content` and `flaws` are
collected last first. The text ends at the closing quote; it is unclosed where the line ends first,
and a backslash before that end is dropped. An unknown escape stands for its own byte. -/
def quotedRest (read : Nat) (content : Bytes) (flaws : List (Nat × Flaw)) : Bytes → Quoted
  | [] => ⟨read, content.reverse, flaws.reverse ++ [(0, .unclosed)]⟩
  | b :: rest =>
    if b == Byte.lineFeed then ⟨read, content.reverse, flaws.reverse ++ [(0, .unclosed)]⟩
    else if b == Byte.quote then ⟨read + 1, content.reverse, flaws.reverse⟩
    else if b == Byte.backslash then
      match rest with
      | [] => ⟨read + 1, content.reverse, flaws.reverse ++ [(0, .unclosed)]⟩
      | e :: more =>
        if e == Byte.lineFeed then
          ⟨read + 1, content.reverse, flaws.reverse ++ [(0, .unclosed)]⟩
        else
          match escape? e with
          | some c => quotedRest (read + 2) (c :: content) flaws more
          | none => quotedRest (read + 2) (e :: content) ((read, .escape e) :: flaws) more
    else quotedRest (read + 1) (b :: content) flaws rest

def quoted (rest : Bytes) : Lexeme :=
  let q := quotedRest 1 [] [] rest
  { length := q.length, kind := some .quoted, text := q.content, flaws := q.flaws }

def numeral (s : Bytes) : Lexeme :=
  let whole := s.takeWhile Byte.isDigit
  let text :=
    match s.drop whole.length with
    | b :: rest =>
      let fraction := rest.takeWhile Byte.isDigit
      if b == Byte.dot && !fraction.isEmpty then whole ++ Byte.dot :: fraction else whole
    | [] => whole
  { length := text.length, kind := some .numeral, text,
    value := (Number.ofNumeral? text).getD Number.zero }

/-- A comment to the end of the line. `before` bytes stand before it; blanks around the comment do
not belong to its text. -/
def note (before : Nat) (s : Bytes) : Lexeme :=
  let content := s.takeWhile (· != Byte.lineFeed)
  { length := before + content.length, kind := some .note,
    text := Bytes.trimEnd (fun b => b == Byte.space || b == Byte.carriageReturn)
      (content.dropWhile (· == Byte.space)) }

def word (s : Bytes) : Lexeme :=
  if Word.standsAt Word.blockCommentStart s then { length := Word.blockCommentLength s }
  else
    match Word.phrase? s with
    | some k => { length := k.spelling.length, kind := some k, text := k.spelling }
    | none =>
      let w := s.takeWhile Byte.isNameByte
      let rest := s.drop w.length
      let after := rest.dropWhile (· == Byte.space)
      if Word.colonWords.contains w && after.head? == some Byte.colon then
        let length := w.length + (rest.length - after.length) + 1
        if w == "note" then note length (after.drop 1)
        else { length, kind := some (Word.kind w), text := w ++ [Byte.colon] }
      else { length := w.length, kind := some (Word.kind w), text := w }

def strange (b : UInt8) (rest : Bytes) : Lexeme :=
  let c := b :: rest.takeWhile Byte.isContinuation
  { length := c.length, flaws := [(0, .strange c)] }

def read (b : UInt8) (rest : Bytes) : Lexeme :=
  if b == Byte.lineFeed then { length := 1, kind := some .newline }
  else if b == Byte.carriageReturn || b == Byte.space then { length := 1 }
  else if b == Byte.tab then { length := 1, flaws := [(0, .tab)] }
  else if b == Byte.quote then quoted rest
  else
    match symbol? b with
    | some k => { length := 1, kind := some k, text := [b] }
    | none =>
      if Byte.isDigit b then numeral (b :: rest)
      else if Byte.startsName b then word (b :: rest)
      else strange b rest

theorem length_quotedRest (read : Nat) (content : Bytes) (flaws : List (Nat × Flaw)) (s : Bytes) :
    read ≤ (quotedRest read content flaws s).length := by
  fun_induction quotedRest read content flaws s <;> simp_all <;> omega

theorem length_numeral {b : UInt8} (rest : Bytes) (h : Byte.isDigit b = true) :
    0 < (numeral (b :: rest)).length := by
  simp only [numeral, List.takeWhile_cons, h]
  split
  · split <;> simp
  · simp

theorem length_blockComment {s : Bytes} (h : s ≠ []) : 0 < Word.blockCommentLength s := by
  unfold Word.blockCommentLength
  split
  · have : 0 < Word.blockCommentEnd.length := by decide
    omega
  · exact List.length_pos_iff.2 h

theorem length_spelling {s : Bytes} {k : Kind} (h : Word.phrase? s = some k) :
    0 < k.spelling.length := by
  have all : ∀ k ∈ Word.phrases, 0 < k.spelling.length := by decide
  exact all k (List.mem_of_find?_eq_some h)

theorem length_word {b : UInt8} (rest : Bytes) (h : Byte.startsName b = true) :
    0 < (word (b :: rest)).length := by
  have hb : Byte.isNameByte b = true := by
    simp only [Byte.startsName, Byte.isNameByte, Bool.or_eq_true] at *
    rcases h with h | h <;> simp [h]
  unfold word
  split
  · exact length_blockComment (by simp)
  · split
    · next k hk => exact length_spelling hk
    · simp only [List.takeWhile_cons, hb, if_true]
      split
      · split
        · simp only [note]
          omega
        · exact Nat.succ_pos _
      · exact Nat.succ_pos _

theorem length_read (b : UInt8) (rest : Bytes) : 0 < (read b rest).length := by
  unfold read
  split
  · simp
  · split
    · simp
    · split
      · simp
      · split
        · exact length_quotedRest 1 [] [] rest
        · split
          · simp
          · split
            · next h => exact length_numeral rest h
            · split
              · next h => exact length_word rest h
              · simp [strange]

end Lexeme

end StepsLang
