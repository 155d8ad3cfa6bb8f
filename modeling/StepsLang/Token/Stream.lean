import StepsLang.Token.Scanner
import StepsLang.Utf8

/-!
The tokens of a source file. Each token comes with the reports of everything wrong before it, so
that a reader who stops early has not heard of faults further on.
-/

namespace StepsLang

structure Heard where
  reports : List Report
  token : Token
  deriving Repr

structure TokenStream where
  tokens : List Heard
  last : Location
  deriving Repr

namespace TokenStream

/-- Hands the reports of each batch, and of the batches without a token before it, to its first
token. -/
def spread (reports : List Report) : List Batch → List Heard
  | [] => []
  | b :: bs =>
    match b.tokens with
    | [] => spread (reports ++ b.reports) bs
    | t :: ts => ⟨reports ++ b.reports, t⟩ :: (ts.map (⟨[], ·⟩) ++ spread [] bs)

def byteOrderMark : Bytes := [0xEF, 0xBB, 0xBF]

def encoding (file : Nat) (text : Bytes) (start : Nat) : List Report :=
  match Utf8.malformed? text ⟨start, 1, 1⟩ with
  | none => []
  | some place =>
    [Report.fill .notUtf8 { file, line := place.line, column := place.column }
      [("offset", Bytes.decimal place.offset)]]

/-- The tokens of a source text; a byte order mark at its start is no part of it. -/
def ofSource (file : Nat) (source : Bytes) : TokenStream :=
  let marked := source.startsWith byteOrderMark
  let text := if marked then source.drop byteOrderMark.length else source
  let (batches, last) := Scanner.run { file, rest := text }
  { tokens := spread (encoding file text (if marked then byteOrderMark.length else 0)) batches,
    last }

def reports (s : TokenStream) : List Report := s.tokens.flatMap (·.reports)

def past (s : TokenStream) : Token := { location := s.last }

end TokenStream

end StepsLang
