import StepsLang.Token.Stream

/-!
Reading a token stream. A cursor stands before a token and keeps the reports of all that was wrong
so far. Looking at a token brings its reports to light, and of the faults that a reader finds on one
line only the first is reported, and only if the line had none before. `many` is the one loop: it
repeats a reader as long as it takes something, and every taking consumes a token. Loops are bounded
by the tokens that are left, one round for each.
-/

namespace StepsLang

structure Cursor where
  rest : List Heard
  reports : List Report := []
  base : Nat := 0

abbrev Reader := StateM Cursor

namespace Cursor

def ofStream (s : TokenStream) : Cursor := { rest := s.tokens }

def hear (c : Cursor) (n : Nat) : Cursor :=
  if (c.rest.take n).all (·.reports.isEmpty) then c
  else
    { c with
      reports := c.reports ++ (c.rest.take n).flatMap (·.reports)
      rest := (c.rest.take n).map (⟨[], ·.token⟩) ++ c.rest.drop n }

def token (c : Cursor) (n : Nat) : Token :=
  match c.rest.drop n with
  | h :: _ => h.token
  | [] => {}

def advance (c : Cursor) : Cursor :=
  match c.rest with
  | h :: t :: rest => if h.token.kind == .endOfFile then c else { c with rest := t :: rest }
  | _ => c

end Cursor

namespace Reader

def peekAt (n : Nat) : Reader Token := do
  modify (·.hear (n + 1))
  return (← get).token n

def peek : Reader Token := peekAt 0

def advance : Reader Token := do
  let t ← peek
  modify (·.advance)
  return t

def check (k : Kind) : Reader Bool := do return (← peek).kind == k

def checkAt (n : Nat) (k : Kind) : Reader Bool := do return (← peekAt n).kind == k

def take? (k : Kind) : Reader (Option Token) := do
  if ← check k then return some (← advance) else return none

def skip? (k : Kind) : Reader Bool := do return (← take? k).isSome

theorem check_bind (k : Kind) (g : Bool → Reader α) :
    check k >>= g = peek >>= fun t => g (t.kind == k) := rfl

theorem checkAt_bind (n : Nat) (k : Kind) (g : Bool → Reader α) :
    checkAt n k >>= g = peekAt n >>= fun t => g (t.kind == k) := rfl

theorem take?_bind (k : Kind) (g : Option Token → Reader α) : take? k >>= g =
    check k >>= fun b => if b then advance >>= fun t => g (some t) else g none := by
  unfold take?
  rw [bind_assoc]
  refine congrArg (check k >>= ·) (funext fun b => ?_)
  cases b <;> rfl

theorem skip?_bind (k : Kind) (g : Bool → Reader α) :
    skip? k >>= g = take? k >>= fun t => g t.isSome := rfl

/-- Repeats a reader until it takes nothing, at most once for every entry of `bound`. -/
def atMost (p : Reader (Option α)) : List β → Reader (List α)
  | [] => return []
  | _ :: bound => do
    match ← p with
    | none => return []
    | some a => return a :: (← atMost p bound)

def many (p : Reader (Option α)) : Reader (List α) := do atMost p (← get).rest

def report (r : Report) : Reader Unit :=
  modify fun c => if c.base < c.reports.length then c else { c with reports := c.reports ++ [r] }

def beginLine : Reader Unit := modify fun c => { c with base := c.reports.length }

def unexpected (message : Option Bytes := none) : Reader Unit := do
  let t ← peek
  let r := Report.fill .unexpectedToken t.location [("token", t.describe)]
  report { r with message := message.getD r.message }

def expected (what : Bytes) : Reader Unit := do
  let t ← peek
  report (Report.fill .wordExpected t.location [("expected", what), ("found", t.describe)])

def expect (k : Kind) (what : Bytes) : Reader (Option Token) := do
  match ← take? k with
  | some t => return some t
  | none =>
    expected what
    return none

def expectName : Reader (Option Token) := do
  match ← take? .name with
  | some t => return some t
  | none =>
    let t ← peek
    report (Report.fill .nameExpected t.location [("found", t.describe)])
    return none

/-- Goes on to the next line of the current depth, at most one token further for every entry of
`bound`. An indented block that follows is part of the broken line; the end of the enclosing block
stays. -/
def resyncWithin : List β → Nat → Reader Unit
  | [], _ => return ()
  | _ :: bound, depth => do
    match (← peek).kind with
    | .endOfFile => return ()
    | .dedent =>
      match depth with
      | 0 => return ()
      | depth + 1 =>
        discard advance
        if depth == 0 && !(← check .indent) then return () else resyncWithin bound depth
    | .indent =>
      discard advance
      resyncWithin bound (depth + 1)
    | .newline =>
      discard advance
      if depth == 0 then
        if ← check .indent then resyncWithin bound depth else return ()
      else resyncWithin bound depth
    | _ =>
      discard advance
      resyncWithin bound depth

def resync : Reader Unit := do resyncWithin (← get).rest 0

def atBlockEnd : Reader Bool := do return (← check .dedent) || (← check .endOfFile)

def skipNewlines : Reader Unit := discard (many (take? .newline))

/-- The end of a statement. Says whether it was there; where it is not, the rest of the line is
skipped. -/
def expectEndOfLine (statement : Bytes) : Reader Bool := do
  if ← skip? .newline then return true
  else if ← atBlockEnd then return true
  else
    let t ← peek
    report (Report.fill .lineEndExpected t.location
      [("statement", statement), ("found", t.describe)])
    resync
    return false

def expectedBlock (keyword : Bytes) : Reader Unit := do
  report (Report.fill .blockExpected (← peek).location [("keyword", keyword)])

def lines (line : Reader (List α)) : Reader (List α) := do
  let parts ← many do
    skipNewlines
    if ← atBlockEnd then return none else return some (← line)
  discard (take? .dedent)
  return parts.flatten

end Reader

end StepsLang
