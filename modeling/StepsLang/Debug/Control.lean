import StepsLang.Path

namespace StepsLang.Debug

/-- How far a run goes on: nowhere, to the next breakpoint, to the next statement, to the next
statement that is not inside a call made from here, to the next statement outside this call, or not
at all any more. -/
inductive Mode
  | paused | run | stepInto | stepOver | stepOut | stopped
  deriving DecidableEq, Repr, Inhabited

namespace Mode

def name : Mode → Bytes
  | paused => "paused"
  | run => "run"
  | stepInto => "step_into"
  | stepOver => "step_over"
  | stepOut => "step_out"
  | stopped => "stopped"

def all : List Mode := [paused, run, stepInto, stepOver, stepOut, stopped]

def ofName? (text : Bytes) : Option Mode := all.find? (·.name == text)

end Mode

/-- The normal form of a file name in a breakpoint, where backslashes are slashes and the empty name
is the current directory. -/
def normalFile (path : Bytes) : Bytes :=
  if path.isEmpty then Path.current
  else Path.normalize (path.map fun b => if b == Byte.backslash then Byte.slash else b)

structure Breakpoint where
  file : Bytes
  line : Nat
  deriving DecidableEq, Repr, Inhabited

namespace Breakpoint

def isAt (b : Breakpoint) (file : Bytes) (line : Nat) : Bool :=
  b.line == line && normalFile b.file == normalFile file

/-- A breakpoint matches its own line in its own file, and in every file of that base name. -/
def isHit (b : Breakpoint) (path : Bytes) (line : Nat) : Bool :=
  b.line == line &&
    (normalFile b.file == normalFile path ||
      Path.baseName (normalFile b.file) == Path.baseName (normalFile path))

end Breakpoint

structure Control where
  mode : Mode := .paused
  depth : Nat := 0
  breakpoints : List Breakpoint := []
  deriving DecidableEq, Repr, Inhabited

namespace Control

def select (c : Control) (mode : Mode) (depth : Nat) : Control := { c with mode, depth }

def add (c : Control) (b : Breakpoint) : Control :=
  if c.breakpoints.any (·.isAt b.file b.line) then c
  else { c with breakpoints := c.breakpoints ++ [b] }

def present (c : Control) (file : Bytes) (line : Nat) : Bool :=
  c.breakpoints.any (·.isAt file line)

def remove (c : Control) (file : Bytes) (line : Nat) : Control :=
  { c with breakpoints := c.breakpoints.eraseP (·.isAt file line) }

def clear (c : Control) : Control := { c with breakpoints := [] }

def matched (c : Control) (path : Bytes) (line : Nat) : Bool :=
  !path.isEmpty && line != 0 && c.breakpoints.any (·.isHit path line)

def pausesAt (c : Control) (path : Bytes) (line depth : Nat) : Bool :=
  c.mode != .stopped &&
    (c.matched path line ||
      match c.mode with
      | .paused | .stepInto => true
      | .stepOver => depth ≤ c.depth
      | .stepOut => depth < c.depth
      | .run | .stopped => false)

end Control

end StepsLang.Debug
