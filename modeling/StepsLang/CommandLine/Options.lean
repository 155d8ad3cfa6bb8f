import StepsLang.Debug.Control
import StepsLang.Execution.Basic

namespace StepsLang.CommandLine

/-- What the options ask for. An empty path means standard input. -/
structure Options where
  trace : Bool := false
  stdin : Bytes := []
  limits : Limits := {}
  deriving DecidableEq, Repr, Inhabited

inductive Taken
  | none
  | malformed
  | some (o : Options) (rest : List Bytes)
  deriving DecidableEq, Repr, Inhabited

def count? (text : Bytes) : Option Nat :=
  (Bytes.readDecimal? (Nat.pow 2 32 - 1) text).filter (0 < ·)

def Options.takeCount (rest : List Bytes) (set : Nat → Options) : Taken :=
  match rest with
  | [] => .malformed
  | text :: rest =>
    match count? text with
    | some n => .some (set n) rest
    | none => .malformed

def Options.take (o : Options) : List Bytes → Taken
  | [] => .none
  | arg :: rest =>
    if arg == "--trace" then .some { o with trace := true } rest
    else if arg == "--stdin-from" then
      match rest with
      | [] => .malformed
      | path :: rest => .some { o with stdin := path } rest
    else if arg == "--max-iterations" then
      takeCount rest fun n => { o with limits := { o.limits with rounds := n } }
    else if arg == "--max-depth" then
      takeCount rest fun n => { o with limits := { o.limits with depth := n } }
    else .none

theorem Options.length_take {o o' : Options} {args rest : List Bytes}
    (h : o.take args = .some o' rest) : rest.length < args.length := by
  unfold take takeCount at h
  grind

def Options.takeAll (o : Options) (args : List Bytes) : Option Options :=
  if args.isEmpty then some o
  else
    match h : o.take args with
    | .some o rest =>
      have := length_take h
      o.takeAll rest
    | _ => none
termination_by args.length

def breakpoint? (spec : Bytes) : Option Debug.Breakpoint :=
  let line := (spec.reverse.takeWhile (· != Byte.colon)).reverse
  let file := spec.take (spec.length - line.length - 1)
  if file.isEmpty then none
  else (count? line).map fun n => { file, line := n }

end StepsLang.CommandLine
