import StepsLang.Path
import StepsLang.Location

namespace StepsLang

structure Sources where
  paths : List Bytes := []
  texts : List (Nat × List Bytes) := []
  deriving Repr, Inhabited

namespace Sources

def empty : Sources := {}

def add (s : Sources) (path : Bytes) : Nat × Sources :=
  let normal := Path.normalize path
  match s.paths.idxOf? normal with
  | some i => (i + 1, s)
  | none => (s.paths.length + 1, { s with paths := s.paths ++ [normal] })

/-- Normal form of the path of a file, and the empty text for a number never given. -/
def path (s : Sources) (file : Nat) : Bytes :=
  if file == 0 then [] else s.paths.getD (file - 1) []

def cut (text : Bytes) : List Bytes :=
  match (Bytes.splitLines text).reverse with
  | [] => []
  | last :: before =>
    (before.map Bytes.dropReturn).reverse ++ if last.isEmpty then [] else [last]

def attach (s : Sources) (file : Nat) (text : Bytes) : Sources :=
  if file == 0 then s else { s with texts := (file, cut text) :: s.texts }

def lines (s : Sources) (file : Nat) : List Bytes := (s.texts.lookup file).getD []

def line (s : Sources) (file n : Nat) : Bytes :=
  if n == 0 then [] else (s.lines file).getD (n - 1) []

def lineCount (s : Sources) (file : Nat) : Nat := (s.lines file).length

end Sources

end StepsLang
