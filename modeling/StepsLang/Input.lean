import StepsLang.Files

namespace StepsLang

/-- A file that lines are read from. Its bytes are fetched in blocks, each when the one before it is
used up. A block stays as it was fetched; what comes after it is what the file holds by the time it
is needed. -/
structure FileReader where
  place : List Bytes
  fetched : Nat := 0
  block : Bytes := []
  deriving Repr, Inhabited

namespace FileReader

def blockSize : Nat := 8191

def roundUp (n : Nat) : Nat := (n + (blockSize - 1)) / blockSize * blockSize

/-- The next line, and the reader after it, unless the file has come to its end. A file that ends in
a line feed comes to its end only with the line after it, so it may still grow. -/
def read (files : Files) (r : FileReader) : Bytes × Option FileReader :=
  match r.block.span (· != Byte.lineFeed) with
  | (line, _ :: block) => (line, some { r with block })
  | (start, []) =>
    let ahead := (files.contentAt r.place).drop r.fetched
    match ahead.span (· != Byte.lineFeed) with
    | (line, []) => (start ++ line, none)
    | (line, _ :: _) =>
      let blocks := ahead.take (roundUp (line.length + 1))
      (start ++ line,
        some { r with
          fetched := r.fetched + blocks.length, block := blocks.drop (line.length + 1) })

end FileReader

inductive Supply
  | given (lines : List Bytes)
  | file (reader : FileReader)
  deriving Repr, Inhabited

structure Input where
  supply : Supply := .given []
  reads : Nat := 0
  deriving Repr, Inhabited

namespace Input

def ofLines (lines : List Bytes) : Input := { supply := .given lines }

def ofText (text : Bytes) : Input := ofLines ((Bytes.lines text).map Bytes.dropReturn)

def ofPath? (files : Files) (path : Bytes) : Option Input :=
  match files.place? path with
  | some place => if (files.at? place).isSome then some { supply := .file { place } } else none
  | none => none

def read (files : Files) (i : Input) : Bytes × Input :=
  let reads := i.reads + 1
  match i.supply with
  | .given lines => (lines.headD [], { supply := .given lines.tail, reads })
  | .file reader =>
    match reader.read files with
    | (line, some reader) => (line.dropReturn, { supply := .file reader, reads })
    | (line, none) => (line.dropReturn, { supply := .given [], reads })

end Input

end StepsLang
