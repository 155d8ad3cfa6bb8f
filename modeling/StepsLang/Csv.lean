import StepsLang.Bytes

namespace StepsLang.Csv

abbrev Row := List Bytes

def needsQuotes (field : Bytes) : Bool :=
  field.any fun b =>
    b == Byte.comma || b == Byte.quote || b == Byte.carriageReturn || b == Byte.lineFeed

def doubleQuotes (field : Bytes) : Bytes :=
  field.flatMap fun b => if b == Byte.quote then [b, b] else [b]

def encodeField (field : Bytes) : Bytes :=
  if needsQuotes field then "\"" ++ doubleQuotes field ++ "\"" else field

def encodeRow (row : Row) : Bytes := Bytes.join "," (row.map encodeField) ++ "\r\n"

def encode (rows : List Row) : Bytes := (rows.map encodeRow).flatten

/-- What has been read so far: whole rows, fields of the row and bytes of the field, all last
first. `quoted` says that a quote is open, `started` that the row goes on with a field even if it
is empty. -/
structure State where
  rows : List Row := []
  row : List Bytes := []
  field : Bytes := []
  quoted : Bool := false
  started : Bool := false

namespace State

def put (s : State) (b : UInt8) : State := { s with field := b :: s.field, started := true }

def endField (s : State) : State :=
  { s with row := s.field.reverse :: s.row, field := [], started := false }

def endRow (s : State) : State :=
  let s := if s.started || !s.row.isEmpty then s.endField else s
  if s.row.isEmpty then s else { s with rows := s.row.reverse :: s.rows, row := [] }

end State

def read (s : State) : Bytes → State
  | [] => s
  | b :: rest =>
    if s.quoted then
      if b != Byte.quote then read { s with field := b :: s.field } rest
      else
        match rest with
        | c :: more =>
          if c == Byte.quote then read { s with field := c :: s.field } more
          else read { s with quoted := false } (c :: more)
        | [] => { s with quoted := false }
    else if b == Byte.quote then read { s with quoted := true, started := true } rest
    else if b == Byte.comma then read { s.endField with started := true } rest
    else if b == Byte.carriageReturn then
      match rest with
      | c :: more => if c == Byte.lineFeed then read s.endRow more else read s.endRow (c :: more)
      | [] => s.endRow
    else if b == Byte.lineFeed then read s.endRow rest
    else read (s.put b) rest
termination_by s => s.length

def decode? (text : Bytes) : Option (List Row) :=
  let s := read {} text
  if s.quoted then none else some s.endRow.rows.reverse

end StepsLang.Csv
