import StepsLang.Csv
import StepsLang.Native.Basic
import StepsLang.Value.Operator
import StepsLang.World

namespace StepsLang.Native.File

def pathOf (v : Value) (name usage : Bytes) (l : Location) : Effect Bytes :=
  match v with
  | .text path => pure path
  | _ =>
    .fail (Value.unfit l (name ++ " requires a text path, got " ++ v.typeName ++ ".")
      ("Use: " ++ usage))

def inQuotes (path : Bytes) : Bytes := "'" ++ path ++ "'"

def content (path missing : Bytes) (l : Location) : Effect Bytes := fun w =>
  match w.files.read? path with
  | some s => (.ok s, w)
  | none =>
    (.error (failure l (missing ++ inQuotes path) "Check that the file path is correct."), w)

def store (change : Files → Option Files) (refused : Bytes) (l : Location) : Effect Value :=
  fun w =>
    match change w.files with
    | some files => (.ok .nothing, { w with files })
    | none => (.error (failure l refused "Check file permissions and path."), w)

def read (path : Value) (l : Location) : Effect Value := do
  let path ← pathOf path "read_file" "call read_file with \"myfile.txt\"" l
  return .text (← content path "File not found: " l)

def write (path v : Value) (l : Location) : Effect Value := do
  let path ← pathOf path "write_file" "call write_file with \"myfile.txt\", content" l
  let text ← .ask fun h => .ok (h.display v)
  store (·.write? path text) ("Could not write to file " ++ inQuotes path ++ ".") l

def append (path v : Value) (l : Location) : Effect Value := do
  let path ← pathOf path "append_file" "call append_file with \"myfile.txt\", content" l
  let text ← .ask fun h => .ok (h.display v)
  store (·.append? path text) ("Could not append to file " ++ inQuotes path ++ ".") l

def present (path : Value) (l : Location) : Effect Value := do
  let path ← pathOf path "file_exists" "call file_exists with \"myfile.txt\"" l
  fun w => (.ok (.boolean (w.files.isFile path)), w)

/-- The entries that a row gives the columns of a header. Fields that are missing are empty, and
fields without a column are left out. -/
def rowEntries (header row : Csv.Row) : List (Bytes × Value) :=
  header.mapIdx fun i key => (key, .text (row.getD i []))

def newRows (h : Heap) (header : Csv.Row) : List Csv.Row → List Value × Heap
  | [] => ([], h)
  | row :: rows =>
    let (table, h) := h.newTable (rowEntries header row)
    let (tables, h) := newRows h header rows
    (table :: tables, h)

def readRows (h : Heap) : List Csv.Row → Value × Heap
  | [] => h.newList #[]
  | header :: rows =>
    let (tables, h) := newRows h header rows
    h.newList tables.toArray

def readCsv (path : Value) (l : Location) : Effect Value := do
  let path ← pathOf path "read_csv" "call read_csv with \"data.csv\"" l
  let text ← content path "CSV file not found: " l
  match Csv.decode? text with
  | none =>
    .fail (failure l
      ("CSV parsing error in " ++ inQuotes path ++ ": unterminated quoted field.")
      "Check the CSV file format.")
  | some rows => .onHeap fun h => .ok (readRows h rows)

def rowFields (h : Heap) (header : Csv.Row) (id : Nat) : Csv.Row :=
  header.map fun key =>
    match (h.entries id).get? key with
    | some v => h.display v
    | none => []

/-- The rows that a list of tables is written as: the keys of the first table, and the fields of
every table under them. What is no table is left out. -/
def writeRows (h : Heap) (items : List Value) : List Csv.Row :=
  match items with
  | .table first :: _ =>
    let header := (h.entries first).keys
    header :: items.filterMap fun v =>
      match v with
      | .table id => some (rowFields h header id)
      | _ => none
  | _ => []

def tablesOf (v : Value) (l : Location) : Effect (List Value) :=
  match v with
  | .list id => do
    let items ← .ask fun h => .ok (h.items id).toList
    match items with
    | [] | .table _ :: _ => return items
    | _ =>
      .fail (Value.unfit l "write_csv: each element must be a table."
        "Each row should be a table with key-value pairs.")
  | _ =>
    .fail (Value.unfit l ("write_csv requires a list of tables, got " ++ v.typeName ++ ".")
      "Data must be a list of tables.")

def writeCsv (path data : Value) (l : Location) : Effect Value := do
  let path ← pathOf path "write_csv" "call write_csv with \"output.csv\", data_list" l
  let items ← tablesOf data l
  let rows ← .ask fun h => .ok (writeRows h items)
  store (·.write? path (Csv.encode rows)) ("Could not write CSV file " ++ inQuotes path ++ ".") l

end StepsLang.Native.File
