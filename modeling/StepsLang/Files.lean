import StepsLang.Path

namespace StepsLang

inductive Entry
  | file (content : Bytes)
  | directory
  deriving DecidableEq, Repr

structure Files where
  entries : List (List Bytes × Entry) := []
  current : List Bytes := []
  deriving Repr, Inhabited

namespace Files

def at? (fs : Files) (place : List Bytes) : Option Entry :=
  if place.isEmpty then some .directory else fs.entries.lookup place

def contentAt (fs : Files) (place : List Bytes) : Bytes :=
  match fs.at? place with
  | some (.file content) => content
  | _ => []

def isDirectoryAt (fs : Files) (place : List Bytes) : Bool := fs.at? place == some .directory

def put (fs : Files) (place : List Bytes) (e : Entry) : Files :=
  { fs with entries := (place, e) :: fs.entries.filter (·.1 != place) }

def makeDirectory (fs : Files) (place : List Bytes) : Files :=
  (List.range (place.length + 1)).foldl
    (fun fs n => if (fs.at? (place.take n)).isSome then fs else fs.put (place.take n) .directory) fs

def makeFile (fs : Files) (place : List Bytes) (content : Bytes) : Files :=
  (fs.makeDirectory place.dropLast).put place (.file content)

def longest : Nat := 4095

def enter (place : List Bytes) (name : Bytes) : List Bytes :=
  if name == Path.current then place
  else if name == Path.parent then place.dropLast
  else place ++ [name]

def follow? (fs : Files) (place : List Bytes) : List Bytes → Option (List Bytes)
  | [] => some place
  | name :: rest =>
    if fs.isDirectoryAt place && name.length ≤ 255 then fs.follow? (enter place name) rest else none

/-- The place a path leads to, which need not hold anything. A path ends at a zero byte; one that
ends in a slash leads to directories only, and an empty or overlong one nowhere. -/
def place? (fs : Files) (path : Bytes) : Option (List Bytes) :=
  let path := path.takeWhile (· != 0)
  let start := if Path.isAbsolute path then [] else fs.current
  if path.isEmpty || longest < path.length then none
  else
    match fs.follow? start (Path.components path) with
    | some place =>
      if path.getLast? == some Byte.slash && !fs.isDirectoryAt place then none else some place
    | none => none

def entry? (fs : Files) (path : Bytes) : Option Entry := (fs.place? path).bind fs.at?

def exists? (fs : Files) (path : Bytes) : Bool := (fs.entry? path).isSome

def isDirectory (fs : Files) (path : Bytes) : Bool := fs.entry? path == some .directory

def isFile (fs : Files) (path : Bytes) : Bool :=
  match fs.entry? path with
  | some (.file _) => true
  | _ => false

def read? (fs : Files) (path : Bytes) : Option Bytes :=
  match fs.entry? path with
  | some (.file content) => some content
  | _ => none

def open? (fs : Files) (path : Bytes) : Option Bytes :=
  match fs.entry? path with
  | some (.file content) => some content
  | some .directory => some []
  | none => none

def update? (fs : Files) (path : Bytes) (change : Bytes → Bytes) : Option Files :=
  match fs.place? path with
  | none => none
  | some place =>
    match fs.at? place with
    | some .directory => none
    | some (.file content) => some (fs.put place (.file (change content)))
    | none => some (fs.put place (.file (change [])))

def write? (fs : Files) (path content : Bytes) : Option Files := fs.update? path fun _ => content

def append? (fs : Files) (path content : Bytes) : Option Files := fs.update? path (· ++ content)

def names (fs : Files) (path : Bytes) : List Bytes :=
  match fs.place? path with
  | none => []
  | some place =>
    let here := fs.entries.filter fun e => !e.1.isEmpty && e.1.dropLast == place
    (here.filterMap (·.1.getLast?)).mergeSort fun a b => decide (a ≤ b)

def changes (before fs : Files) : List (List Bytes × Bytes) :=
  fs.entries.filterMap fun (place, e) =>
    match e with
    | .file content => if before.at? place == some e then none else some (place, content)
    | .directory => none

end Files

end StepsLang
