import StepsLang.Bytes

namespace StepsLang.Path

def components (path : Bytes) : List Bytes := go [] path
where
  go (name : Bytes) : Bytes → List Bytes
    | [] => if name.isEmpty then [] else [name.reverse]
    | b :: rest =>
      if b == Byte.slash then
        if name.isEmpty then go [] rest else name.reverse :: go [] rest
      else go (b :: name) rest

def current : Bytes := "."

def parent : Bytes := ".."

def isAbsolute (path : Bytes) : Bool := path.head? == some Byte.slash

structure Walk where
  names : List Bytes := []
  slashed : Bool := false

def Walk.step (absolute : Bool) (w : Walk) (name : Bytes) : Walk :=
  if name == current then { w with slashed := true }
  else if name == parent then
    match w.names with
    | [] => if absolute then { w with slashed := true } else { w with names := [parent] }
    | last :: before =>
      if last == parent then { w with names := parent :: w.names }
      else ⟨before, true⟩
  else ⟨name :: w.names, false⟩

/-- The normal form of a path: no doubled slash, no `.`, no name followed by `..`. A slash at the
end stays, except after `..`; a path that simplifies to nothing is `.`, and the empty path is its
own normal form. -/
def normalize (path : Bytes) : Bytes :=
  if path.isEmpty then []
  else
    let absolute := isAbsolute path
    let w := (components path).foldl (Walk.step absolute) {}
    let ends := w.slashed || path.getLast? == some Byte.slash
    match w.names with
    | [] => if absolute then [Byte.slash] else current
    | last :: _ =>
      (if absolute then [Byte.slash] else []) ++ Bytes.join [Byte.slash] w.names.reverse
        ++ (if ends && last != parent then [Byte.slash] else [])

def baseName (path : Bytes) : Bytes := (path.reverse.takeWhile (· != Byte.slash)).reverse

def directory (path : Bytes) : Bytes :=
  let before := (path.reverse.dropWhile (· != Byte.slash)).dropWhile (· == Byte.slash)
  if before.isEmpty && isAbsolute path then [Byte.slash] else before.reverse

def child (dir name : Bytes) : Bytes :=
  if isAbsolute name then name
  else if dir.isEmpty || dir.getLast? == some Byte.slash then dir ++ name
  else dir ++ [Byte.slash] ++ name

/-- The end of a file name from its last dot on. A dot at the very start begins no extension, and
neither do the names `.` and `..` have one. -/
def extension (path : Bytes) : Bytes :=
  let name := baseName path
  let after := name.reverse.takeWhile (· != Byte.dot)
  if name == parent || name.length ≤ after.length + 1 then [] else Byte.dot :: after.reverse

end StepsLang.Path
