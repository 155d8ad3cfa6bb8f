import StepsLang.Environment
import StepsLang.Library
import StepsLang.Parse

/-!
Projects on disk. A project is a directory with one building in it and one directory for every
floor; a floor names the steps in its directory. Loading goes on after a fault, so that all of them
are reported together.
-/

namespace StepsLang

structure Project where
  root : Bytes
  building : Option Building := none
  floors : List Floor := []
  steps : List Step := []
  sources : Library := .empty
  reports : List Report := []
  deriving Inhabited

namespace Project

def isSound (p : Project) : Bool := p.building.isSome && p.reports.isEmpty

def report (p : Project) (r : Report) : Project := { p with reports := p.reports ++ [r] }

def step? (p : Project) (name : Bytes) : Option Step := p.steps.find? (·.name == name)

def read (fs : Files) (path : Bytes) (parse : Nat → Bytes → Parsed (Option α)) (p : Project) :
    Option α × Project :=
  match p.sources.load fs path with
  | .error r => (none, p.report r)
  | .ok (file, text, sources) =>
    let parsed := parse file text
    (parsed.result, { p with sources, reports := p.reports ++ parsed.reports })

def addStep (fs : Files) (dir : Bytes) (floor : Bytes) (p : Project) (e : FloorEntry) : Project :=
  let path := Path.child dir (e.name ++ ".step")
  if !fs.isFile path then
    p.report (Report.fill .stepFileMissing e.location
      [("step_name", e.name), ("floor_name", floor)])
  else
    match p.read fs path Parsed.step with
    | (none, p) => p
    | (some s, p) =>
      let p :=
        if s.floor.isEmpty || s.floor == floor then p
        else
          p.report (Report.fill .stepMisplaced s.floorLocation
            [("step_name", s.name), ("expected_floor", s.floor), ("actual_floor", floor)])
      { p with steps := p.steps ++ [s] }

def addFloor (fs : Files) (dir path : Bytes) (p : Project) : Project :=
  match p.read fs path Parsed.floor with
  | (none, p) => p
  | (some f, p) =>
    let p := f.steps.foldl (addStep fs dir f.name) p
    { p with floors := p.floors ++ [f] }

def filesWith (fs : Files) (dir extension : Bytes) : List Bytes :=
  ((fs.names dir).map (Path.child dir)).filter fun path =>
    fs.isFile path && Path.extension path == extension

/-- Reads a directory of a project: a floor if it holds a floor file of its own name. One with steps
in it must be a floor. -/
def addDirectory (fs : Files) (p : Project) (name : Bytes) : Project :=
  let dir := Path.child p.root name
  let path := Path.child dir (name ++ ".floor")
  if fs.isFile path then p.addFloor fs dir path
  else if (filesWith fs dir ".step").isEmpty then p
  else p.report (Report.fill .floorFileMissing {} [("floor_name", name)])

def nameOf (dir : Bytes) : Bytes :=
  let path := Path.normalize dir
  let name := Path.baseName path
  if name.isEmpty then Path.baseName (Path.directory path) else name

/-- The building file of a directory: the one with the name of the directory, or else the first
one. -/
def buildingFile? (fs : Files) (dir : Bytes) : Option Bytes :=
  let path := Path.child dir (nameOf dir ++ ".building")
  if fs.isFile path then some path else (filesWith fs dir ".building").head?

def load (fs : Files) (dir : Bytes) : Project :=
  let p : Project := { root := dir }
  if !fs.exists? dir then
    p.report (Report.tell .buildingMissing {} ("Project directory '" ++ dir ++ "' does not exist.")
      "Check that the path is correct and the directory exists.")
  else if !fs.isDirectory dir then
    p.report (Report.tell .buildingMissing {} ("'" ++ dir ++ "' is not a directory.")
      "Steps projects must be directories, not single files.")
  else
    match buildingFile? fs dir with
    | none =>
      p.report (Report.fill .buildingMissing {} [("path", dir), ("name", nameOf dir)])
    | some path =>
      let (building, p) := p.read fs path Parsed.building
      let floors := (fs.names dir).filter fun name => fs.isDirectory (Path.child dir name)
      floors.foldl (addDirectory fs) { p with building }

def environment (p : Project) : Environment :=
  let env := Environment.fresh ((p.building.map (·.name)).getD []) false
  p.steps.foldl .addStep (p.floors.foldl .addFloor env)

end Project

end StepsLang
