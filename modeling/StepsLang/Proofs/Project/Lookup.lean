import StepsLang.Proofs.Project.Loading
import StepsLang.Proofs.Sources.Number

namespace StepsLang

namespace Project

/-- A step is what the file at a path says, under the number that the project has given the file. -/
def ReadFrom (fs : Files) (p : Project) (path : Bytes) (s : Step) : Prop :=
  ∃ file text, p.sources.number? path = some file ∧ fs.read? path = some text ∧
    (Parsed.step file text).result = some s

variable {fs : Files} {p q r : Project} {path : Bytes} {s t : Step}

theorem ReadFrom.unique (hs : p.ReadFrom fs path s) (ht : p.ReadFrom fs path t) : s = t := by
  obtain ⟨file, text, number, content, read⟩ := hs
  obtain ⟨file', text', number', content', read'⟩ := ht
  cases number.symm.trans number'
  cases content.symm.trans content'
  exact Option.some.inj (read.symm.trans read')

theorem ReadFrom.of_prefix (h : p.ReadFrom fs path s)
    (grows : p.sources.paths <+: q.sources.paths) :
    q.ReadFrom fs path s := by
  obtain ⟨file, text, number, rest⟩ := h
  exact ⟨file, text, Sources.number?_of_prefix grows number, rest⟩

structure Grows (fs : Files) (listed : Bytes → Prop) (p q : Project) : Prop where
  sources : p.sources.paths <+: q.sources.paths
  steps : ∀ s ∈ q.steps, s ∈ p.steps ∨ ∃ path, listed path ∧ q.ReadFrom fs path s

namespace Grows

variable {listed listed' : Bytes → Prop}

theorem quiet (sources : p.sources.paths <+: q.sources.paths) (steps : q.steps = p.steps) :
    Grows fs listed p q :=
  ⟨sources, fun _ hs => .inl (steps ▸ hs)⟩

theorem mono (h : Grows fs listed p q) (more : ∀ path, listed path → listed' path) :
    Grows fs listed' p q :=
  ⟨h.sources, fun s hs => (h.steps s hs).imp id fun ⟨path, there, read⟩ =>
    ⟨path, more path there, read⟩⟩

theorem added (sources : p.sources.paths <+: q.sources.paths) (steps : q.steps = p.steps)
    (read : q.ReadFrom fs path s) (there : listed path) (sources' : r.sources = q.sources)
    (steps' : r.steps = q.steps ++ [s]) : Grows fs listed p r where
  sources := sources' ▸ sources
  steps t ht := by
    rw [steps', steps] at ht
    rcases List.mem_append.1 ht with old | new
    · exact .inl old
    · obtain rfl := List.mem_singleton.1 new
      exact .inr ⟨path, there, read.of_prefix (sources' ▸ List.prefix_refl _)⟩

theorem trans (h : Grows fs listed p q) (h' : Grows fs listed q r) : Grows fs listed p r where
  sources := h.sources.trans h'.sources
  steps s hs := by
    rcases h'.steps s hs with old | new
    · exact (h.steps s old).imp id fun ⟨path, there, read⟩ =>
        ⟨path, there, read.of_prefix h'.sources⟩
    · exact .inr new

end Grows

theorem sources_read (fs : Files) (path : Bytes) (parse : Nat → Bytes → Parsed (Option α))
    (p : Project) : p.sources.paths <+: (p.read fs path parse).2.sources.paths := by
  unfold Project.read
  split
  · exact List.prefix_refl _
  · next loaded =>
    obtain ⟨-, -, files⟩ := Library.load_eq_ok loaded
    exact files ▸ Sources.paths_add ..

theorem steps_read (fs : Files) (path : Bytes) (parse : Nat → Bytes → Parsed (Option α))
    (p : Project) : (p.read fs path parse).2.steps = p.steps := by
  unfold Project.read
  split <;> rfl

theorem readFrom_read (p : Project) (fs : Files) (path : Bytes)
    (h : (p.read fs path Parsed.step).1 = some s) :
    (p.read fs path Parsed.step).2.ReadFrom fs path s := by
  unfold Project.read at h ⊢
  split at h
  · cases h
  · next file text sources loaded =>
    obtain ⟨content, rfl, files⟩ := Library.load_eq_ok loaded
    refine ⟨_, text, ?_, content, h⟩
    simp only [Sources.number?, files]
    exact Sources.number?_add ..

def entryPath (dir : Bytes) (e : FloorEntry) : Bytes := Path.child dir (e.name ++ ".step")

theorem addStep_grows (fs : Files) (dir floor : Bytes) (p : Project) (e : FloorEntry) :
    Grows fs (· = entryPath dir e) p (addStep fs dir floor p e) := by
  have files := sources_read fs (entryPath dir e) Parsed.step p
  have steps := steps_read fs (entryPath dir e) Parsed.step p
  unfold addStep
  dsimp only
  split
  · exact .quiet (List.prefix_refl _) rfl
  · split
    · next q made =>
      rw [show p.read fs (entryPath dir e) Parsed.step = _ from made] at files steps
      exact .quiet files steps
    · next s q made =>
      have read := fun known => readFrom_read (s := s) p fs (entryPath dir e) known
      rw [show p.read fs (entryPath dir e) Parsed.step = _ from made] at files steps read
      refine .added files steps (read rfl) rfl ?_ ?_
      · split <;> rfl
      · dsimp only
        split <;> rfl

theorem addSteps_grows (fs : Files) (dir floor : Bytes) (es : List FloorEntry) (p : Project) :
    Grows fs (fun path => ∃ e ∈ es, path = entryPath dir e) p
      (es.foldl (addStep fs dir floor) p) := by
  induction es generalizing p with
  | nil => exact .quiet (List.prefix_refl _) rfl
  | cons e es ih =>
    have first := (addStep_grows fs dir floor p e).mono fun path same =>
      (⟨e, List.mem_cons_self, same⟩ : ∃ f ∈ e :: es, path = entryPath dir f)
    exact first.trans ((ih _).mono fun path ⟨f, hf, same⟩ => ⟨f, .tail _ hf, same⟩)

def Entered (root : Bytes) (names : List Bytes) (floors : List Floor) (path : Bytes) : Prop :=
  ∃ name ∈ names, ∃ f ∈ floors, ∃ e ∈ f.steps, path = entryPath (Path.child root name) e

theorem Entered.mono {root : Bytes} {names names' : List Bytes} {floors floors' : List Floor}
    (h : Entered root names floors path) (moreNames : names ⊆ names')
    (moreFloors : floors ⊆ floors') : Entered root names' floors' path := by
  obtain ⟨name, hn, f, hf, e, he, same⟩ := h
  exact ⟨name, moreNames hn, f, moreFloors hf, e, he, same⟩

theorem Entered.of_root {root root' : Bytes} {names : List Bytes} {floors : List Floor}
    (h : Entered root names floors path) (same : root = root') : Entered root' names floors path :=
  same ▸ h

theorem addDirectory_grows (fs : Files) (p : Project) (name : Bytes) :
    Grows fs (Entered p.root [name] (addDirectory fs p name).floors) p
      (addDirectory fs p name) := by
  unfold addDirectory
  dsimp only
  split
  · unfold addFloor
    have files := sources_read fs (Path.child (Path.child p.root name) (name ++ ".floor"))
      Parsed.floor p
    have steps := steps_read fs (Path.child (Path.child p.root name) (name ++ ".floor"))
      Parsed.floor p
    split
    · next q made =>
      rw [made] at files steps
      exact .quiet files steps
    · next f q made =>
      rw [made] at files steps
      have first : Grows fs (fun path => ∃ e ∈ f.steps, path = entryPath (Path.child p.root name) e)
        p q := .quiet files steps
      have all := first.trans (addSteps_grows fs (Path.child p.root name) f.name f.steps q)
      refine ⟨all.sources, (all.mono fun path ⟨e, he, same⟩ => ?_).steps⟩
      exact ⟨name, .head _, f, List.mem_append_right _ (List.mem_singleton.2 rfl), e, he, same⟩
  · split <;> exact .quiet (List.prefix_refl _) rfl

theorem addDirectories_grows (fs : Files) (names : List Bytes) (p : Project) :
    Grows fs (Entered p.root names (names.foldl (addDirectory fs) p).floors) p
      (names.foldl (addDirectory fs) p) := by
  induction names generalizing p with
  | nil => exact .quiet (List.prefix_refl _) rfl
  | cons name names ih =>
    obtain ⟨_, _, _, adds, -⟩ := addDirectory_adds fs p name
    obtain ⟨fl, _, _, more, -⟩ := addDirectories_adds fs names (addDirectory fs p name)
    have first := (addDirectory_grows fs p name).mono fun path there =>
      there.mono (List.cons_subset_cons name (List.nil_subset names))
        (more.floors ▸ List.subset_append_left _ fl)
    have rest := (ih (addDirectory fs p name)).mono fun path there =>
      there.mono (List.subset_cons_self name names) (List.Subset.refl _)
    rw [adds.root] at rest
    exact first.trans rest

def directories (fs : Files) (dir : Bytes) : List Bytes :=
  (fs.names dir).filter fun name => fs.isDirectory (Path.child dir name)

/-- Each step of a project was read from the file of an entry. -/
theorem readFrom_load {dir : Bytes} (silent : (load fs dir).reports = []) :
    ∀ s ∈ (load fs dir).steps, ∃ path,
      Entered dir (directories fs dir) (load fs dir).floors path ∧
        (load fs dir).ReadFrom fs path s := by
  obtain ⟨directory, path, found⟩ := building_of_silent silent
  rw [load_eq directory found]
  let p := (Project.read fs path Parsed.building { root := dir }).2
  have none : p.steps = [] := steps_read ..
  have root : p.root = dir := by
    obtain ⟨_, adds, -⟩ := read_adds fs path Parsed.building { root := dir }
    exact adds.root
  have grown := addDirectories_grows fs (directories fs dir)
    { p with building := (Project.read fs path Parsed.building { root := dir }).1 }
  intro s hs
  rcases grown.steps s hs with old | ⟨path, there, read⟩
  · rw [show _ = _ from none] at old
    cases old
  · exact ⟨path, there.of_root root, read⟩

theorem toOption_resolve (p : Project) (name : Bytes) (l : Location) :
    (p.environment.resolve name l).toOption = (p.steps.filter (·.name == name)).getLast? := by
  rw [List.getLast?_filter]
  cases found : p.steps.reverse.find? (·.name == name) with
  | some s => rw [resolve_environment found]; rfl
  | none =>
    unfold Environment.resolve
    have absent : p.environment.steps.find? name = none := by
      have made : p.environment = Environment.addSteps p.steps _ := rfl
      rw [made, Environment.find?_addSteps_eq, found, Environment.addFloors_eq]
      rfl
    rw [absent]
    split <;> rfl

/-- Of a project that loads without a report: the list of the steps gives the first step of a name,
and a call runs the last one. -/
theorem lookups_first_last (fs : Files) (dir name : Bytes) (l : Location)
    (sound : (load fs dir).isSound = true) :
    let p := load fs dir
    let named := p.steps.filter (·.name == name)
    let called := (p.environment.resolve name l).toOption
    (p.step? name = none ↔ called = none) ∧
      p.step? name = named.head? ∧ called = named.getLast? ∧
      (∀ s ∈ named, ∃ path, Entered dir (directories fs dir) p.floors path ∧
        p.ReadFrom fs path s) ∧
      ∀ path, (∀ s ∈ named, p.ReadFrom fs path s) → p.step? name = called := by
  intro p named called
  have silent := List.isEmpty_iff.1 (Bool.and_eq_true_iff.1 sound).2
  have first : p.step? name = named.head? := List.head?_filter.symm
  have last : called = named.getLast? := toOption_resolve p name l
  rw [first, last]
  refine ⟨?_, rfl, rfl, fun s hs => readFrom_load silent s (List.mem_of_mem_filter hs), ?_⟩
  · rw [List.head?_eq_none_iff, List.getLast?_eq_none_iff]
  · intro path one
    cases whole : named with
    | nil => rfl
    | cons s rest =>
      obtain ⟨t, ht⟩ :=
        Option.isSome_iff_exists.1 (List.getLast?_isSome.2 (List.cons_ne_nil s rest))
      have same := (one s (whole ▸ List.mem_cons_self)).unique
        (one t (whole ▸ List.mem_of_getLast? ht))
      rw [ht, same]
      rfl

theorem lookups_first_last_repeated :
    let fs : Files := { entries := [
      (["demo"], .directory),
      (["demo", "demo.building"], .file "building: demo\n    call greet\n"),
      (["demo", "hall"], .directory),
      (["demo", "hall", "hall.floor"], .file "floor: hall\n    step: greet\n    step: greet\n"),
      (["demo", "hall", "greet.step"],
        .file "step: greet\n    belongs to: hall\n    do:\n        exit\n")] }
    (load fs "demo").isSound = true ∧ (load fs "demo").steps.length = 2 ∧
      (load fs "demo").step? "greet" =
        ((load fs "demo").environment.resolve "greet" {}).toOption := by
  intro fs
  have names : fs.names "demo" = [("demo.building" : Bytes), "hall"] :=
    (List.mergeSort_of_pairwise (by decide +kernel)).trans (by decide +kernel)
  have directory : fs.isDirectory "demo" = true := by decide +kernel
  have found : buildingFile? fs "demo" = some "demo/demo.building" := by decide +kernel
  have floors : directories fs "demo" = [("hall" : Bytes)] := by
    rw [directories, names]
    decide +kernel
  have made := names ▸ load_eq directory found
  have facts : (load fs "demo").isSound = true ∧ (load fs "demo").steps.length = 2 ∧
      ∀ f ∈ (load fs "demo").floors, ∀ e ∈ f.steps, e.name = "greet" := by
    rw [made]
    decide +kernel
  obtain ⟨sound, two, entries⟩ := facts
  obtain ⟨-, -, -, read, one⟩ := lookups_first_last fs "demo" "greet" {} sound
  refine ⟨sound, two, one "demo/hall/greet.step" fun s hs => ?_⟩
  obtain ⟨path, ⟨name, hn, f, hf, e, he, rfl⟩, from_⟩ := read s hs
  rw [floors, List.mem_singleton] at hn
  rw [hn, entryPath, entries f hf e he] at from_
  exact from_

/-- Two floors may have a step of one name each.  Then the first one is listed and the second one
called. -/
theorem lookups_differ :
    let fs : Files := { entries := [
      (["demo"], .directory),
      (["demo", "demo.building"], .file "building: demo\n    call greet\n"),
      (["demo", "hall"], .directory),
      (["demo", "hall", "hall.floor"], .file "floor: hall\n    step: greet\n"),
      (["demo", "hall", "greet.step"], .file
        "step: greet\n    belongs to: hall\n    do:\n        display \"hall\"\n        call greet\n"),
      (["demo", "kitchen"], .directory),
      (["demo", "kitchen", "kitchen.floor"], .file "floor: kitchen\n    step: greet\n"),
      (["demo", "kitchen", "greet.step"], .file
        "step: greet\n    belongs to: kitchen\n    do:\n        display \"kitchen\"\n")] }
    (load fs "demo").isSound = true ∧ Native.ofName? "greet" = none ∧
      (load fs "demo").step? "greet" ≠
        ((load fs "demo").environment.resolve "greet" {}).toOption := by
  intro fs
  have names : fs.names "demo" = [("demo.building" : Bytes), "hall", "kitchen"] :=
    (List.mergeSort_of_pairwise (by decide +kernel)).trans (by decide +kernel)
  have directory : fs.isDirectory "demo" = true := by decide +kernel
  have found : buildingFile? fs "demo" = some "demo/demo.building" := by decide +kernel
  have made := names ▸ load_eq directory found
  have facts : (load fs "demo").isSound = true ∧ Native.ofName? "greet" = none ∧
      ((load fs "demo").step? "greet").map (·.floor) = some "hall" ∧
      ((load fs "demo").environment.resolve "greet" {}).toOption.map (·.floor) =
        some "kitchen" := by
    rw [made]
    decide +kernel
  obtain ⟨sound, own, listed, called⟩ := facts
  refine ⟨sound, own, fun same => ?_⟩
  rw [same, called] at listed
  cases listed

end Project

end StepsLang
