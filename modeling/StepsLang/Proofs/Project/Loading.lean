import StepsLang.Project
import StepsLang.Proofs.Recovery.Naming
import StepsLang.Proofs.Relocation.Registry

namespace StepsLang

namespace Environment

theorem find?_addSteps_eq (added : List Step) (env : Environment) (x : Bytes) :
    (env.addSteps added).steps.find? x =
      (added.reverse.find? (·.name == x)).or (env.steps.find? x) := by
  unfold addSteps
  induction added generalizing env with
  | nil => rfl
  | cons step added ih =>
    have first : (env.addStep step).steps.find? x =
        if x = step.name then some step else env.steps.find? x := NameMap.find?_insert ..
    rw [List.foldl_cons, ih, first, List.reverse_cons, List.find?_append, Option.or_assoc]
    congr 1
    by_cases same : x = step.name
    · simp [same]
    · simp [same, Ne.symm same]

theorem addFloors_eq (floors : List Floor) (env : Environment) :
    floors.foldl addFloor env = { env with floors := (floors.foldl addFloor env).floors } := by
  induction floors generalizing env with
  | nil => rfl
  | cons f floors ih => exact ih (env.addFloor f)

end Environment

namespace Project

structure Callable (p : Project) (name : Bytes) : Prop where
  listed : (p.step? name).isSome = true
  resolved : ∀ l, ∃ s ∈ p.steps, s.name = name ∧ p.environment.resolve name l = .ok s

theorem resolve_environment {p : Project} {name : Bytes} {s : Step}
    (h : p.steps.reverse.find? (·.name == name) = some s) (l : Location) :
    p.environment.resolve name l = .ok s := by
  let env := p.floors.foldl .addFloor (Environment.fresh ((p.building.map (·.name)).getD []) false)
  have made : p.environment = env.addSteps p.steps := rfl
  have running : p.environment.interactive = false := by
    rw [made, Environment.addSteps_eq, show env = _ from Environment.addFloors_eq ..]
    rfl
  have found : p.environment.steps.find? name = some s := by
    rw [made, Environment.find?_addSteps_eq, h]
    rfl
  unfold Environment.resolve
  rw [running, if_neg Bool.false_ne_true, found]

theorem callable_iff {p : Project} {name : Bytes} :
    p.Callable name ↔ ∃ s ∈ p.steps, s.name = name := by
  constructor
  · rintro ⟨-, resolved⟩
    obtain ⟨s, there, same, -⟩ := resolved {}
    exact ⟨s, there, same⟩
  · rintro ⟨s, there, same⟩
    refine ⟨List.find?_isSome.2 ⟨s, there, beq_iff_eq.2 same⟩, fun l => ?_⟩
    have known : (p.steps.reverse.find? (·.name == name)).isSome = true :=
      List.find?_isSome.2 ⟨s, List.mem_reverse.2 there, beq_iff_eq.2 same⟩
    obtain ⟨t, found⟩ := Option.isSome_iff_exists.1 known
    have named : t.name = name := beq_iff_eq.1 (List.find?_some found :)
    exact ⟨t, List.mem_reverse.1 (List.mem_of_find?_eq_some found), named,
      resolve_environment found l⟩

def Cleanly (fs : Files) (path : Bytes) (parse : Nat → Bytes → Parsed α) (a : α) : Prop :=
  ∃ file text, fs.read? path = some text ∧ parse file text = ⟨a, []⟩

structure Adds (p q : Project) (floors : List Floor) (steps : List Step) (reports : List Report) :
    Prop where
  root : q.root = p.root
  floors : q.floors = p.floors ++ floors
  steps : q.steps = p.steps ++ steps
  reports : q.reports = p.reports ++ reports

namespace Adds

variable {p q r : Project} {fl fl' : List Floor} {st st' : List Step} {rs rs' : List Report}

theorem refl (p : Project) : p.Adds p [] [] [] := by constructor <;> simp

theorem trans (h : p.Adds q fl st rs) (h' : q.Adds r fl' st' rs') :
    p.Adds r (fl ++ fl') (st ++ st') (rs ++ rs') where
  root := h'.root.trans h.root
  floors := by rw [h'.floors, h.floors, List.append_assoc]
  steps := by rw [h'.steps, h.steps, List.append_assoc]
  reports := by rw [h'.reports, h.reports, List.append_assoc]

theorem report (p : Project) (r : Report) : p.Adds (p.report r) [] [] [r] := by
  constructor <;> simp [Project.report]

theorem step (h : p.Adds q fl [] rs) (s : Step) :
    p.Adds { q with steps := q.steps ++ [s] } fl [s] rs :=
  ⟨h.root, h.floors, by simp [h.steps], h.reports⟩

theorem floor (h : p.Adds q [] st rs) (f : Floor) :
    p.Adds { q with floors := q.floors ++ [f] } [f] st rs :=
  ⟨h.root, by simp [h.floors], h.steps, h.reports⟩

end Adds

variable {fs : Files}

theorem read_adds (fs : Files) (path : Bytes) (parse : Nat → Bytes → Parsed (Option α))
    (p : Project) :
    ∃ rs, p.Adds (p.read fs path parse).2 [] [] rs ∧
      (rs = [] → Cleanly fs path parse (p.read fs path parse).1) := by
  unfold Project.read
  split
  · exact ⟨_, .report p _, nofun⟩
  · next file text sources loaded =>
    refine ⟨(parse file text).reports, by constructor <;> simp, fun none => ?_⟩
    exact ⟨file, text, (Library.load_eq_ok loaded).1, congrArg (Parsed.mk _) none⟩

theorem Cleanly.floor {path : Bytes} {o : Option Floor} (h : Cleanly fs path Parsed.floor o) :
    ∃ f, o = some f := by
  obtain ⟨file, text, -, parsed⟩ := h
  have some := Parsed.floor_isSome (congrArg Parsed.reports parsed)
  rw [congrArg Parsed.result parsed] at some
  exact Option.isSome_iff_exists.1 some

theorem Cleanly.step {path : Bytes} {o : Option Step} (h : Cleanly fs path Parsed.step o) :
    ∃ s, o = some s ∧ s.floor ≠ [] := by
  obtain ⟨file, text, -, parsed⟩ := h
  obtain ⟨s, there, told⟩ := Parsed.step_floor (congrArg Parsed.reports parsed)
  exact ⟨s, (congrArg Parsed.result parsed).symm.trans there, told⟩

structure Listed (fs : Files) (dir floor : Bytes) (e : FloorEntry) (s : Step) : Prop where
  read : Cleanly fs (Path.child dir (e.name ++ ".step")) Parsed.step (some s)
  floor : s.floor = floor

theorem addStep_adds (fs : Files) (dir floor : Bytes) (p : Project) (e : FloorEntry) :
    ∃ st rs, p.Adds (addStep fs dir floor p e) [] st rs ∧
      (rs = [] → ∃ s, st = [s] ∧ Listed fs dir floor e s) := by
  unfold addStep
  dsimp only
  split
  · exact ⟨[], _, .report p _, nofun⟩
  · obtain ⟨rs, adds, clean⟩ :=
      read_adds fs (Path.child dir (e.name ++ ".step")) Parsed.step p
    split
    · next q made =>
      rw [made] at adds clean
      refine ⟨[], rs, adds, fun silent => ?_⟩
      obtain ⟨s, nothing, -⟩ := (clean silent).step
      cases nothing
    · next s q made =>
      rw [made] at adds clean
      split
      · next fits =>
        refine ⟨[s], rs, adds.step s, fun silent => ⟨s, rfl, clean silent, ?_⟩⟩
        obtain ⟨t, same, told⟩ := (clean silent).step
        cases same
        simpa [told] using fits
      · -- A misplaced step is kept, but the fault is reported.
        have loud (r : Report) := (adds.trans (.report q r)).step s
        exact ⟨[s], _, loud _, fun silent => by simp at silent⟩

theorem addSteps_adds (fs : Files) (dir floor : Bytes) (es : List FloorEntry) (p : Project) :
    ∃ st rs, p.Adds (es.foldl (addStep fs dir floor) p) [] st rs ∧
      (rs = [] → List.Forall₂ (Listed fs dir floor) es st) := by
  induction es generalizing p with
  | nil => exact ⟨[], [], .refl p, fun _ => .nil⟩
  | cons e es ih =>
    obtain ⟨st, rs, adds, one⟩ := addStep_adds fs dir floor p e
    obtain ⟨st', rs', adds', rest⟩ := ih (addStep fs dir floor p e)
    refine ⟨st ++ st', rs ++ rs', adds.trans adds', fun silent => ?_⟩
    obtain ⟨here, later⟩ := List.append_eq_nil_iff.1 silent
    obtain ⟨s, rfl, listed⟩ := one here
    exact .cons listed (rest later)

/-- A floor of the project at `root` with the steps that were read for it: all is in the directory
`name`, and there is one step for each entry, in the order of the entries. -/
structure Backed (fs : Files) (root : Bytes) (f : Floor) (name : Bytes) (steps : List Step) :
    Prop where
  floor : Cleanly fs (Path.child (Path.child root name) (name ++ ".floor")) Parsed.floor (some f)
  steps : List.Forall₂ (Listed fs (Path.child root name) f.name) f.steps steps

/-- The floors and steps of a row of directories.  A directory without a floor file has no part in
it, and no steps. -/
inductive AllBacked (fs : Files) (root : Bytes) : List Bytes → List Floor → List Step → Prop
  | nil : AllBacked fs root [] [] []
  | pass {name names fl st} (bare : filesWith fs (Path.child root name) ".step" = [])
    (rest : AllBacked fs root names fl st) : AllBacked fs root (name :: names) fl st
  | floor {name names f fl st st'} (here : Backed fs root f name st)
    (rest : AllBacked fs root names fl st') : AllBacked fs root (name :: names) (f :: fl) (st ++ st')

theorem addDirectory_adds (fs : Files) (p : Project) (name : Bytes) :
    ∃ fl st rs, p.Adds (addDirectory fs p name) fl st rs ∧
      (rs = [] → fl = [] ∧ st = [] ∧ filesWith fs (Path.child p.root name) ".step" = [] ∨
        ∃ f, fl = [f] ∧ Backed fs p.root f name st) := by
  unfold addDirectory
  dsimp only
  split
  · unfold addFloor
    obtain ⟨rs, adds, clean⟩ := read_adds fs
      (Path.child (Path.child p.root name) (name ++ ".floor")) Parsed.floor p
    split
    · next q made =>
      rw [made] at adds clean
      refine ⟨[], [], rs, adds, fun silent => ?_⟩
      obtain ⟨f, nothing⟩ := (clean silent).floor
      cases nothing
    · next f q made =>
      rw [made] at adds clean
      obtain ⟨st, rs', more, listed⟩ :=
        addSteps_adds fs (Path.child p.root name) f.name f.steps q
      refine ⟨[f], st, rs ++ rs', (adds.trans more).floor f, fun silent => ?_⟩
      obtain ⟨here, later⟩ := List.append_eq_nil_iff.1 silent
      exact .inr ⟨f, rfl, clean here, listed later⟩
  · split
    · next bare => exact ⟨[], [], [], .refl p, fun _ => .inl ⟨rfl, rfl, List.isEmpty_iff.1 bare⟩⟩
    · exact ⟨[], [], _, .report p _, nofun⟩

theorem addDirectories_adds (fs : Files) (names : List Bytes) (p : Project) :
    ∃ fl st rs, p.Adds (names.foldl (addDirectory fs) p) fl st rs ∧
      (rs = [] → AllBacked fs p.root names fl st) := by
  induction names generalizing p with
  | nil => exact ⟨[], [], [], .refl p, fun _ => .nil⟩
  | cons name names ih =>
    obtain ⟨fl, st, rs, adds, one⟩ := addDirectory_adds fs p name
    obtain ⟨fl', st', rs', adds', rest⟩ := ih (addDirectory fs p name)
    refine ⟨fl ++ fl', st ++ st', rs ++ rs', adds.trans adds', fun silent => ?_⟩
    obtain ⟨here, later⟩ := List.append_eq_nil_iff.1 silent
    have backed := adds.root ▸ rest later
    rcases one here with ⟨rfl, rfl, bare⟩ | ⟨f, rfl, floor⟩
    · exact .pass bare backed
    · exact .floor floor backed

theorem report_reports_ne_nil (p : Project) (r : Report) : (p.report r).reports ≠ [] :=
  List.append_ne_nil_of_right_ne_nil _ (List.cons_ne_nil r [])

theorem load_eq {dir path : Bytes} (directory : fs.isDirectory dir = true)
    (found : buildingFile? fs dir = some path) :
    load fs dir =
      ((fs.names dir).filter fun name => fs.isDirectory (Path.child dir name)).foldl
        (addDirectory fs)
        { (Project.read fs path Parsed.building { root := dir }).2 with
          building := (Project.read fs path Parsed.building { root := dir }).1 } := by
  have there : fs.exists? dir = true := by
    unfold Files.exists?
    rw [show fs.entry? dir = some .directory from beq_iff_eq.1 directory]
    rfl
  unfold load
  simp only [there, directory, found, Bool.not_true, Bool.false_eq_true, if_false]

theorem building_of_silent {dir : Bytes} (silent : (load fs dir).reports = []) :
    fs.isDirectory dir = true ∧ ∃ path, buildingFile? fs dir = some path := by
  unfold load at silent
  dsimp only at silent
  split at silent
  · exact absurd silent (report_reports_ne_nil _ _)
  · split at silent
    · exact absurd silent (report_reports_ne_nil _ _)
    · next directory =>
      split at silent
      · exact absurd silent (report_reports_ne_nil _ _)
      · next path found => exact ⟨by simpa using directory, path, found⟩

/-- The floors and steps of a project in which nothing is reported are those of its directories, in
order: a floor for each floor file, and a step for each entry. -/
theorem load_backed {dir : Bytes} (silent : (load fs dir).reports = []) :
    AllBacked fs dir ((fs.names dir).filter fun name => fs.isDirectory (Path.child dir name))
      (load fs dir).floors (load fs dir).steps := by
  obtain ⟨directory, path, found⟩ := building_of_silent silent
  have made := load_eq directory found
  obtain ⟨rs, first, -⟩ := read_adds fs path Parsed.building { root := dir }
  rw [made] at silent ⊢
  obtain ⟨fl, st, rs', rest, backed⟩ := addDirectories_adds fs
    ((fs.names dir).filter fun name => fs.isDirectory (Path.child dir name))
    { (Project.read fs path Parsed.building { root := dir }).2 with
      building := (Project.read fs path Parsed.building { root := dir }).1 }
  have quiet := (List.append_eq_nil_iff.1 (rest.reports.symm.trans silent)).2
  rw [rest.floors, rest.steps, first.floors, first.steps]
  have root := first.root
  dsimp only at root backed ⊢
  rw [root] at backed
  exact backed quiet

theorem AllBacked.mem {root : Bytes} {names : List Bytes} {floors : List Floor} {steps : List Step}
    (h : AllBacked fs root names floors steps) {f : Floor} (hf : f ∈ floors) :
    ∃ name ∈ names, ∃ st, Backed fs root f name st ∧ st ⊆ steps := by
  induction h with
  | nil => cases hf
  | pass _ _ ih =>
    obtain ⟨name, listed, st, backed, among⟩ := ih hf
    exact ⟨name, .tail _ listed, st, backed, among⟩
  | floor here _ ih =>
    rcases List.mem_cons.1 hf with rfl | hf
    · exact ⟨_, .head _, _, here, List.subset_append_left ..⟩
    · obtain ⟨name, listed, st, backed, among⟩ := ih hf
      exact ⟨name, .tail _ listed, st, backed, fun s hs => List.mem_append_right _ (among hs)⟩

/-- Of a project that loads without a report: for every entry of a floor there is a step. -/
theorem listed_steps_callable (fs : Files) (dir : Bytes) (sound : (load fs dir).isSound = true) :
    ∀ f ∈ (load fs dir).floors, ∃ name ∈ fs.names dir,
      Cleanly fs (Path.child (Path.child dir name) (name ++ ".floor")) Parsed.floor (some f) ∧
      ∀ e ∈ f.steps, ∃ s ∈ (load fs dir).steps,
        Cleanly fs (Path.child (Path.child dir name) (e.name ++ ".step")) Parsed.step (some s) ∧
        s.floor = f.name ∧ (load fs dir).Callable s.name ∧
        ((load fs dir).Callable e.name ↔ e.name ∈ (load fs dir).steps.map (·.name)) := by
  have silent := List.isEmpty_iff.1 (Bool.and_eq_true_iff.1 sound).2
  intro f hf
  obtain ⟨name, listed, st, ⟨file, entries⟩, among⟩ := (load_backed silent).mem hf
  refine ⟨name, List.mem_of_mem_filter listed, file, fun e he => ?_⟩
  obtain ⟨i, hi, rfl⟩ := List.getElem_of_mem he
  have short := entries.length_eq ▸ hi
  obtain ⟨read, floor⟩ := entries.get hi short
  have there : st[i] ∈ (load fs dir).steps := among (List.getElem_mem short)
  refine ⟨st[i], there, read, floor, callable_iff.2 ⟨_, there, rfl⟩, ?_⟩
  rw [callable_iff, List.mem_map]

theorem listed_steps_callable_sum :
    let fs : Files := { entries := [
      (["demo"], .directory),
      (["demo", "demo.building"], .file "building: demo\n    call sum\n"),
      (["demo", "math"], .directory),
      (["demo", "math", "math.floor"], .file "floor: math\n    step: sum\n"),
      (["demo", "math", "sum.step"],
        .file "step: sum\n    belongs to: math\n    do:\n        exit\n")] }
    (load fs "demo").isSound = true ∧ (load fs "demo").Callable "sum" := by
  intro fs
  -- The sorting of the names does not evaluate, so their list is brought in as an equation.
  have names : fs.names "demo" = [("demo.building" : Bytes), "math"] :=
    (List.mergeSort_of_pairwise (by decide +kernel)).trans (by decide +kernel)
  have directory : fs.isDirectory "demo" = true := by decide +kernel
  have found : buildingFile? fs "demo" = some "demo/demo.building" := by decide +kernel
  have made := names ▸ load_eq directory found
  have facts : (load fs "demo").isSound = true ∧
      (∃ f ∈ (load fs "demo").floors, ∃ e ∈ f.steps, e.name = "sum") ∧
      ("sum" : Bytes) ∈ (load fs "demo").steps.map (·.name) := by
    rw [made]
    decide +kernel
  obtain ⟨sound, ⟨f, hf, e, he, same⟩, step⟩ := facts
  obtain ⟨_, -, -, entries⟩ := listed_steps_callable fs "demo" sound f hf
  obtain ⟨_, -, -, -, -, callable⟩ := entries e he
  exact ⟨sound, same ▸ callable.2 (same ▸ step)⟩

/-- The file of an entry may hold a step of another name.  Nothing is reported, and the step that
the floor lists is one that cannot be called. -/
theorem listed_step_missing :
    let fs : Files := { entries := [
      (["demo"], .directory),
      (["demo", "demo.building"], .file "building: demo\n    call sum\n"),
      (["demo", "math"], .directory),
      (["demo", "math", "math.floor"], .file "floor: math\n    step: sum\n"),
      (["demo", "math", "sum.step"],
        .file "step: plus\n    belongs to: math\n    do:\n        exit\n")] }
    (load fs "demo").isSound = true ∧ ∃ f ∈ (load fs "demo").floors, ∃ e ∈ f.steps,
      (∀ s ∈ (load fs "demo").steps, s.name ≠ e.name) ∧
        ((load fs "demo").step? e.name).isNone = true ∧
        ((load fs "demo").environment.resolve e.name e.location).toOption.isNone = true := by
  intro fs
  have names : fs.names "demo" = [("demo.building" : Bytes), "math"] :=
    (List.mergeSort_of_pairwise (by decide +kernel)).trans (by decide +kernel)
  have directory : fs.isDirectory "demo" = true := by decide +kernel
  have found : buildingFile? fs "demo" = some "demo/demo.building" := by decide +kernel
  have made := names ▸ load_eq directory found
  rw [made]
  decide +kernel

end Project

end StepsLang
