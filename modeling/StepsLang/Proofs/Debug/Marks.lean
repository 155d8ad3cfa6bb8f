import StepsLang.Proofs.Debug.Invariant
import StepsLang.Proofs.Environment.Visible
import StepsLang.Proofs.List

namespace StepsLang

namespace Debug

def textOf (vs : List Shown) (name : Bytes) : Option Bytes :=
  (vs.find? (·.name = name)).map (·.text)

def localsAt (i : Nat) : List Activation → List Shown
  | [] => []
  | a :: rest => if i = rest.length then a.locals else localsAt i rest

def Snapshot.variables (p : Snapshot) (i : Nat) : List Shown :=
  if i = 0 then p.globals else localsAt i p.stack

/-- The text that a name was last shown with in a frame of that number. -/
def lastShown (said : List Exchange) (i : Nat) (name : Bytes) : Option Bytes :=
  said.reverse.findSome? fun x => textOf (x.event.snapshot.variables i) name

theorem lastShown_concat (said : List Exchange) (x : Exchange) (i : Nat) (name : Bytes) :
    lastShown (said ++ [x]) i name =
      (textOf (x.event.snapshot.variables i) name).or (lastShown said i name) := by
  unfold lastShown
  rw [List.reverse_append, List.reverse_singleton, List.singleton_append, List.findSome?_cons]
  cases textOf (x.event.snapshot.variables i) name <;> rfl

theorem lookup_record (m : Memory) (key key' : Nat × Bytes) (text : Bytes) :
    (m.record key text).lookup key' = if key' = key then some text else m.lookup key' := by
  unfold Memory.record
  by_cases same : key' = key
  · simp [same]
  · simp [List.lookup_cons, same, beq_eq_false_iff_ne.2 same, lookup_filter_ne same]

structure Recalls (m : Memory) (i : Nat) (vs : List Shown) (m' : Memory) : Prop where
  marked : ∀ v ∈ vs, v.changed = (m.lookup (i, v.name) != some v.text)
  kept : ∀ name, m'.lookup (i, name) = (textOf vs name).or (m.lookup (i, name))

namespace Recalls

variable {m m' m'' : Memory} {i : Nat} {vs : List Shown}

theorem nothing (same : ∀ name, m'.lookup (i, name) = m.lookup (i, name)) : Recalls m i [] m' :=
  ⟨by simp, same⟩

theorem after (h : Recalls m i [] m') (h' : Recalls m' i vs m'') : Recalls m i vs m'' where
  marked v hv := (h'.marked v hv).trans (by rw [h.kept]; rfl)
  kept name := (h'.kept name).trans (by rw [h.kept]; rfl)

theorem before (h : Recalls m i vs m') (h' : Recalls m' i [] m'') : Recalls m i vs m'' where
  marked := h.marked
  kept name := (h'.kept name).trans (h.kept name)

end Recalls

section Show

variable (h : Heap) (frame : Nat)

theorem lookup_recorded (m : Memory) {vs : List (Bytes × Value)}
    (distinct : (vs.map (·.1)).Nodup) (i : Nat) (name : Bytes) :
    (vs.foldl (fun m (name, v) => m.record (frame, name) (h.brief v)) m).lookup (i, name) =
      (if i = frame then (vs.find? (·.1 = name)).map (h.brief ·.2) else none).or
        (m.lookup (i, name)) := by
  induction vs generalizing m with
  | nil => simp
  | cons v vs ih =>
    obtain ⟨first, rest⟩ := List.nodup_cons.1 distinct
    rw [List.foldl_cons, ih _ rest, lookup_record]
    by_cases here : i = frame
    · by_cases same : v.1 = name
      · have later : vs.find? (·.1 = name) = none := by
          refine List.find?_eq_none.2 fun u hu found => first ?_
          exact List.mem_map.2 ⟨u, hu, (of_decide_eq_true found).trans same.symm⟩
        simp [here, same, later]
      · simp [here, same, Ne.symm same]
    · simp [here]

theorem recalls_showVariables (m : Memory) {vs : List (Bytes × Value)}
    (distinct : (vs.map (·.1)).Nodup) :
    Recalls m frame (showVariables h frame m vs).1 (showVariables h frame m vs).2 where
  marked v hv := by
    obtain ⟨_, -, rfl⟩ := List.mem_map.1 hv
    rfl
  kept name := by
    refine (lookup_recorded h frame m distinct frame name).trans ?_
    rw [if_pos rfl, textOf, showVariables, List.find?_map, Option.map_map]
    rfl

theorem recalls_showVariables_other (m : Memory) {vs : List (Bytes × Value)}
    (distinct : (vs.map (·.1)).Nodup) {i : Nat} (other : i ≠ frame) :
    Recalls m i [] (showVariables h frame m vs).2 :=
  .nothing fun name => (lookup_recorded h frame m distinct i name).trans (by simp [other])

end Show

theorem localsAt_of_length_le {activations : List Activation} {i : Nat}
    (h : activations.length ≤ i) : localsAt i activations = [] := by
  induction activations with
  | nil => rfl
  | cons a rest ih =>
    have h : rest.length < i := h
    rw [localsAt, if_neg h.ne', ih h.le]

theorem recalls_showFrames (sources : Option Sources) (h : Heap) (m : Memory) (fs : List Frame)
    (i : Nat) :
    Recalls m i (localsAt i (showFrames sources h m fs).1) (showFrames sources h m fs).2 := by
  induction fs generalizing m with
  | nil => exact .nothing fun _ => rfl
  | cons f rest ih =>
    obtain ⟨locals, m', shown⟩ : ∃ locals m',
        (if rest.isEmpty then ([], m) else showVariables h rest.length m f.visible) =
          (locals, m') := ⟨_, _, rfl⟩
    have here : Recalls m i (if i = rest.length then locals else []) m' := by
      split at shown
      · obtain ⟨rfl, rfl⟩ := shown
        split <;> exact .nothing fun _ => rfl
      · obtain ⟨rfl, rfl⟩ := Prod.mk.injEq _ _ _ _ ▸ shown
        split
        · next same => exact same ▸ recalls_showVariables h rest.length m f.visible_nodup
        · next other => exact recalls_showVariables_other h rest.length m f.visible_nodup other
    have below := ih m'
    simp only [showFrames, shown, localsAt, length_showFrames]
    split
    · next same =>
      rw [if_pos same] at here
      rw [localsAt_of_length_le (by simp [length_showFrames, same])] at below
      exact here.before below
    · next other =>
      rw [if_neg other] at here
      exact here.after below

theorem localsAt_zero_showFrames (sources : Option Sources) (h : Heap) (m : Memory)
    (fs : List Frame) : localsAt 0 (showFrames sources h m fs).1 = [] := by
  induction fs generalizing m with
  | nil => rfl
  | cons f rest ih =>
    simp only [showFrames, localsAt, length_showFrames]
    split
    · next bottom => simp [List.length_eq_zero_iff.1 bottom.symm]
    · exact ih _

theorem recalls_take (sources : Option Sources) (env : Environment) (h : Heap) (m : Memory)
    (i : Nat) :
    Recalls m i ((Snapshot.take sources env h m).1.variables i)
      (Snapshot.take sources env h m).2 := by
  have distinct := env.bottom.visible_nodup
  have frames := recalls_showFrames sources h (showVariables h 0 m env.bottom.visible).2
    env.frames i
  simp only [Snapshot.variables]
  split
  · next bottom =>
    subst bottom
    exact (recalls_showVariables h 0 m distinct).before
      (localsAt_zero_showFrames sources h _ env.frames ▸ frames)
  · next other => exact (recalls_showVariables_other h 0 m distinct other).after frames

/-- The marks of a snapshot compare it with what was said before. -/
def Exchange.MarkedAfter (x : Exchange) (earlier : List Exchange) : Prop :=
  ∀ i, ∀ v ∈ x.event.snapshot.variables i,
    v.changed = (lastShown earlier i v.name != some v.text)

namespace Debugger

theorem memory_obey (d : Debugger) (c : Command) : (d.obey c).memory = d.memory := by
  cases c <;> simp only [obey] <;> (try split) <;> simp

theorem memory_foldl (d : Debugger) (cs : List Command) : (cs.foldl obey d).memory = d.memory :=
  List.foldlRecOn (motive := (·.memory = d.memory)) cs obey rfl fun _ same c _ =>
    (memory_obey _ c).trans same

/-- A debugger that remembers what was last shown, and the transcript of what it said. -/
structure Mindful (d : Debugger) (x : τ × List Exchange) : Prop where
  remembers : ∀ i name, d.memory.lookup (i, name) = lastShown x.2 i name
  marked : Along (fun earlier e => e.MarkedAfter earlier) x.2

variable (listener : Listener τ) (limits : Limits) (b : Building) (s : Session (Debugger × τ))

theorem mindful_invariant : Invariant listener.transcribed (Mindful (τ := τ)) where
  congr := fun h agrees => ⟨fun i name => agrees.memory ▸ h.remembers i name, h.marked⟩
  told := by
    rintro d ⟨t, said⟩ kind message env w - h
    have recalls := recalls_take d.sources env w.heap d.memory
    refine ⟨fun i name => ?_, h.marked.concat fun i v hv => ?_⟩
    · dsimp only [Listener.transcribed]
      rw [memory_foldl, lastShown_concat, ← h.remembers i name]
      exact (recalls i).kept name
    · rw [← h.remembers i v.name]
      exact (recalls i).marked v hv

theorem marked_transcript :
    Along (fun earlier e => e.MarkedAfter earlier) (transcript listener limits b s) := by
  have begun : Mindful (s.watch.1.started b) (s.watch.2, []) :=
    ⟨fun i name => congrArg (List.lookup (i, name)) (memory_log _ _), .nil _⟩
  exact ((mindful_invariant listener).run limits b (s := s.under (s.watch.1, s.watch.2, []))
    begun).marked

end Debugger

/-- A variable is marked exactly if the last snapshot before that showed a variable of its name in a
frame of that number showed another text, or if there was none. -/
theorem Debugger.marks_compare_last_shown (listener : Listener τ) (limits : Limits) (b : Building)
    (s : Session (Debugger × τ)) {earlier : List Exchange} {x : Exchange} {later : List Exchange}
    (said : transcript listener limits b s = earlier ++ x :: later) {i : Nat} {v : Shown}
    (shown : v ∈ x.event.snapshot.variables i) :
    (v.changed = true ↔ lastShown earlier i v.name ≠ some v.text) ∧
      (∀ before y text, earlier = before ++ [y] →
        textOf (y.event.snapshot.variables i) v.name = some text →
        (v.changed = true ↔ text ≠ v.text)) ∧
      ((∀ y ∈ earlier, textOf (y.event.snapshot.variables i) v.name = none) →
        v.changed = true) := by
  have marked : v.changed = true ↔ lastShown earlier i v.name ≠ some v.text := by
    rw [marked_transcript listener limits b s earlier x later said i v shown, bne_iff_ne]
  refine ⟨marked, fun before y text split hy => ?_, fun fresh => marked.2 ?_⟩
  · rw [marked, split, lastShown_concat, hy]
    simp
  · rw [lastShown, List.findSome?_eq_none_iff.2 fun y hy => fresh y (List.mem_reverse.1 hy)]
    exact nofun

theorem Debugger.marks_compare_last_shown_set :
    let word (x : Bytes) := Statement.set {} "word" (.text {} x)
    let b : Building := { name := "main", body := [word "hello", word "bye", word "bye"] }
    let s : Session (Debugger × Script) := ⟨.fresh "main" false, {}, {},
      [.resume .stepInto, .resume .stepInto]⟩
    let told := transcript Listener.scripted {} b s
    ∃ earlier x later v, told = earlier ++ x :: later ∧ v ∈ x.event.snapshot.variables 0 ∧
      v.name = ("word" : Bytes) ∧ v.text = ("\"bye\"" : Bytes) ∧
      lastShown earlier 0 "word" = some ("\"hello\"" : Bytes) ∧ v.changed = true := by
  intro word b s told
  obtain ⟨x, third, v, shown, name, text⟩ : ∃ x ∈ told[2]?, ∃ v ∈ x.event.snapshot.variables 0,
      v.name = ("word" : Bytes) ∧ v.text = ("\"bye\"" : Bytes) := by decide +kernel
  obtain ⟨inside, rfl⟩ := List.getElem?_eq_some_iff.1 third
  have said : told = told.take 2 ++ told[2] :: told.drop 3 := by
    rw [← List.drop_eq_getElem_cons inside, List.take_append_drop]
  have before : lastShown (told.take 2) 0 "word" = some ("\"hello\"" : Bytes) := by decide +kernel
  have ⟨marked, _⟩ := marks_compare_last_shown Listener.scripted {} b s said shown
  refine ⟨_, _, _, v, said, shown, name, text, before, marked.2 ?_⟩
  rw [name, text, before]
  decide

/-- A call of the same step with the same argument again: nothing that it is entered with is
marked. -/
theorem Debugger.reentered_local_unmarked :
    let greet := Statement.call {} "greet" [.text {} "hello"] none
    let b : Building := { name := "main", body := [greet, greet] }
    let env := (Environment.fresh "main" false).addStep
      { name := "greet", parameters := [⟨{}, "word", none⟩],
        body := [.display {} (.name {} "word")] }
    let s : Session (Debugger × Unit) := ⟨env, {}, { control := { mode := .run } }, ()⟩
    ¬ ∀ x ∈ transcript Listener.silent {} b s, x.event.kind = .called →
      ∀ v ∈ x.event.snapshot.variables 1, v.changed = true := by
  decide +kernel

end Debug

end StepsLang
