import StepsLang.Proofs.Debug.Marks

namespace StepsLang

namespace Environment

theorem frames_popFrame {env : Environment} {k : Nat} (h : k ≤ env.depth) :
    (popFrame^[k] env).frames = env.frames.drop k := by
  induction k generalizing env with
  | zero => rfl
  | succ k ih =>
    obtain ⟨top, below, steps, floors, interactive⟩ := env
    cases below with
    | nil => simp [depth] at h
    | cons next below =>
      rw [Function.iterate_succ_apply]
      exact ih (Nat.le_of_succ_le_succ h)

/-- The frame that is the current one once those above it are closed. -/
theorem getElem?_frames {env : Environment} {k : Nat} (h : k ≤ env.depth) :
    env.frames[k]? = some (popFrame^[k] env).top := by
  have first : (popFrame^[k] env).frames[0]? = some (popFrame^[k] env).top := rfl
  rwa [frames_popFrame h, List.getElem?_drop, Nat.add_zero] at first

theorem bottom_eq (env : Environment) : env.bottom = (popFrame^[env.depth] env).top := by
  have last := env.getElem?_frames (le_refl env.depth)
  have same : env.frames.getLast? = some env.bottom := by
    simp [frames, bottom, List.getLast?_cons]
  rw [List.getLast?_eq_getElem?] at same
  exact Option.some.inj (same.symm.trans last)

end Environment

namespace Debug

def Shown.plain (v : Shown) : Bytes × Bytes × Bytes := (v.name, v.type, v.text)

def plain (h : Heap) (x : Bytes × Value) : Bytes × Bytes × Bytes :=
  (x.1, x.2.typeName, h.brief x.2)

/-- A snapshot shows for every frame what would be visible if it were the current one. -/
structure Snapshot.Lists (p : Snapshot) (env : Environment) (h : Heap) : Prop where
  frames : p.stack.length = env.depth + 1
  building : localsAt 0 p.stack = []
  shown : ∀ i ≤ env.depth, (p.variables i).map Shown.plain =
    (Environment.popFrame^[env.depth - i] env).visible.map (plain h)

theorem plain_showVariables (h : Heap) (frame : Nat) (m : Memory) (vs : List (Bytes × Value)) :
    (showVariables h frame m vs).1.map Shown.plain = vs.map (plain h) := by
  simp only [showVariables, List.map_map]
  rfl

/-- By recursion on the frames, as they are shown: the one in place `k` is that with as many below
it as its number says. -/
theorem plain_showFrames (sources : Option Sources) (h : Heap) (m : Memory) {fs : List Frame}
    {k : Nat} {f : Frame} (here : fs[k]? = some f) (called : k + 1 < fs.length) :
    (localsAt (fs.length - (k + 1)) (showFrames sources h m fs).1).map Shown.plain =
      f.visible.map (plain h) := by
  induction fs generalizing m k with
  | nil => cases here
  | cons g rest ih =>
    cases k with
    | zero =>
      obtain rfl : g = f := by simpa using here
      have more : rest.isEmpty = false := by
        cases rest with
        | nil => simp at called
        | cons => rfl
      simp only [showFrames, localsAt, length_showFrames, List.length_cons]
      rw [if_pos (by omega), more]
      exact plain_showVariables h rest.length m g.visible
    | succ k =>
      have called : k + 1 < rest.length := by simpa using called
      simp only [showFrames, localsAt, length_showFrames, List.length_cons]
      rw [if_neg (by omega), Nat.add_sub_add_right]
      exact ih _ (by simpa using here) called

theorem lists_take (sources : Option Sources) (env : Environment) (h : Heap) (m : Memory) :
    (Snapshot.take sources env h m).1.Lists env h where
  frames := length_showFrames sources h _ env.frames
  building := localsAt_zero_showFrames sources h _ env.frames
  shown i _ := by
    simp only [Snapshot.variables, Snapshot.take]
    split
    · next bottom =>
      subst bottom
      rw [plain_showVariables, Environment.bottom_eq]
      rfl
    · next called =>
      have count : env.frames.length = env.depth + 1 := rfl
      have here := env.getElem?_frames (Nat.sub_le env.depth i)
      have number : i = env.frames.length - (env.depth - i + 1) := by omega
      conv_lhs => rw [number]
      exact plain_showFrames sources h _ here (by omega)

variable (listener : Listener τ) (limits : Limits) (b : Building) (s : Session (Debugger × τ))

/-- What an exchange says is taken from an environment, whose variables it shows. -/
def Exchange.Shows (e : Exchange) : Prop :=
  ∃ (d : Debugger) (kind : EventKind) (message : Bytes) (env : Environment) (w : World),
    e.event = d.event kind message env w ∧ e.event.snapshot.Lists env w.heap

theorem Debugger.shows_invariant :
    Invariant listener.transcribed fun (_ : Debugger) (x : τ × List Exchange) =>
      ∀ e ∈ x.2, e.Shows where
  congr := fun h _ => h
  told := by
    rintro d ⟨t, said⟩ kind message env w - h r e he
    rcases List.mem_append.1 he with earlier | now
    · exact h e earlier
    · obtain rfl := List.mem_singleton.1 now
      exact ⟨d, kind, message, env, w, rfl, lists_take d.sources env w.heap d.memory⟩

theorem Debugger.shows_transcript : ∀ e ∈ transcript listener limits b s, e.Shows :=
  ((shows_invariant listener).run limits b (s := s.under (s.watch.1, s.watch.2, [])) nofun :)

/-- The listing of the variables is in order, and has a name with a value if and only if the name is
found with that value, hence just the names that there are. -/
theorem listings_agree :
    (∀ env : Environment, NameMap.Sorted env.visible ∧
      (∀ x v l, (x, v) ∈ env.visible ↔ env.get x l = .ok v) ∧
      ∀ x, env.has x = true ↔ ∃ v, (x, v) ∈ env.visible) ∧
    (∀ (d : Debugger) kind message env (w : World),
      (d.event kind message env w).snapshot.Lists env w.heap) ∧
    ∀ (listener : Listener τ) limits b (s : Session (Debugger × τ)),
      ∀ e ∈ Debugger.transcript listener limits b s, e.Shows :=
  ⟨fun env => ⟨env.top.visible_sorted, fun _ _ l => Environment.mem_visible_iff l,
      fun _ => Environment.has_iff⟩,
    fun d _ _ env w => lists_take d.sources env w.heap d.memory,
    Debugger.shows_transcript⟩

end Debug

end StepsLang
