import StepsLang.Proofs.Execution.Law

namespace StepsLang

namespace Frame

def domains (f : Frame) : List (List Bytes) := f.scopes.map (·.names)

/-- The same activation, with at most new names in its innermost scope. -/
structure Extends (f g : Frame) : Prop where
  name : g.name = f.name
  callSite : g.callSite = f.callSite
  outer : g.domains.tail = f.domains.tail
  inner : ∀ x ∈ f.domains.headD [], x ∈ g.domains.headD []

theorem Extends.refl (f : Frame) : Extends f f := ⟨rfl, rfl, rfl, fun _ hx => hx⟩

theorem Extends.trans {f g k : Frame} (h : Extends f g) (h' : Extends g k) : Extends f k :=
  ⟨h'.name.trans h.name, h'.callSite.trans h.callSite, h'.outer.trans h.outer,
    fun x hx => h'.inner x (h.inner x hx)⟩

theorem isSome_find? (f : Frame) (x : Bytes) :
    (f.find? x).isSome = f.domains.any (·.contains x) := by
  rw [Bool.eq_iff_iff]
  simp [find?, domains, List.findSome?_isSome_iff, NameMap.mem_names_iff]

theorem domains_eq (f : Frame) : f.domains = f.blocks.map (·.names) ++ [f.main.names] := by
  simp [domains, scopes]

theorem Extends.blocks {f g : Frame} (h : Extends f g) : g.blocks.length = f.blocks.length := by
  have same := congrArg List.length h.outer
  simpa [domains_eq] using same

theorem extends_define (f : Frame) (x : Bytes) (v : Variable) : Extends f (f.define x v) := by
  unfold define
  split
  · next e =>
    refine ⟨rfl, rfl, by simp [domains_eq, e], fun y hy => ?_⟩
    simp only [domains_eq, e, List.map_nil, List.nil_append, List.headD_cons] at hy ⊢
    exact (NameMap.mem_names_insert v).2 (.inr hy)
  · next block rest e =>
    refine ⟨rfl, rfl, by simp [domains_eq, e], fun y hy => ?_⟩
    simp only [domains_eq, e, List.map_cons, List.cons_append, List.headD_cons] at hy ⊢
    exact (NameMap.mem_names_insert v).2 (.inr hy)

theorem go_split {x : Bytes} {new : Variable} {blocks after : List Scope}
    (h : replace.go x new blocks = some after) :
    ∃ inner scope outer, blocks = inner ++ scope :: outer ∧ (∀ b ∈ inner, b.find? x = none) ∧
      (scope.find? x).isSome = true ∧ after = inner ++ scope.insert x new :: outer := by
  induction blocks generalizing after with
  | nil => cases h
  | cons block rest ih =>
    simp only [replace.go] at h
    split at h
    · next known =>
      cases h
      exact ⟨[], block, rest, rfl, by simp, known, rfl⟩
    · next unknown =>
      obtain ⟨more, hm, rfl⟩ := Option.map_eq_some_iff.1 h
      obtain ⟨inner, scope, outer, rfl, absent, known, rfl⟩ := ih hm
      have first : block.find? x = none := by simpa [NameMap.contains] using unknown
      exact ⟨block :: inner, scope, outer, rfl, List.forall_mem_cons.2 ⟨first, absent⟩, known, rfl⟩

theorem go_eq_none {x : Bytes} {v : Variable} {blocks : List Scope}
    (h : replace.go x v blocks = none) : ∀ block ∈ blocks, block.find? x = none := by
  induction blocks with
  | nil => simp
  | cons block rest ih =>
    simp only [replace.go] at h
    split at h
    · contradiction
    · next unknown =>
      intro b hb
      rcases List.mem_cons.1 hb with rfl | hb
      · simpa [NameMap.contains] using unknown
      · exact ih (Option.map_eq_none_iff.1 h) b hb

theorem scopes_replace {f : Frame} {x : Bytes} {old : Variable} (new : Variable)
    (known : f.find? x = some old) :
    ∃ inner scope outer, f.scopes = inner ++ scope :: outer ∧ (∀ b ∈ inner, b.find? x = none) ∧
      scope.find? x = some old ∧
      (f.replace x new).scopes = inner ++ scope.insert x new :: outer := by
  unfold replace
  split
  · next blocks e =>
    obtain ⟨inner, scope, outer, split, absent, found, rfl⟩ := go_split e
    have skipped : inner.findSome? (·.find? x) = none := List.findSome?_eq_none_iff.2 absent
    obtain ⟨y, here⟩ := Option.isSome_iff_exists.1 found
    have same : y = old := by
      simpa [find?, scopes, split, List.findSome?_append, skipped, here] using known
    exact ⟨inner, scope, outer ++ [f.main], by simp [scopes, split], absent, same ▸ here,
      by simp [scopes]⟩
  · next e =>
    have absent := go_eq_none e
    have skipped : f.blocks.findSome? (·.find? x) = none := List.findSome?_eq_none_iff.2 absent
    have here : f.main.find? x = some old := by
      simpa [find?, scopes, List.findSome?_append, skipped] using known
    exact ⟨f.blocks, f.main, [], rfl, absent, here, rfl⟩

theorem domains_replace {f : Frame} {x : Bytes} {old : Variable} (v : Variable)
    (known : f.find? x = some old) : (f.replace x v).domains = f.domains := by
  obtain ⟨inner, scope, outer, before, -, here, after⟩ := scopes_replace v known
  have listed : x ∈ scope.names := NameMap.mem_names_iff.2 (by simp [here])
  simp [domains, before, after, NameMap.names_insert v listed]

theorem replace_fields (f : Frame) (x : Bytes) (v : Variable) :
    (f.replace x v).name = f.name ∧ (f.replace x v).callSite = f.callSite := by
  unfold replace
  split <;> exact ⟨rfl, rfl⟩

theorem set_cases {f g : Frame} {x : Bytes} {v : Value} {l : Location} (h : f.set x v l = .ok g) :
    (f.find? x = none ∧ g = f.define x { value := v }) ∨
      ∃ old new, f.find? x = some old ∧ assigned old x v l = .ok new ∧ g = f.replace x new := by
  rw [set_eq] at h
  split at h
  · next unknown =>
    cases h
    exact .inl ⟨unknown, rfl⟩
  · next old known =>
    cases e : assigned old x v l with
    | error r =>
      rw [e] at h
      cases h
    | ok new =>
      rw [e] at h
      cases h
      exact .inr ⟨old, new, known, e, rfl⟩

theorem extends_set {f g : Frame} {x : Bytes} {v : Value} {l : Location}
    (h : f.set x v l = .ok g) : Extends f g := by
  obtain ⟨-, rfl⟩ | ⟨old, new, known, -, rfl⟩ := set_cases h
  · exact extends_define f x _
  · have ⟨hn, hc⟩ := replace_fields f x new
    have same := domains_replace new known
    exact ⟨hn, hc, by rw [same], fun z hz => by rwa [same]⟩

def records (f : Frame) (x : Bytes) : List (Option Variable) := f.scopes.map (·.find? x)

theorem find?_eq_records (f : Frame) (x : Bytes) : f.find? x = (f.records x).findSome? id := by
  simp only [find?, records, List.findSome?_map, Function.id_comp]

theorem find?_congr {f g : Frame} {x : Bytes} (h : g.records x = f.records x) :
    g.find? x = f.find? x := by
  rw [find?_eq_records, h, find?_eq_records]

theorem records_define (f : Frame) {x y : Bytes} (v : Variable) (other : y ≠ x) :
    (f.define x v).records y = f.records y := by
  unfold define
  split
  · next e => simp [records, scopes, e, other]
  · next block rest e => simp [records, scopes, e, other]

theorem records_replace {f : Frame} {x y : Bytes} {old : Variable} (v : Variable)
    (known : f.find? x = some old) (other : y ≠ x) : (f.replace x v).records y = f.records y := by
  obtain ⟨inner, scope, outer, before, -, -, after⟩ := scopes_replace v known
  simp [records, before, after, other]

theorem records_set {f g : Frame} {x y : Bytes} {v : Value} {l : Location}
    (h : f.set x v l = .ok g) (other : y ≠ x) : g.records y = f.records y := by
  obtain ⟨-, rfl⟩ | ⟨old, new, known, -, rfl⟩ := set_cases h
  · exact records_define f _ other
  · exact records_replace new known other

theorem domains_popBlock {f g : Frame} (h : Extends f.pushBlock g) :
    g.popBlock.domains = f.domains := by
  have outer := h.outer
  have count := h.blocks
  cases e : g.blocks with
  | nil => simp [e, pushBlock] at count
  | cons block rest =>
    simp only [domains_eq, e, pushBlock, List.map_cons, List.cons_append, List.tail_cons] at outer
    simpa [domains_eq, popBlock, e] using outer

end Frame

namespace Environment

structure Around (before after : Environment) : Prop where
  below : after.below = before.below
  running : after.running = before.running
  steps : after.steps = before.steps
  floors : after.floors = before.floors
  interactive : after.interactive = before.interactive

theorem Around.refl (env : Environment) : Around env env := ⟨rfl, rfl, rfl, rfl, rfl⟩

theorem Around.trans {e f g : Environment} (h : Around e f) (h' : Around f g) : Around e g :=
  ⟨h'.below.trans h.below, h'.running.trans h.running, h'.steps.trans h.steps,
    h'.floors.trans h.floors, h'.interactive.trans h.interactive⟩

structure Confined (before after : Environment) : Prop extends Around before after where
  top : Frame.Extends before.top after.top

theorem Confined.refl (env : Environment) : Confined env env := ⟨.refl env, .refl env.top⟩

theorem Confined.trans {e f g : Environment} (h : Confined e f) (h' : Confined f g) :
    Confined e g :=
  ⟨h.toAround.trans h'.toAround, h.top.trans h'.top⟩

theorem confined_define (env : Environment) (x : Bytes) (v : Value) :
    Confined env (env.define x v) :=
  ⟨⟨rfl, rfl, rfl, rfl, rfl⟩, Frame.extends_define env.top x _⟩

theorem top_set {env after : Environment} {x : Bytes} {v : Value} {l : Location}
    (h : env.set x v l = .ok after) :
    env.top.set x v l = .ok after.top ∧ after = { env with top := after.top } := by
  rw [set_eq] at h
  cases e : env.top.set x v l with
  | error r =>
    rw [e] at h
    cases h
  | ok top =>
    rw [e] at h
    cases h
    exact ⟨rfl, rfl⟩

theorem confined_set {env after : Environment} {x : Bytes} {v : Value} {l : Location}
    (h : env.set x v l = .ok after) : Confined env after := by
  obtain ⟨ht, whole⟩ := top_set h
  rw [whole]
  exact ⟨⟨rfl, rfl, rfl, rfl, rfl⟩, Frame.extends_set ht⟩

theorem find?_set {env after : Environment} {x y : Bytes} {v : Value} {l : Location}
    (h : env.set x v l = .ok after) (other : y ≠ x) : after.top.find? y = env.top.find? y :=
  Frame.find?_congr (Frame.records_set (top_set h).1 other)

theorem confined_moveTo (env : Environment) (l : Location) : Confined env (env.moveTo l) :=
  ⟨⟨rfl, rfl, rfl, rfl, rfl⟩, rfl, rfl, rfl, fun _ hx => hx⟩

structure Kept (before after : Environment) : Prop extends Confined before after where
  domains : after.top.domains = before.top.domains

theorem Kept.refl (env : Environment) : Kept env env := ⟨.refl env, rfl⟩

theorem Kept.trans {e f g : Environment} (h : Kept e f) (h' : Kept f g) : Kept e g :=
  ⟨h.toConfined.trans h'.toConfined, h'.domains.trans h.domains⟩

theorem kept_popBlock {env after : Environment} (h : Confined env.pushBlock after) :
    Kept env after.popBlock := by
  have same : after.popBlock.top.domains = env.top.domains := Frame.domains_popBlock h.top
  have around : Around env after.popBlock :=
    ⟨h.below, h.running, h.steps, h.floors, h.interactive⟩
  refine ⟨⟨around, h.top.name, h.top.callSite, by rw [same], fun x hx => ?_⟩, same⟩
  rwa [same]

theorem has_eq (env : Environment) (x : Bytes) :
    env.has x = env.top.domains.any (·.contains x) :=
  env.top.isSome_find? x

theorem Kept.has {env after : Environment} (h : Kept env after) (x : Bytes) :
    after.has x = env.has x := by
  rw [has_eq, has_eq, h.domains]

theorem popFrame_of_around {env after : Environment} {name : Bytes} {l : Location}
    {place : Option Location} (h : Around (env.pushFrame name l place) after) :
    after.popFrame = env := by
  obtain ⟨top, below, running, steps, floors, interactive⟩ := after
  obtain ⟨rfl, rfl, rfl, rfl, rfl⟩ := h
  rfl

theorem around_popStep {env after : Environment} {s : Step} (h : Around (env.pushStep s) after) :
    Around env after.popStep := by
  refine ⟨h.below, ?_, h.steps, h.floors, h.interactive⟩
  simp only [popStep, h.running]
  rfl

theorem around_declare_all (ds : List Declaration) (env : Environment) (heap : Heap) :
    Around env (ds.foldl
      (fun (env, heap) d =>
        let (v, heap) := heap.default d.type
        (env.declare d v, heap)) (env, heap)).1 := by
  induction ds generalizing env heap with
  | nil => exact .refl env
  | cons d ds ih =>
    rw [List.foldl_cons]
    refine Around.trans ?_ (ih _ _)
    exact ⟨rfl, rfl, rfl, rfl, rfl⟩

theorem around_define_all (xs : List (TypedName × Value)) (env : Environment) :
    Around env (xs.foldl (fun env (p, v) => env.define p.name v) env) := by
  induction xs generalizing env with
  | nil => exact .refl env
  | cons x xs ih =>
    rw [List.foldl_cons]
    refine Around.trans ?_ (ih _)
    exact ⟨rfl, rfl, rfl, rfl, rfl⟩

/-- Every frame, every block and every step that was opened has been closed, and no other one. -/
structure Balanced (before after : Environment) : Prop where
  frames : after.frames.length = before.frames.length
  names : after.frames.map (·.name) = before.frames.map (·.name)
  callSites : after.frames.map (·.callSite) = before.frames.map (·.callSite)
  blocks : after.frames.map (·.blocks.length) = before.frames.map (·.blocks.length)
  running : after.running = before.running

theorem Confined.balanced {env after : Environment} (h : Confined env after) :
    Balanced env after where
  frames := by simp [Environment.frames, h.below]
  names := by simp [Environment.frames, h.below, h.top.name]
  callSites := by simp [Environment.frames, h.below, h.top.callSite]
  blocks := by simp [Environment.frames, h.below, h.top.blocks]
  running := h.running

end Environment

namespace Session
open Environment

theorem around_call (ob : Observer σ) (r : Routine) (owner : Step) (vs : List Value) (l : Location)
    (s : Session σ) :
    Around ((s.env.pushFrame r.name l).pushStep owner) (s.call ob r owner vs l).env :=
  (around_declare_all _ _ _).trans (around_define_all _ _)

theorem env_finish {ob : Observer σ} {r : Routine} {owner : Step} {vs : List Value} {l : Location}
    {s t : Session σ} {o : Outcome} (h : Around (s.call ob r owner vs l).env t.env) :
    (Call.finish ob r.name (o, t)).2.env = s.env := by
  have back := popFrame_of_around (around_popStep ((around_call ob r owner vs l s).trans h))
  cases o <;> exact back

end Session

end StepsLang
