import StepsLang.Proofs.Debug.Stepping

/-! Invariants of a debugger and its listener.  Between two events a debugger changes nothing but
where it is and whether it is paused, so an invariant that does not look at these things holds of a
run if what is said and answered keeps it. -/

namespace StepsLang.Debug

def Along (P : List α → α → Prop) (log : List α) : Prop :=
  ∀ earlier x later, log = earlier ++ x :: later → P earlier x

theorem Along.nil (P : List α → α → Prop) : Along P [] := by simp [Along]

theorem Along.concat {P : List α → α → Prop} {log : List α} (h : Along P log) {x : α}
    (hx : P log x) : Along P (log ++ [x]) := by
  intro earlier y later split
  obtain rfl | ⟨more, last, rfl⟩ := List.eq_nil_or_concat later
  · obtain ⟨rfl, same⟩ := List.append_inj' split rfl
    exact (List.cons.inj same).1 ▸ hx
  · rw [List.concat_eq_append, ← List.cons_append, ← List.append_assoc] at split
    exact h earlier y more (List.append_inj' split rfl).1

namespace Debugger

@[simp] theorem memory_log (d : Debugger) (text : Bytes) : (d.log text).memory = d.memory := by
  unfold log; split <;> rfl

/-- What has been chosen and shown is the same for both. -/
structure Agrees (d d' : Debugger) : Prop where
  control : d'.control = d.control
  stopping : d'.stopping = d.stopping
  memory : d'.memory = d.memory

theorem Agrees.log {d d' : Debugger} (h : Agrees d d') (text : Bytes) : Agrees d (d'.log text) :=
  ⟨(control_log d' text).trans h.control, (stopping_log d' text).trans h.stopping,
    (memory_log d' text).trans h.memory⟩

theorem agrees_halted (d : Debugger) (path : Bytes) (line : Nat) :
    Agrees d (d.halted path line) := by
  have same : Agrees d { d with paused := true, resumed := false } := ⟨rfl, rfl, rfl⟩
  exact same.log _

/-- It is enough to check an invariant where something is said. -/
structure Invariant (listener : Listener τ) (P : Debugger → τ → Prop) : Prop where
  congr : ∀ {d d' t}, P d t → Agrees d d' → P d' t
  told : ∀ {d t} kind message env w, d.stopping = false → P d t →
    let r := listener (d.event kind message env w) w (d.looked env w) t
    P (r.1.foldl obey (d.looked env w)) r.2

namespace Invariant

variable {listener : Listener τ} {P : Debugger → τ → Prop} (h : Invariant listener P)
include h

theorem emit (kind : EventKind) (message : Bytes) (env : Environment) (w : World)
    {x : Debugger × τ} (hx : P x.1 x.2) :
    P (emit listener kind message env w x).1 (emit listener kind message env w x).2 := by
  obtain ⟨d, t⟩ := x
  rw [emit_eq]
  split
  · exact hx
  · next running => exact h.told kind message env w (Bool.eq_false_iff.2 running) hx

theorem before (st : Statement) (env : Environment) (w : World) {x : Debugger × τ}
    (hx : P x.1 x.2) :
    P (before listener st env w x).2.1 (before listener st env w x).2.2 := by
  obtain ⟨d, t⟩ := x
  have here : P { d with depth := env.depth } t := h.congr hx ⟨rfl, rfl, rfl⟩
  rw [before_eq]
  split
  · exact hx
  · split
    · have told := h.emit .paused [] env w (x := (_, t))
        (h.congr here (agrees_halted _ (pathOf d.sources st.location) st.location.line))
      rw [pause_eq]
      dsimp only
      split <;> exact h.congr told ⟨rfl, rfl, rfl⟩
    · exact here

theorem conclude (r : Result) (env : Environment) (w : World) {x : Debugger × τ}
    (hx : P x.1 x.2) : P (conclude listener r env w x).1 (conclude listener r env w x).2 := by
  unfold Debugger.conclude
  refine h.emit .finished [] env w ?_
  split
  · exact h.emit .failed _ env w hx
  · exact hx

theorem watched : Watched (observer listener) fun x _ y => P x.1 x.2 → P y.1 y.2 where
  refl := fun _ => id
  trans := fun first _ second => second ∘ first
  before := fun st env w _ _ => h.before st env w
  onCall := fun name env w _ => h.emit .called name env w
  onReturn := fun name env w _ => h.emit .returned name env w

theorem run (limits : Limits) (b : Building) {s : Session (Debugger × τ)}
    (begun : P (s.watch.1.started b) s.watch.2) :
    P (run listener limits b s).2.watch.1 (run listener limits b s).2.watch.2 := by
  have ended : P ((opened b s).runBuilding (observer listener) limits b).2.watch.1
      ((opened b s).runBuilding (observer listener) limits b).2.watch.2 :=
    h.watched.performBlock limits b.body (opened b s) begun
  rw [run_eq]
  generalize (opened b s).runBuilding (observer listener) limits b = r at ended ⊢
  have same : Agrees r.2.watch.1 { r.2.watch.1 with running := false } := ⟨rfl, rfl, rfl⟩
  dsimp only
  split
  · exact ended
  · split
    · exact h.congr ended (same.log _)
    · exact h.conclude _ _ _ (h.congr ended same)

end Invariant

end Debugger

end StepsLang.Debug
