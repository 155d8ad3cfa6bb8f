import Mathlib.Data.List.Chain
import StepsLang.Proofs.Debug.Transparency

namespace StepsLang.Debug

/-- What happens in a run.  A statement is reached before anybody is asked about it, and a frame is
entered when its variables are set up. -/
inductive Entry
  | reached (st : Statement) (env : Environment)
  | entered (name : Bytes) (env : Environment)
  | told (x : Exchange)

structure Place where
  statement : Option Statement
  env : Environment

namespace Entry

def exchange? : Entry → Option Exchange
  | told x => some x
  | _ => none

def place? : Entry → Option Place
  | reached st env => some ⟨some st, env⟩
  | entered _ env => some ⟨none, env⟩
  | told _ => none

end Entry

def places (log : List Entry) : List Place := log.filterMap Entry.place?

@[simp] theorem places_append (log log' : List Entry) :
    places (log ++ log') = places log ++ places log' :=
  List.filterMap_append

theorem mem_exchanges {log : List Entry} {x : Exchange} :
    x ∈ log.filterMap Entry.exchange? ↔ .told x ∈ log := by
  rw [List.mem_filterMap]
  constructor
  · rintro ⟨e, he, same⟩
    cases e <;> cases same
    exact he
  · exact fun h => ⟨_, h, rfl⟩

theorem mem_places_reached {log : List Entry} {st : Statement} {env : Environment} :
    ⟨some st, env⟩ ∈ places log ↔ .reached st env ∈ log := by
  rw [places, List.mem_filterMap]
  constructor
  · rintro ⟨e, he, same⟩
    cases e <;> cases same
    exact he
  · exact fun h => ⟨_, h, rfl⟩

theorem mem_places_entered {log : List Entry} {name : Bytes} {env : Environment}
    (h : .entered name env ∈ log) : ⟨none, env⟩ ∈ places log :=
  List.mem_filterMap.2 ⟨_, h, rfl⟩

def Place.Leads (p q : Place) : Prop :=
  match q.statement with
  | some _ => q.env.below <:+ p.env.below
  | none => q.env.below = p.env.frames ∧ ∃ st ∈ p.statement, st.isCall = true

/-- The places of a run that begins and ends above the frames `below`. -/
structure Course (below : List Frame) (ps : List Place) : Prop where
  chain : ps.IsChain Place.Leads
  inside : ∀ p ∈ ps, below <:+ p.env.below
  first : ∀ p ∈ ps.head?, p.statement.isSome ∧ p.env.below = below
  located : ∀ p ∈ ps, ∀ st ∈ p.statement,
    st.isNote = false ∧ p.env.top.current = st.location

namespace Course

variable {below : List Frame} {ps qs : List Place}

theorem nil (below : List Frame) : Course below [] := by
  constructor <;> simp

theorem append (h : Course below ps) (h' : Course below qs) : Course below (ps ++ qs) where
  chain := by
    -- The second part begins on the frames `below`, which the first part never closed.
    refine List.isChain_append.2 ⟨h.chain, h'.chain, fun p hp q hq => ?_⟩
    obtain ⟨atStatement, same⟩ := h'.first q hq
    obtain ⟨st, e⟩ := Option.isSome_iff_exists.1 atStatement
    simpa only [Place.Leads, e, same] using h.inside p (List.mem_of_mem_getLast? hp)
  inside := List.forall_mem_append.2 ⟨h.inside, h'.inside⟩
  first := by
    cases ps with
    | nil => exact h'.first
    | cons p ps => exact h.first
  located := List.forall_mem_append.2 ⟨h.located, h'.located⟩

variable {st : Statement} {env env' : Environment}

theorem here (env : Environment) (note : st.isNote = false)
    (located : env.top.current = st.location) :
    Course env.below [⟨some st, env⟩] where
  chain := .singleton _
  inside := by simp
  first := by simp
  located := by simpa using ⟨note, located⟩

theorem call (h : Course env.frames ps) (isCall : st.isCall = true)
    (located : env.top.current = st.location) (on : env'.below = env.frames) :
    Course env.below (⟨some st, env⟩ :: ⟨none, env'⟩ :: ps) where
  chain := by
    refine List.isChain_cons_cons.2 ⟨⟨on, st, rfl, isCall⟩, List.isChain_cons.2 ⟨?_, h.chain⟩⟩
    intro q hq
    obtain ⟨atStatement, same⟩ := h.first q hq
    obtain ⟨st', e⟩ := Option.isSome_iff_exists.1 atStatement
    simp only [Place.Leads, e, same, on, List.suffix_refl]
  inside := by
    have lower : env.below <:+ env.frames := List.suffix_cons _ _
    refine List.forall_mem_cons.2 ⟨List.suffix_refl _, List.forall_mem_cons.2 ⟨?_, fun p hp => ?_⟩⟩
    · exact lower.trans (on ▸ List.suffix_refl _)
    · exact lower.trans (h.inside p hp)
  first := by simp
  located := by
    refine List.forall_mem_cons.2 ⟨?_, List.forall_mem_cons.2 ⟨by simp, h.located⟩⟩
    rintro _ ⟨⟩
    exact ⟨by cases st <;> simp_all [Statement.isCall, Statement.isNote], located⟩

theorem stays {p : Place} (chain : (p :: ps).IsChain Place.Leads) (inside : below <:+ p.env.below)
    (deep : ∀ q ∈ ps, q.statement.isSome → below.length ≤ q.env.depth) :
    ∀ q ∈ ps, below <:+ q.env.below ∧ (q.statement = none → below.length < q.env.depth) := by
  induction ps generalizing p with
  | nil => simp
  | cons q ps ih =>
    obtain ⟨leads, rest⟩ := List.isChain_cons_cons.1 chain
    have here : below <:+ q.env.below ∧ (q.statement = none → below.length < q.env.depth) := by
      unfold Place.Leads at leads
      cases e : q.statement with
      | some st =>
        -- Both lists of frames are the ends of one list, and the shorter one ends the longer one.
        simp only [e] at leads
        have deep := deep q List.mem_cons_self (by simp [e])
        exact ⟨List.suffix_of_suffix_length_le inside leads deep, by simp⟩
      | none =>
        simp only [e] at leads
        have under : below <:+ q.env.below :=
          leads.1 ▸ inside.trans (List.suffix_cons p.env.top _)
        refine ⟨under, fun _ => ?_⟩
        rw [Environment.depth, leads.1]
        exact Nat.lt_succ_of_le inside.length_le
    refine List.forall_mem_cons.2 ⟨here, ih rest here.1 fun q' hq => ?_⟩
    exact deep q' (List.mem_cons_of_mem q hq)

/-- A run gets above the depth of a place only by a call from there, and then the caller's frame
stays as it is. -/
theorem above {p : Place} (chain : (p :: ps).IsChain Place.Leads)
    (deep : ∀ q ∈ ps, q.statement.isSome → p.env.depth < q.env.depth) :
    ∀ q ∈ ps, (∃ st ∈ p.statement, st.isCall = true) ∧ p.env.frames <:+ q.env.below := by
  cases ps with
  | nil => simp
  | cons q ps =>
    obtain ⟨leads, rest⟩ := List.isChain_cons_cons.1 chain
    obtain ⟨first, deep⟩ := List.forall_mem_cons.1 deep
    unfold Place.Leads at leads
    cases e : q.statement with
    | some st =>
      simp only [e] at leads
      have shallow : q.env.depth ≤ p.env.depth := leads.length_le
      exact absurd (first (by simp [e])) (Nat.not_lt.2 shallow)
    | none =>
      simp only [e] at leads
      have inside : p.env.frames <:+ q.env.below := leads.1 ▸ List.suffix_refl _
      refine List.forall_mem_cons.2 ⟨⟨leads.2, inside⟩, fun q' hq => ⟨leads.2, ?_⟩⟩
      exact (stays rest inside deep q' hq).1

end Course

def Exchange.Closing (x : Exchange) (env : Environment) : Prop :=
  ∃ (d : Debugger) (kind : EventKind) (message : Bytes) (w : World),
    x.event = d.event kind message env w ∧ kind ∈ [EventKind.failed, .finished]

namespace Exchange.Closing

theorem kind {x : Exchange} {env : Environment} (h : x.Closing env) :
    x.event.kind ∈ [EventKind.failed, .finished] := by
  obtain ⟨d, kind, message, w, e, closing⟩ := h
  rw [e]
  exact closing

theorem kind_ne {x : Exchange} {env : Environment} (h : x.Closing env) {kind : EventKind}
    (other : kind ∉ [EventKind.failed, .finished]) : x.event.kind ≠ kind :=
  fun same => other (same ▸ h.kind)

end Exchange.Closing

def Listener.noted (listener : Listener τ) : Listener (τ × List Entry) :=
  fun event w d (t, log) =>
    let (answer, t) := listener event w d t
    (answer, t, log ++ [.told ⟨event, answer⟩])

namespace Debugger
open StepsLang.Environment

def note (e : Entry) : Debugger × τ × List Entry → Debugger × τ × List Entry
  | (d, t, log) => (d, t, log ++ [e])

def chronicler (listener : Listener τ) : Observer (Debugger × τ × List Entry) where
  before st env w watch := before listener.noted st env w (note (.reached st env) watch)
  onCall name env w watch :=
    emit listener.noted .called name env w (note (.entered name env) watch)
  onReturn name env w watch := emit listener.noted .returned name env w watch

/-- What happens while the body of a building is carried out, in order. -/
def chronicle (listener : Listener τ) (limits : Limits) (b : Building)
    (s : Session (Debugger × τ)) : List Entry :=
  (((opened b s).under (s.watch.1.started b, s.watch.2, [])).runBuilding (chronicler listener)
    limits b).2.watch.2.2

variable (listener : Listener τ)

theorem emit_noted (kind : EventKind) (message : Bytes) (env : Environment) (w : World)
    (d : Debugger) (t : τ) (log : List Entry) :
    emit listener.noted kind message env w (d, t, log) =
      if d.stopping then (d, t, log)
      else
        let r := listener (d.event kind message env w) w (d.looked env w) t
        (r.1.foldl obey (d.looked env w), r.2,
          log ++ [.told ⟨d.event kind message env w, r.1⟩]) := rfl

@[simp] theorem places_emit (kind : EventKind) (message : Bytes) (env : Environment) (w : World)
    (watch : Debugger × τ × List Entry) :
    places (emit listener.noted kind message env w watch).2.2 = places watch.2.2 := by
  obtain ⟨d, t, log⟩ := watch
  rw [emit_noted]
  split
  · rfl
  · exact (places_append log _).trans (List.append_nil _)

theorem places_before (st : Statement) (env : Environment) (w : World)
    (watch : Debugger × τ × List Entry) :
    places (before listener.noted st env w watch).2.2.2 = places watch.2.2 := by
  obtain ⟨d, t, log⟩ := watch
  rw [before_eq]
  split
  · rfl
  · split
    · rw [pause_eq]
      dsimp only
      split <;> exact places_emit listener _ _ _ _ _
    · rfl

def Goes (ps : List Place) (s t : Session (Debugger × τ × List Entry)) : Prop :=
  places t.watch.2.2 = places s.watch.2.2 ++ ps

theorem Goes.trans {ps qs : List Place} {s t u : Session (Debugger × τ × List Entry)}
    (h : Goes ps s t) (h' : Goes qs t u) : Goes (ps ++ qs) s u := by
  unfold Goes at *
  rw [h', h, List.append_assoc]

theorem goes_nil {s t : Session (Debugger × τ × List Entry)} (same : t.watch = s.watch) :
    Goes [] s t := by
  unfold Goes
  rw [same, List.append_nil]

theorem goes_announce (st : Statement) (s : Session (Debugger × τ × List Entry)) :
    Goes [⟨some st, s.env.moveTo st.location⟩] s (s.announce (chronicler listener) st).2 :=
  (places_before listener st _ s.world _).trans (places_append _ _)

theorem goes_call (r : Routine) (owner : Step) (vs : List Value) (l : Location)
    (s : Session (Debugger × τ × List Entry)) :
    Goes [⟨none, (s.call (chronicler listener) r owner vs l).env⟩] s
      (s.call (chronicler listener) r owner vs l) :=
  (places_emit listener .called r.name _ _ _).trans (places_append _ _)

theorem goes_finish (name : Bytes) (o : Outcome) (s : Session (Debugger × τ × List Entry)) :
    Goes [] s (Call.finish (chronicler listener) name (o, s)).2 := by
  cases o with
  | failed => exact goes_nil rfl
  | stopped => exact goes_nil rfl
  | _ => exact (places_emit listener .returned name _ _ _).trans (List.append_nil _).symm

def Courses (s : Session (Debugger × τ × List Entry)) (_ : Outcome)
    (t : Session (Debugger × τ × List Entry)) : Prop :=
  t.env.below = s.env.below ∧ ∃ ps, Goes ps s t ∧ Course s.env.below ps

theorem courses_composable : Composable (Courses (τ := τ)) where
  finish := fun _ => ⟨rfl, [], goes_nil rfl, .nil _⟩
  resume := by
    rintro o p s t u ⟨below, ps, goes, course⟩ - ⟨below', qs, goes', course'⟩
    exact ⟨below'.trans below, ps ++ qs, goes.trans goes', course.append (below ▸ course')⟩
  world := fun _ _ => ⟨rfl, [], goes_nil rfl, .nil _⟩

theorem courses_announce (st : Statement) (note : st.isNote = false)
    (s : Session (Debugger × τ × List Entry)) (o : Outcome) :
    Courses s o (s.announce (chronicler listener) st).2 :=
  ⟨rfl, _, goes_announce listener st s, .here (s.env.moveTo st.location) note rfl⟩

/-- A call that opens no frame, or one on top of those of the caller. -/
inductive Excursion (env : Environment) : List Place → Prop
  | stay : Excursion env []
  | call : env'.below = env.frames → Course env.frames ps → Excursion env (⟨none, env'⟩ :: ps)

/-- A way of calling routines in which every call is at most one excursion. -/
def Excurses (call : Caller (Debugger × τ × List Entry)) : Prop :=
  ∀ x vs l s, ∃ ps, Goes ps s (call x vs l s).2 ∧ Excursion s.env ps ∧
    (call x vs l s).2.env = s.env

theorem excursion_calling {call : Caller (Debugger × τ × List Entry)} (hc : Excurses call)
    (x : Bytes) (target : Option Bytes) (l : Location) (vs : List Value)
    (s : Session (Debugger × τ × List Entry)) :
    ∃ ps, Goes ps s (Action.calling call x target l vs s).2 ∧ Excursion s.env ps ∧
      (Action.calling call x target l vs s).2.env.below = s.env.below := by
  obtain ⟨ps, goes, excursion, back⟩ := hc x vs l s
  refine ⟨ps, ?_⟩
  unfold Action.calling
  split
  · next v t e =>
    rw [e] at goes back
    cases target with
    | none => exact ⟨goes, excursion, congrArg _ back⟩
    | some y =>
      simp only [Action.assign_eq]
      split
      · next env h => exact ⟨goes, excursion, (confined_set h).below.trans (congrArg _ back)⟩
      · exact ⟨goes, excursion, congrArg _ back⟩
  · next e =>
    rw [e] at goes back
    exact ⟨goes, excursion, congrArg _ back⟩
  · next e =>
    rw [e] at goes back
    exact ⟨goes, excursion, congrArg _ back⟩

theorem courses_called {call : Caller (Debugger × τ × List Entry)} (hc : Excurses call)
    (limits : Limits) {st : Statement} (isCall : st.isCall = true) :
    Action.Obeys Courses
      (Action.announced (chronicler listener) st
        (st.perform (chronicler listener) limits call)) := by
  intro s
  obtain ⟨l, x, arguments, target, rfl⟩ : ∃ l x arguments target,
      st = .call l x arguments target := by
    cases st with
    | call l x arguments target => exact ⟨l, x, arguments, target, rfl⟩
    | _ => cases isCall
  rw [Action.announced_eq, if_neg (by simp [Statement.isNote])]
  have announced := courses_announce listener (.call l x arguments target) rfl s
  split
  · simp only [Statement.perform, Action.evaluatingAll, Action.obtaining]
    split
    · obtain ⟨ps, goes, excursion, below⟩ := excursion_calling hc x target l _ _
      refine ⟨below, _, (goes_announce listener _ s).trans goes, ?_⟩
      cases excursion with
      | stay => exact .here (s.env.moveTo l) rfl rfl
      | call on course => exact course.call rfl rfl on
    · exact announced .normal
  · exact announced _

theorem courses_scheme {call : Caller (Debugger × τ × List Entry)} (hc : Excurses call)
    (limits : Limits) : Scheme (chronicler listener) limits call Courses where
  toComposable := courses_composable
  assign := fun h => ⟨(confined_set h).below, [], goes_nil rfl, .nil _⟩
  define := fun _ _ _ => ⟨rfl, [], goes_nil rfl, .nil _⟩
  block := fun h => h
  announced := by
    intro st a _ ha s
    rw [Action.announced_eq]
    split
    · exact ⟨rfl, [], goes_nil rfl, .nil _⟩
    · next note =>
      have announced := courses_announce listener st (Bool.eq_false_iff.2 note) s
      split
      · exact courses_composable.resume (announced .normal) (by simp) (ha _)
      · exact announced _
  called := courses_called listener hc limits

theorem excurses_byName {invoke : Call.Invoker (Debugger × τ × List Entry)}
    (hi : ∀ r owner vs l s, ∃ ps, Goes ps s (invoke r owner vs l s).2 ∧ Excursion s.env ps ∧
      (invoke r owner vs l s).2.env = s.env) : Excurses (Call.byName invoke) := by
  intro x vs l s
  unfold Call.byName
  split
  · exact hi _ _ vs l s
  · split
    · next f _ =>
      refine ⟨[], goes_nil ?_, .stay, env_native f vs l s⟩
      unfold Call.native
      split
      · rfl
      · split <;> rfl
    · split
      · exact hi _ _ vs l s
      · exact ⟨[], goes_nil rfl, .stay, rfl⟩

theorem excursion_invoke (limits : Limits) (n : Nat) (r : Routine) (owner : Step)
    (vs : List Value) (l : Location) (s : Session (Debugger × τ × List Entry)) :
    ∃ ps, Goes ps s (Call.invoke (chronicler listener) limits n r owner vs l s).2 ∧
      Excursion s.env ps ∧
      (Call.invoke (chronicler listener) limits n r owner vs l s).2.env = s.env := by
  have back := env_invoke (chronicler listener) limits n r owner vs l s
  induction n generalizing r owner vs l s with
  | zero => exact ⟨[], goes_nil rfl, .stay, back⟩
  | succ n ih =>
    have calls : Excurses (Call.within (chronicler listener) limits n) :=
      excurses_byName fun r owner vs l s => ih r owner vs l s (env_invoke _ limits n r owner vs l s)
    unfold Call.invoke at back ⊢
    split
    · exact ⟨[], goes_nil rfl, .stay, rfl⟩
    · next count =>
      rw [if_neg count] at back
      -- The body keeps to the frames above those of the caller, and `finish` reaches no place.
      obtain ⟨-, ps, goes, course⟩ := (courses_scheme listener calls limits).performBlock r.body
        (s.call (chronicler listener) r owner vs l)
      have on : (s.call (chronicler listener) r owner vs l).env.below = s.env.frames :=
        (s.around_call (chronicler listener) r owner vs l).below
      refine ⟨_, ((goes_call listener r owner vs l s).trans goes).trans
        (goes_finish listener r.name _ _), ?_, back⟩
      simpa using Excursion.call on (on ▸ course)

theorem course_chronicle (limits : Limits) (b : Building) (s : Session (Debugger × τ)) :
    Course s.env.below (places (chronicle listener limits b s)) := by
  have calls := excurses_byName (excursion_invoke listener limits (s.callsLeft limits))
  obtain ⟨-, ps, goes, course⟩ := (courses_scheme listener calls limits).performBlock b.body
    ((opened b s).under (s.watch.1.started b, s.watch.2, []))
  have e : places (chronicle listener limits b s) = ps := goes
  rwa [e]

def Noted (t : τ × List Exchange) (u : τ × List Entry) : Prop :=
  u.1 = t.1 ∧ u.2.filterMap Entry.exchange? = t.2

theorem noted_echoes : Listener.Echoes Noted listener.noted listener.transcribed := by
  rintro event w d ⟨t, said⟩ ⟨_, log⟩ ⟨rfl, rfl⟩
  exact ⟨rfl, rfl, by simp [Listener.noted, Listener.transcribed, Entry.exchange?]⟩

theorem note_same {e : Entry} (silent : e.exchange? = none) {x : Debugger × τ × List Exchange}
    {y : Debugger × τ × List Entry} (same : SameDebugger Noted x y) :
    SameDebugger Noted x (note e y) := by
  obtain ⟨d, t, log⟩ := y
  obtain ⟨same, memory, said⟩ := same
  exact ⟨same, memory, by simpa [note, silent] using said⟩

theorem chronicler_follows :
    Follower (SameDebugger Noted) (fun _ => True) (chronicler listener)
      (observer listener.transcribed) :=
  echo_follows (noted_echoes listener) (fun st env => note (.reached st env))
    (fun name env => note (.entered name env)) (fun _ _ _ _ => note_same rfl)
    (fun _ _ _ _ => note_same rfl)

theorem emit_closing (kind : EventKind) (message : Bytes) (env : Environment) (w : World)
    (watch : Debugger × τ × List Exchange) :
    ∃ new, (emit listener.transcribed kind message env w watch).2.2 = watch.2.2 ++ new ∧
      ∀ x ∈ new, x.event = watch.1.event kind message env w := by
  obtain ⟨d, t, log⟩ := watch
  rw [emit_eq]
  split
  · exact ⟨[], by simp, by simp⟩
  · exact ⟨[_], rfl, List.forall_mem_singleton.2 rfl⟩

theorem conclude_closing (r : Result) (env : Environment) (w : World)
    (watch : Debugger × τ × List Exchange) :
    ∃ closing, (conclude listener.transcribed r env w watch).2.2 = watch.2.2 ++ closing ∧
      ∀ x ∈ closing, x.Closing env := by
  unfold conclude
  cases r.error with
  | none =>
    obtain ⟨new, grown, events⟩ := emit_closing listener .finished [] env w watch
    exact ⟨new, grown, fun x hx => ⟨_, _, _, _, events x hx, by decide⟩⟩
  | some report =>
    obtain ⟨first, grown, events⟩ :=
      emit_closing listener .failed (report.format watch.1.sources) env w watch
    obtain ⟨second, grown', events'⟩ := emit_closing listener .finished [] env w
      (emit listener.transcribed .failed (report.format watch.1.sources) env w watch)
    refine ⟨first ++ second, ?_, List.forall_mem_append.2 ⟨?_, ?_⟩⟩
    · rw [← List.append_assoc, ← grown]
      exact grown'
    · exact fun x hx => ⟨_, _, _, _, events x hx, by decide⟩
    · exact fun x hx => ⟨_, _, _, _, events' x hx, by decide⟩

theorem transcript_closing (limits : Limits) (b : Building) (s : Session (Debugger × τ)) :
    let t := ((transcribing b s).runBuilding (observer listener.transcribed) limits b).2
    ∃ closing, transcript listener limits b s = t.watch.2.2 ++ closing ∧
      ∀ x ∈ closing, x.Closing t.env := by
  intro t
  unfold transcript
  rw [run_eq]
  dsimp only
  split
  · exact ⟨[], (List.append_nil _).symm, by simp⟩
  · split
    · exact ⟨[], (List.append_nil _).symm, by simp⟩
    · exact conclude_closing listener _ _ _ _

theorem transcript_eq (limits : Limits) (b : Building) (s : Session (Debugger × τ)) :
    ∃ closing,
      transcript listener limits b s =
        (chronicle listener limits b s).filterMap Entry.exchange? ++ closing ∧
      ∀ x ∈ closing, x.event.kind ≠ .paused := by
  obtain ⟨y, same, e⟩ := (chronicler_follows listener).runBlock limits b.body (transcribing b s)
    (y := (s.watch.1.started b, s.watch.2, [])) ⟨rfl, rfl, rfl⟩ trivial
  have said : (chronicle listener limits b s).filterMap Entry.exchange? =
      ((transcribing b s).runBuilding (observer listener.transcribed) limits b).2.watch.2.2 :=
    (congrArg (·.2.watch.2.2.filterMap Entry.exchange?) e).trans same.2.2
  obtain ⟨closing, whole, closes⟩ := transcript_closing listener limits b s
  exact ⟨closing, said ▸ whole, fun x hx => (closes x hx).kind_ne (by decide)⟩

end Debugger

end StepsLang.Debug
