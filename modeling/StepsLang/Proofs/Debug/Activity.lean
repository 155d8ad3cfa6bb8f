import Mathlib.Data.List.Chain
import StepsLang.Execution.Call
import StepsLang.Proofs.Debug.Transparency
import StepsLang.Proofs.List

namespace StepsLang.Debug

inductive Happening
  | opened (name : Bytes)
  | closed (name : Bytes) (r : CallResult)
  | told (x : Exchange)

namespace Happening

def exchange? : Happening → Option Exchange
  | told x => some x
  | _ => none

def update (names : List Bytes) : Happening → List Bytes
  | opened name => name :: names
  | closed _ _ => names.tail
  | told _ => names

end Happening

def exchanges (log : List Happening) : List Exchange := log.filterMap Happening.exchange?

@[simp] theorem exchanges_append (log log' : List Happening) :
    exchanges (log ++ log') = exchanges log ++ exchanges log' :=
  List.filterMap_append

theorem exchanges_activation (name : Bytes) (c : Exchange) (body last : List Happening)
    (r : CallResult) :
    exchanges (.opened name :: .told c :: (body ++ (last ++ [.closed name r]))) =
      c :: (exchanges body ++ exchanges last) := by
  change c :: exchanges (body ++ (last ++ [.closed name r])) = _
  rw [exchanges_append, exchanges_append]
  simp [exchanges, Happening.exchange?]

def openAfter (names : List Bytes) (log : List Happening) : List Bytes :=
  log.foldl Happening.update names

theorem openAfter_append (names : List Bytes) (log log' : List Happening) :
    openAfter names (log ++ log') = openAfter (openAfter names log) log' :=
  List.foldl_append

def ending : Nat → List Happening → Option CallResult
  | _, [] => none
  | d, .opened _ :: log => ending (d + 1) log
  | 0, .closed _ r :: _ => some r
  | d + 1, .closed _ _ :: log => ending d log
  | d, .told _ :: log => ending d log

@[simp] theorem ending_told (d : Nat) (x : Exchange) (log : List Happening) :
    ending d (.told x :: log) = ending d log := by
  simp [ending]

theorem ending_append {d : Nat} {log : List Happening} {r : CallResult}
    (h : ending d log = some r) (more : List Happening) : ending d (log ++ more) = some r := by
  induction log generalizing d with
  | nil => cases h
  | cons e log ih =>
    cases e with
    | opened name => exact ih h
    | told x => exact (ending_told d x _).trans (ih ((ending_told d x log).symm.trans h))
    | closed name r' =>
      cases d with
      | zero => exact h
      | succ d => exact ih h

theorem closed_of_ending {d : Nat} {log : List Happening} {r : CallResult}
    (h : ending d log = some r) : ∃ name, .closed name r ∈ log := by
  induction log generalizing d with
  | nil => cases h
  | cons e log ih =>
    have later {d : Nat} (h : ending d log = some r) : ∃ name, .closed name r ∈ e :: log :=
      (ih h).imp fun _ => List.mem_cons_of_mem e
    cases e with
    | opened name => exact later h
    | told x => exact later ((ending_told d x log).symm.trans h)
    | closed name r' =>
      cases d with
      | zero =>
        obtain rfl := Option.some.inj h
        exact ⟨name, .head _⟩
      | succ d => exact later h

namespace Exchange

def activations (x : Exchange) : List Bytes := x.event.snapshot.stack.map (·.name)

def height (x : Exchange) : Nat := x.event.snapshot.stack.length

theorem length_activations (x : Exchange) : x.activations.length = x.height := List.length_map _

structure Tells (x : Exchange) (kind : EventKind) (name : Bytes) (names : List Bytes) : Prop where
  kind : x.event.kind = kind
  name : x.event.message = name
  shown : x.activations = names

theorem Tells.height {x : Exchange} {kind : EventKind} {name : Bytes} {names : List Bytes}
    (h : x.Tells kind name names) : x.height = names.length := by
  rw [← length_activations, h.shown]

end Exchange

/-- A return and the call it belongs to, with what is said between them: nothing below their height,
and nothing but pauses at it. -/
structure Answers (c : Exchange) (between : List Exchange) (y : Exchange) : Prop where
  call : c.event.kind = .called
  returned : y.event.kind = .returned
  name : y.event.message = c.event.message
  height : y.height = c.height
  above : ∀ e ∈ between, c.height ≤ e.height
  inside : ∀ e ∈ between, e.height = c.height → e.event.kind = .paused

namespace Answers

variable {c c' y y' : Exchange} {between between' : List Exchange}

theorem same_return {rest rest' : List Exchange} (h : Answers c between y)
    (h' : Answers c between' y') (e : between ++ y :: rest = between' ++ y' :: rest') :
    between = between' ∧ y = y' := by
  have apart {y : Exchange} (returned : y.event.kind = .returned) : y.event.kind ≠ .paused := by
    rw [returned]
    decide
  -- If one return came first, it would be told between the call and the other, at their height.
  rcases append_eq_append_cons e with ⟨more, inside, -⟩ | ⟨more, front, back⟩
  · exact absurd (h.inside y' (inside ▸ by simp) h'.height) (apart h'.returned)
  · cases more with
    | nil =>
      rw [List.append_nil] at front
      exact ⟨front.symm, (List.cons.inj back).1⟩
    | cons z more =>
      obtain ⟨rfl, -⟩ := List.cons.inj back
      exact absurd (h'.inside y (front ▸ by simp) h.height) (apart h.returned)

end Answers

inductive Ending (name : Bytes) (names : List Bytes) : CallResult → List Happening → Prop
  | returned : x.Tells .returned name (name :: names) → Ending name names (.value v) [.told x]
  | failed : Ending name names (.failed r) []
  | stopped : Ending name names .stopped []

/-- What may happen while the activations `names` stay open.  Every activation that is opened is
announced, and closed again. -/
inductive Nested : List Bytes → List Happening → Prop
  | nil {names : List Bytes} : Nested names []
  | paused {names : List Bytes} {x : Exchange} :
    x.event.kind = .paused → x.activations = names → Nested names [.told x]
  | activation {name : Bytes} {names : List Bytes} {c : Exchange} {body last : List Happening}
      {r : CallResult} :
    c.Tells .called name (name :: names) → Nested (name :: names) body →
    Ending name names r last →
    Nested names (.opened name :: .told c :: (body ++ (last ++ [.closed name r])))
  | append : Nested names log → Nested names log' → Nested names (log ++ log')

def ShowsOpen : List Bytes → List Happening → Prop
  | _, [] => True
  | names, e :: log => (∀ x, e = .told x → x.activations = names) ∧ ShowsOpen (e.update names) log

theorem showsOpen_append (names : List Bytes) (log log' : List Happening) :
    ShowsOpen names (log ++ log') ↔
      ShowsOpen names log ∧ ShowsOpen (openAfter names log) log' := by
  induction log generalizing names with
  | nil => simp [ShowsOpen, openAfter]
  | cons e log ih => simp [ShowsOpen, openAfter, ih, and_assoc]

theorem ShowsOpen.activations {names : List Bytes} {earlier later : List Happening} {x : Exchange}
    (h : ShowsOpen names (earlier ++ .told x :: later)) :
    x.activations = openAfter names earlier :=
  ((showsOpen_append names _ _).1 h).2.1 x rfl

/-- The call `c` is answered later, or comes to no value. -/
def Concluded (c : Exchange) (later : List Happening) : Prop :=
  ∃ r, ending 0 later = some r ∧ ∀ v, r = .value v →
    ∃ between y rest, exchanges later = between ++ y :: rest ∧ Answers c between y

theorem Concluded.append {c : Exchange} {later : List Happening} (h : Concluded c later)
    (more : List Happening) : Concluded c (later ++ more) := by
  obtain ⟨r, ends, answered⟩ := h
  refine ⟨r, ending_append ends more, fun v isValue => ?_⟩
  obtain ⟨between, y, rest, e, answers⟩ := answered v isValue
  refine ⟨between, y, rest ++ exchanges more, ?_, answers⟩
  rw [exchanges_append, e, List.append_assoc, List.cons_append]

def CallsEnd : List Happening → Prop
  | [] => True
  | e :: log => (∀ c, e = .told c → c.event.kind = .called → Concluded c log) ∧ CallsEnd log

theorem CallsEnd.append {log log' : List Happening} (h : CallsEnd log) (h' : CallsEnd log') :
    CallsEnd (log ++ log') := by
  induction log with
  | nil => exact h'
  | cons e log ih => exact ⟨fun c told called => (h.1 c told called).append log', ih h.2⟩

theorem CallsEnd.concluded {earlier later : List Happening} {c : Exchange}
    (h : CallsEnd (earlier ++ .told c :: later)) (called : c.event.kind = .called) :
    Concluded c later := by
  induction earlier with
  | nil => exact h.1 c rfl called
  | cons e earlier ih => exact ih h.2

/-- Every return is of the activation on top, and answers a call. -/
def Matched (said : List Exchange) : Prop :=
  ∀ earlier y later, said = earlier ++ y :: later → y.event.kind = .returned →
    y.activations.head? = some y.event.message ∧
    ∃ before c between, earlier = before ++ c :: between ∧ Answers c between y

namespace Matched

variable {said said' : List Exchange}

theorem of_noReturn (h : ∀ x ∈ said, x.event.kind ≠ .returned) : Matched said :=
  fun earlier y later e returned => absurd returned (h y (e ▸ by simp))

theorem append (h : Matched said) (h' : Matched said') : Matched (said ++ said') := by
  intro earlier y later e returned
  rcases append_eq_append_cons e with ⟨more, first, -⟩ | ⟨more, rfl, second⟩
  · exact h earlier y more first returned
  · obtain ⟨top, before, c, between, rfl, answers⟩ := h' more y later second returned
    exact ⟨top, said ++ before, c, between, (List.append_assoc _ _ _).symm, answers⟩

theorem cons (h : Matched said) {c : Exchange} (called : c.event.kind = .called) :
    Matched (c :: said) :=
  have first : Matched [c] := .of_noReturn (by simp [called])
  first.append h

theorem answered {c y : Exchange} (h : Matched said) (answers : Answers c said y)
    (top : y.activations.head? = some y.event.message) : Matched (c :: (said ++ [y])) := by
  intro earlier z later e returned
  rw [← List.cons_append] at e
  rcases append_eq_append_cons e with ⟨more, first, -⟩ | ⟨more, rfl, second⟩
  · exact h.cons answers.call earlier z more first returned
  · cases more with
    | nil =>
      obtain ⟨rfl, -⟩ := List.cons.inj second
      exact ⟨top, [], c, said, List.append_nil _, answers⟩
    | cons z' more => simp at second

end Matched

def Announces (e e' : Happening) : Prop :=
  ∀ name, e = .opened name ↔
    ∃ c, e' = .told c ∧ c.event.kind = .called ∧ c.event.message = name

structure Paired (log : List Happening) : Prop where
  chain : log.IsChain Announces
  first : ∀ e ∈ log.head?, ∀ c, e = .told c → c.event.kind ≠ .called
  last : ∀ e ∈ log.getLast?, ∀ name, e ≠ .opened name

namespace Paired

variable {log log' : List Happening}

theorem apart {e e' : Happening} (notOpened : ∀ name, e ≠ .opened name)
    (noCall : ∀ c, e' = .told c → c.event.kind ≠ .called) : Announces e e' :=
  fun name => ⟨fun opened => absurd opened (notOpened name),
    fun ⟨c, told, called, _⟩ => absurd called (noCall c told)⟩

theorem nil : Paired [] := ⟨.nil, by simp, by simp⟩

theorem told {x : Exchange} (other : x.event.kind ≠ .called) : Paired [.told x] :=
  ⟨.singleton _, by simpa using other, by simp⟩

theorem closed {name : Bytes} {r : CallResult} : Paired [.closed name r] :=
  ⟨.singleton _, by simp, by simp⟩

theorem append (h : Paired log) (h' : Paired log') : Paired (log ++ log') where
  chain := List.isChain_append.2
    ⟨h.chain, h'.chain, fun e he e' he' => apart (h.last e he) (h'.first e' he')⟩
  first e he := by
    cases log with
    | nil => exact h'.first e he
    | cons e' log => exact h.first e he
  last e he := by
    rw [List.getLast?_append] at he
    cases ends : log'.getLast? with
    | none =>
      rw [ends] at he
      exact h.last e he
    | some e' =>
      rw [ends] at he
      exact h'.last e (ends ▸ he)

theorem activation {name : Bytes} {names : List Bytes} {c : Exchange}
    (tells : c.Tells .called name names) (h : Paired log) :
    Paired (.opened name :: .told c :: log) where
  chain := by
    refine List.isChain_cons_cons.2 ⟨fun name' => ?_, List.isChain_cons.2 ⟨?_, h.chain⟩⟩
    · simp [tells.kind, tells.name]
    · exact fun e he => apart (by simp) (h.first e he)
  first := by simp
  last e he := by
    cases log with
    | nil =>
      obtain rfl : .told c = e := by simpa using he
      simp
    | cons e' log => exact h.last e he

theorem told_of_opened (h : Paired log) {earlier later : List Happening} {name : Bytes}
    (split : log = earlier ++ .opened name :: later) :
    ∃ c rest, later = .told c :: rest ∧ c.event.kind = .called ∧ c.event.message = name := by
  subst split
  cases later with
  | nil => exact absurd rfl (h.last (.opened name) (by simp) name)
  | cons e rest =>
    have onward := (List.isChain_append.1 h.chain).2.1
    obtain ⟨c, rfl, called⟩ := ((List.isChain_cons_cons.1 onward).1 name).1 rfl
    exact ⟨c, rest, rfl, called⟩

theorem opened_of_told (h : Paired log) {earlier later : List Happening} {c : Exchange}
    (split : log = earlier ++ .told c :: later) (called : c.event.kind = .called) :
    ∃ before, earlier = before ++ [.opened c.event.message] := by
  subst split
  rcases List.eq_nil_or_concat earlier with rfl | ⟨before, e, rfl⟩
  · exact absurd called (h.first _ rfl c rfl)
  · have joint := (List.isChain_append.1 h.chain).2.2 e (by simp) (.told c) (by simp)
    obtain rfl := (joint c.event.message).2 ⟨c, rfl, called, rfl⟩
    exact ⟨before, List.concat_eq_append⟩

end Paired

namespace Ending

variable {name : Bytes} {names : List Bytes} {r : CallResult} {last : List Happening}

theorem openAfter_eq (h : Ending name names r last) (open_ : List Bytes) :
    openAfter open_ last = open_ := by
  cases h <;> rfl

theorem ending_eq (h : Ending name names r last) (d : Nat) (more : List Happening) :
    ending d (last ++ more) = ending d more := by
  cases h with
  | returned => exact ending_told d _ more
  | failed => rfl
  | stopped => rfl

theorem not_closed (h : Ending name names r last) {name' : Bytes} {r' : CallResult} :
    .closed name' r' ∉ last := by
  cases h <;> simp

theorem tells (h : Ending name names r last) :
    ∀ x ∈ exchanges last, x.Tells .returned name (name :: names) := by
  cases h with
  | returned tells => exact List.forall_mem_singleton.2 tells
  | failed => simp [exchanges]
  | stopped => simp [exchanges]

theorem showsOpen (h : Ending name names r last) : ShowsOpen (name :: names) last := by
  cases h with
  | returned tells => exact ⟨fun _ e => by cases e; exact tells.shown, trivial⟩
  | failed => trivial
  | stopped => trivial

theorem paired (h : Ending name names r last) : Paired last := by
  cases h with
  | returned tells => exact .told (by simp [tells.kind])
  | failed => exact .nil
  | stopped => exact .nil

theorem callsEnd (h : Ending name names r last) : CallsEnd last := by
  cases h with
  | returned tells =>
    refine ⟨fun _ e called => ?_, trivial⟩
    cases e
    rw [tells.kind] at called
    cases called
  | failed => trivial
  | stopped => trivial

end Ending

namespace Nested

variable {name : Bytes} {names : List Bytes} {log : List Happening}

theorem openAfter_eq (h : Nested names log) (open_ : List Bytes) : openAfter open_ log = open_ := by
  induction h generalizing open_ with
  | nil => rfl
  | paused => rfl
  | @activation name names c body last r tells _ ends ih =>
    change openAfter (name :: open_) (body ++ (last ++ [.closed name r])) = open_
    rw [openAfter_append, ih, openAfter_append, ends.openAfter_eq]
    rfl
  | append _ _ ih ih' => rw [openAfter_append, ih, ih']

theorem ending_eq (h : Nested names log) (d : Nat) (more : List Happening) :
    ending d (log ++ more) = ending d more := by
  induction h generalizing d more with
  | nil => rfl
  | paused => exact ending_told d _ more
  | @activation name names c body last r tells _ ends ih =>
    change ending (d + 1) (.told c :: (body ++ (last ++ [.closed name r]) ++ more)) = _
    rw [ending_told, List.append_assoc, ih, List.append_assoc, ends.ending_eq]
    rfl
  | append _ _ ih ih' => rw [List.append_assoc, ih, ih']

theorem showsOpen (h : Nested names log) : ShowsOpen names log := by
  induction h with
  | nil => trivial
  | paused _ shown => exact ⟨fun _ e => by cases e; exact shown, trivial⟩
  | activation tells nested ends ih =>
    refine ⟨nofun, fun _ e => by cases e; exact tells.shown, ?_⟩
    refine (showsOpen_append _ _ _).2 ⟨ih, ?_⟩
    rw [nested.openAfter_eq]
    exact (showsOpen_append _ _ _).2 ⟨ends.showsOpen, nofun, trivial⟩
  | append nested _ ih ih' =>
    refine (showsOpen_append _ _ _).2 ⟨ih, ?_⟩
    rwa [nested.openAfter_eq]

/-- Whatever is said shows the activations that stay open below all others, and there are only
pauses where it shows no others. -/
theorem above (h : Nested names log) : ∀ x ∈ exchanges log,
    names <:+ x.activations ∧ (x.height = names.length → x.event.kind = .paused) := by
  induction h with
  | nil => simp [exchanges]
  | paused kind shown =>
    exact List.forall_mem_singleton.2 ⟨shown.symm ▸ List.suffix_refl _, fun _ => kind⟩
  | @activation name names c body last r tells nested ends ih =>
    -- Inside, one more activation is open.
    have deeper {x : Exchange} (deep : name :: names <:+ x.activations) :
        names <:+ x.activations ∧ (x.height = names.length → x.event.kind = .paused) := by
      have longer := deep.length_le
      rw [x.length_activations] at longer
      refine ⟨(List.suffix_cons name names).trans deep, fun same => ?_⟩
      exact absurd same (Nat.ne_of_gt longer)
    have shown {x : Exchange} {kind : EventKind} (h : x.Tells kind name (name :: names)) :
        names <:+ x.activations ∧ (x.height = names.length → x.event.kind = .paused) :=
      deeper (h.shown.symm ▸ List.suffix_refl _)
    rw [exchanges_activation]
    refine List.forall_mem_cons.2 ⟨shown tells, List.forall_mem_append.2 ⟨?_, ?_⟩⟩
    · exact fun x hx => deeper (ih x hx).1
    · exact fun x hx => shown (ends.tells x hx)
  | append _ _ ih ih' =>
    rw [exchanges_append]
    exact List.forall_mem_append.2 ⟨ih, ih'⟩

theorem answers {c y : Exchange} (called : c.Tells .called name (name :: names))
    (h : Nested (name :: names) log) (returned : y.Tells .returned name (name :: names)) :
    Answers c (exchanges log) y where
  call := called.kind
  returned := returned.kind
  name := returned.name.trans called.name.symm
  height := returned.height.trans called.height.symm
  above x hx := by
    rw [called.height, ← x.length_activations]
    exact (h.above x hx).1.length_le
  inside x hx same := (h.above x hx).2 (same.trans called.height)

theorem matched (h : Nested names log) : Matched (exchanges log) := by
  induction h with
  | nil => exact .of_noReturn (by simp [exchanges])
  | paused kind _ => exact .of_noReturn (List.forall_mem_singleton.2 (by simp [kind]))
  | activation called nested ends ih =>
    rw [exchanges_activation]
    cases ends with
    | returned returned =>
      refine ih.answered (nested.answers called returned) ?_
      rw [returned.shown, returned.name]
      rfl
    | failed => simpa [exchanges] using ih.cons called.kind
    | stopped => simpa [exchanges] using ih.cons called.kind
  | append _ _ ih ih' =>
    rw [exchanges_append]
    exact ih.append ih'

theorem callsEnd (h : Nested names log) : CallsEnd log := by
  induction h with
  | nil => trivial
  | paused kind _ =>
    refine ⟨fun _ e called => ?_, trivial⟩
    cases e
    rw [kind] at called
    cases called
  | @activation name names c body last r called nested ends ih =>
    refine ⟨nofun, ?_, ih.append (ends.callsEnd.append ⟨nofun, trivial⟩)⟩
    -- What the body opens it also closes, so the end of this activation is the last one.
    rintro _ ⟨⟩ -
    refine ⟨r, ?_, ?_⟩
    · rw [nested.ending_eq, ends.ending_eq]
      rfl
    · rintro v rfl
      obtain ⟨returned⟩ := ends
      refine ⟨exchanges body, _, [], ?_, nested.answers called returned⟩
      rw [exchanges_append]
      rfl
  | append _ _ ih ih' => exact ih.append ih'

theorem paired (h : Nested names log) : Paired log := by
  induction h with
  | nil => exact .nil
  | paused kind _ => exact .told (by simp [kind])
  | activation tells _ ends ih => exact .activation tells (ih.append (ends.paired.append .closed))
  | append _ _ ih ih' => exact ih.append ih'

end Nested

end StepsLang.Debug
