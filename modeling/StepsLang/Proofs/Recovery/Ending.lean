import StepsLang.Proofs.Recovery.Blocks
import StepsLang.Proofs.Recovery.Silent

namespace StepsLang
open Reader

/-- Where a reader does not come to what it is after, something is reported. -/
def Blames (ok : α → Prop) (p : Reader α) : Prop :=
  ∀ ⦃d c⦄, Closes d c.tokens → ok (p c).1 ∨ (p c).2.reports ≠ []

namespace Blames

variable {ok : α → Prop} {r : β → Prop} {d e : Nat} {p : Reader β} {g : β → Reader α}

theorem pure {a : α} (h : ok a) : Blames ok (Pure.pure a) := fun _ _ _ => .inl h

theorem bind (one : ∀ n, Climbs n 0 0 0 Everywhere p) (h : Blames r p)
    (yes : ∀ a, r a → Blames ok (g a)) (no : ∀ a, ¬ r a → Still (g a)) :
    Blames ok (p >>= g) := by
  intro d c closes
  obtain ⟨-, ts, -, -, -, mid⟩ := one c.rest.length (k := d) (Nat.le_refl _) trivial
    (by rwa [Nat.zero_add])
  by_cases there : r (p c).1
  · exact yes _ there mid
  · exact .inr (((no _ there).grows (p c).2).loud ((h closes).resolve_left there))

theorem still (one : Still p) (two : ∀ a, Blames ok (g a)) : Blames ok (p >>= g) :=
  fun _ c closes => two _ (by rwa [one.tokens c])

theorem andThen (one : ∀ n, Climbs n 0 0 0 Everywhere p) (two : ∀ a, Blames ok (g a)) :
    Blames ok (p >>= g) :=
  bind one (r := fun _ => True) (fun _ _ _ => .inl trivial) (fun a _ => two a)
    fun _ none => absurd trivial none

theorem report (r : Report) {q : Reader α} (hq : ∀ n, Climbs n 0 0 0 Everywhere q) :
    Blames ok (Reader.report r >>= fun _ => q) := by
  intro d c closes
  have loud : (Reader.report r c).2.reports ≠ [] := by
    change (if c.base < c.reports.length then c else _ : Cursor).reports ≠ []
    split
    · next more =>
      intro none
      rw [none] at more
      cases more
    · simp
  obtain ⟨grows, -⟩ := hq (Reader.report r c).2.rest.length (k := d) (Nat.le_refl _) trivial
    (by rwa [Nat.zero_add, (Still.report r).tokens c])
  exact .inr (grows.loud loud)

theorem expected (what : Bytes) {q : Reader α} (hq : ∀ n, Climbs n 0 0 0 Everywhere q) :
    Blames ok (Reader.expected what >>= fun _ => q) := by
  unfold Reader.expected
  rw [bind_assoc]
  exact .still (.peekAt 0) fun _ => .report _ hq

theorem expectedBlock (keyword : Bytes) {q : Reader α} (hq : ∀ n, Climbs n 0 0 0 Everywhere q) :
    Blames ok (Reader.expectedBlock keyword >>= fun _ => q) := by
  unfold Reader.expectedBlock
  rw [bind_assoc]
  exact .still (.peekAt 0) fun _ => .report _ hq

theorem unexpected (message : Option Bytes) {q : Reader α}
    (hq : ∀ n, Climbs n 0 0 0 Everywhere q) :
    Blames ok (Reader.unexpected message >>= fun _ => q) := by
  unfold Reader.unexpected
  rw [bind_assoc]
  exact .still (.peekAt 0) fun _ => .report _ hq

theorem expect {k : Kind} (hk : k.Flat) (what : Bytes) :
    Blames (·.isSome = true) (Reader.expect k what) := by
  refine andThen (Expression.Parser.take?_level hk) fun t => ?_
  cases t with
  | some t => exact pure rfl
  | none => exact expected what fun _ => .pure _

theorem expectEndOfLine (what : Bytes) : Blames (· = true) (Reader.expectEndOfLine what) := by
  have newline : Level (Reader.skip? .newline) :=
    Level.skip? (g := Pure.pure) (by decide) fun _ _ => .pure _
  refine andThen newline fun ended => ?_
  cases ended with
  | true => exact pure rfl
  | false =>
    refine still .atBlockEnd fun stop => ?_
    cases stop with
    | true => exact pure rfl
    | false => exact still (.peekAt 0) fun _ => report _ fun _ => .andThen .resync fun _ => .pure _

end Blames

/-- From where `d` blocks are open, a reader comes to the end of the file with something to show for
it, or something is reported. -/
def Finishes (d : Nat) (p : Reader (Option α)) : Prop :=
  ∀ ⦃c⦄, Closes d c.tokens → c.Grows (p c).2 ∧ ((p c).2.reports = [] →
    (p c).1.isSome = true ∧ ∃ e : Token, (p c).2.rest = [⟨[], e⟩] ∧ e.kind = .endOfFile)

namespace Finishes

variable {d e : Nat} {p : Reader β} {g : β → Reader (Option α)}

theorem bind (one : ∀ n, Climbs n 0 d e Everywhere p) (two : ∀ a, Finishes e (g a)) :
    Finishes d (p >>= g) := by
  intro c closes
  obtain ⟨grows, ts, -, -, -, mid⟩ := one c.rest.length (k := 0) (Nat.le_refl _) trivial closes
  obtain ⟨grows', ends⟩ := two (p c).1 mid
  exact ⟨grows.trans grows', ends⟩

theorem still (one : Still p) (two : ∀ a, Finishes d (g a)) : Finishes d (p >>= g) := by
  intro c closes
  obtain ⟨grows, ends⟩ := two (p c).1 (c := (p c).2) (by rwa [one.tokens c])
  exact ⟨(one.grows c).trans grows, ends⟩

theorem of_blames {q : Reader (Option α)} (hq : ∀ n, Climbs n 0 d 0 Everywhere q)
    (h : Blames (fun _ => False) q) : Finishes d q := by
  intro c closes
  obtain ⟨grows, -⟩ := hq c.rest.length (k := 0) (Nat.le_refl _) trivial closes
  exact ⟨grows, fun silent => absurd silent ((h closes).resolve_left id)⟩

theorem blaming {ok : β → Prop} (one : ∀ n, Climbs n 0 0 0 Everywhere p) (h : Blames ok p)
    (yes : ∀ a, ok a → Finishes 0 (g a)) (no : ∀ a, ¬ ok a → Still (g a)) :
    Finishes 0 (p >>= g) := by
  intro c closes
  obtain ⟨grows, ts, -, -, -, mid⟩ := one c.rest.length (k := 0) (Nat.le_refl _) trivial closes
  by_cases there : ok (p c).1
  · obtain ⟨grows', ends⟩ := yes _ there mid
    exact ⟨grows.trans grows', ends⟩
  · have more := (no _ there).grows (p c).2
    have loud := more.loud ((h closes).resolve_left there)
    exact ⟨grows.trans more, fun silent => absurd silent loud⟩

theorem check_first {c : Cursor} {d : Nat} (h : Closes d c.tokens) (k : Kind) :
    (Reader.check k c).1 = true ∧ First (· = k) c.tokens ∨
      (Reader.check k c).1 = false ∧ First (· ≠ k) c.tokens := by
  obtain ⟨t, us, here⟩ := h.exists_cons
  have same : (Reader.check k c).1 = (t.kind == k) := by
    change ((Reader.peekAt 0 c).1.kind == k) = _
    rw [Tandem.peekAt_eq, show c.rest.map (·.token) = t :: us from here]
    rfl
  rw [same, here]
  cases e : t.kind == k with
  | true => exact .inl ⟨rfl, t, us, rfl, eq_of_beq e⟩
  | false => exact .inr ⟨rfl, t, us, rfl, beq_eq_false_iff_ne.1 e⟩

theorem skip?_indent_eq {c : Cursor} {d : Nat} (h : Closes d c.tokens) :
    let r := Reader.skip? .indent c
    c.Grows r.2 ∧
      (r.1 = true ∧ r.2.tokens <:+ c.tokens ∧ Closes (d + 1) r.2.tokens ∨
        r.1 = false ∧ r.2.tokens = c.tokens) := by
  have split : Reader.skip? .indent = (do
      if ← Reader.check .indent then let _ ← Reader.advance; return true else return false) :=
    (bind_pure _).symm.trans ((Reader.skip?_bind _ _).trans (Reader.take?_bind _ _))
  have still := Still.check .indent
  intro r
  have ran : r = _ := congrFun split c
  rw [bind_run] at ran
  rcases check_first h .indent with ⟨there, first⟩ | ⟨there, -⟩
  · rw [there, if_pos rfl] at ran
    have opens : Climbs (Reader.check .indent c).2.rest.length 1 d (d + 1) (First (· = .indent))
        Reader.advance := .advance fun _ h => h.imp fun k same => same ▸ ⟨by decide, rfl⟩
    rw [← still.tokens c] at first h
    obtain ⟨grows, ts, here, -, -, opened⟩ := opens (k := 0) (Nat.le_refl _) first h
    rw [ran]
    rw [still.tokens c] at here
    exact ⟨(still.grows c).trans grows, .inl ⟨rfl, ⟨ts, here.symm⟩, opened⟩⟩
  · rw [there, if_neg Bool.false_ne_true] at ran
    rw [ran]
    exact ⟨still.grows c, .inr ⟨rfl, still.tokens c⟩⟩

theorem skip?_indent {g : Bool → Reader (Option α)} (yes : Finishes (d + 1) (g true))
    (no : Finishes d (g false)) : Finishes d (Reader.skip? .indent >>= g) := by
  intro c closes
  rw [bind_run]
  obtain ⟨grows, ⟨there, -, opened⟩ | ⟨there, same⟩⟩ := skip?_indent_eq closes
  · rw [there]
    obtain ⟨grows', ends⟩ := yes opened
    exact ⟨grows.trans grows', ends⟩
  · rw [there]
    obtain ⟨grows', ends⟩ := no (same ▸ closes)
    exact ⟨grows.trans grows', ends⟩

theorem check_end {a : α} {q : Reader (Option α)} (hq : ∀ n, Climbs n 0 0 0 Everywhere q)
    (h : Blames (fun _ => False) q) :
    Finishes 0 (do if !(← Reader.check .endOfFile) then q else return some a) := by
  intro c closes
  have still := Still.check .endOfFile
  rw [bind_run]
  rcases check_first closes .endOfFile with ⟨there, first⟩ | ⟨there, -⟩
  · rw [there]
    obtain ⟨e, us, here, ends⟩ := first
    rw [here] at closes
    obtain ⟨-, rfl⟩ := closes.last ends
    obtain ⟨x, rest, whole, rfl, none⟩ := List.map_eq_cons_iff.1 here
    obtain rfl := List.map_eq_nil_iff.1 none
    refine ⟨still.grows c, fun _ => ⟨rfl, x.token, ?_, ends⟩⟩
    exact congrArg Cursor.rest (Cursor.hear_one whole)
  · rw [there]
    have closes' : Closes 0 (Reader.check .endOfFile c).2.tokens := by rwa [still.tokens c]
    obtain ⟨grows, ends⟩ := of_blames hq h closes'
    exact ⟨(still.grows c).trans grows, ends⟩

end Finishes

namespace Routine.Parser
open Statement.Parser

theorem header_level {k : Kind} (hk : k.Flat) (keyword : Bytes) : Level (header k keyword) := by
  refine fun n => .still .beginLine fun _ => .andThen .skipNewlines fun _ => ?_
  refine (expect_level hk fun t => ?_) n
  cases t with
  | none => exact fun _ => .pure _
  | some t =>
    refine expectName_level fun name n => ?_
    exact .andThen (.expectEndOfLine _) fun _ => .pure _

theorem header_blames {k : Kind} (hk : k.Flat) (keyword : Bytes) :
    Blames (fun o => ∃ l x, o = some (l, x, true)) (header k keyword) := by
  refine .still .beginLine fun _ => .andThen (fun _ => .skipNewlines) fun _ => ?_
  refine .bind (expect_level (g := pure) hk fun _ _ => .pure _) (.expect hk keyword) ?_ ?_
  · intro t some
    obtain ⟨t, rfl⟩ := Option.isSome_iff_exists.1 some
    refine .andThen (expectName_level (g := pure) fun _ _ => .pure _) fun name => ?_
    refine .bind (fun _ => .expectEndOfLine _) (.expectEndOfLine keyword) ?_ fun _ _ => .pure _
    rintro _ rfl
    exact .pure ⟨_, _, rfl⟩
  · intro t none
    cases t with
    | none => exact .pure _
    | some t => exact absurd rfl none

theorem broken_still {g : Option (Location × Bytes × Bool) → Reader α} (missing : Still (g none))
    (cut : ∀ l x, Still (g (some (l, x, false)))) :
    ∀ o, (¬ ∃ l x, o = some (l, x, true)) → Still (g o) := by
  intro o broken
  match o with
  | none => exact missing
  | some (l, x, true) => exact absurd ⟨l, x, rfl⟩ broken
  | some (l, x, false) => exact cut l x

theorem openFile_finishes {keyword : Bytes} {g : Bool → Reader (Option α)}
    (yes : Finishes 1 (g true)) (no : ∀ n, Climbs n 0 0 0 Everywhere (g false)) :
    Finishes 0 (openFile keyword >>= g) := by
  unfold openFile
  simp only [bind_assoc]
  refine .bind (e := 0) (fun _ => .skipNewlines) fun _ => .skip?_indent ?_ ?_
  · simpa using yes
  · simp only [Bool.false_eq_true, if_false, bind_assoc, pure_bind]
    exact .still .beginLine fun _ =>
      .of_blames (fun n => .still (.expectedBlock _) fun _ => no n) (.expectedBlock _ no)

theorem building_finishes : Finishes 0 building := by
  refine .blaming (header_level (by decide) _) (header_blames (by decide) _) ?_ ?_
  · rintro _ ⟨l, x, rfl⟩
    refine openFile_finishes ?_ fun _ => .pure _
    refine .bind (e := 0) (fun _ => openBlock_climbs) fun body => ?_
    refine .bind (e := 0) (fun _ => .skipNewlines) fun _ => ?_
    refine .check_end (fun n => ?_) ?_
    · refine .still .beginLine fun _ => .still (.peekAt 0) fun t => ?_
      exact .still (.unexpected _) fun _ => .pure _
    · refine .still .beginLine fun _ => .still (.peekAt 0) fun t => ?_
      exact .unexpected _ fun _ => .pure _
  · exact broken_still (.pure _) fun _ _ => .pure _

end Routine.Parser

namespace Parsed

/-- A building that is read without a report: there is one, its file has been read to the end, and
nothing is wrong anywhere in the file. -/
theorem building_whole (file : Nat) (source : Bytes)
    (silent : (Parsed.building file source).reports = []) :
    (Parsed.building file source).result.isSome = true ∧
    (∃ e, (Routine.Parser.building (start file source)).2.tokens = [e] ∧ e.kind = .endOfFile) ∧
    (TokenStream.ofSource file source).reports = [] := by
  unfold Parsed.building at silent ⊢
  rw [run_eq] at silent ⊢
  have same := (Cursor.tokens_hear (Cursor.ofStream (TokenStream.ofSource file source)) 1)
  have closes : Closes 0 (start file source).tokens :=
    (same ▸ TokenStream.closes_ofSource file source :)
  obtain ⟨grows, ends⟩ := Routine.Parser.building_finishes closes
  obtain ⟨some, e, rest, last⟩ := ends silent
  refine ⟨some, ⟨e, by rw [Cursor.tokens, rest]; rfl, last⟩, ?_⟩
  have faults : (start file source).faults = (TokenStream.ofSource file source).reports.length :=
    (Cursor.faults_hear _ 1).trans (Nat.zero_add _)
  have none : (Routine.Parser.building (start file source)).2.faults = 0 := by
    rw [Cursor.faults, rest]
    exact congrArg (fun rs => List.length rs + 0) silent
  have less := grows.faults
  rw [faults, none] at less
  exact List.length_eq_zero_iff.1 (Nat.le_zero.1 less)

theorem building_whole_note :
    let source : Bytes := "building: demo\n    display 1\n\nnote block:\nthe end\nend note\n"
    (Parsed.building 0 source).reports = [] ∧ (TokenStream.ofSource 0 source).reports = [] ∧
      ∃ e, (Routine.Parser.building (start 0 source)).2.tokens = [e] ∧ e.kind = .endOfFile := by
  intro source
  have silent : (Parsed.building 0 source).reports = [] := by decide +kernel
  obtain ⟨-, ends, none⟩ := building_whole 0 source silent
  exact ⟨silent, none, ends⟩

/-- Floors and steps are not read to the end of the file: behind the block under the first line
there may be another definition, or a tab, and nothing is reported. -/
theorem floor_and_step_unread :
    let lines : Bytes := "floor: math\n    step: a\nstep: b\n"
    let whole : Bytes := "step: a\n    belongs to: math\n    do:\n        exit\ndisplay\t1\n"
    ((Parsed.floor 0 lines).reports = [] ∧ (Parsed.floor 0 lines).result.isSome = true ∧
      (Routine.Parser.floor (start 0 lines)).2.tokens.map (·.kind) =
        [.step, .name, .newline, .endOfFile]) ∧
    (Parsed.step 0 whole).reports = [] ∧ (Parsed.step 0 whole).result.isSome = true ∧
      (TokenStream.ofSource 0 whole).reports ≠ [] := by
  decide +kernel

end Parsed

end StepsLang
