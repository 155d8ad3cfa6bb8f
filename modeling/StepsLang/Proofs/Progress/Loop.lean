import StepsLang.Proofs.Parse.Expression
import StepsLang.Proofs.Recovery.Naming
import StepsLang.Proofs.Recovery.Rounds

/-! The loops of the grammar.  A loop is bounded by the tokens that are left, and here it is shown
that the bound is never what ends it: each round but the last takes a token, whatever the tokens
are, and the last one ends the loop of its own accord. -/

namespace StepsLang
open Reader
open Tandem (taken)

/-- Wherever in a text the next tokens are in `P`, a reader goes on to what is left of the same
text; how many tokens it takes at least is known from what it gives. -/
def Goes (j : α → Nat) (P : List Token → Prop) (p : Reader α) : Prop :=
  ∀ ⦃c d⦄, P c.tokens → Closes d c.tokens →
    ∃ ts e, c.tokens = ts ++ (p c).2.tokens ∧ j (p c).1 ≤ ts.length ∧ Closes e (p c).2.tokens

def ifSo (b : Bool) : Nat := if b then 1 else 0

theorem taken_le : ∀ a : Option α, taken a ≤ 1
  | none => Nat.zero_le 1
  | some _ => Nat.le_refl 1

theorem ifSo_le : ∀ b : Bool, ifSo b ≤ 1
  | false => Nat.zero_le 1
  | true => Nat.le_refl 1

theorem peek_first {c : Cursor} {d : Nat} (closes : Closes d c.tokens) :
    First (· = (Reader.peek c).1.kind) c.tokens := by
  obtain ⟨t, us, here⟩ := closes.exists_cons
  have same : (Reader.peek c).1 = t := by
    rw [Reader.peek, Tandem.peekAt_eq, show c.rest.map (·.token) = t :: us from here]
    rfl
  exact ⟨t, us, here, congrArg Token.kind same.symm⟩

namespace Goes

variable {i : β → Nat} {j : α → Nat} {P Q : List Token → Prop} {p : Reader β} {g : β → Reader α}

theorem of_climbs {j e : Nat} {p : Reader α} (h : ∀ n, Climbs n j 0 e P p) :
    Goes (fun _ => j) P p := by
  intro c d hP closes
  obtain ⟨-, ts, here, -, took, there⟩ :=
    h c.rest.length (k := d) (Nat.le_refl _) hP (by rwa [Nat.zero_add])
  exact ⟨ts, e + d, here, took, there⟩

theorem of_level {p : Reader α} (h : Level p) : Goes (fun _ => 0) P p :=
  of_climbs fun n => (h n).anywhere

theorem pure {a : α} (h : j a = 0) : Goes j P (Pure.pure a) :=
  fun _ d _ closes => ⟨[], d, rfl, Nat.le_of_eq h, closes⟩

theorem bind (one : Goes i P p) (two : ∀ b, Goes (fun a => j a - i b) Everywhere (g b)) :
    Goes j P (p >>= g) := by
  intro c d hP closes
  obtain ⟨ts, e, here, took, mid⟩ := one hP closes
  obtain ⟨us, f, there, more, last⟩ := two (p c).1 trivial mid
  refine ⟨ts ++ us, f, ?_, ?_, last⟩
  · rw [here, there, List.append_assoc]
    rfl
  · rw [List.length_append]
    exact Nat.le_trans (Nat.sub_le_iff_le_add'.1 more) (Nat.add_le_add_right took _)

theorem discard {k : Nat} {p : Reader α} (h : Goes (fun _ => k) P p) :
    Goes (fun _ => k) P (Functor.discard p) := h

theorem weaken {i : α → Nat} {p : Reader α} (h : Goes j P p) (hj : ∀ a, i a ≤ j a)
    (hQ : ∀ ts, Q ts → P ts) : Goes i Q p := by
  intro c d hc closes
  obtain ⟨ts, e, here, took, there⟩ := h (hQ _ hc) closes
  exact ⟨ts, e, here, Nat.le_trans (hj _) took, there⟩

theorem pre {p : Reader α} (h : Goes j P p) (hQ : ∀ ts, Q ts → P ts) : Goes j Q p :=
  h.weaken (fun _ => Nat.le_refl _) hQ

theorem andThen {i : β → Nat} (one : Goes i P p) (two : ∀ b, Goes j Everywhere (g b)) :
    Goes j P (p >>= g) :=
  bind (one.weaken (fun _ => Nat.zero_le _) fun _ h => h) two

theorem enough {k : Nat} (one : Goes (fun _ => k) P p) (hj : ∀ a, j a ≤ k)
    (two : ∀ b, Goes (fun _ => 0) Everywhere (g b)) : Goes j P (p >>= g) := by
  refine bind one fun b => (two b).weaken (fun a => ?_) fun _ h => h
  exact Nat.le_of_eq (Nat.sub_eq_zero_of_le (hj a))

theorem still (one : Still p) (two : ∀ b, Goes j P (g b)) : Goes j P (p >>= g) := by
  intro c d hP closes
  have same := one.tokens c
  obtain ⟨ts, e, there, rest⟩ := two (p c).1 (c := (p c).2) (same ▸ hP) (same ▸ closes)
  exact ⟨ts, e, same ▸ there, rest⟩

theorem peek {g : Token → Reader α}
    (two : ∀ t, Goes j (fun ts => P ts ∧ First (· = t.kind) ts) (g t)) :
    Goes j P (Reader.peek >>= g) := by
  intro c d hP closes
  have first := peek_first closes
  exact still (Still.peekAt 0) (g := fun _ => g (Reader.peek c).1) (fun _ => two _) ⟨hP, first⟩
    closes

theorem check {k : Kind} {g : Bool → Reader α}
    (yes : Goes j (fun ts => P ts ∧ First (· = k) ts) (g true))
    (no : Goes j (fun ts => P ts ∧ First (· ≠ k) ts) (g false)) :
    Goes j P (Reader.check k >>= g) := by
  rw [Reader.check_bind]
  refine peek fun t => ?_
  cases same : t.kind == k with
  | true => exact yes.pre fun _ h => ⟨h.1, h.2.imp fun _ hk => hk.trans (eq_of_beq same)⟩
  | false =>
    have other : t.kind ≠ k := beq_eq_false_iff_ne.1 same
    exact no.pre fun _ h => ⟨h.1, h.2.imp fun _ hk => hk ▸ other⟩

theorem advance (hP : ∀ ts, P ts → First (· ≠ .endOfFile) ts) :
    Goes (fun _ => 1) P Reader.advance := by
  intro c d hc closes
  obtain ⟨t, us, here, inner⟩ := hP _ hc
  rw [here] at closes
  obtain ⟨e, -, rest⟩ := closes.tail inner
  have there : (Reader.advance c).2.tokens = us := by
    obtain ⟨u, vs, rfl⟩ := rest.exists_cons
    exact Cursor.tokens_advance inner (List.cons_ne_nil u vs)
      (((Still.peekAt 0).tokens c).trans here)
  exact ⟨[t], e, by rw [here, there]; rfl, Nat.le_refl 1, there ▸ rest⟩

theorem advance_at {k : Kind} (hk : k ≠ .endOfFile) :
    Goes (fun _ => 1) (fun ts => P ts ∧ First (· = k) ts) Reader.advance :=
  advance fun _ h => h.2.imp fun _ same => same ▸ hk

theorem advance_any : Goes (fun _ => 0) P Reader.advance := by
  intro c d hc closes
  obtain ⟨t, us, here⟩ := closes.exists_cons
  by_cases ends : t.kind = .endOfFile
  · obtain ⟨-, rfl⟩ := (here ▸ closes).last ends
    have single : ((c.hear 1).rest.map (·.token)).length = 1 := by
      rw [Cursor.tokens_hear]
      exact congrArg List.length here
    have same : (Reader.advance c).2.tokens = c.tokens := by
      change (c.hear 1).advance.tokens = _
      have stays : (c.hear 1).advance = c.hear 1 := by
        unfold Cursor.advance
        split
        · next two =>
          rw [two] at single
          simp at single
        · rfl
      rw [stays]
      exact Cursor.tokens_hear c 1
    exact ⟨[], d, same.symm, Nat.le_refl 0, same ▸ closes⟩
  · exact (advance (P := First (· ≠ .endOfFile)) fun _ h => h).weaken (fun _ => Nat.zero_le 1)
      (fun _ h => h) ⟨t, us, here, ends⟩ closes

theorem take? {k : Kind} (hk : k ≠ .endOfFile) : Goes taken P (Reader.take? k) := by
  unfold Reader.take?
  refine check ?_ (pure rfl)
  exact enough (advance_at hk) taken_le fun _ => pure rfl

theorem skip? {k : Kind} (hk : k ≠ .endOfFile) : Goes ifSo P (Reader.skip? k) := by
  refine bind (take? hk) fun t => pure ?_
  cases t <;> rfl

theorem expect {k : Kind} (hk : k ≠ .endOfFile) (what : Bytes) :
    Goes taken P (Reader.expect k what) := by
  refine bind (take? hk) fun t => ?_
  cases t with
  | some t => exact pure rfl
  | none => exact still (Still.expected what) fun _ => pure rfl

theorem discard_expect {k : Kind} (hk : k ≠ .endOfFile) (what : Bytes) :
    Goes (fun _ => 0) P (Functor.discard (Reader.expect k what)) :=
  (expect hk what).weaken (fun _ => Nat.zero_le _) fun _ h => h

theorem expectName : Goes taken P Reader.expectName := by
  refine bind (take? (by decide)) fun t => ?_
  cases t with
  | some t => exact pure rfl
  | none => exact still (Still.peekAt 0) fun t => still (Still.report _) fun _ => pure rfl

theorem skipNewlines : Goes (fun _ => 0) P Reader.skipNewlines :=
  of_climbs fun _ => .skipNewlines

theorem expectEndOfLine (what : Bytes) : Goes (fun _ => 0) P (Reader.expectEndOfLine what) :=
  of_climbs fun _ => .expectEndOfLine what

theorem atBlockEnd {g : Bool → Reader α} (yes : Goes j P (g true))
    (no : Goes j (fun ts => P ts ∧ First Climbs.Passed ts) (g false)) :
    Goes j P (Reader.atBlockEnd >>= g) := by
  unfold Reader.atBlockEnd
  rw [bind_assoc]
  refine check ?_ ?_ <;> rw [bind_assoc]
  · refine still (Still.check .endOfFile) fun b => ?_
    rw [pure_bind, Bool.true_or]
    exact yes.pre fun _ h => h.1
  · refine check ?_ ?_ <;> rw [pure_bind]
    · exact yes.pre fun _ h => h.1.1
    · refine no.pre fun ts h => ⟨h.1.1, ?_⟩
      obtain ⟨t, us, here, block⟩ := h.1.2
      obtain ⟨_, _, same, file⟩ := h.2
      cases here.symm.trans same
      exact ⟨t, us, here, block, file⟩

end Goes

/-- The rounds of a loop that nothing bounds. Each round that gives something leaves fewer tokens of
the same text, and the loop ends with the round that gives nothing. -/
inductive Repeats (p : Reader (Option α)) : Cursor → List α → Cursor → Prop
  | last {c d : Cursor} (stop : p c = (none, d)) : Repeats p c [] d
  | next {c d e : Cursor} {a : α} {as : List α} (round : p c = (some a, d))
    (ahead : ∃ ts, ts ≠ [] ∧ c.tokens = ts ++ d.tokens) (more : Repeats p d as e) :
    Repeats p c (a :: as) e

/-- From `c` the loop comes to its end, whatever its bound, as long as that is not below the number
of tokens that are left. -/
def Subsides (p : Reader (Option α)) (c : Cursor) : Prop :=
  ∀ bound : List Heard, c.rest.length ≤ bound.length →
    Repeats p c (atMost p bound c).1 (atMost p bound c).2

theorem Goes.subsides {p : Reader (Option α)} (h : Goes taken Everywhere p) {c : Cursor} {d : Nat}
    (closes : Closes d c.tokens) : Subsides p c := by
  intro bound enough
  induction bound generalizing c d with
  | nil =>
    obtain ⟨t, us, here⟩ := closes.exists_cons
    have none := List.eq_nil_of_length_eq_zero (Nat.le_zero.1 enough)
    rw [Cursor.tokens, none] at here
    cases here
  | cons x bound ih =>
    obtain ⟨ts, e, here, took, rest⟩ := h trivial closes
    cases given : (p c).1 with
    | none =>
      have stop : atMost p (x :: bound) c = ([], (p c).2) := by
        rw [atMost, bind_run, given]
        rfl
      rw [stop]
      exact .last (Prod.ext given rfl)
    | some a =>
      rw [given] at took
      have filled : ts ≠ [] := List.ne_nil_of_length_pos took
      have count := congrArg List.length here
      simp only [List.length_append, List.length_map] at count
      have next := ih rest (by
        have : 1 ≤ ts.length := took
        rw [List.length_cons] at enough
        omega)
      have goes : atMost p (x :: bound) c =
          (a :: (atMost p bound (p c).2).1, (atMost p bound (p c).2).2) := by
        rw [atMost, bind_run, given]
        rfl
      rw [goes]
      exact .next (Prod.ext given rfl) ⟨ts, filled, here⟩ next

namespace Expression.Parser

variable {inner : Reader Expression}

def operation (operator? : Location → Kind → Option (Expression → Expression → Expression))
    (operand : Reader Expression) :
    Reader (Option ((Expression → Expression → Expression) × Expression)) := do
  let t ← peek
  match operator? t.location t.kind with
  | none => return none
  | some make =>
    discard advance
    return some (make, ← operand)

theorem leftAssociative_eq
    (operator? : Location → Kind → Option (Expression → Expression → Expression))
    (operand : Reader Expression) : leftAssociative operator? operand = (do
      let first ← operand
      let more ← many (operation operator? operand)
      return more.foldl (fun left (make, right) => make left right) first) := rfl

theorem operation_goes
    {operator? : Location → Kind → Option (Expression → Expression → Expression)}
    {operand : Reader Expression} (ho : Operators operator?) (h : Level operand) :
    Goes taken Everywhere (operation operator? operand) := by
  refine .peek fun t => ?_
  cases e : operator? t.location t.kind with
  | none => exact .pure rfl
  | some make =>
    have inside : t.kind ≠ .endOfFile := fun ends => ho _ _ _ e (by simp [ends])
    refine .enough (k := 1) (Goes.advance_at inside) taken_le fun _ => ?_
    exact .andThen (.of_level h) fun _ => .pure rfl

theorem nextElement_goes {element : Reader α} (h : Level element) :
    Goes taken Everywhere (nextElement element) := by
  refine .bind (.skip? (by decide)) fun b => ?_
  cases b with
  | false => exact .pure rfl
  | true =>
    refine .still (.check _) fun b => ?_
    cases b with
    | true => exact .pure rfl
    | false => exact .andThen (.of_level h) fun _ => .pure rfl

theorem entry_level (h : Level inner) : Level (entry inner) :=
  h.bind fun _ _ => .discard_expect (by decide) ((h.bind fun _ _ => .pure _) _)

theorem decimalPlaces_goes : Goes ifSo (First (· = .as)) decimalPlaces := by
  unfold decimalPlaces
  refine .still (.peekAt 1) fun next => ?_
  split
  · refine .still (.bind (.peekAt 2) fun _ => .pure _) fun paren => ?_
    split
    · refine .enough (k := 1) (.discard (.advance fun _ h => h.imp fun _ same => same ▸ by decide))
        ifSo_le fun _ => ?_
      exact .andThen (.discard .advance_any) fun _ => .andThen (.discard .advance_any) fun _ =>
        .pure rfl
    · exact .pure rfl
  · exact .pure rfl

theorem trailer_goes (h : Level inner) : Goes taken Everywhere (trailer inner) := by
  refine .peek fun t => ?_
  split
  · next kind =>
    rw [kind]
    refine .enough (k := 1) (.discard (.advance_at (by decide))) taken_le fun _ => ?_
    exact .andThen (.of_level h) fun _ =>
      .andThen (.discard_expect (by decide) _) fun _ => .pure rfl
  · next kind =>
    rw [kind]
    refine .bind (decimalPlaces_goes.pre fun _ h => h.2) fun places => ?_
    cases places with
    | true =>
      exact .andThen (.of_level h) fun _ =>
        .andThen (.discard_expect (by decide) _) fun _ => .pure rfl
    | false =>
      refine .andThen (.discard .advance_any) fun _ => .peek fun u => ?_
      split
      case h_4 => exact .still (.expected _) fun _ => .pure rfl
      all_goals
        next kind =>
        rw [kind]
        exact .enough (k := 1) (.discard (.advance_at (by decide))) taken_le fun _ => .pure rfl
  · exact .pure rfl

theorem leader_goes (h : Level inner) : Goes taken Everywhere (leader inner) := by
  refine .peek fun t => ?_
  split
  case h_4 kind =>
    rw [kind]
    refine .enough (k := 1) (.discard (.advance_at (by decide))) taken_le fun _ => ?_
    exact .andThen (.of_level (trailed_level h)) fun _ =>
      .andThen (.discard_expect (by decide) _) fun _ => .pure rfl
  case h_5 => exact .pure rfl
  all_goals
    next kind =>
    rw [kind]
    exact .enough (k := 1) (.discard (.advance_at (by decide))) taken_le fun _ => .pure rfl

end Expression.Parser

namespace Reader

def inBlock (line : Reader (List α)) : Reader (Option (List α)) := do
  skipNewlines
  if ← atBlockEnd then return none else return some (← line)

theorem lines_eq (line : Reader (List α)) : lines line = (do
    let parts ← many (inBlock line)
    discard (take? .dedent)
    return parts.flatten) := rfl

theorem inBlock_goes {line : Reader (List α)} (h : ∀ n, Climbs n 1 0 0 (First Climbs.Passed) line) :
    Goes taken Everywhere (inBlock line) := by
  refine .andThen .skipNewlines fun _ => .atBlockEnd (.pure rfl) ?_
  exact .enough (k := 1) (.pre (.of_climbs h) fun _ h => h.2) taken_le fun _ => .pure rfl

end Reader

namespace Statement.Parser
open Expression.Parser

def nextArgument : Reader (Option Expression) := do
  if ← skip? .comma then return some (← expression) else return none

theorem nextArgument_goes : Goes taken Everywhere nextArgument := by
  refine .bind (.skip? (by decide)) fun comma => ?_
  cases comma with
  | false => exact .pure rfl
  | true => exact .andThen (.of_level expression_level) fun _ => .pure rfl

theorem block_level : Level (block statement keyword) :=
  fun n => block_climbs (n := n) (fun _ _ => statement_climbs lined) keyword (Nat.le_refl n)

theorem otherwiseIf_goes : Goes taken Everywhere (otherwiseIf statement) := by
  refine .check ?_ (.pure rfl)
  refine .still .beginLine fun _ => ?_
  refine .enough (k := 1) (.advance_at (by decide)) taken_le fun _ => ?_
  refine .andThen (.of_level expression_level) fun _ =>
    .andThen (.expectEndOfLine _) fun ended => ?_
  cases ended with
  | false => exact .pure rfl
  | true => exact .andThen (.of_level block_level) fun _ => .pure rfl

theorem round_goes : Goes taken Everywhere round := by
  refine .andThen .skipNewlines fun _ => .check (.pure rfl) ?_
  simp only [Bool.false_eq_true, if_false, Reader.skip?_bind, Reader.take?_bind]
  refine .check ?_ ?_
  · exact .enough (k := 1) (.advance_at (by decide)) taken_le fun _ => .pure rfl
  · have line : Goes (fun _ => 1) (First Climbs.Passed) statement :=
      .of_climbs fun _ => statement_climbs lined
    refine .enough (line.pre fun ts h => ?_) taken_le fun _ => .pure rfl
    obtain ⟨t, us, here, block⟩ := h.2
    obtain ⟨_, _, same, file⟩ := h.1.2
    cases here.symm.trans same
    exact ⟨t, us, here, block, file⟩

end Statement.Parser

namespace Routine.Parser
open Statement.Parser

theorem floorLine_climbs : Lined n floorLine := by
  refine .still .beginLine fun _ => .skip? (by decide) (line_ends _ _ _) ?_
  refine .take? (by decide) (fun step => ?_) ?_
  · refine (expectName_level fun name => ?_) _
    cases name with
    | none => exact fun _ => .andThen .resync fun _ => .pure _
    | some name => exact line_ends _ _
  · refine .still (.peekAt 0) fun t => .still (.unexpected _) fun _ => ?_
    exact .bind (.resync_due lined) fun _ => .pure _

end Routine.Parser

end StepsLang
