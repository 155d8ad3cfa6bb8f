import StepsLang.Parse
import StepsLang.Proofs.Recovery.Faults
import StepsLang.Proofs.Recovery.Statement

namespace StepsLang

namespace Reader

theorem atMost_length (p : Reader (Option α)) {bound : List β} {bound' : List γ}
    (h : bound.length = bound'.length) : atMost p bound = atMost p bound' := by
  induction bound generalizing bound' with
  | nil =>
    cases bound' with
    | nil => rfl
    | cons _ _ => cases h
  | cons _ bound ih =>
    cases bound' with
    | nil => cases h
    | cons _ bound' => rw [atMost, atMost, ih (Nat.succ.inj h)]

theorem many_take {p : Reader (Option α)} {a : α} {c d : Cursor} (h : p c = (some a, d))
    (less : d.rest.length + 1 = c.rest.length) : many p c = (a :: (many p d).1, (many p d).2) := by
  obtain ⟨x, rest, e⟩ := List.exists_cons_of_length_eq_add_one less.symm
  have bound : atMost p rest = atMost p d.rest :=
    atMost_length p (by rw [e, List.length_cons] at less; omega)
  change atMost p c.rest c = _
  rw [e, atMost, bind_run, h, bound]
  rfl

theorem skipNewlines_take {t : Token} {c d : Cursor} (h : take? .newline c = (some t, d))
    (less : d.rest.length + 1 = c.rest.length) : skipNewlines c = skipNewlines d := by
  change ((), (many (take? .newline) c).2) = ((), (many (take? .newline) d).2)
  rw [many_take h less]

end Reader

namespace Statement.Parser
open Reader Tandem

def round : Reader (Option (List Statement)) := do
  skipNewlines
  if ← check .endOfFile then return none
  else if ← skip? .dedent then return some []
  else return some (← statement).toList

theorem statements_eq : statements = (do let parts ← many round; return parts.flatten) := rfl

inductive Rounds : List (List Statement) → Cursor → Cursor → Prop
  | refl (c : Cursor) : Rounds [] c c
  | line {ps : List (List Statement)} {c d e : Cursor} (same : round c = round d)
      (more : Rounds ps d e) : Rounds ps c e
  | take {p : List Statement} {ps : List (List Statement)} {c d e : Cursor}
      (first : round c = (some p, d)) (more : Rounds ps d e) : Rounds (p :: ps) c e

theorem Rounds.trans {ps qs : List (List Statement)} {c d e : Cursor} (h : Rounds ps c d)
    (h' : Rounds qs d e) : Rounds (ps ++ qs) c e := by
  induction h with
  | refl => exact h'
  | line same _ ih => exact .line same (ih h')
  | take first _ ih => exact .take first (ih h')

theorem Rounds.atMost {ps : List (List Statement)} {c d e : Cursor} (h : Rounds ps c d)
    (last : round d = (none, e)) {bound : List β} (hb : ps.length < bound.length) :
    Reader.atMost round bound c = (ps, e) := by
  induction h generalizing bound with
  | refl =>
    obtain ⟨_, _, rfl⟩ := List.exists_cons_of_length_pos hb
    rw [Reader.atMost, bind_run, last]
    rfl
  | line same _ ih =>
    obtain ⟨_, _, rfl⟩ := List.exists_cons_of_length_pos (Nat.zero_lt_of_lt hb)
    rw [Reader.atMost, bind_run, same]
    exact ih last hb
  | take first _ ih =>
    obtain ⟨_, bound, rfl⟩ := List.exists_cons_of_length_pos (Nat.zero_lt_of_lt hb)
    rw [Reader.atMost, bind_run, first]
    dsimp only
    rw [bind_run, ih last (Nat.lt_of_succ_lt_succ hb)]
    rfl

section Tandems

variable {T : Tandem} {n : Nat} {x : Place} {t : Token} {zs ts : List Token} {c e : Cursor}

theorem skipNewlines_ahead (ht : t.kind ≠ .newline) :
    T.Moves n (fun _ => 0) (Ahead x (t :: ts)) Eq (fun _ => Ahead x (t :: ts)) skipNewlines
      skipNewlines := by
  unfold skipNewlines
  refine .discard (.many (r := fun _ _ => True) (R := Ahead x (t :: ts)) ?_) fun _ => Nat.le_refl 0
  unfold Reader.take?
  refine .check_ahead ?_
  rw [beq_false_of_ne ht]
  exact .pure .none rfl fun _ _ h => h

theorem opens_of_kind {k : Kind} (h : k.isContent = true ∨ k = .indent) :
    k ≠ .newline ∧ k ≠ .endOfFile ∧ k ≠ .dedent := by
  rcases h with h | rfl
  · exact ⟨Place.ne_of_content h rfl, Place.ne_of_content h rfl, Place.ne_of_content h rfl⟩
  · decide

theorem round_opening (hT : T.BeginsLines) :
    T.Moves n (fun _ => 1) (Opening 0) (Option.Rel (AgreeAll T))
      (fun o x zs => o.isSome = true ∧ Outside 0 x zs) round round := by
  refine .of_ahead (G := fun x t => Margin 0 x ∧ (t.kind.isContent = true ∨ t.kind = .indent))
    fun x t y ⟨hx, ht⟩ _ => ?_
  obtain ⟨line, last, block⟩ := opens_of_kind ht
  unfold round
  refine .bind (skipNewlines_ahead line) fun _ _ _ => .check_ahead ?_
  rw [beq_false_of_ne last, if_neg (by decide)]
  refine .skip_ahead_not block ?_
  refine .bind ((statement_lines hT 0).pre fun y zs h => ?_) fun a b same => ?_
  · obtain ⟨rfl, more⟩ := h
    exact ⟨t, ⟨hx, ht⟩, more⟩
  · subst same
    refine .pure (.some ?_) rfl fun y zs h => ⟨rfl, h⟩
    cases a with
    | none => exact .nil
    | some a => exact .cons rfl .nil

theorem round_line {a : Token} {c d : Cursor} (h : take? .newline c = (some a, d))
    (less : d.rest.length + 1 = c.rest.length) : round c = round d := by
  obtain ⟨g, split⟩ : ∃ g, round = skipNewlines >>= g := ⟨_, rfl⟩
  rw [split, bind_run, bind_run, skipNewlines_take h less]

theorem line_beside {t : Token} (h : T.Beside x (t :: zs) c e) (hx : Outside 0 x (t :: zs))
    (line : t.kind = .newline) : ∃ y c' e', round c = round c' ∧ round e = round e' ∧
      Outside 0 y zs ∧ T.Beside y zs c' e' := by
  obtain ⟨y, one, -⟩ := h.next
  have fresh : y = ⟨x.depth, .fresh⟩ := Place.next_newline (line ▸ one)
  obtain ⟨z, us, ⟨left, right⟩, ⟨hz, ahead⟩, less, there⟩ :=
    Moves.take_ahead (n := (t :: zs).length + 1) one (Nat.lt_succ_self _)
      ⟨rfl, List.prefix_refl (t :: zs)⟩ h
  obtain rfl : zs = us := ahead.eq_of_length_le (Nat.le_of_succ_le_succ less)
  rw [line] at left right there
  obtain ⟨a, ha⟩ := Option.isSome_iff_exists.1 left
  obtain ⟨b, hb⟩ := Option.isSome_iff_exists.1 right
  refine ⟨z, _, _, round_line (Prod.ext ha rfl) ?_, round_line (Prod.ext hb rfl) ?_, ?_, there⟩
  · rw [h.length_left, there.length_left, List.length_cons, Nat.add_right_comm]
  · rw [h.length_right, there.length_right, List.length_cons, Nat.add_right_comm]
  · rw [hz, fresh]
    exact ⟨hx.1, .inl rfl⟩

theorem round_beside {t : Token} (hT : T.BeginsLines) (h : T.Beside x (t :: zs) c e)
    (hx : Outside 0 x (t :: zs)) (line : t.kind ≠ .newline) :
    ∃ p q y us c' e', round c = (some p, c') ∧ round e = (some q, e') ∧ AgreeAll T p q ∧
      us.length < (t :: zs).length ∧ Outside 0 y us ∧ T.Beside y us c' e' := by
  obtain ⟨y, one, -⟩ := h.next
  have opens := Place.next_opens line (Place.ne_dedent hx.1 one) one
  obtain ⟨y, us, agree, ⟨some, out⟩, took, there⟩ :=
    round_opening hT (n := (t :: zs).length + 1) (Nat.lt_succ_self _)
      ⟨t, ⟨⟨hx.1, hx.not_inside⟩, opens⟩, zs, rfl⟩ h
  obtain ⟨p, hp⟩ := Option.isSome_iff_exists.1 some
  rw [hp] at agree
  cases hq : (round e).1 with
  | none =>
    rw [hq] at agree
    cases agree
  | some q =>
    rw [hq] at agree
    exact ⟨p, q, y, us, _, _, Prod.ext hp rfl, Prod.ext hq rfl, Option.rel_some_some.1 agree,
      took, out, there⟩

theorem rounds_beside (hT : T.BeginsLines) (h : T.Beside x zs c e) (hx : Outside 0 x zs) :
    ∃ ps qs c' e', Rounds ps c c' ∧ Rounds qs e e' ∧ List.Forall₂ (AgreeAll T) ps qs ∧
      ps.length ≤ zs.length ∧ T.Beside ⟨0, T.finish⟩ [] c' e' := by
  induction k : zs.length using Nat.strong_induction_on generalizing x zs c e with
  | _ k ih =>
    subst k
    cases zs with
    | nil =>
      obtain rfl := h.not_inside
      exact ⟨[], [], c, e, .refl c, .refl e, .nil, Nat.le_refl 0, h⟩
    | cons t zs =>
      by_cases line : t.kind = .newline
      · obtain ⟨y, c₁, e₁, left, right, out, there⟩ := line_beside h hx line
        obtain ⟨ps, qs, c', e', mine, other, agrees, count, last⟩ :=
          ih zs.length (Nat.lt_succ_self _) there out rfl
        exact ⟨ps, qs, c', e', .line left mine, .line right other, agrees,
          Nat.le_succ_of_le count, last⟩
      · obtain ⟨p, q, y, us, c₁, e₁, left, right, agree, took, out, there⟩ :=
          round_beside hT h hx line
        obtain ⟨ps, qs, c', e', mine, other, agrees, count, last⟩ :=
          ih us.length took there out rfl
        exact ⟨p :: ps, q :: qs, c', e', .take left mine, .take right other,
          .cons agree agrees, Nat.lt_of_le_of_lt count took, last⟩

end Tandems

theorem check_run {c : Cursor} {t : Token} {ts : List Token} (h : c.rest.map (·.token) = t :: ts)
    (k : Kind) : check k c = (t.kind == k, c.hear 1) := by
  have peeked : (peek c).1 = t := by
    rw [peek, peekAt_eq, h]
    rfl
  exact congrArg (fun t : Token => (t.kind == k, c.hear 1)) peeked

theorem skipNewlines_run {c : Cursor} {t : Token} {ts : List Token}
    (h : c.rest.map (·.token) = t :: ts) (ht : t.kind ≠ .newline) :
    skipNewlines c = ((), c.hear 1) := by
  obtain ⟨x, rest, hx, -, -⟩ := List.map_eq_cons_iff.1 h
  change ((), (Reader.atMost (take? .newline) c.rest c).2) = _
  rw [hx, Reader.atMost, bind_run, take?, bind_run, check_run h, beq_false_of_ne ht]
  rfl

theorem round_last {c : Cursor} {e : Token} (h : c.rest.map (·.token) = [e])
    (he : e.kind = .endOfFile) : round c = (none, c.hear 1) := by
  have again : (c.hear 1).rest.map (·.token) = [e] := (Cursor.tokens_hear c 1).trans h
  rw [round, bind_run, skipNewlines_run h (by rw [he]; decide), bind_run, check_run again, he,
    Cursor.hear_hear]
  rfl

theorem statements_of_rounds {ps : List (List Statement)} {c d e : Cursor} (h : Rounds ps c d)
    (last : round d = (none, e)) (hb : ps.length < c.rest.length) :
    statements c = (ps.flatten, e) := by
  rw [statements_eq]
  change ((atMost round c.rest c).1.flatten, (atMost round c.rest c).2) = _
  rw [h.atMost last hb]

end Statement.Parser

end StepsLang
