import StepsLang.Proofs.Progress.Loop

/-! The recursion of the grammar.  Brackets inside brackets and blocks inside blocks are read with
a bound on how deep they go, and so are the names of a list and the rest of a broken line.  Here it
is shown that these bounds are never felt: what is read inside is behind a token that is taken, and
a reader depends on the readers inside it at such places only. -/

namespace StepsLang
open Reader
open Tandem (taken)

/-- With at most `n` tokens left, the next of them in `P`, two readers do the same. -/
def Agrees (n : Nat) (P : List Token → Prop) (p q : Reader α) : Prop :=
  ∀ ⦃c d⦄, c.rest.length ≤ n → P c.tokens → Closes d c.tokens → p c = q c

namespace Agrees

variable {m n : Nat} {i : β → Nat} {P Q : List Token → Prop} {p q : Reader β}
  {g g' : β → Reader α}

theorem refl {p : Reader α} : Agrees n P p p := fun _ _ _ _ _ => rfl

theorem weaken {p q : Reader α} (h : Agrees n P p q) (hm : m ≤ n) (hQ : ∀ ts, Q ts → P ts) :
    Agrees m Q p q := fun _ _ less hc closes => h (Nat.le_trans less hm) (hQ _ hc) closes

theorem within {p q : Reader α} (h : Agrees n Everywhere p q) (hm : m ≤ n) : Agrees m P p q :=
  h.weaken hm fun _ _ => trivial

theorem exhausted {p q : Reader α} : Agrees 0 P p q := by
  intro c d none _ closes
  obtain ⟨t, us, here⟩ := closes.exists_cons
  rw [Cursor.tokens, List.eq_nil_of_length_eq_zero (Nat.le_zero.1 none)] at here
  cases here

theorem bind (one : Agrees n P p q) (goes : Goes i P q)
    (two : ∀ b, Agrees (n - i b) Everywhere (g b) (g' b)) : Agrees n P (p >>= g) (q >>= g') := by
  intro c d less hP closes
  obtain ⟨ts, e, here, took, rest⟩ := goes hP closes
  have count := congrArg List.length here
  simp only [List.length_append, List.length_map] at count
  rw [bind_run, bind_run, one less hP closes]
  exact two (q c).1 (by omega) trivial rest

theorem andThen (one : Agrees n P p q) (goes : Goes i P q)
    (two : ∀ b, Agrees n Everywhere (g b) (g' b)) : Agrees n P (p >>= g) (q >>= g') :=
  bind one (goes.weaken (fun _ => Nat.zero_le _) fun _ h => h) two

theorem behind (goes : Goes i P p) (two : ∀ b, Agrees (n - i b) Everywhere (g b) (g' b)) :
    Agrees n P (p >>= g) (p >>= g') := bind refl goes two

theorem same (goes : Goes i P p) (two : ∀ b, Agrees n Everywhere (g b) (g' b)) :
    Agrees n P (p >>= g) (p >>= g') := andThen refl goes two

theorem first (one : Agrees n P p q) : Agrees n P (p >>= g) (q >>= g) := by
  intro c d less hP closes
  rw [bind_run, bind_run, one less hP closes]

theorem still (one : Still p) (two : ∀ b, Agrees n P (g b) (g' b)) :
    Agrees n P (p >>= g) (p >>= g') := by
  intro c d less hP closes
  have tokens := one.tokens c
  have count := congrArg List.length tokens
  simp only [List.length_map] at count
  rw [bind_run, bind_run]
  exact two (p c).1 (count.symm ▸ less) (tokens.symm ▸ hP) (tokens.symm ▸ closes)

theorem peek {g g' : Token → Reader α}
    (two : ∀ t, Agrees n (fun ts => P ts ∧ First (· = t.kind) ts) (g t) (g' t)) :
    Agrees n P (Reader.peek >>= g) (Reader.peek >>= g') := by
  intro c d less hP closes
  have first := peek_first closes
  have same : Agrees n (fun ts => P ts ∧ First (· = (Reader.peek c).1.kind) ts)
      (Reader.peek >>= fun _ => g (Reader.peek c).1)
      (Reader.peek >>= fun _ => g' (Reader.peek c).1) := still (Still.peekAt 0) fun _ => two _
  exact same less ⟨hP, first⟩ closes

theorem discard_advance {k : Kind} (hk : k ≠ .endOfFile) {g g' : Unit → Reader α}
    (two : Agrees (n - 1) Everywhere (g ()) (g' ())) :
    Agrees n (fun ts => P ts ∧ First (· = k) ts) (Functor.discard Reader.advance >>= g)
      (Functor.discard Reader.advance >>= g') :=
  behind (i := fun _ => 1) (.discard (.advance_at hk)) fun _ => two

theorem ite {b : Bool} {p p' q q' : Reader α} (yes : Agrees n P p p') (no : Agrees n P q q') :
    Agrees n P (if b then p else q) (if b then p' else q') := by
  cases b with
  | true => exact yes
  | false => exact no

theorem map {p q : Reader β} (h : Agrees n P p q) (f : β → α) :
    Agrees n P (f <$> p) (f <$> q) := by
  intro c d less hP closes
  change (f (p c).1, (p c).2) = (f (q c).1, (q c).2)
  rw [h less hP closes]

theorem atMost {p q : Reader (Option α)} (h : Agrees n Everywhere p q)
    (goes : Goes taken Everywhere q) (bound : List γ) :
    Agrees n Everywhere (Reader.atMost p bound) (Reader.atMost q bound) := by
  induction bound with
  | nil => exact refl
  | cons x bound ih =>
    refine andThen h goes fun a => ?_
    cases a with
    | none => exact refl
    | some a => exact first ih

theorem many {p q : Reader (Option α)} (h : Agrees n Everywhere p q)
    (goes : Goes taken Everywhere q) :
    Agrees n Everywhere (Reader.many p) (Reader.many q) :=
  fun c _ less hP closes => atMost h goes c.rest less hP closes

theorem lines {line line' : Reader (List α)} (h : Agrees n Everywhere line line')
    (climbs : ∀ n, Climbs n 1 0 0 (First Climbs.Passed) line') :
    Agrees n Everywhere (Reader.lines line) (Reader.lines line') := by
  rw [lines_eq, lines_eq]
  refine first (many ?_ (inBlock_goes climbs))
  refine same .skipNewlines fun _ => still .atBlockEnd fun stop => ?_
  cases stop with
  | true => exact refl
  | false => exact first h

/-- A recursion whose depth is bounded. If a reader depends on the one inside it behind a token
only, then the bound does not matter, as long as it is not below the number of tokens. -/
theorem unbounded {F : Reader α → Reader α} {bounded : List Heard → Reader α} {rec : Reader α}
    (enter : ∀ x bound, bounded (x :: bound) = F (bounded bound))
    (whole : ∀ c : Cursor, rec c = bounded c.rest c)
    (inside : ∀ n inner, Agrees n Everywhere inner rec →
      Agrees (n + 1) Everywhere (F inner) (F rec)) (n : Nat) :
    (∀ bound : List Heard, n ≤ bound.length → Agrees n Everywhere (bounded bound) rec) ∧
      Agrees n Everywhere (F rec) rec := by
  induction n using Nat.strongRecOn with
  | ind n ih =>
    cases n with
    | zero => exact ⟨fun _ _ => exhausted, exhausted⟩
    | succ n =>
      have unfolds : Agrees (n + 1) Everywhere (F rec) rec := by
        intro c d less _ closes
        obtain ⟨t, us, here⟩ := closes.exists_cons
        obtain ⟨x, rest, e⟩ : ∃ x rest, c.rest = x :: rest := by
          cases e : c.rest with
          | nil => simp [Cursor.tokens, e] at here
          | cons x rest => exact ⟨x, rest, rfl⟩
        have short : rest.length ≤ n := by
          rw [e, List.length_cons] at less
          exact Nat.le_of_succ_le_succ less
        have deep := inside _ _ ((ih rest.length (Nat.lt_succ_of_le short)).1 rest (Nat.le_refl _))
        rw [whole, e, enter]
        exact (deep (by rw [e]; rfl) trivial closes).symm
      refine ⟨fun bound enough => ?_, unfolds⟩
      obtain ⟨x, bound, rfl⟩ := List.exists_cons_of_length_pos (Nat.zero_lt_of_lt enough)
      have deep := inside n _ ((ih n (Nat.lt_succ_self n)).1 bound (Nat.le_of_succ_le_succ enough))
      intro c d less hP closes
      rw [enter]
      exact (deep less hP closes).trans (unfolds less hP closes)

end Agrees

namespace Expression.Parser

theorem product_level {inner : Reader Expression} (h : Level inner) : Level (product inner) :=
  leftAssociative_level operators_product (led_level h)

theorem sum_level {inner : Reader Expression} (h : Level inner) : Level (sum inner) :=
  leftAssociative_level operators_sum (product_level h)

theorem conjunction_level {inner : Reader Expression} (h : Level inner) :
    Level (conjunction inner) :=
  leftAssociative_level operators_conjunction (negation_level h)

section

variable {n : Nat} {inner inner' : Reader Expression}

theorem leftAssociative_agrees
    {operator? : Location → Kind → Option (Expression → Expression → Expression)}
    {operand operand' : Reader Expression} (ho : Operators operator?) (level : Level operand')
    (h : Agrees n Everywhere operand operand') :
    Agrees n Everywhere (leftAssociative operator? operand)
      (leftAssociative operator? operand') := by
  rw [leftAssociative_eq, leftAssociative_eq]
  refine .andThen h (.of_level level) fun left => .first ?_
  refine .many ?_ (operation_goes ho level)
  refine .peek fun t => ?_
  cases operator? t.location t.kind with
  | none => exact .refl
  | some make => exact .same (.discard .advance_any) fun _ => .first (h.within (Nat.le_refl n))

theorem moreElements_agrees {element element' : Reader α} (level : Level element')
    (h : Agrees n Everywhere element element') :
    Agrees n Everywhere (moreElements element) (moreElements element') := by
  refine .many (p := nextElement element) ?_ (nextElement_goes level)
  refine .same (.skip? (by decide)) fun comma => ?_
  cases comma with
  | false => exact .refl
  | true =>
    refine .still (.check _) fun stop => ?_
    cases stop with
    | true => exact .refl
    | false => exact .first h

theorem trailer_agrees (h : Agrees n Everywhere inner inner') :
    Agrees (n + 1) Everywhere (trailer inner) (trailer inner') := by
  refine .peek fun t => ?_
  split
  · next kind =>
    rw [kind]
    exact .discard_advance (by decide) (.first h)
  · next kind =>
    rw [kind]
    refine .behind (decimalPlaces_goes.pre fun _ h => h.2) fun places => ?_
    cases places with
    | true => exact .first h
    | false => exact .refl
  · exact .refl

variable (level : Level inner') (h : Agrees n Everywhere inner inner')
include level h

theorem bracketed_agrees :
    Agrees (n + 1) (First (· = .leftBracket)) (bracketed inner) (bracketed inner') := by
  refine .behind (i := fun _ => 1) (.advance fun _ h => h.imp fun _ same => same ▸ by decide)
    fun t => ?_
  refine .same (.skip? (by decide)) fun none => ?_
  cases none with
  | true => exact .refl
  | false =>
    refine .same (.of_level emptyTable_level) fun none => ?_
    cases none with
    | true => exact .refl
    | false =>
      refine .andThen h (.of_level level) fun first => .same (.skip? (by decide)) fun colon => ?_
      cases colon with
      | true =>
        refine .andThen h (.of_level level) fun value => .first ?_
        refine moreElements_agrees (entry_level level) ?_
        refine .andThen h (.of_level level) fun key => ?_
        exact .same (.discard_expect (by decide) _) fun _ => .first h
      | false => exact .first (moreElements_agrees level h)

theorem primary_agrees : Agrees (n + 1) Everywhere (primary inner) (primary inner') := by
  refine .peek fun t => ?_
  split
  case h_8 kind =>
    exact (bracketed_agrees level h).weaken (Nat.le_refl _) fun _ h => kind ▸ h.2
  case h_9 kind =>
    rw [kind]
    exact .discard_advance (by decide) (.first h)
  all_goals exact .refl

theorem trailed_agrees : Agrees (n + 1) Everywhere (trailed inner) (trailed inner') :=
  .andThen (primary_agrees level h) (.of_level (primary_level level)) fun _ =>
    .first (.many (trailer_agrees h) (trailer_goes level))

theorem leader_agrees : Agrees (n + 1) Everywhere (leader inner) (leader inner') := by
  refine .peek fun t => ?_
  split
  case h_4 kind =>
    rw [kind]
    exact .discard_advance (by decide) (.first ((trailed_agrees level h).within (Nat.le_succ n)))
  all_goals exact .refl

theorem led_agrees : Agrees (n + 1) Everywhere (led inner) (led inner') :=
  .andThen (.many (leader_agrees level h) (leader_goes level))
    (.of_level (.many (leader_level level))) fun _ => .first (trailed_agrees level h)

theorem product_agrees : Agrees (n + 1) Everywhere (product inner) (product inner') :=
  leftAssociative_agrees operators_product (led_level level) (led_agrees level h)

theorem sum_agrees : Agrees (n + 1) Everywhere (sum inner) (sum inner') :=
  leftAssociative_agrees operators_sum (product_level level) (product_agrees level h)

theorem comparison_agrees : Agrees (n + 1) Everywhere (comparison inner) (comparison inner') := by
  refine .andThen (sum_agrees level h) (.of_level (sum_level level)) fun left => .peek fun t => ?_
  split
  · exact .same (.discard .advance_any) fun _ => .first (sum_agrees level h)
  · exact .refl
  · exact .refl

theorem disjunction_agrees :
    Agrees (n + 1) Everywhere (disjunction inner) (disjunction inner') := by
  refine leftAssociative_agrees operators_disjunction (conjunction_level level) ?_
  refine leftAssociative_agrees operators_conjunction (negation_level level) ?_
  exact .same (.of_level (.many (take?_level (by decide)))) fun _ =>
    .first (comparison_agrees level h)

end

theorem nested_agrees (n : Nat) :
    (∀ bound : List Heard, n ≤ bound.length → Agrees n Everywhere (nested bound) expression) ∧
      Agrees n Everywhere (disjunction expression) expression :=
  Agrees.unbounded (fun _ _ => rfl) (fun _ => rfl)
    (fun _ _ => disjunction_agrees expression_level) n

end Expression.Parser

namespace Statement.Parser
open Expression.Parser

section

variable {n : Nat} {inner : Inner} (h : Agrees n Everywhere inner statement)
include h

theorem block_agrees (keyword : Bytes) :
    Agrees n Everywhere (block inner keyword) (block statement keyword) := by
  unfold block
  refine .same .skipNewlines fun _ => .same (.skip? (by decide)) fun _ => .ite ?_ .refl
  exact .lines (h.map _) fun _ => (statement_climbs lined).map

theorem part_agrees (k : Kind) (keyword : Bytes) :
    Agrees n Everywhere (part inner k keyword) (part statement k keyword) := by
  unfold part
  refine .still (.check k) fun _ => .ite ?_ .refl
  refine .still .beginLine fun _ => .same (.discard .advance_any) fun _ => ?_
  exact .same (.expectEndOfLine _) fun _ => .ite (.first (block_agrees h keyword)) .refl

theorem otherwiseIf_agrees : Agrees n Everywhere (otherwiseIf inner) (otherwiseIf statement) := by
  unfold otherwiseIf
  refine .still (.check _) fun _ => .ite ?_ .refl
  refine .still .beginLine fun _ => .same .advance_any fun _ => ?_
  refine .same (.of_level expression_level) fun e => .same (.expectEndOfLine _) fun _ => ?_
  exact .ite (.first (block_agrees h _)) .refl

variable {k : Kind} (hk : k ≠ .endOfFile)
include hk

theorem branch_agrees : Agrees (n + 1) (First (· = k)) (branch inner) (branch statement) := by
  unfold branch
  refine .behind (i := fun _ => 1) (.advance fun _ h => h.imp fun _ same => same ▸ hk) fun t => ?_
  refine .same (.of_level expression_level) fun e => .same (.expectEndOfLine _) fun _ => ?_
  refine .ite .refl (.andThen (block_agrees h _) (.of_level block_level) fun body => ?_)
  have arms : Level (Reader.many (otherwiseIf statement)) :=
    .many fun n => otherwiseIf_climbs (fun _ _ => statement_climbs lined) (Nat.le_refl n)
  refine .andThen (.many (otherwiseIf_agrees h) otherwiseIf_goes) (.of_level arms) fun more => ?_
  exact .first (part_agrees h _ _)

theorem loop_agrees : Agrees (n + 1) (First (· = k)) (loop inner) (loop statement) := by
  unfold loop
  refine .behind (i := fun _ => 1) (.advance fun _ h => h.imp fun _ same => same ▸ hk) fun t => ?_
  refine .same (.skip? (by decide)) fun _ => .ite ?_ ?_
  · refine .same (.of_level item_level) fun name => ?_
    cases name with
    | none => exact .refl
    | some name =>
      refine .same (.of_level expression_level) fun e => .same (.expectEndOfLine _) fun _ => ?_
      exact .ite .refl (.first (block_agrees h _))
  · refine .same (.skip? (by decide)) fun _ => .ite ?_ ?_
    · refine .same (.of_level expression_level) fun e => .same (.expectEndOfLine _) fun _ => ?_
      exact .ite .refl (.first (block_agrees h _))
    · refine .same (.of_level expression_level) fun e =>
        .same (.expect (by decide) _) fun times => ?_
      cases times with
      | none => exact .refl
      | some times =>
        refine .same (.expectEndOfLine _) fun _ => ?_
        exact .ite .refl (.first (block_agrees h _))

theorem attempt_agrees : Agrees (n + 1) (First (· = k)) (attempt inner) (attempt statement) := by
  unfold attempt
  refine .behind (i := fun _ => 1) (.advance fun _ h => h.imp fun _ same => same ▸ hk) fun t => ?_
  refine .same (.expectEndOfLine _) fun _ => .ite .refl ?_
  refine .andThen (block_agrees h _) (.of_level block_level) fun body => ?_
  have next : Level (part statement .ifUnsuccessful "if unsuccessful:") := fun n =>
    part_climbs (fun _ _ => statement_climbs lined) _ (by decide) _ (Nat.le_refl n)
  refine .andThen (part_agrees h _ _) (.of_level next) fun unsuccessful => ?_
  exact .first (part_agrees h _ _)

omit hk in
theorem dispatch_agrees : Agrees (n + 1) Everywhere (dispatch inner) (dispatch statement) := by
  refine .still .beginLine fun _ => .peek fun t => ?_
  have word {p q : Reader (Option Statement)} (h : Agrees (n + 1) (First (· = t.kind)) p q) :
      Agrees (n + 1) (fun ts => Everywhere ts ∧ First (· = t.kind) ts) p q :=
    h.weaken (Nat.le_refl _) fun _ h => h.2
  split
  · exact .refl
  · exact .refl
  · exact .refl
  · exact .refl
  · exact .refl
  · next kind => exact word (branch_agrees h (kind ▸ by decide))
  · next kind => exact word (loop_agrees h (kind ▸ by decide))
  · next kind => exact word (attempt_agrees h (kind ▸ by decide))
  all_goals exact .refl

end

theorem nested_agrees (n : Nat) :
    (∀ bound : List Heard, n ≤ bound.length → Agrees n Everywhere (nested bound) statement) ∧
      Agrees n Everywhere (dispatch statement) statement :=
  Agrees.unbounded (fun _ _ => rfl) (fun _ => rfl) (fun _ _ => dispatch_agrees) n

end Statement.Parser

namespace Routine.Parser

theorem names_agrees (n : Nat) {bound bound' : List Heard} (enough : n ≤ bound.length)
    (enough' : n ≤ bound'.length) : Agrees n Everywhere (names bound) (names bound') := by
  induction n generalizing bound bound' with
  | zero => exact .exhausted
  | succ n ih =>
    obtain ⟨x, bound, rfl⟩ := List.exists_cons_of_length_pos (Nat.zero_lt_of_lt enough)
    obtain ⟨x', bound', rfl⟩ := List.exists_cons_of_length_pos (Nat.zero_lt_of_lt enough')
    unfold names
    refine .still (.check _) fun _ => .ite .refl (.still (.check _) fun _ => .ite .refl ?_)
    refine .behind .expectName fun name => ?_
    cases name with
    | none => exact .refl
    | some name =>
      refine .same (.of_level (typed_level name)) fun first =>
        .same (.skip? (by decide)) fun _ => ?_
      have more := ih (Nat.le_of_succ_le_succ enough) (Nat.le_of_succ_le_succ enough')
      exact .ite (.first more) .refl

end Routine.Parser

namespace Reader

theorem resyncWithin_agrees (n : Nat) {bound bound' : List Heard} (enough : n ≤ bound.length)
    (enough' : n ≤ bound'.length) (depth : Nat) :
    Agrees n Everywhere (resyncWithin bound depth) (resyncWithin bound' depth) := by
  induction n generalizing bound bound' depth with
  | zero => exact .exhausted
  | succ n ih =>
    obtain ⟨x, bound, rfl⟩ := List.exists_cons_of_length_pos (Nat.zero_lt_of_lt enough)
    obtain ⟨x', bound', rfl⟩ := List.exists_cons_of_length_pos (Nat.zero_lt_of_lt enough')
    have more := ih (Nat.le_of_succ_le_succ enough) (Nat.le_of_succ_le_succ enough')
    unfold resyncWithin
    refine .peek fun t => ?_
    split
    · exact .refl
    · next kind =>
      rw [kind]
      cases depth with
      | zero => exact .refl
      | succ depth =>
        refine .discard_advance (by decide) (.still (.check _) fun _ => ?_)
        exact .ite .refl (more _)
    · next kind =>
      rw [kind]
      exact .discard_advance (by decide) (more _)
    · next kind =>
      rw [kind]
      refine .discard_advance (by decide) (.ite (.still (.check _) fun _ => ?_) (more _))
      exact .ite (more _) .refl
    · next file _ _ _ => exact .discard_advance file (more _)

end Reader

end StepsLang
