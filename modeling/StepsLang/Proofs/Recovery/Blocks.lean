import StepsLang.Parse
import StepsLang.Proofs.Recovery.Depth

namespace StepsLang

def Level (p : Reader α) : Prop := ∀ n, Climbs n 0 0 0 Everywhere p

namespace Level

variable {P : List Token → Prop} {n : Nat} {p : Reader β} {g : β → Reader α}

theorem bind (one : Level p) (two : ∀ a, Level (g a)) : Level (p >>= g) :=
  fun n => .andThen (one n) fun a => two a n

theorem skip? {k : Kind} {g : Bool → Reader α} (hk : k.Flat) (two : ∀ b, Level (g b)) :
    Level (Reader.skip? k >>= g) :=
  fun _ => .skip? hk (two true _) (two false _)

theorem many {p : Reader (Option α)} (body : Level p) : Level (Reader.many p) :=
  fun n => .many (body n)

end Level

namespace Expression.Parser
open Reader

variable {inner : Reader Expression} {P : List Token → Prop} {n : Nat}

def Operators (operator? : Location → Kind → Option (Expression → Expression → Expression)) :
    Prop := ∀ l k make, operator? l k = some make → k.Flat

theorem operators_product : Operators product? := by
  intro l k make h
  cases k <;> first | decide | cases h

theorem operators_sum : Operators sum? := by
  intro l k make h
  cases k <;> first | decide | cases h

theorem operators_comparison : Operators comparison? := by
  intro l k make h
  cases k <;> first | decide | cases h

theorem operators_conjunction : Operators conjunction? := by
  intro l k make h
  cases k <;> first | decide | cases h

theorem operators_disjunction : Operators disjunction? := by
  intro l k make h
  cases k <;> first | decide | cases h

theorem flat_of_testedType {k : Kind} {type : TypeName} (h : testedType? k = some type) :
    k.Flat := by
  cases k <;> first | decide | cases h

theorem leftAssociative_level
    {operator? : Location → Kind → Option (Expression → Expression → Expression)}
    {operand : Reader Expression} (ho : Operators operator?) (h : Level operand) :
    Level (leftAssociative operator? operand) := by
  refine h.bind fun first => Level.bind (.many fun n => ?_) fun more _ => .pure _
  refine .peek fun t => ?_
  cases e : operator? t.location t.kind with
  | none => exact .pure _
  | some make =>
    have flat := ho _ _ _ e
    refine .bind (.discard (.advance_flat fun _ h => h.2.imp fun _ same => same ▸ flat)) fun _ => ?_
    exact .andThen (h _) fun _ => .pure _

theorem moreElements_level {element : Reader α} (h : Level element) :
    Level (moreElements element) := by
  refine .many (.skip? (by decide) fun b => ?_)
  cases b with
  | false => exact fun _ => .pure _
  | true =>
    refine fun n => .still (.check _) fun b => ?_
    cases b with
    | true => exact .pure _
    | false => exact .andThen (h n) fun _ => .pure _

theorem emptyTable_level : Level emptyTable := by
  intro n
  unfold emptyTable
  refine .check ?_ (.pure _)
  rw [if_pos rfl, checkAt_bind]
  refine .peekAt fun t => ?_
  cases close : t.kind == .rightBracket with
  | false => exact .pure _
  | true =>
    have kind : t.kind = .rightBracket := eq_of_beq close
    have both : Climbs n 0 0 0 (Kinds [.colon, .rightBracket])
        (do discard advance; discard advance; return true : Reader Bool) :=
      .pass (by decide) (.pass (by decide) (.pure _))
    refine both.pre fun ts h => ?_
    exact kind ▸ h.1.2.kinds.snoc h.2 (by rw [kind]; decide)

theorem bracketed_climbs (h : Level inner) :
    Climbs n 0 0 0 (First (· = .leftBracket)) (bracketed inner) := by
  unfold bracketed
  refine .bind (.advance_flat fun _ h => h.imp fun _ same => same ▸ by decide) fun t => ?_
  refine .skip? (by decide) (.pure _) ?_
  refine .andThen (emptyTable_level _) fun b => ?_
  cases b with
  | true => exact .pure _
  | false =>
    refine .andThen (h _) fun first => .skip? (by decide) ?_ ?_
    · refine .andThen (h _) fun value => ?_
      refine .andThen (moreElements_level (fun n => ?_) _) fun more => ?_
      · refine .andThen (h n) fun key => .discard_expect (by decide) ?_
        exact .andThen (h n) fun _ => .pure _
      · exact .discard_expect (by decide) (.pure _)
    · exact .andThen (moreElements_level h _) fun more => .discard_expect (by decide) (.pure _)

theorem primary_level (h : Level inner) : Level (primary inner) := by
  intro n
  unfold primary
  refine .peek fun t => ?_
  split
  case h_8 kind => exact (bracketed_climbs h).pre fun _ h => kind ▸ h.2
  case h_9 kind =>
    rw [kind]
    refine .bind (.discard (.advance_at (by decide) rfl)) fun _ => ?_
    exact .andThen (h _) fun e => .discard_expect (by decide) (.pure _)
  case h_10 => exact .still (.report _) fun _ => .pure _
  all_goals
    next kind =>
    rw [kind]
    exact .bind (.discard (.advance_at (by decide) rfl)) fun _ => .pure _

theorem decimalPlaces_climbs {g : Bool → Reader α} (yes : Climbs n 0 0 0 Everywhere (g true))
    (no : Climbs n 0 0 0 (First (· = .as)) (g false)) :
    Climbs n 0 0 0 (First (· = .as)) (decimalPlaces >>= g) := by
  unfold decimalPlaces
  rw [bind_assoc]
  refine .peekAt fun t => ?_
  cases word : t.kind == .name && t.text == "decimal" with
  | false => exact no.pre fun _ h => h.1
  | true =>
    have name : t.kind = .name := eq_of_beq (Bool.and_eq_true_iff.1 word).1
    unfold checkAt
    simp only [if_true, bind_assoc, pure_bind]
    refine .peekAt fun u => ?_
    cases paren : u.kind == .leftParen with
    | false => exact no.pre fun _ h => h.1.1
    | true =>
      have kind : u.kind = .leftParen := eq_of_beq paren
      have all : Climbs n 0 0 0 (Kinds [.as, .name, .leftParen])
          (do discard advance; discard advance; discard advance; g true) :=
        .pass (by decide) (.pass (by decide) (.pass (by decide)
          (yes.weaken (by omega) (by omega) fun _ _ => trivial)))
      simp only [if_true]
      refine all.pre fun ts h => ?_
      have two := h.1.1.kinds.snoc h.1.2 (by rw [name]; decide)
      rw [name] at two
      exact kind ▸ two.snoc h.2 (by rw [kind]; decide)

theorem trailer_level (h : Level inner) : Level (trailer inner) := by
  intro n
  unfold trailer
  refine .peek fun t => ?_
  split
  · next kind =>
    rw [kind]
    refine .bind (.discard (.advance_at (by decide) rfl)) fun _ => ?_
    exact .andThen (h _) fun key => .discard_expect (by decide) (.pure _)
  · next kind =>
    rw [kind]
    refine (decimalPlaces_climbs ?_ ?_).pre fun _ h => h.2
    · exact .andThen (h _) fun places => .discard_expect (by decide) (.pure _)
    · refine .bind (.discard (.advance_flat fun _ h => h.imp fun _ same => same ▸ by decide))
        fun _ => .peek fun u => ?_
      split
      case h_4 => exact .still (.expected _) fun _ => .pure _
      all_goals
        next kind =>
        rw [kind]
        exact .bind (.discard (.advance_at (by decide) rfl)) fun _ => .pure _
  · exact .pure _

theorem trailed_level (h : Level inner) : Level (trailed inner) :=
  (primary_level h).bind fun _ => (Level.many (trailer_level h)).bind fun _ _ => .pure _

theorem leader_level (h : Level inner) : Level (leader inner) := by
  intro n
  unfold leader
  refine .peek fun t => ?_
  split
  case h_4 kind =>
    rw [kind]
    refine .bind (.discard (.advance_at (by decide) rfl)) fun _ => ?_
    exact .andThen (trailed_level h _) fun position => .discard_expect (by decide) (.pure _)
  case h_5 => exact .pure _
  all_goals
    next kind =>
    rw [kind]
    exact .bind (.discard (.advance_at (by decide) rfl)) fun _ => .pure _

theorem led_level (h : Level inner) : Level (led inner) :=
  (Level.many (leader_level h)).bind fun _ => (trailed_level h).bind fun _ _ => .pure _

theorem comparison_level (h : Level inner) : Level (comparison inner) := by
  have side : Level (sum inner) :=
    leftAssociative_level operators_sum (leftAssociative_level operators_product (led_level h))
  refine side.bind fun left n => ?_
  refine .peek fun t => ?_
  split
  · next make e =>
    have flat := operators_comparison _ _ _ e
    refine .bind (.discard (.advance_flat fun _ h => h.2.imp fun _ same => same ▸ flat)) fun _ => ?_
    exact .andThen (side _) fun _ => .pure _
  · next e =>
    have flat := flat_of_testedType e
    exact .bind (.discard (.advance_flat fun _ h => h.2.imp fun _ same => same ▸ flat))
      fun _ => .pure _
  · exact .pure _

theorem take?_level {k : Kind} (hk : k.Flat) : Level (take? k) :=
  fun _ => Climbs.take? (g := pure) hk (fun _ => .pure _) (.pure _)

theorem negation_level (h : Level inner) : Level (negation inner) :=
  (Level.many (take?_level (by decide))).bind fun _ =>
    (comparison_level h).bind fun _ _ => .pure _

theorem nested_level {β : Type} (bound : List β) : Level (nested bound) := by
  induction bound with
  | nil => exact fun _ => .pure _
  | cons _ bound ih =>
    exact leftAssociative_level operators_disjunction
      (leftAssociative_level operators_conjunction (negation_level ih))

theorem expression_level : Level expression :=
  fun _ => .bounded fun bound _ => nested_level bound _

end Expression.Parser

namespace Statement.Parser
open Reader Expression.Parser

variable {inner : Inner} {n : Nat}

abbrev Starting (n : Nat) (p : Reader α) : Prop := Climbs n 1 0 0 (First Kind.Flat) p

abbrev Lined (n : Nat) (p : Reader α) : Prop := Climbs n 1 0 0 (First Climbs.Passed) p

theorem giveUp_level : Level (giveUp : Reader (Option α)) :=
  fun _ => .andThen .resync fun _ => .pure _

theorem line_ends (what : Bytes) (a : α) :
    Level (do discard (expectEndOfLine what); return a) :=
  fun _ => .andThen (.discard (.expectEndOfLine what)) fun _ => .pure _

theorem starting {g : Token → Reader α} (h : ∀ t, Climbs (n - 1) 0 0 0 Everywhere (g t)) :
    Starting n (advance >>= g) := .bind (.advance_flat fun _ h => h) h

theorem expectName_level {g : Option Token → Reader α} (h : ∀ t, Level (g t)) :
    Level (expectName >>= g) := fun _ => .expectName (fun _ => h _ _) (h none _)

theorem expect_level {k : Kind} {what : Bytes} {g : Option Token → Reader α} (hk : k.Flat)
    (h : ∀ t, Level (g t)) : Level (expect k what >>= g) :=
  fun _ => .expect hk (fun _ => h _ _) (h none _)

theorem display_climbs : Starting n display :=
  starting fun _ => (expression_level.bind fun _ => line_ends _ _) _

theorem indexed_level : Level indexed := by
  refine .skip? (by decide) fun b => ?_
  cases b with
  | false => exact fun _ => .pure _
  | true =>
    refine expression_level.bind fun e => expect_level (by decide) fun t => ?_
    cases t <;> exact fun _ => .pure _

theorem set_climbs : Starting n set := by
  refine starting fun _ => (expectName_level fun name => ?_) _
  cases name with
  | none => exact giveUp_level
  | some name =>
    refine indexed_level.bind fun index => ?_
    cases index with
    | none => exact giveUp_level
    | some index =>
      refine expect_level (by decide) fun link => ?_
      cases link with
      | none => exact giveUp_level
      | some link =>
        refine expression_level.bind fun e => ?_
        cases index <;> exact line_ends _ _

theorem arguments_level : Level arguments := by
  refine .skip? (by decide) fun b => ?_
  cases b with
  | false => exact fun _ => .pure _
  | true =>
    refine expression_level.bind fun first => Level.bind (.many ?_) fun _ _ => .pure _
    refine .skip? (by decide) fun b => ?_
    cases b with
    | false => exact fun _ => .pure _
    | true => exact expression_level.bind fun _ _ => .pure _

theorem target_level : Level target := by
  refine .skip? (by decide) fun b => ?_
  cases b with
  | false => exact fun _ => .pure _
  | true =>
    refine expectName_level fun t => ?_
    cases t <;> exact fun _ => .pure _

theorem call_climbs : Starting n call := by
  refine starting fun _ => (expectName_level fun name => ?_) _
  cases name with
  | none => exact giveUp_level
  | some name =>
    refine arguments_level.bind fun args => target_level.bind fun into => ?_
    cases into with
    | none => exact giveUp_level
    | some into => exact line_ends _ _

theorem giveBack_climbs : Starting n giveBack := by
  refine starting fun t => ?_
  have ends : ∀ e, Level (do
      discard (expectEndOfLine "return"); return some (Statement.giveBack t.location e)) :=
    fun e => line_ends _ _
  refine .still (.check _) fun newline => .still .atBlockEnd fun stop => ?_
  cases newline with
  | true => exact ends none _
  | false =>
    cases stop with
    | true => exact ends none _
    | false => exact (expression_level.bind fun e => ends (some e)) _

theorem exit_climbs : Starting n exit := starting fun _ => line_ends _ _ _

theorem note_climbs : Starting n note := starting fun _ => line_ends _ _ _

theorem listChange_climbs {make : Location → Expression → Bytes → Statement} {link : Kind}
    {linkText statement : Bytes} (hk : link.Flat) :
    Starting n (listChange make link linkText statement) := by
  refine starting fun _ => (expression_level.bind fun e => expect_level hk fun link => ?_) _
  cases link with
  | none => exact giveUp_level
  | some link =>
    refine expectName_level fun name => ?_
    cases name with
    | none => exact giveUp_level
    | some name => exact line_ends _ _

theorem item_level : Level item := by
  refine expectName_level fun name => ?_
  cases name with
  | none => exact fun _ => .pure _
  | some name => exact expect_level (by decide) fun _ _ => .pure _

theorem misplacedName_still (t : Token) : Still (misplacedName t) := by
  unfold misplacedName
  split
  · exact .report _
  · exact .unexpected _

theorem misplaced_still (t : Token) : Still (misplaced t) := by
  unfold misplaced
  split
  case h_5 => exact .report _
  case h_7 => exact misplacedName_still t
  all_goals exact .unexpected _

section

variable (h : ∀ m, m ≤ n → Lined m inner)
include h

theorem block_climbs (keyword : Bytes) {m : Nat} (hm : m ≤ n) :
    Climbs m 0 0 0 Everywhere (block inner keyword) := by
  refine .andThen .skipNewlines fun _ => .skip?_indent ?_ ?_
  · exact .lines (h (m - 1) (by omega)).map
  · exact .still (.expectedBlock keyword) fun _ => .pure _

theorem part_climbs (k : Kind) (hk : k.Flat) (keyword : Bytes) {m : Nat} (hm : m ≤ n) :
    Climbs m 0 0 0 Everywhere (part inner k keyword) := by
  unfold part
  refine .check ?_ (.pure _)
  refine .still .beginLine fun _ => ?_
  refine .bind (.discard (.advance_flat fun _ h => h.2.imp fun _ same => same ▸ hk)) fun _ => ?_
  refine .andThen (.expectEndOfLine _) fun ended => ?_
  cases ended with
  | false => exact .pure _
  | true => exact .andThen (block_climbs h keyword (by omega)) fun _ => .pure _

theorem otherwiseIf_climbs {m : Nat} (hm : m ≤ n) :
    Climbs m 0 0 0 Everywhere (otherwiseIf inner) := by
  unfold otherwiseIf
  refine .check ?_ (.pure _)
  refine .still .beginLine fun _ => ?_
  refine .bind (.advance_flat fun _ h => h.2.imp fun _ same => same ▸ by decide) fun _ => ?_
  refine .andThen (expression_level _) fun e => .andThen (.expectEndOfLine _) fun ended => ?_
  cases ended with
  | false => exact .pure _
  | true => exact .andThen (block_climbs h _ (by omega)) fun _ => .pure _

theorem branch_climbs {m : Nat} (hm : m ≤ n + 1) : Starting m (branch inner) := by
  refine starting fun _ => .andThen (expression_level _) fun e => ?_
  refine .andThen (.expectEndOfLine _) fun ended => ?_
  cases ended with
  | false => exact .pure _
  | true =>
    refine .andThen (block_climbs h _ (by omega)) fun body => ?_
    refine .andThen (.many (otherwiseIf_climbs h (by omega))) fun more => ?_
    exact .andThen (part_climbs h _ (by decide) _ (by omega)) fun _ => .pure _

theorem body_climbs {make : List Statement → Statement} (keyword what : Bytes) {m : Nat}
    (hm : m ≤ n) : Climbs m 0 0 0 Everywhere (do
      if !(← expectEndOfLine what) then return none
      return some (make (← block inner keyword))) := by
  refine .andThen (.expectEndOfLine _) fun ended => ?_
  cases ended with
  | false => exact .pure _
  | true => exact .andThen (block_climbs h _ hm) fun _ => .pure _

theorem loop_climbs {m : Nat} (hm : m ≤ n + 1) : Starting m (loop inner) := by
  refine starting fun t => ?_
  refine .skip? (by decide) ?_ (.skip? (by decide) ?_ ?_)
  · refine .andThen (item_level _) fun name => ?_
    cases name with
    | none => exact giveUp_level _
    | some name => exact .andThen (expression_level _) fun e => body_climbs h _ _ (by omega)
  · exact .andThen (expression_level _) fun e => body_climbs h _ _ (by omega)
  · refine .andThen (expression_level _) fun e => ?_
    refine .andThen (expect_level (g := pure) (by decide) (fun _ _ => .pure _) _) fun times => ?_
    cases times with
    | none => exact giveUp_level _
    | some times => exact body_climbs h _ _ (by omega)

theorem attempt_climbs {m : Nat} (hm : m ≤ n + 1) : Starting m (attempt inner) := by
  refine starting fun t => .andThen (.expectEndOfLine _) fun ended => ?_
  cases ended with
  | false => exact .pure _
  | true =>
    refine .andThen (block_climbs h _ (by omega)) fun body => ?_
    refine .andThen (part_climbs h _ (by decide) _ (by omega)) fun unsuccessful => ?_
    exact .andThen (part_climbs h _ (by decide) _ (by omega)) fun _ => .pure _

theorem dispatch_climbs {m j : Nat} {P : List Token → Prop} (hm : m ≤ n + 1)
    (hj : Climbs.Due j P) : Climbs m j 0 0 P (dispatch inner) := by
  refine .still .beginLine fun _ => .peek fun t => ?_
  have word {p : Reader (Option Statement)} (flat : t.kind.Flat) (hp : Starting m p) :
      Climbs m j 0 0 (fun ts => P ts ∧ First (· = t.kind) ts) p :=
    (hp.slower hj.le).pre fun _ h => h.2.imp fun _ same => same ▸ flat
  split
  · next kind => exact word (kind ▸ by decide) display_climbs
  · next kind => exact word (kind ▸ by decide) set_climbs
  · next kind => exact word (kind ▸ by decide) call_climbs
  · next kind => exact word (kind ▸ by decide) giveBack_climbs
  · next kind => exact word (kind ▸ by decide) exit_climbs
  · next kind => exact word (kind ▸ by decide) (branch_climbs h hm)
  · next kind => exact word (kind ▸ by decide) (loop_climbs h hm)
  · next kind => exact word (kind ▸ by decide) (attempt_climbs h hm)
  · next kind => exact word (kind ▸ by decide) (listChange_climbs (by decide))
  · next kind => exact word (kind ▸ by decide) (listChange_climbs (by decide))
  · next kind => exact word (kind ▸ by decide) note_climbs
  · refine .still (misplaced_still t) fun _ => .pre ?_ fun _ h => h.1
    exact .bind (.resync_due hj) fun _ => (Climbs.pure _).slower (by omega)

end

theorem lined : Climbs.Due 1 (First Climbs.Passed) := .inr ⟨rfl, fun _ h => h⟩

theorem nested_climbs {j : Nat} {P : List Token → Prop} (hj : Climbs.Due j P) (bound : List β) :
    ∀ m, m ≤ bound.length → Climbs m j 0 0 P (nested bound) := by
  induction bound generalizing j P with
  | nil =>
    intro m hm
    obtain rfl : m = 0 := Nat.le_zero.1 hm
    exact .exhausted
  | cons _ bound ih => exact fun m hm => dispatch_climbs (ih lined) hm hj

theorem statement_climbs {j : Nat} {P : List Token → Prop} (hj : Climbs.Due j P) :
    Climbs n j 0 0 P statement :=
  .bounded fun bound _ => nested_climbs hj bound bound.length (Nat.le_refl _)

theorem openBlock_climbs : Climbs n 0 1 0 Everywhere openBlock :=
  .lines (statement_climbs lined).map

end Statement.Parser

namespace Routine.Parser
open Reader Statement.Parser

variable {n : Nat}

theorem valueType?_flat {k : Kind} {type : TypeName} (h : valueType? k = some type) : k.Flat := by
  cases k <;> first | decide | cases h

theorem typeName_level : Level typeName := by
  refine fun n => .peek fun t => ?_
  split
  · next type e =>
    have flat := valueType?_flat e
    exact .bind (.discard (.advance_flat fun _ h => h.2.imp fun _ same => same ▸ flat))
      fun _ => .pure _
  · exact .still (.expected _) fun _ => .pure _

theorem optionalType_level : Level optionalType := by
  refine .skip? (by decide) fun b => ?_
  cases b with
  | true => exact typeName_level
  | false => exact fun _ => .pure _

theorem typed_level (t : Token) : Level (typed t) := optionalType_level.bind fun _ _ => .pure _

theorem names_level (bound : List β) : Level (names bound) := by
  induction bound with
  | nil => exact fun _ => .pure _
  | cons _ bound ih =>
    intro n
    unfold names
    refine .still (.check _) fun newline => ?_
    cases newline with
    | true => exact .pure _
    | false =>
      refine .still (.check _) fun ends => ?_
      cases ends with
      | true => exact .pure _
      | false =>
        refine (expectName_level fun t => ?_) n
        cases t with
        | none => exact fun _ => .pure _
        | some t =>
          refine (typed_level t).bind fun first => .skip? (by decide) fun comma => ?_
          cases comma with
          | true => exact ih.bind fun _ _ => .pure _
          | false => exact fun _ => .pure _

theorem parameters_level : Level parameters := by
  refine .skip? (by decide) fun none => ?_
  cases none with
  | true => exact fun _ => .pure _
  | false => exact fun n => .bounded fun bound _ => names_level bound _

theorem returned_level : Level returned := by
  refine .skip? (by decide) fun none => ?_
  cases none with
  | true => exact fun _ => .pure _
  | false =>
    refine expectName_level fun t => ?_
    cases t with
    | none => exact fun _ => .pure _
    | some t => exact (typed_level t).bind fun _ _ => .pure _

theorem declaration_climbs : Lined n declaration := by
  refine .still .beginLine fun _ => .skip? (by decide) (line_ends _ _ _) ?_
  have broken : Lined n (do resync; return ([] : List Declaration)) :=
    .bind (.resync_due lined) fun _ => .pure _
  have stopped : Level (do resync; return ([] : List Declaration)) :=
    fun _ => .andThen .resync fun _ => .pure _
  refine .expectName (fun t => ?_) broken
  refine (expect_level (by decide) fun as => ?_) _
  cases as with
  | none => exact stopped
  | some as =>
    refine typeName_level.bind fun type => ?_
    cases type with
    | none => exact stopped
    | some type => exact .skip? (by decide) fun fixed => line_ends _ _

theorem declarations_climbs : Climbs n 0 0 0 Everywhere declarations :=
  .andThen .skipNewlines fun _ => .skip?_indent (.lines declaration_climbs)
    (.still (.expectedBlock _) fun _ => .pure _)

theorem section?_climbs {P : List Token → Prop} {g : Option Amendment → Reader α}
    (yes : ∀ change, Level (g (some change))) (no : Climbs n 1 0 0 P (g none)) :
    Climbs n 1 0 0 P (section? >>= g) := by
  unfold section?
  rw [bind_assoc]
  refine .peek fun t => ?_
  split
  · next kind =>
    rw [kind]
    simp only [bind_assoc, pure_bind]
    refine .bind (.discard (.advance_at (by decide) rfl)) fun _ => ?_
    refine .andThen (parameters_level _) fun ps => ?_
    exact .andThen (.discard (.expectEndOfLine _)) fun _ => yes _ _
  · next kind =>
    rw [kind]
    simp only [bind_assoc, pure_bind]
    refine .bind (.discard (.advance_at (by decide) rfl)) fun _ => ?_
    refine .andThen (returned_level _) fun r => ?_
    exact .andThen (.discard (.expectEndOfLine _)) fun _ => yes _ _
  · next kind =>
    rw [kind]
    rw [bind_assoc]
    refine .bind (.discard (.advance_at (by decide) rfl)) fun _ => ?_
    rw [bind_assoc]
    refine .andThen (.expectEndOfLine _) fun ended => ?_
    cases ended with
    | true =>
      simp only [if_true, bind_assoc, pure_bind]
      exact .andThen declarations_climbs fun _ => yes _ _
    | false => exact yes _ _
  · next kind =>
    rw [kind]
    rw [bind_assoc]
    refine .bind (.discard (.advance_at (by decide) rfl)) fun _ => ?_
    rw [bind_assoc]
    refine .andThen (.expectEndOfLine _) fun ended => ?_
    cases ended with
    | true =>
      simp only [if_true, bind_assoc, pure_bind]
      have body := block_climbs (n := n - 1) (fun _ _ => statement_climbs lined) "do:"
        (Nat.le_refl _)
      exact .andThen body fun _ => yes _ _
    | false => exact yes _ _
  · next kind =>
    rw [kind]
    simp only [bind_assoc, pure_bind]
    refine .bind (.discard (.advance_at (by decide) rfl)) fun _ => ?_
    exact .andThen (.discard (.expectEndOfLine _)) fun _ => yes _ _
  · exact no.pre fun _ h => h.1

theorem strayLine_climbs (owner : Bytes) : Lined n (strayLine owner) :=
  .still (.peekAt 0) fun _ => .still (.unexpected _) fun _ => .resync_due lined

theorem missingDo_still (r : Routine) : Still (missingDo r) := by
  unfold missingDo
  split
  · exact .bind .beginLine fun _ => .report _
  · exact .pure _

theorem riserLine_climbs : Lined n riserLine := by
  refine .still .beginLine fun _ => section?_climbs (fun _ _ => .pure _) ?_
  exact .bind (strayLine_climbs _) fun _ => .pure _

theorem riser_climbs (l : Location) : Climbs n 0 0 0 Everywhere (riser l) := by
  refine .expectName (fun name => ?_) (.andThen .resync fun _ => .pure _)
  refine .andThen (.expectEndOfLine _) fun ended => ?_
  cases ended with
  | false => exact .pure _
  | true =>
    refine .andThen .skipNewlines fun _ => .skip?_indent ?_ ?_
    · exact .andThen (.lines riserLine_climbs) fun _ => .still (missingDo_still _) fun _ => .pure _
    · exact .still (.expectedBlock _) fun _ => .pure _

end Routine.Parser

/-- From here a reader takes tokens that close every block that they open, and no other. -/
def Keeps (p : Reader α) (c : Cursor) : Prop :=
  ∃ ts, c.tokens = ts ++ (p c).2.tokens ∧ WellNested ts

theorem Climbs.keeps {n j d : Nat} {P : List Token → Prop} {p : Reader α} {c : Cursor}
    (h : Climbs n j 0 0 P p) (hn : c.rest.length ≤ n) (hP : P c.tokens) (hc : Closes d c.tokens) :
    Keeps p c := by
  obtain ⟨-, ts, here, climbs, -⟩ := h (k := d) hn hP (by rwa [Nat.zero_add])
  exact ⟨ts, here, .of_climb climbs⟩

namespace TokenStream
open Statement.Parser Routine.Parser

variable {file : Nat} {source : Bytes} {c : Cursor}

theorem closes_of_suffix (here : c.tokens <:+ (ofSource file source).tokens.map (·.token))
    (left : c.tokens ≠ []) : ∃ d, Closes d c.tokens := by
  obtain ⟨ts, whole⟩ := here
  have all : Closes 0 (ts ++ c.tokens) := whole ▸ closes_ofSource file source
  obtain ⟨d, -, closes⟩ := all.suffix left
  exact ⟨d, closes⟩

/-- Wherever in a text a statement, a block, a riser, declarations or an expression are read, or a
broken line is passed over: no block that was open before is left, and none that opens stays open.
-/
theorem readers_keep (here : c.tokens <:+ (ofSource file source).tokens.map (·.token))
    (left : c.tokens ≠ []) :
    Keeps statement c ∧
    (∀ keyword, Keeps (block statement keyword) c) ∧
    (∀ bound : List Heard, c.rest.length ≤ bound.length →
      Keeps (Statement.Parser.nested bound) c ∧
      ∀ keyword, Keeps (block (Statement.Parser.nested bound) keyword) c) ∧
    (∀ l, Keeps (riser l) c) ∧
    Keeps declarations c ∧
    Keeps Expression.Parser.expression c ∧
    (∀ bound : List Heard, Keeps (Expression.Parser.nested bound) c) ∧
    Keeps Reader.resync c := by
  obtain ⟨d, closes⟩ := closes_of_suffix here left
  have keeps {α : Type} {p : Reader α} (h : Climbs c.rest.length 0 0 0 Everywhere p) : Keeps p c :=
    h.keeps (Nat.le_refl _) trivial closes
  refine ⟨keeps (statement_climbs (.inl rfl)), fun keyword => keeps ?_,
    fun bound enough => ⟨?_, ?_⟩, fun l => keeps (riser_climbs l), keeps declarations_climbs,
    keeps (Expression.Parser.expression_level _),
    fun bound => keeps (Expression.Parser.nested_level bound _), keeps .resync⟩
  · exact block_climbs (fun _ _ => statement_climbs lined) keyword (Nat.le_refl _)
  · exact keeps (nested_climbs (.inl rfl) bound _ enough)
  · exact fun keyword => keeps (block_climbs (nested_climbs lined bound) keyword enough)

theorem readers_keep_foreign :
    let source : Bytes := "if true\n    else\n        display 1\ndisplay 2\n"
    let c : Cursor := { rest := (ofSource 0 source).tokens.drop 3 }
    c.tokens <:+ (ofSource 0 source).tokens.map (·.token) ∧ c.tokens ≠ [] ∧
      Keeps (block statement "if") c ∧
      (block statement "if" c).2.tokens.map (·.kind) =
        [.display, .numeral, .newline, .endOfFile] := by
  intro source c
  have here : c.tokens <:+ (ofSource 0 source).tokens.map (·.token) :=
    (List.drop_suffix 3 _).map _
  have left : c.tokens ≠ [] := by decide +kernel
  exact ⟨here, left, (readers_keep here left).2.1 "if", by decide +kernel⟩

end TokenStream

end StepsLang
