import StepsLang.Expression.Parser
import StepsLang.Proofs.Recovery.Relocate
import StepsLang.Proofs.Recovery.Tandem

namespace StepsLang

namespace Tandem

variable {T : Tandem} {n d : Nat} {inner inner' : Reader Expression}

namespace Moves

variable {j : α → Nat} {P : Place → List Token → Prop} {r : α → α → Prop}
  {Q : α → Place → List Token → Prop} {p q : Reader α}

theorem andThen {i : β → Nat} {s : β → β → Prop} {R : β → Place → List Token → Prop}
    {p q : Reader β} {g h : β → Reader α} (one : T.Moves n i P s R p q)
    (two : ∀ a b, s a b → T.Moves (n - i a) (fun _ => 0) (R a) r Q (g a) (h b)) :
    T.Moves n (fun _ => 0) P r Q (p >>= g) (q >>= h) :=
  bind one fun a b hab => (two a b hab).slower fun _ => Nat.le_of_eq (Nat.zero_sub _)

theorem check_inside {k : Kind} {g h : Bool → Reader α}
    (yes : ∀ t, t.kind = k → T.Moves n j (Ahead ⟨d, .inside⟩ [t]) r Q (g true) (h true))
    (no : T.Moves n j (Inside d) r Q (g false) (h false)) :
    T.Moves n j (Inside d) r Q (Reader.check k >>= g) (Reader.check k >>= h) := by
  rw [Reader.check_bind, Reader.check_bind]
  refine peek fun t _ => ?_
  rw [show (t.relocate T.move).kind = t.kind from rfl]
  cases same : t.kind == k with
  | true => exact yes t (eq_of_beq same)
  | false => exact forget no

theorem pass_inside {t : Token} {ts : List Token} {p q : Reader α} (ht : t.kind.isContent = true)
    (two : T.Moves (n - 1) (fun a => j a - 1) (Ahead ⟨d, .inside⟩ ts) r Q p q) :
    T.Moves n j (Ahead ⟨d, .inside⟩ (t :: ts)) r Q (Functor.discard Reader.advance >>= fun _ => p)
      (Functor.discard Reader.advance >>= fun _ => q) :=
  pass (by rw [Place.next_content ht, Place.spot_content ht]) two

theorem skip_inside {k : Kind} {g h : Bool → Reader α} (hk : k.isContent = true)
    (yes : T.Moves (n - 1) (fun _ => 0) (Inside d) r Q (g true) (h true))
    (no : T.Moves n (fun _ => 0) (Inside d) r Q (g false) (h false)) :
    T.Moves n (fun _ => 0) (Inside d) r Q (Reader.skip? k >>= g) (Reader.skip? k >>= h) := by
  refine andThen (skip? hk) fun a b hab => ?_
  subst hab
  cases a with
  | true => exact yes
  | false => exact no

theorem manyInside {p q : Reader (Option α)}
    (body : T.Moves n taken (Inside d) (Option.Rel r) (fun _ => Inside d) p q) :
    T.Moves n (fun _ => 0) (Inside d) (List.Forall₂ r) (fun _ => Inside d) (Reader.many p)
      (Reader.many q) := by
  refine many (R := Inside d) (body.post fun o x zs h => ?_)
  cases o <;> exact h

end Moves

def Inline (T : Tandem) (n : Nat) (r : α → α → Prop) (p q : Reader α) : Prop :=
  ∀ d, T.Moves n (fun _ => 0) (Inside d) r (fun _ => Inside d) p q

theorem Inline.within {m : Nat} {r : α → α → Prop} {p q : Reader α} (h : T.Inline n r p q)
    (hm : m ≤ n) : T.Inline m r p q :=
  fun d => (h d).within hm

def Same (T : Tandem) (a b : Expression) : Prop := b = a.relocate T.move

theorem same_items {es es' : List Expression} (h : List.Forall₂ T.Same es es') :
    es' = Expression.relocateItems T.move es := by
  induction h with
  | nil => rfl
  | cons same _ ih =>
    rw [ih, same]
    rfl

theorem same_entries {es es' : List (Expression × Expression)}
    (h : List.Forall₂ (fun a b => T.Same a.1 b.1 ∧ T.Same a.2 b.2) es es') :
    es' = Expression.relocateEntries T.move es := by
  induction h with
  | nil => rfl
  | @cons _ b _ _ same _ ih =>
    obtain ⟨_, _⟩ := b
    obtain ⟨rfl, rfl⟩ := same
    rw [ih]
    rfl

theorem same_foldl {α : Type} {r : α → α → Prop} {g : Expression → α → Expression}
    (step : ∀ e a b, r a b → g (e.relocate T.move) b = (g e a).relocate T.move) {as bs : List α}
    (h : List.Forall₂ r as bs) (e : Expression) :
    T.Same (as.foldl g e) (bs.foldl g (e.relocate T.move)) := by
  induction h generalizing e with
  | nil => rfl
  | cons one _ ih =>
    rw [List.foldl_cons, List.foldl_cons, step _ _ _ one]
    exact ih _

theorem same_foldr {α : Type} {r : α → α → Prop} {g : α → Expression → Expression}
    (step : ∀ e a b, r a b → g b (e.relocate T.move) = (g a e).relocate T.move) {as bs : List α}
    (h : List.Forall₂ r as bs) (e : Expression) :
    T.Same (as.foldr g e) (bs.foldr g (e.relocate T.move)) := by
  induction h with
  | nil => rfl
  | cons one _ ih =>
    rw [List.foldr_cons, List.foldr_cons, show _ = _ from ih]
    exact step _ _ _ one

def Makes (T : Tandem) (f g : Expression → Expression) : Prop :=
  ∀ e, g (e.relocate T.move) = (f e).relocate T.move

end Tandem

namespace Expression.Parser
open Reader Tandem Tandem.Moves

variable {T : Tandem} {n d : Nat} {inner inner' : Reader Expression}

theorem emptyTable_inline : T.Inline n Eq emptyTable emptyTable := by
  intro d
  unfold emptyTable
  refine check_inside (fun t kind => ?_) (.pure rfl rfl fun _ _ h => h)
  have content : t.kind.isContent = true := kind ▸ rfl
  rw [if_pos rfl]
  rw [Reader.checkAt_bind]
  refine peekAt [t] (by simpa) fun u hu => ?_
  change T.Moves _ _ _ _ _ _ (if (u.kind == .rightBracket) = true then _ else _)
  cases same : u.kind == .rightBracket with
  | false => exact .forget (.pure rfl rfl fun _ _ h => h)
  | true =>
    have close : u.kind.isContent = true := eq_of_beq same ▸ rfl
    exact .pass_inside content (.pass_inside close (.pure rfl rfl fun _ _ h => h))

theorem moreElements_inline {r : α → α → Prop} {element element' : Reader α}
    (h : T.Inline (n - 1) r element element') :
    T.Inline n (List.Forall₂ r) (moreElements element) (moreElements element') := by
  intro d
  unfold moreElements
  refine manyInside (.bind (skip? rfl) fun a b hab => ?_)
  subst hab
  cases a with
  | false => exact .pure .none rfl fun _ _ h => h
  | true =>
    rw [if_pos rfl, if_pos rfl]
    refine check_inside (fun _ _ => .forget (.pure .none rfl fun _ _ h => h)) ?_
    exact .bind (h d) fun _ _ hab => .pure (.some hab) rfl fun _ _ h => h

theorem bracketed_inline (h : T.Inline (n - 1) T.Same inner inner') {t : Token}
    (ht : t.kind = .leftBracket) :
    T.Moves n (fun _ => 0) (Ahead ⟨d, .inside⟩ [t]) T.Same (fun _ => Inside d) (bracketed inner)
      (bracketed inner') := by
  unfold bracketed
  refine .andThen (advance_content (ht ▸ rfl)) fun a b ⟨ha, hb⟩ => ?_
  subst ha hb
  refine .skip_inside rfl (.pure rfl rfl fun _ _ h => h) ?_
  refine .andThen (emptyTable_inline d) fun a b hab => ?_
  subst hab
  cases a with
  | true => exact .pure rfl rfl fun _ _ h => h
  | false =>
    refine .andThen (h d) fun first first' same => ?_
    refine .skip_inside rfl ?_ ?_
    · refine .andThen (h.within (by omega) d) fun value value' same' => ?_
      refine .andThen (moreElements_inline (r := fun a b => T.Same a.1 b.1 ∧ T.Same a.2 b.2)
        (fun d => ?_) d) fun more more' sames => ?_
      · refine .andThen (h.within (by omega) d) fun key key' same => ?_
        refine .andThen (discard (k := 0) (expect rfl _) fun _ => Nat.zero_le _) fun _ _ _ => ?_
        refine .andThen (h.within (by omega) d) fun e e' same' => ?_
        exact .pure ⟨same, same'⟩ rfl fun _ _ h => h
      · refine .andThen (discard (k := 0) (expect rfl _) fun _ => Nat.zero_le _) fun _ _ _ => ?_
        refine .pure ?_ rfl fun _ _ h => h
        rw [same_entries sames, same, same']
        rfl
    · refine .andThen (moreElements_inline (r := T.Same) (h.within (by omega)) d)
        fun more more' sames => ?_
      refine .andThen (discard (k := 0) (expect rfl _) fun _ => Nat.zero_le _) fun _ _ _ => ?_
      refine .pure ?_ rfl fun _ _ h => h
      rw [same_items sames, same]
      rfl

theorem primary_inline (h : T.Inline (n - 1) T.Same inner inner') :
    T.Inline n T.Same (primary inner) (primary inner') := by
  intro d
  unfold primary
  refine .peek fun t _ => ?_
  dsimp only [Token.relocate]
  split
  case h_8 kind => exact bracketed_inline h kind
  case h_9 kind =>
    refine .pass_inside (kind ▸ rfl) (.andThen (h d) fun e e' same => ?_)
    refine .andThen (discard (k := 0) (expect rfl _) fun _ => Nat.zero_le _) fun _ _ _ => ?_
    exact .pure same rfl fun _ _ h => h
  case h_10 => exact .andThen (report _ _) fun _ _ _ => .forget (.pure rfl rfl fun _ _ h => h)
  all_goals
    next kind => exact .pass_inside (kind ▸ rfl) (.pure rfl rfl fun _ _ h => h)

theorem decimalPlaces_inline {t : Token} (ht : t.kind.isContent = true) :
    T.Moves n Bool.toNat (Ahead ⟨d, .inside⟩ [t]) Eq
      (fun b => if b then Inside d else Ahead ⟨d, .inside⟩ [t]) decimalPlaces decimalPlaces := by
  unfold decimalPlaces
  refine peekAt [t] (by simpa) fun u _ => ?_
  dsimp only [Token.relocate]
  cases word : u.kind == .name && u.text == "decimal" with
  | false => exact .pure rfl rfl fun _ _ h => ⟨h.1, (List.prefix_append [t] [u]).trans h.2⟩
  | true =>
    have name : u.kind.isContent = true := eq_of_beq (Bool.and_eq_true_iff.1 word).1 ▸ rfl
    rw [if_pos rfl, Reader.checkAt_bind]
    refine peekAt [t, u] (by simpa using ⟨ht, name⟩) fun v _ => ?_
    rw [show (v.relocate T.move).kind = v.kind from rfl]
    cases same : v.kind == .leftParen with
    | false =>
      exact .pure rfl rfl fun _ _ h => ⟨h.1, (List.prefix_append [t] [u, v]).trans h.2⟩
    | true =>
      have paren : v.kind.isContent = true := eq_of_beq same ▸ rfl
      exact .pass_inside ht (.pass_inside name (.pass_inside paren
        (.pure rfl rfl fun _ _ h => h)))

theorem trailer_inline (h : T.Inline (n - 1) T.Same inner inner') :
    T.Moves n taken (Inside d) (Option.Rel T.Makes) (fun _ => Inside d) (trailer inner)
      (trailer inner') := by
  unfold trailer
  refine .peek fun t _ => ?_
  dsimp only [Token.relocate]
  split
  · next kind =>
    refine .pass_inside (kind ▸ rfl) (.bind (h d) fun e e' same => ?_)
    refine .bind (discard (k := 0) (expect rfl _) fun _ => Nat.zero_le _) fun _ _ _ => ?_
    refine .pure (.some fun a => ?_) rfl fun _ _ h => h
    rw [same]
    rfl
  · next kind =>
    refine .bind (decimalPlaces_inline (kind ▸ rfl)) fun a b hab => ?_
    subst hab
    cases a with
    | true =>
      refine .bind (h d) fun e e' same => ?_
      refine .bind (discard (k := 0) (expect rfl _) fun _ => Nat.zero_le _) fun _ _ _ => ?_
      refine .pure (.some fun a => ?_) rfl fun _ _ h => h
      rw [same]
      rfl
    | false =>
      refine .pass_inside (kind ▸ rfl) (.peek fun u _ => ?_)
      dsimp only [Token.relocate]
      split
      case h_4 =>
        exact .bind (expected _) fun _ _ _ => .forget (.pure .none rfl fun _ _ h => h)
      all_goals
        next kind =>
        exact .pass_inside (kind ▸ rfl) (.pure (.some fun _ => rfl) rfl fun _ _ h => h)
  · exact .forget (.pure .none rfl fun _ _ h => h)

theorem trailed_inline (h : T.Inline (n - 1) T.Same inner inner') :
    T.Inline n T.Same (trailed inner) (trailed inner') := by
  intro d
  unfold trailed
  refine .andThen (primary_inline h d) fun e e' same => ?_
  refine .andThen (manyInside (trailer_inline (h.within (by omega)))) fun fs gs makes => ?_
  refine .pure ?_ rfl fun _ _ h => h
  rw [same]
  exact same_foldl (fun e f g fg => fg e) makes e

theorem leader_inline (h : T.Inline (n - 1) T.Same inner inner') :
    T.Moves n taken (Inside d) (Option.Rel T.Makes) (fun _ => Inside d) (leader inner)
      (leader inner') := by
  unfold leader
  refine .peek fun t _ => ?_
  dsimp only [Token.relocate]
  split
  case h_4 kind =>
    refine .pass_inside (kind ▸ rfl) ?_
    refine .bind (trailed_inline (h.within (by omega)) d) fun e e' same => ?_
    refine .bind (discard (k := 0) (expect rfl _) fun _ => Nat.zero_le _) fun _ _ _ => ?_
    refine .pure (.some fun a => ?_) rfl fun _ _ h => h
    rw [same]
    rfl
  case h_5 => exact .forget (.pure .none rfl fun _ _ h => h)
  all_goals
    next kind =>
    exact .pass_inside (kind ▸ rfl) (.pure (.some fun _ => rfl) rfl fun _ _ h => h)

theorem led_inline (h : T.Inline (n - 1) T.Same inner inner') :
    T.Inline n T.Same (led inner) (led inner') := by
  intro d
  unfold led
  refine .andThen (manyInside (leader_inline h)) fun fs gs makes => ?_
  refine .andThen (trailed_inline (h.within (by omega)) d) fun e e' same => ?_
  refine .pure ?_ rfl fun _ _ h => h
  rw [same]
  exact same_foldr (fun e f g fg => fg e) makes e

def Joins (f : Location → Location) (a b : Expression → Expression → Expression) : Prop :=
  ∀ l r, b (l.relocate f) (r.relocate f) = (a l r).relocate f

structure Infix (operator? : Location → Kind → Option (Expression → Expression → Expression)) :
    Prop where
  moves : ∀ f l k, Option.Rel (Joins f) (operator? l k) (operator? (f l) k)
  line : ∀ l, operator? l .newline = none

theorem leftAssociative_inline
    {operator? : Location → Kind → Option (Expression → Expression → Expression)}
    (ho : Infix operator?) {operand operand' : Reader Expression}
    (h : T.Inline n T.Same operand operand') :
    T.Inline n T.Same (leftAssociative operator? operand) (leftAssociative operator? operand') := by
  intro d
  unfold leftAssociative
  refine .andThen (h d) fun first first' same => ?_
  refine .andThen (manyInside (r := fun a b => Joins T.move a.1 b.1 ∧ T.Same a.2 b.2) ?_)
    fun more more' sames => ?_
  · refine .peek fun t ht => ?_
    dsimp only [Token.relocate]
    have moved := ho.moves T.move t.location t.kind
    generalize e : operator? t.location t.kind = make at moved
    generalize operator? (T.move t.location) t.kind = make' at moved
    cases moved with
    | none => exact .forget (.pure .none rfl fun _ _ h => h)
    | some joins =>
      have content : t.kind.isContent = true :=
        ht.resolve_right fun line => by rw [line, ho.line] at e; cases e
      refine .pass_inside content (.bind (h.within (by omega) d) fun b b' same' => ?_)
      exact .pure (.some ⟨joins, same'⟩) rfl fun _ _ h => h
  · refine .pure ?_ rfl fun _ _ h => h
    rw [same]
    refine same_foldl (fun e a b ⟨joins, same⟩ => ?_) sames first
    obtain ⟨make, right⟩ := b
    obtain rfl : right = _ := same
    exact joins e a.2

theorem infix_product : Infix product? :=
  ⟨fun f l k => by cases k <;> constructor <;> exact fun _ _ => rfl, fun _ => rfl⟩

theorem infix_sum : Infix sum? :=
  ⟨fun f l k => by cases k <;> constructor <;> exact fun _ _ => rfl, fun _ => rfl⟩

theorem infix_comparison : Infix comparison? :=
  ⟨fun f l k => by cases k <;> constructor <;> exact fun _ _ => rfl, fun _ => rfl⟩

theorem infix_conjunction : Infix conjunction? :=
  ⟨fun f l k => by cases k <;> constructor; exact fun _ _ => rfl, fun _ => rfl⟩

theorem infix_disjunction : Infix disjunction? :=
  ⟨fun f l k => by cases k <;> constructor; exact fun _ _ => rfl, fun _ => rfl⟩

theorem comparison_inline (h : T.Inline (n - 1) T.Same inner inner') :
    T.Inline n T.Same (comparison inner) (comparison inner') := by
  have side : T.Inline n T.Same (sum inner) (sum inner') :=
    leftAssociative_inline infix_sum (leftAssociative_inline infix_product (led_inline h))
  intro d
  unfold comparison
  refine .andThen (side d) fun left left' same => .peek fun t ht => ?_
  dsimp only [Token.relocate]
  have moved := infix_comparison.moves T.move t.location t.kind
  generalize e : comparison? t.location t.kind = make at moved
  generalize comparison? (T.move t.location) t.kind = make' at moved
  cases moved with
  | some joins =>
    have content : t.kind.isContent = true :=
      ht.resolve_right fun line => by rw [line, infix_comparison.line] at e; cases e
    refine .pass_inside content (.andThen (side.within (by omega) d) fun right right' same' => ?_)
    refine .pure ?_ rfl fun _ _ h => h
    rw [same, same']
    exact joins left right
  | none =>
    cases tested : testedType? t.kind with
    | none => exact .forget (.pure same rfl fun _ _ h => h)
    | some type =>
      have content : t.kind.isContent = true :=
        ht.resolve_right fun line => by rw [line] at tested; cases tested
      refine .pass_inside content (.pure ?_ rfl fun _ _ h => h)
      rw [same]
      rfl

theorem negation_inline (h : T.Inline (n - 1) T.Same inner inner') :
    T.Inline n T.Same (negation inner) (negation inner') := by
  intro d
  unfold negation
  refine .andThen (manyInside (r := fun a b => b = a.relocate T.move) ?_) fun nots nots' sames => ?_
  · refine weaken (take? rfl) (Nat.le_refl n) (fun _ => Nat.le_refl _) (fun _ _ h => h)
      (fun a b hab => ?_) fun _ _ _ h => h
    subst hab
    cases a <;> constructor
    rfl
  · refine .andThen (comparison_inline (h.within (by omega)) d) fun e e' same => ?_
    refine .pure ?_ rfl fun _ _ h => h
    rw [same]
    refine same_foldr (fun e t u htu => ?_) sames e
    rw [htu]
    rfl

theorem nested_inline {bound : List β} {bound' : List γ} (hb : n ≤ bound.length)
    (hb' : n ≤ bound'.length) : T.Inline n T.Same (nested bound) (nested bound') := by
  induction bound generalizing n bound' with
  | nil =>
    obtain rfl : n = 0 := Nat.le_zero.1 hb
    exact fun _ => .exhausted fun _ => Nat.not_lt_zero _
  | cons _ bound ih =>
    cases bound' with
    | nil =>
      obtain rfl : n = 0 := Nat.le_zero.1 hb'
      exact fun _ => .exhausted fun _ => Nat.not_lt_zero _
    | cons _ bound' =>
      have inner := ih (n := n - 1) (Nat.sub_le_of_le_add hb) (Nat.sub_le_of_le_add hb')
      exact leftAssociative_inline infix_disjunction
        (leftAssociative_inline infix_conjunction (negation_inline inner))

theorem expression_inline : T.Inline n T.Same expression expression :=
  fun d => bounded fun _ _ _ _ hb hb' => nested_inline hb hb' d

end Expression.Parser

end StepsLang
