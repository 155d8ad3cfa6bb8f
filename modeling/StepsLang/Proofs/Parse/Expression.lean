import StepsLang.Expression.Parser
import StepsLang.Proofs.Parse.Reads
import StepsLang.Proofs.Print.Expression

namespace StepsLang

def Token.word (k : Kind) : Token := { kind := k, text := k.spelling }

def Kind.level : Kind → Nat
  | .or => 1
  | .and => 2
  | .isEqualTo | .equals | .isNotEqualTo | .isLessThan | .isGreaterThan | .isLessThanOrEqualTo
  | .isGreaterThanOrEqualTo | .isIn | .contains | .startsWith | .endsWith | .isANumber | .isAText
  | .isABoolean | .isAList | .isATable => 4
  | .plus | .minus | .addedTo | .splitBy => 5
  | .star | .slash | .modulo => 6
  | .leftBracket | .as => 8
  | _ => 0

namespace Expression.Parser
open Reader

abbrev Looser (n : Nat) (k : Kind) : Prop := k.level < n

abbrev Any (_ : Kind) : Prop := True

def parens (ws : List Token) : List Token := .word .leftParen :: (ws ++ [.word .rightParen])

variable {inner : Reader Expression} {ws us : List Token} {b c : Expression}

theorem primary_parens (h : Reads unlocated inner ws b (Looser 1)) :
    Reads unlocated (primary inner) (parens ws) b Any := by
  rw [primary]
  refine .peek fun l => .discard (.advance (by decide) fun l => ?_)
  refine .bind h (by decide) fun e he => ?_
  refine .discard (.expect rfl (by decide) fun l => ?_)
  exact .pure he

theorem primary_numeral (n : Number) (s : Bytes) :
    Reads unlocated (primary inner) [{ kind := .numeral, text := s, value := n }] (number {} n)
      Any := by
  rw [primary]
  exact .peek fun l => .discard (.advance (by simp) fun l => .pure rfl)

theorem primary_quoted (s : Bytes) :
    Reads unlocated (primary inner) [{ kind := .quoted, text := s }] (text {} s) Any := by
  rw [primary]
  exact .peek fun l => .discard (.advance (by simp) fun l => .pure rfl)

theorem primary_name (x : Bytes) :
    Reads unlocated (primary inner) [{ kind := .name, text := x }] (name {} x) Any := by
  rw [primary]
  exact .peek fun l => .discard (.advance (by simp) fun l => .pure rfl)

theorem primary_boolean (b : Bool) :
    Reads unlocated (primary inner) [.word (if b then .true else .false)] (boolean {} b) Any := by
  rw [primary]
  cases b <;> exact .peek fun l => .discard (.advance (by decide) fun l => .pure rfl)

theorem primary_nothing :
    Reads unlocated (primary inner) [.word .nothing] (nothing {}) Any := by
  rw [primary]
  exact .peek fun l => .discard (.advance (by decide) fun l => .pure rfl)

theorem primary_input : Reads unlocated (primary inner) [.word .input] (input {}) Any := by
  rw [primary]
  exact .peek fun l => .discard (.advance (by decide) fun l => .pure rfl)

theorem trailer_declines : Declines (trailer inner) (Looser 8) := by
  refine Reads.declines ?_
  rw [trailer]
  refine .peek_next (fun _ hx => hx) fun t ht => ?_
  split
  · next e => simp [e, Kind.level] at ht
  · next e => simp [e, Kind.level] at ht
  · exact .pure rfl

theorem trailed_of_primary (h : Reads unlocated (primary inner) ws b Any) :
    Reads unlocated (trailed inner) ws b (Looser 8) := by
  rw [trailed]
  refine .last h (fun _ _ => trivial) fun e he => ?_
  exact .many_none trailer_declines (fun _ hx => hx) (.pure he)

theorem decimalPlaces_not {m : α → β} {g : Bool → Reader α} {w v : Token} {r : β}
    {k : Kind → Prop} (hv : v.kind ≠ .name) (h : Reads m (g false) (w :: v :: ws) r k) :
    Reads m (decimalPlaces >>= g) (w :: v :: ws) r k := by
  rw [decimalPlaces, bind_assoc]
  refine .peekAt (w := v) rfl fun l => ?_
  rw [show (v.at l).kind = v.kind from rfl, if_neg (by simp [hv]), pure_bind]
  exact h

theorem decimalPlaces_reads :
    Reads id decimalPlaces
      [.word .as, { kind := .name, text := "decimal" }, .word .leftParen] true Any := by
  rw [decimalPlaces]
  refine .peekAt rfl fun l => ?_
  refine .checkAt rfl rfl ?_
  exact .discard (.advance (by decide) fun _ => .discard (.advance (by decide) fun _ =>
    .discard (.advance (by decide) fun _ => .pure rfl)))

def leaders : List Kind := [.minus, .lengthOf, .typeOf, .characterAt]

theorem leader_declines : Declines (leader inner) (· ∉ leaders) := by
  refine Reads.declines ?_
  rw [leader]
  refine .peek_next (fun _ hx => hx) fun t ht => ?_
  split
  · next e => simp [e, leaders] at ht
  · next e => simp [e, leaders] at ht
  · next e => simp [e, leaders] at ht
  · next e => simp [e, leaders] at ht
  · exact .pure rfl

theorem led_of_trailed (start : Next (· ∉ leaders) ws (Looser 7))
    (h : Reads unlocated (trailed inner) ws b (Looser 8)) :
    Reads unlocated (led inner) ws b (Looser 7) := by
  rw [led]
  refine .many_none leader_declines start (.last h (fun x hx => ?_) fun e he => .pure he)
  exact Nat.lt_succ_of_lt hx

variable {operator? : Location → Kind → Option (Expression → Expression → Expression)}
  {operand : Reader Expression} {k k₁ : Kind → Prop}

theorem leftAssociative_of_operand (h : Reads unlocated operand ws b k₁) (hk : ∀ x, k x → k₁ x)
    (stop : ∀ l x, k x → operator? l x = none) :
    Reads unlocated (leftAssociative operator? operand) ws b k := by
  rw [leftAssociative]
  refine .last h hk fun e he => ?_
  refine .many_none (d := k) (Reads.declines ?_) (fun _ hx => hx) (.pure he)
  refine .peek_next (fun _ hx => hx) fun t ht => ?_
  rw [stop _ _ ht]
  exact .pure rfl

theorem leftAssociative_pair {w : Token} {make : Location → Expression → Expression → Expression}
    {mk : Expression → Expression → Expression} (h : Reads unlocated operand ws b k₁)
    (h' : Reads unlocated operand us c k₁) (hw : k₁ w.kind) (other : w.kind ≠ .endOfFile)
    (found : ∀ l, operator? l w.kind = some (make l))
    (made : ∀ l x y, (make l x y).unlocated = mk x.unlocated y.unlocated)
    (hk : ∀ x, k x → k₁ x) (stop : ∀ l x, k x → operator? l x = none) :
    Reads unlocated (leftAssociative operator? operand) (ws ++ w :: us) (mk b c) k := by
  rw [leftAssociative]
  refine .bind h hw fun e he => ?_
  refine .many_last (n := fun p left => (p.1 left p.2).unlocated)
    (c := fun left => mk left.unlocated c) (.peek fun l => ?_) hw hk (Reads.declines ?_)
    fun f hf => .pure ?_
  · rw [show (w.at l).kind = w.kind from rfl, found]
    refine .discard (.advance other fun _ => .last h' (fun _ hx => hx) fun e he => .pure ?_)
    simp [made, he]
  · refine .peek_next (fun _ hx => hx) fun t ht => ?_
    rw [stop _ _ ht]
    exact .pure rfl
  · have same := congrFun hf e
    rw [he] at same
    exact same

theorem product?_eq_none {x : Kind} (hx : Looser 6 x) (l : Location) :
    product? l x = none := by
  unfold product?
  split <;> first | rfl | contradiction

theorem sum?_eq_none {x : Kind} (hx : Looser 5 x) (l : Location) :
    sum? l x = none := by
  unfold sum?
  split <;> first | rfl | contradiction

theorem comparison?_eq_none {x : Kind} (hx : Looser 4 x) (l : Location) :
    comparison? l x = none := by
  unfold comparison?
  split <;> first | rfl | contradiction

theorem conjunction?_eq_none {x : Kind} (hx : Looser 2 x) (l : Location) :
    conjunction? l x = none := by
  unfold conjunction?
  split <;> first | rfl | contradiction

theorem disjunction?_eq_none {x : Kind} (hx : Looser 1 x) (l : Location) :
    disjunction? l x = none := by
  unfold disjunction?
  split <;> first | rfl | contradiction

theorem product_of_led (h : Reads unlocated (led inner) ws b (Looser 7)) :
    Reads unlocated (product inner) ws b (Looser 6) := by
  refine leftAssociative_of_operand h (fun x hx => Nat.lt_succ_of_lt hx) fun l x hx => ?_
  exact product?_eq_none hx l

theorem sum_of_product (h : Reads unlocated (product inner) ws b (Looser 6)) :
    Reads unlocated (sum inner) ws b (Looser 5) := by
  refine leftAssociative_of_operand h (fun x hx => Nat.lt_succ_of_lt hx) fun l x hx => ?_
  exact sum?_eq_none hx l

theorem testedType?_eq_none {x : Kind} (hx : Looser 4 x) : testedType? x = none := by
  unfold testedType?
  split <;> first | rfl | contradiction

theorem comparison_of_sum (h : Reads unlocated (sum inner) ws b (Looser 5)) :
    Reads unlocated (comparison inner) ws b (Looser 4) := by
  rw [comparison]
  refine .last h (fun x hx => Nat.lt_succ_of_lt hx) fun e he => ?_
  refine .peek_next (fun _ hx => hx) fun t ht => ?_
  rw [comparison?_eq_none ht, testedType?_eq_none ht]
  exact .pure he

theorem negation_of_comparison (start : Next (· ≠ .not) ws (Looser 3))
    (h : Reads unlocated (comparison inner) ws b (Looser 4)) :
    Reads unlocated (negation inner) ws b (Looser 3) := by
  rw [negation]
  refine .many_none (Reads.take?_declines .not) start ?_
  refine .last h (fun x hx => ?_) fun e he => .pure he
  exact Nat.lt_succ_of_lt hx

theorem conjunction_of_negation (h : Reads unlocated (negation inner) ws b (Looser 3)) :
    Reads unlocated (conjunction inner) ws b (Looser 2) := by
  refine leftAssociative_of_operand h (fun x hx => Nat.lt_succ_of_lt hx) fun l x hx => ?_
  exact conjunction?_eq_none hx l

theorem disjunction_of_conjunction (h : Reads unlocated (conjunction inner) ws b (Looser 2)) :
    Reads unlocated (disjunction inner) ws b (Looser 1) := by
  refine leftAssociative_of_operand h (fun x hx => Nat.lt_succ_of_lt hx) fun l x hx => ?_
  exact disjunction?_eq_none hx l

def Plain (ws : List Token) : Prop := ∃ w us, ws = w :: us ∧ w.kind ∉ leaders ∧ w.kind ≠ .not

theorem Plain.append (h : Plain ws) (us : List Token) : Plain (ws ++ us) := by
  obtain ⟨w, vs, rfl, hw⟩ := h
  exact ⟨w, vs ++ us, rfl, hw⟩

theorem plain_parens (ws : List Token) : Plain (parens ws) := ⟨_, _, rfl, by decide, by decide⟩

theorem disjunction_of_negation (h : Reads unlocated (negation inner) ws b (Looser 3)) :
    Reads unlocated (disjunction inner) ws b (Looser 1) :=
  disjunction_of_conjunction (conjunction_of_negation h)

theorem disjunction_of_comparison (start : Next (· ≠ .not) ws (Looser 3))
    (h : Reads unlocated (comparison inner) ws b (Looser 4)) :
    Reads unlocated (disjunction inner) ws b (Looser 1) :=
  disjunction_of_negation (negation_of_comparison start h)

theorem disjunction_of_product (start : Next (· ≠ .not) ws (Looser 3))
    (h : Reads unlocated (product inner) ws b (Looser 6)) :
    Reads unlocated (disjunction inner) ws b (Looser 1) :=
  disjunction_of_comparison start (comparison_of_sum (sum_of_product h))

theorem disjunction_of_led (start : Next (· ≠ .not) ws (Looser 3))
    (h : Reads unlocated (led inner) ws b (Looser 7)) :
    Reads unlocated (disjunction inner) ws b (Looser 1) :=
  disjunction_of_product start (product_of_led h)

theorem led_of_plain (start : Plain ws) (h : Reads unlocated (trailed inner) ws b (Looser 8)) :
    Reads unlocated (led inner) ws b (Looser 7) := by
  obtain ⟨w, us, rfl, plain, -⟩ := start
  exact led_of_trailed plain h

theorem disjunction_of_trailed (start : Plain ws)
    (h : Reads unlocated (trailed inner) ws b (Looser 8)) :
    Reads unlocated (disjunction inner) ws b (Looser 1) := by
  have led_ := led_of_plain start h
  obtain ⟨w, us, rfl, -, other⟩ := start
  exact disjunction_of_led other led_

theorem disjunction_of_primary (start : Plain ws)
    (h : Reads unlocated (primary inner) ws b Any) :
    Reads unlocated (disjunction inner) ws b (Looser 1) :=
  disjunction_of_trailed start (trailed_of_primary h)

theorem Plain.next_not (h : Plain ws) (k : Kind → Prop) : Next (· ≠ .not) ws k := by
  obtain ⟨w, us, rfl, -, other⟩ := h
  exact other

structure Part (inner : Reader Expression) (ws : List Token) (b : Expression) : Prop where
  plain : Plain ws
  reads : Reads unlocated (primary inner) ws b Any

theorem part_parens (h : Reads unlocated inner ws b (Looser 1)) : Part inner (parens ws) b :=
  ⟨plain_parens ws, primary_parens h⟩

namespace Part

theorem led (h : Part inner ws b) : Reads unlocated (led inner) ws b (Looser 7) :=
  led_of_plain h.plain (trailed_of_primary h.reads)

theorem product (h : Part inner ws b) : Reads unlocated (product inner) ws b (Looser 6) :=
  product_of_led h.led

theorem sum (h : Part inner ws b) : Reads unlocated (sum inner) ws b (Looser 5) :=
  sum_of_product h.product

theorem comparison (h : Part inner ws b) : Reads unlocated (comparison inner) ws b (Looser 4) :=
  comparison_of_sum h.sum

theorem negation (h : Part inner ws b) : Reads unlocated (negation inner) ws b (Looser 3) :=
  negation_of_comparison (h.plain.next_not _) h.comparison

theorem conjunction (h : Part inner ws b) : Reads unlocated (conjunction inner) ws b (Looser 2) :=
  conjunction_of_negation h.negation

theorem disjunction (h : Part inner ws b) : Reads unlocated (disjunction inner) ws b (Looser 1) :=
  disjunction_of_conjunction h.conjunction

variable {w : Token} {make : Location → Expression → Expression → Expression}
  {mk : Expression → Expression → Expression}

theorem product_pair (h : Part inner ws b) (h' : Part inner us c) (hw : Looser 7 w.kind)
    (other : w.kind ≠ .endOfFile) (found : ∀ l, product? l w.kind = some (make l))
    (made : ∀ l x y, (make l x y).unlocated = mk x.unlocated y.unlocated) :
    Reads unlocated (Parser.disjunction inner) (ws ++ w :: us) (mk b c) (Looser 1) := by
  refine disjunction_of_product ((h.plain.append _).next_not _) ?_
  exact leftAssociative_pair h.led h'.led hw other found made (fun x hx => Nat.lt_succ_of_lt hx)
    fun l x hx => product?_eq_none hx l

theorem sum_pair (h : Part inner ws b) (h' : Part inner us c) (hw : Looser 6 w.kind)
    (other : w.kind ≠ .endOfFile) (found : ∀ l, sum? l w.kind = some (make l))
    (made : ∀ l x y, (make l x y).unlocated = mk x.unlocated y.unlocated) :
    Reads unlocated (Parser.disjunction inner) (ws ++ w :: us) (mk b c) (Looser 1) := by
  refine disjunction_of_comparison ((h.plain.append _).next_not _) (comparison_of_sum ?_)
  exact leftAssociative_pair h.product h'.product hw other found made
    (fun x hx => Nat.lt_succ_of_lt hx) fun l x hx => sum?_eq_none hx l

theorem comparison_pair (h : Part inner ws b) (h' : Part inner us c) (hw : Looser 5 w.kind)
    (other : w.kind ≠ .endOfFile) (found : ∀ l, comparison? l w.kind = some (make l))
    (made : ∀ l x y, (make l x y).unlocated = mk x.unlocated y.unlocated) :
    Reads unlocated (Parser.disjunction inner) (ws ++ w :: us) (mk b c) (Looser 1) := by
  refine disjunction_of_comparison ((h.plain.append _).next_not _) ?_
  rw [Parser.comparison]
  refine .bind h.sum hw fun x hx => .peek fun l => ?_
  rw [show (w.at l).kind = w.kind from rfl, found]
  refine .discard (.advance other fun _ => ?_)
  refine .last h'.sum (fun x hx => Nat.lt_succ_of_lt hx) fun y hy => .pure ?_
  rw [made, hx, hy]

theorem conjunction_pair (h : Part inner ws b) (h' : Part inner us c) :
    Reads unlocated (Parser.disjunction inner) (ws ++ .word .and :: us) (binary {} .and b c)
      (Looser 1) := by
  refine disjunction_of_conjunction ?_
  exact leftAssociative_pair h.negation h'.negation (by decide) (by decide) (fun _ => rfl)
    (fun _ _ _ => rfl) (fun x hx => Nat.lt_succ_of_lt hx) fun l x hx => conjunction?_eq_none hx l

theorem disjunction_pair (h : Part inner ws b) (h' : Part inner us c) :
    Reads unlocated (Parser.disjunction inner) (ws ++ .word .or :: us) (binary {} .or b c)
      (Looser 1) :=
  leftAssociative_pair h.conjunction h'.conjunction (by decide) (by decide) (fun _ => rfl)
    (fun _ _ _ => rfl) (fun x hx => Nat.lt_succ_of_lt hx) fun l x hx => disjunction?_eq_none hx l

theorem binary (op : Operator) (h : Part inner ws b) (h' : Part inner us c) :
    Reads unlocated (Parser.disjunction inner) (ws ++ .word op.kind :: us) (binary {} op b c)
      (Looser 1) := by
  cases op with
  | add | subtract =>
    exact h.sum_pair h' (by decide) (by decide) (fun _ => rfl) fun _ _ _ => rfl
  | multiply | divide | modulo =>
    exact h.product_pair h' (by decide) (by decide) (fun _ => rfl) fun _ _ _ => rfl
  | and => exact h.conjunction_pair h'
  | or => exact h.disjunction_pair h'
  | _ => exact h.comparison_pair h' (by decide) (by decide) (fun _ => rfl) fun _ _ _ => rfl

theorem word (op : WordOperator) (infix_ : op ≠ .characterAt) (h : Part inner ws b)
    (h' : Part inner us c) :
    Reads unlocated (Parser.disjunction inner) (ws ++ .word op.kind :: us) (word {} op b c)
      (Looser 1) := by
  cases op with
  | characterAt => contradiction
  | addedTo | splitBy =>
    exact h.sum_pair h' (by decide) (by decide) (fun _ => rfl) fun _ _ _ => rfl
  | _ => exact h.comparison_pair h' (by decide) (by decide) (fun _ => rfl) fun _ _ _ => rfl

theorem isA (type : TypeName) (h : Part inner ws b) :
    Reads unlocated (Parser.disjunction inner) (ws ++ [.word type.test]) (isA {} type b)
      (Looser 1) := by
  have found (l : Location) :
      comparison? l type.test = none ∧ testedType? type.test = some type := by
    cases type <;> exact ⟨rfl, rfl⟩
  have known : type.test ≠ .endOfFile ∧ Looser 5 type.test := by cases type <;> decide
  refine disjunction_of_comparison ((h.plain.append _).next_not _) ?_
  rw [Parser.comparison]
  refine .bind h.sum known.2 fun x hx => .peek fun l => ?_
  rw [show ((Token.word type.test).at l).kind = type.test from rfl, (found _).1, (found l).2]
  exact .discard (.advance known.1 fun _ => .pure (by rw [unlocated, hx]))

theorem not (h : Part inner ws b) :
    Reads unlocated (Parser.disjunction inner) (.word .not :: ws) (not {} b) (Looser 1) := by
  refine disjunction_of_negation ?_
  rw [Parser.negation]
  have item : Reads (Option.map fun (_ : Token) => ()) (take? .not) [.word .not] (some ()) Any := by
    rw [← bind_pure (take? .not)]
    exact .take? rfl (by decide) fun l => .pure rfl
  refine .many_one (u := []) item trivial (fun _ _ => trivial) (Reads.take?_declines .not)
    (h.plain.next_not (Looser 3)) fun t _ => ?_
  refine .last h.comparison (fun x hx => Nat.lt_succ_of_lt hx) fun e he => .pure ?_
  simp [unlocated, he]

theorem leading {w : Token} (vs : List Token) (make : Expression → Expression)
    (item : Reads (Option.map fun (f : Expression → Expression) => fun e => (f e).unlocated)
      (leader inner) (w :: vs) (some fun e => make e.unlocated) Any)
    (start : w.kind ≠ .not) (h : Part inner ws b) :
    Reads unlocated (Parser.disjunction inner) (w :: (vs ++ ws)) (make b) (Looser 1) := by
  refine disjunction_of_led start ?_
  rw [Parser.led]
  obtain ⟨v, us, rfl, plain, -⟩ := h.plain
  refine .many_one item trivial (fun _ _ => trivial) leader_declines plain fun f hf => ?_
  refine .last (trailed_of_primary h.reads) (fun x hx => Nat.lt_succ_of_lt hx) fun e he => .pure ?_
  have same := congrFun hf e
  rw [he] at same
  exact same

theorem negate (h : Part inner ws b) :
    Reads unlocated (Parser.disjunction inner) (.word .minus :: ws) (negate {} b) (Looser 1) := by
  refine leading [] (Expression.negate {}) ?_ (by decide) h
  rw [leader]
  exact .peek fun l => .discard (.advance (by decide) fun _ => .pure rfl)

theorem lengthOf (h : Part inner ws b) :
    Reads unlocated (Parser.disjunction inner) (.word .lengthOf :: ws) (lengthOf {} b)
      (Looser 1) := by
  refine leading [] (Expression.lengthOf {}) ?_ (by decide) h
  rw [leader]
  exact .peek fun l => .discard (.advance (by decide) fun _ => .pure rfl)

theorem typeOf (h : Part inner ws b) :
    Reads unlocated (Parser.disjunction inner) (.word .typeOf :: ws) (typeOf {} b)
      (Looser 1) := by
  refine leading [] (Expression.typeOf {}) ?_ (by decide) h
  rw [leader]
  exact .peek fun l => .discard (.advance (by decide) fun _ => .pure rfl)

theorem characterAt (h : Part inner ws b) (h' : Part inner us c) :
    Reads unlocated (Parser.disjunction inner)
      (.word .characterAt :: ((ws ++ [.word .of]) ++ us)) (Expression.word {} .characterAt b c)
      (Looser 1) := by
  refine leading _ (Expression.word {} .characterAt b) ?_ (by decide) h'
  rw [leader]
  refine .peek fun l => .discard (.advance (by decide) fun _ => ?_)
  refine .bind (trailed_of_primary h.reads) (by decide) fun x hx => ?_
  exact .discard (.expect rfl (by decide) fun _ => .pure (by simp [unlocated, hx]))

theorem trailing {w : Token} {vs : List Token} (make : Expression → Expression)
    (item : Reads (Option.map fun (f : Expression → Expression) => fun e => (f e).unlocated)
      (trailer inner) (w :: vs) (some fun e => make e.unlocated) Any)
    (h : Part inner ws b) :
    Reads unlocated (Parser.disjunction inner) (ws ++ w :: vs) (make b) (Looser 1) := by
  refine disjunction_of_trailed (h.plain.append _) ?_
  rw [trailed]
  refine .bind h.reads trivial fun e he => ?_
  refine .many_last item trivial (fun _ _ => trivial) trailer_declines fun f hf => .pure ?_
  have same := congrFun hf e
  rw [he] at same
  exact same

theorem index (h : Part inner ws b) (h' : Reads unlocated inner us c (Looser 1)) :
    Reads unlocated (Parser.disjunction inner)
      (ws ++ .word .leftBracket :: (us ++ [.word .rightBracket])) (index {} b c) (Looser 1) := by
  refine trailing (fun e => Expression.index {} e c) ?_ h
  rw [trailer]
  refine .peek fun l => .discard (.advance (by decide) fun _ => ?_)
  refine .bind h' (by decide) fun x hx => ?_
  exact .discard (.expect rfl (by decide) fun _ => .pure (by simp [unlocated, hx]))

theorem convert (type : TypeName) (ht : [TypeName.number, .text, .boolean].contains type = true)
    (h : Part inner ws b) :
    Reads unlocated (Parser.disjunction inner) (ws ++ [.word .as, .word type.kind])
      (convert {} type b) (Looser 1) := by
  refine trailing (Expression.convert {} type) ?_ h
  have other : type.kind ≠ .name ∧ type.kind ≠ .endOfFile := by cases type <;> decide
  rw [trailer]
  refine .peek fun l => ?_
  refine decimalPlaces_not other.1 (.discard (.advance (by decide) fun _ => ?_))
  refine .peek fun l' => ?_
  cases type with
  | number | text | boolean => exact .discard (.advance (by decide) fun _ => .pure rfl)
  | list | table => cases ht

theorem decimal (h : Part inner ws b) (h' : Reads unlocated inner us c (Looser 1)) :
    Reads unlocated (Parser.disjunction inner)
      (ws ++ .word .as :: { kind := .name, text := "decimal" } :: parens us) (decimal {} b c)
      (Looser 1) := by
  refine trailing (fun e => Expression.decimal {} e c) ?_ h
  rw [trailer]
  refine .peek fun l => ?_
  refine .bind (v := us ++ [.word .rightParen]) decimalPlaces_reads (Reads.next_any _ _) ?_
  rintro r rfl
  refine .bind h' (by decide) fun x hx => ?_
  exact .discard (.expect rfl (by decide) fun _ => .pure (by simp [unlocated, hx]))

end Part

def nextElement (element : Reader α) : Reader (Option α) := do
  if ← skip? .comma then
    if ← check .rightBracket then return none else return some (← element)
  else return none

theorem moreElements_eq (element : Reader α) : moreElements element = many (nextElement element) :=
  rfl

def Separates (x : Kind) : Prop := x = .comma ∨ x = .rightBracket

theorem Separates.looser {x : Kind} (h : Separates x) : Looser 1 x := by
  rcases h with rfl | rfl <;> decide

theorem Separates.ne_colon {x : Kind} (h : Separates x) : x ≠ .colon := by
  rcases h with rfl | rfl <;> decide

theorem nextElement_reads {m : α → β} {element : Reader α} {r : β}
    (h : Reads m element (.word .leftParen :: ws) r (Looser 1)) :
    Reads (Option.map m) (nextElement element) (.word .comma :: .word .leftParen :: ws) (some r)
      Separates := by
  rw [nextElement]
  refine .skip? rfl (by decide) ?_
  rw [if_pos rfl]
  refine .check (r := false) rfl ?_
  rw [if_neg (by simp)]
  exact .last h (fun _ hx => hx.looser) fun a ha => .pure (by simp [ha])

theorem nextElement_declines (element : Reader α) :
    Declines (nextElement element) (· = .rightBracket) := by
  refine Reads.declines ?_
  rw [nextElement]
  refine .skip?_not (fun x hx => by simp [hx]) ?_
  exact .pure rfl

theorem emptyTable_not {m : α → β} {g : Bool → Reader α} {w : Token} {r : β} {k : Kind → Prop}
    (hw : w.kind ≠ .colon) (h : Reads m (g false) (w :: ws) r k) :
    Reads m (emptyTable >>= g) (w :: ws) r k := by
  rw [emptyTable, bind_assoc]
  refine .check (r := false) (by simpa using hw) ?_
  rw [if_neg (by simp), pure_bind]
  exact h

theorem emptyTable_reads :
    Reads id emptyTable [.word .colon, .word .rightBracket] true Any := by
  rw [emptyTable]
  refine .check (r := true) rfl ?_
  refine .checkAt (r := true) rfl rfl ?_
  exact .discard (.advance (by decide) fun _ => .discard (.advance (by decide) fun _ => .pure rfl))

theorem part_bracketed (h : Reads unlocated (bracketed inner) (.word .leftBracket :: ws) b Any) :
    Part inner (.word .leftBracket :: ws) b := by
  refine ⟨⟨_, _, rfl, by decide, by decide⟩, ?_⟩
  rw [primary]
  exact .peek fun l => h

theorem part_emptyList : Part inner [.word .leftBracket, .word .rightBracket] (list {} []) := by
  refine part_bracketed ?_
  rw [bracketed]
  refine .advance (by decide) fun l => .skip? rfl (by decide) ?_
  exact .pure rfl

theorem part_emptyTable :
    Part inner [.word .leftBracket, .word .colon, .word .rightBracket] (table {} []) := by
  refine part_bracketed ?_
  rw [bracketed]
  refine .advance (by decide) fun l => .skip?_not (by decide) ?_
  refine .last emptyTable_reads (fun _ _ => trivial) ?_
  rintro r rfl
  exact .pure rfl

theorem part_list {items : List (List Token × Expression)}
    (first : Reads unlocated inner (.word .leftParen :: ws) b (Looser 1))
    (rest : Reads.Items unlocated (nextElement inner) items Separates (· = .rightBracket)) :
    Part inner (.word .leftBracket :: .word .leftParen ::
        (ws ++ (items.flatMap (·.1) ++ [.word .rightBracket])))
      (list {} (b :: items.map (·.2))) := by
  have next : Next Separates (items.flatMap (·.1) ++ [.word .rightBracket]) Any := rest.next rfl
  refine part_bracketed ?_
  rw [bracketed]
  refine .advance (by decide) fun l => .skip?_not (.cons (by decide)) ?_
  rw [if_neg (by simp)]
  refine emptyTable_not (by decide) ?_
  rw [if_neg (by simp)]
  refine .bind (u := .word .leftParen :: ws) first (next.weaken fun _ => Separates.looser) ?_
  intro e he
  refine .skip?_not (next.weaken fun _ => Separates.ne_colon) ?_
  rw [if_neg (by simp), moreElements_eq]
  refine .bind (Reads.many rest) (.cons rfl) fun es hes => ?_
  refine .discard (.expect rfl (by decide) fun _ => .pure ?_)
  rw [unlocated, unlocatedItems_eq, List.map_cons, he, hes]

def entry (inner : Reader Expression) : Reader (Expression × Expression) := do
  let key ← inner
  discard (expect .colon ":")
  return (key, ← inner)

theorem entry_reads (h : Reads unlocated inner ws b (Looser 1))
    (h' : Reads unlocated inner us c (Looser 1)) :
    Reads (Prod.map unlocated unlocated) (entry inner) (ws ++ .word .colon :: us) (b, c)
      (Looser 1) := by
  rw [entry]
  refine .bind h (.cons (by decide)) fun key hk => ?_
  refine .discard (.expect rfl (by decide) fun _ => ?_)
  exact .last h' (fun _ hx => hx) fun e he => .pure (by rw [Prod.map, hk, he])

theorem part_table {items : List (List Token × (Expression × Expression))}
    (key : Reads unlocated inner (.word .leftParen :: ws) b (Looser 1))
    (first : Reads unlocated inner us c (Looser 1))
    (rest : Reads.Items (Prod.map unlocated unlocated) (nextElement (entry inner)) items Separates
      (· = .rightBracket)) :
    Part inner (.word .leftBracket :: .word .leftParen :: (ws ++ (.word .colon ::
        (us ++ (items.flatMap (·.1) ++ [.word .rightBracket])))))
      (table {} ((b, c) :: items.map (·.2))) := by
  have next : Next Separates (items.flatMap (·.1) ++ [.word .rightBracket]) Any := rest.next rfl
  refine part_bracketed ?_
  rw [bracketed]
  refine .advance (by decide) fun l => .skip?_not (.cons (by decide)) ?_
  rw [if_neg (by simp)]
  refine emptyTable_not (by decide) ?_
  rw [if_neg (by simp)]
  refine .bind (u := .word .leftParen :: ws) key (.cons (by decide)) fun k hk => ?_
  refine .skip? rfl (by decide) ?_
  rw [if_pos rfl]
  refine .bind first (next.weaken fun _ => Separates.looser) fun e he => ?_
  change Reads _ (moreElements (entry inner) >>= _) _ _ _
  rw [moreElements_eq]
  refine .bind (Reads.many rest) (.cons rfl) fun es hes => ?_
  refine .discard (.expect rfl (by decide) fun _ => .pure ?_)
  rw [unlocated, unlocatedEntries_eq, List.map_cons, Prod.map, hk, he, hes]

@[simp] theorem tokens_word (k : Kind) (ps : List Piece) :
    tokens (.word k :: ps) = .word k :: tokens ps := rfl

@[simp] theorem tokens_blank (ps : List Piece) : tokens (.blank :: ps) = tokens ps := rfl

@[simp] theorem tokens_name (x : Bytes) (ps : List Piece) :
    tokens (.name x :: ps) = { kind := .name, text := x } :: tokens ps := rfl

@[simp] theorem tokens_paren (ps : List Piece) : tokens (paren ps) = parens (tokens ps) := by
  simp [paren, parens]

@[simp] theorem tokens_between (ps : List Piece) (k : Kind) (qs : List Piece) :
    tokens (between ps k qs) = parens (tokens ps) ++ .word k :: parens (tokens qs) := by
  simp [between]

@[simp] theorem tokens_leading (k : Kind) (ps : List Piece) :
    tokens (leading k ps) = .word k :: parens (tokens ps) := by
  simp [leading]

@[simp] theorem length_parens (ws : List Token) : (parens ws).length = ws.length + 2 := by
  simp [parens]

/-- Whatever brackets an expression has, so many levels of them are enough. -/
def Known (spell : Numerals) (e : Expression) : Prop :=
  ∀ bound : List Heard, (tokens (e.pieces spell)).length ≤ bound.length →
    Reads unlocated (nested bound) (tokens (e.pieces spell)) e.unlocated (Looser 1)

variable {spell : Numerals} {e e' : Expression} {bound : List Heard}

theorem Known.part (h : Known spell e) (bound : List Heard)
    (hb : (tokens (e.pieces spell)).length ≤ bound.length) :
    Part (nested bound) (parens (tokens (e.pieces spell))) e.unlocated :=
  part_parens (h bound hb)

theorem Known.enclosed (h : Known spell e) (bound : List Heard)
    (hb : (tokens (e.pieces spell)).length < bound.length) :
    Reads unlocated (nested bound) (parens (tokens (e.pieces spell))) e.unlocated (Looser 1) := by
  cases bound with
  | nil => cases hb
  | cons _ bound => exact (h.part bound (Nat.le_of_lt_succ hb)).disjunction

theorem length_tokens_pos (spell : Numerals) (e : Expression) :
    0 < (tokens (e.pieces spell)).length := by
  obtain ⟨p, qs, same, some, -⟩ := pieces_starts spell e
  obtain ⟨t, ht⟩ := Option.isSome_iff_exists.1 some
  simp [same, tokens_cons, ht]

theorem known_of_disjunction
    (h : ∀ bound : List Heard, (tokens (e.pieces spell)).length ≤ bound.length + 1 →
      Reads unlocated (disjunction (nested bound)) (tokens (e.pieces spell)) e.unlocated
        (Looser 1)) : Known spell e := by
  intro bound hb
  -- There is a level to go down by, because no expression is printed as nothing.
  have some := length_tokens_pos spell e
  cases bound with
  | nil => exact absurd hb (Nat.not_le.2 some)
  | cons _ bound => exact h bound (by simpa using hb)

mutual
theorem known (spell : Numerals) : (e : Expression) → e.printable spell = true → Known spell e
  | .number l n, h => by
    simp only [printable, Bool.and_eq_true, beq_iff_eq] at h
    have same : tokens ((number l n).pieces spell) =
        [{ kind := .numeral, text := spell l n, value := n }] := by
      simp [pieces, tokens, Piece.token?, h.2]
    refine known_of_disjunction fun bound _ => ?_
    rw [same]
    exact disjunction_of_primary ⟨_, _, rfl, by simp [leaders], by simp⟩ (primary_numeral n _)
  | .text _ s, _ => known_of_disjunction fun bound _ =>
    disjunction_of_primary ⟨_, _, rfl, by simp [leaders], by simp⟩ (primary_quoted s)
  | .boolean _ b, _ => known_of_disjunction fun bound _ => by
    refine disjunction_of_primary ⟨_, _, rfl, ?_, ?_⟩ (primary_boolean b)
    · cases b <;> decide
    · cases b <;> decide
  | .nothing _, _ => known_of_disjunction fun bound _ =>
    disjunction_of_primary ⟨_, _, rfl, by decide, by decide⟩ primary_nothing
  | .input _, _ => known_of_disjunction fun bound _ =>
    disjunction_of_primary ⟨_, _, rfl, by decide, by decide⟩ primary_input
  | .name _ x, _ => known_of_disjunction fun bound _ =>
    disjunction_of_primary ⟨_, _, rfl, by simp [leaders], by simp⟩ (primary_name x)
  | .list _ [], _ => known_of_disjunction fun bound _ => part_emptyList.disjunction
  | .list _ (e :: es), h => by
    simp only [printable, printableItems, Bool.and_eq_true] at h
    refine known_of_disjunction fun bound hb => ?_
    simp only [pieces, tokens_word, tokens_append, tokens_paren, List.length_cons,
      List.length_append, length_parens] at hb
    have first := (known spell e h.1).enclosed bound (by omega)
    obtain ⟨items, same, values, rest⟩ := knownItems spell es h.2 bound (by omega)
    have list_ := (part_list first rest).disjunction
    rw [values, ← same] at list_
    simpa [pieces, parens, unlocated, unlocatedItems] using list_
  | .table _ [], _ => known_of_disjunction fun bound _ => part_emptyTable.disjunction
  | .table _ ((key, e) :: es), h => by
    simp only [printable, printableEntries, Bool.and_eq_true] at h
    refine known_of_disjunction fun bound hb => ?_
    simp only [pieces, tokens_word, tokens_blank, tokens_append, tokens_paren, List.length_cons,
      List.length_append, length_parens] at hb
    have name_ := (known spell key h.1.1).enclosed bound (by omega)
    have value := (known spell e h.1.2).enclosed bound (by omega)
    obtain ⟨items, same, values, rest⟩ := knownEntries spell es h.2 bound (by omega)
    have table_ := (part_table name_ value rest).disjunction
    rw [values, ← same] at table_
    simpa [pieces, parens, unlocated, unlocatedEntries] using table_
  | .binary _ op a b, h => by
    simp only [printable, Bool.and_eq_true] at h
    refine known_of_disjunction fun bound hb => ?_
    simp only [pieces, tokens_between, List.length_cons, List.length_append,
      length_parens] at hb ⊢
    have first := (known spell a h.1).part bound (by omega)
    have second := (known spell b h.2).part bound (by omega)
    exact first.binary op second
  | .word _ op a b, h => by
    simp only [printable, Bool.and_eq_true] at h
    refine known_of_disjunction fun bound hb => ?_
    have first := known spell a h.1
    have second := known spell b h.2
    cases op with
    -- The one operator that is written before its operands.
    | characterAt =>
      simp only [pieces, tokens_blank, tokens_leading, tokens_append, List.length_cons,
        List.length_append, length_parens] at hb ⊢
      have both := (first.part bound (by omega)).characterAt
        (second.part bound (by omega))
      simpa [unlocated] using both
    | _ =>
      simp only [pieces, tokens_between, List.length_cons, List.length_append,
        length_parens] at hb ⊢
      exact (first.part bound (by omega)).word _ (by decide)
        (second.part bound (by omega))
  | .negate _ e, h => known_of_disjunction fun bound hb => by
    simp only [pieces, tokens_word, tokens_paren, List.length_cons, length_parens] at hb ⊢
    exact ((known spell e h).part bound (by omega)).negate
  | .not _ e, h => known_of_disjunction fun bound hb => by
    simp only [pieces, tokens_leading, List.length_cons, length_parens] at hb ⊢
    exact ((known spell e h).part bound (by omega)).not
  | .convert _ type e, h => by
    simp only [printable, Bool.and_eq_true] at h
    refine known_of_disjunction fun bound hb => ?_
    simp only [pieces, tokens_word, tokens_blank, tokens_append, tokens_paren, List.length_cons,
      List.length_append, length_parens] at hb ⊢
    exact ((known spell e h.2).part bound (by omega)).convert type h.1
  | .decimal _ e places, h => by
    simp only [printable, Bool.and_eq_true] at h
    refine known_of_disjunction fun bound hb => ?_
    simp only [pieces, tokens_word, tokens_blank, tokens_name, tokens_append, tokens_paren,
      List.length_cons, List.length_append, length_parens] at hb ⊢
    exact ((known spell e h.1).part bound (by omega)).decimal
      ((known spell places h.2).enclosed bound (by omega))
  | .typeOf _ e, h => known_of_disjunction fun bound hb => by
    simp only [pieces, tokens_leading, List.length_cons, length_parens] at hb ⊢
    exact ((known spell e h).part bound (by omega)).typeOf
  | .isA _ type e, h => known_of_disjunction fun bound hb => by
    simp only [pieces, tokens_word, tokens_blank, tokens_append, tokens_paren, List.length_cons,
      List.length_append, length_parens] at hb ⊢
    exact ((known spell e h).part bound (by omega)).isA type
  | .index _ e key, h => by
    simp only [printable, Bool.and_eq_true] at h
    refine known_of_disjunction fun bound hb => ?_
    simp only [pieces, tokens_word, tokens_append, tokens_paren, List.length_cons,
      List.length_append, length_parens] at hb ⊢
    exact ((known spell e h.1).part bound (by omega)).index
      ((known spell key h.2).enclosed bound (by omega))
  | .lengthOf _ e, h => known_of_disjunction fun bound hb => by
    simp only [pieces, tokens_leading, List.length_cons, length_parens] at hb ⊢
    exact ((known spell e h).part bound (by omega)).lengthOf
termination_by structural e => e

theorem knownItems (spell : Numerals) : (es : List Expression) →
    printableItems spell es = true → ∀ bound : List Heard,
      (tokens (itemPieces spell es)).length ≤ bound.length →
        ∃ items, tokens (itemPieces spell es) = items.flatMap (·.1) ∧
          items.map (·.2) = unlocatedItems es ∧
          Reads.Items unlocated (nextElement (nested bound)) items Separates (· = .rightBracket)
  | [], _, _, _ => ⟨[], rfl, rfl, .nil (fun _ => .inr) (nextElement_declines _)⟩
  | e :: es, h, bound, hb => by
    simp only [printableItems, Bool.and_eq_true] at h
    simp only [itemPieces, tokens_word, tokens_blank, tokens_append, tokens_paren,
      List.length_cons, List.length_append, length_parens] at hb
    have first := (known spell e h.1).enclosed bound (by omega)
    obtain ⟨items, same, values, rest⟩ := knownItems spell es h.2 bound (by omega)
    refine ⟨_, ?_, ?_, .cons (nextElement_reads first) (.inl rfl) rest⟩
    · simp [itemPieces, same, parens]
    · simp [unlocatedItems, values]
termination_by structural es => es

theorem knownEntries (spell : Numerals) : (es : List (Expression × Expression)) →
    printableEntries spell es = true → ∀ bound : List Heard,
      (tokens (entryPieces spell es)).length ≤ bound.length →
        ∃ items, tokens (entryPieces spell es) = items.flatMap (·.1) ∧
          items.map (·.2) = unlocatedEntries es ∧
          Reads.Items (Prod.map unlocated unlocated) (nextElement (entry (nested bound))) items
            Separates (· = .rightBracket)
  | [], _, _, _ => ⟨[], rfl, rfl, .nil (fun _ => .inr) (nextElement_declines _)⟩
  | (key, e) :: es, h, bound, hb => by
    simp only [printableEntries, Bool.and_eq_true] at h
    simp only [entryPieces, tokens_word, tokens_blank, tokens_append, tokens_paren,
      List.length_cons, List.length_append, length_parens] at hb
    have name := (known spell key h.1.1).enclosed bound (by omega)
    have value := (known spell e h.1.2).enclosed bound (by omega)
    obtain ⟨items, same, values, rest⟩ := knownEntries spell es h.2 bound (by omega)
    refine ⟨_, ?_, ?_, .cons (nextElement_reads (entry_reads name value)) (.inl rfl) rest⟩
    · simp [entryPieces, same, parens]
    · simp [unlocatedEntries, values]
termination_by structural es => es
end

def Begins (x : Kind) : Prop := x ∉ [.newline, .dedent, .endOfFile, .forEach, .whileWord]

structure Whole (ws : List Token) (b : Expression) : Prop where
  begins : ∃ w us, ws = w :: us ∧ Begins w.kind
  reads : Reads unlocated expression ws b (Looser 1)

theorem pieces_begin (spell : Numerals) (e : Expression) :
    ∃ w us, tokens (e.pieces spell) = w :: us ∧ Begins w.kind := by
  cases e with
  | boolean _ b => cases b <;> exact ⟨_, _, rfl, by simp [Begins]⟩
  | list _ es => cases es <;> exact ⟨_, _, rfl, by simp [Begins]⟩
  | table _ es => cases es <;> exact ⟨_, _, rfl, by simp [Begins]⟩
  | word _ op _ _ => cases op <;> exact ⟨_, _, rfl, by simp [Begins]⟩
  | _ => exact ⟨_, _, rfl, by simp [Begins]⟩

theorem whole (h : e.printable spell = true) : Whole (tokens (e.pieces spell)) e.unlocated where
  begins := pieces_begin spell e
  reads := .bounded fun bound hb => known spell e h bound (Nat.le_of_lt hb)

end Expression.Parser

end StepsLang
