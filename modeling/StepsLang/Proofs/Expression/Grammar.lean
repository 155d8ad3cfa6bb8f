import StepsLang.Expression.Basic
import StepsLang.Token.Basic

namespace StepsLang.Expression

inductive Atom : Token → Expression → Prop
  | numeral {t : Token} (kind : t.kind = .numeral) : Atom t (number t.location t.value)
  | quoted {t : Token} (kind : t.kind = .quoted) : Atom t (text t.location t.text)
  | yes {t : Token} (kind : t.kind = .true) : Atom t (boolean t.location true)
  | no {t : Token} (kind : t.kind = .false) : Atom t (boolean t.location false)
  | nothing {t : Token} (kind : t.kind = .nothing) : Atom t (nothing t.location)
  | input {t : Token} (kind : t.kind = .input) : Atom t (input t.location)
  | name {t : Token} (kind : t.kind = .name) : Atom t (name t.location t.text)

inductive Target : Kind → TypeName → Prop
  | number : Target .number .number
  | text : Target .text .text
  | boolean : Target .boolean .boolean

inductive Leading : Kind → (Location → Expression → Expression) → Prop
  | minus : Leading .minus negate
  | lengthOf : Leading .lengthOf lengthOf
  | typeOf : Leading .typeOf typeOf

inductive Joining : Nat → Kind → (Location → Expression → Expression → Expression) → Prop
  | times : Joining 4 .star (binary · .multiply)
  | divide : Joining 4 .slash (binary · .divide)
  | modulo : Joining 4 .modulo (binary · .modulo)
  | plus : Joining 5 .plus (binary · .add)
  | minus : Joining 5 .minus (binary · .subtract)
  | addedTo : Joining 5 .addedTo (word · .addedTo)
  | splitBy : Joining 5 .splitBy (word · .splitBy)
  | and : Joining 8 .and (binary · .and)
  | or : Joining 9 .or (binary · .or)

inductive Comparing : Kind → (Location → Expression → Expression → Expression) → Prop
  | isEqualTo : Comparing .isEqualTo (binary · .equal)
  | equals : Comparing .equals (binary · .equal)
  | isNotEqualTo : Comparing .isNotEqualTo (binary · .notEqual)
  | isLessThan : Comparing .isLessThan (binary · .less)
  | isGreaterThan : Comparing .isGreaterThan (binary · .greater)
  | isLessThanOrEqualTo : Comparing .isLessThanOrEqualTo (binary · .lessOrEqual)
  | isGreaterThanOrEqualTo : Comparing .isGreaterThanOrEqualTo (binary · .greaterOrEqual)
  | isIn : Comparing .isIn (word · .isIn)
  | contains : Comparing .contains (word · .contains)
  | startsWith : Comparing .startsWith (word · .startsWith)
  | endsWith : Comparing .endsWith (word · .endsWith)

inductive Testing : Kind → TypeName → Prop
  | number : Testing .isANumber .number
  | text : Testing .isAText .text
  | boolean : Testing .isABoolean .boolean
  | list : Testing .isAList .list
  | table : Testing .isATable .table

structure Item where
  tokens : List Token
  tree : Expression

structure Pair where
  key : Item
  colon : Token
  value : Item

def Pair.tokens (x : Pair) : List Token := x.key.tokens ++ x.colon :: x.value.tokens

def Pair.tree (x : Pair) : Expression × Expression := (x.key.tree, x.value.tree)

def behindCommas (tokens : α → List Token) (more : List (Token × α)) : List Token :=
  more.flatMap fun x => x.1 :: tokens x.2

theorem behindCommas_cons (tokens : α → List Token) (x : Token × α) (more : List (Token × α)) :
    behindCommas tokens (x :: more) = x.1 :: tokens x.2 ++ behindCommas tokens more := rfl

inductive Trailing : List Token → Prop
  | none : Trailing []
  | comma {c : Token} (kind : c.kind = .comma) : Trailing [c]

/-- The tokens of a phrase of a level, with its tree. -/
inductive Derives : Nat → List Token → Expression → Prop
  | value {t : Token} {e : Expression} (h : Atom t e) : Derives 1 [t] e
  | parens {l r : Token} {ts : List Token} {e : Expression} (left : l.kind = .leftParen)
    (inside : Derives 9 ts e) (right : r.kind = .rightParen) : Derives 1 (l :: (ts ++ [r])) e
  | emptyList {l r : Token} (left : l.kind = .leftBracket) (right : r.kind = .rightBracket) :
    Derives 1 [l, r] (list l.location [])
  | emptyTable {l c r : Token} (left : l.kind = .leftBracket) (colon : c.kind = .colon)
    (right : r.kind = .rightBracket) : Derives 1 [l, c, r] (table l.location [])
  | list {l r : Token} {i : Item} {more : List (Token × Item)} {trail : List Token}
    (left : l.kind = .leftBracket) (begins : Derives 9 i.tokens i.tree)
    (commas : ∀ x ∈ more, x.1.kind = .comma)
    (items : ∀ x ∈ more, Derives 9 x.2.tokens x.2.tree) (ends : Trailing trail)
    (right : r.kind = .rightBracket) :
    Derives 1 (l :: (i.tokens ++ behindCommas Item.tokens more ++ trail ++ [r]))
      (list l.location (i.tree :: more.map (·.2.tree)))
  | table {l r : Token} {p : Pair} {more : List (Token × Pair)} {trail : List Token}
    (left : l.kind = .leftBracket) (key : Derives 9 p.key.tokens p.key.tree)
    (colon : p.colon.kind = .colon) (value : Derives 9 p.value.tokens p.value.tree)
    (commas : ∀ x ∈ more, x.1.kind = .comma)
    (keys : ∀ x ∈ more, Derives 9 x.2.key.tokens x.2.key.tree)
    (colons : ∀ x ∈ more, x.2.colon.kind = .colon)
    (values : ∀ x ∈ more, Derives 9 x.2.value.tokens x.2.value.tree) (ends : Trailing trail)
    (right : r.kind = .rightBracket) :
    Derives 1 (l :: (p.tokens ++ behindCommas Pair.tokens more ++ trail ++ [r]))
      (table l.location (p.tree :: more.map (·.2.tree)))
  | index {l r : Token} {ts us : List Token} {e k : Expression} (before : Derives 2 ts e)
    (left : l.kind = .leftBracket) (key : Derives 9 us k) (right : r.kind = .rightBracket) :
    Derives 2 (ts ++ l :: (us ++ [r])) (index l.location e k)
  | convert {a t : Token} {ts : List Token} {e : Expression} {type : TypeName}
    (before : Derives 2 ts e) (as : a.kind = .as) (target : Target t.kind type) :
    Derives 2 (ts ++ [a, t]) (convert a.location type e)
  | decimal {a d l r : Token} {ts us : List Token} {e places : Expression}
    (before : Derives 2 ts e) (as : a.kind = .as) (word : d.kind = .name)
    (spelled : d.text = "decimal") (left : l.kind = .leftParen) (inside : Derives 9 us places)
    (right : r.kind = .rightParen) :
    Derives 2 (ts ++ a :: d :: l :: (us ++ [r])) (decimal a.location e places)
  | leading {o : Token} {ts : List Token} {e : Expression}
    {make : Location → Expression → Expression} (operator : Leading o.kind make)
    (operand : Derives 3 ts e) : Derives 3 (o :: ts) (make o.location e)
  | characterAt {c o : Token} {ts us : List Token} {p e : Expression}
    (starts : c.kind = .characterAt) (position : Derives 2 ts p) (of : o.kind = .of)
    (operand : Derives 3 us e) : Derives 3 (c :: (ts ++ o :: us)) (word c.location .characterAt p e)
  | joining {n : Nat} {o : Token} {ts us : List Token} {e f : Expression}
    {make : Location → Expression → Expression → Expression}
    (operator : Joining (n + 1) o.kind make) (left : Derives (n + 1) ts e)
    (right : Derives n us f) : Derives (n + 1) (ts ++ o :: us) (make o.location e f)
  | comparing {o : Token} {ts us : List Token} {e f : Expression}
    {make : Location → Expression → Expression → Expression} (operator : Comparing o.kind make)
    (left : Derives 5 ts e) (right : Derives 5 us f) :
    Derives 6 (ts ++ o :: us) (make o.location e f)
  | testing {o : Token} {ts : List Token} {e : Expression} {type : TypeName}
    (operator : Testing o.kind type) (operand : Derives 5 ts e) :
    Derives 6 (ts ++ [o]) (isA o.location type e)
  | negation {o : Token} {ts : List Token} {e : Expression} (operator : o.kind = .not)
    (operand : Derives 7 ts e) : Derives 7 (o :: ts) (not o.location e)
  | looser {n : Nat} {ts : List Token} {e : Expression} (h : Derives n ts e) (inside : n < 9) :
    Derives (n + 1) ts e

def valueKinds : List Kind :=
  [.numeral, .quoted, .true, .false, .nothing, .input, .name, .leftParen, .leftBracket]

def leadingKinds : List Kind := [.minus, .lengthOf, .typeOf, .characterAt]

def Heads (n : Nat) (k : Kind) : Prop :=
  k ∈ valueKinds ∨ 3 ≤ n ∧ k ∈ leadingKinds ∨ 7 ≤ n ∧ k = .not

theorem Heads.looser {n : Nat} {k : Kind} (h : Heads n k) : Heads (n + 1) k := by
  rcases h with h | ⟨hn, h⟩ | ⟨hn, h⟩
  · exact .inl h
  · exact .inr (.inl ⟨Nat.le_succ_of_le hn, h⟩)
  · exact .inr (.inr ⟨Nat.le_succ_of_le hn, h⟩)

theorem Heads.ne {n : Nat} {k k' : Kind} (h : Heads n k) (value : k' ∉ valueKinds)
    (leading : k' ∉ leadingKinds) (negation : k' ≠ .not) : k ≠ k' := by
  rintro rfl
  rcases h with h | ⟨-, h⟩ | ⟨-, h⟩
  · exact value h
  · exact leading h
  · exact negation h

theorem Atom.begins {t : Token} {e : Expression} (h : Atom t e) : t.kind ∈ valueKinds := by
  cases h <;> next kind => rw [kind]; decide

theorem Leading.begins {k : Kind} {make : Location → Expression → Expression}
    (h : Leading k make) : k ∈ leadingKinds := by
  cases h <;> decide

theorem Derives.begins {n : Nat} {ts : List Token} {e : Expression} (h : Derives n ts e) :
    ∃ t us, ts = t :: us ∧ Heads n t.kind := by
  have first {t : Token} {k : Kind} (kind : t.kind = k) (hk : k ∈ valueKinds) : Heads 1 t.kind :=
    .inl (kind ▸ hk)
  induction h with
  | value h => exact ⟨_, [], rfl, .inl h.begins⟩
  | parens left => exact ⟨_, _, rfl, first left (by decide)⟩
  | emptyList left => exact ⟨_, _, rfl, first left (by decide)⟩
  | emptyTable left => exact ⟨_, _, rfl, first left (by decide)⟩
  | list left => exact ⟨_, _, rfl, first left (by decide)⟩
  | table left => exact ⟨_, _, rfl, first left (by decide)⟩
  | leading operator => exact ⟨_, _, rfl, .inr (.inl ⟨Nat.le_refl 3, operator.begins⟩)⟩
  | characterAt starts =>
    exact ⟨_, _, rfl, .inr (.inl ⟨Nat.le_refl 3, by rw [starts]; decide⟩)⟩
  | negation operator => exact ⟨_, _, rfl, .inr (.inr ⟨Nat.le_refl 7, operator⟩)⟩
  | looser _ _ ih =>
    obtain ⟨t, us, rfl, heads⟩ := ih
    exact ⟨t, us, rfl, heads.looser⟩
  | index _ _ _ _ ih | convert _ _ _ ih | decimal _ _ _ _ _ _ _ ih | joining _ _ _ ih =>
    obtain ⟨t, us, rfl, heads⟩ := ih
    exact ⟨t, _, rfl, heads⟩
  | comparing _ _ _ ih | testing _ _ ih =>
    obtain ⟨t, us, rfl, heads⟩ := ih
    exact ⟨t, _, rfl, heads.looser⟩

end StepsLang.Expression
