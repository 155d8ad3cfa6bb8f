import StepsLang.Proofs.Expression.Grammar
import StepsLang.Proofs.Progress.Loop

/-! Whatever the grammar of expressions derives is read, and the tree that is given is the derived
one.  What a derivation says of the parser is told level by level, along the derivation; a phrase
that grows to the left is followed by where the loop of its level stands.  As the parser gives one
tree, there is no other: the grammar is unambiguous. -/

namespace StepsLang

namespace Reader

/-- A reader takes the tokens `ts` and gives `a`, as long as the next token is of a kind in `k`. -/
def Takes (p : Reader α) (ts : List Token) (a : α) (k : Kind → Prop) : Prop :=
  ∀ f more, k f.kind →
    p (Cursor.quiet (ts ++ f :: more)) = (a, Cursor.quiet (f :: more))

namespace Takes

variable {p : Reader α} {ts vs : List Token} {t : Token} {a : α} {d k : Kind → Prop} {x : Kind}

theorem pure : Takes (Pure.pure a) [] a k := fun _ _ _ => rfl

theorem of_declines {p : Reader (Option α)} (h : Declines p k) : Takes p [] none k := h

theorem bind {q : Reader β} {b : β} {g : β → Reader α} {s : List Token} (one : Takes q ts b d)
    (next : Next d s k) (two : Takes (g b) s a k) : Takes (q >>= g) (ts ++ s) a k := by
  intro f more hf
  have first : q (Cursor.quiet (ts ++ (s ++ f :: more))) =
      (b, Cursor.quiet (s ++ f :: more)) := by
    cases s with
    | nil => exact one f more (next _ hf)
    | cons u s => exact one u (s ++ f :: more) next
  rw [List.append_assoc, bind_run, first]
  exact two f more hf

theorem last {q : Reader β} {b : β} {g : β → Reader α} (one : Takes q ts b d)
    (next : ∀ x, k x → d x) (two : Takes (g b) [] a k) : Takes (q >>= g) ts a k := by
  have both := bind one next two
  rwa [List.append_nil] at both

theorem still {q : Reader β} {b : β} {g : β → Reader α} (one : Takes q [] b d)
    (next : Next d ts k) (two : Takes (g b) ts a k) : Takes (q >>= g) ts a k := bind one next two

theorem peek {g : Token → Reader α} (h : Takes (g t) (t :: ts) a k) :
    Takes (Reader.peek >>= g) (t :: ts) a k := by
  intro f more hf
  rw [List.cons_append, bind_run, peek_quiet]
  exact h f more hf

theorem peek_next {g : Token → Reader α} (h : ∀ t : Token, k t.kind → Takes (g t) [] a k) :
    Takes (Reader.peek >>= g) [] a k := by
  intro f more hf
  rw [List.nil_append, bind_run, peek_quiet]
  exact h f hf f more hf

theorem advance {g : Token → Reader α} (ht : t.kind ≠ .endOfFile) (h : Takes (g t) ts a k) :
    Takes (Reader.advance >>= g) (t :: ts) a k := by
  intro f more hf
  have first (u : Token) (us : List Token) :
      Reader.advance (Cursor.quiet (t :: u :: us)) = (t, Cursor.quiet (u :: us)) :=
    advance_quiet u us ht
  cases ts with
  | nil =>
    rw [List.cons_append, List.nil_append, bind_run, first]
    exact h f more hf
  | cons u ts =>
    rw [List.cons_append, List.cons_append, bind_run, first]
    exact h f more hf

theorem discard_advance {g : Unit → Reader α} (ht : t.kind ≠ .endOfFile) (h : Takes (g ()) ts a k) :
    Takes (Functor.discard Reader.advance >>= g) (t :: ts) a k :=
  advance (g := fun _ => g ()) ht h

theorem check {g : Bool → Reader α} {r : Bool} (next : Next (fun y => (y == x) = r) ts k)
    (h : Takes (g r) ts a k) : Takes (Reader.check x >>= g) ts a k := by
  refine still (d := fun y => (y == x) = r) (fun f more hf => ?_) next h
  rw [List.nil_append, Reads.check_quiet, hf]

theorem checkAt {n : Nat} {g : Bool → Reader α} (there : ts[n]? = some t)
    (h : Takes (g (t.kind == x)) ts a k) : Takes (Reader.checkAt n x >>= g) ts a k := by
  intro f more hf
  have inside : (ts ++ f :: more)[n]? = some t := by
    rw [List.getElem?_append_left (List.getElem?_eq_some_iff.1 there).1, there]
  have seen : Reader.checkAt n x (Cursor.quiet (ts ++ f :: more)) =
      (t.kind == x, Cursor.quiet (ts ++ f :: more)) := by
    rw [Reader.checkAt, bind_run, peekAt_quiet, token_quiet inside]
    rfl
  rw [bind_run, seen]
  exact h f more hf

theorem peekAt {n : Nat} {g : Token → Reader α} (there : ts[n]? = some t)
    (h : Takes (g t) ts a k) : Takes (Reader.peekAt n >>= g) ts a k := by
  intro f more hf
  have inside : (ts ++ f :: more)[n]? = some t := by
    rw [List.getElem?_append_left (List.getElem?_eq_some_iff.1 there).1, there]
  rw [bind_run, peekAt_quiet, token_quiet inside]
  exact h f more hf

theorem take? {g : Option Token → Reader α} (ht : t.kind = x) (hx : x ≠ .endOfFile)
    (h : Takes (g (some t)) ts a k) : Takes (Reader.take? x >>= g) (t :: ts) a k := by
  rw [Reader.take?, bind_assoc]
  refine check (r := true) (by simpa using ht) ?_
  rw [if_pos rfl, bind_assoc]
  refine advance (ht ▸ hx) ?_
  rw [pure_bind]
  exact h

theorem take?_not {g : Option Token → Reader α} (next : Next (· ≠ x) ts k)
    (h : Takes (g none) ts a k) : Takes (Reader.take? x >>= g) ts a k := by
  rw [Reader.take?, bind_assoc]
  refine check (r := false) (next.weaken fun y hy => by simpa using hy) ?_
  rw [if_neg (by simp), pure_bind]
  exact h

theorem skip? {g : Bool → Reader α} (ht : t.kind = x) (hx : x ≠ .endOfFile)
    (h : Takes (g true) ts a k) : Takes (Reader.skip? x >>= g) (t :: ts) a k := by
  rw [Reader.skip?, bind_assoc]
  refine take? ht hx ?_
  rw [pure_bind]
  exact h

theorem skip?_not {g : Bool → Reader α} (next : Next (· ≠ x) ts k) (h : Takes (g false) ts a k) :
    Takes (Reader.skip? x >>= g) ts a k := by
  rw [Reader.skip?, bind_assoc]
  refine take?_not next ?_
  rw [pure_bind]
  exact h

theorem discard_expect {g : Unit → Reader α} {what : Bytes} (ht : t.kind = x)
    (hx : x ≠ .endOfFile) (h : Takes (g ()) ts a k) :
    Takes (Functor.discard (Reader.expect x what) >>= g) (t :: ts) a k := by
  change Takes (Reader.expect x what >>= fun _ => g ()) (t :: ts) a k
  rw [Reader.expect, bind_assoc]
  refine take? ht hx ?_
  simp only [pure_bind]
  exact h

theorem many {p : Reader (Option β)} {bs : List β}
    (h : ∀ bound : List Heard, ts.length < bound.length → Takes (Reader.atMost p bound) ts bs k) :
    Takes (Reader.many p) ts bs k := by
  intro f more hf
  refine h _ ?_ f more hf
  simp [Cursor.quiet, TokenStream.quiet]

theorem atMost_last {p : Reader (Option β)} (h : Takes p ts none k) {bound : List Heard}
    (enough : ts.length < bound.length) : Takes (Reader.atMost p bound) ts [] k := by
  obtain ⟨y, bound, rfl⟩ := List.exists_cons_of_length_pos (Nat.zero_lt_of_lt enough)
  exact last h (fun _ hx => hx) pure

theorem atMost_round {p : Reader (Option β)} {b : β} {bs : List β} {y : Heard} {bound : List Heard}
    (one : Takes p ts (some b) d) (next : Next d vs k)
    (rest : Takes (Reader.atMost p bound) vs bs k) :
    Takes (Reader.atMost p (y :: bound)) (ts ++ vs) (b :: bs) k :=
  bind one next (last rest (fun _ hx => hx) pure)

end Takes

theorem atMost_some {p : Reader (Option β)} {b : β} {c d : Cursor} (h : p c = (some b, d))
    (y : Heard) (bound : List Heard) :
    atMost p (y :: bound) c = (b :: (atMost p bound d).1, (atMost p bound d).2) := by
  rw [atMost, bind_run, h]
  rfl

def spine (first : Reader α) (p : Reader (Option β)) (add : α → β → α) : Reader α := do
  let a ← first
  let more ← many p
  return more.foldl add a

/-- Behind `ts`, and before a token of a kind in `k`, the part that has been read is `a`, and the
loop goes on. -/
def Continues (first : Reader α) (p : Reader (Option β)) (add : α → β → α) (ts : List Token) (a : α)
    (k : Kind → Prop) : Prop :=
  ∀ f more, k f.kind → ∃ bound : List Heard, (f :: more).length ≤ bound.length ∧
    spine first p add (Cursor.quiet (ts ++ f :: more)) =
      (do let bs ← atMost p bound; return bs.foldl add a) (Cursor.quiet (f :: more))

namespace Continues

variable {first : Reader α} {p : Reader (Option β)} {add : α → β → α} {ts us : List Token}
  {u : Token} {a : α} {b : β} {d k : Kind → Prop}

theorem start (h : Takes first ts a k) : Continues first p add ts a k := by
  intro f more hf
  refine ⟨(Cursor.quiet (f :: more)).rest, by simp [Cursor.quiet, TokenStream.quiet], ?_⟩
  rw [spine, bind_run, h f more hf]
  rfl

theorem step (h : Continues first p add ts a k) (hu : k u.kind)
    (one : Takes p (u :: us) (some b) d) :
    Continues first p add (ts ++ u :: us) (add a b) d := by
  intro f more hf
  obtain ⟨bound, enough, run⟩ := h u (us ++ f :: more) hu
  obtain ⟨y, bound, rfl⟩ := List.exists_cons_of_length_pos (Nat.zero_lt_of_lt enough)
  have round : p (Cursor.quiet (u :: (us ++ f :: more))) = (some b, Cursor.quiet (f :: more)) :=
    one f more hf
  refine ⟨bound, ?_, ?_⟩
  · simp only [List.length_cons, List.length_append] at enough ⊢
    omega
  · rw [List.append_assoc, List.cons_append, run, bind_run, atMost_some round]
    rfl

theorem stop (h : Continues first p add ts a k) (declines : Declines p d) (hk : ∀ x, d x → k x) :
    Takes (spine first p add) ts a d := by
  intro f more hf
  obtain ⟨bound, enough, run⟩ := h f more (hk _ hf)
  obtain ⟨y, bound, rfl⟩ := List.exists_cons_of_length_pos (Nat.zero_lt_of_lt enough)
  rw [run, atMost, bind_run, bind_run, declines f more hf]
  rfl

end Continues

def headed (p : Reader (Option β)) (last : Reader α) (add : β → α → α) : Reader α := do
  let before ← many p
  let a ← last
  return before.foldr add a

def Precedes (p : Reader (Option β)) (last : Reader α) (add : β → α → α) (ts : List Token) (a : α)
    (k : Kind → Prop) : Prop :=
  ∀ bound : List Heard, ts.length ≤ bound.length →
    Takes (do let before ← atMost p bound; let a ← last; return before.foldr add a) ts a k

namespace Precedes

variable {p : Reader (Option β)} {last : Reader α} {add : β → α → α} {ts : List Token}
  {t u : Token} {a : α} {b : β} {d k : Kind → Prop}

theorem base (h : Takes last (t :: ts) a k) (declines : Declines p d) (ht : d t.kind) :
    Precedes p last add (t :: ts) a k := by
  intro bound enough
  obtain ⟨y, bound, rfl⟩ := List.exists_cons_of_length_pos (Nat.zero_lt_of_lt enough)
  refine .still (.last (.of_declines declines) (fun _ hx => hx) .pure) ht ?_
  exact .last h (fun _ hx => hx) .pure

theorem step {s : List Token} (h : Precedes p last add (t :: ts) a k)
    (one : Takes p (u :: s) (some b) d) (ht : d t.kind) :
    Precedes p last add (u :: s ++ t :: ts) (add b a) k := by
  intro bound enough f more hf
  obtain ⟨y, bound, rfl⟩ := List.exists_cons_of_length_pos (Nat.zero_lt_of_lt enough)
  have rest := h bound (by
    simp only [List.length_cons, List.length_append] at enough ⊢
    omega) f more hf
  have round : p (Cursor.quiet (u :: s ++ (t :: ts ++ f :: more))) = _ :=
    one t (ts ++ f :: more) ht
  rw [List.append_assoc, bind_run, atMost_some round]
  obtain ⟨left, rest⟩ := Prod.ext_iff.1 rest
  exact Prod.ext (congrArg (add b) left) rest

theorem takes (h : Precedes p last add ts a k) : Takes (headed p last add) ts a k := by
  intro f more hf
  refine h _ ?_ f more hf
  simp [Cursor.quiet, TokenStream.quiet]

end Precedes

end Reader

namespace Expression.Parser
open Reader

variable {inner : Reader Expression} {ts us trail : List Token} {t l r : Token} {e f : Expression}
  {k : Kind → Prop}

theorem trailed_eq (inner : Reader Expression) :
    trailed inner = spine (primary inner) (trailer inner) (fun e f => f e) := rfl

theorem led_eq (inner : Reader Expression) :
    led inner = headed (leader inner) (trailed inner) (fun f e => f e) := rfl

theorem negation_eq (inner : Reader Expression) : negation inner =
    headed (take? .not) (comparison inner) (fun t e => Expression.not t.location e) := rfl

abbrev join (left : Expression) (x : (Expression → Expression → Expression) × Expression) :
    Expression := x.1 left x.2

theorem leftAssociative_spine
    (operator? : Location → Kind → Option (Expression → Expression → Expression))
    (operand : Reader Expression) :
    leftAssociative operator? operand = spine operand (operation operator? operand) join := rfl

section Operation

variable {operator? : Location → Kind → Option (Expression → Expression → Expression)}
  {operand : Reader Expression} {make : Expression → Expression → Expression}

theorem operation_declines (h : ∀ l x, k x → operator? l x = none) :
    Declines (operation operator? operand) k := by
  intro f more hf
  rw [operation, bind_run, peek_quiet]
  dsimp only
  rw [h _ _ hf]
  rfl

theorem operation_takes (found : operator? t.location t.kind = some make)
    (ht : t.kind ≠ .endOfFile) (h : Takes operand ts e k) :
    Takes (operation operator? operand) (t :: ts) (some (make, e)) k := by
  refine .peek ?_
  rw [found]
  exact .discard_advance ht (.last h (fun _ hx => hx) .pure)

end Operation

theorem takes_decimalPlaces {d : Token} (as : l.kind = .as) (name : d.kind = .name)
    (spelled : d.text = "decimal") (left : t.kind = .leftParen) :
    Takes decimalPlaces [l, d, t] true Any := by
  unfold decimalPlaces
  refine .peekAt (t := d) rfl ?_
  rw [if_pos (by simp [name, spelled])]
  refine .checkAt (t := t) rfl ?_
  rw [if_pos (by simp [left])]
  refine .discard_advance (by rw [as]; decide) (.discard_advance (by rw [name]; decide) ?_)
  exact .discard_advance (by rw [left]; decide) .pure

/-- When a phrase of a level is read: what the reader of that level makes of its tokens. -/
def Readable (inner : Reader Expression) : Nat → List Token → Expression → Prop
  | 0, _, _ => False
  | 1, ts, e => Takes (primary inner) ts e Any
  | 2, ts, e => Continues (primary inner) (trailer inner) (fun e f => f e) ts e Any
  | 3, ts, e => Precedes (leader inner) (trailed inner) (fun f e => f e) ts e (Looser 8)
  | 4, ts, e => Continues (led inner) (operation product? (led inner)) join ts e (Looser 8)
  | 5, ts, e => Continues (product inner) (operation sum? (product inner)) join ts e (Looser 6)
  | 6, ts, e => Takes (comparison inner) ts e (Looser 4)
  | 7, ts, e => Precedes (take? .not) (comparison inner)
      (fun t e => Expression.not t.location e) ts e (Looser 4)
  | 8, ts, e =>
    Continues (negation inner) (operation conjunction? (negation inner)) join ts e (Looser 4)
  | 9, ts, e =>
    Continues (conjunction inner) (operation disjunction? (conjunction inner)) join ts e (Looser 2)
  | _, _, _ => True

namespace Readable

theorem trailed (h : Readable inner 2 ts e) : Takes (trailed inner) ts e (Looser 8) := by
  rw [trailed_eq]
  exact Continues.stop h trailer_declines fun _ _ => trivial

theorem led (h : Readable inner 3 ts e) : Takes (led inner) ts e (Looser 8) := by
  rw [led_eq]
  exact Precedes.takes h

theorem product (h : Readable inner 4 ts e) : Takes (product inner) ts e (Looser 6) := by
  rw [Parser.product, leftAssociative_spine]
  exact Continues.stop h (operation_declines fun l _ hx => product?_eq_none hx l) fun _ hx =>
    Nat.lt_of_lt_of_le hx (by decide)

theorem sum (h : Readable inner 5 ts e) : Takes (sum inner) ts e (Looser 5) := by
  rw [Parser.sum, leftAssociative_spine]
  exact Continues.stop h (operation_declines fun l _ hx => sum?_eq_none hx l) fun _ hx =>
    Nat.lt_succ_of_lt hx

theorem negation (h : Readable inner 7 ts e) : Takes (negation inner) ts e (Looser 4) := by
  rw [negation_eq]
  exact Precedes.takes h

theorem conjunction (h : Readable inner 8 ts e) : Takes (conjunction inner) ts e (Looser 2) := by
  rw [Parser.conjunction, leftAssociative_spine]
  exact Continues.stop h (operation_declines fun l _ hx => conjunction?_eq_none hx l) fun _ hx =>
    Nat.lt_of_lt_of_le hx (by decide)

theorem disjunction (h : Readable inner 9 ts e) : Takes (disjunction inner) ts e (Looser 1) := by
  rw [Parser.disjunction, leftAssociative_spine]
  exact Continues.stop h (operation_declines fun l _ hx => disjunction?_eq_none hx l) fun _ hx =>
    Nat.lt_succ_of_lt hx

theorem comparison_of_sum (h : Readable inner 5 ts e) : Readable inner 6 ts e := by
  refine Takes.last h.sum (fun _ hx => Nat.lt_succ_of_lt hx) (.peek_next fun t ht => ?_)
  rw [comparison?_eq_none ht, testedType?_eq_none ht]
  exact .pure

theorem looser {n : Nat} (h : Readable inner n (t :: ts) e) (begins : Heads n t.kind)
    (inside : n < 9) : Readable inner (n + 1) (t :: ts) e := by
  match n, h with
  | 1, h => exact Continues.start h
  | 2, h =>
    have plain : t.kind ∉ leaders := by
      rcases begins with opens | ⟨less, -⟩ | ⟨less, -⟩
      · exact fun leads => by
          simp only [valueKinds, leaders, List.mem_cons, List.not_mem_nil, or_false] at opens leads
          rcases leads with h | h | h | h <;> simp [h] at opens
      · contradiction
      · contradiction
    exact Precedes.base (Readable.trailed h) leader_declines plain
  | 3, h => exact Continues.start (Readable.led h)
  | 4, h => exact Continues.start (Readable.product h)
  | 5, h => exact comparison_of_sum h
  | 6, h =>
    have plain : t.kind ≠ .not := by
      rcases begins with opens | ⟨-, leads⟩ | ⟨less, -⟩
      · exact fun h => by rw [h] at opens; revert opens; decide
      · exact fun h => by rw [h] at leads; revert leads; decide
      · contradiction
    exact Precedes.base (d := (· ≠ .not)) h (Reads.take?_declines .not) plain
  | 7, h => exact Continues.start (Readable.negation h)
  | 8, h => exact Continues.start (Readable.conjunction h)
  | 0, h => exact h.elim

theorem joining {n : Nat} {make : Location → Expression → Expression → Expression}
    (operator : Joining (n + 1) t.kind make) (left : Readable inner (n + 1) ts e)
    (right : Readable inner n us f) :
    Readable inner (n + 1) (ts ++ t :: us) (make t.location e f) := by
  have below {m : Nat} {k : Kind} (kind : t.kind = k) (h : k.level < m) : Looser m t.kind :=
    kind ▸ h
  generalize kind : t.kind = k at operator
  have inside : t.kind ≠ .endOfFile := by rw [kind]; cases operator <;> decide
  cases operator with
  | times | divide | modulo =>
    exact Continues.step left (below kind (by decide))
      (operation_takes (by rw [kind]; rfl) inside (Readable.led right))
  | plus | minus | addedTo | splitBy =>
    exact Continues.step left (below kind (by decide))
      (operation_takes (by rw [kind]; rfl) inside (Readable.product right))
  | and =>
    exact Continues.step left (below kind (by decide))
      (operation_takes (by rw [kind]; rfl) inside (Readable.negation right))
  | or =>
    exact Continues.step left (below kind (by decide))
      (operation_takes (by rw [kind]; rfl) inside (Readable.conjunction right))

theorem comparing {make : Location → Expression → Expression → Expression}
    (operator : Comparing t.kind make) (left : Readable inner 5 ts e)
    (right : Readable inner 5 us f) : Readable inner 6 (ts ++ t :: us) (make t.location e f) := by
  generalize kind : t.kind = k at operator
  have level : Looser 5 t.kind := by rw [kind]; cases operator <;> decide
  have inside : t.kind ≠ .endOfFile := by rw [kind]; cases operator <;> decide
  have found : comparison? t.location t.kind = some (make t.location) := by
    rw [kind]
    cases operator <;> rfl
  refine Takes.bind left.sum level (.peek ?_)
  rw [found]
  refine .discard_advance inside (.last right.sum (fun _ hx => Nat.lt_succ_of_lt hx) ?_)
  exact .pure

theorem testing {type : TypeName} (operator : Testing t.kind type) (left : Readable inner 5 ts e) :
    Readable inner 6 (ts ++ [t]) (isA t.location type e) := by
  generalize kind : t.kind = k at operator
  have level : Looser 5 t.kind := by rw [kind]; cases operator <;> decide
  have inside : t.kind ≠ .endOfFile := by rw [kind]; cases operator <;> decide
  have other : comparison? t.location t.kind = none := by rw [kind]; cases operator <;> rfl
  have found : testedType? t.kind = some type := by rw [kind]; cases operator <;> rfl
  refine Takes.bind left.sum level (.peek ?_)
  rw [other, found]
  exact .discard_advance inside .pure

theorem leading {make : Location → Expression → Expression} (operator : Leading t.kind make)
    (h : Readable inner 3 (l :: ts) e) : Readable inner 3 (t :: l :: ts) (make t.location e) := by
  refine Precedes.step (s := []) (d := Any) h (.peek ?_) trivial
  generalize kind : t.kind = k at operator
  cases operator <;> exact .discard_advance (by rw [kind]; decide) .pure

theorem characterAt (starts : t.kind = .characterAt) (position : Readable inner 2 us f)
    (of : r.kind = .of) (h : Readable inner 3 (l :: ts) e) :
    Readable inner 3 (t :: (us ++ r :: l :: ts)) (word t.location .characterAt f e) := by
  have round : Takes (leader inner) (t :: (us ++ [r])) (some (word t.location .characterAt f))
      Any := by
    refine .peek ?_
    simp only [starts]
    refine .discard_advance (by rw [starts]; decide) ?_
    refine .bind position.trailed (s := [r]) (by rw [Next, of]; decide) ?_
    exact .discard_expect of (by decide) .pure
  have both := Precedes.step (u := t) (s := us ++ [r]) h round trivial
  rwa [List.cons_append, List.append_assoc] at both

theorem notting (operator : t.kind = .not) (h : Readable inner 7 (l :: ts) e) :
    Readable inner 7 (t :: l :: ts) (Expression.not t.location e) :=
  Precedes.step (s := []) (d := Any) h
    (Takes.take? (g := Pure.pure) operator (by decide) .pure) trivial

section Trailers

variable (before : Readable inner 2 ts e)
include before

theorem index (left : l.kind = .leftBracket) (key : Takes inner us f (Looser 1))
    (right : r.kind = .rightBracket) :
    Readable inner 2 (ts ++ l :: (us ++ [r])) (Expression.index l.location e f) := by
  refine Continues.step (b := (Expression.index l.location · f)) (d := Any) before trivial
    (.peek ?_)
  simp only [left]
  refine .discard_advance (by rw [left]; decide) ?_
  refine .bind key (s := [r]) (by rw [Next, right]; decide) ?_
  exact .discard_expect right (by decide) .pure

theorem convert {type : TypeName} (as : l.kind = .as) (target : Target r.kind type) :
    Readable inner 2 (ts ++ [l, r]) (Expression.convert l.location type e) := by
  generalize kind : r.kind = k at target
  refine Continues.step (b := Expression.convert l.location type) (d := Any) before trivial
    (.peek ?_)
  simp only [as]
  unfold decimalPlaces
  rw [bind_assoc]
  refine .peekAt (t := r) rfl ?_
  cases target <;>
  · rw [if_neg (by simp [kind]), pure_bind]
    refine .discard_advance (by rw [as]; decide) (.peek ?_)
    simp only [kind]
    exact .discard_advance (by rw [kind]; decide) .pure

theorem decimal {d : Token} (as : l.kind = .as) (name : d.kind = .name)
    (spelled : d.text = "decimal") (left : t.kind = .leftParen)
    (inside : Takes inner us f (Looser 1)) (right : r.kind = .rightParen) :
    Readable inner 2 (ts ++ l :: d :: t :: (us ++ [r])) (Expression.decimal l.location e f) := by
  refine Continues.step (b := (Expression.decimal l.location · f)) (d := Any) before trivial
    (.peek ?_)
  simp only [as]
  refine .bind (s := us ++ [r]) (takes_decimalPlaces as name spelled left)
    (Reads.next_any _ _) ?_
  rw [if_pos rfl]
  refine .bind inside (s := [r]) (by rw [Next, right]; decide) ?_
  exact .discard_expect right (by decide) .pure

end Trailers

theorem value (h : Atom t e) : Readable inner 1 [t] e := by
  cases h with
  | numeral kind | quoted kind | yes kind | no kind | nothing kind | input kind | name kind =>
    refine Takes.peek ?_
    simp only [kind]
    exact .discard_advance (by rw [kind]; decide) .pure

theorem parens (left : l.kind = .leftParen) (inside : Takes inner ts e (Looser 1))
    (right : r.kind = .rightParen) : Readable inner 1 (l :: (ts ++ [r])) e := by
  refine Takes.peek ?_
  simp only [left]
  refine .discard_advance (by rw [left]; decide) ?_
  refine .bind inside (s := [r]) (by rw [Next, right]; decide) ?_
  exact .discard_expect right (by decide) .pure

end Readable

section Brackets

variable {element : Reader α} {tokens : β → List Token} {tree : β → α}

/-- Tokens that neither close a bracket nor make a table of what is before them. -/
def Inside (ts : List Token) : Prop :=
  ∃ t us, ts = t :: us ∧ t.kind ≠ .colon ∧ t.kind ≠ .rightBracket

theorem Inside.append (h : Inside ts) (us : List Token) : Inside (ts ++ us) := by
  obtain ⟨t, vs, rfl, opens⟩ := h
  exact ⟨t, vs ++ us, rfl, opens⟩

theorem Inside.next (h : Inside ts) (us : List Token) :
    Next (fun x => x ≠ .colon ∧ x ≠ .rightBracket) (ts ++ us) k := by
  obtain ⟨t, vs, rfl, opens⟩ := h
  exact opens

theorem separates_more (tokens : β → List Token) {more : List (Token × β)}
    (commas : ∀ x ∈ more, x.1.kind = .comma)
    (ends : Trailing trail) :
    Next Separates (behindCommas tokens more ++ trail) (· = .rightBracket) := by
  cases more with
  | nil =>
    cases ends with
    | none => exact fun _ hx => .inr hx
    | comma kind => exact .inl kind
  | cons x more => exact .inl (commas x (by simp))

theorem atMost_elements {more : List (Token × β)} (commas : ∀ x ∈ more, x.1.kind = .comma)
    (each : ∀ x ∈ more, Inside (tokens x.2) ∧ Takes element (tokens x.2) (tree x.2) (Looser 1))
    (ends : Trailing trail) {bound : List Heard}
    (enough : (behindCommas tokens more ++ trail).length < bound.length) :
    Takes (atMost (nextElement element) bound) (behindCommas tokens more ++ trail)
      (more.map (tree ·.2)) (· = .rightBracket) := by
  induction more generalizing bound with
  | nil =>
    refine .atMost_last ?_ enough
    cases ends with
    | none => exact .of_declines (nextElement_declines element)
    | comma kind =>
      refine .skip? kind (by decide) ?_
      rw [if_pos rfl]
      refine .check (r := true) (fun x hx => by simp [hx]) ?_
      exact .pure
  | cons x more ih =>
    obtain ⟨y, bound, rfl⟩ := List.exists_cons_of_length_pos (Nat.zero_lt_of_lt enough)
    obtain ⟨⟨⟨u, us, first, -, inside⟩, here⟩, each⟩ := List.forall_mem_cons.1 each
    obtain ⟨comma, commas⟩ := List.forall_mem_cons.1 commas
    have round : Takes (nextElement element) (x.1 :: tokens x.2) (some (tree x.2)) Separates := by
      refine .skip? comma (by decide) ?_
      rw [if_pos rfl]
      refine .check (r := false) (by rw [first]; simpa using inside) ?_
      rw [if_neg (by simp)]
      exact .last here (fun _ hx => hx.looser) .pure
    rw [behindCommas_cons, List.append_assoc] at enough ⊢
    refine .atMost_round round (separates_more tokens commas ends) (ih commas each ?_)
    simp only [List.length_append, List.length_cons] at enough ⊢
    omega

theorem moreElements_takes (tree : β → α) {more : List (Token × β)}
    (commas : ∀ x ∈ more, x.1.kind = .comma)
    (each : ∀ x ∈ more, Inside (tokens x.2) ∧ Takes element (tokens x.2) (tree x.2) (Looser 1))
    (ends : Trailing trail) : Takes (moreElements element) (behindCommas tokens more ++ trail)
      (more.map (tree ·.2)) (· = .rightBracket) :=
  .many fun _ enough => atMost_elements commas each ends enough

end Brackets

theorem takes_emptyTable (colon : t.kind = .colon) (right : r.kind = .rightBracket) :
    Takes emptyTable [t, r] true Any := by
  unfold emptyTable
  refine .check (r := true) (show (t.kind == .colon) = true by simp [colon]) ?_
  rw [if_pos rfl]
  refine .checkAt (t := r) rfl ?_
  rw [if_pos (by simp [right])]
  exact .discard_advance (by rw [colon]; decide) (.discard_advance (by rw [right]; decide) .pure)

theorem takes_emptyTable_not {g : Bool → Reader α} {a : α} (next : Next (· ≠ .colon) ts k)
    (h : Takes (g false) ts a k) : Takes (emptyTable >>= g) ts a k := by
  unfold emptyTable
  rw [bind_assoc]
  refine .check (r := false) (next.weaken fun x hx => by simpa using hx) ?_
  rw [if_neg (by simp), pure_bind]
  exact h

theorem next_more (tokens : α → List Token) {more : List (Token × α)}
    (right : r.kind = .rightBracket) (commas : ∀ x ∈ more, x.1.kind = .comma)
    (ends : Trailing trail) :
    Next Separates (behindCommas tokens more ++ trail ++ [r]) Any := by
  have here := separates_more tokens commas ends
  cases e : behindCommas tokens more ++ trail with
  | nil => exact .inr right
  | cons => rwa [e] at here

theorem entry_takes {x : Pair} (colon : x.colon.kind = .colon)
    (key : Takes inner x.key.tokens x.key.tree (Looser 1))
    (value : Takes inner x.value.tokens x.value.tree (Looser 1)) :
    Takes (entry inner) x.tokens x.tree (Looser 1) := by
  refine .bind key (by rw [Next, colon]; decide) ?_
  exact .discard_expect colon (by decide) (.last value (fun _ hx => hx) .pure)

namespace Readable

variable (left : l.kind = .leftBracket) (right : r.kind = .rightBracket)
include left

theorem bracketed (h : Takes (bracketed inner) (l :: ts) e Any) : Readable inner 1 (l :: ts) e := by
  refine Takes.peek ?_
  simp only [left]
  exact h

include right

theorem emptyList : Readable inner 1 [l, r] (list l.location []) := by
  refine bracketed left (.advance (by rw [left]; decide) (.skip? right (by decide) ?_))
  rw [if_pos rfl]
  exact .pure

theorem emptyTable (colon : t.kind = .colon) :
    Readable inner 1 [l, t, r] (table l.location []) := by
  refine bracketed left (.advance (by rw [left]; decide) ?_)
  refine .skip?_not (by simp [Next, colon]) ?_
  rw [if_neg (by simp)]
  refine .last (takes_emptyTable colon right) (fun _ _ => trivial) ?_
  exact .pure

theorem list {more : List (Token × Item)} (opens : Inside ts)
    (begins : Takes inner ts e (Looser 1)) (commas : ∀ x ∈ more, x.1.kind = .comma)
    (items : ∀ x ∈ more, Inside x.2.tokens ∧ Takes inner x.2.tokens x.2.tree (Looser 1))
    (ends : Trailing trail) :
    Readable inner 1 (l :: (ts ++ behindCommas Item.tokens more ++ trail ++ [r]))
      (Expression.list l.location (e :: more.map (·.2.tree))) := by
  have next := next_more Item.tokens right commas ends
  rw [List.append_assoc ts, List.append_assoc ts]
  refine bracketed left (.advance (by rw [left]; decide) ?_)
  refine .skip?_not ((opens.next _).weaken fun _ h => h.2) ?_
  rw [if_neg (by simp)]
  refine takes_emptyTable_not ((opens.next _).weaken fun _ h => h.1) ?_
  rw [if_neg (by simp)]
  refine .bind begins (next.weaken fun _ => Separates.looser) ?_
  refine .skip?_not (next.weaken fun _ => Separates.ne_colon) ?_
  rw [if_neg (by simp)]
  refine .bind (moreElements_takes Item.tree commas items ends) right ?_
  exact .discard_expect right (by decide) .pure

theorem table {x : Pair} {more : List (Token × Pair)}
    (opens : Inside x.key.tokens)
    (key : Takes inner x.key.tokens x.key.tree (Looser 1)) (colon : x.colon.kind = .colon)
    (value : Takes inner x.value.tokens x.value.tree (Looser 1))
    (commas : ∀ x ∈ more, x.1.kind = .comma)
    (entries : ∀ x ∈ more, Inside x.2.tokens ∧ Takes (entry inner) x.2.tokens x.2.tree (Looser 1))
    (ends : Trailing trail) :
    Readable inner 1 (l :: (x.tokens ++ behindCommas Pair.tokens more ++ trail ++ [r]))
      (Expression.table l.location (x.tree :: more.map (·.2.tree))) := by
  have next := next_more Pair.tokens right commas ends
  have shape : x.tokens ++ behindCommas Pair.tokens more ++ trail ++ [r] =
      x.key.tokens ++ x.colon :: (x.value.tokens ++
        (behindCommas Pair.tokens more ++ trail ++ [r])) := by simp [Pair.tokens]
  rw [shape]
  refine bracketed left (.advance (by rw [left]; decide) ?_)
  refine .skip?_not ((opens.next _).weaken fun _ h => h.2) ?_
  rw [if_neg (by simp)]
  refine takes_emptyTable_not ((opens.next _).weaken fun _ h => h.1) ?_
  rw [if_neg (by simp)]
  refine .bind key (by rw [Next, colon]; decide) (.skip? colon (by decide) ?_)
  rw [if_pos rfl]
  refine .bind value (next.weaken fun _ => Separates.looser) ?_
  refine .bind (moreElements_takes Pair.tree commas entries ends) right ?_
  exact .discard_expect right (by decide) .pure

end Readable

variable {n : Nat}

theorem inside_of_derives (h : Derives n ts e) : Inside ts := by
  obtain ⟨t, us, rfl, heads⟩ := h.begins
  exact ⟨t, us, rfl, heads.ne (by decide) (by decide) (by decide),
    heads.ne (by decide) (by decide) (by decide)⟩

theorem takes_inside (h : ∀ {bound : List Heard}, ts.length ≤ bound.length →
    Readable (nested bound) 9 ts e) {bound : List Heard} (less : ts.length < bound.length) :
    Takes (nested bound) ts e (Looser 1) := by
  obtain ⟨x, bound, rfl⟩ := List.exists_cons_of_length_pos (Nat.zero_lt_of_lt less)
  exact (h (Nat.le_of_lt_succ less)).disjunction

theorem length_le_behindCommas (tokens : α → List Token) {more : List (Token × α)}
    {x : Token × α} (h : x ∈ more) : (tokens x.2).length < (behindCommas tokens more).length := by
  induction more with
  | nil => cases h
  | cons y more ih =>
    rw [behindCommas_cons, List.length_append, List.length_cons]
    rcases List.mem_cons.1 h with rfl | h
    · omega
    · have := ih h
      omega

/-- What the grammar derives is read, with any bound that is not below the number of tokens. -/
theorem readable_of_derives (h : Derives n ts e) {bound : List Heard}
    (enough : ts.length ≤ bound.length) : Readable (nested bound) n ts e := by
  induction h generalizing bound with
  | value h => exact .value h
  | parens left inside right ih =>
    simp only [List.length_cons, List.length_append] at enough
    exact .parens left (takes_inside ih (by omega)) right
  | emptyList left right => exact .emptyList left right
  | emptyTable left colon right => exact .emptyTable left right colon
  | list left begins commas items ends right ih ihs =>
    simp only [List.length_cons, List.length_append] at enough
    refine .list left right (inside_of_derives begins) (takes_inside ih (by omega)) commas
      (fun x hx => ⟨inside_of_derives (items x hx), takes_inside (ihs x hx) ?_⟩) ends
    have short := length_le_behindCommas Item.tokens hx
    omega
  | table left key colon value commas keys colons values ends right ihk ihv ihks ihvs =>
    simp only [List.length_cons, List.length_append, Pair.tokens] at enough
    refine .table left right (inside_of_derives key) (takes_inside ihk (by omega)) colon
      (takes_inside ihv (by omega)) commas (fun x hx => ?_) ends
    have short := length_le_behindCommas Pair.tokens hx
    simp only [Pair.tokens, List.length_append, List.length_cons] at short
    refine ⟨(inside_of_derives (keys x hx)).append _, entry_takes (colons x hx) ?_ ?_⟩
    · exact takes_inside (ihks x hx) (by omega)
    · exact takes_inside (ihvs x hx) (by omega)
  | index before left key right ih ihk =>
    simp only [List.length_cons, List.length_append] at enough
    exact .index (ih (by omega)) left (takes_inside ihk (by omega)) right
  | convert before as target ih =>
    simp only [List.length_cons, List.length_append] at enough
    exact .convert (ih (by omega)) as target
  | decimal before as word spelled left inside right ih ihp =>
    simp only [List.length_cons, List.length_append] at enough
    exact .decimal (ih (by omega)) as word spelled left (takes_inside ihp (by omega)) right
  | leading operator operand ih =>
    obtain ⟨t, us, rfl, -⟩ := operand.begins
    exact .leading operator (ih (Nat.le_of_succ_le enough))
  | characterAt starts position of operand ihp ih =>
    obtain ⟨t, us, rfl, -⟩ := operand.begins
    simp only [List.length_cons, List.length_append] at enough
    exact .characterAt starts (ihp (by omega)) of (ih (by simp only [List.length_cons]; omega))
  | joining operator left right ihl ihr =>
    simp only [List.length_cons, List.length_append] at enough
    exact .joining operator (ihl (by omega)) (ihr (by omega))
  | comparing operator left right ihl ihr =>
    simp only [List.length_cons, List.length_append] at enough
    exact .comparing operator (ihl (by omega)) (ihr (by omega))
  | testing operator operand ih =>
    simp only [List.length_cons, List.length_append] at enough
    exact .testing operator (ih (by omega))
  | negation operator operand ih =>
    obtain ⟨t, us, rfl, -⟩ := operand.begins
    exact .notting operator (ih (Nat.le_of_succ_le enough))
  | looser h inside ih =>
    obtain ⟨t, us, rfl, heads⟩ := h.begins
    exact .looser (ih enough) heads inside

theorem takes_of_derives (h : Derives 9 ts e) : Takes expression ts e (Looser 1) := by
  intro f more hf
  refine takes_inside (readable_of_derives h) ?_ f more hf
  simp [Cursor.quiet, TokenStream.quiet]

end Parser

theorem Derives.unique {ts : List Token} {e f : Expression} (h : Derives 9 ts e)
    (h' : Derives 9 ts f) : e = f := by
  have last : Parser.Looser 1 ({} : Token).kind := by decide
  have same := Parser.takes_of_derives h {} [] last
  rw [Parser.takes_of_derives h' {} [] last] at same
  exact (congrArg Prod.fst same).symm

end Expression

end StepsLang
