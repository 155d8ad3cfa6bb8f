import StepsLang.Proofs.Expression.Completeness
import StepsLang.Proofs.Progress.Recursion

/-! Whatever is read as an expression without a report is derived by the grammar.  Of a reader it is
said what the tokens are that it takes, given what it makes of them, as long as nothing is reported;
a reader that goes on behind a report keeps it. -/

namespace StepsLang
open Reader
open Tandem (taken)

theorem Reader.checkAt_quiet {us : List Token} {n : Nat} {t : Token} (there : us[n]? = some t)
    (k : Kind) : Reader.checkAt n k (Cursor.quiet us) = (t.kind == k, Cursor.quiet us) := by
  rw [Reader.checkAt, bind_run, peekAt_quiet, token_quiet there]
  rfl

/-- Wherever in a text, a reader stays in the text and forgets no report. -/
def Safe (p : Reader α) : Prop :=
  ∀ ⦃c d⦄, Closes d c.tokens → c.Grows (p c).2 ∧ ∃ e, Closes e (p c).2.tokens

namespace Safe

variable {p : Reader β} {g : β → Reader α}

theorem bind (one : Safe p) (two : ∀ b, Safe (g b)) : Safe (p >>= g) := by
  intro c d closes
  obtain ⟨grows, e, mid⟩ := one closes
  obtain ⟨more, last⟩ := two (p c).1 mid
  exact ⟨grows.trans more, last⟩

theorem pure (a : α) : Safe (Pure.pure a : Reader α) := fun c d closes => ⟨.refl c, d, closes⟩

theorem of_level {p : Reader α} (h : Level p) : Safe p := by
  intro c d closes
  obtain ⟨grows, ts, -, -, -, rest⟩ := h c.rest.length (k := d) (Nat.le_refl _) trivial
    (by rwa [Nat.zero_add])
  exact ⟨grows, _, rest⟩

theorem of_still {p : Reader α} (h : Still p) : Safe p :=
  fun c d closes => ⟨h.grows c, d, (h.tokens c).symm ▸ closes⟩

theorem advance : Safe Reader.advance := by
  intro c d closes
  obtain ⟨ts, e, -, -, rest⟩ := Goes.advance_any (P := Everywhere) trivial closes
  exact ⟨.advance c, e, rest⟩

theorem ite {b : Bool} {p q : Reader α} (yes : Safe p) (no : Safe q) :
    Safe (if b then p else q) := by
  cases b with
  | true => exact yes
  | false => exact no

theorem atMost {p : Reader (Option α)} (h : Safe p) (bound : List β) :
    Safe (Reader.atMost p bound) := by
  induction bound with
  | nil => exact pure []
  | cons x bound ih =>
    refine bind h fun a => ?_
    cases a with
    | none => exact pure []
    | some a => exact bind ih fun _ => pure _

theorem many {p : Reader (Option α)} (h : Safe p) : Safe (Reader.many p) :=
  fun c _ closes => atMost h c.rest closes

end Safe

/-- With at most `n` tokens left, the next of them in `P`, a reader that reports nothing takes
tokens that `Q` holds of, with what it gives. -/
structure Accounts (n : Nat) (P : List Token → Prop) (Q : α → List Token → Prop) (p : Reader α) :
    Prop where
  safe : Safe p
  quiet : ∀ ⦃us d⦄, us.length ≤ n → P us → Closes d us → (p (Cursor.quiet us)).2.reports = [] →
    ∃ ts more, us = ts ++ more ∧ (p (Cursor.quiet us)).2 = Cursor.quiet more ∧
      Q (p (Cursor.quiet us)).1 ts

namespace Accounts

variable {m n : Nat} {P P' : List Token → Prop} {R : β → List Token → Prop}
  {Q Q' : α → List Token → Prop} {p : Reader β} {g : β → Reader α} {t : Token} {k : Kind}

theorem closes_quiet {us : List Token} {d : Nat} (h : Closes d us) :
    Closes d (Cursor.quiet us).tokens := by
  rwa [Cursor.tokens, Cursor.quiet, TokenStream.tokens_quiet]

theorem weaken {p : Reader α} (h : Accounts n P Q p) (hm : m ≤ n) (hP : ∀ us, P' us → P us)
    (hQ : ∀ a ts, Q a ts → Q' a ts) : Accounts m P' Q' p := by
  refine ⟨h.safe, fun us d less there closes silent => ?_⟩
  obtain ⟨ts, more, here, run, good⟩ := h.quiet (Nat.le_trans less hm) (hP us there) closes silent
  exact ⟨ts, more, here, run, hQ _ _ good⟩

theorem gives {p : Reader α} {S : α → List Token → Prop} (h : Accounts n P Q p)
    (hQ : ∀ a ts, Q a ts → S a ts) : Accounts n P S p := h.weaken (Nat.le_refl n) (fun _ h => h) hQ

theorem pure {a : α} (h : Q a []) : Accounts n P Q (Pure.pure a) :=
  ⟨.pure a, fun us _ _ _ _ _ => ⟨[], us, rfl, rfl, h⟩⟩

theorem bind_after {i : β → Nat} (one : Accounts n P R p) (took : ∀ b ts, R b ts → i b ≤ ts.length)
    (two : ∀ b, Accounts (n - i b) Everywhere (fun a vs => ∀ ts, R b ts → Q a (ts ++ vs)) (g b)) :
    Accounts n P Q (p >>= g) := by
  refine ⟨one.safe.bind fun b => (two b).safe, fun us d less there closes silent => ?_⟩
  rw [bind_run] at silent
  obtain ⟨-, e, mid⟩ := one.safe (closes_quiet closes)
  have quiet : (p (Cursor.quiet us)).2.reports = [] := by
    by_contra loud
    exact ((two _).safe mid).1.loud loud silent
  obtain ⟨ts, more, rfl, run, good⟩ := one.quiet less there closes quiet
  rw [run] at silent mid
  rw [Cursor.tokens, Cursor.quiet, TokenStream.tokens_quiet] at mid
  have short : more.length ≤ n - i (p (Cursor.quiet (ts ++ more))).1 := by
    have := took _ _ good
    rw [List.length_append] at less
    omega
  obtain ⟨vs, rest, rfl, run', good'⟩ := (two _).quiet short trivial mid silent
  refine ⟨ts ++ vs, rest, (List.append_assoc ts vs rest).symm, ?_, ?_⟩
  · rw [bind_run, run]
    exact run'
  · rw [bind_run, run]
    exact good' ts good

theorem bind (one : Accounts n P R p)
    (two : ∀ b, Accounts n Everywhere (fun a vs => ∀ ts, R b ts → Q a (ts ++ vs)) (g b)) :
    Accounts n P Q (p >>= g) :=
  bind_after (i := fun _ => 0) one (fun _ _ _ => Nat.zero_le _) two

theorem peek {g : Token → Reader α}
    (two : ∀ t, Accounts n (fun us => P us ∧ us.head? = some t) Q (g t)) :
    Accounts n P Q (Reader.peek >>= g) := by
  refine ⟨.bind (.of_still (.peekAt 0)) fun t => (two t).safe, fun us d less there closes => ?_⟩
  obtain ⟨t, us, rfl⟩ := closes.exists_cons
  rw [bind_run, peek_quiet]
  exact (two t).quiet less ⟨there, rfl⟩ closes

theorem first_of_head {K : Kind → Prop} (ht : K t.kind) {us : List Token} (h : us.head? = some t) :
    First K us := by
  obtain ⟨us, rfl⟩ := List.head?_eq_some_iff.1 h
  exact ⟨t, us, rfl, ht⟩

theorem check {g : Bool → Reader α}
    (yes : Accounts n (fun us => P us ∧ First (· = k) us) Q (g true))
    (no : Accounts n (fun us => P us ∧ First (· ≠ k) us) Q (g false)) :
    Accounts n P Q (Reader.check k >>= g) := by
  rw [Reader.check_bind]
  refine peek fun t => ?_
  cases same : t.kind == k with
  | true =>
    have here : t.kind = k := eq_of_beq same
    exact yes.weaken (Nat.le_refl n)
      (fun _ h => ⟨h.1, first_of_head (K := (· = k)) here h.2⟩) fun _ _ h => h
  | false =>
    have other : t.kind ≠ k := beq_eq_false_iff_ne.1 same
    exact no.weaken (Nat.le_refl n)
      (fun _ h => ⟨h.1, first_of_head (K := (· ≠ k)) other h.2⟩) fun _ _ h => h

theorem advance {K : Kind → Prop} (hP : ∀ us, P us → First K us) (hK : ∀ k, K k → k ≠ .endOfFile) :
    Accounts n P (fun t ts => ts = [t] ∧ K t.kind) Reader.advance := by
  refine ⟨.advance, fun us d _ there closes _ => ?_⟩
  obtain ⟨t, us, rfl, ht⟩ := hP us there
  have inside := hK _ ht
  obtain ⟨e, -, rest⟩ := closes.tail inside
  obtain ⟨f, us, rfl⟩ := rest.exists_cons
  rw [advance_quiet f us inside]
  exact ⟨[t], f :: us, rfl, rfl, rfl, ht⟩

theorem advance_kind {g : Token → Reader α} {K : Kind → Prop} (hP : ∀ us, P us → First K us)
    (hK : ∀ k, K k → k ≠ .endOfFile)
    (two : ∀ t, Accounts (n - 1) Everywhere (fun a vs => K t.kind → Q a (t :: vs)) (g t)) :
    Accounts n P Q (Reader.advance >>= g) := by
  refine bind_after (i := fun _ => 1) (advance hP hK) (fun _ ts h => by simp [h.1]) fun t => ?_
  refine (two t).gives fun a vs h ts => ?_
  rintro ⟨rfl, ht⟩
  exact h ht

theorem discard_advance {g : Unit → Reader α} (ht : t.kind ≠ .endOfFile)
    (two : Accounts (n - 1) Everywhere (fun a vs => Q a (t :: vs)) (g ())) :
    Accounts n (fun us => P us ∧ us.head? = some t) Q (Functor.discard Reader.advance >>= g) := by
  refine ⟨.bind .advance fun _ => two.safe, fun us d less there closes silent => ?_⟩
  obtain ⟨u, us, rfl⟩ := closes.exists_cons
  cases there.2
  obtain ⟨e, -, rest⟩ := closes.tail ht
  obtain ⟨f, us, rfl⟩ := rest.exists_cons
  have run : (Functor.discard Reader.advance >>= g) (Cursor.quiet (t :: f :: us)) =
      g () (Cursor.quiet (f :: us)) := by
    change (Reader.advance >>= fun _ => g ()) _ = _
    rw [bind_run, advance_quiet f us ht]
  rw [run] at silent ⊢
  obtain ⟨ts, more, here, done, good⟩ := two.quiet (Nat.le_sub_one_of_lt less) trivial rest silent
  exact ⟨t :: ts, more, by rw [here]; rfl, done, good⟩

theorem take? {g : Option Token → Reader α} (hk : k ≠ .endOfFile)
    (yes : ∀ t, Accounts (n - 1) Everywhere (fun a vs => t.kind = k → Q a (t :: vs)) (g (some t)))
    (no : Accounts n P Q (g none)) : Accounts n P Q (Reader.take? k >>= g) := by
  rw [Reader.take?_bind]
  refine check ?_ (no.weaken (Nat.le_refl n) (fun _ h => h.1) fun _ _ h => h)
  exact advance_kind (K := (· = k)) (fun _ h => h.2) (fun _ h => h ▸ hk) yes

theorem skip? {g : Bool → Reader α} (hk : k ≠ .endOfFile)
    (yes : Accounts (n - 1) Everywhere (fun a vs => ∀ t, t.kind = k → Q a (t :: vs)) (g true))
    (no : Accounts n P Q (g false)) : Accounts n P Q (Reader.skip? k >>= g) := by
  rw [Reader.skip?_bind]
  exact take? hk (fun t => yes.gives fun _ _ h => h t) no

def Tries (P R : List Token → Prop) (q : Reader Bool) : Prop :=
  ∀ ⦃us d⦄, P us → Closes d us → q (Cursor.quiet us) = (false, Cursor.quiet us) ∨
    ∃ ts f more, us = ts ++ f :: more ∧ R ts ∧
      q (Cursor.quiet us) = (true, Cursor.quiet (f :: more))

theorem tries {q : Reader Bool} {g : Bool → Reader α} {R : List Token → Prop} {i : Nat}
    (safe : Safe q) (h : Tries P R q) (took : ∀ ts, R ts → i ≤ ts.length)
    (yes : Accounts (n - i) Everywhere (fun a vs => ∀ ts, R ts → Q a (ts ++ vs)) (g true))
    (no : Accounts n P Q (g false)) : Accounts n P Q (q >>= g) := by
  refine ⟨safe.bind (Bool.rec no.safe yes.safe), fun us d less there closes silent => ?_⟩
  obtain ⟨-, e, mid⟩ := safe (closes_quiet closes)
  rw [bind_run] at silent ⊢
  obtain still | ⟨ts, f, more, rfl, good, run⟩ := h there closes
  · rw [still] at silent ⊢
    exact no.quiet less there closes silent
  · rw [run] at silent mid ⊢
    rw [Cursor.tokens, Cursor.quiet, TokenStream.tokens_quiet] at mid
    have size := took ts good
    rw [List.length_append] at less
    obtain ⟨vs, rest, here, run', good'⟩ := yes.quiet (by omega) trivial mid silent
    exact ⟨ts ++ vs, rest, by rw [here, List.append_assoc], run', good' ts good⟩

theorem loud {q : Reader β} (safe : Safe q) (report : ∀ c, (q c).2.reports ≠ [])
    (two : ∀ b, Safe (g b)) : Accounts n P Q (q >>= g) := by
  refine ⟨safe.bind two, fun us d _ _ closes silent => ?_⟩
  obtain ⟨-, e, mid⟩ := safe (closes_quiet closes)
  exact absurd silent ((two _ mid).1.loud (report _))

theorem report_loud (r : Report) (c : Cursor) : (Reader.report r c).2.reports ≠ [] := by
  obtain ⟨rs, run, filled⟩ := Statement.Parser.objects_report r c
  rw [run]
  exact filled

theorem report {g : Unit → Reader α} (r : Report) (two : Safe (g ())) :
    Accounts n P Q (Reader.report r >>= g) :=
  loud (.of_still (.report r)) (report_loud r) fun _ => two

theorem expected {g : Unit → Reader α} (what : Bytes) (two : Safe (g ())) :
    Accounts n P Q (Reader.expected what >>= g) :=
  loud (.of_still (.expected what)) (fun _ => report_loud _ _) fun _ => two

theorem discard_expect {g : Unit → Reader α} {what : Bytes} (hk : k ≠ .endOfFile)
    (two : Accounts n Everywhere (fun a vs => ∀ t, t.kind = k → Q a (t :: vs)) (g ())) :
    Accounts n P Q (Functor.discard (Reader.expect k what) >>= g) := by
  change Accounts n P Q (Reader.expect k what >>= fun _ => g ())
  unfold Reader.expect
  rw [bind_assoc]
  refine take? hk (fun t => ?_) ?_
  · rw [pure_bind]
    exact two.weaken (Nat.sub_le n 1) (fun _ h => h) fun _ _ h => h t
  · dsimp only
    rw [bind_assoc]
    exact expected what (.bind (.pure _) fun _ => two.safe)

end Accounts

/-- What the rounds of a loop take, one after the other, with the one that ends it. -/
inductive Rows (S : Option α → List Token → Prop) : List α → List Token → Prop
  | last {ts : List Token} (h : S none ts) : Rows S [] ts
  | next {a : α} {as : List α} {ts us : List Token} (h : S (some a) ts) (more : Rows S as us) :
    Rows S (a :: as) (ts ++ us)

theorem Accounts.many {n : Nat} {S : Option α → List Token → Prop} {p : Reader (Option α)}
    (h : Accounts n Everywhere S p) (goes : Goes taken Everywhere p) :
    Accounts n Everywhere (Rows S) (Reader.many p) := by
  have bounded (bound : List Heard) : ∀ ⦃us d⦄, us.length ≤ n → us.length ≤ bound.length →
      Closes d us → (Reader.atMost p bound (Cursor.quiet us)).2.reports = [] →
      ∃ ts more, us = ts ++ more ∧ (Reader.atMost p bound (Cursor.quiet us)).2 = Cursor.quiet more ∧
        Rows S (Reader.atMost p bound (Cursor.quiet us)).1 ts := by
    induction bound with
    | nil =>
      intro us d _ none closes
      obtain ⟨t, us, rfl⟩ := closes.exists_cons
      cases none
    | cons x bound ih =>
      intro us d less enough closes silent
      obtain ⟨vs, e, here, took, mid⟩ := goes trivial (closes_quiet closes)
      cases given : (p (Cursor.quiet us)).1 with
      | none =>
        have stop : Reader.atMost p (x :: bound) (Cursor.quiet us) =
            ([], (p (Cursor.quiet us)).2) := by
          rw [Reader.atMost, bind_run, given]
          rfl
        rw [stop] at silent ⊢
        obtain ⟨ts, more, here, run, good⟩ := h.quiet less trivial closes silent
        rw [given] at good
        exact ⟨ts, more, here, run, .last good⟩
      | some a =>
        have round := atMost_some (d := (p (Cursor.quiet us)).2) (Prod.ext given rfl) x bound
        rw [round] at silent ⊢
        dsimp only at silent ⊢
        have quiet : (p (Cursor.quiet us)).2.reports = [] := by
          by_contra loud
          exact (h.safe.atMost bound mid).1.loud loud silent
        obtain ⟨ts, more, rfl, run, good⟩ := h.quiet less trivial closes quiet
        rw [given] at good took
        rw [run] at silent mid here ⊢
        simp only [Cursor.tokens, Cursor.quiet, TokenStream.tokens_quiet] at here mid
        have count := congrArg List.length here
        simp only [List.length_append, List.length_cons] at count less enough
        have took : 1 ≤ vs.length := took
        obtain ⟨ws, rest, rfl, run', rows⟩ := ih (by omega) (by omega) mid silent
        exact ⟨ts ++ ws, rest, (List.append_assoc _ _ _).symm, run', .next good rows⟩
  refine ⟨h.safe.many, fun us d less _ closes => bounded _ less ?_ closes⟩
  simp [Cursor.quiet, TokenStream.quiet]

namespace Expression.Parser

section Operators

variable {k : Kind} {l : Location} {make : Expression → Expression → Expression} {type : TypeName}

def Knows (n : Nat) (operator? : Location → Kind → Option (Expression → Expression → Expression)) :
    Prop :=
  ∀ l k make, operator? l k = some make → ∃ mk, Joining n k mk ∧ make = mk l

theorem knows_product : Knows 4 product? := by
  intro l k make h
  unfold product? at h
  split at h <;> cases h
  · exact ⟨_, .times, rfl⟩
  · exact ⟨_, .divide, rfl⟩
  · exact ⟨_, .modulo, rfl⟩

theorem knows_sum : Knows 5 sum? := by
  intro l k make h
  unfold sum? at h
  split at h <;> cases h
  · exact ⟨_, .plus, rfl⟩
  · exact ⟨_, .minus, rfl⟩
  · exact ⟨_, .addedTo, rfl⟩
  · exact ⟨_, .splitBy, rfl⟩

theorem knows_conjunction : Knows 8 conjunction? := by
  intro l k make h
  unfold conjunction? at h
  split at h <;> cases h
  exact ⟨_, .and, rfl⟩

theorem knows_disjunction : Knows 9 disjunction? := by
  intro l k make h
  unfold disjunction? at h
  split at h <;> cases h
  exact ⟨_, .or, rfl⟩

theorem comparing_of_comparison? (h : comparison? l k = some make) :
    ∃ mk, Comparing k mk ∧ make = mk l := by
  unfold comparison? at h
  split at h <;> cases h
  · exact ⟨_, .isEqualTo, rfl⟩
  · exact ⟨_, .equals, rfl⟩
  · exact ⟨_, .isNotEqualTo, rfl⟩
  · exact ⟨_, .isLessThan, rfl⟩
  · exact ⟨_, .isGreaterThan, rfl⟩
  · exact ⟨_, .isLessThanOrEqualTo, rfl⟩
  · exact ⟨_, .isGreaterThanOrEqualTo, rfl⟩
  · exact ⟨_, .isIn, rfl⟩
  · exact ⟨_, .contains, rfl⟩
  · exact ⟨_, .startsWith, rfl⟩
  · exact ⟨_, .endsWith, rfl⟩

theorem testing_of_testedType? (h : testedType? k = some type) : Testing k type := by
  unfold testedType? at h
  split at h <;> cases h
  · exact .number
  · exact .text
  · exact .boolean
  · exact .list
  · exact .table

end Operators

section

variable {n : Nat} {P : List Token → Prop} {inner : Reader Expression}

def Operation (m : Nat) :
    Option ((Expression → Expression → Expression) × Expression) → List Token → Prop
  | none, ts => ts = []
  | some x, ts => ∃ o us mk, ts = o :: us ∧ Joining (m + 1) o.kind mk ∧ x.1 = mk o.location ∧
      Derives m us x.2

theorem derives_of_rows {m : Nat} {xs : List ((Expression → Expression → Expression) × Expression)}
    {ts us : List Token} {e : Expression} (rows : Rows (Operation m) xs us)
    (h : Derives (m + 1) ts e) : Derives (m + 1) (ts ++ us) (xs.foldl join e) := by
  induction rows generalizing ts e with
  | last none =>
    obtain rfl : _ = [] := none
    rwa [List.append_nil]
  | next some _ ih =>
    obtain ⟨o, us, mk, rfl, operator, made, right⟩ := some
    rw [← List.append_assoc, List.foldl_cons, join, made]
    exact ih (.joining operator h right)

theorem leftAssociative_accounts {m : Nat}
    {operator? : Location → Kind → Option (Expression → Expression → Expression)}
    {operand : Reader Expression} (below : m < 9) (knows : Knows (m + 1) operator?)
    (ho : Operators operator?) (level : Level operand)
    (h : Accounts n Everywhere (fun e ts => Derives m ts e) operand) :
    Accounts n Everywhere (fun e ts => Derives (m + 1) ts e)
      (leftAssociative operator? operand) := by
  have round : Accounts n Everywhere (Operation m) (operation operator? operand) := by
    refine .peek fun t => ?_
    cases found : operator? t.location t.kind with
    | none => exact .pure rfl
    | some make =>
      obtain ⟨mk, operator, made⟩ := knows _ _ _ found
      have inside : t.kind ≠ .endOfFile := fun ends => ho _ _ _ found (by simp [ends])
      have operand := h.weaken (Nat.sub_le n 1) (fun _ h => h) fun _ _ h => h
      refine .discard_advance inside (.bind operand fun e => .pure fun ts right => ?_)
      exact ⟨t, ts, mk, by rw [List.append_nil], operator, made, right⟩
  rw [leftAssociative_eq]
  refine .bind h fun e => .bind (.many round (operation_goes ho level)) fun xs => .pure ?_
  intro us rows ts left
  rw [List.append_nil]
  exact derives_of_rows rows (.looser left below)

def Trailer : Option (Expression → Expression) → List Token → Prop
  | none, ts => ts = []
  | some f, us => ∀ ts e, Derives 2 ts e → Derives 2 (ts ++ us) (f e)

def Leader : Option (Expression → Expression) → List Token → Prop
  | none, ts => ts = []
  | some f, ts => ∀ us e, Derives 3 us e → Derives 3 (ts ++ us) (f e)

def OfKind (k : Kind) : Option Token → List Token → Prop
  | none, ts => ts = []
  | some t, ts => ts = [t] ∧ t.kind = k

theorem many_take?_accounts {k : Kind} (hk : k ≠ .endOfFile) :
    Accounts n Everywhere (Rows (OfKind k)) (many (take? k)) := by
  refine .many ?_ (.take? hk)
  rw [← bind_pure (take? k)]
  exact .take? hk (fun t => .pure fun kind => ⟨rfl, kind⟩) (.pure rfl)

theorem kind_of_rows {k : Kind} {ts us : List Token} (rows : Rows (OfKind k) ts us) :
    ∀ t ∈ us, t.kind = k := by
  induction rows with
  | last none =>
    obtain rfl : _ = [] := none
    simp
  | next some _ ih =>
    obtain ⟨rfl, kind⟩ := some
    exact List.forall_mem_cons.2 ⟨kind, ih⟩

theorem derives_of_trailers {fs : List (Expression → Expression)} {ts us : List Token}
    {e : Expression} (rows : Rows Trailer fs us) (h : Derives 2 ts e) :
    Derives 2 (ts ++ us) (fs.foldl (fun e f => f e) e) := by
  induction rows generalizing ts e with
  | last none =>
    obtain rfl : _ = [] := none
    rwa [List.append_nil]
  | next some _ ih =>
    rw [← List.append_assoc]
    exact ih (some ts e h)

theorem derives_of_leaders {fs : List (Expression → Expression)} {ts us : List Token}
    {e : Expression} (rows : Rows Leader fs ts) (h : Derives 3 us e) :
    Derives 3 (ts ++ us) (fs.foldr (fun f e => f e) e) := by
  induction rows with
  | last none =>
    obtain rfl : _ = [] := none
    exact h
  | next some _ ih =>
    rw [List.append_assoc]
    exact some _ _ ih

theorem derives_of_nots {nots : List Token} {ts us : List Token} {e : Expression}
    (rows : Rows (OfKind .not) nots ts) (h : Derives 7 us e) :
    Derives 7 (ts ++ us) (nots.foldr (fun t e => Expression.not t.location e) e) := by
  induction rows with
  | last none =>
    obtain rfl : _ = [] := none
    exact h
  | next some _ ih =>
    obtain ⟨rfl, kind⟩ := some
    exact .negation kind ih

theorem emptyTable_tries : Accounts.Tries P
    (fun ts => ∃ c r : Token, ts = [c, r] ∧ c.kind = .colon ∧ r.kind = .rightBracket)
    emptyTable := by
  intro us d _ closes
  obtain ⟨c, us, rfl⟩ := closes.exists_cons
  by_cases colon : c.kind = .colon
  · obtain ⟨i, -, rest⟩ := closes.tail (by rw [colon]; decide)
    obtain ⟨r, us, rfl⟩ := rest.exists_cons
    by_cases right : r.kind = .rightBracket
    · obtain ⟨j, -, rest⟩ := rest.tail (by rw [right]; decide)
      obtain ⟨f, us, rfl⟩ := rest.exists_cons
      exact .inr ⟨[c, r], f, us, rfl, ⟨c, r, rfl, colon, right⟩,
        takes_emptyTable colon right f us trivial⟩
    · left
      rw [emptyTable, bind_run, Reads.check_quiet, colon]
      change (Reader.checkAt 1 .rightBracket >>= _) _ = _
      rw [bind_run, checkAt_quiet rfl, beq_false_of_ne right]
      rfl
  · left
    rw [emptyTable, bind_run, Reads.check_quiet, beq_false_of_ne colon]
    rfl

theorem decimalPlaces_safe : Safe decimalPlaces := by
  have pass {g : Unit → Reader Bool} (h : Safe (g ())) : Safe (discard advance >>= g) :=
    .bind (p := advance) .advance fun _ => h
  refine .bind (.of_still (.peekAt 1)) fun next => .ite ?_ (.pure _)
  refine .bind (.bind (.of_still (.peekAt 2)) fun _ => .pure _) fun paren => .ite ?_ (.pure _)
  exact pass (pass (pass (.pure _)))

theorem decimalPlaces_tries {t : Token} (as : t.kind = .as) :
    Accounts.Tries (fun us => P us ∧ us.head? = some t)
      (fun ts => ∃ d l : Token, ts = [t, d, l] ∧ d.kind = .name ∧ d.text = "decimal" ∧
        l.kind = .leftParen) decimalPlaces := by
  intro us e there closes
  obtain ⟨u, us, rfl⟩ := closes.exists_cons
  cases there.2
  obtain ⟨i, -, rest⟩ := closes.tail (by rw [as]; decide)
  obtain ⟨d, us, rfl⟩ := rest.exists_cons
  by_cases word : d.kind = .name ∧ d.text = "decimal"
  · obtain ⟨j, -, rest⟩ := rest.tail (by rw [word.1]; decide)
    obtain ⟨l, us, rfl⟩ := rest.exists_cons
    by_cases left : l.kind = .leftParen
    · obtain ⟨k, -, rest⟩ := rest.tail (by rw [left]; decide)
      obtain ⟨f, us, rfl⟩ := rest.exists_cons
      exact .inr ⟨[t, d, l], f, us, rfl, ⟨d, l, rfl, word.1, word.2, left⟩,
        takes_decimalPlaces as word.1 word.2 left f us trivial⟩
    · left
      rw [decimalPlaces, bind_run, peekAt_quiet, token_quiet (t := d) rfl]
      dsimp only
      rw [if_pos (by simpa using word), bind_run, checkAt_quiet rfl, beq_false_of_ne left]
      rfl
  · left
    rw [decimalPlaces, bind_run, peekAt_quiet, token_quiet (t := d) rfl]
    dsimp only
    rw [if_neg (by simpa using word)]
    rfl

def Separated (S : α → List Token → Prop) : Option α → List Token → Prop
  | none, ts => Trailing ts
  | some a, ts => ∃ c us, ts = c :: us ∧ c.kind = .comma ∧ S a us

theorem moreElements_accounts {S : α → List Token → Prop} {element : Reader α}
    (level : Level element) (h : Accounts n Everywhere S element) :
    Accounts n Everywhere (Rows (Separated S)) (moreElements element) := by
  refine .many (p := nextElement element) ?_ (nextElement_goes level)
  refine .skip? (by decide) ?_ (.pure .none)
  refine .check (.pure fun t comma => .comma comma) ?_
  refine .bind (h.weaken (Nat.sub_le n 1) (fun _ _ => trivial) fun _ _ h => h) fun a => .pure ?_
  exact fun us element t comma => ⟨t, us, by rw [List.append_nil], comma, element⟩

theorem elements_of_rows {tokens : β → List Token} {tree : β → α} {S : β → Prop} {as : List α}
    {ts : List Token}
    (rows : Rows (Separated fun a us => ∃ x, a = tree x ∧ us = tokens x ∧ S x) as ts) :
    ∃ (more : List (Token × β)) (trail : List Token), ts = behindCommas tokens more ++ trail ∧
      as = more.map (tree ·.2) ∧ (∀ x ∈ more, x.1.kind = .comma) ∧ (∀ x ∈ more, S x.2) ∧
      Trailing trail := by
  induction rows with
  | last ends => exact ⟨[], _, rfl, rfl, by simp, by simp, ends⟩
  | next some _ ih =>
    obtain ⟨c, _, rfl, comma, x, rfl, rfl, good⟩ := some
    obtain ⟨more, trail, rfl, rfl, commas, all, ends⟩ := ih
    refine ⟨(c, x) :: more, trail, ?_, rfl, List.forall_mem_cons.2 ⟨comma, commas⟩,
      List.forall_mem_cons.2 ⟨good, all⟩, ends⟩
    rw [behindCommas_cons, List.append_assoc]

def Keyless (e : Expression) (ts : List Token) : Prop :=
  ∃ x : Item, e = x.tree ∧ ts = x.tokens ∧ Derives 9 x.tokens x.tree

def Keyed (e : Expression × Expression) (ts : List Token) : Prop :=
  ∃ x : Pair, e = x.tree ∧ ts = x.tokens ∧ Derives 9 x.key.tokens x.key.tree ∧
    x.colon.kind = .colon ∧ Derives 9 x.value.tokens x.value.tree

variable (h : Accounts n Everywhere (fun e ts => Derives 9 ts e) inner)
include h

theorem closed_accounts {k : Kind} (hk : k ≠ .endOfFile) {what : Bytes} {m : Nat} (hm : m ≤ n)
    {Q : α → List Token → Prop} {make : Expression → α}
    (hQ : ∀ e ts r, Derives 9 ts e → r.kind = k → Q (make e) (ts ++ [r])) :
    Accounts m Everywhere Q (do
      let e ← inner
      discard (expect k what)
      return make e) := by
  refine .bind (h.weaken hm (fun _ h => h) fun _ _ h => h) fun e => .discard_expect hk (.pure ?_)
  exact fun r hr ts inside => hQ e ts r inside hr

theorem entry_accounts : Accounts n Everywhere Keyed (entry inner) := by
  refine .bind h fun key => .discard_expect (by decide) (.bind h fun value => .pure ?_)
  intro us value t colon ts key
  exact ⟨⟨⟨ts, _⟩, t, ⟨us, _⟩⟩, rfl, by simp [Pair.tokens], key, colon, value⟩

theorem trailer_accounts : Accounts (n + 1) Everywhere Trailer (trailer inner) := by
  refine .peek fun t => ?_
  split
  · next kind =>
    refine .discard_advance (by rw [kind]; decide) ?_
    refine closed_accounts h (by decide) (Nat.le_refl n) fun key us r inside right ts e before => ?_
    exact .index before kind inside right
  · next kind =>
    refine .tries (i := 1) decimalPlaces_safe (decimalPlaces_tries kind)
      (fun _ ⟨_, _, taken, _⟩ => taken ▸ Nat.succ_pos _) ?_ ?_
    · refine closed_accounts h (by decide) (Nat.le_refl n) fun places us r inside right => ?_
      rintro _ ⟨d, l, rfl, word, spelled, left⟩ ts e before
      exact .decimal before kind word spelled left inside right
    · refine .discard_advance (by rw [kind]; decide) (.peek fun u => ?_)
      split
      case h_4 => exact .expected _ (.pure _)
      all_goals
        next target =>
        refine .discard_advance (by rw [target]; decide) (.pure fun ts e before => ?_)
        refine .convert before kind ?_
        rw [target]
        constructor
  · exact .pure rfl

variable (level : Level inner)
include level

theorem bracketed_accounts :
    Accounts (n + 1) (First (· = .leftBracket)) (fun e ts => Derives 1 ts e) (bracketed inner) := by
  refine .advance_kind (K := (· = .leftBracket)) (fun _ h => h) (fun _ h => h ▸ by decide)
    fun l => ?_
  refine .skip? (by decide) (.pure fun r right left => .emptyList left right) ?_
  refine .tries (i := 0) (.of_level emptyTable_level) emptyTable_tries (fun _ _ => Nat.zero_le _)
    (.pure ?_) ?_
  · rintro _ ⟨c, r, rfl, colon, right⟩ left
    exact .emptyTable left colon right
  refine .bind h fun first => .skip? (by decide) ?_ ?_
  · have pairs := moreElements_accounts (entry_level level) (entry_accounts h)
    refine .bind (h.weaken (Nat.sub_le n 1) (fun _ h => h) fun _ _ h => h) fun value => ?_
    refine .bind (pairs.weaken (Nat.sub_le n 1) (fun _ h => h) fun _ _ h => h) fun es => ?_
    refine .discard_expect (by decide) (.pure ?_)
    intro r right vs rows us value c colon ts key left
    obtain ⟨more, trail, rfl, rfl, commas, pairs, ends⟩ := elements_of_rows rows
    have made := Derives.table (p := ⟨⟨ts, _⟩, c, ⟨us, _⟩⟩) left key colon value commas
      (fun x hx => (pairs x hx).1) (fun x hx => (pairs x hx).2.1) (fun x hx => (pairs x hx).2.2)
      ends right
    simpa [Pair.tokens, Pair.tree] using made
  · have items := moreElements_accounts level
      (h.gives (S := Keyless) fun e ts phrase => ⟨⟨ts, e⟩, rfl, rfl, phrase⟩)
    refine .bind items fun es => .discard_expect (by decide) (.pure ?_)
    intro r right us rows ts first left
    obtain ⟨more, trail, rfl, rfl, commas, items, ends⟩ := elements_of_rows rows
    have made := Derives.list (i := ⟨ts, _⟩) left first commas items ends right
    simpa using made

theorem primary_accounts :
    Accounts (n + 1) Everywhere (fun e ts => Derives 1 ts e) (primary inner) := by
  refine .peek fun t => ?_
  split
  case h_8 kind =>
    exact (bracketed_accounts h level).weaken (Nat.le_refl _)
      (fun _ h => Accounts.first_of_head kind h.2)
      fun _ _ h => h
  case h_9 kind =>
    refine .discard_advance (by rw [kind]; decide) ?_
    exact closed_accounts h (by decide) (Nat.le_refl n) fun e ts r inside right =>
      .parens kind inside right
  case h_10 => exact .report _ (.pure _)
  all_goals
    next kind =>
    refine .discard_advance (by rw [kind]; decide) (.pure (.value ?_))
    constructor
    exact kind

theorem trailed_accounts :
    Accounts (n + 1) Everywhere (fun e ts => Derives 2 ts e) (trailed inner) := by
  refine .bind (primary_accounts h level) fun e =>
    .bind (.many (trailer_accounts h) (trailer_goes level)) fun fs => .pure ?_
  intro us rows ts value
  rw [List.append_nil]
  exact derives_of_trailers rows (.looser value (by decide))

theorem leader_accounts : Accounts (n + 1) Everywhere Leader (leader inner) := by
  refine .peek fun t => ?_
  split
  case h_4 kind =>
    refine .discard_advance (by rw [kind]; decide) ?_
    refine .bind ((trailed_accounts h level).weaken (Nat.le_succ n) (fun _ h => h) fun _ _ h => h)
      fun position => .discard_expect (by decide) (.pure ?_)
    intro o of ts position us e operand
    simpa using Derives.characterAt kind position of operand
  case h_5 => exact .pure rfl
  all_goals
    next kind =>
    refine .discard_advance (by rw [kind]; decide) (.pure fun ts e operand => ?_)
    refine .leading ?_ operand
    rw [kind]
    constructor

theorem led_accounts : Accounts (n + 1) Everywhere (fun e ts => Derives 3 ts e) (led inner) := by
  refine .bind (.many (leader_accounts h level) (leader_goes level)) fun fs =>
    .bind (trailed_accounts h level) fun e => .pure ?_
  intro us value ts rows
  rw [List.append_nil]
  exact derives_of_leaders rows (.looser value (by decide))

theorem sum_accounts : Accounts (n + 1) Everywhere (fun e ts => Derives 5 ts e) (sum inner) :=
  leftAssociative_accounts (by decide) knows_sum operators_sum (product_level level)
    (leftAssociative_accounts (by decide) knows_product operators_product (led_level level)
      (led_accounts h level))

theorem comparison_accounts :
    Accounts (n + 1) Everywhere (fun e ts => Derives 6 ts e) (comparison inner) := by
  refine .bind (sum_accounts h level) fun left => .peek fun t => ?_
  split
  · next make _ found =>
    obtain ⟨mk, operator, rfl⟩ := comparing_of_comparison? found
    refine .discard_advance (fun ends => operators_comparison _ _ _ found (by simp [ends])) ?_
    refine .bind ((sum_accounts h level).weaken (Nat.sub_le _ 1) (fun _ h => h) fun _ _ h => h)
      fun right => .pure ?_
    intro us right ts left
    simpa using Derives.comparing operator left right
  · next type _ found =>
    refine .discard_advance (fun ends => flat_of_testedType found (by simp [ends]))
      (.pure fun ts left => ?_)
    exact .testing (testing_of_testedType? found) left
  · refine .pure fun ts left => ?_
    rw [List.append_nil]
    exact .looser left (by decide)

theorem negation_accounts :
    Accounts (n + 1) Everywhere (fun e ts => Derives 7 ts e) (negation inner) := by
  refine .bind (many_take?_accounts (by decide)) fun nots =>
    .bind (comparison_accounts h level) fun e => .pure ?_
  intro us operand ts rows
  rw [List.append_nil]
  exact derives_of_nots rows (.looser operand (by decide))

theorem disjunction_accounts :
    Accounts (n + 1) Everywhere (fun e ts => Derives 9 ts e) (disjunction inner) :=
  leftAssociative_accounts (by decide) knows_disjunction operators_disjunction
    (conjunction_level level)
    (leftAssociative_accounts (by decide) knows_conjunction operators_conjunction
      (negation_level level) (negation_accounts h level))

end

/-- What is read without a report is derived, however many tokens are left. -/
theorem expression_accounts (n : Nat) :
    Accounts n Everywhere (fun e ts => Derives 9 ts e) expression := by
  induction n with
  | zero =>
    refine ⟨.of_level expression_level, fun us d none _ closes => ?_⟩
    obtain ⟨t, us, rfl⟩ := closes.exists_cons
    cases none
  | succ n ih =>
    have all := disjunction_accounts ih expression_level
    refine ⟨.of_level expression_level, fun us d less there closes silent => ?_⟩
    have unfolds : disjunction expression (Cursor.quiet us) = expression (Cursor.quiet us) :=
      (nested_agrees (n + 1)).2 (by simpa [Cursor.quiet, TokenStream.quiet] using less) there
        (Accounts.closes_quiet closes)
    rw [← unfolds] at silent ⊢
    exact all.quiet less there closes silent

def surrounded : Reader Expression := do
  beginLine
  skipNewlines
  let e ← expression
  skipNewlines
  return e

def ending (e : Expression) : Reader Expression := do
  if !(← check .endOfFile) then unexpected
  return e

theorem standalone_eq : standalone = surrounded >>= ending := by
  simp only [standalone, surrounded, ending, bind_assoc, pure_bind]

theorem ending_safe (e : Expression) : Safe (ending e) := by
  refine .bind (.of_still (.check _)) fun b => ?_
  cases b with
  | true => exact .pure e
  | false => exact .bind (.of_still (.unexpected _)) fun _ => .pure e

theorem ending_last {t : Token} (h : t.kind = .endOfFile) (e : Expression) (ts : List Token) :
    ending e (Cursor.quiet (t :: ts)) = (e, Cursor.quiet (t :: ts)) := by
  rw [ending, bind_run, Reads.check_quiet, h]
  rfl

theorem ending_loud {t : Token} (h : t.kind ≠ .endOfFile) (e : Expression) (ts : List Token) :
    (ending e (Cursor.quiet (t :: ts))).2.reports ≠ [] := by
  rw [ending, bind_run, Reads.check_quiet, beq_false_of_ne h]
  exact Accounts.report_loud _ _

def Surrounded (e : Expression) (ts : List Token) : Prop :=
  ∃ before us after : List Token, ts = before ++ us ++ after ∧
    (∀ t ∈ before, t.kind = .newline) ∧ (∀ t ∈ after, t.kind = .newline) ∧ Derives 9 us e

theorem skipNewlines_accounts :
    Accounts n Everywhere (fun _ ts => ∀ t ∈ ts, t.kind = .newline) skipNewlines := by
  change Accounts n Everywhere _ (many (take? .newline) >>= fun _ => pure ())
  refine .bind (many_take?_accounts (by decide)) fun _ => .pure fun ts rows => ?_
  rw [List.append_nil]
  exact kind_of_rows rows

theorem surrounded_accounts (n : Nat) : Accounts n Everywhere Surrounded surrounded := by
  have begins : Accounts n Everywhere (fun _ ts => ts = []) beginLine :=
    ⟨.of_still .beginLine, fun us _ _ _ _ _ => ⟨[], us, rfl, rfl, rfl⟩⟩
  refine .bind begins fun _ => .bind skipNewlines_accounts fun _ => .bind (expression_accounts n)
    fun e => .bind skipNewlines_accounts fun _ => .pure ?_
  rintro after last us inside before first _ rfl
  exact ⟨before, us, after, by simp, first, last, inside⟩

theorem takes_skipNewlines {ts : List Token} (h : ∀ t ∈ ts, t.kind = .newline) :
    Takes skipNewlines ts () (· ≠ .newline) := by
  have all (bound : List Heard) : ts.length < bound.length →
      Takes (atMost (take? .newline) bound) ts ts (· ≠ .newline) := by
    induction ts generalizing bound with
    | nil => exact fun enough => .atMost_last (.of_declines (Reads.take?_declines .newline)) enough
    | cons t ts ih =>
      intro enough
      obtain ⟨y, bound, rfl⟩ := List.exists_cons_of_length_pos (Nat.zero_lt_of_lt enough)
      obtain ⟨line, lines⟩ := List.forall_mem_cons.1 h
      have one : Takes (take? .newline) [t] (some t) Any :=
        .take? (g := Pure.pure) line (by decide) .pure
      have rest := ih lines bound (Nat.lt_of_succ_lt_succ enough)
      exact .atMost_round one (Reads.next_any _ _) rest
  change Takes (many (take? .newline) >>= fun _ => pure ()) ts () _
  exact .last (.many all) (fun _ h => h) .pure

theorem takes_surrounded {ts : List Token} {e : Expression} (h : Surrounded e ts) :
    Takes surrounded ts e (· = .endOfFile) := by
  obtain ⟨before, us, after, rfl, first, last, inside⟩ := h
  have next : Next (Looser 1) after (· = .endOfFile) := by
    cases after with
    | nil => exact fun x ends => ends ▸ by decide
    | cons t after =>
      have line : t.kind = .newline := last t (by simp)
      rw [Next, line]
      decide
  have begins : Takes beginLine [] () Any := fun f more _ => rfl
  rw [List.append_assoc]
  refine .still begins (Reads.next_any _ _) ?_
  refine .bind (takes_skipNewlines first) ?_ (.bind (takes_of_derives inside) next ?_)
  · obtain ⟨t, ws, rfl, heads⟩ := inside.begins
    exact Next.cons (heads.ne (by decide) (by decide) (by decide))
  · exact .last (takes_skipNewlines last) (fun x ends => ends ▸ by decide) .pure

theorem standalone_iff {ts : List Token} (closes : Closes 0 ts) (e : Expression) :
    (standalone (Cursor.quiet ts)).1 = e ∧ (standalone (Cursor.quiet ts)).2.reports = [] ↔
      ∃ us last, ts = us ++ [last] ∧ last.kind = .endOfFile ∧ Surrounded e us := by
  rw [standalone_eq, bind_run]
  constructor
  · rintro ⟨rfl, silent⟩
    obtain ⟨grows, d, mid⟩ := (surrounded_accounts ts.length).safe (Accounts.closes_quiet closes)
    have quiet : (surrounded (Cursor.quiet ts)).2.reports = [] := by
      by_contra loud
      exact (ending_safe _ mid).1.loud loud silent
    obtain ⟨us, more, rfl, run, inside⟩ :=
      (surrounded_accounts ts.length).quiet (Nat.le_refl _) trivial closes quiet
    rw [run] at silent mid ⊢
    rw [Cursor.tokens, Cursor.quiet, TokenStream.tokens_quiet] at mid
    obtain ⟨t, more, rfl⟩ := mid.exists_cons
    by_cases last : t.kind = .endOfFile
    · obtain ⟨-, rfl⟩ := mid.last last
      exact ⟨us, t, rfl, last, by rwa [ending_last last]⟩
    · exact absurd silent (ending_loud last _ more)
  · rintro ⟨us, last, rfl, ends, inside⟩
    rw [takes_surrounded inside last [] ends, ending_last ends]
    exact ⟨rfl, rfl⟩

end Expression.Parser

namespace Parsed
open Expression TokenStream

/-- A text without lexical faults is read as an expression, with nothing reported, exactly when the
grammar derives the expression from its tokens, but for the ends of lines around them and the end of
the file. -/
theorem expression_iff_derives (file : Nat) (source : Bytes) :
    ((ofSource file source).reports = [] → ∀ e : Expression,
      expression file source = ⟨e, []⟩ ↔
        ∃ (before ts after : List Token) (last : Token),
          (ofSource file source).tokens.map (·.token) = before ++ ts ++ after ++ [last] ∧
          (∀ t ∈ before, t.kind = .newline) ∧ (∀ t ∈ after, t.kind = .newline) ∧
          last.kind = .endOfFile ∧ Derives 9 ts e) ∧
    ∀ (ts : List Token) (e f : Expression), Derives 9 ts e → Derives 9 ts f → e = f := by
  refine ⟨fun clean e => ?_, fun ts e f => Derives.unique⟩
  have closes := closes_ofSource file source
  have silent : (Cursor.ofStream (ofSource file source)).Silent := List.flatMap_eq_nil_iff.1 clean
  obtain ⟨ts, tokens⟩ : ∃ ts, (ofSource file source).tokens = quiet ts :=
    ⟨_, Cursor.quiet_of_silent silent rfl⟩
  rw [tokens, tokens_quiet] at closes ⊢
  have run : expression file source = ⟨e, []⟩ ↔ (Parser.standalone (Cursor.quiet ts)).1 = e ∧
      (Parser.standalone (Cursor.quiet ts)).2.reports = [] := by
    have begun : start file source = Cursor.quiet ts := by
      rw [start, silent.hear, Cursor.ofStream, tokens, Cursor.quiet]
    rw [expression, run_eq, begun, mk.injEq]
  rw [run, Parser.standalone_iff closes]
  constructor
  · rintro ⟨_, last, rfl, ends, before, us, after, rfl, first, final, inside⟩
    exact ⟨before, us, after, last, rfl, first, final, ends, inside⟩
  · rintro ⟨before, us, after, last, rfl, first, final, ends, inside⟩
    exact ⟨_, last, rfl, ends, before, us, after, rfl, first, final, inside⟩

theorem expression_iff_derives_mixed :
    let source : Bytes := "\n[-x, \"a\" as number,] is in y and not z[1] + 2 * 3 is less than 9\n\n"
    (ofSource 0 source).reports = [] ∧ ∃ (ts : List Token) (e : Expression),
      expression 0 source = ⟨e, []⟩ ∧ Derives 9 ts e ∧ ∀ f, Derives 9 ts f → f = e := by
  intro source
  have clean : (ofSource 0 source).reports = [] := by decide +kernel
  have quiet : (expression 0 source).reports = [] := by decide +kernel
  have read : expression 0 source = ⟨(expression 0 source).result, []⟩ := by rw [← quiet]
  obtain ⟨exact, unique⟩ := expression_iff_derives 0 source
  obtain ⟨before, ts, after, last, -, -, -, -, inside⟩ := (exact clean _).1 read
  exact ⟨clean, ts, _, read, inside, fun f other => unique ts f _ other inside⟩

end Parsed

end StepsLang
