import StepsLang.Proofs.Recovery.Faults
import StepsLang.Proofs.Recovery.Tandem
import StepsLang.Proofs.Token.Nesting

/-! Readers and the depth of blocks.  Of a reader it is said how many blocks it closes or leaves
open, whatever the tokens are that it finds, as long as they belong to the rest of a text.  This
module has the rules for the primitives and for putting readers together. -/

namespace StepsLang

/-- What is left of a text where `d` blocks are open: they are all closed before the file ends. -/
def Closes (d : Nat) (ts : List Token) : Prop :=
  ∃ zs e, ts = zs ++ [e] ∧ e.kind = .endOfFile ∧ (∀ z ∈ zs, z.kind ≠ .endOfFile) ∧
    climb d zs = some 0

abbrev Kind.Flat (k : Kind) : Prop := k ∉ [Kind.indent, .dedent, .endOfFile]

theorem Kind.Flat.climb {k : Kind} (h : k.Flat) (d : Nat) : k.climb d = some d :=
  climb_flat (fun e => h (by simp [e])) (fun e => h (by simp [e])) d

theorem climb_below {d e : Nat} {ts : List Token} (h : climb d ts = some e) (n : Nat) :
    climb (d + n) ts = some (e + n) := by
  induction ts generalizing d with
  | nil =>
    cases h
    rfl
  | cons t ts ih =>
    rw [climb_cons] at h ⊢
    obtain ⟨d', one, more⟩ := Option.bind_eq_some_iff.1 h
    have first : t.kind.climb (d + n) = some (d' + n) := by
      have levels := Kind.climb_eq one
      cases hk : t.kind <;> rw [hk] at one levels
      case dedent =>
        cases d with
        | zero => cases one
        | succ d =>
          cases one
          rw [Nat.add_right_comm]
          rfl
      case indent =>
        cases one
        rw [Nat.add_right_comm]
        rfl
      all_goals
        cases one
        rfl
    rw [first]
    exact ih more

namespace Closes

variable {d e : Nat} {t : Token} {ts us : List Token}

theorem exists_cons (h : Closes d ts) : ∃ t us, ts = t :: us := by
  obtain ⟨zs, e, rfl, -⟩ := h
  cases zs with
  | nil => exact ⟨e, [], rfl⟩
  | cons z zs => exact ⟨z, zs ++ [e], rfl⟩

theorem last (h : Closes d (t :: ts)) (ht : t.kind = .endOfFile) : d = 0 ∧ ts = [] := by
  obtain ⟨zs, e, whole, -, inner, closed⟩ := h
  cases zs with
  | nil =>
    cases whole
    exact ⟨Option.some.inj closed, rfl⟩
  | cons z zs =>
    obtain ⟨rfl, -⟩ := List.cons.inj whole
    exact absurd ht (inner t (by simp))

theorem tail (h : Closes d (t :: ts)) (ht : t.kind ≠ .endOfFile) :
    ∃ e, t.kind.climb d = some e ∧ Closes e ts := by
  obtain ⟨zs, e, whole, ends, inner, closed⟩ := h
  cases zs with
  | nil =>
    cases whole
    exact absurd ends ht
  | cons z zs =>
    obtain ⟨rfl, rest⟩ := List.cons.inj whole
    rw [climb_cons] at closed
    obtain ⟨d', one, more⟩ := Option.bind_eq_some_iff.1 closed
    exact ⟨d', one, zs, e, rest, ends, fun z hz => inner z (by simp [hz]), more⟩

theorem suffix (h : Closes d (ts ++ us)) (filled : us ≠ []) :
    ∃ e, climb d ts = some e ∧ Closes e us := by
  induction ts generalizing d with
  | nil => exact ⟨d, rfl, h⟩
  | cons t ts ih =>
    have inner : t.kind ≠ .endOfFile := fun ht => by
      have none := (h.last ht).2
      exact filled (List.append_eq_nil_iff.1 none).2
    obtain ⟨d', one, rest⟩ := h.tail inner
    obtain ⟨e, more, closed⟩ := ih rest
    exact ⟨e, by rw [climb_cons, one]; exact more, closed⟩

end Closes

theorem TokenStream.closes_ofSource (file : Nat) (source : Bytes) :
    Closes 0 ((ofSource file source).tokens.map (·.token)) := by
  obtain ⟨zs, e, last, made, ends, closed⟩ := after_ofSource file source
  exact ⟨zs, e, made, ends, Mark.ne_of_after closed, Mark.climb_of_after closed⟩

abbrev Cursor.tokens (c : Cursor) : List Token := c.rest.map (·.token)

abbrev Everywhere (_ : List Token) : Prop := True

def First (K : Kind → Prop) (ts : List Token) : Prop := ∃ t us, ts = t :: us ∧ K t.kind

theorem First.imp {K L : Kind → Prop} {ts : List Token} (h : First K ts) (hk : ∀ k, K k → L k) :
    First L ts := by
  obtain ⟨t, us, rfl, ht⟩ := h
  exact ⟨t, us, rfl, hk _ ht⟩

theorem First.both {K L : Kind → Prop} {ts : List Token} (h : First K ts) (h' : First L ts) :
    ∃ k, K k ∧ L k := by
  obtain ⟨t, us, rfl, ht⟩ := h
  obtain ⟨_, _, same, hu⟩ := h'
  cases same
  exact ⟨_, ht, hu⟩

def Kinds (ks : List Kind) (ts : List Token) : Prop := ks <+: ts.map (·.kind)

theorem First.kinds {k : Kind} {ts : List Token} (h : First (· = k) ts) : Kinds [k] ts := by
  obtain ⟨t, us, rfl, rfl⟩ := h
  exact List.prefix_append [t.kind] _

theorem Kinds.snoc {ks : List Kind} {ts : List Token} {t : Token} (h : Kinds ks ts)
    (ht : ts[ks.length]?.getD {} = t) (inner : t.kind ≠ .endOfFile) :
    Kinds (ks ++ [t.kind]) ts := by
  obtain ⟨ls, whole⟩ := h
  cases found : ts[ks.length]? with
  | none =>
    rw [found] at ht
    cases ht
    exact absurd rfl inner
  | some u =>
    rw [found] at ht
    cases ht
    have here : (ts.map (·.kind))[ks.length]? = some u.kind := by rw [List.getElem?_map, found]; rfl
    rw [← whole, List.getElem?_append_right (Nat.le_refl _), Nat.sub_self] at here
    cases ls with
    | nil => cases here
    | cons l ls =>
      cases here
      exact ⟨ls, by rw [← whole, List.append_assoc]; rfl⟩

structure Still (p : Reader α) : Prop where
  tokens : ∀ c, (p c).2.tokens = c.tokens
  grows : ∀ c : Cursor, c.Grows (p c).2

namespace Still
open Reader

theorem bind {p : Reader β} {g : β → Reader α} (one : Still p) (two : ∀ a, Still (g a)) :
    Still (p >>= g) :=
  ⟨fun c => ((two _).tokens _).trans (one.tokens c),
    fun c => (one.grows c).trans ((two _).grows _)⟩

theorem pure (a : α) : Still (Pure.pure a : Reader α) := ⟨fun _ => rfl, Cursor.Grows.refl⟩

theorem peekAt (m : Nat) : Still (Reader.peekAt m) :=
  ⟨fun c => Cursor.tokens_hear c (m + 1), fun c => .hear c (m + 1)⟩

theorem check (k : Kind) : Still (Reader.check k) := bind (peekAt 0) fun _ => pure _

theorem beginLine : Still Reader.beginLine :=
  ⟨fun _ => rfl, fun _ => ⟨Nat.le_refl _, Nat.le_refl _⟩⟩

theorem report (r : Report) : Still (Reader.report r) := by
  refine ⟨fun c => ?_, fun c => .report c r⟩
  change (if c.base < c.reports.length then c else _ : Cursor).tokens = _
  split <;> rfl

theorem unexpected (message : Option Bytes) : Still (Reader.unexpected message) :=
  bind (peekAt 0) fun _ => report _

theorem expected (what : Bytes) : Still (Reader.expected what) :=
  bind (peekAt 0) fun _ => report _

theorem expectedBlock (keyword : Bytes) : Still (Reader.expectedBlock keyword) :=
  bind (peekAt 0) fun _ => report _

theorem atBlockEnd : Still Reader.atBlockEnd :=
  bind (check .dedent) fun _ => bind (check .endOfFile) fun _ => pure _

end Still

/-- From where the tokens are in `P`, with at most `n` of them left, a reader takes at least `j`
tokens that lead from depth `d` to depth `e`. -/
def Climbs (n j d e : Nat) (P : List Token → Prop) (p : Reader α) : Prop :=
  ∀ ⦃k c⦄, c.rest.length ≤ n → P c.tokens → Closes (d + k) c.tokens →
    c.Grows (p c).2 ∧ ∃ ts, c.tokens = ts ++ (p c).2.tokens ∧ climb d ts = some e ∧
      j ≤ ts.length ∧ Closes (e + k) (p c).2.tokens

namespace Climbs
open Reader

variable {n i j d e f : Nat} {P : List Token → Prop} {p : Reader β} {g : β → Reader α}

theorem pure (a : α) : Climbs n 0 d d P (Pure.pure a : Reader α) :=
  fun _ c _ _ h => ⟨.refl c, [], rfl, rfl, Nat.le_refl 0, h⟩

theorem bind (one : Climbs n i d e P p) (two : ∀ a, Climbs (n - i) (j - i) e f Everywhere (g a)) :
    Climbs n j d f P (p >>= g) := by
  intro k c less hP h
  obtain ⟨grows, ts, here, climbs, took, mid⟩ := one less hP h
  have count := congrArg List.length here
  simp only [List.length_append, List.length_map] at count
  obtain ⟨grows', us, there, climbs', took', closes⟩ := two (p c).1 (by omega) trivial mid
  refine ⟨grows.trans grows', ts ++ us, ?_, ?_, ?_, closes⟩
  · rw [here, there, List.append_assoc]
    rfl
  · rw [climb_append, climbs]
    exact climbs'
  · rw [List.length_append]
    omega

theorem andThen (one : Climbs n 0 d e P p) (two : ∀ a, Climbs n j e f Everywhere (g a)) :
    Climbs n j d f P (p >>= g) := bind one two

theorem weaken {m : Nat} {Q : List Token → Prop} {p : Reader α} (h : Climbs n j d e P p)
    (hm : m ≤ n) (hi : i ≤ j) (hQ : ∀ ts, Q ts → P ts) : Climbs m i d e Q p := by
  intro k c less hP closes
  obtain ⟨grows, ts, here, climbs, took, there⟩ := h (Nat.le_trans less hm) (hQ _ hP) closes
  exact ⟨grows, ts, here, climbs, Nat.le_trans hi took, there⟩

theorem pre {Q : List Token → Prop} {p : Reader α} (h : Climbs n j d e P p)
    (hQ : ∀ ts, Q ts → P ts) : Climbs n j d e Q p := h.weaken (Nat.le_refl n) (Nat.le_refl j) hQ

theorem within {m : Nat} {p : Reader α} (h : Climbs n j d e P p) (hm : m ≤ n) :
    Climbs m j d e P p := h.weaken hm (Nat.le_refl j) fun _ h => h

theorem slower {p : Reader α} (h : Climbs n j d e P p) (hi : i ≤ j) : Climbs n i d e P p :=
  h.weaken (Nat.le_refl n) hi fun _ h => h

theorem anywhere {p : Reader α} (h : Climbs n j d e Everywhere p) : Climbs n j d e P p :=
  h.pre fun _ _ => trivial

theorem below {p : Reader α} (h : Climbs n j d e P p) (m : Nat) :
    Climbs n j (d + m) (e + m) P p := by
  intro k c less hP closes
  rw [Nat.add_assoc] at closes
  obtain ⟨grows, ts, here, climbs, took, there⟩ := h less hP closes
  rw [← Nat.add_assoc] at there
  exact ⟨grows, ts, here, climb_below climbs m, took, there⟩

theorem map {g : β → α} (h : Climbs n j d e P p) : Climbs n j d e P (g <$> p) := h

theorem discard (h : Climbs n j d e P p) : Climbs n j d e P (Functor.discard p) := h

theorem still (one : Still p) (two : ∀ a, Climbs n j d e P (g a)) :
    Climbs n j d e P (p >>= g) := by
  intro k c less hP h
  have same := one.tokens c
  have count := congrArg List.length same
  simp only [List.length_map] at count
  obtain ⟨grows, ts, there, rest⟩ := two (p c).1 (c := (p c).2) (count ▸ less) (same.symm ▸ hP)
    (same.symm ▸ h)
  exact ⟨(one.grows c).trans grows, ts, same.symm.trans there, rest⟩

theorem peekAt {m : Nat} {g : Token → Reader α}
    (two : ∀ t, Climbs n j d e (fun ts => P ts ∧ ts[m]?.getD {} = t) (g t)) :
    Climbs n j d e P (Reader.peekAt m >>= g) := by
  intro k c less hP h
  have here : c.tokens[m]?.getD {} = (Reader.peekAt m c).1 := (Tandem.peekAt_eq m c).symm
  have found := still (p := Reader.peekAt m) (g := fun _ => g (Reader.peekAt m c).1)
    (Still.peekAt m) fun _ => two (Reader.peekAt m c).1
  exact found less ⟨hP, here⟩ h

theorem peek {g : Token → Reader α}
    (two : ∀ t, Climbs n j d e (fun ts => P ts ∧ First (· = t.kind) ts) (g t)) :
    Climbs n j d e P (Reader.peek >>= g) := by
  refine peekAt fun t k c less hP h => two t less ⟨hP.1, ?_⟩ h
  obtain ⟨u, us, first⟩ := h.exists_cons
  have same := hP.2
  rw [first] at same ⊢
  exact ⟨u, us, rfl, congrArg Token.kind same⟩

theorem check {k : Kind} {g : Bool → Reader α}
    (yes : Climbs n j d e (fun ts => P ts ∧ First (· = k) ts) (g true))
    (no : Climbs n j d e (fun ts => P ts ∧ First (· ≠ k) ts) (g false)) :
    Climbs n j d e P (Reader.check k >>= g) := by
  rw [Reader.check_bind]
  refine peek fun t => ?_
  cases same : t.kind == k with
  | true => exact yes.pre fun _ h => ⟨h.1, h.2.imp fun _ hk => hk.trans (eq_of_beq same)⟩
  | false =>
    have other : t.kind ≠ k := beq_eq_false_iff_ne.1 same
    exact no.pre fun _ h => ⟨h.1, h.2.imp fun _ hk => hk ▸ other⟩

theorem advance (hP : ∀ ts, P ts → First (fun k => k ≠ .endOfFile ∧ k.climb d = some e) ts) :
    Climbs n 1 d e P Reader.advance := by
  intro k c _ hP' h
  obtain ⟨t, us, here, inner, climbs⟩ := hP _ hP'
  rw [here] at h ⊢
  obtain ⟨e', one, rest⟩ := h.tail inner
  have there : (Reader.advance c).2.tokens = us := by
    obtain ⟨u, vs, rfl⟩ := rest.exists_cons
    exact Cursor.tokens_advance inner (List.cons_ne_nil u vs)
      (((Still.peekAt 0).tokens c).trans here)
  have climbs' : climb d [t] = some e := by
    rw [climb_cons, climbs]
    rfl
  have below := climb_below climbs' k
  rw [climb_cons, one] at below
  cases below
  exact ⟨.advance c, [t], by rw [there]; rfl, climbs', Nat.le_refl 1, there ▸ rest⟩

theorem advance_at {k : Kind} (hk : k ≠ .endOfFile) (climbs : k.climb d = some e) :
    Climbs n 1 d e (fun ts => P ts ∧ First (· = k) ts) Reader.advance :=
  advance fun _ h => h.2.imp fun _ same => same ▸ ⟨hk, climbs⟩

theorem advance_flat (hP : ∀ ts, P ts → First Kind.Flat ts) : Climbs n 1 d d P Reader.advance :=
  advance fun ts h => (hP ts h).imp fun _ hk => ⟨fun e => hk (by simp [e]), hk.climb d⟩

theorem pass {k : Kind} {ks : List Kind} {g : Unit → Reader α} (hk : k.Flat)
    (two : Climbs (n - 1) (j - 1) d e (Kinds ks) (g ())) :
    Climbs n j d e (Kinds (k :: ks)) (Functor.discard Reader.advance >>= g) := by
  intro m c less hP h
  obtain ⟨ls, whole⟩ := hP
  obtain ⟨t, us, first⟩ := h.exists_cons
  rw [first] at whole
  obtain ⟨rfl, rest⟩ := List.cons.inj whole
  have inner : t.kind ≠ .endOfFile := fun e => hk (by simp [e])
  rw [first] at h
  obtain ⟨d', one, closes⟩ := h.tail inner
  rw [hk.climb] at one
  cases one
  have there : (Reader.advance c).2.tokens = us := by
    obtain ⟨u, vs, rfl⟩ := closes.exists_cons
    exact Cursor.tokens_advance inner (List.cons_ne_nil u vs)
      (((Still.peekAt 0).tokens c).trans first)
  have count := congrArg List.length there
  have count' := congrArg List.length first
  simp only [List.length_map, List.length_cons] at count count'
  obtain ⟨grows, vs, more, climbs, took, closes'⟩ := two (c := (Reader.advance c).2) (by omega)
    (there ▸ ⟨ls, rest⟩) (there ▸ closes)
  refine ⟨(Cursor.Grows.advance c).trans grows, t :: vs, ?_, ?_, ?_, closes'⟩
  · rw [first, ← there, more]
    rfl
  · rw [climb_cons, hk.climb]
    exact climbs
  · rw [List.length_cons]
    omega

theorem take? {k : Kind} {g : Option Token → Reader α} (hk : k.Flat)
    (yes : ∀ t, Climbs (n - 1) (j - 1) d e Everywhere (g (some t)))
    (no : Climbs n j d e P (g none)) : Climbs n j d e P (Reader.take? k >>= g) := by
  rw [Reader.take?_bind]
  refine check ?_ (no.pre fun _ h => h.1)
  exact bind (advance_flat fun _ h => h.2.imp fun _ same => same ▸ hk) yes

theorem skip? {k : Kind} {g : Bool → Reader α} (hk : k.Flat)
    (yes : Climbs (n - 1) (j - 1) d e Everywhere (g true)) (no : Climbs n j d e P (g false)) :
    Climbs n j d e P (Reader.skip? k >>= g) := by
  rw [Reader.skip?_bind]
  exact take? hk (fun _ => yes) no

theorem skip?_indent {g : Bool → Reader α}
    (yes : Climbs (n - 1) (j - 1) (d + 1) e Everywhere (g true)) (no : Climbs n j d e P (g false)) :
    Climbs n j d e P (Reader.skip? .indent >>= g) := by
  rw [Reader.skip?_bind, Reader.take?_bind]
  exact check (bind (advance_at (by decide) rfl) fun _ => yes) (no.pre fun _ h => h.1)

theorem expect {k : Kind} {what : Bytes} {g : Option Token → Reader α} (hk : k.Flat)
    (yes : ∀ t, Climbs (n - 1) (j - 1) d e Everywhere (g (some t)))
    (no : Climbs n j d e P (g none)) : Climbs n j d e P (Reader.expect k what >>= g) := by
  unfold Reader.expect
  rw [bind_assoc]
  refine take? hk yes ?_
  dsimp only
  rw [bind_assoc]
  exact still (Still.expected what) fun _ => no

theorem expectName {g : Option Token → Reader α}
    (yes : ∀ t, Climbs (n - 1) (j - 1) d e Everywhere (g (some t)))
    (no : Climbs n j d e P (g none)) : Climbs n j d e P (Reader.expectName >>= g) := by
  unfold Reader.expectName
  rw [bind_assoc]
  refine take? (by decide) yes ?_
  dsimp only
  rw [bind_assoc]
  refine still (Still.peekAt 0) fun t => ?_
  rw [bind_assoc]
  exact still (Still.report _) fun _ => no

theorem discard_expect {k : Kind} {what : Bytes} {g : Unit → Reader α} (hk : k.Flat)
    (two : Climbs n 0 d e Everywhere (g ())) :
    Climbs n 0 d e P (Functor.discard (Reader.expect k what) >>= g) :=
  expect (g := fun _ => g ()) hk (fun _ => two.within (Nat.sub_le n 1)) two.anywhere

theorem atMost {p : Reader (Option α)} (body : Climbs n 0 d d Everywhere p) (bound : List β) :
    Climbs n 0 d d P (Reader.atMost p bound) := by
  induction bound generalizing P with
  | nil => exact pure []
  | cons _ bound ih =>
    refine andThen body.anywhere fun a => ?_
    cases a with
    | none => exact pure []
    | some a => exact andThen ih fun _ => pure _

theorem many {p : Reader (Option α)} (body : Climbs n 0 d d Everywhere p) :
    Climbs n 0 d d P (Reader.many p) :=
  fun _ c less hP h => atMost body c.rest less hP h

theorem skipNewlines : Climbs n 0 d d P Reader.skipNewlines :=
  discard (many (take? (g := Pure.pure) (by decide) (fun _ => pure _) (pure _)))

theorem exhausted {p : Reader α} : Climbs 0 j d e P p := by
  intro k c none _ h
  obtain ⟨t, us, filled⟩ := h.exists_cons
  have count := congrArg List.length filled
  simp only [List.length_map, List.length_cons] at count
  omega

theorem ended (a : α) : Climbs n 0 d 0 (First (· = .endOfFile)) (Pure.pure a : Reader α) := by
  intro k c _ hP h
  obtain ⟨t, us, here, ends⟩ := hP
  rw [here] at h
  obtain ⟨none, rfl⟩ := h.last ends
  obtain ⟨rfl, rfl⟩ := Nat.add_eq_zero_iff.1 none
  exact ⟨.refl c, [], rfl, rfl, Nat.le_refl 0, here ▸ h⟩

theorem never {p : Reader α} (hP : ∀ ts, ¬ P ts) : Climbs n j d e P p :=
  fun _ _ _ h _ => absurd h (hP _)

abbrev Passed (k : Kind) : Prop := k ≠ .dedent ∧ k ≠ .endOfFile

/-- Where `j` tokens can be passed over: any place for none, a broken line for one. -/
def Due (j : Nat) (P : List Token → Prop) : Prop :=
  j = 0 ∨ j = 1 ∧ ∀ ts, P ts → First Passed ts

theorem Due.le (h : Due j P) : j ≤ 1 := by
  unfold Due at h
  omega

theorem resync_round {x : γ} {bound : List γ}
    (h : ∀ m, Climbs bound.length 0 m 0 Everywhere (Reader.resyncWithin bound m)) (m : Nat)
    (hj : Due j P) :
    Climbs (bound.length + 1) j m 0 P (Reader.resyncWithin (x :: bound) m) := by
  have less := hj.le
  unfold Reader.resyncWithin
  refine peek fun t => ?_
  split
  · next kind =>
    rcases hj with rfl | ⟨-, hP⟩
    · exact (ended ()).pre fun _ h => kind ▸ h.2
    · refine never fun ts h => ?_
      obtain ⟨k, passed, same⟩ := (hP ts h.1).both h.2
      exact passed.2 (same.trans kind)
  · next kind =>
    rcases hj with rfl | ⟨-, hP⟩
    · rw [kind]
      cases m with
      | zero => exact pure ()
      | succ m =>
        refine bind (advance_at (by decide) rfl).discard fun _ => ?_
        refine still (Still.check .indent) fun b => ?_
        split
        · next outside =>
          obtain rfl : m = 0 := eq_of_beq (Bool.and_eq_true_iff.1 outside).1
          exact pure ()
        · exact h m
    · refine never fun ts h => ?_
      obtain ⟨k, passed, same⟩ := (hP ts h.1).both h.2
      exact passed.1 (same.trans kind)
  · next kind =>
    rw [kind]
    exact bind (advance_at (by decide) rfl).discard fun _ => (h _).slower (by omega)
  · next kind =>
    rw [kind]
    refine bind (advance_at (by decide) rfl).discard fun _ => ?_
    split
    · next outside =>
      obtain rfl : m = 0 := eq_of_beq outside
      refine still (Still.check .indent) fun b => ?_
      cases b with
      | true => exact (h 0).slower (by omega)
      | false => exact (pure ()).slower (by omega)
    · exact (h m).slower (by omega)
  · next ends closes opens _ =>
    have flat : t.kind.Flat := by simpa [Kind.Flat] using ⟨opens, closes, ends⟩
    exact bind (advance_flat fun _ h => h.2.imp fun _ same => same ▸ flat).discard fun _ =>
      (h m).slower (by omega)

/-- The end of a broken line is in the block in which the line began. -/
theorem resyncWithin (bound : List β) (m : Nat) :
    Climbs bound.length 0 m 0 Everywhere (Reader.resyncWithin bound m) := by
  induction bound generalizing m with
  | nil => exact exhausted
  | cons x bound ih => exact resync_round ih m (.inl rfl)

theorem bounded {p : List Heard → Reader α}
    (h : ∀ bound, bound.length ≤ n → Climbs bound.length j d e P (p bound)) :
    Climbs n j d e P (do p (← get).rest) :=
  fun _ c less hP closes => h c.rest less (Nat.le_refl _) hP closes

theorem resync_due (hj : Due j P) : Climbs n j 0 0 P Reader.resync := by
  refine bounded (p := fun bound => Reader.resyncWithin bound 0) fun bound _ => ?_
  cases bound with
  | nil => exact exhausted
  | cons x bound => exact resync_round (resyncWithin bound) 0 hj

theorem resync : Climbs n 0 0 0 P Reader.resync := resync_due (.inl rfl)

theorem atBlockEnd {g : Bool → Reader α}
    (yes : Climbs n j d e (fun ts => P ts ∧ First (fun k => k = .dedent ∨ k = .endOfFile) ts)
      (g true))
    (no : Climbs n j d e (fun ts => P ts ∧ First Passed ts) (g false)) :
    Climbs n j d e P (Reader.atBlockEnd >>= g) := by
  unfold Reader.atBlockEnd
  rw [bind_assoc]
  refine check ?_ ?_
  · rw [bind_assoc]
    refine still (Still.check .endOfFile) fun b => ?_
    rw [pure_bind, Bool.true_or]
    exact yes.pre fun _ h => ⟨h.1, h.2.imp fun _ => .inl⟩
  · rw [bind_assoc]
    refine check ?_ ?_
    · exact yes.pre fun _ h => ⟨h.1.1, h.2.imp fun _ => .inr⟩
    · refine no.pre fun _ h => ⟨h.1.1, ?_⟩
      obtain ⟨t, us, here, block⟩ := h.1.2
      obtain ⟨u, vs, same, file⟩ := h.2
      rw [here] at same
      cases same
      exact ⟨t, us, here, block, file⟩

theorem expectEndOfLine (what : Bytes) : Climbs n 0 0 0 P (Reader.expectEndOfLine what) := by
  unfold Reader.expectEndOfLine
  refine skip? (by decide) (pure _) (still Still.atBlockEnd fun b => ?_)
  cases b with
  | true => exact pure _
  | false =>
    refine still (Still.peekAt 0) fun t => still (Still.report _) fun _ => ?_
    exact andThen resync fun _ => pure _

theorem atMost_lines {line : Reader (List α)} {g : List (List α) → Reader β}
    (body : Climbs n 1 0 0 (First Passed) line)
    (hg : ∀ parts, Climbs n 0 1 0 (First fun k => k = .dedent ∨ k = .endOfFile) (g parts))
    (bound : List γ) (hb : bound.length ≤ n) :
    Climbs bound.length 0 1 0 P (Reader.atMost (do
      Reader.skipNewlines
      if ← Reader.atBlockEnd then return none else return some (← line)) bound >>= g) := by
  induction bound generalizing P g with
  | nil => exact exhausted
  | cons x bound ih =>
    have less : bound.length ≤ n := Nat.le_of_succ_le hb
    unfold Reader.atMost
    simp only [bind_assoc]
    refine andThen skipNewlines fun _ => atBlockEnd ?_ ?_
    · exact ((hg []).within hb).pre fun _ h => h.2
    · simp only [Bool.false_eq_true, if_false, bind_assoc, pure_bind]
      refine bind (((body.below 1).within hb).pre fun _ h => h.2) fun a => ?_
      exact ih (fun parts => hg (a :: parts)) less

theorem lines {line : Reader (List α)} (body : Climbs n 1 0 0 (First Passed) line) :
    Climbs n 0 1 0 P (Reader.lines line) := by
  intro k c less hP h
  refine atMost_lines (g := fun parts => do
    Functor.discard (Reader.take? .dedent)
    return parts.flatten) body (fun parts => ?_) c.rest less (Nat.le_refl _) hP h
  refine andThen (e := 0) ?_ fun _ => pure _
  change Climbs n 0 1 0 _ (Reader.take? .dedent >>= fun _ => Pure.pure ())
  rw [Reader.take?_bind]
  refine check ?_ ?_
  · exact (bind (advance_at (by decide) rfl) fun _ => (pure ()).slower (by omega))
  · refine (ended ()).pre fun ts h => ?_
    obtain ⟨t, us, rfl, ends⟩ := h.1
    obtain ⟨_, _, same, other⟩ := h.2
    cases same
    exact ⟨t, us, rfl, ends.resolve_left other⟩

end Climbs

end StepsLang
