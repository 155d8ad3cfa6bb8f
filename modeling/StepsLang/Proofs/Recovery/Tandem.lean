import Mathlib.Data.List.Forall2
import StepsLang.Proofs.Parse.Reads
import StepsLang.Proofs.Token.Join

/-! Two readings side by side.  Two cursors stand before tokens that are alike for a while, up to
their places, and part where a statement ends.  A reader that stays within the common part does the
same on both sides: it takes as many tokens and gives the same result, up to places.  This module
has the rules for the primitives and for putting readers together. -/

namespace StepsLang

/-- The same token in another place.  Of the end of a block only the kind is of interest. -/
structure Token.Alike (f : Location → Location) (t u : Token) : Prop where
  kind : u.kind = t.kind
  eq : t.kind ≠ .dedent → u = t.relocate f

theorem Token.alike_relocate (f : Location → Location) (t : Token) : t.Alike f (t.relocate f) :=
  ⟨rfl, fun _ => rfl⟩

theorem Token.alike_dedent {f : Location → Location} {t u : Token} (ht : t.kind = .dedent)
    (hu : u.kind = .dedent) : t.Alike f u :=
  ⟨hu.trans ht.symm, fun other => absurd ht other⟩

def attached : List Kind :=
  [.indent, .dedent, .otherwise, .otherwiseIf, .ifUnsuccessful, .thenContinue]

structure Parting (finish : Spot) (ts : List Token) : Prop where
  filled : ts ≠ []
  apart : ∀ t ∈ ts.head?, t.kind ∉ attached
  line : finish = .fresh → ∀ t ∈ ts.head?, t.kind ≠ .newline

/-- How two readings are related: the places of the tokens on the one side in terms of those on the
other, what follows the common part on each side, and what else is to be kept along the way. -/
structure Tandem where
  move : Location → Location
  finish : Spot
  ended : finish = .fresh ∨ finish = .closed
  left : List Token
  right : List Token
  onLeft : Parting finish left
  onRight : Parting finish right
  Kept : Place → List Token → Cursor → Cursor → Prop
  peekAt : ∀ {x zs c e} n, Kept x zs c e → Kept x zs (Reader.peekAt n c).2 (Reader.peekAt n e).2
  advance : ∀ {x y t zs c e}, x.next t.kind = some y → Kept x (t :: zs) c e →
    Kept y zs (Reader.advance c).2 (Reader.advance e).2
  report : ∀ {x zs c e} r r', Kept x zs c e →
    Kept x zs (Reader.report r c).2 (Reader.report r' e).2

theorem Place.next_ne {x y : Place} {k : Kind} (h : x.next k = some y) : k ≠ .endOfFile := by
  rintro rfl
  cases h

namespace Cursor

theorem token_eq (c : Cursor) (n : Nat) : c.token n = (c.rest.map (·.token))[n]?.getD {} := by
  rw [Cursor.token, List.getElem?_map]
  cases h : c.rest[n]? with
  | none =>
    rw [List.drop_eq_nil_of_le (List.getElem?_eq_none_iff.1 h)]
    rfl
  | some x =>
    rw [List.drop_eq_getElem?_toList_append, h]
    rfl

theorem tokens_hear (c : Cursor) (n : Nat) :
    (c.hear n).rest.map (·.token) = c.rest.map (·.token) := by
  unfold hear
  split
  · rfl
  · conv_rhs => rw [← List.take_append_drop n c.rest]
    rw [List.map_append, List.map_append, List.map_map]
    rfl

theorem tokens_advance {c : Cursor} {t : Token} {ts : List Token} (ht : t.kind ≠ .endOfFile)
    (hs : ts ≠ []) (h : c.rest.map (·.token) = t :: ts) :
    c.advance.rest.map (·.token) = ts := by
  obtain ⟨a, rest, e, rfl, rest'⟩ := List.map_eq_cons_iff.1 h
  subst rest'
  cases rest with
  | nil => exact absurd rfl hs
  | cons b rest => simp [advance, e, ht]

end Cursor

namespace Tandem

/-- The cursors stand before `zs`, at the place `x`. -/
structure Beside (T : Tandem) (x : Place) (zs : List Token) (c e : Cursor) : Prop where
  leads : Leads x zs T.finish
  left : c.rest.map (·.token) = zs ++ T.left
  right : ∃ us, List.Forall₂ (Token.Alike T.move) zs us ∧ e.rest.map (·.token) = us ++ T.right
  kept : T.Kept x zs c e

def BeginsLines (T : Tandem) : Prop := ∀ {x zs c e}, x.spot ≠ .inside → zs ≠ [] → T.Kept x zs c e →
  T.Kept x zs (Reader.beginLine c).2 (Reader.beginLine e).2

/-- From a place in `P` with fewer than `n` tokens left, the readers `p` and `q` come to a place in
`Q`, with results related by `r`, and take at least `j` tokens. -/
def Moves (T : Tandem) (n : Nat) (j : α → Nat) (P : Place → List Token → Prop) (r : α → α → Prop)
    (Q : α → Place → List Token → Prop) (p q : Reader α) : Prop :=
  ∀ ⦃x zs c e⦄, zs.length < n → P x zs → T.Beside x zs c e →
    ∃ y us, r (p c).1 (q e).1 ∧ Q (p c).1 y us ∧ us.length + j (p c).1 ≤ zs.length ∧
      T.Beside y us (p c).2 (q e).2

variable {T : Tandem} {n : Nat} {x y : Place} {t : Token} {zs ts : List Token} {c e : Cursor}

theorem Beside.not_inside (h : T.Beside x [] c e) : x = ⟨0, T.finish⟩ :=
  Option.some.inj h.leads.after

theorem Beside.length_left (h : T.Beside x zs c e) :
    c.rest.length = zs.length + T.left.length := by
  have count := congrArg List.length h.left
  rwa [List.length_map, List.length_append] at count

theorem Beside.length_right (h : T.Beside x zs c e) :
    e.rest.length = zs.length + T.right.length := by
  obtain ⟨us, alike, right⟩ := h.right
  have count := congrArg List.length right
  rwa [List.length_map, List.length_append, ← alike.length_eq] at count

theorem Beside.next (h : T.Beside x (t :: zs) c e) :
    ∃ y, x.next t.kind = some y ∧ Leads y zs T.finish := by
  obtain ⟨y, one, rest⟩ := Option.bind_eq_some_iff.1 h.leads.after
  exact ⟨y, one, rest, h.leads.ended⟩

theorem Beside.peekAt (h : T.Beside x zs c e) (n : Nat) :
    T.Beside x zs (Reader.peekAt n c).2 (Reader.peekAt n e).2 := by
  obtain ⟨us, alike, right⟩ := h.right
  exact ⟨h.leads, (Cursor.tokens_hear c _).trans h.left,
    ⟨us, alike, (Cursor.tokens_hear e _).trans right⟩, T.peekAt n h.kept⟩

theorem peekAt_eq (n : Nat) (c : Cursor) :
    (Reader.peekAt n c).1 = (c.rest.map (·.token))[n]?.getD {} := by
  change (c.hear (n + 1)).token n = _
  rw [Cursor.token_eq, Cursor.tokens_hear]

theorem alike_getElem? {f : Location → Location} {us : List Token}
    (h : List.Forall₂ (Token.Alike f) (ts ++ t :: zs) us) :
    ∃ u, us[ts.length]? = some u ∧ t.Alike f u := by
  induction ts generalizing us with
  | nil =>
    obtain ⟨u, rest, alike, -, rfl⟩ := List.forall₂_cons_left_iff.1 h
    exact ⟨u, rfl, alike⟩
  | cons s ts ih =>
    obtain ⟨u, rest, -, more, rfl⟩ := List.forall₂_cons_left_iff.1 h
    simpa using ih more

theorem Beside.token (ts : List Token) (h : T.Beside x (ts ++ t :: zs) c e) :
    (Reader.peekAt ts.length c).1 = t ∧ t.Alike T.move (Reader.peekAt ts.length e).1 := by
  obtain ⟨us, alike, right⟩ := h.right
  obtain ⟨u, found, same⟩ := alike_getElem? alike
  rw [peekAt_eq, peekAt_eq, h.left, right, List.append_assoc,
    List.getElem?_append_left (List.getElem?_eq_some_iff.1 found).1, found]
  refine ⟨?_, same⟩
  simp

theorem Beside.advance (h : T.Beside x (t :: zs) c e) (hy : x.next t.kind = some y) :
    (Reader.advance c).1 = t ∧ t.Alike T.move (Reader.advance e).1 ∧
      T.Beside y zs (Reader.advance c).2 (Reader.advance e).2 := by
  have peeked := h.peekAt 0
  obtain ⟨us, alike, right⟩ := peeked.right
  obtain ⟨u, us, same, more, rfl⟩ := List.forall₂_cons_left_iff.1 alike
  obtain ⟨y', one, leads⟩ := h.next
  obtain rfl := Option.some.inj (hy.symm.trans one)
  have here := Place.next_ne hy
  have there : u.kind ≠ .endOfFile := by rwa [same.kind]
  obtain ⟨first, second⟩ := h.token []
  refine ⟨first, second, leads, ?_, ⟨us, more, ?_⟩, T.advance hy h.kept⟩
  · exact Cursor.tokens_advance here (by simp [T.onLeft.filled]) peeked.left
  · exact Cursor.tokens_advance there (by simp [T.onRight.filled]) right

def first (k : Kind) (zs : List Token) : Bool := zs.head?.any (·.kind == k)

/-- Kinds that the end of the common part cannot be mistaken for. -/
def Foreign (T : Tandem) (k : Kind) : Prop := k ∈ attached ∨ k = .newline ∧ T.finish = .fresh

theorem Beside.check {k : Kind} (h : T.Beside x zs c e) (hk : zs = [] → T.Foreign k) :
    (Reader.check k c).1 = first k zs ∧ (Reader.check k e).1 = first k zs ∧
      T.Beside x zs (Reader.check k c).2 (Reader.check k e).2 := by
  cases zs with
  | cons t zs =>
    obtain ⟨here, there⟩ := h.token []
    refine ⟨congrArg (fun t : Token => t.kind == k) here, ?_, h.peekAt 0⟩
    exact congrArg (· == k) there.kind
  | nil =>
    have other : ∀ {ts : List Token},
        Parting T.finish ts → (ts[0]?.getD ({} : Token)).kind ≠ k := by
      intro ts hts
      obtain ⟨t, ts, rfl⟩ := List.exists_cons_of_ne_nil hts.filled
      rintro rfl
      rcases hk rfl with hk | ⟨line, fresh⟩
      · exact hts.apart t rfl hk
      · exact hts.line fresh t rfl line
    obtain ⟨us, alike, right⟩ := h.right
    obtain rfl := List.forall₂_nil_left_iff.1 alike
    have here : (Reader.peek c).1.kind ≠ k := by
      rw [Reader.peek, peekAt_eq, h.left, List.nil_append]
      exact other T.onLeft
    have there : (Reader.peek e).1.kind ≠ k := by
      rw [Reader.peek, peekAt_eq, right, List.nil_append]
      exact other T.onRight
    exact ⟨beq_eq_false_iff_ne.2 here, beq_eq_false_iff_ne.2 there, h.peekAt 0⟩

def Ahead (x : Place) (ts : List Token) (y : Place) (zs : List Token) : Prop := y = x ∧ ts <+: zs

abbrev Inside (d : Nat) : Place → List Token → Prop := Ahead ⟨d, .inside⟩ []

def Outside (d : Nat) (y : Place) (_ : List Token) : Prop :=
  y.depth = d ∧ (y.spot = .fresh ∨ y.spot = .closed)

def Margin (d : Nat) (y : Place) : Prop := y.depth = d ∧ y.spot ≠ .inside

theorem Outside.not_inside {d : Nat} (h : Outside d x zs) : x.spot ≠ .inside := by
  intro inside
  rcases h.2 with h | h <;> cases inside.symm.trans h

def Opening (d : Nat) (y : Place) (zs : List Token) : Prop :=
  ∃ t : Token, (Margin d y ∧ (t.kind.isContent = true ∨ t.kind = .indent)) ∧ [t] <+: zs

/-- A line that cannot be made sense of, `m` blocks further inside than the line it began with. -/
def Broken (d m : Nat) (x : Place) (zs : List Token) : Prop :=
  ∃ t, (x.depth = d + m ∧ (m = 0 → t.kind ≠ .dedent)) ∧ [t] <+: zs

def taken : Option α → Nat
  | none => 0
  | some _ => 1

namespace Moves

variable {j : α → Nat} {P : Place → List Token → Prop} {r : α → α → Prop}
  {Q : α → Place → List Token → Prop} {p q : Reader α}

theorem pure {a b : α} (hr : r a b) (hj : j a = 0) (hQ : ∀ x zs, P x zs → Q a x zs) :
    T.Moves n j P r Q (Pure.pure a) (Pure.pure b) := by
  intro x zs c e _ hP h
  exact ⟨x, zs, hr, hQ x zs hP, Nat.le_of_eq (congrArg (zs.length + ·) hj), h⟩

theorem bind {i : β → Nat} {s : β → β → Prop} {R : β → Place → List Token → Prop}
    {p q : Reader β} {g h : β → Reader α} (one : T.Moves n i P s R p q)
    (two : ∀ a b, s a b → T.Moves (n - i a) (fun c => j c - i a) (R a) r Q (g a) (h b)) :
    T.Moves n j P r Q (p >>= g) (q >>= h) := by
  intro x zs c e less hP here
  obtain ⟨y, us, hs, hR, took, mid⟩ := one less hP here
  obtain ⟨z, vs, hr, hQ, more, there⟩ := two _ _ hs (by omega) hR mid
  refine ⟨z, vs, hr, hQ, ?_, there⟩
  change vs.length + j (g (p c).1 (p c).2).1 ≤ zs.length
  dsimp only at more
  omega

theorem weaken {m : Nat} {i : α → Nat} {P' : Place → List Token → Prop} {s : α → α → Prop}
    {Q' : α → Place → List Token → Prop} (h : T.Moves n j P r Q p q) (hn : m ≤ n)
    (hj : ∀ a, i a ≤ j a) (hP : ∀ x zs, P' x zs → P x zs) (hr : ∀ a b, r a b → s a b)
    (hQ : ∀ a x zs, Q a x zs → Q' a x zs) : T.Moves m i P' s Q' p q := by
  intro x zs c e less hP' here
  obtain ⟨y, us, hs, hR, took, there⟩ := h (Nat.lt_of_lt_of_le less hn) (hP x zs hP') here
  have fewer := hj (p c).1
  exact ⟨y, us, hr _ _ hs, hQ _ y us hR, by omega, there⟩

theorem pre {P' : Place → List Token → Prop} (h : T.Moves n j P r Q p q)
    (hP : ∀ x zs, P' x zs → P x zs) : T.Moves n j P' r Q p q :=
  weaken h (Nat.le_refl n) (fun _ => Nat.le_refl _) hP (fun _ _ h => h) fun _ _ _ h => h

theorem post {Q' : α → Place → List Token → Prop} (h : T.Moves n j P r Q p q)
    (hQ : ∀ a x zs, Q a x zs → Q' a x zs) : T.Moves n j P r Q' p q :=
  weaken h (Nat.le_refl n) (fun _ => Nat.le_refl _) (fun _ _ h => h) (fun _ _ h => h) hQ

theorem within {m : Nat} (h : T.Moves n j P r Q p q) (hn : m ≤ n) : T.Moves m j P r Q p q :=
  weaken h hn (fun _ => Nat.le_refl _) (fun _ _ h => h) (fun _ _ h => h) fun _ _ _ h => h

theorem slower {i : α → Nat} (h : T.Moves n j P r Q p q) (hj : ∀ a, i a ≤ j a) :
    T.Moves n i P r Q p q :=
  weaken h (Nat.le_refl n) hj (fun _ _ h => h) (fun _ _ h => h) fun _ _ _ h => h

theorem map {s : β → β → Prop} {i : β → Nat} {R : β → Place → List Token → Prop}
    {p q : Reader β} {g h : β → α} (one : T.Moves n i P s R p q)
    (hr : ∀ a b, s a b → r (g a) (h b)) (hj : ∀ a, j (g a) ≤ i a)
    (hQ : ∀ a x zs, R a x zs → Q (g a) x zs) : T.Moves n j P r Q (g <$> p) (h <$> q) := by
  intro x zs c e less hP here
  obtain ⟨y, us, hs, hR, took, there⟩ := one less hP here
  have fewer := hj (p c).1
  exact ⟨y, us, hr _ _ hs, hQ _ y us hR, Nat.le_trans (Nat.add_le_add_left fewer _) took, there⟩

theorem discard {k : Nat} {i : β → Nat} {s : β → β → Prop} {R : Place → List Token → Prop}
    {p q : Reader β} (one : T.Moves n i P s (fun _ => R) p q) (hk : ∀ a, k ≤ i a) :
    T.Moves n (fun _ => k) P Eq (fun _ => R) (Functor.discard p) (Functor.discard q) :=
  map one (fun _ _ _ => rfl) hk fun _ _ _ hR => hR

theorem check {k : Kind} (hk : ∀ x, P x [] → x = ⟨0, T.finish⟩ → T.Foreign k) :
    T.Moves n (fun _ => 0) P Eq (fun b x zs => P x zs ∧ first k zs = b) (Reader.check k)
      (Reader.check k) := by
  intro x zs c e _ hP h
  obtain ⟨here, there, after⟩ := h.check (k := k) fun none => by
    subst none
    exact hk x hP h.not_inside
  exact ⟨x, zs, here.trans there.symm, ⟨hP, here.symm⟩, Nat.le_refl _, after⟩

theorem look {g h : Token → Reader α} (two : ∀ t u, T.Moves n j P r Q (g t) (h u)) :
    T.Moves n j P r Q (Reader.peek >>= g) (Reader.peek >>= h) := by
  intro x zs c e less hP here
  exact two _ _ less hP (here.peekAt 0)

theorem of_ahead {G : Place → Token → Prop}
    (h : ∀ x t y, G x t → x.next t.kind = some y → T.Moves n j (Ahead x [t]) r Q p q) :
    T.Moves n j (fun x zs => ∃ t, G x t ∧ [t] <+: zs) r Q p q := by
  intro x zs c e less hP here
  obtain ⟨t, known, zs, rfl⟩ := hP
  obtain ⟨y, one, -⟩ := here.next
  exact h x t y known one less ⟨rfl, zs, rfl⟩ here

theorem of_first {k : Kind}
    (h : ∀ x t y, P x [] → t.kind = k → x.next k = some y → T.Moves n j (Ahead x [t]) r Q p q)
    (hP : ∀ x zs, P x zs → P x []) :
    T.Moves n j (fun x zs => P x zs ∧ first k zs = true) r Q p q := by
  refine pre (of_ahead (G := fun x t => P x [] ∧ t.kind = k) fun x t y hG one => ?_)
    fun x zs hx => ?_
  · exact h x t y hG.1 hG.2 (hG.2 ▸ one)
  · cases zs with
    | nil => cases hx.2
    | cons t zs => exact ⟨t, ⟨hP x _ hx.1, eq_of_beq hx.2⟩, zs, rfl⟩

theorem peek_alike {g h : Token → Reader α}
    (two : ∀ u, t.Alike T.move u → T.Moves n j (Ahead x (t :: ts)) r Q (g t) (h u)) :
    T.Moves n j (Ahead x (t :: ts)) r Q (Reader.peek >>= g) (Reader.peek >>= h) := by
  intro y zs c e less hP here
  obtain ⟨rfl, zs, rfl⟩ := hP
  obtain ⟨first, second⟩ := here.token []
  rw [Reader.bind_run, Reader.bind_run, show (Reader.peek c).1 = t from first]
  exact two _ second less ⟨rfl, zs, rfl⟩ (here.peekAt 0)

theorem peek_ahead {g h : Token → Reader α} (ht : t.kind ≠ .dedent)
    (two : T.Moves n j (Ahead x (t :: ts)) r Q (g t) (h (t.relocate T.move))) :
    T.Moves n j (Ahead x (t :: ts)) r Q (Reader.peek >>= g) (Reader.peek >>= h) := by
  exact peek_alike fun u hu => hu.eq ht ▸ two

theorem advance (hy : x.next t.kind = some y) :
    T.Moves n (fun _ => 1) (Ahead x (t :: ts)) (fun a b => a = t ∧ t.Alike T.move b)
      (fun _ => Ahead y ts) Reader.advance Reader.advance := by
  intro z zs c e _ hP here
  obtain ⟨rfl, zs, rfl⟩ := hP
  obtain ⟨first, second, after⟩ := here.advance hy
  exact ⟨y, ts ++ zs, ⟨first, second⟩, ⟨rfl, zs, rfl⟩, Nat.le_refl _, after⟩

theorem pass {y : Place} {p q : Reader α} (hy : x.next t.kind = some y)
    (two : T.Moves (n - 1) (fun a => j a - 1) (Ahead y ts) r Q p q) :
    T.Moves n j (Ahead x (t :: ts)) r Q (Functor.discard Reader.advance >>= fun _ => p)
      (Functor.discard Reader.advance >>= fun _ => q) :=
  bind (discard (k := 1) (advance hy) fun _ => Nat.le_refl 1) fun _ _ _ => two

theorem advance_content (ht : t.kind.isContent = true) :
    T.Moves n (fun _ => 1) (Ahead x (t :: ts)) (fun a b => a = t ∧ b = t.relocate T.move)
      (fun _ => Ahead ⟨x.depth, .inside⟩ ts) Reader.advance Reader.advance := by
  have spot : x.next t.kind = some ⟨x.depth, .inside⟩ := by
    rw [Place.next_content ht, Place.spot_content ht]
  have block : t.kind ≠ .dedent := Place.ne_of_content ht rfl
  exact weaken (advance spot) (Nat.le_refl n) (fun _ => Nat.le_refl 1) (fun _ _ h => h)
    (fun _ _ h => ⟨h.1, h.2.eq block⟩) fun _ _ _ h => h

theorem peekAt {d : Nat} {g h : Token → Reader α} (ts : List Token)
    (all : ∀ t ∈ ts, t.kind.isContent = true)
    (two : ∀ t, t.kind.isContent = true ∨ t.kind = .newline →
      T.Moves n j (Ahead ⟨d, .inside⟩ (ts ++ [t])) r Q (g t) (h (t.relocate T.move))) :
    T.Moves n j (Ahead ⟨d, .inside⟩ ts) r Q (Reader.peekAt ts.length >>= g)
      (Reader.peekAt ts.length >>= h) := by
  intro y zs c e less hP here
  obtain ⟨rfl, zs, rfl⟩ := hP
  obtain ⟨t, zs, rfl, ht⟩ := Leads.inside ts all here.leads
  have block : t.kind ≠ .dedent := by
    intro same
    rw [same] at ht
    rcases ht with ht | ht <;> cases ht
  obtain ⟨first, second⟩ := here.token ts
  rw [Reader.bind_run, Reader.bind_run, first, second.eq block]
  exact two t ht less ⟨rfl, zs, by simp⟩ (here.peekAt _)

theorem peek {d : Nat} {g h : Token → Reader α}
    (two : ∀ t, t.kind.isContent = true ∨ t.kind = .newline →
      T.Moves n j (Ahead ⟨d, .inside⟩ [t]) r Q (g t) (h (t.relocate T.move))) :
    T.Moves n j (Inside d) r Q (Reader.peek >>= g) (Reader.peek >>= h) :=
  peekAt [] (by simp) two

theorem forget (h : T.Moves n j (Ahead x []) r Q p q) : T.Moves n j (Ahead x ts) r Q p q :=
  pre h fun _ zs hP => ⟨hP.1, zs.nil_prefix⟩

theorem of_depth {d : Nat} (hd : ∀ x zs, P x zs → x.depth = d + 1)
    (h : T.Moves n j (fun x zs => ∃ t, P x zs ∧ [t] <+: zs) r Q p q) : T.Moves n j P r Q p q := by
  intro x zs c e less hP here
  cases zs with
  | nil =>
    have depth := hd x [] hP
    rw [here.not_inside] at depth
    cases depth
  | cons t zs => exact h less ⟨t, hP, zs, rfl⟩ here

theorem take? {k : Kind} {d : Nat} (hk : k.isContent = true) :
    T.Moves n taken (Inside d) (fun a b => b = a.map (Token.relocate T.move)) (fun _ => Inside d)
      (Reader.take? k) (Reader.take? k) := by
  unfold Reader.take?
  refine bind (check fun x hx he => ?_) ?_
  · have inside : Spot.inside = T.finish := congrArg Place.spot (hx.1.symm.trans he)
    rcases T.ended with h | h <;> cases inside.trans h
  · rintro b _ rfl
    cases b with
    | true =>
      refine of_first (fun x t y hx ht _ => ?_) fun x zs hx => ⟨hx.1, List.nil_prefix⟩
      obtain ⟨rfl, -⟩ := hx
      rw [if_pos rfl]
      refine map (advance_content (ht ▸ hk)) (fun a b h => ?_) (fun _ => Nat.le_refl 1)
        fun _ _ _ h => h
      obtain ⟨rfl, rfl⟩ := h
      rfl
    | false => exact pure rfl rfl fun x zs hP => hP.1

theorem skip? {k : Kind} {d : Nat} (hk : k.isContent = true) :
    T.Moves n (fun b => b.toNat) (Inside d) Eq (fun _ => Inside d) (Reader.skip? k)
      (Reader.skip? k) := by
  unfold Reader.skip?
  refine bind (take? hk) fun a b hab => ?_
  subst hab
  cases a with
  | none => exact pure rfl rfl fun _ _ h => h
  | some t => exact pure rfl rfl fun _ _ h => h

theorem report (r r' : Report) :
    T.Moves n (fun _ => 0) P Eq (fun _ => P) (Reader.report r) (Reader.report r') := by
  intro x zs c e _ hP here
  have same : ∀ c : Cursor, ∀ r, (Reader.report r c).2.rest = c.rest := by
    intro c r
    change (if c.base < c.reports.length then c else _).rest = _
    split <;> rfl
  obtain ⟨us, alike, right⟩ := here.right
  exact ⟨x, zs, rfl, hP, Nat.le_refl _, here.leads, by rw [same, here.left],
    ⟨us, alike, by rw [same, right]⟩, T.report r r' here.kept⟩

theorem unexpected (message : Option Bytes) : T.Moves n (fun _ => 0) P Eq (fun _ => P)
    (Reader.unexpected message) (Reader.unexpected message) := by
  unfold Reader.unexpected
  exact look fun _ _ => report _ _

theorem expected (what : Bytes) : T.Moves n (fun _ => 0) P Eq (fun _ => P)
    (Reader.expected what) (Reader.expected what) := by
  unfold Reader.expected
  exact look fun _ _ => report _ _

theorem expectedBlock (keyword : Bytes) : T.Moves n (fun _ => 0) P Eq (fun _ => P)
    (Reader.expectedBlock keyword) (Reader.expectedBlock keyword) := by
  unfold Reader.expectedBlock
  exact look fun _ _ => report _ _

theorem expect {k : Kind} {d : Nat} (hk : k.isContent = true) (what : Bytes) :
    T.Moves n taken (Inside d) (fun a b => b = a.map (Token.relocate T.move)) (fun _ => Inside d)
      (Reader.expect k what) (Reader.expect k what) := by
  unfold Reader.expect
  refine bind (take? hk) fun a b hab => ?_
  subst hab
  cases a with
  | some t => exact pure rfl rfl fun _ _ h => h
  | none => exact bind (expected what) fun _ _ _ => pure rfl rfl fun _ _ h => h

theorem expectName {d : Nat} :
    T.Moves n taken (Inside d) (fun a b => b = a.map (Token.relocate T.move)) (fun _ => Inside d)
      Reader.expectName Reader.expectName := by
  unfold Reader.expectName
  refine bind (take? rfl) fun a b hab => ?_
  subst hab
  cases a with
  | some t => exact pure rfl rfl fun _ _ h => h
  | none =>
    exact look fun _ _ => bind (report _ _) fun _ _ _ => pure rfl rfl fun _ _ h => h

theorem exhausted (h : ∀ zs : List Token, ¬zs.length < n) : T.Moves n j P r Q p q :=
  fun _ zs _ _ less _ _ => absurd less (h zs)

theorem atMost {R : Place → List Token → Prop} {p q : Reader (Option α)}
    (body : T.Moves n taken P (Option.Rel r) (fun o => o.elim R fun _ => P) p q)
    {bound : List β} {bound' : List γ} (hb : n ≤ bound.length) (hb' : n ≤ bound'.length) :
    T.Moves n (fun _ => 0) P (List.Forall₂ r) (fun _ => R) (Reader.atMost p bound)
      (Reader.atMost q bound') := by
  induction bound generalizing n bound' with
  | nil =>
    obtain rfl : n = 0 := Nat.le_zero.1 hb
    exact exhausted fun _ => Nat.not_lt_zero _
  | cons _ bound ih =>
    cases bound' with
    | nil =>
      obtain rfl : n = 0 := Nat.le_zero.1 hb'
      exact exhausted fun _ => Nat.not_lt_zero _
    | cons _ bound' =>
      unfold Reader.atMost
      refine bind body fun a b hab => ?_
      cases hab with
      | none => exact pure .nil rfl fun _ _ h => h
      | some hr =>
        have later := ih (n := n - 1) (body.within (Nat.sub_le n 1)) (Nat.sub_le_of_le_add hb)
          (Nat.sub_le_of_le_add hb')
        exact bind later fun _ _ hrs => pure (.cons hr hrs) rfl fun _ _ h => h

theorem bounded {p q : List Heard → Reader α}
    (h : ∀ m bound bound', m ≤ n → m ≤ bound.length → m ≤ bound'.length →
      T.Moves m j P r Q (p bound) (q bound')) :
    T.Moves n j P r Q (do p (← get).rest) (do q (← get).rest) := by
  intro x zs c e less hP here
  have filled := List.length_pos_iff.2 T.onLeft.filled
  have filled' := List.length_pos_iff.2 T.onRight.filled
  have count := here.length_left
  have count' := here.length_right
  exact h (zs.length + 1) c.rest e.rest less (by omega) (by omega) (Nat.lt_succ_self _) hP here

theorem many {R : Place → List Token → Prop} {p q : Reader (Option α)}
    (body : T.Moves n taken P (Option.Rel r) (fun o => o.elim R fun _ => P) p q) :
    T.Moves n (fun _ => 0) P (List.Forall₂ r) (fun _ => R) (Reader.many p) (Reader.many q) :=
  bounded fun _ _ _ hm hb hb' => atMost (body.within hm) hb hb'

theorem broken_of_first {d m : Nat} {k : Kind} (hk : k ≠ .dedent) (hx : x.depth = d + m)
    (h : first k zs = true) : Broken d m x zs := by
  cases zs with
  | nil => cases h
  | cons t zs =>
    obtain rfl : t.kind = k := eq_of_beq h
    exact ⟨t, ⟨hx, fun _ => hk⟩, zs, rfl⟩

theorem broken_of_depth {d m : Nat} {s : Spot} (h : T.Moves n j (Broken d (m + 1)) r Q p q) :
    T.Moves n j (Ahead ⟨d + (m + 1), s⟩ []) r Q p q := by
  refine of_depth (d := d + m) (fun x zs hx => congrArg Place.depth hx.1) ?_
  refine h.pre fun x zs hx => ?_
  obtain ⟨t, ⟨rfl, -⟩, ht⟩ := hx
  exact ⟨t, ⟨rfl, fun none => nomatch none⟩, ht⟩

theorem broken_of_inside {d m : Nat} (h : T.Moves n j (Broken d m) r Q p q) :
    T.Moves n j (Inside (d + m)) r Q p q := by
  intro x zs c e less hP here
  obtain ⟨rfl, -⟩ := hP
  obtain ⟨t, us, rfl, ht⟩ := Leads.inside [] (by simp) here.leads
  refine h less ⟨t, ⟨rfl, fun _ same => ?_⟩, us, rfl⟩ here
  rw [same] at ht
  rcases ht with ht | ht <;> cases ht

theorem resync_dedent {d : Nat} {p q : Nat → Reader Unit}
    (later : ∀ m, T.Moves n (fun _ => 0) (Broken d m) Eq (fun _ => Outside d) (p m) (q m))
    (m : Nat) : T.Moves n (fun _ => 0) (Ahead ⟨d + m, .closed⟩ []) Eq (fun _ => Outside d)
      (do if m == 0 && !(← Reader.check .indent) then return () else p m)
      (do if m == 0 && !(← Reader.check .indent) then return () else q m) := by
  refine bind (check fun _ _ _ => .inl (by decide)) ?_
  rintro b _ rfl
  cases m with
  | zero =>
    cases b with
    | true =>
      refine of_first (fun x t y hx ht one => ?_) fun x zs hx => ⟨hx.1, List.nil_prefix⟩
      rw [hx.1] at one
      cases one
    | false => exact pure rfl rfl fun x zs hx => by simp [Outside, hx.1.1]
  | succ m =>
    rw [if_neg (by simp)]
    exact (broken_of_depth (later _)).pre fun x zs hx => hx.1

theorem resync_newline {d : Nat} {p q : Nat → Reader Unit}
    (later : ∀ m, T.Moves n (fun _ => 0) (Broken d m) Eq (fun _ => Outside d) (p m) (q m))
    (m : Nat) : T.Moves n (fun _ => 0) (Ahead ⟨d + m, .fresh⟩ []) Eq (fun _ => Outside d)
      (do if m == 0 then if ← Reader.check .indent then p m else return () else p m)
      (do if m == 0 then if ← Reader.check .indent then q m else return () else q m) := by
  cases m with
  | zero =>
    simp only [beq_self_eq_true, if_true]
    refine bind (check fun _ _ _ => .inl (by decide)) ?_
    rintro b _ rfl
    cases b with
    | true =>
      exact (later 0).pre fun x zs hx =>
        broken_of_first (by decide) (congrArg Place.depth hx.1.1) hx.2
    | false => exact pure rfl rfl fun x zs hx => by simp [Outside, hx.1.1]
  | succ m =>
    rw [if_neg (by simp)]
    exact broken_of_depth (later _)

theorem resync_round {d : Nat} {bound : List β} {bound' : List γ}
    (later : ∀ m, T.Moves (n - 1) (fun _ => 0) (Broken d m) Eq (fun _ => Outside d)
      (Reader.resyncWithin bound m) (Reader.resyncWithin bound' m)) (m : Nat) (b : β) (b' : γ) :
    T.Moves n (fun _ => 1) (Broken d m) Eq (fun _ => Outside d)
      (Reader.resyncWithin (b :: bound) m) (Reader.resyncWithin (b' :: bound') m) := by
  refine of_ahead fun x t y ⟨depth, outer⟩ one => ?_
  obtain ⟨_, s⟩ := x
  obtain rfl := depth
  unfold Reader.resyncWithin
  refine peek_alike fun u hu => ?_
  rw [hu.kind]
  split
  · next kind =>
    rw [kind] at one
    cases one
  · next kind =>
    cases m with
    | zero => exact absurd kind (outer rfl)
    | succ m =>
      obtain ⟨-, e, deep, rfl⟩ := Place.next_dedent (kind ▸ one)
      obtain rfl := Nat.succ.inj deep
      exact pass one (resync_dedent later m)
  · next kind =>
    obtain rfl : y = ⟨d + (m + 1), .opened⟩ := (Place.next_indent (kind ▸ one)).2
    exact pass one (broken_of_depth (later _))
  · next kind =>
    obtain rfl := Place.next_newline (kind ▸ one)
    exact pass one (resync_newline later m)
  · next other =>
    have content : t.kind.isContent = true := by
      cases e : t.kind <;> first | rfl | exact absurd e (by assumption)
    have inside : y = ⟨d + m, .inside⟩ := by
      rw [Place.next_content content, Place.spot_content content] at one
      exact (Option.some.inj one).symm
    subst inside
    exact pass one (broken_of_inside (later m))

/-- The rest of a broken line is skipped, with the blocks under it and no more. -/
theorem resyncWithin {d m : Nat} {bound : List β} {bound' : List γ} (hb : n ≤ bound.length)
    (hb' : n ≤ bound'.length) :
    T.Moves n (fun _ => 1) (Broken d m) Eq (fun _ => Outside d) (Reader.resyncWithin bound m)
      (Reader.resyncWithin bound' m) := by
  induction bound generalizing n m bound' with
  | nil =>
    obtain rfl : n = 0 := Nat.le_zero.1 hb
    exact exhausted fun _ => Nat.not_lt_zero _
  | cons _ bound ih =>
    cases bound' with
    | nil =>
      obtain rfl : n = 0 := Nat.le_zero.1 hb'
      exact exhausted fun _ => Nat.not_lt_zero _
    | cons _ bound' =>
      exact resync_round (fun m => (ih (Nat.sub_le_of_le_add hb)
        (Nat.sub_le_of_le_add hb')).slower fun _ => Nat.zero_le 1) m _ _

theorem resync {d : Nat} :
    T.Moves n (fun _ => 1) (Broken d 0) Eq (fun _ => Outside d) Reader.resync Reader.resync :=
  bounded fun _ _ _ _ hb hb' => resyncWithin hb hb'

theorem check_ahead {k : Kind} {g h : Bool → Reader α}
    (two : T.Moves n j (Ahead x (t :: ts)) r Q (g (t.kind == k)) (h (t.kind == k))) :
    T.Moves n j (Ahead x (t :: ts)) r Q (Reader.check k >>= g) (Reader.check k >>= h) := by
  rw [Reader.check_bind, Reader.check_bind]
  refine peek_alike fun u hu => ?_
  rw [hu.kind]
  exact two

theorem atBlockEnd_ahead {g h : Bool → Reader α}
    (two : T.Moves n j (Ahead x (t :: ts)) r Q (g (t.kind == .dedent || t.kind == .endOfFile))
      (h (t.kind == .dedent || t.kind == .endOfFile))) :
    T.Moves n j (Ahead x (t :: ts)) r Q (Reader.atBlockEnd >>= g) (Reader.atBlockEnd >>= h) := by
  unfold Reader.atBlockEnd
  rw [bind_assoc, bind_assoc]
  refine check_ahead ?_
  rw [bind_assoc, bind_assoc]
  refine check_ahead ?_
  rw [pure_bind, pure_bind]
  exact two

theorem inside {d : Nat}
    (goesOn : ∀ t, t.kind.isContent = true → T.Moves n j (Ahead ⟨d, .inside⟩ [t]) r Q p q)
    (ends : ∀ t, t.kind = .newline → T.Moves n j (Ahead ⟨d, .inside⟩ [t]) r Q p q) :
    T.Moves n j (Inside d) r Q p q := by
  intro x zs c e less hP here
  obtain ⟨rfl, -⟩ := hP
  obtain ⟨t, us, rfl, ht⟩ := Leads.inside [] (by simp) here.leads
  rcases ht with ht | ht
  · exact goesOn t ht less ⟨rfl, us, rfl⟩ here
  · exact ends t ht less ⟨rfl, us, rfl⟩ here

theorem not_blockEnd {k : Kind} (h : k.isContent = true ∨ k = .newline) :
    (k == .dedent || k == .endOfFile) = false := by
  rcases h with h | rfl
  · rw [beq_false_of_ne (Place.ne_of_content h rfl), beq_false_of_ne (Place.ne_of_content h rfl)]
    rfl
  · rfl

theorem take_ahead (hy : x.next t.kind = some y) :
    T.Moves n (fun _ => 1) (Ahead x (t :: ts)) (fun a b => a.isSome = true ∧ b.isSome = true)
      (fun _ => Ahead y ts) (Reader.take? t.kind) (Reader.take? t.kind) := by
  unfold Reader.take?
  refine check_ahead ?_
  rw [beq_self_eq_true, if_pos rfl]
  exact map (advance hy) (fun _ _ _ => ⟨rfl, rfl⟩) (fun _ => Nat.le_refl 1) fun _ _ _ h => h

theorem skip_ahead (hy : x.next t.kind = some y) {g h : Bool → Reader α}
    (two : T.Moves (n - 1) (fun a => j a - 1) (Ahead y ts) r Q (g true) (h true)) :
    T.Moves n j (Ahead x (t :: ts)) r Q (Reader.skip? t.kind >>= g)
      (Reader.skip? t.kind >>= h) := by
  unfold Reader.skip?
  rw [bind_assoc, bind_assoc]
  refine bind (take_ahead hy) fun a b ⟨ha, hb⟩ => ?_
  rw [ha, hb, pure_bind, pure_bind]
  exact two

theorem skip_ahead_not {k : Kind} (ht : t.kind ≠ k) {g h : Bool → Reader α}
    (two : T.Moves n j (Ahead x (t :: ts)) r Q (g false) (h false)) :
    T.Moves n j (Ahead x (t :: ts)) r Q (Reader.skip? k >>= g) (Reader.skip? k >>= h) := by
  unfold Reader.skip? Reader.take?
  rw [bind_assoc, bind_assoc, bind_assoc, bind_assoc]
  refine check_ahead ?_
  rw [beq_false_of_ne ht]
  simp only [Bool.false_eq_true, if_false, pure_bind, Option.isSome_none]
  exact two

theorem expectEndOfLine {d : Nat} (what : Bytes) :
    T.Moves n (fun _ => 1) (Inside d) Eq
      (fun b => if b then Ahead ⟨d, .fresh⟩ [] else Outside d) (Reader.expectEndOfLine what)
      (Reader.expectEndOfLine what) := by
  unfold Reader.expectEndOfLine
  refine inside (fun t ht => ?_) fun t ht => ?_
  · refine skip_ahead_not (Place.ne_of_content ht rfl) ?_
    refine atBlockEnd_ahead ?_
    rw [not_blockEnd (.inl ht)]
    simp only [Bool.false_eq_true, if_false]
    refine look fun _ _ => bind (report _ _) fun _ _ _ => ?_
    refine bind ((resync (d := d)).pre fun x zs hx => ?_) fun _ _ _ => pure rfl rfl fun _ _ h => h
    exact ⟨t, ⟨congrArg Place.depth hx.1, fun _ => Place.ne_of_content ht rfl⟩, hx.2⟩
  · rw [← ht]
    have line : Place.next ⟨d, .inside⟩ t.kind = some ⟨d, .fresh⟩ := by rw [ht]; rfl
    exact skip_ahead line (pure rfl rfl fun _ _ h => h)

theorem check_outer {k : Kind} {P : Place → Prop} (hk : k ∈ attached) {g h : Bool → Reader α}
    (yes : ∀ x t y, P x → t.kind = k → x.next t.kind = some y →
      T.Moves n j (Ahead x [t]) r Q (g true) (h true))
    (no : T.Moves n j (fun x _ => P x) r Q (g false) (h false)) :
    T.Moves n j (fun x _ => P x) r Q (Reader.check k >>= g) (Reader.check k >>= h) := by
  refine bind (i := fun _ => 0) (check fun _ _ _ => .inl hk) ?_
  rintro b _ rfl
  cases b with
  | true => exact of_first (fun x t y hx kind one => yes x t y hx kind (kind ▸ one)) fun _ _ h => h
  | false => exact no.pre fun x zs hx => hx.1

theorem skip_outer {k : Kind} {P : Place → Prop} (hk : k ∈ attached) {g h : Bool → Reader α}
    (yes : ∀ x y, P x → x.next k = some y →
      T.Moves (n - 1) (fun a => j a - 1) (Ahead y []) r Q (g true) (h true))
    (no : T.Moves n j (fun x _ => P x) r Q (g false) (h false)) :
    T.Moves n j (fun x _ => P x) r Q (Reader.skip? k >>= g) (Reader.skip? k >>= h) := by
  unfold Reader.skip? Reader.take?
  rw [bind_assoc, bind_assoc, bind_assoc, bind_assoc]
  refine check_outer hk (fun x t y hx kind one => ?_) ?_
  · simp only [if_true, bind_assoc, pure_bind, Option.isSome_some]
    exact bind (advance one) fun _ _ _ => yes x y hx (kind ▸ one)
  · simp only [Bool.false_eq_true, if_false, pure_bind, Option.isSome_none]
    exact no

theorem skipNewlines {G : Place → Prop} (stays : ∀ x y, G x → x.next .newline = some y → G y)
    (outer : G ⟨0, T.finish⟩ → T.finish = .fresh) :
    T.Moves n (fun _ => 0) (fun x _ => G x) Eq (fun _ x zs => G x ∧ first .newline zs = false)
      Reader.skipNewlines Reader.skipNewlines := by
  unfold Reader.skipNewlines
  refine discard (many (r := fun _ _ => True) (R := fun x zs => G x ∧ first .newline zs = false) ?_)
    fun _ => Nat.le_refl 0
  unfold Reader.take?
  refine bind (check fun x hx he => .inr ⟨rfl, outer (he ▸ hx)⟩) ?_
  rintro b _ rfl
  cases b with
  | false => exact pure .none rfl fun _ _ h => h
  | true =>
    refine of_first (fun x t y hx ht one => ?_) fun _ _ h => h
    rw [if_pos rfl]
    refine map (advance (ht ▸ one)) (fun _ _ _ => .some trivial) (fun _ => Nat.le_refl 1)
      fun _ z zs hz => ?_
    exact hz.1 ▸ stays x y hx one

theorem beginLine (hT : T.BeginsLines) (hx : x.spot ≠ .inside) :
    T.Moves n (fun _ => 0) (Ahead x (t :: ts)) Eq (fun _ => Ahead x (t :: ts)) Reader.beginLine
      Reader.beginLine := by
  intro y zs c e _ hP here
  obtain ⟨rfl, zs, rfl⟩ := hP
  exact ⟨y, _, rfl, ⟨rfl, zs, rfl⟩, Nat.le_refl _, here.leads, here.left, here.right,
    hT hx (List.cons_ne_nil _ _) here.kept⟩

theorem lines {d : Nat} {p q : Reader (List α)}
    (line : T.Moves n (fun _ => 1) (Opening (d + 1)) (List.Forall₂ r) (fun _ => Outside (d + 1))
      p q) :
    T.Moves n (fun _ => 0) (fun x _ => Margin (d + 1) x) (List.Forall₂ r)
      (fun _ => Ahead ⟨d, .closed⟩ []) (Reader.lines p) (Reader.lines q) := by
  unfold Reader.lines
  refine bind (many (r := List.Forall₂ r)
    (R := fun x zs => Margin (d + 1) x ∧ first .dedent zs = true) ?_) fun parts parts' same => ?_
  · refine bind (skipNewlines (G := Margin (d + 1)) (fun x y hx one => ?_) fun h => ?_) ?_
    · rw [Place.next_newline one]
      exact ⟨hx.1, fun h => nomatch h⟩
    · cases h.1
    · rintro _ _ -
      refine of_depth (d := d) (fun x zs hx => hx.1.1) ?_
      refine pre (of_ahead (G := fun x t => Margin (d + 1) x ∧ t.kind ≠ .newline) ?_) ?_
      · intro x t y ⟨hx, apart⟩ one
        refine atBlockEnd_ahead ?_
        cases block : t.kind == .dedent || t.kind == .endOfFile with
        | true =>
          rw [if_pos rfl, if_pos rfl]
          refine pure .none rfl fun z zs hz => ?_
          obtain ⟨rfl, zs, rfl⟩ := hz
          refine ⟨hx, ?_⟩
          have kind : (t.kind == .dedent) = true := by
            rw [Bool.or_eq_true] at block
            exact block.resolve_right fun last => Place.next_ne one (eq_of_beq last)
          exact kind
        | false =>
          rw [if_neg (by decide), if_neg (by decide)]
          refine bind (line.pre fun z zs hz => ?_) fun a b hab => pure (.some hab) rfl ?_
          · obtain ⟨rfl, ht⟩ := hz
            have inner := ne_of_beq_false (Bool.or_eq_false_iff.1 block).1
            exact ⟨t, ⟨hx, Place.next_opens apart inner one⟩, ht⟩
          · exact fun _ _ hz => ⟨hz.1, hz.not_inside⟩
      · intro x zs hx
        obtain ⟨t, ⟨hx, apart⟩, zs, rfl⟩ := hx
        exact ⟨t, ⟨hx, ne_of_beq_false apart⟩, zs, rfl⟩
  · refine bind (s := Eq) (i := fun _ => 0) (R := fun _ => Ahead ⟨d, .closed⟩ []) ?_ fun _ _ _ =>
      pure (List.rel_flatten same) rfl fun _ _ h => h
    refine of_first (fun x t y hx kind one => ?_) fun _ _ h => h
    obtain ⟨-, e, deep, rfl⟩ := Place.next_dedent one
    obtain rfl := Nat.succ.inj (hx.1.symm.trans deep)
    rw [← kind]
    exact discard (k := 0) (take_ahead (kind ▸ one)) fun _ => Nat.zero_le 1

end Moves

end Tandem

end StepsLang
