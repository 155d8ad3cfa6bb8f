import StepsLang.Proofs.Token.Scan
import StepsLang.Token.Cursor

/-! What a reader makes of tokens with nothing wrong before them.  A reader is followed from one
token to the next; what it gives is known but for the places of the tokens, and so is what stands
after the tokens that it takes. -/

namespace StepsLang

def Token.at (w : Token) (l : Location) : Token := { w with location := l }

theorem Token.eq_at {t w : Token} (h : t.unlocated = w) : t = w.at t.location := by
  subst h
  rfl

def Cursor.quiet (ts : List Token) : Cursor := { rest := TokenStream.quiet ts }

namespace Reader

/-- A reader takes the tokens `ws`, wherever they stand, and gives what `meaning` makes `b` of, as
long as the next token is of a kind in `k`. -/
def Reads (meaning : α → β) (p : Reader α) (ws : List Token) (b : β) (k : Kind → Prop) : Prop :=
  ∀ ts f more, ts.map Token.unlocated = ws → k f.kind →
    ∃ a, meaning a = b ∧ p (Cursor.quiet (ts ++ f :: more)) = (a, Cursor.quiet (f :: more))

def Declines (p : Reader (Option α)) (d : Kind → Prop) : Prop :=
  ∀ f more, d f.kind → p (Cursor.quiet (f :: more)) = (none, Cursor.quiet (f :: more))

/-- The next token is of a kind in `d`: the first of `ws`, or else one of a kind in `k`. -/
abbrev Next (d : Kind → Prop) (ws : List Token) (k : Kind → Prop) : Prop :=
  match ws with
  | [] => ∀ x, k x → d x
  | w :: _ => d w.kind

variable {m : α → β} {p : Reader α} {ws us : List Token} {b : β} {k d : Kind → Prop}

theorem Next.cons {w : Token} (h : d w.kind) : Next d (w :: ws) k := h

theorem Next.weaken {d' : Kind → Prop} (h : Next d ws k) (hd : ∀ x, d x → d' x) :
    Next d' ws k := by
  cases ws with
  | nil => exact fun x hx => hd x (h x hx)
  | cons => exact hd _ h

theorem hear_of_quiet {c : Cursor} {ts : List Token} (h : c.rest = TokenStream.quiet ts) (n : Nat) :
    c.hear n = c := by
  have silent : (c.rest.take n).all (·.reports.isEmpty) = true := by
    refine List.all_eq_true.2 fun x hx => ?_
    obtain ⟨t, -, rfl⟩ := List.mem_map.1 (h ▸ List.mem_of_mem_take hx)
    rfl
  exact if_pos silent

theorem hear_quiet (n : Nat) (ts : List Token) : (Cursor.quiet ts).hear n = Cursor.quiet ts :=
  hear_of_quiet rfl n

theorem peekAt_quiet (n : Nat) (ts : List Token) :
    peekAt n (Cursor.quiet ts) = ((Cursor.quiet ts).token n, Cursor.quiet ts) := by
  change ((((Cursor.quiet ts).hear (n + 1)).token n, (Cursor.quiet ts).hear (n + 1)) : _ × _) = _
  rw [hear_quiet]

theorem token_quiet {ts : List Token} {t : Token} {n : Nat} (h : ts[n]? = some t) :
    (Cursor.quiet ts).token n = t := by
  have rest : ts.drop n = t :: ts.drop (n + 1) := by
    rw [List.drop_eq_getElem?_toList_append, h]
    rfl
  have drop : (Cursor.quiet ts).rest.drop n = TokenStream.quiet (t :: ts.drop (n + 1)) := by
    rw [← rest, TokenStream.quiet, List.map_drop]
    rfl
  rw [Cursor.token, drop]
  rfl

theorem peek_quiet (t : Token) (ts : List Token) :
    peek (Cursor.quiet (t :: ts)) = (t, Cursor.quiet (t :: ts)) :=
  peekAt_quiet 0 (t :: ts)

theorem bind_run (q : Reader γ) (g : γ → Reader α) (c : Cursor) :
    (q >>= g) c = g (q c).1 (q c).2 := rfl

theorem advance_quiet {t : Token} (f : Token) (ts : List Token) (ht : t.kind ≠ .endOfFile) :
    advance (Cursor.quiet (t :: f :: ts)) = (t, Cursor.quiet (f :: ts)) := by
  have other : (t.kind == .endOfFile) = false := by simpa using ht
  have passed : (Cursor.quiet (t :: f :: ts)).advance = Cursor.quiet (f :: ts) := by
    simp [Cursor.advance, Cursor.quiet, TokenStream.quiet, other]
  rw [advance, bind_run, peek_quiet, ← passed]
  rfl

theorem split_at (ts : List Token) (f : Token) (more : List Token) :
    ∃ g rest, ts ++ f :: more = g :: rest ∧
      (∀ {k d : Kind → Prop}, Next d (ts.map Token.unlocated) k → k f.kind → d g.kind) := by
  cases ts with
  | nil => exact ⟨f, more, rfl, fun h hf => h _ hf⟩
  | cons t ts => exact ⟨t, ts ++ f :: more, rfl, fun h _ => h⟩

namespace Reads

theorem weaken {k' : Kind → Prop} (h : Reads m p ws b k) (hk : ∀ x, k' x → k x) :
    Reads m p ws b k' :=
  fun ts f more same hf => h ts f more same (hk _ hf)

theorem pure {a : α} (h : m a = b) : Reads m (Pure.pure a) [] b k := by
  intro ts f more same _
  obtain rfl := List.map_eq_nil_iff.1 same
  exact ⟨a, h, rfl⟩

theorem bind {u v : List Token} {m₁ : γ → δ} {q : Reader γ} {c : δ} {g : γ → Reader α}
    {k₁ : Kind → Prop} (first : Reads m₁ q u c k₁) (next : Next k₁ v k)
    (then_ : ∀ a, m₁ a = c → Reads m (g a) v b k) : Reads m (q >>= g) (u ++ v) b k := by
  intro ts f more same hf
  obtain ⟨us, vs, rfl, hu, hv⟩ := List.map_eq_append_iff.1 same
  obtain ⟨x, rest, whole, known⟩ := split_at vs f more
  obtain ⟨a, ha, one⟩ := first us x rest hu (known (hv ▸ next) hf)
  obtain ⟨r, hr, two⟩ := then_ a ha vs f more hv hf
  refine ⟨r, hr, ?_⟩
  rw [List.append_assoc, whole]
  rw [bind_run, one, ← whole]
  exact two

theorem last {m₁ : γ → δ} {q : Reader γ} {c : δ} {g : γ → Reader α} {k₁ : Kind → Prop}
    (first : Reads m₁ q ws c k₁) (next : ∀ x, k x → k₁ x)
    (then_ : ∀ a, m₁ a = c → Reads m (g a) [] b k) : Reads m (q >>= g) ws b k := by
  have both := bind first next then_
  rwa [List.append_nil] at both

theorem map {m₁ : γ → δ} {q : Reader γ} {c : δ} {g : γ → α} (h : Reads m₁ q ws c k)
    (made : ∀ a, m₁ a = c → m (g a) = b) : Reads m (g <$> q) ws b k := by
  rw [← bind_pure_comp]
  exact last h (fun _ hx => hx) fun a ha => pure (made a ha)

theorem change {m₁ : α → δ} {c : δ} (h : Reads m₁ p ws c k) (made : ∀ a, m₁ a = c → m a = b) :
    Reads m p ws b k := by
  have same := map (g := id) h made
  rwa [id_map] at same

theorem look {q : Reader γ} {g : γ → Reader α} {P : γ → Prop}
    (ahead : ∀ ts f more, ts.map Token.unlocated = ws → k f.kind →
      ∃ r, P r ∧ q (Cursor.quiet (ts ++ f :: more)) = (r, Cursor.quiet (ts ++ f :: more)))
    (then_ : ∀ r, P r → Reads m (g r) ws b k) : Reads m (q >>= g) ws b k := by
  intro ts f more same hf
  obtain ⟨r, hr, one⟩ := ahead ts f more same hf
  obtain ⟨a, ha, two⟩ := then_ r hr ts f more same hf
  refine ⟨a, ha, ?_⟩
  rw [bind_run, one]
  exact two

variable {w v : Token} {k' : Kind}

theorem peek {g : Token → Reader α} (h : ∀ l, Reads m (g (w.at l)) (w :: ws) b k) :
    Reads m (Reader.peek >>= g) (w :: ws) b k := by
  refine look (P := fun t => t.unlocated = w) ?_ fun t ht => Token.eq_at ht ▸ h t.location
  intro ts f more same _
  obtain ⟨t, ts, rfl, ht, -⟩ := List.map_eq_cons_iff.1 same
  exact ⟨t, ht, peek_quiet t _⟩

theorem peek_next {g : Token → Reader α} (next : Next d ws k)
    (h : ∀ t : Token, d t.kind → Reads m (g t) ws b k) : Reads m (Reader.peek >>= g) ws b k := by
  refine look (P := fun t => d t.kind) ?_ h
  intro ts f more same hf
  obtain ⟨x, rest, whole, known⟩ := split_at ts f more
  refine ⟨x, known (same ▸ next) hf, ?_⟩
  rw [whole, peek_quiet]

theorem peekAt {n : Nat} {g : Token → Reader α} (there : ws[n]? = some w)
    (h : ∀ l, Reads m (g (w.at l)) ws b k) : Reads m (Reader.peekAt n >>= g) ws b k := by
  refine look (P := fun t => t.unlocated = w) ?_ fun t ht => Token.eq_at ht ▸ h t.location
  intro ts f more same _
  rw [← same, List.getElem?_map, Option.map_eq_some_iff] at there
  obtain ⟨t, found, ht⟩ := there
  have inside := (List.getElem?_eq_some_iff.1 found).1
  have later : (ts ++ f :: more)[n]? = some t := by rwa [List.getElem?_append_left inside]
  exact ⟨t, ht, by rw [peekAt_quiet, token_quiet later]⟩

theorem checkAt {n : Nat} {g : Bool → Reader α} {r : Bool} (there : ws[n]? = some w)
    (hr : (w.kind == k') = r) (h : Reads m (g r) ws b k) :
    Reads m (Reader.checkAt n k' >>= g) ws b k := by
  rw [Reader.checkAt_bind]
  refine peekAt there fun l => ?_
  rw [show (w.at l).kind = w.kind from rfl, hr]
  exact h

theorem check {g : Bool → Reader α} {r : Bool} (next : Next (fun x => (x == k') = r) ws k)
    (h : Reads m (g r) ws b k) : Reads m (Reader.check k' >>= g) ws b k := by
  rw [Reader.check_bind]
  refine peek_next next fun t ht => ?_
  rw [ht]
  exact h

theorem next_any (ws : List Token) (k : Kind → Prop) : Next (fun _ => True) ws k := by
  cases ws with
  | nil => exact fun _ _ => trivial
  | cons => trivial

theorem advance {g : Token → Reader α} (hw : w.kind ≠ .endOfFile)
    (h : ∀ l, Reads m (g (w.at l)) ws b k) : Reads m (Reader.advance >>= g) (w :: ws) b k := by
  have one : Reads Token.unlocated Reader.advance [w] w fun _ => True := by
    intro ts f more same _
    obtain ⟨t, ts, rfl, ht, rest⟩ := List.map_eq_cons_iff.1 same
    obtain rfl := List.map_eq_nil_iff.1 rest
    refine ⟨t, ht, advance_quiet f more ?_⟩
    rwa [← ht] at hw
  exact bind one (next_any ws k) fun t ht => Token.eq_at ht ▸ h t.location

theorem take? {g : Option Token → Reader α} (hk : w.kind = k') (hw : k' ≠ .endOfFile)
    (h : ∀ l, Reads m (g (some (w.at l))) ws b k) :
    Reads m (Reader.take? k' >>= g) (w :: ws) b k := by
  rw [Reader.take?, bind_assoc]
  refine check (r := true) (by simpa using hk) ?_
  rw [if_pos rfl, bind_assoc]
  refine advance (by rwa [hk]) fun l => ?_
  rw [pure_bind]
  exact h l

theorem take?_not {g : Option Token → Reader α} (next : Next (· ≠ k') ws k)
    (h : Reads m (g none) ws b k) : Reads m (Reader.take? k' >>= g) ws b k := by
  rw [Reader.take?, bind_assoc]
  have other : Next (fun x => (x == k') = false) ws k := by
    cases ws with
    | nil => exact fun x hx => by simpa using next x hx
    | cons => simpa using next
  refine check other ?_
  rw [if_neg (by simp), pure_bind]
  exact h

theorem skip? {g : Bool → Reader α} (hk : w.kind = k') (hw : k' ≠ .endOfFile)
    (h : Reads m (g true) ws b k) : Reads m (Reader.skip? k' >>= g) (w :: ws) b k := by
  rw [Reader.skip?, bind_assoc]
  refine take? hk hw fun l => ?_
  rw [pure_bind]
  exact h

theorem skip?_not {g : Bool → Reader α} (next : Next (· ≠ k') ws k)
    (h : Reads m (g false) ws b k) : Reads m (Reader.skip? k' >>= g) ws b k := by
  rw [Reader.skip?, bind_assoc]
  refine take?_not next ?_
  rw [pure_bind]
  exact h

theorem expect {g : Option Token → Reader α} {what : Bytes} (hk : w.kind = k')
    (hw : k' ≠ .endOfFile) (h : ∀ l, Reads m (g (some (w.at l))) ws b k) :
    Reads m (Reader.expect k' what >>= g) (w :: ws) b k := by
  rw [Reader.expect, bind_assoc]
  refine take? hk hw fun l => ?_
  simp only [pure_bind]
  exact h l

theorem expectName {g : Option Token → Reader α} {x : Bytes}
    (h : ∀ l, Reads m (g (some { kind := .name, location := l, text := x })) ws b k) :
    Reads m (Reader.expectName >>= g) ({ kind := .name, text := x } :: ws) b k := by
  rw [Reader.expectName, bind_assoc]
  refine take? rfl (by simp) fun l => ?_
  simp only [pure_bind]
  exact h l

theorem expectEndOfLine {g : Bool → Reader α} {what : Bytes} (h : Reads m (g true) ws b k) :
    Reads m (Reader.expectEndOfLine what >>= g) ({ kind := .newline } :: ws) b k := by
  rw [Reader.expectEndOfLine, bind_assoc]
  refine skip? rfl (by simp) ?_
  rw [if_pos rfl, pure_bind]
  exact h

theorem discard {q : Reader γ} {g : Unit → Reader α}
    (h : Reads m (q >>= fun _ => g ()) ws b k) : Reads m (Functor.discard q >>= g) ws b k := by
  have same : (Functor.discard q >>= g) = q >>= fun _ => g () := rfl
  rwa [same]

theorem endLine {a : α} {what : Bytes} (h : m a = b) :
    Reads m (Functor.discard (Reader.expectEndOfLine what) >>= fun _ => Pure.pure a)
      [{ kind := .newline }] b k :=
  discard (expectEndOfLine (.pure h))

theorem beginLine {g : Unit → Reader α} (h : Reads m (g ()) ws b k) :
    Reads m (Reader.beginLine >>= g) ws b k :=
  look (P := fun _ => True) (fun _ _ _ _ _ => ⟨(), trivial, rfl⟩) fun _ _ => h

theorem declined {p : Reader (Option γ)} {g : Option γ → Reader α} (stop : Declines p d)
    (next : Next d ws k) (h : Reads m (g none) ws b k) : Reads m (p >>= g) ws b k := by
  refine look (P := (· = none)) ?_ fun r hr => hr ▸ h
  intro ts f more same hf
  obtain ⟨x, rest, whole, known⟩ := split_at ts f more
  refine ⟨none, rfl, ?_⟩
  rw [whole]
  exact stop x rest (known (same ▸ next) hf)

structure Items (m : α → β) (p : Reader (Option α)) (items : List (List Token × β))
    (after k : Kind → Prop) : Prop where
  each : ∀ x ∈ items, Reads (Option.map m) p x.1 (some x.2) after
  first : ∀ x ∈ items, ∃ w ws, x.1 = w :: ws ∧ after w.kind
  last : ∀ x, k x → after x
  stop : Declines p k

theorem Items.nil {p : Reader (Option α)} {after : Kind → Prop} (last : ∀ x, k x → after x)
    (stop : Declines p k) : Items m p [] after k :=
  ⟨by simp, by simp, last, stop⟩

theorem Items.cons {p : Reader (Option α)} {w : Token} {items : List (List Token × β)}
    {after : Kind → Prop} (each : Reads (Option.map m) p (w :: ws) (some b) after)
    (first : after w.kind) (h : Items m p items after k) :
    Items m p ((w :: ws, b) :: items) after k :=
  ⟨List.forall_mem_cons.2 ⟨each, h.each⟩, List.forall_mem_cons.2 ⟨⟨w, ws, rfl, first⟩, h.first⟩,
    h.last, h.stop⟩

theorem Items.tail {p : Reader (Option α)} {x : List Token × β} {items : List (List Token × β)}
    {after : Kind → Prop} (h : Items m p (x :: items) after k) : Items m p items after k :=
  ⟨fun y hy => h.each y (by simp [hy]), fun y hy => h.first y (by simp [hy]), h.last, h.stop⟩

theorem Items.starts {p : Reader (Option α)} {items : List (List Token × β)}
    {after : Kind → Prop} (h : Items m p items after k) : Next after (items.flatMap (·.1)) k := by
  cases items with
  | nil => exact h.last
  | cons x items =>
    obtain ⟨w, ws, e, hw⟩ := h.first x (by simp)
    rw [List.flatMap_cons, e]
    exact hw

theorem Items.next {p : Reader (Option α)} {items : List (List Token × β)} {after : Kind → Prop}
    (h : Items m p items after d) (next : Next d us k) :
    Next after (items.flatMap (·.1) ++ us) k := by
  cases items with
  | nil => exact next.weaken h.last
  | cons x items =>
    obtain ⟨w, ws, e, hw⟩ := h.first x (by simp)
    rw [List.flatMap_cons, e]
    exact hw

theorem atMost {p : Reader (Option α)} {items : List (List Token × β)} {after : Kind → Prop}
    (h : Items m p items after k) (bound : List γ) (hb : items.length < bound.length) :
    Reads (List.map m) (Reader.atMost p bound) (items.flatMap (·.1)) (items.map (·.2)) k := by
  induction bound generalizing items with
  | nil => cases hb
  | cons _ bound ih =>
    cases items with
    | nil =>
      refine declined h.stop (fun _ hx => hx) ?_
      exact .pure rfl
    | cons x items =>
      rw [List.flatMap_cons]
      refine bind (h.each x (by simp)) h.tail.starts fun o ho => ?_
      obtain ⟨a, rfl, ha⟩ := Option.map_eq_some_iff.1 ho
      have later := ih h.tail (by simpa using hb)
      rw [← List.append_nil (items.flatMap (·.1))]
      refine bind later (fun _ hx => hx) fun as has => ?_
      exact .pure (by simp [ha, has])

theorem length_le_flatMap {items : List (List Token × β)} (filled : ∀ x ∈ items, x.1 ≠ []) :
    items.length ≤ (items.flatMap (·.1)).length := by
  induction items with
  | nil => simp
  | cons x items ih =>
    have here := List.length_pos_iff.2 (filled x (by simp))
    have rest := ih fun y hy => filled y (by simp [hy])
    simp only [List.flatMap_cons, List.length_append, List.length_cons]
    omega

theorem bounded {p : List Heard → Reader α}
    (h : ∀ bound : List Heard, ws.length < bound.length → Reads m (p bound) ws b k) :
    Reads m (do p (← get).rest) ws b k := by
  intro ts f more same hf
  have enough : ws.length < (Cursor.quiet (ts ++ f :: more)).rest.length := by
    rw [← same]
    simp [Cursor.quiet, TokenStream.quiet]
  exact h _ enough ts f more same hf

theorem many {p : Reader (Option α)} {items : List (List Token × β)} {after : Kind → Prop}
    (h : Items m p items after k) :
    Reads (List.map m) (Reader.many p) (items.flatMap (·.1)) (items.map (·.2)) k := by
  have counted := length_le_flatMap fun x hx => by
    obtain ⟨w, ws, e, -⟩ := h.first x hx
    simp [e]
  exact bounded fun bound hb => atMost h bound (Nat.lt_of_le_of_lt counted hb)

theorem many_one {u : List Token} {m₁ : γ → δ} {q : Reader (Option γ)} {c : δ}
    {g : List γ → Reader α} {w : Token} {k₁ : Kind → Prop}
    (item : Reads (Option.map m₁) q (w :: u) (some c) k₁) (first : k₁ w.kind)
    (after : ∀ x, d x → k₁ x) (stop : Declines q d) (next : Next d ws k)
    (then_ : ∀ a, m₁ a = c → Reads m (g [a]) ws b k) :
    Reads m (Reader.many q >>= g) (w :: (u ++ ws)) b k := by
  have one : Items m₁ q [(w :: u, c)] k₁ d :=
    ⟨by simpa using item, by simpa using first, after, stop⟩
  have all : Reads (List.map m₁) (Reader.many q) (w :: u) [c] d := by simpa using many one
  refine bind all next fun as has => ?_
  obtain ⟨a, rfl, ha⟩ := List.map_eq_singleton_iff.1 has
  exact then_ a ha

theorem many_last {n : γ → δ} {q : Reader (Option γ)} {c : δ} {g : List γ → Reader α} {w : Token}
    {k₁ : Kind → Prop} (item : Reads (Option.map n) q (w :: ws) (some c) k₁) (first : k₁ w.kind)
    (after : ∀ x, k x → k₁ x) (stop : Declines q k)
    (then_ : ∀ a, n a = c → Reads m (g [a]) [] b k) :
    Reads m (Reader.many q >>= g) (w :: ws) b k := by
  have both := many_one item first after stop (fun _ hx => hx) then_
  rwa [List.append_nil] at both

theorem many_none {p : Reader (Option γ)} {g : List γ → Reader α} (stop : Declines p d)
    (next : Next d ws k) (h : Reads m (g []) ws b k) : Reads m (Reader.many p >>= g) ws b k := by
  refine bind (u := []) (many (.nil (m := id) (fun _ hx => hx) stop)) next fun as has => ?_
  obtain rfl : as = [] := by simpa using has
  exact h

theorem declines {p : Reader (Option α)} (h : Reads id p [] none d) : Declines p d := by
  intro f more hf
  obtain ⟨a, rfl, e⟩ := h [] f more rfl hf
  exact e

theorem take?_declines (k' : Kind) : Declines (Reader.take? k') (· ≠ k') := by
  have none_ : Reads id (Reader.take? k' >>= Pure.pure) [] none (· ≠ k') :=
    take?_not (fun _ hx => hx) (.pure rfl)
  rw [bind_pure] at none_
  exact declines none_

theorem of_declines {p : Reader (Option α)} (h : Declines p d) :
    Reads (Option.map m) p [] none d := by
  intro ts f more same hf
  obtain rfl := List.map_eq_nil_iff.1 same
  exact ⟨none, rfl, h f more hf⟩

theorem skipNewlines {g : Unit → Reader α} (next : Next (· ≠ .newline) ws k)
    (h : Reads m (g ()) ws b k) : Reads m (Reader.skipNewlines >>= g) ws b k := by
  rw [Reader.skipNewlines]
  exact discard (many_none (take?_declines .newline) next h)

theorem check_quiet (t : Token) (ts : List Token) :
    Reader.check k' (Cursor.quiet (t :: ts)) = (t.kind == k', Cursor.quiet (t :: ts)) := by
  rw [Reader.check, bind_run, peek_quiet]
  rfl

theorem atBlockEnd {g : Bool → Reader α} {r : Bool}
    (next : Next (fun x => (x == .dedent || x == .endOfFile) = r) ws k)
    (h : Reads m (g r) ws b k) : Reads m (Reader.atBlockEnd >>= g) ws b k := by
  refine look (P := (· = r)) ?_ fun s hs => hs ▸ h
  intro ts f more same hf
  obtain ⟨x, rest, whole, known⟩ := split_at ts f more
  have here : (x.kind == .dedent || x.kind == .endOfFile) = r := known (same ▸ next) hf
  refine ⟨_, here, ?_⟩
  rw [whole]
  rw [Reader.atBlockEnd, bind_run, check_quiet, bind_run, check_quiet]
  rfl

def Opens (x : Kind) : Prop := x ≠ .newline ∧ (x == .dedent || x == .endOfFile) = false

theorem lines {line : Reader (List α)} (items : List (List Token × List β))
    {after : Kind → Prop} (each : ∀ x ∈ items, Reads (List.map m) line x.1 x.2 after)
    (first : ∀ x ∈ items, ∃ w ws, x.1 = w :: ws ∧ after w.kind ∧ Opens w.kind)
    (last : after .dedent) :
    Reads (List.map m) (Reader.lines line) (items.flatMap (·.1) ++ [.dedent])
      (items.flatMap (·.2)) k := by
  have rows : Items (List.map m) (do
      Reader.skipNewlines
      if ← Reader.atBlockEnd then return none else return some (← line)) items after
      (· = .dedent) := by
    refine ⟨fun x hx => ?_, fun x hx => ?_, fun x hx => hx ▸ last, declines ?_⟩
    · obtain ⟨w, ws, e, -, opens⟩ := first x hx
      have here := each x hx
      rw [e] at here ⊢
      refine skipNewlines opens.1 (atBlockEnd opens.2 ?_)
      rw [if_neg (by simp)]
      exact Reads.last here (fun _ hk => hk) fun a ha => .pure (by simp [ha])
    · obtain ⟨w, ws, e, after, -⟩ := first x hx
      exact ⟨w, ws, e, after⟩
    · refine skipNewlines (fun x hx => by simp [hx]) (atBlockEnd (r := true) ?_ (.pure rfl))
      exact fun x hx => by simp [hx]
  rw [Reader.lines]
  refine bind (many rows) rfl fun parts same => ?_
  refine discard (take? rfl (by decide) fun l => .pure ?_)
  rw [List.map_flatten, same, List.flatMap_def]

end Reads

end Reader

end StepsLang
