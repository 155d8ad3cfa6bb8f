import StepsLang.Proofs.Recovery.Silent
import StepsLang.Proofs.Token.Line

namespace StepsLang

theorem Token.Alike.trans {f : Location → Location} {t u v : Token} (h : Token.Alike f t u)
    (h' : Token.Alike id u v) : Token.Alike f t v :=
  ⟨h'.kind.trans h.kind, fun ht => (h'.eq (by rwa [h.kind])).trans (h.eq ht)⟩

theorem forall₂_alike_trans {f : Location → Location} {ts us vs : List Token}
    (h : List.Forall₂ (Token.Alike f) ts us) (h' : List.Forall₂ (Token.Alike id) us vs) :
    List.Forall₂ (Token.Alike f) ts vs := by
  induction h generalizing vs with
  | nil =>
    obtain rfl := List.forall₂_nil_left_iff.1 h'
    exact .nil
  | cons first _ ih =>
    obtain ⟨v, vs, one, more, rfl⟩ := List.forall₂_cons_left_iff.1 h'
    exact .cons (first.trans one) (ih more)

theorem forall₂_append_split {α β : Type} {r : α → β → Prop} {as bs : List α} {cs : List β}
    (h : List.Forall₂ r (as ++ bs) cs) :
    ∃ cs₁ cs₂, cs = cs₁ ++ cs₂ ∧ List.Forall₂ r as cs₁ ∧ List.Forall₂ r bs cs₂ := by
  have front := List.forall₂_take as.length h
  have back := List.forall₂_drop as.length h
  rw [List.take_left] at front
  rw [List.drop_left] at back
  exact ⟨_, _, (List.take_append_drop as.length cs).symm, front, back⟩

theorem forall₂_alike_relocate (f : Location → Location) (ts : List Token) :
    List.Forall₂ (Token.Alike f) ts (ts.map (Token.relocate f)) :=
  List.forall₂_map_right_iff.2 (List.forall₂_same.2 fun t _ => t.alike_relocate f)

theorem kinds_alike {f : Location → Location} {ts us : List Token}
    (h : List.Forall₂ (Token.Alike f) ts us) : us.map (·.kind) = ts.map (·.kind) := by
  induction h with
  | nil => rfl
  | cons first _ ih => rw [List.map_cons, List.map_cons, first.kind, ih]

theorem heads_alike {f : Location → Location} {ts us : List Token} {p : Kind → Prop}
    (h : List.Forall₂ (Token.Alike f) ts us) (all : ∀ t ∈ ts.head?, p t.kind) :
    ∀ u ∈ us.head?, p u.kind := by
  intro u hu
  cases h with
  | nil => cases hu
  | cons first _ =>
    obtain rfl := Option.some.inj hu
    exact first.kind ▸ all _ rfl

theorem heads_append {p : α → Prop} {as bs : List α} (h : ∀ a ∈ as.head?, p a)
    (h' : ∀ b ∈ bs.head?, p b) : ∀ a ∈ (as ++ bs).head?, p a := by
  cases as with
  | nil => exact h'
  | cons a as => exact h

theorem after_alike {f : Location → Location} {ts us : List Token}
    (h : List.Forall₂ (Token.Alike f) ts us) (x : Place) : x.after us = x.after ts := by
  induction h generalizing x with
  | nil => rfl
  | cons first _ ih => simp only [Place.after, first.kind, ih]

namespace TokenStream

theorem count_text (x : Bytes) : (text x).count Byte.lineFeed = x.count Byte.lineFeed := by
  unfold text
  split
  · next marked =>
    obtain ⟨y, rfl⟩ := List.isPrefixOf_iff_prefix.1 marked
    have plain : byteOrderMark.count Byte.lineFeed = 0 := by decide
    rw [List.drop_left, List.count_append, plain, Nat.zero_add]
  · rfl

theorem quiet_inj {ts us : List Token} (h : quiet ts = quiet us) : ts = us := by
  rw [← tokens_quiet ts, h, tokens_quiet]

theorem ofSource_nil (file : Nat) :
    ∃ e, (ofSource file []).tokens = quiet [e] ∧ e.kind = .endOfFile :=
  by
  have made : Made file [] [] (start file []) := ⟨.refl _, rfl, .nil⟩
  exact ⟨_, made.tokens, rfl⟩

theorem ofSource_joined {file : Nat} {x y : Bytes} {zs ws : List Token} {e e' : Token}
    (hx : WholeLines x) (hy : NoComment y)
    (unmarked : x ≠ [] → y.startsWith byteOrderMark = false)
    (first : x ≠ [] → ∀ t ∈ ws.head?, t.kind ≠ .indent)
    (tx : (ofSource file x).tokens = quiet (zs ++ [e]))
    (ty : (ofSource file y).tokens = quiet (ws ++ [e'])) (he' : e'.kind = .endOfFile) :
    ∃ us nl vs e'', (ofSource file (x ++ y)).tokens = quiet (us ++ (nl ++ (vs ++ [e'']))) ∧
      List.Forall₂ (Token.Alike id) zs us ∧ (∀ n ∈ nl, n.kind = .newline) ∧ nl.length ≤ 1 ∧
      List.Forall₂ (Token.Alike (Location.down (x.count Byte.lineFeed))) ws vs ∧
      e''.kind = .endOfFile := by
  rcases eq_or_ne x [] with rfl | filled
  · obtain ⟨e₀, nothing, -⟩ := ofSource_nil file
    have none : zs ++ [e] = [] ++ [e₀] := quiet_inj (tx.symm.trans nothing)
    obtain ⟨rfl, -⟩ := List.append_inj' none rfl
    exact ⟨[], [], ws, e', ty, .nil, by simp, Nat.zero_le 1,
      List.forall₂_same.2 fun t _ => ⟨rfl, fun _ => rfl⟩, he'⟩
  · have alone := text_of_unmarked (unmarked filled)
    have both : text (x ++ y) = text x ++ text y := by rw [text_concat filled hx.ends, alone]
    have first' : ∀ h ∈ (ofSource file y).tokens.head?, h.token.kind ≠ .indent := by
      intro h hh
      rw [ty] at hh
      cases ws with
      | nil =>
        obtain rfl := Option.some.inj hh
        rw [he']
        decide
      | cons t ws =>
        obtain rfl := Option.some.inj hh
        exact first filled t rfl
    obtain ⟨ts, d, a, b, e₀, nl, ws', mine, other, all, ha, hb, -, ends⟩ :=
      ofSource_append (wholeLines_text hx) (alone.symm ▸ hy) both (silent_of_tokens tx)
        (silent_of_tokens ty) first'
    obtain ⟨rfl, -⟩ := List.append_inj' (quiet_inj (tx.symm.trans mine)) rfl
    obtain rfl := quiet_inj (other.symm.trans ty)
    rw [count_text, List.map_append] at all
    refine ⟨ts ++ List.replicate d b, nl, _, e'.relocate (Location.down (x.count Byte.lineFeed)),
      ?_, ?_, ?_, ?_, forall₂_alike_relocate _ ws, he'⟩
    · rw [all]
      simp only [List.append_assoc]
      rfl
    · refine List.rel_append (List.forall₂_same.2 fun t _ => ⟨rfl, fun _ => rfl⟩) ?_
      exact List.forall₂_iff_get.2 ⟨by simp, fun i _ _ => by
        simpa using Token.alike_dedent ha hb⟩
    · obtain rfl | ⟨-, n, rfl, kind⟩ := ends
      · simp
      · simpa using kind
    · obtain rfl | ⟨-, n, rfl, -⟩ := ends <;> simp

end TokenStream

namespace Cursor

theorem advance_base (c : Cursor) : c.advance.base = c.base := by
  unfold advance
  split
  · split <;> rfl
  · rfl

end Cursor

namespace Tandem
open Statement.Parser

/-- What is kept while a line is read on which `k` reports had been made before it began.  `x` is
the place of its first token, and `zs` are all its tokens. -/
def OnLine (x : Place) (zs : List Token) (k : Nat) (y : Place) (us : List Token) (c : Cursor) :
    Prop :=
  (c.Silent ∧ c.base = k ∧ c.reports.length ≤ k + 1) ∧
    (us = zs ∧ y = x ∨
      ∃ pre, pre ≠ [] ∧ zs = pre ++ us ∧ Place.after ⟨0, .fresh⟩ pre = some y)

/-- A place from which the first of the tokens leads to where it leads from the margin. -/
def FromMargin (x : Place) (zs : List Token) : Prop :=
  ∀ t ∈ zs.head?, Place.next ⟨0, .fresh⟩ t.kind = x.next t.kind

def single {finish : Spot} (ended : finish = .fresh ∨ finish = .closed) {tail : List Token}
    (parting : Parting finish tail) {x : Place} {zs : List Token} (margin : FromMargin x zs)
    (k : Nat) : Tandem :=
  alone ended parting (OnLine x zs k)
    (fun n h => by rwa [h.1.1.peekAt])
    (fun {y z t us c} one h => by
      rw [h.1.1.advance_eq]
      refine ⟨⟨h.1.1.advance, c.advance_base.trans h.1.2.1,
        (congrArg List.length c.advance_reports).trans_le h.1.2.2⟩, .inr ?_⟩
      obtain ⟨rfl, rfl⟩ | ⟨pre, filled, rfl, here⟩ := h.2
      · refine ⟨[t], List.cons_ne_nil _ _, rfl, ?_⟩
        rw [Place.after, margin t rfl, one]
        rfl
      · refine ⟨pre ++ [t], by simp, by simp, ?_⟩
        rw [Place.after_append, here, Option.bind_some, Place.after, one]
        rfl)
    (fun {y us c} r h => by
      obtain ⟨⟨silent, base, few⟩, place⟩ := h
      change OnLine x zs k y us (if c.base < c.reports.length then c else _)
      split
      · exact ⟨⟨silent, base, few⟩, place⟩
      · next first =>
        refine ⟨⟨silent, base, ?_⟩, place⟩
        rw [List.length_append, List.length_singleton, ← base]
        exact Nat.succ_le_succ (Nat.le_of_not_lt first))

variable {finish : Spot} {ended : finish = .fresh ∨ finish = .closed} {tail : List Token}
  {parting : Parting finish tail} {x : Place} {zs : List Token} {k : Nat}

theorem beginsLines_single {margin : FromMargin ⟨0, .inside⟩ zs} (lone : Lone zs)
    (flat : ∀ t ∈ zs.head?, t.kind ≠ .indent) :
    (single ended parting margin k).BeginsLines := by
  intro y us c e outside filled kept
  exfalso
  obtain ⟨-, ⟨rfl, rfl⟩ | ⟨pre, begun, rfl, here⟩⟩ := kept
  · exact outside rfl
  · refine filled (lone.ended pre us y rfl begun here (Nat.le_zero.1 ?_) outside)
    refine Place.depth_after (x := ⟨0, .fresh⟩) (fun t ht => ?_) here
    obtain ⟨u, pre, rfl⟩ := List.exists_cons_of_ne_nil begun
    rcases List.mem_cons.1 ht with rfl | ht
    · exact flat t rfl
    · exact lone.flat t (List.mem_append_left _ ht)

theorem exists_margin (ended : finish = .fresh ∨ finish = .closed) (parting : Parting finish tail)
    (k : Nat) {t : Token} {ts : List Token} (lone : Lone (t :: ts))
    (opens : t.kind.isContent = true ∨ t.kind = .indent) :
    ∃ x : Place, x.depth = 0 ∧ ∃ margin : FromMargin x (t :: ts),
      t.kind = .indent ∨ (single ended parting margin k).BeginsLines := by
  rcases opens with content | block
  · have margin : FromMargin ⟨0, .inside⟩ (t :: ts) := by
      rintro u hu
      obtain rfl := Option.some.inj hu
      rw [Place.next_content content, Place.next_content content]
    refine ⟨⟨0, .inside⟩, rfl, margin, .inr (beginsLines_single lone fun u hu => ?_)⟩
    obtain rfl := Option.some.inj hu
    exact Place.ne_of_content content rfl
  · exact ⟨⟨0, .fresh⟩, rfl, fun _ _ => rfl, .inl block⟩

end Tandem

namespace Statement.Parser
open Reader Tandem

theorem statement_lone {t : Token} {ts tail : List Token} {finish : Spot} {c : Cursor}
    (lone : Lone (t :: ts)) (leads : Leads ⟨0, .fresh⟩ (t :: ts) finish)
    (next : Parting finish tail) (opens : t.kind.isContent = true ∨ t.kind = .indent)
    (silent : c.Silent) (tokens : c.rest.map (·.token) = t :: (ts ++ tail)) :
    (statement c).2.Silent ∧ (statement c).2.rest.map (·.token) = tail ∧
      (statement c).2.reports.length ≤ c.reports.length + 1 := by
  obtain ⟨x, depth, margin, hT⟩ := exists_margin leads.ended next c.reports.length lone opens
  have leads' : Leads x (t :: ts) finish := by
    refine ⟨?_, leads.ended⟩
    rw [Place.after, ← margin t rfl]
    exact leads.after
  have begun : (single leads.ended next margin c.reports.length).Beside x (t :: ts)
      { c with base := c.reports.length } { c with base := c.reports.length } :=
    beside_alone leads' tokens ⟨⟨silent, rfl, Nat.le_succ _⟩, .inl ⟨rfl, rfl⟩⟩
  obtain ⟨h, rest, here, -⟩ := List.map_eq_cons_iff.1 tokens
  have bound : (t :: ts).length + 1 - 1 ≤ rest.length := by
    have count := congrArg List.length tokens
    have some := List.length_pos_iff.2 next.filled
    simp only [here, List.length_map, List.length_cons, List.length_append] at count ⊢
    omega
  obtain ⟨p, q, split, -, moves⟩ := dispatch_eq (x := x) (n := (t :: ts).length + 1)
    (hT.imp_right fun hT => ⟨hT, nested_lines hT bound bound⟩) opens
  have read : statement c = p { c with base := c.reports.length } :=
    (congrArg (fun bound => nested bound c) here).trans (congrFun split c)
  obtain ⟨y, us, -, out, less, there⟩ := moves (Nat.lt_succ_self _) ⟨rfl, ts, rfl⟩ begun
  obtain ⟨⟨silent', -, few⟩, place⟩ := there.kept
  have done : us = [] := by
    obtain ⟨rfl, -⟩ | ⟨pre, begun, whole, passed⟩ := place
    · exact absurd less (Nat.not_succ_le_self _)
    · exact lone.ended pre us y whole begun passed (out.1.trans depth) out.not_inside
  subst done
  rw [read]
  exact ⟨silent', there.left, few⟩

theorem round_lone {zs tail : List Token} {finish : Spot} {c : Cursor} (filled : zs ≠ [])
    (lone : Lone zs) (leads : Leads ⟨0, .fresh⟩ zs finish) (next : Parting finish tail)
    (hc : c.rest = TokenStream.quiet (zs ++ tail)) :
    ∃ p d, round c = (some p, d) ∧ p.length ≤ 1 ∧ d.rest = TokenStream.quiet tail ∧
      d.reports.length ≤ c.reports.length + 1 := by
  obtain ⟨t, ts, rfl⟩ := List.exists_cons_of_ne_nil filled
  obtain ⟨x₁, one, -⟩ := Option.bind_eq_some_iff.1 leads.after
  have line : t.kind ≠ .newline := fun kind => nomatch kind ▸ one
  have opens := Place.next_opens line (Place.ne_dedent rfl one) one
  have silent := Cursor.silent_quiet hc
  have tokens : c.rest.map (·.token) = t :: (ts ++ tail) := by
    rw [hc, TokenStream.tokens_quiet]
    rfl
  obtain ⟨silent', rest, few⟩ := statement_lone lone leads next opens silent tokens
  exact ⟨_, _, round_silent silent tokens opens, Option.length_toList_le,
    Cursor.quiet_of_silent silent' rest, few⟩

theorem rounds_lone {zs tail : List Token} {finish : Spot} {c : Cursor} (lone : Lone zs)
    (leads : Leads ⟨0, .fresh⟩ zs finish) (next : zs ≠ [] → Parting finish tail)
    (hc : c.rest = TokenStream.quiet (zs ++ tail)) :
    ∃ ps d, Rounds ps c d ∧ ps.length ≤ zs.length ∧ ps.flatten.length ≤ 1 ∧
      d.rest = TokenStream.quiet tail ∧ d.reports.length ≤ c.reports.length + 1 := by
  rcases eq_or_ne zs [] with rfl | filled
  · exact ⟨[], c, .refl c, Nat.le_refl 0, Nat.zero_le 1, hc, Nat.le_succ _⟩
  · obtain ⟨p, d, first, few, rest, reports⟩ := round_lone filled lone leads (next filled) hc
    exact ⟨[p], d, .take first (.refl d), List.length_pos_iff.2 filled, by simpa using few, rest,
      reports⟩

theorem rounds_newlines {nl more : List Token} {c : Cursor} (line : ∀ n ∈ nl, n.kind = .newline)
    (filled : more ≠ []) (hc : c.rest = TokenStream.quiet (nl ++ more)) :
    ∃ d, Rounds [] c d ∧ d.rest = TokenStream.quiet more ∧ d.reports = c.reports := by
  induction nl generalizing c with
  | nil => exact ⟨c, .refl c, hc, rfl⟩
  | cons n nl ih =>
    obtain ⟨kind, line⟩ := List.forall_mem_cons.1 line
    have silent := Cursor.silent_quiet hc
    have tokens : c.rest.map (·.token) = n :: (nl ++ more) := by
      rw [hc, TokenStream.tokens_quiet]
      rfl
    have passed : Reader.advance c = (n, c.advance) := by
      refine Prod.ext ((peekAt_eq 0 c).trans ?_) silent.advance_eq
      rw [tokens]
      rfl
    have taken : take? .newline c = (some n, c.advance) := by
      rw [take?, bind_run, check_run tokens, silent.hear, kind, beq_self_eq_true, if_pos rfl,
        bind_run, passed]
      rfl
    have rest : c.advance.rest = TokenStream.quiet (nl ++ more) :=
      Cursor.quiet_of_silent silent.advance
        (Cursor.tokens_advance (by rw [kind]; decide) (by simp [filled]) tokens)
    obtain ⟨d, rounds, last, reports⟩ := ih line rest
    refine ⟨d, .line (round_line taken ?_) rounds, last, reports.trans c.advance_reports⟩
    rw [rest, hc]
    simp [TokenStream.quiet]

end Statement.Parser

theorem Lone.alike {f : Location → Location} {zs us : List Token} (h : Lone zs)
    (same : List.Forall₂ (Token.Alike f) zs us) : Lone us := by
  refine ⟨fun pre post y split filled here outer spot => ?_, fun u hu => ?_⟩
  · have front := List.forall₂_take pre.length same
    have back := List.forall₂_drop pre.length same
    rw [split, List.take_left] at front
    rw [split, List.drop_left] at back
    have none := h.ended _ _ y (List.take_append_drop pre.length zs).symm
      (fun none => filled (List.forall₂_nil_left_iff.1 (none ▸ front)))
      ((after_alike front _).symm.trans here) outer spot
    exact List.forall₂_nil_left_iff.1 (none ▸ back)
  · have kind : u.kind ∈ us.tail.map (·.kind) := List.mem_map_of_mem hu
    rw [List.map_tail, kinds_alike same, ← List.map_tail] at kind
    obtain ⟨t, ht, kind⟩ := List.mem_map.1 kind
    exact kind ▸ h.flat t ht

theorem Leads.rest {x : Place} {zs ws : List Token} {s finish : Spot}
    (h : Leads x (zs ++ ws) finish) (first : x.after zs = some ⟨0, s⟩) :
    Leads ⟨0, s⟩ ws finish := by
  refine ⟨?_, h.ended⟩
  have all := h.after
  rwa [Place.after_append, first] at all

theorem Leads.spot {x : Place} {zs : List Token} {finish : Spot} (h : Leads x zs finish) :
    ∀ t ∈ zs.getLast?, t.kind.spot = finish := by
  intro t ht
  obtain ⟨ts, rfl⟩ := List.getLast?_eq_some_iff.1 ht
  have last := h.after
  rw [Place.after_append] at last
  obtain ⟨y, -, one⟩ := Option.bind_eq_some_iff.1 last
  obtain ⟨z, one, same⟩ := Option.bind_eq_some_iff.1 one
  obtain rfl := Option.some.inj same
  exact (Place.spot_next one).symm

theorem Leads.parting {s finish : Spot} {zs : List Token} {e : Token} (h : Leads ⟨0, s⟩ zs finish)
    (he : e.kind = .endOfFile) (plain : ∀ t ∈ zs.head?, t.kind ∉ Statement.Parser.strays) :
    Parting s (zs ++ [e]) := by
  cases zs with
  | nil => exact (parting_last he).of_fresh
  | cons t zs =>
    obtain ⟨y, one, -⟩ := Option.bind_eq_some_iff.1 h.after
    refine ⟨List.cons_ne_nil _ _, fun u hu => ?_, fun fresh u hu line => ?_⟩
    · obtain rfl := Option.some.inj hu
      intro there
      have stray := plain t rfl
      have closed := Place.ne_dedent rfl one
      simp only [attached, Statement.Parser.strays, List.mem_cons] at there stray
      tauto
    · obtain rfl := Option.some.inj hu
      rw [line, fresh] at one
      cases one

namespace TokenStream
open Scanner

theorem oneLine_text {x : Bytes} (h : OneLine x) : OneLine (text x) := by
  unfold text
  split
  · exact h.drop _
  · exact h

theorem leads_of_tokens {file : Nat} {x : Bytes} {ts : List Token} {e : Token}
    (plain : NoComment (text x)) (tokens : (ofSource file x).tokens = quiet (ts ++ [e])) :
    ∃ finish, Leads ⟨0, .fresh⟩ ts finish := by
  obtain ⟨zs, e', finish, all, -, leads⟩ := leads_ofSource file plain
  rw [tokens, tokens_quiet] at all
  exact ⟨finish, (List.append_inj' all rfl).1 ▸ leads⟩

theorem leads_of_silent {file : Nat} {x : Bytes} (plain : NoComment (text x))
    (silent : (ofSource file x).reports = []) :
    ∃ zs e finish, (ofSource file x).tokens = quiet (zs ++ [e]) ∧ e.kind = .endOfFile ∧
      Leads ⟨0, .fresh⟩ zs finish := by
  obtain ⟨ts, t, made⟩ := made_of_silent silent
  obtain ⟨zs, e, finish, tokens, last, leads⟩ := leads_ofSource file plain
  rw [made.tokens, tokens_quiet] at tokens
  exact ⟨zs, e, finish, tokens ▸ made.tokens, last, leads⟩

/-- The tokens of a line between two texts, part by part, with the ends of lines between the parts.
Where a part ends, what follows belongs to no statement before. -/
theorem ofSource_around {file : Nat} {x l y : Bytes} {zs₁ zs₂ zs₃ : List Token} {e₁ e₂ e₃ : Token}
    {f₁ f₂ : Spot} (hx : WholeLines x) (hl : WholeLines l) (hy : NoComment y)
    (unmarked : x ≠ [] → l.startsWith byteOrderMark = false)
    (unmarked' : y.startsWith byteOrderMark = false)
    (t₁ : (ofSource file x).tokens = quiet (zs₁ ++ [e₁]))
    (t₂ : (ofSource file l).tokens = quiet (zs₂ ++ [e₂]))
    (t₃ : (ofSource file y).tokens = quiet (zs₃ ++ [e₃]))
    (last₂ : e₂.kind = .endOfFile) (last₃ : e₃.kind = .endOfFile)
    (leads₁ : Leads ⟨0, .fresh⟩ zs₁ f₁) (leads₂ : Leads ⟨0, .fresh⟩ zs₂ f₂)
    (own₂ : x ≠ [] → ∀ t ∈ zs₂.head?, t.kind ∉ Statement.Parser.strays)
    (own₃ : ∀ t ∈ zs₃.head?, t.kind ∉ Statement.Parser.strays) :
    ∃ us nl vs nl' ws e,
      (ofSource file (x ++ l ++ y)).tokens = quiet (us ++ (nl ++ (vs ++ (nl' ++ (ws ++ [e]))))) ∧
      e.kind = .endOfFile ∧ (∀ n ∈ nl, n.kind = .newline) ∧ (∀ n ∈ nl', n.kind = .newline) ∧
      List.Forall₂ (Token.Alike id) zs₁ us ∧
      List.Forall₂ (Token.Alike (Location.down (x.count Byte.lineFeed))) zs₂ vs ∧
      List.Forall₂ (Token.Alike (Location.down ((x ++ l).count Byte.lineFeed))) zs₃ ws ∧
      (x ≠ [] → Parting f₁ (nl ++ (vs ++ (nl' ++ (ws ++ [e]))))) ∧
      (vs ≠ [] → Parting f₂ (nl' ++ (ws ++ [e]))) := by
  obtain ⟨us, nl, vs, e₄, t₄, a₁, n₁, -, a₂, -⟩ := ofSource_joined hx hl.plain unmarked
    (fun filled t ht kind => own₂ filled t ht (kind ▸ by decide)) t₁ t₂ last₂
  rw [← List.append_assoc nl, ← List.append_assoc us] at t₄
  obtain ⟨us', nl', ws, e, t₅, same, n₂, -, a₃, last⟩ := ofSource_joined (hx.append hl) hy
    (fun _ => unmarked') (fun _ t ht kind => own₃ t ht (kind ▸ by decide)) t₄ t₃ last₃
  obtain ⟨us', rest, rfl, b₁, more⟩ := forall₂_append_split same
  obtain ⟨nl₁, vs', rfl, b₂, b₃⟩ := forall₂_append_split more
  have c₁ := forall₂_alike_trans a₁ b₁
  have c₂ := forall₂_alike_trans a₂ b₃
  have n₁ : ∀ n ∈ nl₁, n.kind = .newline := by
    intro n hn
    have kind := List.mem_map_of_mem (f := (·.kind)) hn
    rw [kinds_alike b₂] at kind
    obtain ⟨m, hm, kind⟩ := List.mem_map.1 kind
    exact kind ▸ n₁ m hm
  have line : ∀ {nl : List Token}, (∀ n ∈ nl, n.kind = .newline) →
      ∀ n ∈ nl.head?, n.kind ∉ Statement.Parser.strays := fun hn n hm =>
    hn n (List.mem_of_mem_head? hm) ▸ by decide
  -- The places where the parts begin.
  obtain ⟨f₄, leads₄⟩ := leads_of_tokens (plain_text (hl.plain.append hx)) t₄
  have leads₄ : Leads ⟨0, .fresh⟩ (us' ++ (nl₁ ++ vs')) f₄ :=
    ⟨(after_alike same _).trans leads₄.after, leads₄.ended⟩
  have whole := t₅
  rw [← List.append_assoc nl', ← List.append_assoc] at whole
  obtain ⟨f₅, leads₅⟩ := leads_of_tokens (plain_text (hy.append (hx.append hl))) whole
  have own : ∀ t ∈ (nl' ++ ws).head?, t.kind ∉ Statement.Parser.strays :=
    heads_append (line n₂) (heads_alike (p := (· ∉ Statement.Parser.strays)) a₃ own₃)
  have next := (leads₅.rest leads₄.after).parting last own
  rw [List.append_assoc us', List.append_assoc nl₁] at t₅
  rw [List.append_assoc] at next
  refine ⟨us', nl₁, vs', nl', ws, e, t₅, last, n₁, n₂, c₁, c₂, a₃, fun filled => ?_,
    fun filled => ?_⟩
  · rw [List.append_assoc us'] at leads₅
    have others := heads_alike (p := (· ∉ Statement.Parser.strays)) c₂ (own₂ filled)
    have next := (leads₅.rest ((after_alike c₁ _).trans leads₁.after)).parting last
      (heads_append (heads_append (line n₁) others) own)
    rwa [List.append_assoc, List.append_assoc, List.append_assoc] at next
  · have leads : Leads ⟨0, .fresh⟩ vs' f₂ := ⟨(after_alike c₂ _).trans leads₂.after, leads₂.ended⟩
    have here := List.getLast?_eq_some_getLast filled
    have there : (us' ++ (nl₁ ++ vs')).getLast? = some (vs'.getLast filled) := by
      rw [List.getLast?_append, List.getLast?_append, here]
      rfl
    rwa [← leads.spot _ here, leads₄.spot _ there]

end TokenStream

namespace Parsed
open Statement.Parser Tandem TokenStream Scanner

variable {file : Nat} {x y line : Bytes} {zs ws : List Token} {e : Token} {finish : Spot}

theorem start_quiet {ts : List Token} (h : (ofSource file x).tokens = quiet ts) :
    start file x = Cursor.ofStream (ofSource file x) :=
  Reader.hear_of_quiet (c := Cursor.ofStream (ofSource file x)) h 1

theorem start_rest {ts : List Token} (h : (ofSource file x).tokens = quiet ts) :
    (start file x).rest = quiet ts := by
  rw [start_quiet h]
  exact h

theorem head_not_stray (quiet : (statements file x).reports = [])
    (tokens : (ofSource file x).tokens = TokenStream.quiet (zs ++ [e])) (he : e.kind = .endOfFile)
    (leads : Leads ⟨0, .fresh⟩ zs finish) : ∀ t ∈ zs.head?, t.kind ∉ strays := by
  intro t ht
  cases zs with
  | nil => cases ht
  | cons u zs =>
    obtain rfl := Option.some.inj ht
    have here := start_rest tokens
    exact not_stray (Cursor.silent_quiet here) (by rw [here, tokens_quiet]) leads he quiet

theorem statements_nil : (statements file []).result = [] := by
  obtain ⟨e, tokens, he⟩ := ofSource_nil file
  have here := start_rest tokens
  rw [statements_of_rounds (.refl _) (round_last (by rw [here, tokens_quiet]) he)
    (by rw [here]; exact Nat.zero_lt_one)]
  rfl

theorem rounds_before {us tail : List Token} {c : Cursor} (quiet : (statements file x).reports = [])
    (tokens : (ofSource file x).tokens = TokenStream.quiet (zs ++ [e])) (he : e.kind = .endOfFile)
    (leads : Leads ⟨0, .fresh⟩ zs finish) (alike : List.Forall₂ (Token.Alike id) zs us)
    (next : x ≠ [] → Parting finish tail) (hc : c.rest = TokenStream.quiet (us ++ tail)) :
    ∃ ps d, Rounds ps c d ∧ ps.length ≤ us.length ∧ d.rest = TokenStream.quiet tail ∧
      d.reports = c.reports ∧ ps.flatten = (statements file x).result := by
  rcases eq_or_ne x [] with rfl | filled
  · obtain ⟨e₀, nothing, -⟩ := ofSource_nil file
    have none : zs ++ [e] = [] ++ [e₀] := quiet_inj (tokens.symm.trans nothing)
    obtain ⟨rfl, -⟩ := List.append_inj' none rfl
    obtain rfl := List.forall₂_nil_left_iff.1 alike
    exact ⟨[], c, .refl c, Nat.le_refl 0, hc, rfl, statements_nil.symm⟩
  · obtain ⟨ps, d, rounds, count, rest, reports, all⟩ :=
      rounds_silent quiet tokens he leads alike (next filled) hc
    exact ⟨ps, d, rounds, alike.length_eq ▸ count, rest, reports, by
        rw [all, List.map_id'' Statement.relocate_id]⟩

theorem line_not_stray (unmarked : line.startsWith byteOrderMark = false)
    (margin : ∀ b ∈ line.head?, b ≠ Byte.space ∧ b ≠ Byte.tab)
    (flat : (∀ b ∈ (text line).head?, b ≠ Byte.space ∧ b ≠ Byte.tab) →
      ∀ t ∈ zs.head?, t.kind ≠ .indent)
    (tokens : (ofSource file line).tokens = quiet (zs ++ [e]))
    (opens : ∀ h ∈ (ofSource file line).tokens.head?,
      h.token.kind ∉ [.otherwise, .otherwiseIf, .ifUnsuccessful, .thenContinue]) :
    ∀ t ∈ zs.head?, t.kind ∉ strays := by
  intro t ht
  have word := opens ⟨[], t⟩ (by
    rw [tokens, TokenStream.quiet, List.head?_map, List.head?_append, Option.mem_def.1 ht]
    rfl)
  have outer := flat (by rwa [text_of_unmarked unmarked]) t ht
  exact fun stray => (List.mem_cons.1 stray).elim outer word

/-- One line costs at most one report, and the lines around it are read as if it were not there. -/
theorem statements_around {before line after body : Bytes}
    (quiet : (statements file before).reports = []) (quiet' : (statements file after).reports = [])
    (ends : ∀ b ∈ before.getLast?, b = Byte.lineFeed)
    (plain : NoComment before) (plain' : NoComment line) (plain'' : NoComment after)
    (unmarked : after.startsWith byteOrderMark = false)
    (split : line = body ++ [Byte.lineFeed]) (one : Byte.lineFeed ∉ body)
    (margin : ∀ b ∈ line.head?, b ≠ Byte.space ∧ b ≠ Byte.tab)
    (lexes : (ofSource file line).reports = [])
    (unmarked' : before ≠ [] → line.startsWith byteOrderMark = false)
    (opens : ∀ h ∈ (ofSource file line).tokens.head?,
      h.token.kind ∉ [.otherwise, .otherwiseIf, .ifUnsuccessful, .thenContinue]) :
    (statements file (before ++ line ++ after)).reports.length ≤ 1 ∧
      ∃ mine, mine.length ≤ 1 ∧ (statements file (before ++ line ++ after)).result =
        (statements file before).result ++ mine ++ (statements file after).result.map
          (Statement.relocate (Location.down ((before ++ line).count Byte.lineFeed))) := by
  have hx : WholeLines before := ⟨ends, plain⟩
  have hl : WholeLines line := ⟨by simp [split], plain'⟩
  have alone : OneLine line := split ▸ oneLine_concat one
  obtain ⟨zs₁, e₁, f₁, t₁, last₁, leads₁⟩ := leads_of_silent (plain_text plain)
    (silent_of_statements (plain_text plain) quiet)
  obtain ⟨zs₂, e₂, f₂, t₂, last₂, leads₂⟩ := leads_of_silent (plain_text plain') lexes
  obtain ⟨zs₃, e₃, f₃, t₃, last₃, leads₃⟩ := leads_of_silent (plain_text plain'')
    (silent_of_statements (plain_text plain'') quiet')
  obtain ⟨lone, flat⟩ := lone_ofSource (wholeLines_text hl) (oneLine_text alone) lexes t₂ leads₂
  have own (filled : before ≠ []) : ∀ t ∈ zs₂.head?, t.kind ∉ strays :=
    line_not_stray (unmarked' filled) margin flat t₂ opens
  obtain ⟨us, nl, vs, nl', ws, e, tokens, last, n₁, n₂, a₁, a₂, a₃, next₁, next₂⟩ :=
    ofSource_around hx hl plain'' unmarked' unmarked t₁ t₂ t₃ last₂ last₃ leads₁ leads₂ own
      (head_not_stray quiet' t₃ last₃ leads₃)
  -- The loop goes through the parts one after the other.
  have begins := start_rest tokens
  obtain ⟨ps₁, d₁, r₁, k₁, rest₁, rep₁, all₁⟩ :=
    rounds_before quiet t₁ last₁ leads₁ a₁ next₁ begins
  obtain ⟨d₂, r₂, rest₂, rep₂⟩ := rounds_newlines n₁ (by simp) rest₁
  obtain ⟨ps₃, d₃, r₃, k₃, few, rest₃, rep₃⟩ := rounds_lone (lone.alike a₂)
    ⟨(after_alike a₂ _).trans leads₂.after, leads₂.ended⟩ next₂ rest₂
  obtain ⟨d₄, r₄, rest₄, rep₄⟩ := rounds_newlines n₂ (by simp) rest₃
  obtain ⟨ps₅, d₅, r₅, k₅, rest₅, rep₅, all₅⟩ :=
    rounds_silent quiet' t₃ last₃ leads₃ a₃ (parting_last last).of_fresh rest₄
  have bound : (ps₁ ++ ([] ++ (ps₃ ++ ([] ++ ps₅)))).length <
      (start file (before ++ line ++ after)).rest.length := by
    rw [a₃.length_eq] at k₅
    simp only [begins, TokenStream.quiet, List.length_map, List.length_append,
      List.length_singleton, List.length_nil]
    omega
  have all := statements_of_rounds (r₁.trans (r₂.trans (r₃.trans (r₄.trans r₅))))
    (round_last (by rw [rest₅, tokens_quiet]) last) bound
  rw [(Cursor.silent_quiet rest₅).hear] at all
  rw [all]
  refine ⟨?_, ps₃.flatten, few, ?_⟩
  · have none : (start file (before ++ line ++ after)).reports = [] := by
      rw [start_quiet tokens]
      rfl
    rw [rep₂, rep₁, none] at rep₃
    dsimp only
    rwa [rep₅, rep₄]
  · simp only [List.flatten_append, all₁, all₅, List.append_assoc, List.nil_append]

theorem statements_around_set :
    let before : Bytes := "if true\n    display 1\n"
    let line : Bytes := "set x too 5\n"
    let after : Bytes := "display 2\n"
    (statements 0 before).reports = [] ∧ (statements 0 after).reports = [] ∧
      (statements 0 (before ++ line ++ after)).reports.length ≤ 1 ∧
      ∃ mine, mine.length ≤ 1 ∧ (statements 0 (before ++ line ++ after)).result =
        (statements 0 before).result ++ mine ++ (statements 0 after).result.map
          (Statement.relocate (Location.down ((before ++ line).count Byte.lineFeed))) := by
  intro before line after
  have quiet : (statements 0 before).reports = [] := by decide +kernel
  have quiet' : (statements 0 after).reports = [] := by decide +kernel
  have line' : line = ("set x too 5" : Bytes) ++ [Byte.lineFeed] := by decide
  exact ⟨quiet, quiet', statements_around quiet quiet' (by decide +kernel) (by decide +kernel)
    (by decide +kernel) (by decide +kernel) (by decide +kernel) line' (by decide +kernel)
    (by decide +kernel) (by decide +kernel) (by decide +kernel) (by decide +kernel)⟩

/-- A byte order mark is left out at the start of a text only, so a line that begins with one can be
read by itself and costs two reports behind another line. -/
theorem marked_line_costs_two :
    let before : Bytes := "display 1\n"
    let line : Bytes := byteOrderMark ++ "set x too 5\n"
    (statements 0 before).reports = [] ∧ (statements 0 []).reports = [] ∧
      (∀ b ∈ before.getLast?, b = Byte.lineFeed) ∧
      NoComment before ∧ NoComment line ∧ NoComment [] ∧
      (∃ body, line = body ++ [Byte.lineFeed] ∧ Byte.lineFeed ∉ body) ∧
      (∀ b ∈ line.head?, b ≠ Byte.space ∧ b ≠ Byte.tab) ∧ (ofSource 0 line).reports = [] ∧
      (∀ h ∈ (ofSource 0 line).tokens.head?,
        h.token.kind ∉ [.otherwise, .otherwiseIf, .ifUnsuccessful, .thenContinue]) ∧
      (statements 0 (before ++ line ++ [])).reports.map (·.code) = ["E101", "E202"] := by
  intro before line
  have body : ∃ body, line = body ++ [Byte.lineFeed] ∧ Byte.lineFeed ∉ body :=
    ⟨byteOrderMark ++ "set x too 5", by decide, by decide⟩
  exact ⟨by decide +kernel, by decide +kernel, by decide +kernel, by decide +kernel,
    by decide +kernel, by decide +kernel, body, by decide +kernel, by decide +kernel,
    by decide +kernel, by decide +kernel⟩

end Parsed

end StepsLang
