import StepsLang.Proofs.Recovery.Rounds

namespace StepsLang

theorem Parting.of_fresh {finish : Spot} {ts : List Token} (h : Parting .fresh ts) :
    Parting finish ts :=
  ⟨h.filled, h.apart, fun _ => h.line rfl⟩

theorem parting_last {e : Token} (h : e.kind = .endOfFile) : Parting .fresh [e] := by
  refine ⟨List.cons_ne_nil _ _, fun t ht => ?_, fun _ t ht => ?_⟩
  all_goals
    obtain rfl := Option.some.inj ht
    rw [h]
    decide

namespace Cursor

def Silent (c : Cursor) : Prop := ∀ x ∈ c.rest, x.reports = []

theorem advance_rest (c : Cursor) : c.advance.rest <:+ c.rest := by
  unfold advance
  split
  · next h =>
    split
    · exact List.suffix_refl _
    · rw [h]
      exact List.suffix_cons _ _
  · exact List.suffix_refl _

theorem advance_reports (c : Cursor) : c.advance.reports = c.reports := by
  unfold advance
  split
  · split <;> rfl
  · rfl

namespace Silent

variable {c : Cursor}

theorem hear (h : c.Silent) (n : Nat) : c.hear n = c :=
  if_pos (List.all_eq_true.2 fun x hx => List.isEmpty_iff.2 (h x (List.mem_of_mem_take hx)))

theorem peekAt (h : c.Silent) (n : Nat) : (Reader.peekAt n c).2 = c := h.hear (n + 1)

theorem advance_eq (h : c.Silent) : (Reader.advance c).2 = c.advance :=
  congrArg Cursor.advance (h.hear 1)

theorem advance (h : c.Silent) : c.advance.Silent := fun x hx => h x (c.advance_rest.subset hx)

end Silent

theorem silent_quiet {c : Cursor} {ts : List Token} (h : c.rest = TokenStream.quiet ts) :
    c.Silent := by
  intro x hx
  rw [h] at hx
  obtain ⟨t, -, rfl⟩ := List.mem_map.1 hx
  rfl

theorem quiet_of_silent {c : Cursor} {ts : List Token} (h : c.Silent)
    (same : c.rest.map (·.token) = ts) : c.rest = TokenStream.quiet ts := by
  rw [← same, TokenStream.quiet, List.map_map]
  conv_lhs => rw [← List.map_id c.rest]
  exact List.map_congr_left fun x hx => by rw [Function.comp, ← h x hx]; rfl

end Cursor

namespace Tandem

def alone {finish : Spot} (ended : finish = .fresh ∨ finish = .closed) {tail : List Token}
    (parting : Parting finish tail) (Kept : Place → List Token → Cursor → Prop)
    (peekAt : ∀ {x zs c} n, Kept x zs c → Kept x zs (Reader.peekAt n c).2)
    (advance : ∀ {x y t zs c}, x.next t.kind = some y → Kept x (t :: zs) c →
      Kept y zs (Reader.advance c).2)
    (report : ∀ {x zs c} r, Kept x zs c → Kept x zs (Reader.report r c).2) : Tandem where
  move := id
  finish := finish
  ended := ended
  left := tail
  right := tail
  onLeft := parting
  onRight := parting
  Kept x zs c _ := Kept x zs c
  peekAt := peekAt
  advance := advance
  report r _ := report r

/-- A reading that has heard of `k` faults, or is going to. -/
def hearing {finish : Spot} (ended : finish = .fresh ∨ finish = .closed) {tail : List Token}
    (parting : Parting finish tail) (k : Nat) : Tandem :=
  alone ended parting (fun _ _ c => k ≤ c.faults)
    (fun {_ _ c} n h => Nat.le_trans h (Nat.le_of_eq (c.faults_hear (n + 1)).symm))
    (fun {_ _ _ _ c} _ h => Nat.le_trans h (Nat.le_of_eq c.faults_advance.symm))
    (fun {_ _ c} r h => Nat.le_trans h (c.faults_report r))

theorem beside_alone {finish : Spot} {ended : finish = .fresh ∨ finish = .closed}
    {tail : List Token} {parting : Parting finish tail} {Kept : Place → List Token → Cursor → Prop}
    {peekAt advance report} {x : Place} {zs : List Token} {c : Cursor} (leads : Leads x zs finish)
    (tokens : c.rest.map (·.token) = zs ++ tail) (kept : Kept x zs c) :
    (alone ended parting Kept peekAt advance report).Beside x zs c c where
  leads := leads
  left := tokens
  right := ⟨zs, List.forall₂_same.2 fun t _ => Token.alike_relocate id t, tokens⟩
  kept := kept

theorem beginsLines_hearing {finish : Spot} {ended : finish = .fresh ∨ finish = .closed}
    {tail : List Token} {parting : Parting finish tail} {k : Nat} :
    (hearing ended parting k).BeginsLines := fun _ _ h => h

end Tandem

namespace Statement.Parser
open Reader Tandem

/-- Reading goes to the end, and everything that is wrong is reported by then. -/
theorem rounds_heard {x : Place} {zs : List Token} {finish : Spot} {e : Token} {c : Cursor}
    (leads : Leads x zs finish) (out : Outside 0 x zs) (tokens : c.rest.map (·.token) = zs ++ [e])
    (he : e.kind = .endOfFile) :
    ∃ ps c', Rounds ps c c' ∧ ps.length ≤ zs.length ∧ c'.rest.map (·.token) = [e] ∧
      c.faults ≤ (c'.hear 1).reports.length := by
  have start : (hearing leads.ended (parting_last he).of_fresh c.faults).Beside x zs c c :=
    beside_alone leads tokens (Nat.le_refl _)
  obtain ⟨ps, _, c', _, rounds, -, -, count, last⟩ := rounds_beside beginsLines_hearing start out
  have left : c'.rest.map (·.token) = [e] := last.left
  refine ⟨ps, c', rounds, count, left, Nat.le_trans last.kept ?_⟩
  obtain ⟨a, rest, here, -, none⟩ := List.map_eq_cons_iff.1 left
  obtain rfl := List.map_eq_nil_iff.1 none
  rw [Cursor.hear_one here, Cursor.faults, here]
  simp

theorem round_silent {c : Cursor} {t : Token} {ts : List Token} (silent : c.Silent)
    (tokens : c.rest.map (·.token) = t :: ts) (ht : t.kind.isContent = true ∨ t.kind = .indent) :
    round c = (some (statement c).1.toList, (statement c).2) := by
  obtain ⟨line, last, block⟩ := opens_of_kind ht
  have look := fun k => (check_run tokens k).trans (by rw [silent.hear])
  rw [round, bind_run, skipNewlines_run tokens line, silent.hear, bind_run, look,
    beq_false_of_ne last, if_neg (by simp), bind_run, skip?, bind_run, take?, bind_run, look,
    beq_false_of_ne block]
  rfl

def Objects (p : Reader Unit) (c : Cursor) : Prop :=
  ∃ rs, p c = ((), { c with reports := rs }) ∧ rs ≠ []

theorem objects_report (r : Report) (c : Cursor) : Objects (report r) c := by
  change ∃ rs, ((), if c.base < c.reports.length then c else _) = _ ∧ _
  split
  · next more => exact ⟨c.reports, rfl, List.ne_nil_of_length_pos (Nat.zero_lt_of_lt more)⟩
  · exact ⟨_, rfl, by simp⟩

theorem objects_unexpected (message : Option Bytes) {c : Cursor} (silent : c.Silent) :
    Objects (unexpected message) c := by
  rw [Objects, unexpected, bind_run, peek, silent.peekAt]
  exact objects_report _ _

theorem objects_misplacedName (t : Token) {c : Cursor} (silent : c.Silent) :
    Objects (misplacedName t) c := by
  unfold misplacedName
  split
  · exact objects_report _ _
  · exact objects_unexpected _ silent

theorem objects_misplaced (t : Token) {c : Cursor} (silent : c.Silent) :
    Objects (misplaced t) c := by
  unfold misplaced
  split
  all_goals first
    | exact objects_unexpected _ silent
    | exact objects_report _ _
    | exact objects_misplacedName t silent

def strays : List Kind := [.indent, .otherwise, .otherwiseIf, .ifUnsuccessful, .thenContinue]

theorem dispatch_stray (inner : Inner) {c : Cursor} {t : Token} {ts : List Token}
    (silent : c.Silent) (tokens : c.rest.map (·.token) = t :: ts) (ht : t.kind ∈ strays) :
    ∃ rs, rs ≠ [] ∧
      dispatch inner c = giveUp { c with reports := rs, base := c.reports.length } := by
  have begun : Cursor.Silent { c with base := c.reports.length } := silent
  obtain ⟨rs, reported, filled⟩ := objects_misplaced t begun
  refine ⟨rs, filled, ?_⟩
  have here : peek { c with base := c.reports.length } =
      (t, { c with base := c.reports.length }) := by
    refine Prod.ext ?_ (begun.peekAt 0)
    rw [peek, peekAt_eq]
    exact congrArg (fun ts : List Token => ts[0]?.getD ({} : Token)) tokens
  have other : dispatch inner c =
      (misplaced t >>= fun _ => giveUp) { c with base := c.reports.length } := by
    rw [dispatch, bind_run]
    change (peek >>= _) { c with base := c.reports.length } = _
    rw [bind_run, here]
    simp only [strays, List.mem_cons, List.not_mem_nil, or_false] at ht
    rcases ht with ht | ht | ht | ht | ht <;> simp only [ht]
  rw [other, bind_run, reported]

theorem not_stray {c : Cursor} {t e : Token} {zs : List Token} {finish : Spot}
    (silent : c.Silent) (tokens : c.rest.map (·.token) = t :: zs ++ [e])
    (leads : Leads ⟨0, .fresh⟩ (t :: zs) finish) (he : e.kind = .endOfFile)
    (quiet : (statements c).2.reports = []) : t.kind ∉ strays := by
  intro stray
  have opens : t.kind.isContent = true ∨ t.kind = .indent := by
    simp only [strays, List.mem_cons, List.not_mem_nil, or_false] at stray
    rcases stray with h | h | h | h | h <;> rw [h] <;> decide
  obtain ⟨line, last, block⟩ := opens_of_kind opens
  obtain ⟨x, rest, here, -⟩ := List.map_eq_cons_iff.1 tokens
  obtain ⟨rs, filled, given⟩ := dispatch_stray (nested rest) silent tokens stray
  have read : statement c = giveUp { c with reports := rs, base := c.reports.length } :=
    (congrArg (fun bound => nested bound c) here).trans given
  have start : (hearing leads.ended (parting_last he).of_fresh 1).Beside ⟨0, .fresh⟩ (t :: zs)
      { c with reports := rs, base := c.reports.length }
      { c with reports := rs, base := c.reports.length } :=
    beside_alone leads tokens
      (Nat.le_trans (List.length_pos_iff.2 filled) (Nat.le_add_right _ _))
  obtain ⟨y, us, -, out, less, there⟩ :=
    giveUp_broken (d := 0) (r := fun (_ _ : Option Statement) => True) trivial (Nat.lt_succ_self _)
      ⟨t, ⟨rfl, fun _ => block⟩, zs, rfl⟩ start
  obtain ⟨ps, c', rounds, count, left, heard⟩ := rounds_heard there.leads out there.left he
  have first : round c = _ := round_silent silent tokens opens
  rw [read] at first
  have long : c.rest.length = zs.length + 1 + 1 := by simpa using congrArg List.length tokens
  have less : us.length < zs.length + 1 := less
  have all := statements_of_rounds (.take first rounds) (round_last left he)
    (by rw [long, List.length_cons]; omega)
  rw [all] at quiet
  have some := Nat.le_trans there.kept heard
  rw [show (c'.hear 1).reports = [] from quiet] at some
  exact Nat.not_succ_le_zero 0 some

end Statement.Parser

namespace Tandem
open Statement.Parser

/-- A reading, and one that goes over the same statements in another text.  As long as the first one
has nothing to report, nor has the second. -/
def echo (f : Location → Location) {finish : Spot} (ended : finish = .fresh ∨ finish = .closed)
    {left right : List Token} (onLeft : Parting finish left) (onRight : Parting finish right)
    (rs : List Report) : Tandem where
  move := f
  finish := finish
  ended := ended
  left := left
  right := right
  onLeft := onLeft
  onRight := onRight
  Kept _ _ c e := c.Silent ∧ e.Silent ∧ (c.reports = [] → e.reports = rs)
  peekAt n h := by rwa [h.1.peekAt, h.2.1.peekAt]
  advance _ h := by
    rw [h.1.advance_eq, h.2.1.advance_eq, Cursor.advance_reports, Cursor.advance_reports]
    exact ⟨h.1.advance, h.2.1.advance, h.2.2⟩
  report {_ _ c e} r r' h := by
    obtain ⟨rs, one, filled⟩ := objects_report r c
    obtain ⟨_, other, -⟩ := objects_report r' e
    rw [one, other]
    exact ⟨h.1, h.2.1, fun none => absurd none filled⟩

theorem beginsLines_echo {f : Location → Location} {finish : Spot}
    {ended : finish = .fresh ∨ finish = .closed} {left right : List Token}
    {onLeft : Parting finish left} {onRight : Parting finish right} {rs : List Report} :
    (echo f ended onLeft onRight rs).BeginsLines := fun _ _ h => h

end Tandem

namespace Parsed
open Statement.Parser Tandem

def start (file : Nat) (source : Bytes) : Cursor :=
  (Cursor.ofStream (TokenStream.ofSource file source)).hear 1

theorem run_eq (p : Reader α) (file : Nat) (source : Bytes) :
    run p file source = ⟨(p (start file source)).1, (p (start file source)).2.reports⟩ := rfl

theorem statements_of_rounds {file : Nat} {source : Bytes} {ps : List (List Statement)}
    {c d : Cursor} (h : Rounds ps (start file source) c) (last : round c = (none, d))
    (hb : ps.length < (start file source).rest.length) :
    statements file source = ⟨ps.flatten, d.reports⟩ := by
  have all := Statement.Parser.statements_of_rounds h last hb
  exact congrArg (fun r : List Statement × Cursor => (⟨r.1, r.2.reports⟩ : Parsed _)) all

variable {file : Nat} {source : Bytes}

theorem silent_of_statements (plain : NoComment (TokenStream.text source))
    (h : (statements file source).reports = []) :
    (TokenStream.ofSource file source).reports = [] := by
  obtain ⟨zs, e, finish, tokens, last, leads⟩ := TokenStream.leads_ofSource file plain
  have here : (start file source).rest.map (·.token) = zs ++ [e] :=
    (Cursor.tokens_hear _ 1).trans tokens
  obtain ⟨ps, c, rounds, count, left, heard⟩ :=
    rounds_heard leads ⟨rfl, .inl rfl⟩ here last
  have long := congrArg List.length here
  rw [List.length_map, List.length_append] at long
  rw [statements_of_rounds rounds (round_last left last)
    (by rw [long]; exact Nat.lt_succ_of_le count)] at h
  have faults : (start file source).faults = (TokenStream.ofSource file source).reports.length :=
    (Cursor.faults_hear _ 1).trans (Nat.zero_add _)
  rw [faults, show (c.hear 1).reports = [] from h] at heard
  exact List.length_eq_zero_iff.1 (Nat.le_zero.1 heard)

theorem rounds_silent {f : Location → Location} {zs us tail : List Token} {e : Token}
    {finish : Spot} {c : Cursor} (quiet : (statements file source).reports = [])
    (tokens : (TokenStream.ofSource file source).tokens = TokenStream.quiet (zs ++ [e]))
    (he : e.kind = .endOfFile) (leads : Leads ⟨0, .fresh⟩ zs finish)
    (alike : List.Forall₂ (Token.Alike f) zs us) (next : Parting finish tail)
    (hc : c.rest = TokenStream.quiet (us ++ tail)) :
    ∃ ps d, Rounds ps c d ∧ ps.length ≤ zs.length ∧ d.rest = TokenStream.quiet tail ∧
      d.reports = c.reports ∧
      ps.flatten = (statements file source).result.map (Statement.relocate f) := by
  have begun : start file source = Cursor.ofStream (TokenStream.ofSource file source) :=
    Reader.hear_of_quiet (c := Cursor.ofStream (TokenStream.ofSource file source)) tokens 1
  have rest : (start file source).rest = TokenStream.quiet (zs ++ [e]) := begun ▸ tokens
  have here : (start file source).rest.map (·.token) = zs ++ [e] := by
    rw [rest, TokenStream.tokens_quiet]
  have there : c.rest.map (·.token) = us ++ tail := by rw [hc, TokenStream.tokens_quiet]
  have begins : (echo f leads.ended (parting_last he).of_fresh next c.reports).Beside ⟨0, .fresh⟩ zs
      (start file source) c :=
    ⟨leads, here, ⟨us, alike, there⟩, Cursor.silent_quiet rest, Cursor.silent_quiet hc,
      fun _ => rfl⟩
  have long := congrArg List.length here
  rw [List.length_map, List.length_append] at long
  obtain ⟨ps, qs, c', d, mine, other, agree, count, last⟩ :=
    rounds_beside beginsLines_echo begins ⟨rfl, .inl rfl⟩
  obtain ⟨silent', silent'', same⟩ := last.kept
  have all := statements_of_rounds mine (round_last last.left he)
    (by rw [long]; exact Nat.lt_succ_of_le count)
  rw [silent'.hear] at all
  rw [all] at quiet
  obtain ⟨vs, none, right⟩ := last.right
  obtain rfl := List.forall₂_nil_left_iff.1 none
  refine ⟨qs, d, other, agree.length_eq ▸ count, Cursor.quiet_of_silent silent'' right,
    same quiet, ?_⟩
  rw [all]
  exact eq_map_of_forall₂ (List.rel_flatten agree)

end Parsed

end StepsLang
