import StepsLang.Proofs.Recovery.BadLine
import StepsLang.Proofs.Relocation.Run

namespace StepsLang

namespace Parsed
open Statement.Parser Tandem TokenStream Scanner

variable {file : Nat} {x y : Bytes}

theorem statements_joined (quiet : (statements file x).reports = [])
    (quiet' : (statements file y).reports = []) (hx : WholeLines x) (plain : NoComment y)
    (unmarked : y.startsWith byteOrderMark = false) :
    (statements file (x ++ y)).reports = [] ∧
      (statements file (x ++ y)).result = (statements file x).result ++
        (statements file y).result.map
          (Statement.relocate (Location.down (x.count Byte.lineFeed))) := by
  obtain ⟨zs, e₁, f₁, t₁, last₁, leads₁⟩ := leads_of_silent (plain_text hx.plain)
    (silent_of_statements (plain_text hx.plain) quiet)
  obtain ⟨ws, e₂, f₂, t₂, last₂, leads₂⟩ := leads_of_silent (plain_text plain)
    (silent_of_statements (plain_text plain) quiet')
  have own := head_not_stray quiet' t₂ last₂ leads₂
  obtain ⟨us, nl, vs, e, tokens, same, line, -, down, last⟩ := ofSource_joined hx plain
    (fun _ => unmarked) (fun _ t ht kind => own t ht (kind ▸ by decide)) t₁ t₂ last₂
  -- No word of the second text goes on with the last statement of the first one.
  have next : Parting f₁ (nl ++ (vs ++ [e])) := by
    have whole := tokens
    rw [← List.append_assoc nl, ← List.append_assoc us] at whole
    obtain ⟨finish, leads⟩ := leads_of_tokens (plain_text (plain.append hx)) whole
    have ended : ∀ n ∈ nl.head?, n.kind ∉ strays := fun n hn =>
      line n (List.mem_of_mem_head? hn) ▸ by decide
    have parting := (leads.rest ((after_alike same _).trans leads₁.after)).parting last
      (heads_append ended (heads_alike (p := (· ∉ strays)) down own))
    rwa [List.append_assoc] at parting
  have begins := start_rest tokens
  obtain ⟨ps, d, r₁, k₁, rest₁, reports₁, all₁⟩ :=
    rounds_before quiet t₁ last₁ leads₁ same (fun _ => next) begins
  obtain ⟨d', r₂, rest₂, reports₂⟩ := rounds_newlines line (by simp) rest₁
  obtain ⟨qs, d'', r₃, k₃, rest₃, reports₃, all₃⟩ :=
    rounds_silent quiet' t₂ last₂ leads₂ down (parting_last last).of_fresh rest₂
  have bound : (ps ++ ([] ++ qs)).length < (start file (x ++ y)).rest.length := by
    rw [down.length_eq] at k₃
    simp only [begins, TokenStream.quiet, List.length_map, List.length_append,
      List.length_singleton, List.length_nil]
    omega
  have all := statements_of_rounds (r₁.trans (r₂.trans r₃))
    (round_last (by rw [rest₃, tokens_quiet]) last) bound
  rw [(Cursor.silent_quiet rest₃).hear] at all
  have none : (start file (x ++ y)).reports = [] := by
    rw [start_quiet tokens]
    rfl
  rw [all]
  refine ⟨?_, ?_⟩
  · rw [reports₃, reports₂, reports₁, none]
  · simp only [List.flatten_append, all₁, all₃, List.nil_append]

end Parsed

namespace NameMap

theorem sorted_map (g : α → β) {entries : List (Bytes × α)} (h : Sorted entries) :
    Sorted (entries.map fun e => (e.1, g e.2)) :=
  List.pairwise_map.2 h

def map (g : α → β) (m : NameMap α) : NameMap β := ⟨_, sorted_map g m.sorted⟩

theorem find?_map (g : α → β) (m : NameMap α) (x : Bytes) :
    (m.map g).find? x = (m.find? x).map g := by
  change (m.entries.map fun e => (e.1, g e.2)).lookup x = (m.entries.lookup x).map g
  induction m.entries with
  | nil => rfl
  | cons e entries ih =>
    rw [List.map_cons, List.lookup_cons, List.lookup_cons, ih]
    split <;> rfl

theorem names_map (g : α → β) (m : NameMap α) : (m.map g).names = m.names := by
  change (m.entries.map fun e => (e.1, g e.2)).map (·.1) = m.entries.map (·.1)
  rw [List.map_map]
  rfl

end NameMap

def Location.lineless (l : Location) : Location := { l with line := 0, endLine := 0 }

theorem Location.lineless_down (k : Nat) : lineless ∘ down k = lineless := rfl

def Environment.lineless (env : Environment) : Environment :=
  env.transport Location.lineless (env.steps.map (Step.relocate Location.lineless))

theorem Environment.offers_lineless (env : Environment) :
    env.Offers Location.lineless (env.steps.map (Step.relocate Location.lineless)) := by
  intro x step known
  rw [NameMap.find?_map, known]
  rfl

/-- An observer that does not look at lines. -/
def Observer.IgnoresLines (ob : Observer σ) : Prop :=
  ∀ steps, ob.Overlooks Location.lineless steps

theorem Observer.none_ignoresLines : none.IgnoresLines := none_overlooks Location.lineless

structure SameButLines (a b : Outcome × Session σ) : Prop where
  outcome : a.1.relocate Location.lineless = b.1.relocate Location.lineless
  env : a.2.env.lineless = b.2.env.lineless
  world : a.2.world = b.2.world
  watch : a.2.watch = b.2.watch

def Result.relocate (f : Location → Location) (r : Result) : Result :=
  { r with error := r.error.map (Report.relocate f) }

theorem Result.ofOutcome_relocate (f : Location → Location) (o : Outcome) :
    ofOutcome (o.relocate f) = (ofOutcome o).relocate f := by
  cases o <;> rfl

namespace Statement
open StepsLang.Action

theorem performBlock_append (ob : Observer σ) (limits : Limits) (call : Caller σ)
    (first second : List Statement) :
    performBlock ob limits call (first ++ second) =
      andThen (performBlock ob limits call first) (performBlock ob limits call second) := by
  induction first with
  | nil => rfl
  | cons st first ih =>
    rw [List.cons_append, performBlock, ih, performBlock]
    funext s
    unfold andThen
    rcases announced ob st (st.perform ob limits call) s with ⟨_ | _ | _ | _ | _, t⟩ <;> rfl

end Statement

namespace Session

def carryOut (ob : Observer σ) (limits : Limits) (body : List Statement) (s : Session σ) :
    Outcome × Session σ :=
  Statement.performBlock ob limits (Call.within ob limits (s.callsLeft limits)) body s

variable {ob : Observer σ} {limits : Limits}

theorem runBlock_eq_carryOut (body : List Statement) (s : Session σ) :
    s.runBlock ob limits body =
      (Result.ofOutcome (s.carryOut ob limits body).1, (s.carryOut ob limits body).2) := rfl

theorem carryOut_confined (body : List Statement) (s : Session σ) :
    Environment.Confined s.env (s.carryOut ob limits body).2.env :=
  Environment.confined_performBlock ob limits _ body s

theorem carryOut_append {first : List Statement} {s t : Session σ}
    (ended : s.carryOut ob limits first = (.normal, t)) (second : List Statement) :
    s.carryOut ob limits (first ++ second) = t.carryOut ob limits second := by
  have kept : Environment.Confined s.env (s.carryOut ob limits first).2.env :=
    s.carryOut_confined first
  rw [ended] at kept
  have left : t.callsLeft limits = s.callsLeft limits :=
    congrArg (limits.depth - ·) (Machine.depth_eq_of_confined kept)
  unfold carryOut at ended ⊢
  rw [Statement.performBlock_append, left]
  unfold Action.andThen
  rw [ended]

/-- A block that stands on other lines does the same. -/
theorem carryOut_down (h : ob.IgnoresLines) (k : Nat) (body : List Statement) (s : Session σ) :
    SameButLines (s.carryOut ob limits (body.map (Statement.relocate (Location.down k))))
      (s.carryOut ob limits body) := by
  let steps := s.env.steps.map (Step.relocate Location.lineless)
  let common : Machine σ :=
    ⟨.normal, [.block (Statement.relocateAll Location.lineless body)],
      s.transport Location.lineless steps⟩
  obtain ⟨o, t, ends⟩ : ∃ o t, Machine.Leads ob limits common ⟨o, [], t⟩ :=
    ⟨_, _, Machine.performBlock_ends _ [] _⟩
  -- Without their lines both blocks are one.
  have same (body' : List Statement) (lines : Statement.relocateAll Location.lineless body' =
      Statement.relocateAll Location.lineless body) :
      (s.carryOut ob limits body').1.relocate Location.lineless = o ∧
        (s.carryOut ob limits body').2.transport Location.lineless steps = t := by
    have begun : Machine.transport Location.lineless steps ⟨.normal, [.block body'], s⟩ = common :=
      congrArg (fun b => (⟨.normal, [.block b], _⟩ : Machine σ)) lines
    obtain ⟨outcome, session⟩ := Machine.end_transport (h steps) s.env.offers_lineless
      (fun _ _ => NameMap.names_map _ _) (Machine.performBlock_ends body' [] s) (begun ▸ ends)
    exact ⟨outcome.symm, session.symm⟩
  have kept (body' : List Statement) :
      (s.carryOut ob limits body').2.transport Location.lineless steps =
        { (s.carryOut ob limits body').2 with
          env := (s.carryOut ob limits body').2.env.lineless } := by
    unfold Environment.lineless
    rw [(s.carryOut_confined body').steps]
    rfl
  have moved := same (body.map (Statement.relocate (Location.down k))) <| by
    rw [← Statement.relocateAll_eq, Statement.relocateAll_comp, Location.lineless_down]
  have here := same body rfl
  have sessions := moved.2.trans here.2.symm
  rw [kept, kept] at sessions
  exact ⟨moved.1.trans here.1.symm, congrArg (·.env) sessions, congrArg (·.world) sessions,
    congrArg (·.watch) sessions⟩

end Session

open Parsed in
/-- Texts that are read without a report can be joined, and the text of both is carried out like one
text after the other, provided that the end of the first one lets the second one follow. -/
theorem joined_texts {file : Nat} {first second : Bytes}
    (quiet : (statements file first).reports = []) (quiet' : (statements file second).reports = [])
    (ends : ∀ b ∈ first.getLast?, b = Byte.lineFeed) (plain : NoComment first)
    (plain' : NoComment second) (unmarked : second.startsWith TokenStream.byteOrderMark = false) :
    (statements file (first ++ second)).reports = [] ∧
      (statements file (first ++ second)).result = (statements file first).result ++
        (statements file second).result.map
          (Statement.relocate (Location.down (first.count Byte.lineFeed))) ∧
      ∀ {σ : Type} (ob : Observer σ) (limits : Limits) (s t : Session σ), ob.IgnoresLines →
        s.carryOut ob limits (statements file first).result = (.normal, t) →
        SameButLines (s.carryOut ob limits (statements file (first ++ second)).result)
          (t.carryOut ob limits (statements file second).result) ∧
        (s.runBlock ob limits (statements file (first ++ second)).result).1.relocate
            Location.lineless =
          (t.runBlock ob limits (statements file second).result).1.relocate
            Location.lineless := by
  obtain ⟨silent, all⟩ := statements_joined quiet quiet' ⟨ends, plain⟩ plain' unmarked
  refine ⟨silent, all, fun {σ} ob limits s t blind ended => ?_⟩
  have same : SameButLines (s.carryOut ob limits (statements file (first ++ second)).result)
      (t.carryOut ob limits (statements file second).result) := by
    rw [all, Session.carryOut_append ended]
    exact t.carryOut_down blind _ _
  refine ⟨same, ?_⟩
  rw [Session.runBlock_eq_carryOut, Session.runBlock_eq_carryOut, ← Result.ofOutcome_relocate,
    ← Result.ofOutcome_relocate, same.outcome]

open Parsed in
theorem joined_texts_failing :
    let first : Bytes := "set x to 1\nif true\n    set x to 0\n"
    let second : Bytes := "attempt:\n    display x\nthen continue:\n    display 1 / x\n"
    let both := (statements 0 (first ++ second)).result
    let s : Session Unit := ⟨.fresh "main" true, {}, ()⟩
    let t := (s.carryOut Observer.none {} (statements 0 first).result).2
    (statements 0 first).reports = [] ∧ (statements 0 second).reports = [] ∧
      (∀ b ∈ first.getLast?, b = Byte.lineFeed) ∧ NoComment first ∧ NoComment second ∧
      second.startsWith TokenStream.byteOrderMark = false ∧ Observer.none.IgnoresLines ∧
      s.carryOut Observer.none {} (statements 0 first).result = (.normal, t) ∧
      SameButLines (s.carryOut Observer.none {} both)
        (t.carryOut Observer.none {} (statements 0 second).result) ∧
      (s.runBlock Observer.none {} both).2.world.output = #[("0" : Bytes)] ∧
      (s.runBlock Observer.none {} both).1.error.map (·.location.line) = some 7 ∧
      (t.runBlock Observer.none {} (statements 0 second).result).1.error.map (·.location.line) =
        some 4 := by
  intro first second both s t
  have quiet : (statements 0 first).reports = [] := by decide +kernel
  have quiet' : (statements 0 second).reports = [] := by decide +kernel
  have ends : ∀ b ∈ first.getLast?, b = Byte.lineFeed := by decide +kernel
  have plain : NoComment first := by decide +kernel
  have plain' : NoComment second := by decide +kernel
  have unmarked : second.startsWith TokenStream.byteOrderMark = false := by decide +kernel
  have blind : Observer.none.IgnoresLines := Observer.none_ignoresLines
  have ended : s.carryOut Observer.none {} (statements 0 first).result = (.normal, t) :=
    Prod.ext (by decide +kernel) rfl
  have same := ((joined_texts quiet quiet' ends plain plain' unmarked).2.2 Observer.none {} s t
    blind ended).1
  exact ⟨quiet, quiet', ends, plain, plain', unmarked, blind, ended, same, by decide +kernel,
    by decide +kernel, by decide +kernel⟩

end StepsLang
