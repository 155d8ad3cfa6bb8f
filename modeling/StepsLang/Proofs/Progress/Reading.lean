import StepsLang.Proofs.Progress.Recursion
import StepsLang.Proofs.Token.Step

namespace StepsLang
open Reader
open Tandem (taken)

namespace Goes

variable {P : List Token → Prop}

theorem many {p : Reader (Option α)} (h : Goes taken Everywhere p) :
    Goes (fun _ => 0) P (Reader.many p) := by
  have bounded (bound : List Heard) : Goes (fun _ => 0) Everywhere (Reader.atMost p bound) := by
    induction bound with
    | nil => exact .pure rfl
    | cons x bound ih =>
      refine .andThen h fun a => ?_
      cases a with
      | none => exact .pure rfl
      | some a => exact .andThen ih fun _ => .pure rfl
  exact fun c _ _ closes => bounded c.rest trivial closes

theorem lines {line : Reader (List α)} (h : ∀ n, Climbs n 1 0 0 (First Climbs.Passed) line) :
    Goes (fun _ => 0) P (Reader.lines line) := by
  rw [lines_eq]
  refine .andThen (many (inBlock_goes h)) fun _ => ?_
  have dedent := take? (P := Everywhere) (k := .dedent) (by decide)
  exact .andThen (i := fun _ => 0) (dedent.weaken (fun _ => Nat.zero_le _) fun _ h => h)
    fun _ => .pure rfl

theorem ite {j : α → Nat} {b : Bool} {p q : Reader α} (yes : Goes j P p) (no : Goes j P q) :
    Goes j P (if b then p else q) := by
  cases b with
  | true => exact yes
  | false => exact no

end Goes

inductive Loop : ∀ {α : Type}, Reader (Option α) → Prop
  | newlines : Loop (take? .newline)
  | statements : Loop Statement.Parser.round
  | block : Loop (inBlock (Option.toList <$> Statement.Parser.statement))
  | sections : Loop (inBlock Routine.Parser.stepLine)
  | riserSections : Loop (inBlock Routine.Parser.riserLine)
  | floorEntries : Loop (inBlock Routine.Parser.floorLine)
  | declarations : Loop (inBlock Routine.Parser.declaration)
  | arms : Loop (Statement.Parser.otherwiseIf Statement.Parser.statement)
  | arguments : Loop Statement.Parser.nextArgument
  | items : Loop (Expression.Parser.nextElement Expression.Parser.expression)
  | entries :
    Loop (Expression.Parser.nextElement (Expression.Parser.entry Expression.Parser.expression))
  | trailers : Loop (Expression.Parser.trailer Expression.Parser.expression)
  | leaders : Loop (Expression.Parser.leader Expression.Parser.expression)
  | factors : Loop (Expression.Parser.operation Expression.product?
      (Expression.Parser.led Expression.Parser.expression))
  | summands : Loop (Expression.Parser.operation Expression.sum?
      (Expression.Parser.product Expression.Parser.expression))
  | nots : Loop (take? .not)
  | conjuncts : Loop (Expression.Parser.operation Expression.conjunction?
      (Expression.Parser.negation Expression.Parser.expression))
  | disjuncts : Loop (Expression.Parser.operation Expression.disjunction?
      (Expression.Parser.conjunction Expression.Parser.expression))

open Statement.Parser Expression.Parser Routine.Parser in
theorem Loop.goes {α : Type} {p : Reader (Option α)} (h : Loop p) : Goes taken Everywhere p := by
  cases h with
  | newlines => exact .take? (by decide)
  | statements => exact round_goes
  | block => exact inBlock_goes fun _ => (statement_climbs lined).map
  | sections => exact inBlock_goes stepLine_climbs
  | riserSections => exact inBlock_goes fun _ => riserLine_climbs
  | floorEntries => exact inBlock_goes fun _ => floorLine_climbs
  | declarations => exact inBlock_goes fun _ => declaration_climbs
  | arms => exact otherwiseIf_goes
  | arguments => exact nextArgument_goes
  | items => exact nextElement_goes expression_level
  | entries => exact nextElement_goes (entry_level expression_level)
  | trailers => exact trailer_goes expression_level
  | leaders => exact leader_goes expression_level
  | factors => exact operation_goes operators_product (led_level expression_level)
  | summands => exact operation_goes operators_sum (product_level expression_level)
  | nots => exact .take? (by decide)
  | conjuncts => exact operation_goes operators_conjunction (negation_level expression_level)
  | disjuncts => exact operation_goes operators_disjunction (conjunction_level expression_level)

inductive EntryPoint : ∀ {α : Type}, Reader α → Prop
  | building : EntryPoint Routine.Parser.building
  | floor : EntryPoint Routine.Parser.floor
  | step : EntryPoint Routine.Parser.step
  | statements : EntryPoint Statement.Parser.statements
  | expression : EntryPoint Expression.Parser.standalone

namespace Routine.Parser
open Statement.Parser

variable {P : List Token → Prop}

theorem file_goes {k : Kind} (hk : k.Flat) (keyword : Bytes) {bare : Location → Bytes → α}
    {body : Location → Bytes → Reader (Option α)}
    (h : ∀ l x, Goes (fun _ => 0) Everywhere (body l x)) : Goes (fun _ => 0) P (do
      let some (l, x, whole) ← header k keyword | return none
      if !whole then return some (bare l x)
      if !(← openFile keyword) then return some (bare l x)
      body l x) := by
  refine .andThen (.of_level (header_level hk keyword)) fun first => ?_
  cases first with
  | none => exact .pure rfl
  | some first =>
    obtain ⟨l, x, whole⟩ := first
    refine .ite (.pure rfl) (.andThen (i := fun _ => 0) ?_ fun _ => .ite (.pure rfl) (h l x))
    refine .andThen .skipNewlines fun _ => .andThen (.skip? (by decide)) fun _ => ?_
    exact .ite (.pure rfl) (.still .beginLine fun _ => .still (.expectedBlock _) fun _ => .pure rfl)

theorem building_goes : Goes (fun _ => 0) P building := by
  refine file_goes (by decide) _ fun l x => .andThen (.lines ?_) fun body => ?_
  · exact fun _ => (statement_climbs lined).map
  · refine .andThen .skipNewlines fun _ => .still (.check _) fun _ => .ite ?_ (.pure rfl)
    exact .still .beginLine fun _ => .still (.peekAt 0) fun t => .still (.unexpected _) fun _ =>
      .pure rfl

theorem floor_goes : Goes (fun _ => 0) P floor :=
  file_goes (by decide) _ fun _ _ => .andThen (.lines fun _ => floorLine_climbs) fun _ => .pure rfl

theorem step_goes : Goes (fun _ => 0) P step := by
  refine file_goes (by decide) _ fun l x => .andThen (.lines stepLine_climbs) fun parts => ?_
  have rest (s : Step) : Goes (fun _ => 0) Everywhere (do missingDo s.toRoutine; return some s) :=
    .still (missingDo_still _) fun _ => .pure rfl
  dsimp only
  split
  · exact .still (.bind .beginLine fun _ => .report _) fun _ => rest _
  · exact rest _

end Routine.Parser

theorem EntryPoint.goes {α : Type} {p : Reader α} (h : EntryPoint p) :
    Goes (fun _ => 0) Everywhere p := by
  cases h with
  | building => exact Routine.Parser.building_goes
  | floor => exact Routine.Parser.floor_goes
  | step => exact Routine.Parser.step_goes
  | statements => exact .andThen (.many Statement.Parser.round_goes) fun _ => .pure rfl
  | expression =>
    refine .still .beginLine fun _ => .andThen .skipNewlines fun _ => ?_
    refine .andThen (.of_level Expression.Parser.expression_level) fun e => ?_
    refine .andThen .skipNewlines fun _ => .still (.check _) fun _ => ?_
    exact .ite (.still (.unexpected _) fun _ => .pure rfl) (.pure rfl)

/-- Wherever the parser stands in a text: what ends its loops and what its recursion rests on. -/
structure Advances (c : Cursor) : Prop where
  loops : ∀ {α : Type} {p : Reader (Option α)}, Loop p → Subsides p c
  brackets : ∀ bound : List Heard, c.tokens.length ≤ bound.length →
    Expression.Parser.nested bound c = Expression.Parser.expression c
  blocks : ∀ bound : List Heard, c.tokens.length ≤ bound.length →
    Statement.Parser.nested bound c = Statement.Parser.statement c
  expression : ∀ inner : Reader Expression,
    (∀ d : Cursor, d.tokens.length < c.tokens.length → (∃ n, Closes n d.tokens) →
      inner d = Expression.Parser.expression d) →
    Expression.Parser.disjunction inner c = Expression.Parser.expression c
  statement : ∀ inner : Statement.Parser.Inner,
    (∀ d : Cursor, d.tokens.length < c.tokens.length → (∃ n, Closes n d.tokens) →
      inner d = Statement.Parser.statement d) →
    Statement.Parser.dispatch inner c = Statement.Parser.statement c
  names : ∀ bound bound' : List Heard, c.tokens.length ≤ bound.length →
    c.tokens.length ≤ bound'.length → Routine.Parser.names bound c = Routine.Parser.names bound' c
  resync : ∀ (bound bound' : List Heard) (depth : Nat), c.tokens.length ≤ bound.length →
    c.tokens.length ≤ bound'.length → resyncWithin bound depth c = resyncWithin bound' depth c

theorem advances {c : Cursor} {d : Nat} (closes : Closes d c.tokens) : Advances c := by
  have count : c.tokens.length = c.rest.length := List.length_map _
  obtain ⟨n, size⟩ : ∃ n, c.rest.length = n + 1 := by
    obtain ⟨t, us, here⟩ := closes.exists_cons
    exact ⟨us.length, by rw [← count, here]; rfl⟩
  have inside {α : Type} {inner rec : Reader α} (h : ∀ d : Cursor,
      d.tokens.length < c.tokens.length → (∃ n, Closes n d.tokens) → inner d = rec d) :
      Agrees n Everywhere inner rec := fun d e less _ closes =>
    h d (by rw [count, size, List.length_map]; exact Nat.lt_succ_of_le less) ⟨e, closes⟩
  have here : c.rest.length ≤ n + 1 := Nat.le_of_eq size
  refine ⟨fun loop => loop.goes.subsides closes, fun bound enough => ?_, fun bound enough => ?_,
    fun inner h => ?_, fun inner h => ?_, fun bound bound' enough enough' => ?_,
    fun bound bound' depth enough enough' => ?_⟩
  · exact (Expression.Parser.nested_agrees _).1 bound enough (Nat.le_of_eq count.symm) trivial
      closes
  · exact (Statement.Parser.nested_agrees _).1 bound enough (Nat.le_of_eq count.symm) trivial closes
  · have unfolds := (Expression.Parser.nested_agrees (n + 1)).2 here trivial closes
    exact (Expression.Parser.disjunction_agrees Expression.Parser.expression_level (inside h) here
      trivial closes).trans unfolds
  · have unfolds := (Statement.Parser.nested_agrees (n + 1)).2 here trivial closes
    exact (Statement.Parser.dispatch_agrees (inside h) here trivial closes).trans unfolds
  · exact Routine.Parser.names_agrees _ enough enough' (Nat.le_of_eq count.symm) trivial closes
  · exact resyncWithin_agrees _ enough enough' depth (Nat.le_of_eq count.symm) trivial closes

namespace TokenStream

/-- Reading comes to an end for any text. -/
theorem reading_ends (file : Nat) (source : Bytes) :
    let tokens := (ofSource file source).tokens.map (·.token)
    (∀ s : Scanner, (s.step = none ↔ s.rest = []) ∧ ∀ t b, s.step = some (t, b) →
      t.rest <:+ s.rest ∧ (t.rest.length < s.rest.length ∨
        s.fresh = true ∧ t.fresh = false ∧ t.rest = s.rest)) ∧
    (∃ ts e, tokens = ts ++ [e] ∧ e.kind = .endOfFile ∧ ∀ t ∈ ts, t.kind ≠ .endOfFile) ∧
    (∀ {α : Type} (p : Reader α), EntryPoint p →
      (p (Parsed.start file source)).2.tokens <:+ tokens ∧
        (p (Parsed.start file source)).2.tokens ≠ []) ∧
    ∀ c : Cursor, c.tokens <:+ tokens → c.tokens ≠ [] → Advances c := by
  intro tokens
  have whole : Closes 0 tokens := closes_ofSource file source
  refine ⟨fun s => ⟨Scanner.step_eq_none, fun t b => Scanner.step_advances⟩, ?_, fun p h => ?_,
    fun c here left => ?_⟩
  · obtain ⟨zs, e, made, ends, inner, -⟩ := whole
    exact ⟨zs, e, made, ends, inner⟩
  · have same : (Parsed.start file source).tokens = tokens := Cursor.tokens_hear _ 1
    obtain ⟨ts, e, here, -, rest⟩ := h.goes trivial (same ▸ whole)
    obtain ⟨t, us, filled⟩ := rest.exists_cons
    exact ⟨⟨ts, by rw [← here, same]⟩, by rw [filled]; exact List.cons_ne_nil t us⟩
  · obtain ⟨d, closes⟩ := closes_of_suffix here left
    exact advances closes

theorem reading_ends_items :
    let source : Bytes := "display [1, 2,, (3\n"
    let c : Cursor := { rest := (ofSource 0 source).tokens.drop 3 }
    let item := Expression.Parser.nextElement Expression.Parser.expression
    c.tokens <:+ (ofSource 0 source).tokens.map (·.token) ∧ c.tokens ≠ [] ∧ Subsides item c ∧
      (Reader.many item c).1.length = 3 ∧
      (Reader.many item c).2.tokens.map (·.kind) = [.newline, .endOfFile] := by
  intro source c item
  have here : c.tokens <:+ (ofSource 0 source).tokens.map (·.token) :=
    (List.drop_suffix 3 _).map _
  have left : c.tokens ≠ [] := by decide +kernel
  have advances := (reading_ends 0 source).2.2.2 c here left
  exact ⟨here, left, advances.loops .items, by decide +kernel, by decide +kernel⟩

end TokenStream

end StepsLang
