import StepsLang.Statement.Parser
import StepsLang.Proofs.Parse.Expression
import StepsLang.Proofs.Print.Statement

namespace StepsLang

namespace Statement.Parser
open Reader
open Expression.Parser (Looser Any Whole whole expression tokens_word tokens_blank tokens_name)

def starters : List Kind :=
  [.display, .set, .call, .returnWord, .exit, .ifWord, .repeatWord, .attempt, .add, .remove, .note]

def parts : List Kind := [.otherwiseIf, .otherwise, .ifUnsuccessful, .thenContinue]

abbrev Beyond (x : Kind) : Prop := x ∉ parts

theorem Beyond.ne {x k : Kind} (h : Beyond x) (hk : k ∈ parts) : x ≠ k :=
  fun same => h (same ▸ hk)

variable {inner : Inner} {ws us : List Token} {b c : Expression} {x : Bytes}

abbrev nameToken (x : Bytes) : Token := { kind := .name, text := x }

theorem display_reads (h : Whole ws b) :
    Reads (Option.map unlocated) display (.word .display :: (ws ++ [.newline]))
      (some (.display {} b)) Any := by
  apply Reads.advance (by decide)
  intro l
  apply Reads.bind h.reads (.cons (by decide))
  intro e he
  exact .endLine (by simp [unlocated, he])

abbrev ofIndex : Option (Option Expression) → Option (Option Expression) :=
  Option.map (Option.map Expression.unlocated)

theorem indexed_none : Reads ofIndex indexed [] (some none) (· ≠ .leftBracket) := by
  apply Reads.skip?_not fun _ hx => hx
  exact .pure rfl

theorem indexed_some (h : Whole ws b) :
    Reads ofIndex indexed (.word .leftBracket :: (ws ++ [.word .rightBracket])) (some (some b))
      Any := by
  refine .skip? rfl (by decide) ?_
  apply Reads.bind h.reads (.cons (by decide))
  intro e he
  refine .expect rfl (by decide) fun l => ?_
  exact .pure (by simp [he])

theorem set_reads (x : Bytes) (h : Whole ws b) :
    Reads (Option.map unlocated) set
      (.word .set :: nameToken x :: .word .to :: (ws ++ [.newline])) (some (.set {} x b)) Any := by
  apply Reads.advance (by decide)
  intro l
  apply Reads.expectName
  intro l'
  apply Reads.bind (u := []) indexed_none (.cons (by decide))
  intro r hr
  obtain ⟨_ | i, rfl, hi⟩ := Option.map_eq_some_iff.1 hr
  · refine .expect rfl (by decide) fun l'' => ?_
    apply Reads.bind h.reads (.cons (by decide))
    intro e he
    exact .endLine (by simp [unlocated, he])
  · cases hi

theorem setIndex_reads (x : Bytes) (h : Whole ws b)
    (h' : Whole us c) :
    Reads (Option.map unlocated) set
      (.word .set :: nameToken x :: ((.word .leftBracket :: (ws ++ [.word .rightBracket])) ++
        .word .to :: (us ++ [.newline]))) (some (.setIndex {} x b c)) Any := by
  apply Reads.advance (by decide)
  intro l
  apply Reads.expectName
  intro l'
  apply Reads.bind (indexed_some h) trivial
  intro r hr
  obtain ⟨_ | i, rfl, hi⟩ := Option.map_eq_some_iff.1 hr
  · cases hi
  · refine .expect rfl (by decide) fun l'' => ?_
    apply Reads.bind h'.reads (.cons (by decide))
    intro e he
    apply Reads.discard
    apply Reads.expectEndOfLine
    have same : i.unlocated = b := Option.some.inj hi
    exact .pure (by simp [unlocated, he, same])

theorem giveBack_none : Reads (Option.map unlocated) giveBack [.word .returnWord, .newline]
    (some (.giveBack {} none)) Any := by
  apply Reads.advance (by decide)
  intro l
  apply Reads.check (r := true) rfl
  apply Reads.atBlockEnd (r := false) rfl
  rw [if_pos rfl, pure_bind]
  exact .endLine rfl

theorem giveBack_some (h : Whole ws b) :
    Reads (Option.map unlocated) giveBack (.word .returnWord :: (ws ++ [.newline]))
      (some (.giveBack {} (some b))) Any := by
  obtain ⟨⟨w, us, rfl, begins⟩, reads⟩ := h
  have value : Reads (Option.map Expression.unlocated) (some <$> expression) (w :: us) (some b)
      (Looser 1) := reads.map fun e he => congrArg some he
  simp only [Expression.Parser.Begins, List.mem_cons, not_or] at begins
  apply Reads.advance (by decide)
  intro l
  apply Reads.check (r := false) (.cons (by simp [begins]))
  apply Reads.atBlockEnd (r := false) (.cons (by simp [begins]))
  rw [if_neg (by simp), if_neg (by simp)]
  apply Reads.bind value (.cons (by decide))
  intro e he
  exact .endLine (by simp [unlocated, he])

theorem exit_reads :
    Reads (Option.map unlocated) exit [.word .exit, .newline] (some (.exit {})) Any := by
  apply Reads.advance (by decide)
  intro l
  exact .endLine rfl

theorem note_reads (s : Bytes) :
    Reads (Option.map unlocated) note [{ kind := .note, text := s }, .newline]
      (some (.note {} s)) Any := by
  apply Reads.advance (by simp)
  intro l
  exact .endLine rfl

theorem listChange_reads (x : Bytes) {make : Location → Expression → Bytes → Statement} {w : Token}
    {link : Kind} {linkText statement : Bytes} (hw : w.kind ≠ .endOfFile)
    (hl : link ≠ .endOfFile) (loose : Looser 1 link)
    (made : ∀ l e, (make l e x).unlocated = make {} e.unlocated x)
    (h : Whole ws b) :
    Reads (Option.map unlocated) (listChange make link linkText statement)
      (w :: (ws ++ .word link :: nameToken x :: [.newline])) (some (make {} b x)) Any := by
  apply Reads.advance hw
  intro l
  apply Reads.bind h.reads (.cons loose)
  intro e he
  refine .expect rfl hl fun l' => ?_
  apply Reads.expectName
  intro l''
  exact .endLine (by simp [made, he])

variable {spell : Expression.Numerals}

def argument : Reader (Option Expression) := do
  if ← skip? .comma then return some (← expression) else return none

def AfterArguments (x : Kind) : Prop := x = .storingResultIn ∨ x = .newline

def AfterArgument (x : Kind) : Prop := x = .comma ∨ AfterArguments x

theorem AfterArgument.looser {x : Kind} (h : AfterArgument x) : Looser 1 x := by
  rcases h with rfl | rfl | rfl <;> decide

theorem argument_reads (h : Whole ws b) :
    Reads (Option.map Expression.unlocated) argument (.word .comma :: ws) (some b)
      AfterArgument := by
  refine .skip? rfl (by decide) ?_
  apply Reads.last h.reads fun _ => AfterArgument.looser
  intro e he
  exact .pure (by simp [he])

theorem argument_declines : Declines argument AfterArguments := by
  apply Reads.declines
  apply Reads.skip?_not fun x hx => by rcases hx with rfl | rfl <;> decide
  exact .pure rfl

theorem argument_items (es : List Expression) (h : es.all (·.printable spell) = true) :
    ∃ items, tokens (listed (es.map (·.pieces spell))) = items.flatMap (·.1) ∧
      items.map (·.2) = es.map (·.unlocated) ∧
      Reads.Items Expression.unlocated argument items AfterArgument AfterArguments := by
  induction es with
  | nil => exact ⟨[], rfl, rfl, .nil (fun _ => .inr) argument_declines⟩
  | cons e es ih =>
    rw [List.all_cons, Bool.and_eq_true] at h
    obtain ⟨items, same, values, rest⟩ := ih h.2
    have first := argument_reads (whole h.1)
    rw [listed] at same
    refine ⟨_, ?_, ?_, .cons first (.inl rfl) rest⟩
    · simp [listed, same]
    · simp [values]

theorem arguments_reads {args : List Expression} (h : args.all (·.printable spell) = true) :
    Reads (List.map Expression.unlocated) arguments (tokens (argumentPieces spell args))
      (args.map (·.unlocated)) AfterArguments := by
  cases args with
  | nil =>
    apply Reads.skip?_not fun x hx => by rcases hx with rfl | rfl <;> decide
    exact .pure rfl
  | cons e es =>
    rw [List.all_cons, Bool.and_eq_true] at h
    obtain ⟨items, same, values, rest⟩ := argument_items es h.2
    have next := rest.starts
    have all : tokens (argumentPieces spell (e :: es)) =
        .word .withWord :: (tokens (e.pieces spell) ++ items.flatMap (·.1)) := by
      simp [argumentPieces, clause, same]
    rw [all]
    refine .skip? rfl (by decide) ?_
    apply Reads.bind (whole h.1).reads (next.weaken fun _ => AfterArgument.looser)
    intro a ha
    apply Reads.last (Reads.many rest) fun _ hx => hx
    intro as has
    exact .pure (by simp [ha, has, values])

theorem target_reads (into : Option Bytes) :
    Reads id target (tokens (targetPieces into)) (some into) (· = .newline) := by
  cases into with
  | none =>
    apply Reads.skip?_not fun x hx => by simp [hx]
    exact .pure rfl
  | some x =>
    change Reads id target [.word .storingResultIn, nameToken x] _ _
    refine .skip? rfl (by decide) ?_
    apply Reads.expectName
    intro l
    exact .pure rfl

theorem target_next (into : Option Bytes) :
    Next AfterArguments (tokens (targetPieces into) ++ [.newline]) Any := by
  cases into with
  | none => exact .inr rfl
  | some x => exact .inl rfl

theorem call_reads {args : List Expression} (f : Bytes) (into : Option Bytes)
    (h : args.all (·.printable spell) = true) :
    Reads (Option.map unlocated) call
      (.word .call :: nameToken f :: (tokens (argumentPieces spell args) ++
        (tokens (targetPieces into) ++ [.newline])))
      (some (.call {} f (args.map (·.unlocated)) into)) Any := by
  apply Reads.advance (by decide)
  intro l
  apply Reads.expectName
  intro l'
  apply Reads.bind (arguments_reads h) (target_next into)
  intro as has
  apply Reads.bind (target_reads into) rfl
  rintro r rfl
  exact .endLine (by simp [unlocated, has])

def printed (spell : Expression.Numerals) (s : Statement) : List Token :=
  Outline.tokensAll (s.outlines spell)

theorem tokensAll_outlinesAll (ss : List Statement) :
    Outline.tokensAll (outlinesAll spell ss) = ss.flatMap (printed spell) := by
  induction ss with
  | nil => rfl
  | cons s ss ih => rw [outlinesAll, Outline.tokensAll_append, ih, List.flatMap_cons, printed]

theorem first_of_word {k : Kind} (hk : k ∈ starters) (ps : List Piece)
    (under os : List Outline) :
    ∃ w us, Outline.tokensAll (.line (.word k :: ps) under :: os) = w :: us ∧
      w.kind ∈ starters := by
  obtain ⟨us, same⟩ := Outline.tokensAll_first k ps under os
  exact ⟨_, us, same, hk⟩

theorem printed_first {s : Statement} (h : s.printable spell = true) :
    ∃ w us, printed spell s = w :: us ∧ w.kind ∈ starters := by
  cases s with
  | branch _ arms _ =>
    cases arms with
    | nil => cases h
    | cons arm arms => exact first_of_word (k := .ifWord) (by decide) _ _ _
  | giveBack _ e => cases e <;> exact first_of_word (k := .returnWord) (by decide) _ _ _
  | note _ s => exact ⟨_, _, rfl, by simp [starters]⟩
  | _ => exact first_of_word (by decide) _ _ _

/-- A reader that reads back a printed statement. -/
def ReadsBack (spell : Expression.Numerals) (inner : Inner) (s : Statement) : Prop :=
  Reads (Option.map unlocated) inner (printed spell s) (some s.unlocated) Beyond

variable {body : List Statement}

theorem opens_of_starter {x : Kind} (h : x ∈ starters) : Beyond x ∧ Reads.Opens x := by
  have all : ∀ x ∈ starters, x ∉ parts ∧ x ≠ .newline ∧
      (x == .dedent || x == .endOfFile) = false := by
    decide
  exact all x h

def under (spell : Expression.Numerals) (body : List Statement) : List Token :=
  .newline :: .indent :: (Outline.tokensAll (outlinesAll spell body) ++ [.dedent])

structure Block (spell : Expression.Numerals) (inner : Inner) (body : List Statement) : Prop where
  filled : outlinesAll spell body ≠ []
  reads : ∀ keyword, Reads (List.map unlocated) (block inner keyword)
    (.indent :: (Outline.tokensAll (outlinesAll spell body) ++ [.dedent])) (unlocatedAll body) Any

theorem filled_of_printable (some : body ≠ []) (h : ∀ s ∈ body, s.printable spell = true) :
    outlinesAll spell body ≠ [] := by
  obtain ⟨s, ss, rfl⟩ := List.exists_cons_of_ne_nil some
  obtain ⟨w, us, same, -⟩ := printed_first (h s (by simp))
  intro empty
  rw [outlinesAll, List.append_eq_nil_iff] at empty
  rw [printed, empty.1] at same
  cases same

theorem block_of_each (some : body ≠ []) (h : ∀ s ∈ body, s.printable spell = true)
    (each : ∀ s ∈ body, ReadsBack spell inner s) : Block spell inner body := by
  refine ⟨filled_of_printable some h, fun keyword => ?_⟩
  let items := body.map fun s => (printed spell s, [s.unlocated])
  have rows : Reads (List.map unlocated) (Reader.lines (Option.toList <$> inner))
      (items.flatMap (·.1) ++ [.dedent]) (items.flatMap (·.2)) Any := by
    refine Reads.lines items (fun i hi => ?_) (fun i hi => ?_) (show Beyond _ by decide)
    · obtain ⟨s, hs, rfl⟩ := List.mem_map.1 hi
      refine (each s hs).map fun o ho => ?_
      obtain ⟨a, rfl, ha⟩ := Option.map_eq_some_iff.1 ho
      simp [ha]
    · obtain ⟨s, hs, rfl⟩ := List.mem_map.1 hi
      obtain ⟨w, us, same, starts⟩ := printed_first (h s hs)
      exact ⟨w, us, same, opens_of_starter starts⟩
  simp only [items, List.flatMap_map] at rows
  rw [tokensAll_outlinesAll, unlocatedAll_eq, List.map_eq_flatMap]
  apply Reads.skipNewlines (.cons (by decide))
  refine .skip? rfl (by decide) ?_
  exact rows

variable {k : Kind} {keyword : Bytes}

theorem part_declines : Declines (part inner k keyword) (· ≠ k) := by
  apply Reads.declines
  apply Reads.check (r := false) fun x hx => by simpa using hx
  exact .pure rfl

theorem part_reads {body : Option (List Statement)} (hk : k ≠ .endOfFile)
    (h : ∀ ss ∈ body, Block spell inner ss) :
    Reads (Option.map (List.map unlocated)) (part inner k keyword)
      (Outline.tokensAll (partOutlines spell k body)) (unlocatedPart body) (· ≠ k) := by
  cases body with
  | none => exact .of_declines part_declines
  | some body =>
    have block_ := h body rfl
    have same : Outline.tokensAll (partOutlines spell k (some body)) =
        .word k :: under spell body := by
      rw [partOutlines, Outline.tokensAll, Outline.tokens_block _ block_.filled]
      simp [Outline.tokensAll, under]
    rw [same]
    apply Reads.check (r := true) (.cons (by simp [Token.word]))
    apply Reads.beginLine
    apply Reads.discard
    apply Reads.advance hk
    intro l
    apply Reads.expectEndOfLine
    apply Reads.last (block_.reads _) fun _ _ => trivial
    intro ss hss
    exact .pure (by simp [unlocatedPart, hss])

theorem part_next {body : Option (List Statement)} {d : Kind → Prop} (hk : d k)
    (h : ∀ x, Beyond x → d x) : Next d (Outline.tokensAll (partOutlines spell k body)) Beyond := by
  cases body with
  | none => exact h
  | some body =>
    obtain ⟨us, same⟩ := Outline.tokensAll_first k [] (outlinesAll spell body) []
    rw [partOutlines, same]
    exact hk

theorem otherwiseIf_declines : Declines (otherwiseIf inner) (· ≠ .otherwiseIf) := by
  apply Reads.declines
  apply Reads.check (r := false) fun x hx => by simpa using hx
  exact .pure rfl

theorem otherwiseIf_reads (h : Whole ws b) (h' : Block spell inner body) :
    Reads (Option.map (List.map unlocatedArm)) (otherwiseIf inner)
      (.word .otherwiseIf :: (ws ++ under spell body)) (some [({}, b, unlocatedAll body)])
      Any := by
  apply Reads.check (r := true) rfl
  apply Reads.beginLine
  apply Reads.advance (by decide)
  intro l
  apply Reads.bind h.reads (.cons (by decide))
  intro e he
  apply Reads.expectEndOfLine
  apply Reads.last (h'.reads _) fun _ _ => trivial
  intro ss hss
  exact .pure (by simp [unlocatedArm, he, hss])

theorem arm_items (arms : List (Location × Expression × List Statement))
    (h : ∀ arm ∈ arms, arm.2.1.printable spell = true ∧ Block spell inner arm.2.2) :
    ∃ items, Outline.tokensAll (armOutlines spell arms) = items.flatMap (·.1) ∧
      (items.map (·.2)).flatten = unlocatedArms arms ∧
      Reads.Items (List.map unlocatedArm) (otherwiseIf inner) items Any (· ≠ .otherwiseIf) := by
  induction arms with
  | nil => exact ⟨[], rfl, rfl, .nil (fun _ _ => trivial) otherwiseIf_declines⟩
  | cons arm arms ih =>
    obtain ⟨l, e, body⟩ := arm
    obtain ⟨condition, block_⟩ := h (l, e, body) (by simp)
    obtain ⟨items, same, values, rest⟩ := ih fun arm ha => h arm (by simp [ha])
    have first := otherwiseIf_reads (whole condition) block_
    refine ⟨_, ?_, ?_, .cons first trivial rest⟩
    · rw [armOutlines, Outline.tokensAll, Outline.tokens_block _ block_.filled, same]
      simp [clause, under]
    · simp [unlocatedArms, values]

theorem branch_reads {arms : List (Location × Expression × List Statement)}
    {otherwise : Option (List Statement)} (h : Whole ws b) (h' : Block spell inner body)
    (more : ∀ arm ∈ arms, arm.2.1.printable spell = true ∧ Block spell inner arm.2.2)
    (last : ∀ ss ∈ otherwise, Block spell inner ss) :
    Reads (Option.map unlocated) (branch inner)
      (.word .ifWord :: (ws ++ (under spell body ++ (Outline.tokensAll (armOutlines spell arms) ++
        Outline.tokensAll (partOutlines spell .otherwise otherwise)))))
      (some (.branch {} (({}, b, unlocatedAll body) :: unlocatedArms arms)
        (unlocatedPart otherwise))) Beyond := by
  obtain ⟨items, same, values, rest⟩ := arm_items arms more
  rw [same]
  apply Reads.advance (by decide)
  intro l
  apply Reads.bind h.reads (.cons (by decide))
  intro e he
  apply Reads.expectEndOfLine
  apply Reads.bind (h'.reads _) (Reads.next_any _ _)
  intro ss hss
  apply Reads.bind (Reads.many rest) (part_next (by decide) fun _ hx => hx.ne (by decide))
  intro found hfound
  apply Reads.last (part_reads (by decide) last) fun _ hx => hx.ne (by decide)
  intro o ho
  have more_ : found.flatten.map unlocatedArm = unlocatedArms arms := by
    rw [List.map_flatten, hfound, values]
  have last_ : unlocatedPart o = unlocatedPart otherwise := by
    rw [unlocatedPart_eq, ho]
  refine .pure ?_
  rw [Option.map_some, unlocated, last_, unlocatedArms_eq, List.map_cons, more_, unlocatedArm, he,
    hss]

theorem item_reads (x : Bytes) :
    Reads id item [nameToken x, .word .inWord] (some x) Any := by
  apply Reads.expectName
  intro l
  refine .expect rfl (by decide) fun l' => ?_
  exact .pure rfl

theorem repeatForEach_reads (x : Bytes) (h : Whole ws b) (h' : Block spell inner body) :
    Reads (Option.map unlocated) (loop inner)
      (.word .repeatWord :: .word .forEach :: nameToken x :: .word .inWord ::
        (ws ++ under spell body)) (some (.repeatForEach {} x b (unlocatedAll body))) Any := by
  apply Reads.advance (by decide)
  intro l
  refine .skip? rfl (by decide) ?_
  apply Reads.bind (item_reads x) (Reads.next_any _ _)
  rintro r rfl
  apply Reads.bind h.reads (.cons (by decide))
  intro e he
  apply Reads.expectEndOfLine
  apply Reads.last (h'.reads _) fun _ _ => trivial
  intro ss hss
  exact .pure (by simp [unlocated, unlocatedAll_eq, he, hss])

theorem repeatWhile_reads (h : Whole ws b) (h' : Block spell inner body) :
    Reads (Option.map unlocated) (loop inner)
      (.word .repeatWord :: .word .whileWord :: (ws ++ under spell body))
      (some (.repeatWhile {} b (unlocatedAll body))) Any := by
  apply Reads.advance (by decide)
  intro l
  apply Reads.skip?_not (.cons (by decide))
  refine .skip? rfl (by decide) ?_
  apply Reads.bind h.reads (.cons (by decide))
  intro e he
  apply Reads.expectEndOfLine
  apply Reads.last (h'.reads _) fun _ _ => trivial
  intro ss hss
  exact .pure (by simp [unlocated, unlocatedAll_eq, he, hss])

theorem repeatTimes_reads (h : Whole ws b) (h' : Block spell inner body) :
    Reads (Option.map unlocated) (loop inner)
      (.word .repeatWord :: (ws ++ .word .times :: under spell body))
      (some (.repeatTimes {} b (unlocatedAll body))) Any := by
  obtain ⟨⟨w, us, rfl, begins⟩, reads⟩ := h
  simp only [Expression.Parser.Begins, List.mem_cons, not_or] at begins
  apply Reads.advance (by decide)
  intro l
  apply Reads.skip?_not (.cons (by simp [begins]))
  apply Reads.skip?_not (.cons (by simp [begins]))
  apply Reads.bind reads (.cons (by decide))
  intro e he
  refine .expect rfl (by decide) fun l' => ?_
  apply Reads.expectEndOfLine
  apply Reads.last (h'.reads _) fun _ _ => trivial
  intro ss hss
  exact .pure (by simp [unlocated, unlocatedAll_eq, he, hss])

theorem attempt_reads {unsuccessful continuation : Option (List Statement)}
    (h : Block spell inner body) (h' : ∀ ss ∈ unsuccessful, Block spell inner ss)
    (last : ∀ ss ∈ continuation, Block spell inner ss) :
    Reads (Option.map unlocated) (attempt inner)
      (.word .attempt :: (under spell body ++
        (Outline.tokensAll (partOutlines spell .ifUnsuccessful unsuccessful) ++
          Outline.tokensAll (partOutlines spell .thenContinue continuation))))
      (some (.attempt {} (unlocatedAll body) (unlocatedPart unsuccessful)
        (unlocatedPart continuation))) Beyond := by
  apply Reads.advance (by decide)
  intro l
  apply Reads.expectEndOfLine
  apply Reads.bind (h.reads _) (Reads.next_any _ _)
  intro ss hss
  apply Reads.bind (part_reads (by decide) h') (part_next (by decide) fun _ hx => hx.ne (by decide))
  intro u hu
  apply Reads.last (part_reads (by decide) last) fun _ hx => hx.ne (by decide)
  intro o ho
  exact .pure (by simp [unlocated, unlocatedAll_eq, unlocatedPart_eq, hss, hu, ho])

theorem printed_line {s : Statement} {ps : List Piece} (h : s.outlines spell = [.line ps []]) :
    printed spell s = tokens ps ++ [.newline] := by
  simp [printed, h, Outline.tokensAll, Outline.tokens]

theorem printed_block {s : Statement} {ps : List Piece} {os : List Outline}
    (h : s.outlines spell = .line ps (outlinesAll spell body) :: os)
    (filled : outlinesAll spell body ≠ []) :
    printed spell s = tokens ps ++ (under spell body ++ Outline.tokensAll os) := by
  simp [printed, h, Outline.tokensAll, Outline.tokens_block ps filled, under]

theorem dispatch_reads {s : Statement} (h : s.printable spell = true)
    (inside : ∀ body ∈ s.blocks, Block spell inner body) :
    ReadsBack spell (dispatch inner) s := by
  apply Reads.beginLine
  cases s with
  | display l e =>
    rw [printed_line rfl]
    exact .peek fun _ => (display_reads (whole h)).weaken fun _ _ => trivial
  | set l x e =>
    simp only [printable, Bool.and_eq_true] at h
    have line := set_reads x (whole h.2)
    rw [printed_line rfl]
    exact .peek fun _ => line.weaken fun _ _ => trivial
  | setIndex l x i e =>
    simp only [printable, Bool.and_eq_true] at h
    have line := setIndex_reads x (whole h.1.2) (whole h.2)
    rw [printed_line rfl]
    simp only [clause, tokens_append, tokens_word, tokens_blank,
      tokens_name, List.cons_append, List.append_assoc] at line ⊢
    exact .peek fun _ => line.weaken fun _ _ => trivial
  | call l f args into =>
    simp only [printable, Bool.and_eq_true] at h
    have line := call_reads f into h.1.2
    rw [printed_line rfl]
    simp only [clause, tokens_append, tokens_word, tokens_blank,
      tokens_name, List.cons_append, List.append_assoc] at line ⊢
    exact .peek fun _ => line.weaken fun _ _ => trivial
  | giveBack l e =>
    cases e with
    | none =>
      rw [printed_line rfl]
      exact .peek fun _ => giveBack_none.weaken fun _ _ => trivial
    | some e =>
      rw [printed_line rfl]
      exact .peek fun _ => (giveBack_some (whole h)).weaken fun _ _ => trivial
  | exit l =>
    rw [printed_line rfl]
    exact .peek fun _ => exit_reads.weaken fun _ _ => trivial
  | note l s =>
    rw [printed_line rfl]
    exact .peek fun _ => (note_reads s).weaken fun _ _ => trivial
  | addToList l e x =>
    simp only [printable, Bool.and_eq_true] at h
    rw [printed_line rfl]
    simp only [clause, tokens_append, tokens_word, tokens_blank, tokens_name, List.cons_append,
      List.append_assoc]
    exact .peek fun _ => (listChange_reads x (by decide) (by decide) (by decide) (fun _ _ => rfl)
      (whole h.2)).weaken fun _ _ => trivial
  | removeFromList l e x =>
    simp only [printable, Bool.and_eq_true] at h
    rw [printed_line rfl]
    simp only [clause, tokens_append, tokens_word, tokens_blank, tokens_name, List.cons_append,
      List.append_assoc]
    exact .peek fun _ => (listChange_reads x (by decide) (by decide) (by decide) (fun _ _ => rfl)
      (whole h.2)).weaken fun _ _ => trivial
  | repeatTimes l e body =>
    simp only [printable, Bool.and_eq_true] at h
    have block_ := inside body (by simp [blocks])
    have line := repeatTimes_reads (whole h.1.1) block_
    rw [printed_block rfl block_.filled]
    simp only [clause, tokens_append, tokens_word, tokens_blank, List.cons_append,
      List.append_assoc, tokens_nil, Outline.tokensAll, List.append_nil, List.nil_append]
    exact .peek fun _ => line.weaken fun _ _ => trivial
  | repeatForEach l x e body =>
    simp only [printable, Bool.and_eq_true] at h
    have block_ := inside body (by simp [blocks])
    have line := repeatForEach_reads x (whole h.1.1.2) block_
    rw [printed_block rfl block_.filled]
    simp only [clause, tokens_word, tokens_blank, tokens_name, List.cons_append,
      Outline.tokensAll, List.append_nil]
    exact .peek fun _ => line.weaken fun _ _ => trivial
  | repeatWhile l e body =>
    simp only [printable, Bool.and_eq_true] at h
    have block_ := inside body (by simp [blocks])
    have line := repeatWhile_reads (whole h.1.1) block_
    rw [printed_block rfl block_.filled]
    simp only [clause, tokens_word, tokens_blank, List.cons_append, Outline.tokensAll,
      List.append_nil]
    exact .peek fun _ => line.weaken fun _ _ => trivial
  | attempt l body unsuccessful continuation =>
    have block_ := inside body (by simp [blocks])
    have whole_ := attempt_reads block_
      (fun ss hs => inside ss (mem_blocks_attempt.2 (.inr (.inl hs))))
      (fun ss hs => inside ss (mem_blocks_attempt.2 (.inr (.inr hs))))
    rw [printed_block rfl block_.filled, Outline.tokensAll_append]
    exact .peek fun _ => whole_
  | branch l arms otherwise =>
    cases arms with
    | nil => cases h
    | cons arm arms =>
      obtain ⟨l', e, body⟩ := arm
      simp only [printable, printableArms, Bool.and_eq_true] at h
      have block_ := inside body (by simp [blocks])
      have conditions := printableArms_iff.1 h.1.2.2
      have whole_ := branch_reads (whole h.1.2.1.1.1) block_
        (fun arm ha => ⟨(conditions arm ha).1,
          inside arm.2.2 (mem_blocks_branch.2 (.inl ⟨arm, by simp [ha], rfl⟩))⟩)
        (fun ss hs => inside ss (mem_blocks_branch.2 (.inr hs)))
      rw [printed_block rfl block_.filled, Outline.tokensAll_append]
      exact .peek fun _ => whole_

theorem length_inside {s t : Statement} (h : s.printable spell = true)
    (hb : body ∈ s.blocks) (ht : t ∈ body) :
    (printed spell t).length < (printed spell s).length := by
  obtain ⟨ps, line⟩ := line_of_block h hb
  have part : (printed spell t).length ≤ (body.flatMap (printed spell)).length := by
    rw [List.flatMap_def]
    exact (List.sublist_flatten_of_mem (List.mem_map_of_mem ht)).length_le
  calc (printed spell t).length
      ≤ (Outline.tokensAll (outlinesAll spell body)).length := by rwa [tokensAll_outlinesAll]
    _ < (Outline.line ps (outlinesAll spell body)).tokens.length := Outline.length_under ps _
    _ ≤ (printed spell s).length := Outline.length_tokens_le line

theorem nested_reads (bound : List Heard) : ∀ s : Statement, s.printable spell = true →
    (printed spell s).length ≤ bound.length → ReadsBack spell (nested bound) s := by
  -- On the levels that are left: the statements of a block are shorter than what it belongs to.
  induction bound with
  | nil =>
    intro s h hb
    obtain ⟨w, us, same, -⟩ := printed_first h
    rw [same] at hb
    cases hb
  | cons _ bound ih =>
    intro s h hb
    refine dispatch_reads h fun body inside => ?_
    obtain ⟨some, each⟩ := blocks_printable h body inside
    refine block_of_each some each fun t ht => ih t (each t ht) ?_
    have shorter := length_inside h inside ht
    rw [List.length_cons] at hb
    omega

theorem statement_reads {s : Statement} (h : s.printable spell = true) :
    ReadsBack spell statement s :=
  .bounded fun bound hb => nested_reads bound s h (Nat.le_of_lt hb)

theorem statements_reads {ss : List Statement} (h : ∀ s ∈ ss, s.printable spell = true) :
    Reads (List.map unlocated) statements (Outline.tokensAll (outlinesAll spell ss))
      (ss.map unlocated) (· = .endOfFile) := by
  let items := ss.map fun s => (printed spell s, [s.unlocated])
  have rows : Reads.Items (List.map unlocated) (do
      skipNewlines
      if ← check .endOfFile then return none
      else if ← skip? .dedent then return some []
      else return some (← statement).toList) items Beyond (· = .endOfFile) := by
    refine ⟨fun i hi => ?_, fun i hi => ?_, fun x hx => hx ▸ by decide, Reads.declines ?_⟩
    · obtain ⟨s, hs, rfl⟩ := List.mem_map.1 hi
      obtain ⟨w, us, same, starts⟩ := printed_first (h s hs)
      have whole := statement_reads (h s hs)
      rw [ReadsBack, same] at whole
      have kinds : ∀ x ∈ starters, x ≠ .newline ∧ x ≠ .endOfFile ∧ x ≠ .dedent := by decide
      have opens := kinds w.kind starts
      simp only [same]
      apply Reads.skipNewlines (.cons opens.1)
      apply Reads.check (r := false) (.cons (by simpa using opens.2.1))
      apply Reads.skip?_not (.cons opens.2.2)
      refine .last whole (fun _ hx => hx) fun o ho => .pure ?_
      obtain ⟨a, rfl, ha⟩ := Option.map_eq_some_iff.1 ho
      simp [ha]
    · obtain ⟨s, hs, rfl⟩ := List.mem_map.1 hi
      obtain ⟨w, us, same, starts⟩ := printed_first (h s hs)
      exact ⟨w, us, same, (opens_of_starter starts).1⟩
    · apply Reads.skipNewlines fun x hx => by simp [hx]
      apply Reads.check (r := true) fun x hx => by simp [hx]
      exact .pure rfl
  have same : Outline.tokensAll (outlinesAll spell ss) = items.flatMap (·.1) := by
    rw [tokensAll_outlinesAll, List.flatMap_map]
  rw [same]
  refine .last (Reads.many rows) (fun _ hx => hx) fun found hfound => .pure ?_
  rw [List.map_flatten, hfound, List.map_map, ← List.flatMap_def, List.map_eq_flatMap]
  rfl

end Statement.Parser

end StepsLang
