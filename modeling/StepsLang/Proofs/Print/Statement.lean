import StepsLang.Statement.Basic
import StepsLang.Proofs.Print.Expression
import StepsLang.Proofs.Print.Outline
import StepsLang.Proofs.Program.Parts

namespace StepsLang

def clause (k : Kind) (ps : List Piece) : List Piece := .word k :: .blank :: ps

def listed (rows : List (List Piece)) : List Piece :=
  rows.flatMap fun ps => .word .comma :: .blank :: ps

def Ends (more : Bytes) : Prop := ∃ rest, more = Byte.lineFeed :: rest

theorem Ends.closing {more : Bytes} (h : Ends more) : Closing more := by
  obtain ⟨rest, rfl⟩ := h
  exact .cons rest (by decide) (by decide) (by decide) (by decide)

theorem closing_of_reads {p : Piece} {more : Bytes} (some : p.token?.isSome = true)
    (other : p ≠ .word .colon) (h : p.Reads more) :
    Closing (Byte.space :: (p.spelling ++ more)) := by
  obtain ⟨b, rest, whole, read⟩ := h
  obtain ⟨t, ht⟩ := Option.isSome_iff_exists.1 some
  have kind : (Lexeme.read b rest).kind = .some t.kind := by rw [read, Piece.lexeme, ht]
  rw [whole]
  refine .space rest ?_ ?_
  · rintro rfl
    cases kind
  · rintro rfl
    have colon : t.kind = .colon := (Option.some.inj kind).symm
    cases p with
    | blank => cases ht
    | word k =>
      cases ht
      exact other (congrArg Piece.word colon)
    | _ =>
      cases ht
      cases colon

theorem name_of_head {p : Piece} {more : Bytes} (hp : p.isSound = true)
    (token : p.token?.isSome = true) (head : (p.spelling ++ more).head? = some 117) :
    ∃ x, p = .name x := by
  cases p with
  | blank => cases token
  | name x => exact ⟨x, rfl⟩
  | word k =>
    have all : ∀ k ∈ Piece.signs ++ Word.keywords ++ Word.phrases,
        k.spelling.head?.any (· != 117) = true := by decide
    have first := all k (by simpa [Piece.isSound] using hp)
    rw [Piece.spelling, List.head?_append] at head
    cases e : k.spelling.head? with
    | none => simp [e] at first
    | some b => simp_all
  | numeral s =>
    obtain ⟨whole, filled, digits, form⟩ := Piece.numeral_cases hp
    obtain ⟨b, w, rfl⟩ := List.exists_cons_of_ne_nil filled
    have digit : Byte.isDigit b = true := by simp_all
    have first : b = 117 := by
      rcases form with rfl | ⟨fraction, rfl, -⟩ <;> simpa [Piece.spelling] using head
    rw [first] at digit
    cases digit
  | quoted s => cases head
  | note s => cases head

theorem unextended_if {p : Piece} {more : Bytes} (hp : p.isSound = true)
    (token : p.token?.isSome = true) (hm : p.Before more) :
    Word.Unextended Kind.ifWord.spelling (Byte.space :: (p.spelling ++ more)) := by
  have all : ∀ j ∈ Word.phrases, Kind.ifWord.spelling.isPrefixOf j.spelling = true →
      j.spelling.drop Kind.ifWord.spelling.length =
        Byte.space :: ("unsuccessful" ++ [Byte.colon]) := by
    decide
  refine Word.unextended_of_drop fun j hj start _ ⟨t, whole⟩ => ?_
  rw [all j hj start] at whole
  have rest : "unsuccessful" ++ Byte.colon :: t = p.spelling ++ more := by
    simpa using whole
  obtain ⟨x, rfl⟩ := name_of_head hp token (by rw [← rest]; rfl)
  simp only [Piece.isSound, Word.isName, Bool.and_eq_true] at hp
  have inside : x.all Byte.isNameByte = true := hp.1.1.1.2
  have same : x = "unsuccessful" :=
    calc x = (x ++ more).takeWhile Byte.isNameByte :=
          (Bytes.takeWhile_append inside hm.isNameByte).symm
      _ = "unsuccessful" := by
          rw [show x ++ more = "unsuccessful" ++ Byte.colon :: t from rest.symm]
          rfl
  subst same
  have after : more = Byte.colon :: t := List.append_cancel_left rest.symm
  rw [after] at hm
  exact hm.colon rfl

namespace Written

variable {k : Bytes → Prop} {ps : List Piece} {x : Kind}

theorem start {ps : List Piece} (h : Written k ps) (start : Expression.Starts ps) {more : Bytes}
    (hm : k more) : Closing (Byte.space :: (render ps ++ more)) := by
  obtain ⟨p, qs, rfl, some, other⟩ := start
  have fits := h.fit more hm
  rw [render_cons, List.append_assoc]
  exact closing_of_reads some other (Piece.reads (h.sound p (by simp)) fits.1)

theorem clause (hx : x ∈ Word.keywords ++ Word.phrases) (hn : x ∉ extended)
    (start : Expression.Starts ps) (h : Written k ps) : Written k (clause x ps) :=
  .word hx hn h.blank fun _ hm => h.start start hm

theorem ifClause (start : Expression.Starts ps) (h : Written k ps) :
    Written k (StepsLang.clause .ifWord ps) := by
  refine .cons (by decide) h.blank fun more hm => .inr ⟨h.start start hm, ?_⟩
  obtain ⟨p, qs, rfl, some, other⟩ := start
  have fits := h.fit more hm
  rw [render_cons, render_cons, List.append_assoc, List.append_assoc]
  exact unextended_if (h.sound p (by simp)) some fits.1

theorem listed {rows : List (List Piece)} (h : Written Closing ps)
    (hr : ∀ ps ∈ rows, Written Closing ps) : Written Closing (ps ++ listed rows) := by
  induction rows generalizing ps with
  | nil =>
    rw [StepsLang.listed, List.flatMap_nil, List.append_nil]
    exact h
  | cons qs rows ih =>
    have rest := ih (hr qs (by simp)) fun ps hps => hr ps (by simp [hps])
    rw [StepsLang.listed, List.flatMap_cons]
    exact h.append (sign (by decide) rest.blank) fun more _ =>
      Closing.cons _ rfl (by decide) (by decide) (by decide)

theorem ending (hx : x ∈ Word.keywords ++ Word.phrases) : Written Ends [.word x] := by
  -- Phrases stay within a line.
  have all : ∀ x ∈ Word.keywords ++ Word.phrases, ∀ j ∈ Word.phrases,
      x.spelling.isPrefixOf j.spelling = true → x.spelling ≠ j.spelling →
        (j.spelling.drop x.spelling.length).head?.any (· != Byte.lineFeed) = true := by
    decide
  refine .cons (known (List.mem_append_right _ hx)) .nil fun more hm => .inr ⟨hm.closing, ?_⟩
  obtain ⟨rest, rfl⟩ := hm
  refine Word.unextended_of_drop fun j hj start other ⟨t, whole⟩ => ?_
  have first := all x hx j hj start other
  generalize j.spelling.drop x.spelling.length = r at first whole
  cases r with
  | nil => cases first
  | cons b r =>
    cases whole
    cases first

theorem row {p : Piece} (h : Written Ends (p :: ps)) (some : p.token?.isSome = true) :
    Row (p :: ps) :=
  ⟨⟨p, ps, rfl, some⟩, h.sound, fun _ => h.fit _ ⟨_, rfl⟩⟩

end Written

namespace Statement
open Expression (Numerals)

def argumentPieces (spell : Numerals) : List Expression → List Piece
  | [] => []
  | e :: es =>
    .blank :: clause .withWord (e.pieces spell ++ listed (es.map (·.pieces spell)))

def targetPieces : Option Bytes → List Piece
  | none => []
  | some x => .blank :: clause .storingResultIn [.name x]

mutual
def outlines (spell : Numerals) : Statement → List Outline
  | display _ e => [.line (clause .display (e.pieces spell)) []]
  | set _ x e =>
    [.line (clause .set (.name x :: .blank :: clause .to (e.pieces spell))) []]
  | setIndex _ x i e =>
    [.line (clause .set (.name x :: .word .leftBracket :: (i.pieces spell ++
      .word .rightBracket :: .blank :: clause .to (e.pieces spell)))) []]
  | call _ f args into =>
    [.line (clause .call (.name f :: (argumentPieces spell args ++ targetPieces into))) []]
  | giveBack _ none => [.line [.word .returnWord] []]
  | giveBack _ (some e) => [.line (clause .returnWord (e.pieces spell)) []]
  | exit _ => [.line [.word .exit] []]
  | branch _ [] _ => []
  | branch _ ((_, e, body) :: arms) otherwise =>
    .line (clause .ifWord (e.pieces spell)) (outlinesAll spell body) ::
      (armOutlines spell arms ++ partOutlines spell .otherwise otherwise)
  | repeatTimes _ count body =>
    [.line (clause .repeatWord (count.pieces spell ++ [.blank, .word .times]))
      (outlinesAll spell body)]
  | repeatForEach _ x e body =>
    [.line (clause .repeatWord (clause .forEach (.name x :: .blank ::
      clause .inWord (e.pieces spell)))) (outlinesAll spell body)]
  | repeatWhile _ e body =>
    [.line (clause .repeatWord (clause .whileWord (e.pieces spell))) (outlinesAll spell body)]
  | attempt _ body unsuccessful continuation =>
    .line [.word .attempt] (outlinesAll spell body) ::
      (partOutlines spell .ifUnsuccessful unsuccessful ++
        partOutlines spell .thenContinue continuation)
  | addToList _ e x =>
    [.line (clause .add (e.pieces spell ++ .blank :: clause .to [.name x])) []]
  | removeFromList _ e x =>
    [.line (clause .remove (e.pieces spell ++ .blank :: clause .fromWord [.name x])) []]
  | note _ s => [.line [.note s] []]
termination_by structural s => s

def outlinesAll (spell : Numerals) : List Statement → List Outline
  | [] => []
  | s :: ss => s.outlines spell ++ outlinesAll spell ss
termination_by structural ss => ss

def armOutlines (spell : Numerals) :
    List (Location × Expression × List Statement) → List Outline
  | [] => []
  | (_, e, body) :: arms =>
    .line (clause .otherwiseIf (e.pieces spell)) (outlinesAll spell body) ::
      armOutlines spell arms
termination_by structural arms => arms

def partOutlines (spell : Numerals) (k : Kind) : Option (List Statement) → List Outline
  | none => []
  | some body => [.line [.word k] (outlinesAll spell body)]
termination_by structural body => body
end

mutual
/-- Whether a statement can be printed: all that is in it can, and no block is empty. -/
def printable (spell : Numerals) : Statement → Bool
  | display _ e => e.printable spell
  | set _ x e | addToList _ e x | removeFromList _ e x => Word.isName x && e.printable spell
  | setIndex _ x i e => Word.isName x && i.printable spell && e.printable spell
  | call _ f args into =>
    Word.isName f && args.all (·.printable spell) && into.all Word.isName
  | giveBack _ e => e.all (·.printable spell)
  | exit _ => true
  | branch _ arms otherwise =>
    !arms.isEmpty && printableArms spell arms && printablePart spell otherwise
  | repeatTimes _ e body | repeatWhile _ e body =>
    e.printable spell && !body.isEmpty && printableAll spell body
  | repeatForEach _ x e body =>
    Word.isName x && e.printable spell && !body.isEmpty && printableAll spell body
  | attempt _ body unsuccessful continuation =>
    !body.isEmpty && printableAll spell body && printablePart spell unsuccessful
      && printablePart spell continuation
  | note _ s => Piece.isNote s
termination_by structural s => s

def printableAll (spell : Numerals) : List Statement → Bool
  | [] => true
  | s :: ss => s.printable spell && printableAll spell ss
termination_by structural ss => ss

def printableArms (spell : Numerals) : List (Location × Expression × List Statement) → Bool
  | [] => true
  | (_, e, body) :: arms =>
    e.printable spell && !body.isEmpty && printableAll spell body && printableArms spell arms
termination_by structural arms => arms

def printablePart (spell : Numerals) : Option (List Statement) → Bool
  | none => true
  | some body => !body.isEmpty && printableAll spell body
termination_by structural body => body
end

mutual
def unlocated : Statement → Statement
  | display _ e => display {} e.unlocated
  | set _ x e => set {} x e.unlocated
  | setIndex _ x i e => setIndex {} x i.unlocated e.unlocated
  | call _ f args into => call {} f (args.map (·.unlocated)) into
  | giveBack _ e => giveBack {} (e.map (·.unlocated))
  | exit _ => exit {}
  | branch _ arms otherwise => branch {} (unlocatedArms arms) (unlocatedPart otherwise)
  | repeatTimes _ e body => repeatTimes {} e.unlocated (unlocatedAll body)
  | repeatForEach _ x e body => repeatForEach {} x e.unlocated (unlocatedAll body)
  | repeatWhile _ e body => repeatWhile {} e.unlocated (unlocatedAll body)
  | attempt _ body unsuccessful continuation =>
    attempt {} (unlocatedAll body) (unlocatedPart unsuccessful) (unlocatedPart continuation)
  | addToList _ e x => addToList {} e.unlocated x
  | removeFromList _ e x => removeFromList {} e.unlocated x
  | note _ s => note {} s
termination_by structural s => s

def unlocatedAll : List Statement → List Statement
  | [] => []
  | s :: ss => s.unlocated :: unlocatedAll ss
termination_by structural ss => ss

def unlocatedArms : List (Location × Expression × List Statement) →
    List (Location × Expression × List Statement)
  | [] => []
  | (_, e, body) :: arms => ({}, e.unlocated, unlocatedAll body) :: unlocatedArms arms
termination_by structural arms => arms

def unlocatedPart : Option (List Statement) → Option (List Statement)
  | none => none
  | some body => some (unlocatedAll body)
termination_by structural body => body
end

variable {spell : Numerals}

theorem armOutlines_eq (arms : List (Location × Expression × List Statement)) :
    armOutlines spell arms = arms.map fun arm =>
      .line (clause .otherwiseIf (arm.2.1.pieces spell)) (outlinesAll spell arm.2.2) := by
  induction arms with
  | nil => rfl
  | cons arm arms ih => rw [armOutlines, ih, List.map_cons]

theorem line_of_block {s : Statement} (h : s.printable spell = true) {body : List Statement}
    (hb : body ∈ s.blocks) : ∃ ps, .line ps (outlinesAll spell body) ∈ s.outlines spell := by
  cases s with
  | branch l arms otherwise =>
    cases arms with
    | nil => cases h
    | cons arm arms =>
      rcases mem_blocks_branch.1 hb with ⟨arm, ha, rfl⟩ | rfl
      · rcases List.mem_cons.1 ha with rfl | ha
        · exact ⟨_, List.mem_cons_self⟩
        · refine ⟨clause .otherwiseIf (arm.2.1.pieces spell), ?_⟩
          refine List.mem_cons_of_mem _ (List.mem_append_left _ ?_)
          rw [armOutlines_eq]
          exact List.mem_map.2 ⟨arm, ha, rfl⟩
      · exact ⟨[.word .otherwise], by simp [outlines, partOutlines]⟩
  | attempt l first unsuccessful continuation =>
    rcases mem_blocks_attempt.1 hb with rfl | rfl | rfl
    · exact ⟨_, List.mem_cons_self⟩
    · exact ⟨[.word .ifUnsuccessful], by simp [outlines, partOutlines]⟩
    · exact ⟨[.word .thenContinue], by simp [outlines, partOutlines]⟩
  | repeatTimes l e first | repeatForEach l x e first | repeatWhile l e first =>
    obtain rfl := List.mem_singleton.1 hb
    exact ⟨_, List.mem_cons_self⟩
  | _ => cases hb

theorem printableAll_eq (ss : List Statement) :
    printableAll spell ss = ss.all (·.printable spell) := by
  induction ss with
  | nil => rfl
  | cons s ss ih => rw [printableAll, ih, List.all_cons]

theorem printableArms_iff {arms : List (Location × Expression × List Statement)} :
    printableArms spell arms = true ↔ ∀ arm ∈ arms,
      arm.2.1.printable spell = true ∧ arm.2.2 ≠ [] ∧
        ∀ s ∈ arm.2.2, s.printable spell = true := by
  induction arms with
  | nil => simp [printableArms]
  | cons arm arms ih => simp [printableArms, ih, printableAll_eq, and_assoc]

theorem printablePart_iff {body : Option (List Statement)} :
    printablePart spell body = true ↔ ∀ ss ∈ body,
      ss ≠ [] ∧ ∀ s ∈ ss, s.printable spell = true := by
  cases body with
  | none => simp [printablePart]
  | some body => simp [printablePart, printableAll_eq]

theorem blocks_printable {s : Statement} (h : s.printable spell = true) :
    ∀ body ∈ s.blocks, body ≠ [] ∧ ∀ s ∈ body, s.printable spell = true := by
  intro body hb
  cases s with
  | branch l arms otherwise =>
    simp only [printable, Bool.and_eq_true] at h
    rcases mem_blocks_branch.1 hb with ⟨arm, ha, rfl⟩ | last
    · exact (printableArms_iff.1 h.1.2 arm ha).2
    · exact printablePart_iff.1 h.2 body last
  | attempt l first unsuccessful continuation =>
    simp only [printable, Bool.and_eq_true] at h
    rcases mem_blocks_attempt.1 hb with rfl | part | part
    · exact ⟨by simpa using h.1.1.1, by simpa [printableAll_eq] using h.1.1.2⟩
    · exact printablePart_iff.1 h.1.2 body part
    · exact printablePart_iff.1 h.2 body part
  | repeatTimes l e first | repeatForEach l x e first | repeatWhile l e first =>
    obtain rfl := List.mem_singleton.1 hb
    simp only [printable, Bool.and_eq_true] at h
    exact ⟨by simpa using h.1.2, by simpa [printableAll_eq] using h.2⟩
  | _ => cases hb

theorem unlocatedAll_eq (ss : List Statement) : unlocatedAll ss = ss.map unlocated := by
  induction ss with
  | nil => rfl
  | cons s ss ih => rw [unlocatedAll, ih, List.map_cons]

def unlocatedArm (arm : Location × Expression × List Statement) :
    Location × Expression × List Statement :=
  ({}, arm.2.1.unlocated, arm.2.2.map unlocated)

theorem unlocatedArms_eq (arms : List (Location × Expression × List Statement)) :
    unlocatedArms arms = arms.map unlocatedArm := by
  induction arms with
  | nil => rfl
  | cons arm arms ih => rw [unlocatedArms, ih, unlocatedAll_eq, List.map_cons, unlocatedArm]

theorem unlocatedPart_eq (body : Option (List Statement)) :
    unlocatedPart body = body.map (·.map unlocated) := by
  cases body with
  | none => rfl
  | some body => rw [unlocatedPart, unlocatedAll_eq, Option.map_some]

theorem starts_name (x : Bytes) (ps : List Piece) : Expression.Starts (.name x :: ps) :=
  ⟨_, _, rfl, rfl, by simp⟩

theorem starts_append {ps : List Piece} (h : Expression.Starts ps) (qs : List Piece) :
    Expression.Starts (ps ++ qs) := by
  obtain ⟨p, ps, rfl, some, other⟩ := h
  exact ⟨p, ps ++ qs, rfl, some, other⟩

theorem starts_clause {k : Kind} (hk : k ≠ .colon) (ps : List Piece) :
    Expression.Starts (clause k ps) :=
  ⟨_, _, rfl, rfl, by simpa using hk⟩

theorem written_ends {e : Expression} (h : e.printable spell = true) :
    Written Ends (e.pieces spell) :=
  (Expression.pieces_written spell e h).weaken fun _ => Ends.closing

theorem written_name {x : Bytes} (h : Word.isName x = true) : Written Ends [.name x] :=
  .cons h .nil fun _ => Ends.closing

theorem closing_target (into : Option Bytes) {more : Bytes} (hm : Ends more) :
    Closing (render (targetPieces into) ++ more) := by
  cases into with
  | none => exact hm.closing
  | some x => exact .space _ (by decide) (by decide)

theorem closing_arguments (args : List Expression) {more : Bytes} (hm : Closing more) :
    Closing (render (argumentPieces spell args) ++ more) := by
  cases args with
  | nil => exact hm
  | cons e es => exact .space _ (by decide) (by decide)

theorem target_written {into : Option Bytes} (h : into.all Word.isName = true) :
    Written Ends (targetPieces into) := by
  cases into with
  | none => exact .nil
  | some x =>
    have name_ := written_name h
    exact (Written.clause (by decide) (by decide) (starts_name x []) name_).blank

theorem arguments_written {args : List Expression} (h : args.all (·.printable spell) = true) :
    Written Closing (argumentPieces spell args) := by
  cases args with
  | nil => exact .nil
  | cons e es =>
    rw [List.all_cons, Bool.and_eq_true, List.all_eq_true] at h
    have rows : ∀ ps ∈ es.map (·.pieces spell), Written Closing ps := by
      intro ps hps
      obtain ⟨e, he, rfl⟩ := List.mem_map.1 hps
      exact Expression.pieces_written spell e (h.2 e he)
    have both := (Expression.pieces_written spell e h.1).listed rows
    exact (Written.clause (by decide) (by decide)
      (starts_append (Expression.pieces_starts spell e) _) both).blank

theorem clause_row {k : Kind} {ps : List Piece} (hk : k ∈ Word.keywords ++ Word.phrases)
    (hn : k ∉ Written.extended) (start : Expression.Starts ps) (h : Written Ends ps) :
    Row (clause k ps) :=
  (Written.clause hk hn start h).row rfl

open Outline in
theorem readable_line {ps : List Piece} {under : List Outline} (h : Row ps)
    (hu : ReadableAll under) : ReadableAll [.line ps under] :=
  ⟨⟨h, hu⟩, trivial⟩

open Outline Expression in
mutual
theorem outlines_readable : (s : Statement) → s.printable spell = true →
    ReadableAll (s.outlines spell)
  | display _ e, h => readable_line
    (clause_row (by decide) (by decide) (pieces_starts spell e) (written_ends h)) trivial
  | set _ x e, h => by
    simp only [printable, Bool.and_eq_true] at h
    have to_ := Written.clause (x := .to) (by decide) (by decide) (pieces_starts spell e)
      (written_ends h.2)
    have name_ := Written.cons (p := .name x) h.1 to_.blank fun more _ =>
      Closing.space _ (by decide) (by decide)
    exact readable_line (clause_row (by decide) (by decide) (starts_name x _) name_) trivial
  | setIndex _ x i e, h => by
    simp only [printable, Bool.and_eq_true] at h
    have to_ := Written.clause (x := .to) (by decide) (by decide) (pieces_starts spell e)
      (written_ends h.2)
    have bracket := Written.sign (x := .rightBracket) (by decide) to_.blank
    have index := (pieces_written spell i h.1.2).append bracket fun more _ =>
      Closing.cons _ rfl (by decide) (by decide) (by decide)
    have name_ := Written.cons (p := .name x) h.1.1
      (Written.sign (x := .leftBracket) (by decide) index) fun more _ =>
        Closing.cons _ rfl (by decide) (by decide) (by decide)
    exact readable_line (clause_row (by decide) (by decide) (starts_name x _) name_) trivial
  | call _ f args into, h => by
    simp only [printable, Bool.and_eq_true] at h
    have after := (arguments_written h.1.2).append (target_written h.2) fun more hm =>
      closing_target into hm
    have name_ := Written.cons (p := .name f) h.1.1 after fun more hm => by
      rw [render_append, List.append_assoc]
      exact closing_arguments args (closing_target into hm)
    exact readable_line (clause_row (by decide) (by decide) (starts_name f _) name_) trivial
  | giveBack _ none, _ => readable_line ((Written.ending (by decide)).row rfl) trivial
  | giveBack _ (some e), h => readable_line
    (clause_row (by decide) (by decide) (pieces_starts spell e) (written_ends h)) trivial
  | exit _, _ => readable_line ((Written.ending (by decide)).row rfl) trivial
  | branch _ [] _, _ => trivial
  | branch _ ((_, e, body) :: arms) otherwise, h => by
    simp only [printable, printableArms, Bool.and_eq_true] at h
    have row := (Written.ifClause (pieces_starts spell e) (written_ends h.1.2.1.1.1)).row rfl
    have rest := readableAll_append.2 ⟨arms_readable arms h.1.2.2,
      part_readable (k := .otherwise) otherwise (by decide) h.2⟩
    exact ⟨⟨row, outlinesAll_readable body h.1.2.1.2⟩, rest⟩
  | repeatTimes _ e body, h => by
    simp only [printable, Bool.and_eq_true] at h
    have times_ := (Written.ending (x := .times) (by decide)).blank
    have count := (pieces_written spell e h.1.1).append times_ fun more _ =>
      Closing.space _ (by decide) (by decide)
    have row := clause_row (k := .repeatWord) (by decide) (by decide)
      (starts_append (pieces_starts spell e) _) count
    exact readable_line row (outlinesAll_readable body h.2)
  | repeatForEach _ x e body, h => by
    simp only [printable, Bool.and_eq_true] at h
    have in_ := Written.clause (x := .inWord) (by decide) (by decide) (pieces_starts spell e)
      (written_ends h.1.1.2)
    have name_ := Written.cons (p := .name x) h.1.1.1 in_.blank fun more _ =>
      Closing.space _ (by decide) (by decide)
    have each := Written.clause (x := .forEach) (by decide) (by decide) (starts_name x _) name_
    have row := clause_row (k := .repeatWord) (by decide) (by decide)
      (starts_clause (by decide) _) each
    exact readable_line row (outlinesAll_readable body h.2)
  | repeatWhile _ e body, h => by
    simp only [printable, Bool.and_eq_true] at h
    have while_ := Written.clause (x := .whileWord) (by decide) (by decide)
      (pieces_starts spell e) (written_ends h.1.1)
    have row := clause_row (k := .repeatWord) (by decide) (by decide)
      (starts_clause (by decide) _) while_
    exact readable_line row (outlinesAll_readable body h.2)
  | attempt _ body unsuccessful continuation, h => by
    simp only [printable, Bool.and_eq_true] at h
    have rest := readableAll_append.2
      ⟨part_readable (k := .ifUnsuccessful) unsuccessful (by decide) h.1.2,
        part_readable (k := .thenContinue) continuation (by decide) h.2⟩
    have row := (Written.ending (x := .attempt) (by decide)).row rfl
    exact ⟨⟨row, outlinesAll_readable body h.1.1.2⟩, rest⟩
  | addToList _ e x, h => by
    simp only [printable, Bool.and_eq_true] at h
    have to_ := Written.clause (x := .to) (by decide) (by decide) (starts_name x [])
      (written_name h.1)
    have value := (pieces_written spell e h.2).append to_.blank fun more _ =>
      Closing.space _ (by decide) (by decide)
    exact readable_line (clause_row (by decide) (by decide)
      (starts_append (pieces_starts spell e) _) value) trivial
  | removeFromList _ e x, h => by
    simp only [printable, Bool.and_eq_true] at h
    have from_ := Written.clause (x := .fromWord) (by decide) (by decide) (starts_name x [])
      (written_name h.1)
    have value := (pieces_written spell e h.2).append from_.blank fun more _ =>
      Closing.space _ (by decide) (by decide)
    exact readable_line (clause_row (by decide) (by decide)
      (starts_append (pieces_starts spell e) _) value) trivial
  | note _ s, h => by
    refine readable_line (Written.row ?_ rfl) trivial
    exact .cons h .nil fun more ⟨rest, same⟩ => by rw [same]; rfl
termination_by structural s => s

theorem outlinesAll_readable : (ss : List Statement) → printableAll spell ss = true →
    ReadableAll (outlinesAll spell ss)
  | [], _ => trivial
  | s :: ss, h => by
    simp only [printableAll, Bool.and_eq_true] at h
    exact readableAll_append.2 ⟨outlines_readable s h.1, outlinesAll_readable ss h.2⟩
termination_by structural ss => ss

theorem arms_readable : (arms : List (Location × Expression × List Statement)) →
    printableArms spell arms = true → ReadableAll (armOutlines spell arms)
  | [], _ => trivial
  | (_, e, body) :: arms, h => by
    simp only [printableArms, Bool.and_eq_true] at h
    have row := clause_row (k := .otherwiseIf) (by decide) (by decide) (pieces_starts spell e)
      (written_ends h.1.1.1)
    exact ⟨⟨row, outlinesAll_readable body h.1.2⟩, arms_readable arms h.2⟩
termination_by structural arms => arms

theorem part_readable {k : Kind} : (body : Option (List Statement)) →
    k ∈ Word.keywords ++ Word.phrases → printablePart spell body = true →
      ReadableAll (partOutlines spell k body)
  | none, _, _ => trivial
  | some body, hk, h => by
    simp only [printablePart, Bool.and_eq_true] at h
    exact readable_line ((Written.ending hk).row rfl) (outlinesAll_readable body h.2)
termination_by structural body => body
end

end Statement

end StepsLang
