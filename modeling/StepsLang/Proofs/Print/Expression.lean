import StepsLang.Expression.Basic
import StepsLang.Proofs.Token.Scan

namespace StepsLang

def Operator.kind : Operator → Kind
  | .add => .plus
  | .subtract => .minus
  | .multiply => .star
  | .divide => .slash
  | .modulo => .modulo
  | .equal => .isEqualTo
  | .notEqual => .isNotEqualTo
  | .less => .isLessThan
  | .greater => .isGreaterThan
  | .lessOrEqual => .isLessThanOrEqualTo
  | .greaterOrEqual => .isGreaterThanOrEqualTo
  | .and => .and
  | .or => .or

def WordOperator.kind : WordOperator → Kind
  | .addedTo => .addedTo
  | .splitBy => .splitBy
  | .characterAt => .characterAt
  | .contains => .contains
  | .startsWith => .startsWith
  | .endsWith => .endsWith
  | .isIn => .isIn

def TypeName.kind : TypeName → Kind
  | .number => .number
  | .text => .text
  | .boolean => .boolean
  | .list => .list
  | .table => .table

def TypeName.test : TypeName → Kind
  | .number => .isANumber
  | .text => .isAText
  | .boolean => .isABoolean
  | .list => .isAList
  | .table => .isATable

def paren (ps : List Piece) : List Piece := .word .leftParen :: (ps ++ [.word .rightParen])

def between (ps : List Piece) (k : Kind) (qs : List Piece) : List Piece :=
  paren ps ++ (.blank :: .word k :: .blank :: paren qs)

def leading (k : Kind) (ps : List Piece) : List Piece := .word k :: .blank :: paren ps

namespace Expression

/-- How each number of a program is written. -/
abbrev Numerals := Location → Number → Bytes

mutual
def pieces (spell : Numerals) : Expression → List Piece
  | number l n => [.numeral (spell l n)]
  | text _ s => [.quoted s]
  | boolean _ b => [.word (if b then .true else .false)]
  | nothing _ => [.word .nothing]
  | input _ => [.word .input]
  | name _ x => [.name x]
  | list _ [] => [.word .leftBracket, .word .rightBracket]
  | list _ (e :: es) =>
    .word .leftBracket ::
      (paren (e.pieces spell) ++ (itemPieces spell es ++ [.word .rightBracket]))
  | table _ [] => [.word .leftBracket, .word .colon, .word .rightBracket]
  | table _ ((key, e) :: es) =>
    .word .leftBracket ::
      (paren (key.pieces spell) ++ (.word .colon :: .blank ::
        (paren (e.pieces spell) ++ (entryPieces spell es ++ [.word .rightBracket]))))
  | binary _ op a b => between (a.pieces spell) op.kind (b.pieces spell)
  | word _ .characterAt a b =>
    leading .characterAt (a.pieces spell) ++ (.blank :: leading .of (b.pieces spell))
  | word _ op a b => between (a.pieces spell) op.kind (b.pieces spell)
  | negate _ e => .word .minus :: paren (e.pieces spell)
  | not _ e => leading .not (e.pieces spell)
  | convert _ type e =>
    paren (e.pieces spell) ++ [.blank, .word .as, .blank, .word type.kind]
  | decimal _ e places =>
    paren (e.pieces spell) ++
      (.blank :: .word .as :: .blank :: .name "decimal" :: paren (paren (places.pieces spell)))
  | typeOf _ e => leading .typeOf (e.pieces spell)
  | isA _ type e => paren (e.pieces spell) ++ [.blank, .word type.test]
  | index _ e key =>
    paren (e.pieces spell) ++
      (.word .leftBracket :: (paren (key.pieces spell) ++ [.word .rightBracket]))
  | lengthOf _ e => leading .lengthOf (e.pieces spell)
termination_by structural e => e

def itemPieces (spell : Numerals) : List Expression → List Piece
  | [] => []
  | e :: es => .word .comma :: .blank :: (paren (e.pieces spell) ++ itemPieces spell es)
termination_by structural es => es

def entryPieces (spell : Numerals) : List (Expression × Expression) → List Piece
  | [] => []
  | (key, e) :: es =>
    .word .comma :: .blank :: (paren (key.pieces spell) ++ (.word .colon :: .blank ::
      (paren (e.pieces spell) ++ entryPieces spell es)))
termination_by structural es => es
end

mutual
/-- Whether an expression can be printed: its names are names, its texts are UTF-8, and its numbers
are worth their numerals. -/
def printable (spell : Numerals) : Expression → Bool
  | number l n =>
    Piece.isNumeral (spell l n) && (Number.ofNumeral? (spell l n)).getD Number.zero == n
  | text _ s => Utf8.isValid s
  | boolean _ _ | nothing _ | input _ => true
  | name _ x => Word.isName x
  | list _ es => printableItems spell es
  | table _ es => printableEntries spell es
  | binary _ _ a b | word _ _ a b | decimal _ a b | index _ a b =>
    a.printable spell && b.printable spell
  | convert _ type e => [.number, .text, .boolean].contains type && e.printable spell
  | negate _ e | not _ e | typeOf _ e | isA _ _ e | lengthOf _ e => e.printable spell
termination_by structural e => e

def printableItems (spell : Numerals) : List Expression → Bool
  | [] => true
  | e :: es => e.printable spell && printableItems spell es
termination_by structural es => es

def printableEntries (spell : Numerals) : List (Expression × Expression) → Bool
  | [] => true
  | (key, e) :: es => key.printable spell && e.printable spell && printableEntries spell es
termination_by structural es => es
end

mutual
def unlocated : Expression → Expression
  | number _ n => number {} n
  | text _ s => text {} s
  | boolean _ b => boolean {} b
  | nothing _ => nothing {}
  | input _ => input {}
  | name _ x => name {} x
  | list _ es => list {} (unlocatedItems es)
  | table _ es => table {} (unlocatedEntries es)
  | binary _ op a b => binary {} op a.unlocated b.unlocated
  | word _ op a b => word {} op a.unlocated b.unlocated
  | negate _ e => negate {} e.unlocated
  | not _ e => not {} e.unlocated
  | convert _ type e => convert {} type e.unlocated
  | decimal _ e places => decimal {} e.unlocated places.unlocated
  | typeOf _ e => typeOf {} e.unlocated
  | isA _ type e => isA {} type e.unlocated
  | index _ e key => index {} e.unlocated key.unlocated
  | lengthOf _ e => lengthOf {} e.unlocated
termination_by structural e => e

def unlocatedItems : List Expression → List Expression
  | [] => []
  | e :: es => e.unlocated :: unlocatedItems es
termination_by structural es => es

def unlocatedEntries : List (Expression × Expression) → List (Expression × Expression)
  | [] => []
  | (key, e) :: es => (key.unlocated, e.unlocated) :: unlocatedEntries es
termination_by structural es => es
end

def Starts (ps : List Piece) : Prop :=
  ∃ p qs, ps = p :: qs ∧ p.token?.isSome = true ∧ p ≠ .word .colon

theorem pieces_starts (spell : Numerals) (e : Expression) : Starts (e.pieces spell) := by
  cases e with
  | boolean _ b => cases b <;> exact ⟨_, _, rfl, rfl, by simp⟩
  | list _ es => cases es <;> exact ⟨_, _, rfl, rfl, by simp⟩
  | table _ es => cases es <;> exact ⟨_, _, rfl, rfl, by simp⟩
  | word _ op _ _ => cases op <;> exact ⟨_, _, rfl, rfl, by simp⟩
  | _ => exact ⟨_, _, rfl, rfl, by simp⟩

theorem unlocatedItems_eq (es : List Expression) : unlocatedItems es = es.map unlocated := by
  induction es with
  | nil => rfl
  | cons e es ih => rw [unlocatedItems, ih, List.map_cons]

theorem unlocatedEntries_eq (es : List (Expression × Expression)) :
    unlocatedEntries es = es.map (Prod.map unlocated unlocated) := by
  induction es with
  | nil => rfl
  | cons e es ih => rw [unlocatedEntries, ih, List.map_cons, Prod.map]

end Expression

structure Written (k : Bytes → Prop) (ps : List Piece) : Prop where
  sound : ∀ p ∈ ps, p.isSound = true
  fit : ∀ more, k more → Fit ps more

def Anything (_ : Bytes) : Prop := True

namespace Written

variable {k k₁ : Bytes → Prop} {ps qs : List Piece} {p : Piece}

theorem nil : Written k [] := ⟨by simp, fun _ _ => trivial⟩

theorem cons (sound : p.isSound = true) (h : Written k ps)
    (before : ∀ more, k more → p.Before (render ps ++ more)) : Written k (p :: ps) :=
  ⟨List.forall_mem_cons.2 ⟨sound, h.sound⟩, fun more hm => ⟨before more hm, h.fit more hm⟩⟩

theorem append (h : Written k₁ ps) (h' : Written k qs)
    (next : ∀ more, k more → k₁ (render qs ++ more)) : Written k (ps ++ qs) :=
  ⟨List.forall_mem_append.2 ⟨h.sound, h'.sound⟩,
    fun more hm => fit_append.2 ⟨h.fit _ (next more hm), h'.fit more hm⟩⟩

theorem weaken (h : Written k₁ ps) (next : ∀ more, k more → k₁ more) : Written k ps :=
  ⟨h.sound, fun more hm => h.fit more (next more hm)⟩

theorem blank (h : Written k ps) : Written k (.blank :: ps) := .cons rfl h fun _ _ => trivial

theorem sign {x : Kind} (hx : x ∈ Piece.signs) (h : Written k ps) : Written k (.word x :: ps) :=
  .cons (by simp [Piece.isSound, hx]) h fun _ _ => .inl hx

theorem paren (h : Written Closing ps) : Written Anything (paren ps) := by
  refine sign (by decide) (h.append (sign (by decide) .nil) fun more _ => ?_)
  exact .cons _ rfl (by decide) (by decide) (by decide)

def extended : List Kind := [.ifWord, .otherwise, .isLessThan, .isGreaterThan]

theorem unextended {x : Kind} (hx : x ∈ Word.keywords ++ Word.phrases) (hn : x ∉ extended)
    {more : Bytes} (hm : Closing more) : Word.Unextended x.spelling more := by
  -- Every longer phrase goes on inside the word.
  have all : ∀ x ∈ Word.keywords ++ Word.phrases, x ∉ extended → ∀ j ∈ Word.phrases,
      x.spelling.isPrefixOf j.spelling = true → x.spelling ≠ j.spelling →
        (j.spelling.drop x.spelling.length).head?.any Byte.isNameByte = true := by
    decide
  refine Word.unextended_of_drop fun j hj start other ⟨t, rest⟩ => ?_
  have inside := all x hx hn j hj start other
  generalize j.spelling.drop x.spelling.length = r at inside rest
  cases r with
  | nil => cases inside
  | cons b r =>
    subst rest
    have stop := hm.isNameByte b rfl
    simp [stop] at inside

theorem unextended_paren {x : Kind} (hx : x ∈ Word.keywords ++ Word.phrases) (more : Bytes) :
    Word.Unextended x.spelling (Byte.space :: 40 :: more) := by
  have all : ∀ x ∈ Word.keywords ++ Word.phrases, ∀ j ∈ Word.phrases,
      x.spelling.isPrefixOf j.spelling = true → x.spelling ≠ j.spelling →
        (j.spelling.drop x.spelling.length).tail.head?.any (· != 40) = true := by
    decide
  refine Word.unextended_of_drop fun j hj start other ⟨t, rest⟩ => ?_
  have second := all x hx j hj start other
  generalize j.spelling.drop x.spelling.length = r at second rest
  obtain _ | ⟨b, _ | ⟨c, r⟩⟩ := r
  · cases second
  · cases second
  · simp only [List.cons_append, List.cons.injEq] at rest
    rw [List.tail_cons, rest.2.1] at second
    cases second

theorem word {x : Kind} (hx : x ∈ Word.keywords ++ Word.phrases) (hn : x ∉ extended)
    (h : Written k ps) (next : ∀ more, k more → Closing (render ps ++ more)) :
    Written k (.word x :: ps) := by
  refine .cons ?_ h fun more hm => .inr ⟨next more hm, unextended hx hn (next more hm)⟩
  simp only [Piece.isSound, List.append_assoc, List.contains_eq_mem, List.mem_append,
    decide_eq_true_eq] at hx ⊢
  exact .inr hx

theorem known {x : Kind} (hx : x ∈ Piece.signs ++ (Word.keywords ++ Word.phrases)) :
    (Piece.word x).isSound = true := by
  rw [Piece.isSound, List.append_assoc]
  simpa using hx

theorem leading {x : Kind} (hx : x ∈ Word.keywords ++ Word.phrases) (h : Written Closing ps) :
    Written Anything (leading x ps) := by
  refine .cons (known (List.mem_append_right _ hx)) h.paren.blank fun more _ => .inr ⟨?_, ?_⟩
  · exact Closing.space _ (by decide) (by decide)
  · exact unextended_paren hx _

theorem between {x : Kind} (hx : x ∈ Piece.signs ++ (Word.keywords ++ Word.phrases))
    (h : Written Closing ps) (h' : Written Closing qs) : Written Anything (between ps x qs) := by
  refine h.paren.append (blank ?_) fun _ _ => trivial
  rcases List.mem_append.1 hx with hx | hx
  · exact sign hx h'.paren.blank
  · exact leading hx h'

end Written

namespace Expression

theorem operator_known (op : Operator) :
    op.kind ∈ Piece.signs ++ (Word.keywords ++ Word.phrases) := by
  cases op <;> decide

theorem wordOperator_known (op : WordOperator) :
    op.kind ∈ Piece.signs ++ (Word.keywords ++ Word.phrases) := by
  cases op <;> decide

theorem type_known (type : TypeName) :
    type.kind ∈ Word.keywords ++ Word.phrases ∧ type.kind ∉ Written.extended ∧
      type.test ∈ Word.keywords ++ Word.phrases ∧ type.test ∉ Written.extended := by
  cases type <;> decide

theorem written_last {k : Kind} (hk : k ∈ Word.keywords ++ Word.phrases)
    (hn : k ∉ Written.extended) : Written Closing [.word k] :=
  .word hk hn .nil fun _ hm => hm

mutual
theorem pieces_written (spell : Numerals) : (e : Expression) → e.printable spell = true →
    Written Closing (e.pieces spell)
  | .number l n, h => by
    simp only [printable, Bool.and_eq_true] at h
    exact .cons h.1 .nil fun _ hm => hm
  | .text _ s, h => .cons h .nil fun _ _ => trivial
  | .boolean _ true, _ => written_last (by decide) (by decide)
  | .boolean _ false, _ => written_last (by decide) (by decide)
  | .nothing _, _ => written_last (by decide) (by decide)
  | .input _, _ => written_last (by decide) (by decide)
  | .name _ x, h => .cons h .nil fun _ hm => hm
  | .list _ [], _ => .sign (by decide) (.sign (by decide) .nil)
  | .list _ (e :: es), h => by
    simp only [printable, printableItems, Bool.and_eq_true] at h
    have first := (pieces_written spell e h.1).paren
    have rest := itemPieces_written spell es h.2
    have end_ : Written Closing [.word .rightBracket] := .sign (by decide) .nil
    exact .sign (by decide) (first.append (rest.append end_ fun _ _ => trivial) fun _ _ => trivial)
  | .table _ [], _ => .sign (by decide) (.sign (by decide) (.sign (by decide) .nil))
  | .table _ ((key, e) :: es), h => by
    simp only [printable, printableEntries, Bool.and_eq_true] at h
    have first := (pieces_written spell key h.1.1).paren
    have value := (pieces_written spell e h.1.2).paren
    have rest := entryPieces_written spell es h.2
    have end_ : Written Closing [.word .rightBracket] := .sign (by decide) .nil
    have entry := value.append (rest.append end_ fun _ _ => trivial) fun _ _ => trivial
    exact .sign (by decide) (first.append (.sign (by decide) entry.blank) fun _ _ => trivial)
  | .binary _ op a b, h => by
    simp only [printable, Bool.and_eq_true] at h
    have both := Written.between (operator_known op) (pieces_written spell a h.1)
      (pieces_written spell b h.2)
    exact both.weaken fun _ _ => trivial
  | .word _ op a b, h => by
    simp only [printable, Bool.and_eq_true] at h
    have first := pieces_written spell a h.1
    have second := pieces_written spell b h.2
    have infix_ := (Written.between (wordOperator_known op) first second).weaken (k := Closing)
      fun _ _ => trivial
    cases op with
    | characterAt =>
      have of_ := (Written.leading (x := .of) (by decide) second).blank
      have at_ := Written.leading (x := .characterAt) (by decide) first
      exact (at_.append of_ fun _ _ => trivial).weaken fun _ _ => trivial
    | _ => exact infix_
  | .negate _ e, h =>
    (Written.sign (by decide) (pieces_written spell e h).paren).weaken fun _ _ => trivial
  | .not _ e, h =>
    (Written.leading (by decide) (pieces_written spell e h)).weaken fun _ _ => trivial
  | .convert _ type e, h => by
    simp only [printable, Bool.and_eq_true] at h
    obtain ⟨known, plain, -, -⟩ := type_known type
    have type_ := (written_last known plain).blank
    have as_ := Written.word (x := .as) (by decide) (by decide) type_ fun more _ => by
      cases type <;> exact Closing.space _ (by decide) (by decide)
    exact (pieces_written spell e h.2).paren.append as_.blank fun _ _ => trivial
  | .decimal _ e places, h => by
    simp only [printable, Bool.and_eq_true] at h
    have inner := (pieces_written spell places h.2).paren.weaken (k := Closing) fun _ _ => trivial
    have decimal_ : Written Anything (.name "decimal" :: paren (paren (places.pieces spell))) :=
      .cons (by decide) inner.paren fun more _ =>
        Closing.cons _ (by decide) (by decide) (by decide) (by decide)
    have as_ := Written.word (x := .as) (by decide) (by decide) decimal_.blank fun more _ =>
      Closing.space _ (by decide) (by decide)
    have both := (pieces_written spell e h.1).paren.append as_.blank fun _ _ => trivial
    exact both.weaken fun _ _ => trivial
  | .typeOf _ e, h =>
    (Written.leading (by decide) (pieces_written spell e h)).weaken fun _ _ => trivial
  | .isA _ type e, h => by
    obtain ⟨-, -, known, plain⟩ := type_known type
    exact (pieces_written spell e h).paren.append (written_last known plain).blank
      fun _ _ => trivial
  | .index _ e key, h => by
    simp only [printable, Bool.and_eq_true] at h
    have end_ : Written Closing [.word .rightBracket] := .sign (by decide) .nil
    have inner := (pieces_written spell key h.2).paren.append end_ fun _ _ => trivial
    exact (pieces_written spell e h.1).paren.append (.sign (by decide) inner) fun _ _ => trivial
  | .lengthOf _ e, h =>
    (Written.leading (by decide) (pieces_written spell e h)).weaken fun _ _ => trivial
termination_by structural e => e

theorem itemPieces_written (spell : Numerals) : (es : List Expression) →
    printableItems spell es = true → Written Anything (itemPieces spell es)
  | [], _ => .nil
  | e :: es, h => by
    simp only [printableItems, Bool.and_eq_true] at h
    have first := (pieces_written spell e h.1).paren
    have rest := itemPieces_written spell es h.2
    exact .sign (by decide) (first.append rest fun _ _ => trivial).blank
termination_by structural es => es

theorem entryPieces_written (spell : Numerals) : (es : List (Expression × Expression)) →
    printableEntries spell es = true → Written Anything (entryPieces spell es)
  | [], _ => .nil
  | (key, e) :: es, h => by
    simp only [printableEntries, Bool.and_eq_true] at h
    have first := (pieces_written spell key h.1.1).paren
    have value := (pieces_written spell e h.1.2).paren
    have rest := (value.append (entryPieces_written spell es h.2) fun _ _ => trivial).blank
    exact .sign (by decide) (first.append (.sign (by decide) rest) fun _ _ => trivial).blank
termination_by structural es => es
end

end Expression

end StepsLang
