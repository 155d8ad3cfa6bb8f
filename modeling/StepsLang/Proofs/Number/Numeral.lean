import StepsLang.Number.Numeral
import StepsLang.Proofs.Number.Rounding
import StepsLang.Proofs.Text.Character

namespace StepsLang.Number.Numeral

def Digits (s : Bytes) : Prop := ∀ b ∈ s, Byte.isDigit b = true

inductive Fraction : Bytes → Bytes → Prop
  | none : Fraction [] []
  | point {digits : Bytes} : Digits digits → Fraction (Byte.dot :: digits) digits

inductive Sign : Bytes → Bool → Prop
  | none : Sign [] false
  | plus : Sign [Byte.plus] false
  | minus : Sign [Byte.minus] true

inductive Power : Bytes → ℤ → Prop
  | none : Power [] 0
  | marked {marker : UInt8} {sign digits : Bytes} {negative : Bool} : marker = 101 ∨ marker = 69 →
    Sign sign negative → Digits digits → digits ≠ [] →
    Power (marker :: (sign ++ digits))
      (if negative then -(Bytes.digitsValue digits : ℤ) else Bytes.digitsValue digits)

inductive Remark : Bytes → Prop
  | none : Remark []
  | parentheses {name : Bytes} : (∀ b ∈ name, Byte.isNameByte b = true) →
    Remark (40 :: (name ++ [41]))

inductive Spells : Bytes → Numeral → Prop
  | decimal {whole point fraction power : Bytes} {k : ℤ} : Digits whole → Fraction point fraction →
    whole ++ fraction ≠ [] → Power power k →
    Spells (whole ++ (point ++ power))
      (.decimal (Bytes.digitsValue (whole ++ fraction)) (k - fraction.length))
  | infinity {word : Bytes} :
    word.map Byte.toLower = "inf" ∨ word.map Byte.toLower = "infinity" → Spells word .infinity
  | nan {word remark : Bytes} : word.map Byte.toLower = "nan" → Remark remark →
    Spells (word ++ remark) .nan

section

variable {whole point fraction power rest s : Bytes} {k : ℤ}

theorem toLower_eq_e (b : UInt8) : Byte.toLower b = 101 ↔ b = 101 ∨ b = 69 := by
  exact Byte.cases (P := fun b => Byte.toLower b = 101 ↔ b = 101 ∨ b = 69) (by decide +kernel) b

theorem span_append (digits : Digits whole) (stop : ∀ b ∈ rest.head?, Byte.isDigit b = false) :
    spanDigits Byte.isDigit (whole ++ rest) = (whole, rest) := by
  have none : rest.takeWhile Byte.isDigit = [] ∧ rest.dropWhile Byte.isDigit = rest := by
    cases rest with
    | nil => exact ⟨rfl, rfl⟩
    | cons b rest =>
      have stop := stop b rfl
      simp [stop]
  rw [spanDigits, List.takeWhile_append_of_pos digits, List.dropWhile_append_of_pos digits, none.1,
    none.2, List.append_nil]

theorem digits_takeWhile (s : Bytes) : Digits (s.takeWhile Byte.isDigit) := by
  exact List.all_eq_true.1 (List.all_takeWhile)

theorem pointed?_append (digits : Digits whole) (fraction_ : Fraction point fraction)
    (some : whole ++ fraction ≠ [])
    (stop : ∀ b ∈ rest.head?, Byte.isDigit b = false ∧ b ≠ Byte.dot) :
    pointed? Byte.isDigit (whole ++ (point ++ rest)) = Option.some (whole, fraction, rest) := by
  have behind : ∀ b ∈ rest.head?, Byte.isDigit b = false := fun b hb => (stop b hb).1
  cases fraction_ with
  | none =>
    have full : whole.isEmpty = false := by simpa using some
    rw [List.nil_append, pointed?, span_append digits behind]
    cases rest with
    | nil => simp [full]
    | cons b rest =>
      have other := (stop b rfl).2
      simp [full, other]
  | point fraction_ =>
    have full : ¬ (whole.isEmpty && fraction.isEmpty) = true := by simpa using some
    rw [pointed?, span_append digits (by rintro b ⟨⟩; rfl)]
    simp only [List.cons_append, beq_self_eq_true, if_true, span_append fraction_ behind,
      if_neg full]

theorem pointed?_sound (h : pointed? Byte.isDigit s = some (whole, fraction, rest)) :
    ∃ point, s = whole ++ (point ++ rest) ∧ Digits whole ∧ Fraction point fraction ∧
      whole ++ fraction ≠ [] := by
  have split : s.takeWhile Byte.isDigit ++ s.dropWhile Byte.isDigit = s :=
    List.takeWhile_append_dropWhile
  have digits := digits_takeWhile s
  simp only [pointed?, spanDigits] at h
  split at h
  · next dropped b more behind =>
    rw [behind] at split
    by_cases dot : b = Byte.dot
    · subst dot
      rw [beq_self_eq_true, if_pos rfl] at h
      obtain ⟨full, h⟩ := Option.ite_none_left_eq_some.1 h
      cases h
      refine ⟨Byte.dot :: more.takeWhile Byte.isDigit, ?_, digits, .point (digits_takeWhile more),
        ?_⟩
      · rw [List.cons_append, List.takeWhile_append_dropWhile, split]
      · simpa using full
    · rw [if_neg (by simpa using dot)] at h
      obtain ⟨full, h⟩ := Option.ite_none_left_eq_some.1 h
      cases h
      exact ⟨[], (List.takeWhile_append_dropWhile).symm, digits, .none, by simpa using full⟩
  · next behind =>
    obtain ⟨full, h⟩ := Option.ite_none_left_eq_some.1 h
    cases h
    rw [behind] at split
    exact ⟨[], split.symm, digits, .none, by simpa using full⟩

theorem exponent_eq (h : Power power k) : exponent 101 power = (k, []) := by
  cases h with
  | none => rfl
  | @marked marker sign digits negative letter sign_ digits_ some =>
    have known := (toLower_eq_e marker).2 letter
    have full : digits.isEmpty = false := by simpa using some
    have span : spanDigits Byte.isDigit (digits ++ []) = (digits, []) :=
      span_append digits_ (by simp)
    rw [List.append_nil] at span
    cases sign_ with
    | none =>
      obtain ⟨b, more, rfl⟩ := List.exists_cons_of_ne_nil some
      have digit := digits_ b List.mem_cons_self
      have minus : b ≠ Byte.minus := by rintro rfl; cases digit
      have plus : b ≠ Byte.plus := by rintro rfl; cases digit
      simp [exponent, known, minus, plus, span]
    | plus =>
      have other : (Byte.plus == Byte.minus) = false := rfl
      simp [exponent, known, span, full, other]
    | minus => simp [exponent, known, span, full]

theorem exists_sign (s : Bytes) :
    ∃ sign unsigned negative, Sign sign negative ∧ s = sign ++ unsigned ∧
      (s.head? == some Byte.minus) = negative ∧
      (if (s.head? == some Byte.minus || s.head? == some Byte.plus) = true then s.drop 1 else s) =
        unsigned := by
  by_cases minus : s.head? = some Byte.minus
  · obtain ⟨rest, rfl⟩ := List.head?_eq_some_iff.1 minus
    exact ⟨_, rest, true, .minus, rfl, rfl, rfl⟩
  · by_cases plus : s.head? = some Byte.plus
    · obtain ⟨rest, rfl⟩ := List.head?_eq_some_iff.1 plus
      exact ⟨_, rest, false, .plus, rfl, rfl, rfl⟩
    · exact ⟨[], s, false, .none, rfl, by simpa using minus, by simp [minus, plus]⟩

theorem exponent_sound (h : exponent 101 s = (k, [])) : Power s k := by
  cases s with
  | nil =>
    cases h
    exact .none
  | cons marker more =>
    simp only [exponent] at h
    by_cases letter : Byte.toLower marker = 101
    · rw [if_pos (by simpa using letter)] at h
      obtain ⟨sign, unsigned, negative, sign_, rfl, minus, rest⟩ := exists_sign more
      rw [minus] at h rest
      rw [rest, spanDigits] at h
      split at h
      · cases h
      · next full =>
        obtain ⟨rfl, behind⟩ := Prod.mk.inj h
        dsimp only at full behind ⊢
        have whole := List.takeWhile_append_dropWhile (l := unsigned) (p := Byte.isDigit)
        rw [behind, List.append_nil] at whole
        rw [whole] at full ⊢
        refine .marked ((toLower_eq_e marker).1 letter) sign_ (whole ▸ digits_takeWhile unsigned) ?_
        simpa using full
    · rw [if_neg (by simpa using letter)] at h
      cases h

theorem decimal?_sound {numeral : Numeral} (h : decimal? s = some (numeral, [])) :
    Spells s numeral := by
  obtain ⟨⟨whole, fraction, rest⟩, read, made⟩ := Option.map_eq_some_iff.1 h
  obtain ⟨point, rfl, digits, fraction_, some⟩ := pointed?_sound read
  obtain ⟨rfl, behind⟩ := Prod.mk.inj made
  exact .decimal digits fraction_ some (exponent_sound (Prod.ext rfl behind))

theorem Power.stop (h : Power power k) :
    ∀ b ∈ power.head?, Byte.isDigit b = false ∧ b ≠ Byte.dot := by
  cases h with
  | none => simp
  | marked letter =>
    rintro b ⟨⟩
    rcases letter with rfl | rfl <;> decide

theorem decimal?_letter {b : UInt8} {more : Bytes} (h : Byte.isLetter b = true) :
    decimal? (b :: more) = none := by
  have other : Byte.isDigit b = false ∧ b ≠ Byte.dot := by
    revert h
    exact Byte.cases (P := fun b => Byte.isLetter b = true → Byte.isDigit b = false ∧ b ≠ Byte.dot)
      (by decide +kernel) b
  simp [decimal?, pointed?, spanDigits, other]

theorem decimal?_complete (digits : Digits whole) (fraction_ : Fraction point fraction)
    (some : whole ++ fraction ≠ []) (power_ : Power power k) :
    decimal? (whole ++ (point ++ power)) =
      Option.some (.decimal (Bytes.digitsValue (whole ++ fraction)) (k - fraction.length), []) := by
  rw [decimal?, pointed?_append digits fraction_ some power_.stop, Option.map_some]
  simp only [exponent_eq power_]

end

section

variable {word w s rest : Bytes}

theorem word?_eq (word s : Bytes) :
    word? word s = if word = (s.map Byte.toLower).take word.length then some (s.drop word.length)
      else none := by
  simp only [word?, List.map_take, beq_iff_eq]

theorem word?_append (h : w.map Byte.toLower = word) (rest : Bytes) :
    word? word (w ++ rest) = some rest := by
  have length : word.length = w.length := by rw [← h, List.length_map]
  rw [word?_eq, List.map_append, h, List.take_left, if_pos rfl, length, List.drop_left]

theorem word?_sound (h : word? word s = some rest) :
    ∃ w, w.map Byte.toLower = word ∧ s = w ++ rest := by
  rw [word?_eq] at h
  obtain ⟨same, h⟩ := Option.ite_none_right_eq_some.1 h
  cases h
  exact ⟨s.take word.length, by rw [List.map_take]; exact same.symm,
    (List.take_append_drop _ _).symm⟩

theorem letter_of_toLower {b : UInt8} : Byte.toLower b = 105 ∨ Byte.toLower b = 110 →
    Byte.isLetter b = true :=
  Byte.cases (P := fun b => Byte.toLower b = 105 ∨ Byte.toLower b = 110 → Byte.isLetter b = true)
    (by decide +kernel) b

theorem afterRemark_complete (h : Remark s) : afterRemark s = [] := by
  cases h with
  | none => rfl
  | @parentheses name inside =>
    have behind : (name ++ [41]).dropWhile Byte.isNameByte = [41] := by
      rw [List.dropWhile_append_of_pos inside]
      rfl
    simp only [afterRemark, behind]

theorem afterRemark_sound (h : afterRemark s = []) : Remark s := by
  unfold afterRemark at h
  split at h
  · next rest =>
    split at h
    · next after behind =>
      subst h
      have whole := List.takeWhile_append_dropWhile (l := rest) (p := Byte.isNameByte)
      rw [behind] at whole
      rw [← whole]
      exact .parentheses fun b hb => List.all_eq_true.1 List.all_takeWhile b hb
    · cases h
  · subst h
    exact .none

theorem special?_sound {numeral : Numeral} (h : special? s = some (numeral, [])) :
    Spells s numeral := by
  simp only [special?] at h
  cases nan : word? "nan" s with
  | some rest =>
    rw [nan] at h
    obtain ⟨rfl, remark⟩ := Prod.mk.inj (Option.some.inj h)
    obtain ⟨w, lower, rfl⟩ := word?_sound nan
    exact .nan lower (afterRemark_sound remark)
  | none =>
    cases infinity : word? "infinity" s with
    | some rest =>
      rw [nan, infinity] at h
      obtain ⟨rfl, rfl⟩ := Prod.mk.inj (Option.some.inj h)
      obtain ⟨w, lower, rfl⟩ := word?_sound infinity
      rw [List.append_nil]
      exact .infinity (.inr lower)
    | none =>
      cases inf : word? "inf" s with
      | some rest =>
        rw [nan, infinity, inf] at h
        obtain ⟨rfl, rfl⟩ := Prod.mk.inj (Option.some.inj h)
        obtain ⟨w, lower, rfl⟩ := word?_sound inf
        rw [List.append_nil]
        exact .infinity (.inl lower)
      | none =>
        rw [nan, infinity, inf] at h
        cases h

theorem special?_complete_infinity
    (h : s.map Byte.toLower = "inf" ∨ s.map Byte.toLower = "infinity") :
    special? s = some (.infinity, []) := by
  have length : s.length = (s.map Byte.toLower).length := (List.length_map _).symm
  rcases h with lower | lower <;> rw [lower] at length
  · have nan : word? "nan" s = none := by rw [word?_eq, lower, if_neg (by decide)]
    have infinity : word? "infinity" s = none := by rw [word?_eq, lower, if_neg (by decide)]
    have inf : word? "inf" s = some [] := by
      rw [word?_eq, lower, if_pos (by decide), ← length, List.drop_length]
    rw [special?, nan, infinity, inf]
  · have nan : word? "nan" s = none := by rw [word?_eq, lower, if_neg (by decide)]
    have infinity : word? "infinity" s = some [] := by
      rw [word?_eq, lower, if_pos (by decide), ← length, List.drop_length]
    rw [special?, nan, infinity]

theorem special?_complete_nan {remark : Bytes} (lower : w.map Byte.toLower = "nan")
    (ends : Remark remark) : special? (w ++ remark) = some (.nan, []) := by
  simp only [special?, word?_append lower, afterRemark_complete ends]

theorem decimal?_of_lower {b : UInt8} {lower : Bytes} (h : b = 105 ∨ b = 110)
    (same : s.map Byte.toLower = b :: lower) (more : Bytes) : decimal? (s ++ more) = none := by
  obtain ⟨c, rest, rfl, first, -⟩ := List.map_eq_cons_iff.1 same
  exact decimal?_letter (letter_of_toLower (first ▸ h))

theorem read?_sound {numeral : Numeral} (h : read? s = some (numeral, [])) : Spells s numeral := by
  rcases Option.or_eq_some_iff.1 h with decimal | ⟨-, special⟩
  · exact decimal?_sound decimal
  · exact special?_sound special

theorem read?_complete {numeral : Numeral} (h : Spells s numeral) :
    read? s = some (numeral, []) := by
  cases h with
  | decimal digits fraction some power =>
    rw [read?, decimal?_complete digits fraction some power]
    rfl
  | infinity lower =>
    have none := lower.elim (decimal?_of_lower (.inl rfl) · []) (decimal?_of_lower (.inl rfl) · [])
    rw [List.append_nil] at none
    rw [read?, none, special?_complete_infinity lower]
    rfl
  | @nan word remark lower ends =>
    have none := decimal?_of_lower (.inr rfl) lower remark
    rw [read?, none, special?_complete_nan lower ends]
    rfl

theorem read?_iff {numeral : Numeral} : read? s = some (numeral, []) ↔ Spells s numeral :=
  ⟨read?_sound, read?_complete⟩

end

def isSpace (b : UInt8) : Bool :=
  b == Byte.space || b == Byte.tab || b == Byte.lineFeed || b == Byte.carriageReturn

theorem isSpace_facts (b : UInt8) : (Byte.isNameByte b = true → isSpace b = false) ∧
    isSpace (Byte.toLower b) = isSpace b :=
  Byte.cases (P := fun b => (Byte.isNameByte b = true → isSpace b = false) ∧
    isSpace (Byte.toLower b) = isSpace b) (by decide +kernel) b

theorem isNameByte_of_isDigit {b : UInt8} (h : Byte.isDigit b = true) :
    Byte.isNameByte b = true := by
  simp [Byte.isNameByte, h]

section

variable {s word : Bytes} {numeral : Numeral}

theorem solid_of_all (h : (s.all fun b => !isSpace b) = true) : ∀ b ∈ s, isSpace b = false := by
  simpa using h

theorem Digits.solid (h : Digits s) : ∀ b ∈ s, isSpace b = false := fun b hb =>
  (isSpace_facts b).1 (isNameByte_of_isDigit (h b hb))

theorem solid_of_lower {lower : Bytes} (same : word.map Byte.toLower = lower)
    (h : ∀ b ∈ lower, isSpace b = false) : ∀ b ∈ word, isSpace b = false := by
  intro b hb
  rw [← (isSpace_facts b).2]
  exact h _ (same ▸ List.mem_map_of_mem hb)

theorem Sign.solid {negative : Bool} (h : Sign s negative) : ∀ b ∈ s, isSpace b = false := by
  cases h <;> exact solid_of_all rfl

theorem Fraction.solid {digits : Bytes} (h : Fraction s digits) : ∀ b ∈ s, isSpace b = false := by
  cases h with
  | none => simp
  | point digits => exact List.forall_mem_cons.2 ⟨rfl, digits.solid⟩

theorem Power.solid {k : ℤ} (h : Power s k) : ∀ b ∈ s, isSpace b = false := by
  cases h with
  | none => simp
  | marked letter sign digits =>
    refine List.forall_mem_cons.2 ⟨?_, List.forall_mem_append.2 ⟨sign.solid, digits.solid⟩⟩
    rcases letter with rfl | rfl <;> rfl

theorem Remark.solid (h : Remark s) : ∀ b ∈ s, isSpace b = false := by
  cases h with
  | none => simp
  | parentheses inside =>
    refine List.forall_mem_cons.2 ⟨rfl, List.forall_mem_append.2 ⟨fun b hb => ?_, solid_of_all rfl⟩⟩
    exact (isSpace_facts b).1 (inside b hb)

theorem Spells.solid (h : Spells s numeral) : ∀ b ∈ s, isSpace b = false := by
  cases h with
  | decimal whole fraction _ power =>
    exact List.forall_mem_append.2
      ⟨whole.solid, List.forall_mem_append.2 ⟨fraction.solid, power.solid⟩⟩
  | infinity lower =>
    rcases lower with short | long
    · exact solid_of_lower short (solid_of_all (by decide))
    · exact solid_of_lower long (solid_of_all (by decide))
  | nan lower remark =>
    exact List.forall_mem_append.2 ⟨solid_of_lower lower (solid_of_all (by decide)), remark.solid⟩

theorem read?_sign {b : UInt8} (h : b = Byte.plus ∨ b = Byte.minus) (more : Bytes) :
    read? (b :: more) = none := by
  rcases h with rfl | rfl <;> rfl

theorem Spells.unsigned (h : Spells s numeral) :
    ∃ b more, s = b :: more ∧ b ≠ Byte.plus ∧ b ≠ Byte.minus := by
  have read := read?_complete h
  cases s with
  | nil => cases read
  | cons b more =>
    refine ⟨b, more, rfl, fun plus => ?_, fun minus => ?_⟩
    · rw [read?_sign (.inl plus)] at read
      cases read
    · rw [read?_sign (.inr minus)] at read
      cases read

end

end StepsLang.Number.Numeral
