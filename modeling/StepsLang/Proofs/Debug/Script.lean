import StepsLang.Debug.Script
import StepsLang.Proofs.Number.Numeral
import StepsLang.Proofs.Text.Lines

namespace StepsLang.Debug.Script

open Number.Numeral (Digits Sign)

abbrev Around := Bytes → Bool → Bytes → Prop

inductive Bare : Around
  | blanks {rest : Bytes} : (∀ b ∈ rest, Byte.isBlank b = true) → Bare [] false rest

inductive Loose : Around
  | signed {sign rest : Bytes} {negative : Bool} : Sign sign negative →
    (∀ b ∈ rest.head?, Byte.isDigit b = false) → Loose sign negative rest

/-- A decimal numeral of 64 bits behind blanks, and the count that it stands for: a minus counts
back from `2^64`. -/
inductive Counts (A : Around) : Bytes → Nat → Prop
  | numeral {blanks sign digits rest : Bytes} {negative : Bool} :
    (∀ b ∈ blanks, Byte.isBlank b = true) → Digits digits → digits ≠ [] → A sign negative rest →
    Bytes.digitsValue digits < 2 ^ 64 →
    Counts A (blanks ++ (sign ++ (digits ++ rest)))
      (if negative then (2 ^ 64 - Bytes.digitsValue digits) % 2 ^ 64 else Bytes.digitsValue digits)

def words : List (Bytes × Command) :=
  [("continue", .proceed), ("step", .resume .stepInto), ("over", .resume .stepOver),
    ("out", .resume .stepOut), ("stop", .stop)]

inductive Asks (A : Around) : Bytes → Script → Prop
  | word {line : Bytes} {c : Command} : (line, c) ∈ words → Asks A line [c]
  | steps {count : Bytes} {n : Nat} : Counts A count n → 0 < n →
    Asks A ("step " ++ count) (List.replicate n (.resume .stepInto))

def ignored (line : Bytes) : Bytes := "[DEBUG] ignored: " ++ line ++ "\n"

inductive Reads (A : Around) : Bytes → Script → List Bytes → Prop
  | idle {line : Bytes} : isIdle line = true → Reads A line [] []
  | command {line : Bytes} {cs : Script} : isIdle line = false → Asks A line cs → Reads A line cs []
  | unknown {line : Bytes} : isIdle line = false → (∀ cs, ¬ Asks A line cs) →
    Reads A line [] [ignored line]

/-- A text, line by line.  A carriage return before a line feed, or at the end of the last line, is
no part of the line. -/
inductive Played (A : Around) : Bytes → Script → List Bytes → Prop
  | done : Played A [] [] []
  | last {line : Bytes} {cs : Script} {log : List Bytes} : Byte.lineFeed ∉ line → line ≠ [] →
    Reads A line.dropReturn cs log → Played A line cs log
  | line {line rest : Bytes} {cs more : Script} {log later : List Bytes} : Byte.lineFeed ∉ line →
    Reads A line.dropReturn cs log → Played A rest more later →
    Played A (line ++ Byte.lineFeed :: rest) (cs ++ more) (log ++ later)

section

variable {A B : Around} {text line count rest : Bytes} {cs : Script} {log : List Bytes} {n : Nat}

theorem Bare.loose {sign : Bytes} {negative : Bool} (h : Bare sign negative rest) :
    Loose sign negative rest := by
  obtain ⟨blank⟩ := h
  have other : ∀ b, Byte.isBlank b = true → Byte.isDigit b = false :=
    Byte.cases (P := fun b => Byte.isBlank b = true → Byte.isDigit b = false) (by decide +kernel)
  exact .signed .none fun b hb => other b (blank b (List.mem_of_mem_head? hb))

theorem Counts.imp (h : Counts A count n)
    (more : ∀ {sign negative rest}, A sign negative rest → B sign negative rest) :
    Counts B count n := by
  obtain ⟨blank, digits, some, around, small⟩ := h
  exact .numeral blank digits some (more around) small

theorem digit_stands {d : UInt8} (h : Byte.isDigit d = true) :
    Byte.isBlank d = false ∧ d ≠ Byte.minus ∧ d ≠ Byte.plus :=
  Byte.cases (P := fun d => Byte.isDigit d = true →
    Byte.isBlank d = false ∧ d ≠ Byte.minus ∧ d ≠ Byte.plus) (by decide +kernel) d h

theorem count?_sound (h : count? count = some n) : Counts Loose count n := by
  obtain ⟨sign, unsigned, negative, sign_, whole, minus, after⟩ :=
    Number.Numeral.exists_sign (count.dropWhile Byte.isBlank)
  rw [minus] at after
  simp only [count?, ← List.drop_one, minus, after] at h
  obtain ⟨taken, h⟩ := Option.ite_none_left_eq_some.1 h
  obtain ⟨some, small⟩ : unsigned.takeWhile Byte.isDigit ≠ [] ∧
      Bytes.digitsValue (unsigned.takeWhile Byte.isDigit) < 2 ^ 64 := by
    simpa using taken
  have parts : count = count.takeWhile Byte.isBlank ++ (sign ++
      (unsigned.takeWhile Byte.isDigit ++ unsigned.dropWhile Byte.isDigit)) := by
    rw [List.takeWhile_append_dropWhile, ← whole, List.takeWhile_append_dropWhile]
  have stop : ∀ b ∈ (unsigned.dropWhile Byte.isDigit).head?, Byte.isDigit b = false := by
    intro b hb
    have first := List.head?_dropWhile_not Byte.isDigit unsigned
    rw [hb] at first
    simpa using first
  rw [parts, ← Option.some.inj h]
  exact .numeral (List.all_eq_true.1 List.all_takeWhile)
    (Number.Numeral.digits_takeWhile unsigned) some (.signed sign_ stop) small

theorem sign_cut {sign : Bytes} {negative : Bool} {d : UInt8} (h : Sign sign negative)
    (digit : Byte.isDigit d = true) (more : Bytes) :
    ((sign ++ d :: more).head? == some Byte.minus) = negative ∧
      (if (negative || (sign ++ d :: more).head? == some Byte.plus) = true then
        (sign ++ d :: more).drop 1 else sign ++ d :: more) = d :: more := by
  obtain ⟨-, minus, plus⟩ := digit_stands digit
  cases h with
  | none => simp [minus, plus]
  | plus => exact ⟨rfl, rfl⟩
  | minus => exact ⟨rfl, rfl⟩

theorem count?_complete (h : Counts Loose count n) : count? count = some n := by
  obtain ⟨blank, digits_, some, ⟨sign_, stop⟩, small⟩ := h
  rename_i blanks sign digits rest negative
  obtain ⟨d, ds, rfl⟩ := List.exists_cons_of_ne_nil some
  have digit := digits_ d List.mem_cons_self
  obtain ⟨minus, after⟩ := sign_cut sign_ digit (ds ++ rest)
  have core : (blanks ++ (sign ++ (d :: ds ++ rest))).dropWhile Byte.isBlank =
      sign ++ d :: (ds ++ rest) := by
    rw [List.dropWhile_append_of_pos blank]
    cases sign_ with
    | none => simp [(digit_stands digit).1]
    | plus => rfl
    | minus => rfl
  have taken : (d :: (ds ++ rest)).takeWhile Byte.isDigit = d :: ds :=
    (Prod.ext_iff.1 (Number.Numeral.span_append digits_ stop)).1
  have fits : ¬ ((d :: ds).isEmpty || Nat.pow 2 64 ≤ Bytes.digitsValue (d :: ds)) = true := by
    simpa using small
  simp only [count?, ← List.drop_one, core, minus, after, taken, if_neg fits]
  rfl

theorem commands?_word {c : Command} (h : (line, c) ∈ words) : commands? line = some [c] := by
  have all : ∀ w ∈ words, commands? w.1 = some [w.2] := by decide
  exact all _ h

def steps? : Option Nat → Option Script
  | some (n + 1) => some (List.replicate (n + 1) (.resume .stepInto))
  | _ => none

theorem steps?_iff {count : Option Nat} :
    steps? count = some cs ↔
      ∃ n, count = some n ∧ 0 < n ∧ List.replicate n (.resume .stepInto) = cs := by
  rcases count with _ | _ | n <;> simp [steps?]

theorem commands?_other (h : ∀ c, (line, c) ∉ words) :
    commands? line =
      if line.startsWith "step " then steps? (count? (line.drop 5)) else none := by
  have other : ∀ w ∈ words, (line == w.1) = false := fun w hw =>
    beq_false_of_ne fun same => h w.2 (same ▸ hw)
  simp only [words, List.forall_mem_cons] at other
  simp only [commands?, other, Bool.false_eq_true, if_false]
  rfl

theorem starts_step (count : Bytes) : ("step " ++ count : Bytes).startsWith "step " = true :=
  List.isPrefixOf_iff_prefix.2 (List.prefix_append _ _)

theorem not_word (count : Bytes) (c : Command) : ("step " ++ count, c) ∉ words := by
  have short : ∀ w ∈ words, w.1.startsWith "step " = false := by decide
  exact fun word => absurd (starts_step count) (Bool.eq_false_iff.1 (short _ word))

theorem commands?_steps (count : Bytes) : commands? ("step " ++ count) = steps? (count? count) := by
  rw [commands?_other (not_word count), if_pos (starts_step count)]
  rfl

theorem commands?_iff : commands? line = some cs ↔ Asks Loose line cs := by
  constructor
  · intro h
    by_cases word : ∃ c, (line, c) ∈ words
    · obtain ⟨c, word⟩ := word
      rw [commands?_word word] at h
      cases h
      exact .word word
    · rw [commands?_other (not_exists.1 word)] at h
      obtain ⟨starts, h⟩ := Option.ite_none_right_eq_some.1 h
      obtain ⟨count, rfl⟩ := List.isPrefixOf_iff_prefix.1 starts
      obtain ⟨n, taken, positive, rfl⟩ := steps?_iff.1 h
      exact .steps (count?_sound taken) positive
  · rintro (word | ⟨counts, positive⟩)
    · exact commands?_word word
    · rw [commands?_steps, steps?_iff]
      exact ⟨_, count?_complete counts, positive, rfl⟩

/-- What a line is taken for. -/
def heard (line : Bytes) : Script × List Bytes :=
  if isIdle line then ([], [])
  else
    match commands? line with
    | some cs => (cs, [])
    | none => ([], [ignored line])

theorem heard_eq_iff : heard line = (cs, log) ↔ Reads Loose line cs log := by
  unfold heard
  constructor
  · intro h
    split at h
    · next idle =>
      cases h
      exact .idle idle
    · next busy =>
      have busy := Bool.eq_false_iff.2 busy
      split at h
      · next asked =>
        cases h
        exact .command busy (commands?_iff.1 asked)
      · next unknown =>
        cases h
        refine .unknown busy fun cs asks => ?_
        rw [commands?_iff.2 asks] at unknown
        cases unknown
  · rintro (idle | ⟨busy, asks⟩ | ⟨busy, unknown⟩)
    · rw [if_pos idle]
    · rw [if_neg (Bool.eq_false_iff.1 busy), commands?_iff.2 asks]
    · have nothing : commands? line = none :=
        Option.eq_none_iff_forall_ne_some.2 fun cs asked => unknown cs (commands?_iff.1 asked)
      rw [if_neg (Bool.eq_false_iff.1 busy), nothing]

theorem ofText_eq (text : Bytes) :
    ofText text =
      (((Bytes.lines text).map Bytes.dropReturn).flatMap (heard · |>.1),
        ((Bytes.lines text).map Bytes.dropReturn).flatMap (heard · |>.2)) := by
  simp only [ofText]
  induction (Bytes.lines text).map Bytes.dropReturn with
  | nil => rfl
  | cons line lines ih =>
    obtain ⟨script, said⟩ := Prod.mk.inj ih
    rw [List.flatMap_cons, List.flatMap_cons, ← script, ← said, heard]
    cases idle : isIdle line with
    | true => simp [idle]
    | false => cases asked : commands? line <;> simp [idle, asked, ignored]

theorem ofText_last (noFeed : Byte.lineFeed ∉ line) (filled : line ≠ []) :
    ofText line = heard line.dropReturn := by
  simp [ofText_eq, Bytes.lines_last noFeed filled]

theorem ofText_line (noFeed : Byte.lineFeed ∉ line) (rest : Bytes) :
    ofText (line ++ Byte.lineFeed :: rest) =
      ((heard line.dropReturn).1 ++ (ofText rest).1,
        (heard line.dropReturn).2 ++ (ofText rest).2) := by
  simp [ofText_eq, Bytes.lines_cons noFeed]

theorem Played.ofText_eq (h : Played Loose text cs log) : ofText text = (cs, log) := by
  induction h with
  | done => rfl
  | last noFeed filled reads => rw [ofText_last noFeed filled, heard_eq_iff.2 reads]
  | line noFeed reads _ ih => rw [ofText_line noFeed, heard_eq_iff.2 reads, ih]

theorem played_ofText (text : Bytes) : Played Loose text (ofText text).1 (ofText text).2 := by
  induction text using Bytes.lines_induction with
  | nil => exact .done
  | last line noFeed filled =>
    rw [ofText_last noFeed filled]
    exact .last noFeed filled (heard_eq_iff.1 rfl)
  | line line rest noFeed ih =>
    rw [ofText_line noFeed]
    exact .line noFeed (heard_eq_iff.1 rfl) ih

theorem ofText_eq_iff : ofText text = (cs, log) ↔ Played Loose text cs log := by
  refine ⟨fun h => ?_, Played.ofText_eq⟩
  have played := played_ofText text
  rwa [h] at played

/-- A line whose count, if it is one, has nothing but blanks around its digits. -/
def Plain (line : Bytes) : Prop :=
  ∀ count n, line = "step " ++ count → 0 < n → Counts Loose count n → Counts Bare count n

theorem Asks.imp (h : Asks A line cs)
    (more : ∀ {sign negative rest}, A sign negative rest → B sign negative rest) :
    Asks B line cs := by
  cases h with
  | word word => exact .word word
  | steps counts positive => exact .steps (counts.imp more) positive

theorem Plain.asks_iff (h : Plain line) (cs : Script) : Asks Bare line cs ↔ Asks Loose line cs := by
  constructor
  · exact fun asks => asks.imp Bare.loose
  · rintro (word | ⟨counts, positive⟩)
    · exact .word word
    · exact .steps (h _ _ rfl positive counts) positive

theorem Reads.imp (h : Reads A line cs log) (same : ∀ cs, Asks A line cs ↔ Asks B line cs) :
    Reads B line cs log := by
  cases h with
  | idle idle => exact .idle idle
  | command busy asks => exact .command busy ((same cs).1 asks)
  | unknown busy unknown => exact .unknown busy fun cs asks => unknown cs ((same cs).2 asks)

theorem Played.imp (h : Played A text cs log)
    (same : ∀ line ∈ Bytes.lines text, ∀ cs,
      Asks A line.dropReturn cs ↔ Asks B line.dropReturn cs) : Played B text cs log := by
  induction h with
  | done => exact .done
  | last noFeed filled reads =>
    refine .last noFeed filled (reads.imp (same _ ?_))
    simp [Bytes.lines_last noFeed filled]
  | line noFeed reads _ ih =>
    rw [Bytes.lines_cons noFeed, List.forall_mem_cons] at same
    exact .line noFeed (reads.imp same.1) (ih same.2)

theorem Asks.counts (h : Asks A ("step " ++ count) cs) : ∃ n, Counts A count n := by
  generalize whole : ("step " ++ count : Bytes) = line at h
  cases h with
  | word word => exact absurd (whole ▸ word) (not_word count _)
  | steps counts _ => exact ⟨_, List.append_cancel_left whole ▸ counts⟩

theorem Reads.plain (h : Reads Bare line cs log) :
    (heard line).2.length ≤ log.length ∧ ((heard line).2.length = log.length → Plain line) := by
  cases h with
  | idle idle =>
    rw [heard, if_pos idle]
    refine ⟨le_rfl, fun _ count n whole => ?_⟩
    rw [whole] at idle
    cases idle
  | command busy asks =>
    rw [heard_eq_iff.2 (.command busy (asks.imp Bare.loose))]
    refine ⟨le_rfl, fun _ count n whole positive counts => ?_⟩
    subst whole
    obtain ⟨m, bare⟩ := asks.counts
    have same := (count?_complete (bare.imp Bare.loose)).symm.trans (count?_complete counts)
    exact Option.some.inj same ▸ bare
  | unknown busy unknown =>
    unfold heard
    rw [if_neg (Bool.eq_false_iff.1 busy)]
    cases asked : commands? line with
    | some cs => simp
    | none =>
      refine ⟨le_rfl, fun _ count n whole positive counts => ?_⟩
      subst whole
      rw [commands?_iff.2 (.steps counts positive)] at asked
      cases asked

theorem Played.plain (h : Played Bare text cs log) :
    (ofText text).2.length ≤ log.length ∧
      ((ofText text).2.length = log.length → ∀ line ∈ Bytes.lines text, Plain line.dropReturn) := by
  induction h with
  | done => exact ⟨le_rfl, fun _ line none => nomatch none⟩
  | last noFeed filled reads =>
    rw [ofText_last noFeed filled, Bytes.lines_last noFeed filled]
    refine ⟨reads.plain.1, fun same line there => ?_⟩
    obtain rfl := List.mem_singleton.1 there
    exact reads.plain.2 same
  | line noFeed reads _ ih =>
    obtain ⟨fewer, plain⟩ := reads.plain
    obtain ⟨fewer', plain'⟩ := ih
    rw [ofText_line noFeed, Bytes.lines_cons noFeed, List.length_append, List.length_append,
      List.forall_mem_cons]
    exact ⟨by omega, fun same => ⟨plain (by omega), plain' (by omega)⟩⟩

theorem Counts.bytes (h : Counts Bare count n) :
    ∀ b ∈ count, Byte.isBlank b = true ∨ Byte.isDigit b = true := by
  obtain ⟨blank, digits, -, ⟨after⟩, -⟩ := h
  simp only [List.nil_append, List.forall_mem_append]
  exact ⟨fun b hb => .inl (blank b hb), fun b hb => .inr (digits b hb),
    fun b hb => .inl (after b hb)⟩

theorem not_plain {b : UInt8} (count : Bytes) (taken : count? count = some (n + 1))
    (there : b ∈ count) (other : Byte.isBlank b = false ∧ Byte.isDigit b = false) :
    ¬ Plain ("step " ++ count) := by
  intro plain
  have bare := plain _ _ rfl n.succ_pos (count?_sound taken)
  simpa [other] using bare.bytes b there

end

/-- What a text makes of a script, and what is said about its lines, is what the grammar says. -/
theorem ofText_eq_iff_played (text : Bytes) (cs : Script) (log : List Bytes) :
    (ofText text = (cs, log) ↔ Played Loose text cs log) ∧
      (Played Bare text (ofText text).1 (ofText text).2 ↔
        ∀ line ∈ Bytes.lines text, Plain line.dropReturn) := by
  refine ⟨ofText_eq_iff, fun played => played.plain.2 rfl, fun plain => ?_⟩
  exact (played_ofText text).imp fun line there cs => ((plain line there).asks_iff cs).symm

/-- A count may be followed by other text, and a minus counts back from `2^64`, though neither is a
numeral among blanks. -/
theorem count_taken_loosely :
    let trailing := ofText "step 3x"
    let negative := ofText "step -18446744073709551615"
    trailing = (List.replicate 3 (.resume .stepInto), []) ∧
      ¬ Played Bare "step 3x" trailing.1 trailing.2 ∧
      negative = ([.resume .stepInto], []) ∧
      ¬ Played Bare "step -18446744073709551615" negative.1 negative.2 := by
  have strict (line : Bytes) (noFeed : Byte.lineFeed ∉ line) (filled : line ≠ [])
      (odd : ¬ Plain line.dropReturn) : ¬ Played Bare line (ofText line).1 (ofText line).2 := by
    refine fun played => odd (played.plain.2 rfl line ?_)
    simp [Bytes.lines_last noFeed filled]
  refine ⟨by decide +kernel, strict _ (by decide) (by decide) ?_, by decide +kernel,
    strict _ (by decide) (by decide) ?_⟩
  · exact not_plain (n := 2) (b := 120) "3x" (by decide +kernel) (by decide) (by decide)
  · exact not_plain (n := 0) (b := Byte.minus) "-18446744073709551615" (by decide +kernel)
      (by decide) (by decide)

end StepsLang.Debug.Script
