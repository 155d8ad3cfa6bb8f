import StepsLang.Token.Lexeme

namespace StepsLang

theorem Bytes.takeWhile_append {p : UInt8 → Bool} {w more : Bytes} (inside : w.all p = true)
    (stop : ∀ b ∈ more.head?, p b = false) : (w ++ more).takeWhile p = w := by
  rw [List.takeWhile_append_of_pos (List.all_eq_true.1 inside)]
  cases more with
  | nil => simp
  | cons b more => simp [stop b rfl]

theorem Bytes.head_cons {p : UInt8 → Bool} {b : UInt8} (h : p b = false) (s : Bytes) :
    ∀ c ∈ (b :: s).head?, p c = false := by
  intro c hc
  cases hc
  exact h

/-- A text that no word or numeral goes on into, and that puts no colon after a word. -/
structure Closing (s : Bytes) : Prop where
  head : ∀ b ∈ s.head?, Byte.isNameByte b = false ∧ b ≠ Byte.dot
  colon : (s.dropWhile (· == Byte.space)).head? ≠ some Byte.colon

namespace Closing

theorem isNameByte {s : Bytes} (h : Closing s) : ∀ b ∈ s.head?, Byte.isNameByte b = false :=
  fun b hb => (h.head b hb).1

theorem cons {b : UInt8} (s : Bytes) (hn : Byte.isNameByte b = false) (hd : b ≠ Byte.dot)
    (hs : b ≠ Byte.space) (hc : b ≠ Byte.colon) : Closing (b :: s) := by
  constructor
  · intro c hc
    cases hc
    exact ⟨hn, hd⟩
  · simp [hs, hc]

theorem space {b : UInt8} (s : Bytes) (hs : b ≠ Byte.space) (hc : b ≠ Byte.colon) :
    Closing (Byte.space :: b :: s) := by
  constructor
  · intro c hc
    cases hc
    decide
  · simp [hs, hc]

end Closing

namespace Word

def firstWord (k : Kind) : Bytes := k.spelling.takeWhile Byte.isNameByte

def isName (x : Bytes) : Bool :=
  x.head?.any Byte.startsName && x.all Byte.isNameByte && kind x == .name && x != "note"
    && !(phrases.map firstWord).contains x

theorem eq_of_isPrefix {v r w more : Bytes} (h : (v ++ Byte.space :: r) <+: w ++ more)
    (hv : v.all Byte.isNameByte = true) (hw : w.all Byte.isNameByte = true)
    (hm : ∀ b ∈ more.head?, Byte.isNameByte b = false) : v = w := by
  obtain ⟨t, ht⟩ := h
  calc v = (v ++ Byte.space :: (r ++ t)).takeWhile Byte.isNameByte := by
        rw [Bytes.takeWhile_append hv (Bytes.head_cons rfl _)]
    _ = (w ++ more).takeWhile Byte.isNameByte := by
        rw [← ht]
        simp
    _ = w := Bytes.takeWhile_append hw hm

theorem phrase_eq : ∀ k ∈ phrases,
    k.spelling = firstWord k ++ Byte.space :: (k.spelling.dropWhile Byte.isNameByte).tail ∧
      (firstWord k).all Byte.isNameByte = true := by
  decide

theorem isPrefix_of_standsAt {word s : Bytes} (h : standsAt word s = true) : word <+: s := by
  simp only [standsAt, Bytes.startsWith, Bool.and_eq_true] at h
  exact List.isPrefixOf_iff_prefix.1 h.1

theorem phrase?_eq_none {w more : Bytes} (hw : w.all Byte.isNameByte = true)
    (hm : ∀ b ∈ more.head?, Byte.isNameByte b = false)
    (none : ∀ k ∈ phrases, firstWord k = w → ¬ k.spelling <+: w ++ more) :
    phrase? (w ++ more) = .none := by
  refine List.find?_eq_none.2 fun k hk stands => ?_
  have starts := isPrefix_of_standsAt stands
  obtain ⟨whole, first⟩ := phrase_eq k hk
  refine none k hk ?_ starts
  rw [whole] at starts
  exact eq_of_isPrefix starts first hw hm

theorem not_blockComment {w more : Bytes} (hw : w.all Byte.isNameByte = true)
    (hm : ∀ b ∈ more.head?, Byte.isNameByte b = false) (hn : w ≠ "note") :
    standsAt blockCommentStart (w ++ more) = false := by
  rw [Bool.eq_false_iff]
  intro stands
  have starts : ("note" ++ Byte.space :: "block:" : Bytes) <+: w ++ more :=
    isPrefix_of_standsAt stands
  exact hn (eq_of_isPrefix starts (by decide) hw hm).symm

end Word

namespace Lexeme
open Word

def specials : Bytes := [9, 10, 13, 32, 34, 37, 40, 41, 42, 43, 44, 45, 47, 58, 91, 93]

theorem read_eq {b : UInt8} (rest : Bytes) (h : Byte.isNameByte b = true) :
    read b rest = if Byte.isDigit b then numeral (b :: rest)
      else if Byte.startsName b then word (b :: rest) else strange b rest := by
  have signs : specials.all (fun c => !Byte.isNameByte c) = true := by decide
  have other : ∀ c ∈ specials, b ≠ c := by
    rintro c hc rfl
    simpa [h] using List.all_eq_true.1 signs b hc
  simp only [specials, List.forall_mem_cons] at other
  simp [read, symbol?, other]

theorem read_eq_word {b : UInt8} (rest : Bytes) (h : Byte.startsName b = true) :
    read b rest = word (b :: rest) := by
  have digit : Byte.isDigit b = false := by
    simp only [Byte.startsName, Byte.isLetter, Byte.isUpper, Byte.isLower, Byte.isDigit] at h ⊢
    grind
  rw [read_eq rest (by simp_all [Byte.isNameByte, Byte.startsName]), digit, h]
  rfl

theorem read_eq_numeral {b : UInt8} (rest : Bytes) (h : Byte.isDigit b = true) :
    read b rest = numeral (b :: rest) := by
  rw [read_eq rest (by simp [Byte.isNameByte, h]), if_pos h]

theorem word_eq {w more : Bytes} (hw : w.all Byte.isNameByte = true) (hm : Closing more)
    (hn : w ≠ "note") (hp : phrase? (w ++ more) = .none) :
    word (w ++ more) = { length := w.length, kind := some (Word.kind w), text := w } := by
  have colon : ((more.dropWhile (· == Byte.space)).head? == some Byte.colon) = false := by
    simpa using hm.colon
  unfold word
  simp only [not_blockComment hw hm.isNameByte hn, hp, Bytes.takeWhile_append hw hm.isNameByte,
    List.drop_left, colon, Bool.and_false, Bool.false_eq_true, if_false]

theorem word_colon {w : Bytes} (more : Bytes) (hw : w.all Byte.isNameByte = true)
    (hn : w ≠ "note") (hc : colonWords.contains w = true)
    (hp : phrase? (w ++ Byte.colon :: more) = .none) :
    word (w ++ Byte.colon :: more) =
      { length := w.length + 1, kind := some (Word.kind w), text := w ++ [Byte.colon] } := by
  have stop := Bytes.head_cons (p := Byte.isNameByte) (b := Byte.colon) rfl more
  have plain : (w == "note") = false := by simpa using hn
  have after : (Byte.colon :: more).dropWhile (· == Byte.space) = Byte.colon :: more := rfl
  unfold word
  simp only [not_blockComment hw stop hn, hp, Bytes.takeWhile_append hw stop, List.drop_left, hc,
    plain, after]
  simp

end Lexeme

namespace Word

def Unextended (w more : Bytes) : Prop :=
  ∀ k ∈ phrases, w <+: k.spelling → w ≠ k.spelling → ¬ k.spelling <+: w ++ more

theorem unextended_of_drop {w more : Bytes}
    (h : ∀ k ∈ phrases, w.isPrefixOf k.spelling = true → w ≠ k.spelling →
      ¬ k.spelling.drop w.length <+: more) : Unextended w more := by
  intro k hk start other whole
  refine h k hk (List.isPrefixOf_iff_prefix.2 start) other ?_
  obtain ⟨r, hr⟩ := start
  obtain ⟨t, ht⟩ := whole
  rw [← hr, List.append_assoc] at ht
  rw [← hr, List.drop_left]
  exact ⟨t, List.append_cancel_left ht⟩

theorem standsAt_append {w more : Bytes} (hm : Closing more) : standsAt w (w ++ more) = true := by
  have stop : more.head?.any Byte.isNameByte = false := by
    cases more with
    | nil => rfl
    | cons b more => simpa using hm.isNameByte b rfl
  simp [standsAt, Bytes.startsWith, stop]

theorem phrases_pairwise : phrases.Pairwise fun j k => ¬ j.spelling <+: k.spelling := by
  simp only [← List.isPrefixOf_iff_prefix]
  decide

theorem phrase?_spelling {k : Kind} {more : Bytes} (hk : k ∈ phrases) (hm : Closing more)
    (longer : Unextended k.spelling more) : phrase? (k.spelling ++ more) = some k := by
  obtain ⟨before, after, split⟩ := List.append_of_mem hk
  refine List.find?_eq_some_iff_append.2 ⟨standsAt_append hm, before, after, split, ?_⟩
  intro j hj
  have ordered := phrases_pairwise
  rw [split, List.pairwise_append] at ordered
  have shorter : ¬ j.spelling <+: k.spelling := ordered.2.2 j hj k (by simp)
  rw [Bool.not_eq_true', Bool.eq_false_iff]
  intro stands
  have starts := isPrefix_of_standsAt stands
  -- Of two phrases that stand at one place, the one is the start of the other.
  rcases List.prefix_or_prefix_of_prefix starts (List.prefix_append _ more) with h | h
  · exact shorter h
  · refine longer j (by simp [split, hj]) h ?_ starts
    intro same
    rw [same] at shorter
    exact shorter List.prefix_rfl

end Word

end StepsLang
