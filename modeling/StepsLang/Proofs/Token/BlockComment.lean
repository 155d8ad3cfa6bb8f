import Mathlib.Data.List.Infix
import StepsLang.Proofs.Token.CarriageReturn
import StepsLang.Proofs.Token.Indentation
import StepsLang.Proofs.Token.Like
import StepsLang.Proofs.Token.Line

namespace StepsLang

open Bytes

/-- A block comment that starts a line: the spaces before it, its `body` up to the first closing
words, and `tail`, the rest of the line on which they stand. -/
structure BlockComment where
  spaces : Nat
  body : Bytes
  tail : Bytes
  first : ¬ Word.blockCommentEnd <:+: (body ++ Word.blockCommentEnd).dropLast
  line : Byte.lineFeed ∉ tail

namespace BlockComment

def words (c : BlockComment) : Bytes :=
  Word.blockCommentStart ++ (c.body ++ Word.blockCommentEnd)

def text (c : BlockComment) : Bytes :=
  List.replicate c.spaces Byte.space ++ (c.words ++ (c.tail ++ [Byte.lineFeed]))

/-- What the scanner reads of the comment: nothing, or the end of a line and the rest of the line on
which the comment ends. -/
def left (c : BlockComment) : Bytes :=
  if Byte.lineFeed ∈ c.body then Byte.lineFeed :: (c.tail ++ [Byte.lineFeed]) else []

end BlockComment

namespace Word

theorem blockCommentLength_closed {w : Bytes}
    (first : ¬ blockCommentEnd <:+: (w ++ blockCommentEnd).dropLast) (more : Bytes) :
    blockCommentLength (w ++ (blockCommentEnd ++ more)) = w.length + blockCommentEnd.length := by
  induction w with
  | nil =>
    rw [List.nil_append, blockCommentLength_start (List.prefix_append _ more), List.length_nil,
      Nat.zero_add]
  | cons b w ih =>
    have some : w ++ blockCommentEnd ≠ [] := List.append_ne_nil_of_right_ne_nil w (by decide)
    rw [List.cons_append, List.dropLast_cons_of_ne_nil some] at first
    have here : ¬ blockCommentEnd <+: b :: (w ++ (blockCommentEnd ++ more)) := by
      intro there
      have front : b :: (w ++ blockCommentEnd).dropLast <+:
          b :: (w ++ (blockCommentEnd ++ more)) := by
        rw [← List.append_assoc, List.cons_prefix_cons]
        exact ⟨rfl, (List.dropLast_prefix _).trans (List.prefix_append _ more)⟩
      refine first (List.prefix_of_prefix_length_le there front ?_).isInfix
      rw [List.length_cons, List.length_dropLast, List.length_append]
      omega
    rw [List.cons_append, blockCommentLength_cons here,
      ih fun there => first (there.trans (List.suffix_cons b _).isInfix), List.length_cons,
      Nat.add_right_comm]

theorem blockCommentLength_opened (s : Bytes) :
    blockCommentLength (blockCommentStart ++ s) =
      blockCommentStart.length + blockCommentLength s := by
  -- The only letter that also opens the closing words has a blank behind it.
  have letter : ∀ r, ¬ blockCommentEnd <+: 101 :: 32 :: r := by
    rintro r ⟨t, whole⟩
    have second := (List.cons.inj (List.cons.inj whole).2).1
    exact absurd second (by decide)
  have spelled : blockCommentStart ++ s =
    110 :: 111 :: 116 :: 101 :: 32 :: 98 :: 108 :: 111 :: 99 :: 107 :: 58 :: s := rfl
  rw [spelled]
  iterate 3 rw [blockCommentLength_cons (not_blockCommentEnd (by decide))]
  rw [blockCommentLength_cons (letter _)]
  iterate 7 rw [blockCommentLength_cons (not_blockCommentEnd (by decide))]
  rw [Nat.add_comm blockCommentStart.length]
  rfl

end Word

namespace BlockComment

variable (c : BlockComment)

theorem lineFeed_mem_words : Byte.lineFeed ∈ c.words ↔ Byte.lineFeed ∈ c.body := by
  have opening : Byte.lineFeed ∉ Word.blockCommentStart := by decide
  have closing : Byte.lineFeed ∉ Word.blockCommentEnd := by decide
  simp [words, opening, closing]

theorem length_words (more : Bytes) :
    Word.blockCommentLength (c.words ++ more) = c.words.length := by
  rw [words, List.append_assoc, Word.blockCommentLength_opened, List.append_assoc,
    Word.blockCommentLength_closed c.first, List.length_append, List.length_append]

theorem standsAt_words (more : Bytes) :
    Word.standsAt Word.blockCommentStart (c.words ++ more) = true := by
  rw [words, List.append_assoc]
  rfl

theorem unmarked (more : Bytes) :
    Bytes.startsWith (c.text ++ more) TokenStream.byteOrderMark = false := by
  rw [text]
  cases c.spaces <;> rfl

theorem wellFormed {more : Bytes} (h : Utf8.WellFormed (c.text ++ more)) :
    Utf8.WellFormed (c.left ++ more) ∧ Utf8.WellFormed more := by
  have split : c.text ++ more =
      (List.replicate c.spaces Byte.space ++ (Word.blockCommentStart ++ (c.body ++
        ("end not" ++ 101 :: c.tail)))) ++ Byte.lineFeed :: more := by
    simp only [text, words, List.append_assoc, List.singleton_append]
    rfl
  rw [split] at h
  obtain ⟨front, back⟩ := h.split (by decide)
  simp only [← List.append_assoc] at front
  obtain ⟨-, tail⟩ := front.split (by decide)
  have ends : Utf8.WellFormed [Byte.lineFeed] := Utf8.wellFormed_of_all (by decide)
  refine ⟨?_, back⟩
  unfold left
  split
  · exact (ends.append (tail.append ends)).append back
  · exact back

theorem text_append (more : Bytes) : c.text ++ more =
    List.replicate c.spaces Byte.space ++ (c.words ++ (c.tail ++ Byte.lineFeed :: more)) := by
  simp only [text, List.append_assoc, List.singleton_append]

end BlockComment

namespace Scanner

variable {s t : Scanner} {levels : List Nat} {last : Kind} {more : Bytes}

theorem tabFaults_eq_nil (plain : Byte.tab ∉ s.indentation) : s.tabFaults = [] := by
  rw [tabFaults, List.idxOf?_eq_none_iff.2 plain]

/-- A comment at the start of a line.  Inside a comment of several lines the next line starts, so
that the scanner goes on behind the closing words and not behind their line. -/
theorem reaches_comment (c : BlockComment) (h : s.Stands true levels last (c.text ++ more)) :
    ∃ t, Reaches s [] t ∧ t.Stands true levels last
      ((if Byte.lineFeed ∈ c.body then c.tail ++ [Byte.lineFeed] else []) ++ more) := by
  have here := h.rest.trans (c.text_append more)
  have spaces : s.indentation = List.replicate c.spaces Byte.space := by
    rw [indentation, here]
    exact Bytes.takeWhile_append (by simp) (Bytes.head_cons rfl _)
  have rest : s.indented.rest = c.words ++ (c.tail ++ Byte.lineFeed :: more) := by
    rw [indented_rest, spaces, here, List.drop_left]
  have tabs : s.tabFaults = [] := by
    refine tabFaults_eq_nil fun tab => ?_
    rw [spaces] at tab
    cases (List.mem_replicate.1 tab).2
  have filled : s.rest ≠ [] := by
    rw [here]
    simp
  have first := step_start h.fresh filled
  have length := rest ▸ c.length_words (c.tail ++ Byte.lineFeed :: more)
  rw [startLine_comment (by rw [rest]; rfl) (rest ▸ c.standsAt_words _), length, tabs] at first
  have behind : (s.indented.skip c.words.length).rest = c.tail ++ Byte.lineFeed :: more := by
    rw [skip_rest, rest, List.drop_left]
  have crosses : Byte.lineFeed ∈ s.indented.rest.take c.words.length ↔ Byte.lineFeed ∈ c.body := by
    rw [rest, List.take_left]
    exact c.lineFeed_mem_words
  by_cases several : Byte.lineFeed ∈ c.body
  · have fresh : (s.indented.skip c.words.length).fresh = true :=
      skip_starts (.inr (crosses.2 several))
    rw [if_pos fresh] at first
    refine ⟨_, .one first, ?_, fresh, by simp [h.levels], by simp [h.last]⟩
    rw [if_pos several, behind, List.append_assoc, List.singleton_append]
  · have inside : (s.indented.skip c.words.length).fresh = false := by
      rw [skip_fresh (fun there => several (crosses.1 there)), indented_fresh]
    rw [if_neg (ne_true_of_eq_false inside)] at first
    have past := past_skipLine behind c.line (lineEnd_cons more)
    refine ⟨_, .one first, ?_, (past.next (List.cons_ne_nil _ _)).1, by simp [past.levels, h.levels],
      by simp [skipLine, h.last]⟩
    rw [if_neg several, past.rest]
    rfl

theorem reaches_blank {u : Bytes} (h : s.Stands true levels last (u ++ Byte.lineFeed :: more))
    (line : Byte.lineFeed ∉ u) (bare : (u ++ [Byte.lineFeed]).isBare = true)
    (plain : Byte.tab ∉ u) : ∃ t, Reaches s [] t ∧ t.Stands true levels last more := by
  have filled : s.rest ≠ [] := by
    rw [h.rest]
    simp
  have starts : s.Starts u (Byte.lineFeed :: more) :=
    ⟨h.fresh, h.rest, line, lineEnd_cons more, filled⟩
  have tabs : s.tabFaults = [] := by
    refine tabFaults_eq_nil fun tab => plain ?_
    rw [starts.indentation, Bytes.blanks_line (Bytes.lineEnd_take starts.ends)] at tab
    exact (List.takeWhile_prefix _).subset tab
  have first := step_start h.fresh filled
  rw [startLine_blank (starts.isBare ▸ bare), tabs] at first
  have past := past_skipLine starts.indented_rest
    (fun there => line (List.mem_of_mem_drop there)) starts.ends
  exact ⟨_, .one first, past.rest, (past.next (List.cons_ne_nil _ _)).1,
    by simp [past.levels, h.levels], by simp [skipLine, h.last]⟩

theorem gist_silent (h : Reaches s [] t) : gist s.run.1 = gist t.run.1 := by
  generalize none : ([] : List Token) = ts at h
  induction h with
  | refl s => rfl
  | step first _ ih =>
    obtain ⟨rfl, rfl⟩ := List.append_eq_nil_iff.1 none.symm
    rw [TokenStream.run_of_some first, ← ih rfl]
    rfl

theorem fresh_behind {bs : List Batch} (h : Scans s bs t) (whole : WholeLines s.rest)
    (done : t.rest = []) (begins : s.rest = [] → s.fresh = true) : t.fresh = true := by
  induction h with
  | refl s => exact begins done
  | @step s t u b bs first _ ih =>
    obtain ⟨n, fresh, levels, last, rfl⟩ := step_skip whole.plain first
    have filled : s.rest ≠ [] := rest_of_step first
    refine ih (by simpa using whole.drop n) done fun none => ?_
    exact (skip_end (s := { s with fresh }) filled whole.ends none).1

/-- At the start of a line the scanner makes the same of both texts. -/
def Agree (x y : Bytes) : Prop :=
  ∀ (s t : Scanner) (levels : List Nat) (last : Kind), s.Stands true levels last x →
    t.Stands true levels last y → gist s.run.1 = gist t.run.1

namespace Agree

variable {x y z : Bytes}

theorem of_silent (h : ∀ (s : Scanner) (levels : List Nat) (last : Kind),
    s.Stands true levels last x → ∃ t, Reaches s [] t ∧ t.Stands true levels last y) :
    Agree x y := by
  intro s t levels last hs ht
  obtain ⟨u, silent, hu⟩ := h s levels last hs
  rw [gist_silent silent]
  exact Like.run ⟨by rw [hu.rest, ht.rest, List.append_nil], hu.fresh.trans ht.fresh.symm,
    hu.levels.trans ht.levels.symm, hu.last.trans ht.last.symm⟩

theorem refl (x : Bytes) : Agree x x := of_silent fun s _ _ hs => ⟨s, .refl s, hs⟩

theorem symm (h : Agree x y) : Agree y x := fun s t levels last hs ht =>
  (h t s levels last ht hs).symm

theorem trans (h : Agree x y) (h' : Agree y z) : Agree x z := by
  intro s t levels last hs ht
  have between : ({ file := 0, rest := y, levels, last } : Scanner).Stands true levels last y :=
    ⟨rfl, rfl, rfl, rfl⟩
  exact (h _ _ _ _ hs between).trans (h' _ _ _ _ between ht)

theorem blank {u : Bytes} (line : Byte.lineFeed ∉ u)
    (bare : (u ++ [Byte.lineFeed]).isBare = true) (plain : Byte.tab ∉ u) (more : Bytes) :
    Agree (u ++ Byte.lineFeed :: more) more :=
  of_silent fun _ _ _ hs => reaches_blank hs line bare plain

theorem comment (c : BlockComment) (more : Bytes) : Agree (c.text ++ more) (c.left ++ more) := by
  unfold BlockComment.left
  have passed : Agree (c.text ++ more) _ := of_silent fun _ _ _ => reaches_comment c
  split at passed
  · next several =>
    rw [if_pos several]
    exact passed.trans (blank (u := []) (by simp) rfl (by simp) _).symm
  · next one =>
    rw [if_neg one]
    exact passed

theorem behind {a : Bytes} (lines : WholeLines a) (h : Agree x y) (file : Nat) :
    gist (run { file, rest := a ++ x }).1 = gist (run { file, rest := a ++ y }).1 := by
  obtain ⟨bs, u, scans, done⟩ := scans_end { file, rest := a }
  have fresh := fresh_behind scans lines done fun _ => rfl
  have passed (more : Bytes) : ∃ cs v, Scans { file, rest := a ++ more } cs v ∧
      v.Stands true u.levels u.last more ∧ gist cs = gist bs := by
    have like : Like more { file, rest := a } { file, rest := a ++ more } := ⟨rfl, rfl, rfl, rfl⟩
    obtain ⟨cs, v, scans', like', same⟩ := like.scans (.inr lines) scans
    refine ⟨cs, v, scans', ⟨?_, like'.fresh.trans fresh, like'.levels, like'.last⟩, same⟩
    rw [like'.rest, done, List.nil_append]
  obtain ⟨cs, v, one, stands, first⟩ := passed x
  obtain ⟨ds, w, other, stands', first'⟩ := passed y
  rw [one.run, other.run, gist_append, gist_append, first, first', h _ _ _ _ stands stands']

end Agree

end Scanner

namespace TokenStream
open Scanner

theorem text_behind {a y : Bytes} (lines : WholeLines a)
    (unmarked : y.startsWith byteOrderMark = false) : text (a ++ y) = text a ++ y := by
  by_cases none : a = []
  · rw [none]
    exact text_of_unmarked unmarked
  · exact text_concat none lines.ends y

theorem wellFormed_text {x : Bytes} (h : Utf8.WellFormed x) : Utf8.WellFormed (text x) := by
  unfold text
  split
  · next marked =>
    obtain ⟨y, rfl⟩ := List.isPrefixOf_iff_prefix.1 marked
    rw [List.drop_left]
    exact .of_append (Utf8.isValid_iff.1 (by decide)) h
  · exact h

theorem wellFormed_behind {a y : Bytes} (lines : WholeLines a) (h : Utf8.WellFormed (a ++ y)) :
    Utf8.WellFormed a ∧ Utf8.WellFormed y := by
  by_cases none : a = []
  · subst none
    exact ⟨.nil, h⟩
  · obtain ⟨u, rfl⟩ := eq_concat_of_ends none lines.ends
    rw [List.append_assoc, List.singleton_append] at h
    obtain ⟨front, back⟩ := h.split (by decide)
    exact ⟨front.append (Utf8.wellFormed_of_all (by decide)), back⟩

theorem gist_behind (file : Nat) {a x y : Bytes} (lines : WholeLines a) (h : Agree x y)
    (unmarked : x.startsWith byteOrderMark = false) (unmarked' : y.startsWith byteOrderMark = false)
    (valid : Utf8.WellFormed (a ++ x)) (valid' : Utf8.WellFormed (a ++ y)) :
    (ofSource file (a ++ x)).gist = (ofSource file (a ++ y)).gist := by
  rw [gist_ofSource file (wellFormed_text valid), gist_ofSource file (wellFormed_text valid'),
    start, start, text_behind lines unmarked, text_behind lines unmarked']
  exact h.behind (wholeLines_text lines) file

/-- A block comment that starts a line is invisible if it ends on that line or if only spaces
follow on the line on which it ends.  Otherwise it is read as the end of a line, and what follows it
as the next line. -/
theorem ofSource_blockComment (file : Nat) {a b : Bytes} (c : BlockComment) (lines : WholeLines a)
    (unmarked : b.startsWith byteOrderMark = false)
    (valid : Utf8.isValid (a ++ (c.text ++ b)) = true) :
    (ofSource file (a ++ (c.text ++ b))).gist = (ofSource file (a ++ (c.left ++ b))).gist ∧
      ((Byte.lineFeed ∈ c.body →
          Bytes.isBare (c.tail ++ [Byte.lineFeed]) = true ∧ Byte.tab ∉ c.tail) →
        (ofSource file (a ++ (c.text ++ b))).gist = (ofSource file (a ++ b)).gist) := by
  have whole := Utf8.isValid_iff.1 valid
  obtain ⟨front, back⟩ := wellFormed_behind lines whole
  obtain ⟨left, rest⟩ := c.wellFormed back
  have unmarked' : Bytes.startsWith (c.left ++ b) byteOrderMark = false := by
    unfold BlockComment.left
    split
    · rfl
    · exact unmarked
  refine ⟨gist_behind file lines (.comment c b) (c.unmarked b) unmarked' whole (front.append left),
    fun blank => ?_⟩
  have nothing : Agree (c.left ++ b) b := by
    unfold BlockComment.left
    split
    · next several =>
      obtain ⟨bare, plain⟩ := blank several
      have tail := Agree.blank c.line bare plain b
      rw [List.cons_append, List.append_assoc, List.singleton_append]
      exact (Agree.blank (u := []) (by simp) rfl (by simp) _).trans tail
    · exact .refl b
  exact gist_behind file lines ((Agree.comment c b).trans nothing) (c.unmarked b) unmarked whole
    (front.append rest)

theorem ofSource_blockComment_several :
    let a : Bytes := "do:\n"
    let b : Bytes := "    exit\n"
    let c : BlockComment := ⟨2, "\n\tend\n", " \r", by decide, by decide⟩
    c.text = "  note block:\n\tend\nend note \r\n" ∧ WholeLines a ∧
      b.startsWith byteOrderMark = false ∧ Utf8.isValid (a ++ (c.text ++ b)) = true ∧
      (Byte.lineFeed ∈ c.body ∧
        Bytes.isBare (c.tail ++ [Byte.lineFeed]) = true ∧ Byte.tab ∉ c.tail) ∧
      (ofSource 1 (a ++ (c.text ++ b))).gist = (ofSource 1 (a ++ b)).gist := by
  intro a b c
  have lines : WholeLines a := ⟨by decide +kernel, by decide +kernel⟩
  have valid : Utf8.isValid (a ++ (c.text ++ b)) = true := by decide +kernel
  have blank : Bytes.isBare (c.tail ++ [Byte.lineFeed]) = true ∧ Byte.tab ∉ c.tail := by decide
  exact ⟨rfl, lines, rfl, valid, ⟨by decide, blank⟩,
    (ofSource_blockComment 1 c lines rfl valid).2 fun _ => blank⟩

/-- What stands behind a comment of two lines is read, as a line that begins with a blank. -/
theorem closing_line_read :
    let c : BlockComment := ⟨0, "\n", " display 1", by decide, by decide⟩
    c.text = "note block:\nend note display 1\n" ∧
      (ofSource 1 c.text).gist.codes = [Fault.badIndentation.code] ∧
      (ofSource 1 c.text).gist.tokens.map (·.kind) =
        [.display, .numeral, .newline, .endOfFile] ∧
      (ofSource 1 []).gist = ⟨[{ kind := .endOfFile }], []⟩ := by
  decide +kernel

end TokenStream

end StepsLang
