import Mathlib.Data.List.Induction
import StepsLang.Proofs.Text.Character
import StepsLang.Proofs.Token.Lexeme
import StepsLang.Sources

namespace StepsLang

namespace Bytes

variable {b : UInt8} {s t u v w : Bytes}

def lastLine (s : Bytes) : Bytes := (s.reverse.takeWhile (· != Byte.lineFeed)).reverse

@[simp] theorem lastLine_nil : lastLine [] = [] := rfl

@[simp] theorem lastLine_lineFeed (s : Bytes) : lastLine (s ++ [Byte.lineFeed]) = [] := by
  simp [lastLine]

theorem lastLine_concat (h : b ≠ Byte.lineFeed) (s : Bytes) :
    lastLine (s ++ [b]) = lastLine s ++ [b] := by
  simp [lastLine, h]

theorem lastLine_append (h : Byte.lineFeed ∉ t) (s : Bytes) :
    lastLine (s ++ t) = lastLine s ++ t := by
  induction t using List.reverseRecOn with
  | nil => simp
  | append_singleton t b ih =>
    rw [List.mem_append, not_or] at h
    have other : b ≠ Byte.lineFeed := fun same => h.2 (by simp [same])
    rw [← List.append_assoc, lastLine_concat other, ih h.1, List.append_assoc]

theorem exists_lastLine (s : Bytes) : ∃ t, s = t ++ lastLine s ∧
    (∀ b ∈ t.getLast?, b = Byte.lineFeed) ∧ Byte.lineFeed ∉ lastLine s := by
  induction s using List.reverseRecOn with
  | nil => exact ⟨[], rfl, by simp, by simp⟩
  | append_singleton s b ih =>
    by_cases hb : b = Byte.lineFeed
    · subst hb
      exact ⟨s ++ [Byte.lineFeed], by simp, by simp, by simp⟩
    · obtain ⟨t, whole, ends, line⟩ := ih
      rw [lastLine_concat hb]
      refine ⟨t, by rw [← List.append_assoc, ← whole], ends, ?_⟩
      rw [List.mem_append, not_or]
      exact ⟨line, by simpa using Ne.symm hb⟩

@[elab_as_elim]
theorem lines_induction {motive : Bytes → Prop} (nil : motive [])
    (last : ∀ u, Byte.lineFeed ∉ u → u ≠ [] → motive u)
    (line : ∀ u v, Byte.lineFeed ∉ u → motive v → motive (u ++ Byte.lineFeed :: v)) (s : Bytes) :
    motive s := by
  induction size : s.length using Nat.strongRecOn generalizing s with
  | ind m ih =>
    subst size
    obtain ⟨u, v, rfl, noFeed, ends⟩ := exists_line s
    cases v with
    | nil =>
      rw [List.append_nil]
      by_cases filled : u = []
      · exact filled ▸ nil
      · exact last u noFeed filled
    | cons b v =>
      obtain rfl := ends b rfl
      have less : v.length < (u ++ Byte.lineFeed :: v).length := by
        simp only [List.length_append, List.length_cons]
        omega
      exact line u v noFeed (ih _ less v rfl)

theorem splitLines_ne_nil (s : Bytes) : splitLines s ≠ [] := by
  have from_ : ∀ line, splitLines.go line s ≠ [] := by
    induction s with
    | nil => exact fun line => List.cons_ne_nil _ _
    | cons b s ih =>
      intro line
      rw [splitLines.go]
      split
      · exact List.cons_ne_nil _ _
      · exact ih _
  exact from_ []

theorem splitLines_go_line (h : Byte.lineFeed ∉ u) (line v : Bytes) :
    splitLines.go line (u ++ v) = splitLines.go (u.reverse ++ line) v := by
  induction u generalizing line with
  | nil => rfl
  | cons b u ih =>
    rw [List.mem_cons, not_or] at h
    have other : (b == Byte.lineFeed) = false := beq_false_of_ne (Ne.symm h.1)
    rw [List.cons_append, splitLines.go, other]
    simp [ih h.2]

theorem splitLines_line (h : Byte.lineFeed ∉ u) (ends : LineEnd v) :
    splitLines (u ++ v) = u :: (if v = [] then [] else splitLines (v.drop 1)) := by
  rw [splitLines, splitLines_go_line h]
  cases v with
  | nil => simp [splitLines.go]
  | cons b v =>
    obtain rfl := ends b rfl
    simp [splitLines.go, splitLines]

theorem splitLines_last (h : Byte.lineFeed ∉ u) : splitLines u = [u] := by
  simpa using splitLines_line (v := []) h (by rintro b ⟨⟩)

theorem splitLines_cons (h : Byte.lineFeed ∉ u) (v : Bytes) :
    splitLines (u ++ Byte.lineFeed :: v) = u :: splitLines v := by
  simpa using splitLines_line h (lineEnd_cons v)

theorem lines_last (h : Byte.lineFeed ∉ u) (filled : u ≠ []) : lines u = [u] := by
  simp [lines, splitLines_last h, filled]

theorem lines_cons (h : Byte.lineFeed ∉ u) (v : Bytes) :
    lines (u ++ Byte.lineFeed :: v) = u :: lines v := by
  have last : (u :: splitLines v).getLast? = (splitLines v).getLast? := by
    rw [List.getLast?_cons_of_ne_nil (splitLines_ne_nil v)]
  simp only [lines, splitLines_cons h, last]
  split
  · rw [List.dropLast_cons_of_ne_nil (splitLines_ne_nil v)]
  · rfl

theorem splitLines_whole (h : ∀ b ∈ t.getLast?, b = Byte.lineFeed) :
    ∃ ls, ls.length = t.count Byte.lineFeed ∧ ∀ v, splitLines (t ++ v) = ls ++ splitLines v := by
  induction size : t.length using Nat.strongRecOn generalizing t with
  | ind m ih =>
    subst size
    obtain ⟨u, w, rfl, line, ends⟩ := exists_line t
    cases w with
    | nil =>
      rw [List.append_nil] at h
      cases u using List.reverseRecOn with
      | nil => exact ⟨[], rfl, fun v => rfl⟩
      | append_singleton u b => exact absurd (h b (by simp)) fun same => line (by simp [same])
    | cons b w =>
      obtain rfl := ends b rfl
      have ends' : ∀ b ∈ w.getLast?, b = Byte.lineFeed := by
        intro b hb
        refine h b ?_
        rw [List.getLast?_append, List.getLast?_cons, Option.mem_def.1 hb]
        rfl
      have less : w.length < (u ++ Byte.lineFeed :: w).length := by
        simp only [List.length_append, List.length_cons]
        omega
      obtain ⟨ls, count, cut⟩ := ih w.length less ends' rfl
      refine ⟨u :: ls, ?_, fun v => ?_⟩
      · rw [List.length_cons, count, List.count_append, List.count_eq_zero_of_not_mem line,
          List.count_cons_self, Nat.zero_add]
      · rw [List.append_assoc, List.cons_append, splitLines_line line (lineEnd_cons _),
          if_neg (by simp), List.drop_one, List.tail_cons, cut, List.cons_append]

theorem count_lastLine (s : Bytes) : ∃ t, s = t ++ lastLine s ∧ Byte.lineFeed ∉ lastLine s ∧
    ∃ ls, ls.length = s.count Byte.lineFeed ∧ ∀ v, splitLines (t ++ v) = ls ++ splitLines v := by
  obtain ⟨t, whole, ends, line⟩ := exists_lastLine s
  obtain ⟨ls, count, cut⟩ := splitLines_whole ends
  refine ⟨t, whole, line, ls, ?_, cut⟩
  conv_rhs => rw [whole]
  rw [count, List.count_append, List.count_eq_zero_of_not_mem line, Nat.add_zero]

theorem dropReturn_append (filled : v ≠ []) (u : Bytes) :
    dropReturn (u ++ v) = u ++ dropReturn v := by
  cases v using List.reverseRecOn with
  | nil => exact absurd rfl filled
  | append_singleton w b =>
    unfold dropReturn
    rw [← List.append_assoc, List.getLast?_concat, List.getLast?_concat, List.dropLast_concat,
      List.dropLast_concat]
    split
    · rfl
    · rw [List.append_assoc]

theorem dropReturn_cases (w : Bytes) :
    dropReturn w = w ∨ w = dropReturn w ++ [Byte.carriageReturn] := by
  unfold dropReturn
  split
  · next last => exact .inr (List.dropLast_append_getLast? _ (by simpa using last)).symm
  · exact .inl rfl

theorem dropReturn_prefix (w : Bytes) : dropReturn w <+: w := by
  obtain same | more := dropReturn_cases w
  · exact ⟨[], by rw [List.append_nil, same]⟩
  · exact ⟨_, more.symm⟩

end Bytes

namespace Utf8

theorem offset_length {r : Bytes} (h : ∀ c ∈ r.head?, Byte.isContinuation c = false) (s : Bytes) :
    offset (s ++ r) (length s) = s.length := by
  induction s with
  | nil =>
    cases r with
    | nil => rfl
    | cons c r => simp [offset, length, h c rfl]
  | cons b s ih =>
    rw [List.cons_append, offset.eq_def]
    dsimp only
    cases e : Byte.isContinuation b with
    | true =>
      have count : length (b :: s) = length s := by simp [length, e]
      rw [if_pos rfl, count, ih, List.length_cons]
    | false =>
      have count : length (b :: s) = length s + 1 := by simp [length, e]
      rw [if_neg (by simp), count]
      exact congrArg (· + 1) ih

end Utf8

namespace Sources

/-- What is shown of a line from a place on. -/
def shownAt (s : Sources) (file : Nat) (l : Location) : Bytes :=
  let line := s.line file l.line
  line.drop (Utf8.offset line (l.column - 1))

theorem line_attach (s : Sources) {file : Nat} (known : file ≠ 0) (text : Bytes) (n : Nat) :
    (s.attach file text).line file (n + 1) = (cut text).getD n [] := by
  have lines : (s.attach file text).lines file = cut text := by
    simp [attach, Sources.lines, known]
  simp [Sources.line, lines]

theorem cut_line {u : Bytes} (h : Byte.lineFeed ∉ u) (v : Bytes) :
    cut (u ++ Byte.lineFeed :: v) = Bytes.dropReturn u :: cut v := by
  obtain ⟨last, before, whole⟩ :=
    List.exists_cons_of_ne_nil (List.reverse_ne_nil_iff.2 (Bytes.splitLines_ne_nil v))
  simp [cut, Bytes.splitLines_cons h, whole]

theorem cut_last {u : Bytes} (h : Byte.lineFeed ∉ u) (filled : u ≠ []) : cut u = [u] := by
  simp [cut, Bytes.splitLines_last h, filled]

theorem cut_getD {text : Bytes} {ls ms : List Bytes} {w : Bytes}
    (h : Bytes.splitLines text = ls ++ w :: ms) (filled : w ≠ []) :
    (cut text).getD ls.length [] = if ms = [] then w else Bytes.dropReturn w := by
  cases ms using List.reverseRecOn with
  | nil =>
    have shown : w.isEmpty = false := by simpa using filled
    simp [cut, h, shown]
  | append_singleton ms last =>
    simp [cut, h]

theorem shownAt_attach (sources : Sources) {file : Nat} (known : file ≠ 0) {p v u : Bytes}
    {c : UInt8} {l : Location} (h : Byte.isContinuation c = false) (line : Byte.lineFeed ∉ c :: u)
    (ends : LineEnd v) (row : l.line = 1 + p.count Byte.lineFeed)
    (column : l.column = 1 + Utf8.length p.lastLine) :
    (sources.attach file (p ++ (c :: u ++ v))).shownAt file l =
      if v = [] then c :: u else Bytes.dropReturn (c :: u) := by
  obtain ⟨t, whole, before, ls, count, cut⟩ := Bytes.count_lastLine p
  have here : Byte.lineFeed ∉ p.lastLine ++ c :: u := by
    rw [List.mem_append, not_or]
    exact ⟨before, line⟩
  have lines : Bytes.splitLines (p ++ (c :: u ++ v)) =
      ls ++ (p.lastLine ++ c :: u) :: (if v = [] then [] else Bytes.splitLines (v.drop 1)) := by
    rw [← Bytes.splitLines_line here ends, ← cut, List.append_assoc, ← List.append_assoc t, ← whole]
  have shown := cut_getD lines (by simp)
  rw [count] at shown
  have split : (if v = [] then [] else Bytes.splitLines (v.drop 1)) = [] ↔ v = [] := by
    by_cases none : v = [] <;> simp [none, Bytes.splitLines_ne_nil]
  have from_ : ∀ r, r <+: c :: u → (p.lastLine ++ r).drop
      (Utf8.offset (p.lastLine ++ r) (Utf8.length p.lastLine)) = r := by
    rintro r ⟨more, whole⟩
    rw [Utf8.offset_length, List.drop_left]
    intro b hb
    cases r with
    | nil => cases hb
    | cons a r => rwa [← Option.some.inj hb, (List.cons.inj whole).1]
  rw [shownAt, row, Nat.add_comm 1, line_attach _ known, shown, column, Nat.add_sub_cancel_left,
    if_congr split rfl rfl]
  split
  · exact from_ _ (List.prefix_refl _)
  · rw [Bytes.dropReturn_append (List.cons_ne_nil c u)]
    exact from_ _ (Bytes.dropReturn_prefix _)

end Sources

end StepsLang
