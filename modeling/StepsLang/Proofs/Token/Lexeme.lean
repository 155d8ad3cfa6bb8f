import Mathlib.Data.List.Find
import Mathlib.Data.List.TakeWhile
import StepsLang.Proofs.Token.Word

namespace StepsLang

def Kind.isContent : Kind → Bool
  | .endOfFile | .newline | .indent | .dedent => Bool.false
  | _ => Bool.true

def LineEnd (v : Bytes) : Prop := ∀ b ∈ v.head?, b = Byte.lineFeed

def LineStop (v : Bytes) : Prop :=
  ∀ b ∈ v.head?, b = Byte.lineFeed ∨ b = Byte.carriageReturn

theorem lineEnd_cons (v : Bytes) : LineEnd (Byte.lineFeed :: v) :=
  fun _ hb => (Option.some.inj hb).symm

theorem LineEnd.stop {v : Bytes} (h : LineEnd v) : LineStop v := fun b hb => .inl (h b hb)

def NoComment (s : Bytes) : Prop := ¬ Word.blockCommentStart <:+: s

instance (s : Bytes) : Decidable (NoComment s) :=
  inferInstanceAs (Decidable (¬ Word.blockCommentStart <:+: s))

theorem NoComment.of_suffix {s t : Bytes} (h : NoComment s) (ht : t <:+ s) : NoComment t :=
  fun inside => h (inside.trans ht.isInfix)

theorem NoComment.drop {s : Bytes} (h : NoComment s) (n : Nat) : NoComment (s.drop n) :=
  h.of_suffix (List.drop_suffix n s)

theorem NoComment.standsAt {s : Bytes} (h : NoComment s) :
    Word.standsAt Word.blockCommentStart s = false := by
  rw [Bool.eq_false_iff]
  exact fun stands => h (Word.isPrefix_of_standsAt stands).isInfix

namespace Bytes

variable {p : UInt8 → Bool} {u v w : Bytes}

theorem exists_line (s : Bytes) : ∃ u v, s = u ++ v ∧ Byte.lineFeed ∉ u ∧ LineEnd v := by
  by_cases h : Byte.lineFeed ∈ s
  · obtain ⟨u, v, rfl, line⟩ := List.eq_append_cons_of_mem h
    exact ⟨u, _, rfl, line, lineEnd_cons v⟩
  · exact ⟨s, [], by simp, h, by intro b hb; cases hb⟩

theorem line_return (h : Byte.lineFeed ∉ u) : Byte.lineFeed ∉ u ++ [Byte.carriageReturn] := by
  rw [List.mem_append, not_or]
  exact ⟨h, by decide⟩

theorem takeWhile_line (h : Byte.lineFeed ∉ u) : u.takeWhile (· != Byte.lineFeed) = u := by
  refine List.takeWhile_eq_self_iff.2 fun b hb => ?_
  have other : b ≠ Byte.lineFeed := fun same => h (same ▸ hb)
  simpa using other

theorem head?_ends (hp : p Byte.lineFeed = false) (hv : LineEnd v) : v.head?.any p = false := by
  cases v with
  | nil => rfl
  | cons b v => simp [hv b rfl, hp]

theorem head?_stops (hp : p Byte.lineFeed = false) (hr : p Byte.carriageReturn = false)
    (hv : LineStop v) : v.head?.any p = false := by
  cases v with
  | nil => rfl
  | cons b v => rcases hv b rfl with rfl | rfl <;> simpa

theorem takeWhile_before (hv : v.head?.any p = false) :
    (u ++ v).takeWhile p = u.takeWhile p := by
  induction u with
  | nil =>
    cases v with
    | nil => rfl
    | cons b v => simp_all
  | cons b u ih => simp only [List.cons_append, List.takeWhile_cons, ih]

theorem dropWhile_before (hv : v.head?.any p = false) :
    (u ++ v).dropWhile p = u.dropWhile p ++ v := by
  induction u with
  | nil =>
    cases v with
    | nil => rfl
    | cons b v => simp_all
  | cons b u ih =>
    simp only [List.cons_append, List.dropWhile_cons, ih]
    split <;> rfl

theorem takeWhile_ends (hp : p Byte.lineFeed = false) (hv : LineEnd v) :
    (u ++ v).takeWhile p = u.takeWhile p := takeWhile_before (head?_ends hp hv)

theorem prefix_before (hv : ∀ b ∈ v.head?, b ∉ w) : w <+: u ++ v ↔ w <+: u := by
  refine ⟨fun h => ?_, fun h => h.trans (List.prefix_append u v)⟩
  rcases List.prefix_or_prefix_of_prefix h (List.prefix_append u v) with within | ⟨t, rfl⟩
  · exact within
  · cases t with
    | nil => simp
    | cons b t =>
      obtain ⟨r, rfl⟩ := (List.prefix_append_right_inj u).1 h
      simp at hv

theorem prefix_ends (hw : Byte.lineFeed ∉ w) (hv : LineEnd v) : w <+: u ++ v ↔ w <+: u :=
  prefix_before fun b hb => hv b hb ▸ hw

end Bytes

namespace Word

variable {u v w : Bytes}

theorem standsAt_before (hv : ∀ b ∈ v.head?, b ∉ w) (name : v.head?.any Byte.isNameByte = false) :
    standsAt w (u ++ v) = standsAt w u := by
  have starts : (u ++ v).startsWith w = u.startsWith w := by
    rw [Bytes.startsWith, Bytes.startsWith, Bool.eq_iff_iff, List.isPrefixOf_iff_prefix,
      List.isPrefixOf_iff_prefix, Bytes.prefix_before hv]
  rw [standsAt, standsAt, starts]
  by_cases h : u.startsWith w = true
  · obtain ⟨r, rfl⟩ := List.isPrefixOf_iff_prefix.1 h
    rw [List.append_assoc, List.drop_left, List.drop_left]
    cases r with
    | nil => simp [name]
    | cons => rfl
  · simp [h]

theorem standsAt_ends (hw : Byte.lineFeed ∉ w) (hv : LineEnd v) :
    standsAt w (u ++ v) = standsAt w u :=
  standsAt_before (fun b hb => hv b hb ▸ hw) (Bytes.head?_ends rfl hv)

theorem standsAt_stops (hw : Byte.lineFeed ∉ w) (hr : Byte.carriageReturn ∉ w) (hv : LineStop v) :
    standsAt w (u ++ v) = standsAt w u := by
  refine standsAt_before (fun b hb => ?_) (Bytes.head?_stops rfl rfl hv)
  rcases hv b hb with rfl | rfl
  · exact hw
  · exact hr

theorem phrase?_stops (hv : LineStop v) : phrase? (u ++ v) = phrase? u := by
  have plain : ∀ k ∈ phrases, Byte.lineFeed ∉ k.spelling ∧ Byte.carriageReturn ∉ k.spelling := by
    decide
  exact List.find?_congr fun k hk => standsAt_stops (plain k hk).1 (plain k hk).2 hv

end Word

namespace Lexeme

variable {v : Bytes}

theorem quotedRest_ends (read : Nat) (content : Bytes) (flaws : List (Nat × Flaw)) {u : Bytes}
    (hu : Byte.lineFeed ∉ u) (hv : LineEnd v) :
    quotedRest read content flaws (u ++ v) = quotedRest read content flaws u := by
  fun_induction quotedRest read content flaws u with
  | case1 read content flaws =>
    cases v with
    | nil => rfl
    | cons b v =>
      rw [List.nil_append, quotedRest.eq_def]
      simp [hv b rfl]
  | case4 read content flaws b other noQuote backslash =>
    cases v with
    | nil => simp [quotedRest, other, noQuote, backslash]
    | cons c v => simp [quotedRest, other, noQuote, backslash, hv c rfl]
  | _ =>
    rw [List.cons_append, quotedRest.eq_def]
    simp_all

theorem length_quotedRest_le (read : Nat) (content : Bytes) (flaws : List (Nat × Flaw))
    (s : Bytes) : (quotedRest read content flaws s).length ≤ read + s.length := by
  fun_induction quotedRest read content flaws s <;> simp_all <;> omega

theorem numeral_stops (u : Bytes) (hv : LineStop v) : numeral (u ++ v) = numeral u := by
  have digits : ∀ r : Bytes, (r ++ v).takeWhile Byte.isDigit = r.takeWhile Byte.isDigit :=
    fun r => Bytes.takeWhile_before (Bytes.head?_stops rfl rfl hv)
  have after : (u ++ v).drop (u.takeWhile Byte.isDigit).length =
      u.drop (u.takeWhile Byte.isDigit).length ++ v :=
    List.drop_append_of_le_length (List.takeWhile_prefix _).length_le
  simp only [numeral, digits, after]
  cases u.drop (u.takeWhile Byte.isDigit).length with
  | nil =>
    cases v with
    | nil => rfl
    | cons b v =>
      have other : (b == Byte.dot) = false := by rcases hv b rfl with rfl | rfl <;> rfl
      simp only [List.nil_append, other, Bool.false_and, Bool.false_eq_true, if_false]
  | cons b rest => simp only [List.cons_append, digits]

theorem length_numeral_le (s : Bytes) : (numeral s).length ≤ s.length := by
  have whole := (List.takeWhile_prefix (l := s) Byte.isDigit).length_le
  simp only [numeral]
  split
  · next b rest h =>
    have fraction := (List.takeWhile_prefix (l := rest) Byte.isDigit).length_le
    have count := congrArg List.length h
    rw [List.length_drop, List.length_cons] at count
    split
    · rw [List.length_append, List.length_cons]
      omega
    · exact whole
  · exact whole

theorem note_ends (before : Nat) (u : Bytes) (hv : LineEnd v) :
    note before (u ++ v) = note before u := by
  simp only [note, Bytes.takeWhile_ends (p := (· != Byte.lineFeed)) rfl hv]

theorem length_note_le (before : Nat) (s : Bytes) : (note before s).length ≤ before + s.length :=
  Nat.add_le_add_left (List.takeWhile_prefix _).length_le before

theorem word_stops (u : Bytes) (hv : LineStop v)
    (comment : Word.standsAt Word.blockCommentStart u = false) :
    word (u ++ v) = word u ∨ ∃ n r, r <:+ u ∧ n + r.length = u.length ∧ word u = note n r ∧
      word (u ++ v) = note n (r ++ v) := by
  have other : Word.standsAt Word.blockCommentStart (u ++ v) = false := by
    rw [Word.standsAt_stops (by decide) (by decide) hv, comment]
  have name : (u ++ v).takeWhile Byte.isNameByte = u.takeWhile Byte.isNameByte :=
    Bytes.takeWhile_before (Bytes.head?_stops rfl rfl hv)
  have rest : (u ++ v).drop (u.takeWhile Byte.isNameByte).length =
      u.drop (u.takeWhile Byte.isNameByte).length ++ v :=
    List.drop_append_of_le_length (List.takeWhile_prefix _).length_le
  have after : ∀ r : Bytes, (r ++ v).dropWhile (· == Byte.space) =
      r.dropWhile (· == Byte.space) ++ v :=
    fun r => Bytes.dropWhile_before (Bytes.head?_stops rfl rfl hv)
  simp only [word, comment, other, name, rest, after, Word.phrase?_stops hv, Bool.false_eq_true,
    if_false, List.length_append, Nat.add_sub_add_right]
  have whole := (List.takeWhile_prefix (l := u) Byte.isNameByte).length_le
  have inside := List.dropWhile_suffix (l := u.drop (u.takeWhile Byte.isNameByte).length)
    (· == Byte.space)
  have spaces := inside.length_le
  rw [List.length_drop] at spaces
  cases Word.phrase? u with
  | some k => exact .inl rfl
  | none =>
    cases e : (u.drop (u.takeWhile Byte.isNameByte).length).dropWhile (· == Byte.space) with
    | nil =>
      have colon : (v.head? == some Byte.colon) = false := by
        cases v with
        | nil => rfl
        | cons b v => rcases hv b rfl with rfl | rfl <;> rfl
      have nothing : (([] : Bytes).head? == some Byte.colon) = false := rfl
      left
      simp only [List.nil_append, colon, nothing, Bool.and_false, Bool.false_eq_true, if_false]
    | cons b r =>
      rw [e, List.length_cons] at spaces
      rw [e] at inside
      simp only [List.cons_append, List.head?_cons, List.drop_one, List.tail_cons]
      split
      · split
        · have behind := ((List.suffix_cons b r).trans inside).trans (List.drop_suffix _ u)
          refine .inr ⟨_, r, behind, ?_, rfl, rfl⟩
          rw [List.length_drop, List.length_cons]
          omega
        · exact .inl rfl
      · exact .inl rfl

theorem length_word_le (s : Bytes) (comment : Word.standsAt Word.blockCommentStart s = false) :
    (word s).length ≤ s.length := by
  have name := (List.takeWhile_prefix (l := s) Byte.isNameByte).length_le
  simp only [word, comment, Bool.false_eq_true, if_false]
  split
  · next k hk =>
    have found : Word.phrases.find? (fun k => Word.standsAt k.spelling s) = some k := hk
    have stands := List.find?_some found
    exact (Word.isPrefix_of_standsAt stands).length_le
  · split
    · next colon =>
      have spaces := (List.dropWhile_suffix (l := s.drop (s.takeWhile Byte.isNameByte).length)
        (· == Byte.space)).length_le
      rw [List.length_drop] at spaces
      rw [Bool.and_eq_true, beq_iff_eq] at colon
      cases e : (s.drop (s.takeWhile Byte.isNameByte).length).dropWhile (· == Byte.space) with
      | nil => simp [e] at colon
      | cons b r =>
        rw [e, List.length_cons] at spaces
        have text := length_note_le ((s.takeWhile Byte.isNameByte).length +
          ((s.drop (s.takeWhile Byte.isNameByte).length).length - (b :: r).length) + 1) r
        rw [List.length_drop, List.length_cons] at text ⊢
        split
        · rw [List.drop_one, List.tail_cons]
          omega
        · show _ + _ + 1 ≤ _
          omega
    · exact name

theorem read_stops (b : UInt8) {u : Bytes} (hv : LineStop v)
    (comment : Word.standsAt Word.blockCommentStart (b :: u) = false)
    (quotes : b = Byte.quote → quoted (u ++ v) = quoted u) :
    read b (u ++ v) = read b u ∨ ∃ n r, r <:+ b :: u ∧ n + r.length = u.length + 1 ∧
      read b u = note n r ∧ read b (u ++ v) = note n (r ++ v) := by
  have strange : strange b (u ++ v) = strange b u := by
    simp only [Lexeme.strange, Bytes.takeWhile_before (Bytes.head?_stops
      (p := Byte.isContinuation) rfl rfl hv)]
  have words := word_stops (b :: u) hv comment
  simp only [read, ← List.cons_append, strange, numeral_stops _ hv]
  split
  · exact .inl rfl
  · split
    · exact .inl rfl
    · split
      · exact .inl rfl
      · split
        · next same => exact .inl (quotes (eq_of_beq same))
        · split
          · exact .inl rfl
          · split
            · exact .inl rfl
            · split
              · exact words
              · exact .inl rfl

theorem read_ends (b : UInt8) (u : Bytes) (hu : Byte.lineFeed ∉ u) (hv : LineEnd v)
    (comment : Word.standsAt Word.blockCommentStart (b :: u) = false) :
    read b (u ++ v) = read b u := by
  have quoted : quoted (u ++ v) = quoted u := by
    simp only [Lexeme.quoted, quotedRest_ends 1 [] [] hu hv]
  obtain same | ⟨n, r, -, -, note, longer⟩ := read_stops b hv.stop comment fun _ => quoted
  · exact same
  · rw [longer, note, note_ends n r hv]

theorem read_comment {b : UInt8} {rest : Bytes}
    (stands : Word.standsAt Word.blockCommentStart (b :: rest) = true) :
    read b rest = { length := Word.blockCommentLength (b :: rest) } := by
  obtain ⟨t, ht⟩ := Word.isPrefix_of_standsAt stands
  obtain rfl : 110 = b := (List.cons.inj ht).1
  rw [read_eq_word rest rfl, word, if_pos stands]

theorem length_read_le (b : UInt8) (s : Bytes)
    (comment : Word.standsAt Word.blockCommentStart (b :: s) = false) :
    (read b s).length ≤ s.length + 1 := by
  have strange : (strange b s).length ≤ s.length + 1 :=
    Nat.succ_le_succ (List.takeWhile_prefix _).length_le
  have quoted : (quoted s).length ≤ s.length + 1 := by
    have := length_quotedRest_le 1 [] [] s
    simp only [Lexeme.quoted]
    omega
  have numeral := length_numeral_le (b :: s)
  have word := length_word_le (b :: s) comment
  rw [List.length_cons] at numeral word
  simp only [read]
  split
  · exact Nat.le_add_left 1 _
  · split
    · exact Nat.le_add_left 1 _
    · split
      · exact Nat.le_add_left 1 _
      · split
        · exact quoted
        · split
          · exact Nat.le_add_left 1 _
          · split
            · exact numeral
            · split
              · exact word
              · exact strange

theorem length_read_before {b : UInt8} {u : Bytes} (line : Byte.lineFeed ∉ u) (ends : LineEnd v)
    (comment : Word.standsAt Word.blockCommentStart (b :: (u ++ v)) = false) :
    (read b (u ++ v)).length ≤ u.length + 1 := by
  rw [← List.cons_append, Word.standsAt_ends (by decide) ends] at comment
  rw [read_ends b u line ends comment]
  exact length_read_le b u comment

theorem lineFeed_not_mem_read {b : UInt8} {rest : Bytes} (hb : b ≠ Byte.lineFeed)
    (comment : Word.standsAt Word.blockCommentStart (b :: rest) = false) :
    Byte.lineFeed ∉ (b :: rest).take (read b rest).length := by
  obtain ⟨u, v, rfl, line, ends⟩ := Bytes.exists_line rest
  rw [← List.cons_append,
    List.take_append_of_le_length (by simpa using length_read_before line ends comment)]
  exact fun there => (List.mem_cons.1 (List.mem_of_mem_take there)).elim (fun e => hb e.symm) line

theorem isContent_kind (w : Bytes) : (Word.kind w).isContent = true := by
  have all : ∀ k ∈ Word.keywords, k.isContent = true := by decide
  unfold Word.kind
  cases e : Word.keywords.find? fun k => Word.bare k == w with
  | none => rfl
  | some k => exact all k (List.mem_of_find?_eq_some e)

theorem isContent_word {s : Bytes} {k : Kind} (h : (word s).kind = some k) :
    k.isContent = true := by
  have all : ∀ k ∈ Word.phrases, k.isContent = true := by decide
  unfold word at h
  split at h
  · cases h
  · split at h
    · next k' hk =>
      cases h
      exact all k (List.mem_of_find?_eq_some hk)
    · dsimp only at h
      split at h
      · split at h
        · cases h
          rfl
        · cases h
          exact isContent_kind _
      · cases h
        exact isContent_kind _

theorem isContent_ite {c : Prop} [Decidable c] {k k' : Kind} {o : Option Kind}
    (here : k.isContent = true) (other : o = some k' → k'.isContent = true)
    (h : (if c then some k else o) = some k') : k'.isContent = true := by
  split at h
  · cases h
    exact here
  · exact other h

theorem isContent_symbol? {b : UInt8} {k : Kind} : symbol? b = some k → k.isContent = true := by
  unfold symbol?
  repeat apply isContent_ite rfl
  simp

theorem isContent_read {b : UInt8} {rest : Bytes} {k : Kind} (h : (read b rest).kind = some k)
    (hb : b ≠ Byte.lineFeed) : k.isContent = true := by
  unfold read at h
  split at h
  · next same => exact absurd (eq_of_beq same) hb
  · split at h
    · cases h
    · split at h
      · cases h
      · split at h
        · cases h
          rfl
        · split at h
          · next k' hk =>
            cases h
            exact isContent_symbol? hk
          · split at h
            · cases h
              rfl
            · split at h
              · exact isContent_word h
              · cases h

end Lexeme

end StepsLang
