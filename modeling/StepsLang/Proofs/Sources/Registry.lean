import StepsLang.Proofs.Sources.Number
import StepsLang.Proofs.Text.Lines

namespace StepsLang

namespace Bytes

/-- A text with a line feed for each carriage return that a line feed follows. -/
def withoutReturns : Bytes → Bytes
  | [] => []
  | b :: rest =>
    if b = Byte.carriageReturn ∧ rest.head? = some Byte.lineFeed then withoutReturns rest
    else b :: withoutReturns rest

/-- A text without the line feed at its end. -/
def withoutFinal (s : Bytes) : Bytes :=
  if s.getLast? = some Byte.lineFeed then s.dropLast else s

variable {u v : Bytes}

theorem withoutReturns_last (h : Byte.lineFeed ∉ u) : withoutReturns u = u := by
  induction u with
  | nil => rfl
  | cons b u ih =>
    rw [List.mem_cons, not_or] at h
    have stays : ¬ (b = Byte.carriageReturn ∧ u.head? = some Byte.lineFeed) :=
      fun both => h.2 (List.mem_of_mem_head? both.2)
    rw [withoutReturns, if_neg stays, ih h.2]

theorem withoutReturns_line (h : Byte.lineFeed ∉ u) (v : Bytes) :
    withoutReturns (u ++ Byte.lineFeed :: v) =
      dropReturn u ++ Byte.lineFeed :: withoutReturns v := by
  induction u with
  | nil => rfl
  | cons b u ih =>
    rw [List.mem_cons, not_or] at h
    cases u with
    | nil =>
      by_cases same : b = Byte.carriageReturn
      · subst same
        rfl
      · have feed : Byte.lineFeed ≠ Byte.carriageReturn := by decide
        simp [withoutReturns, dropReturn, same, feed]
    | cons c u =>
      have other : c ≠ Byte.lineFeed := fun same => h.2 (by simp [same])
      have stays : dropReturn (b :: c :: u) = b :: dropReturn (c :: u) :=
        dropReturn_append (List.cons_ne_nil c u) [b]
      rw [List.cons_append, withoutReturns, if_neg (by simp [other]), ih h.2, stays,
        List.cons_append]

theorem withoutReturns_ne_nil (h : u ≠ []) : withoutReturns u ≠ [] := by
  induction u with
  | nil => exact absurd rfl h
  | cons b u ih =>
    rw [withoutReturns]
    split
    · next both => exact ih (List.ne_nil_of_mem (List.mem_of_mem_head? both.2))
    · exact List.cons_ne_nil _ _

theorem withoutFinal_append (h : v ≠ []) (u : Bytes) :
    withoutFinal (u ++ v) = u ++ withoutFinal v := by
  unfold withoutFinal
  rw [List.getLast?_append_of_ne_nil u h, List.dropLast_append_of_ne_nil h]
  split <;> rfl

theorem withoutFinal_last (h : Byte.lineFeed ∉ u) : withoutFinal u = u :=
  if_neg fun last => h (List.mem_of_getLast? last)

end Bytes

namespace Sources

theorem cut_eq_nil_iff (text : Bytes) : cut text = [] ↔ text = [] := by
  cases text using Bytes.lines_induction with
  | nil => exact iff_of_true rfl rfl
  | last u noFeed filled => simp [cut_last noFeed filled, filled]
  | line u v noFeed => simp [cut_line noFeed]

theorem lineFeed_not_mem_cut {text line : Bytes} (h : line ∈ cut text) : Byte.lineFeed ∉ line := by
  induction text using Bytes.lines_induction with
  | nil => cases h
  | last u noFeed filled =>
    rw [cut_last noFeed filled] at h
    exact List.mem_singleton.1 h ▸ noFeed
  | line u v noFeed ih =>
    rw [cut_line noFeed] at h
    rcases List.mem_cons.1 h with rfl | later
    · exact fun feed => noFeed ((Bytes.dropReturn_prefix u).subset feed)
    · exact ih later

/-- The lines of a text are the text, apart from the carriage returns at their ends and the line
feed after the last one. -/
theorem join_cut (text : Bytes) :
    Bytes.join [Byte.lineFeed] (cut text) = Bytes.withoutFinal (Bytes.withoutReturns text) := by
  induction text using Bytes.lines_induction with
  | nil => rfl
  | last u noFeed filled =>
    rw [cut_last noFeed filled, Bytes.withoutReturns_last noFeed, Bytes.withoutFinal_last noFeed]
    rfl
  | line u v noFeed ih =>
    rw [cut_line noFeed, Bytes.withoutReturns_line noFeed,
      Bytes.withoutFinal_append (List.cons_ne_nil _ _)]
    by_cases none : v = []
    · subst none
      exact (List.append_nil _).symm
    · obtain ⟨first, more, lines⟩ :=
        List.exists_cons_of_ne_nil ((cut_eq_nil_iff v).not.2 none)
      have behind := Bytes.withoutFinal_append (Bytes.withoutReturns_ne_nil none) [Byte.lineFeed]
      rw [List.singleton_append] at behind
      rw [lines, Bytes.join, ← lines, ih, behind, List.append_assoc]

variable {s : Sources} {file other : Nat}

theorem lines_attach (known : file ≠ 0) (text : Bytes) :
    (s.attach file text).lines file = cut text := by
  simp [attach, Sources.lines, known]

theorem lines_attach_other (apart : other ≠ file) (text : Bytes) :
    (s.attach file text).lines other = s.lines other := by
  unfold attach
  split
  · rfl
  · simp [Sources.lines, List.lookup_cons, beq_false_of_ne apart]

theorem attach_none (s : Sources) (text : Bytes) : s.attach 0 text = s := rfl

theorem line_eq (s : Sources) (file n : Nat) : s.line file (n + 1) = (s.lines file).getD n [] := by
  simp [Sources.line]

def listing (s : Sources) (file : Nat) : List Bytes :=
  (List.range (s.lineCount file)).map fun n => s.line file (n + 1)

theorem listing_eq (s : Sources) (file : Nat) : s.listing file = s.lines file := by
  refine List.ext_getElem (by simp [listing, lineCount]) fun n _ inside => ?_
  simp [listing, line_eq, inside]

/-- Over all that a registry is asked for, the numbers that it gives are 1, 2, 3 and so on, each
where it is given first. -/
theorem numbers_one_to_one (rs : List Request) :
    let s := rs.foldl serve empty
    let given := empty.given rs
    (given.map Prod.snd).eraseDups = List.range' 1 s.paths.length ∧
      (∀ g ∈ given, ∀ h ∈ given, g.2 = h.2 ↔ Path.normalize g.1 = Path.normalize h.1) ∧
      (∀ g ∈ given, ∀ more, ((rs ++ more).foldl serve empty).path g.2 = Path.normalize g.1) ∧
      (∀ n, n ∉ given.map Prod.snd → s.path n = []) ∧
      (∀ g ∈ given, s.add (s.path g.2) = (g.2, s)) ∧
      ∀ file text,
        let t := s.attach file text
        (∀ other, other ≠ file → t.lineCount other = s.lineCount other ∧
          ∀ n, t.line other n = s.line other n) ∧
        (file = 0 → t = s) ∧
        (file ≠ 0 →
          Bytes.join [Byte.lineFeed] (t.listing file) =
              Bytes.withoutFinal (Bytes.withoutReturns text) ∧
            (∀ line ∈ t.listing file, Byte.lineFeed ∉ line) ∧
            (t.lineCount file = 0 ↔ text = [])) := by
  intro s given
  have number {g : Bytes × Nat} (hg : g ∈ given) : s.number? g.1 = some g.2 := number?_given hg
  have order : (given.map Prod.snd).eraseDups = List.range' 1 s.paths.length :=
    eraseDups_given_empty rs
  refine ⟨order, fun g hg h hh => number?_eq_iff (number hg) (number hh), fun g hg more => ?_,
    fun n out => ?_, fun g hg => add_path (number hg),
    fun file text => ⟨fun other apart => ?_, ?_, fun known => ?_⟩⟩
  · have still := number?_of_prefix (paths_foldl s more) (number hg)
    rw [List.foldl_append]
    exact path_of_number? still
  · rw [← List.mem_eraseDups, order, List.mem_range'_1] at out
    exact path_beyond (by omega)
  · have same := lines_attach_other (s := s) apart text
    exact ⟨congrArg List.length same, fun n => by simp only [Sources.line, same]⟩
  · rintro rfl
    exact s.attach_none text
  · have lines := lines_attach (s := s) known text
    rw [listing_eq, lines, lineCount, lines, List.length_eq_zero_iff, cut_eq_nil_iff]
    exact ⟨join_cut text, fun line => lineFeed_not_mem_cut, Iff.rfl⟩

theorem numbers_one_to_one_spellings :
    let rs : List Request :=
      [.add "hall/./main.building", .add "greet.step", .attach 1 "", .add "hall//main.building"]
    let s := rs.foldl serve empty
    empty.given rs = [⟨"hall/./main.building", 1⟩, ⟨"greet.step", 2⟩, ⟨"hall//main.building", 1⟩] ∧
      s.path 1 = "hall/main.building" ∧ s.add (s.path 1) = (1, s) ∧ s.path 3 = [] ∧
      Bytes.join [Byte.lineFeed] ((s.attach 2 "step: greet\r\n\n\r\r\n").listing 2) =
        "step: greet\n\n\r" := by
  intro rs s
  have given : empty.given rs =
      [⟨"hall/./main.building", 1⟩, ⟨"greet.step", 2⟩, ⟨"hall//main.building", 1⟩] := by
    decide +kernel
  obtain ⟨-, -, kept, none, again, texts⟩ := numbers_one_to_one rs
  rw [given] at kept none again
  have first := List.mem_cons_self (a := ((⟨"hall/./main.building", 1⟩ : Bytes × Nat)))
    (l := [⟨"greet.step", 2⟩, ⟨"hall//main.building", 1⟩])
  refine ⟨given, (kept _ first []).trans (by decide +kernel), again _ first, none 3 (by decide), ?_⟩
  exact ((texts 2 _).2.2 (by decide)).1.trans (by decide +kernel)

end Sources

end StepsLang
