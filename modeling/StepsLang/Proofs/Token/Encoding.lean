import StepsLang.Proofs.Text.Malformed
import StepsLang.Proofs.Token.Step

namespace StepsLang

def Fault.ofScan : List Fault :=
  [.strangeCharacter, .badIndentation, .tabIndentation, .unclosedText, .unmatchedDedent]

def Report.OfScan (r : Report) : Prop := ∃ f ∈ Fault.ofScan, r.code = f.code

namespace Scanner

variable {s t : Scanner} {b : Batch}

theorem ofScan_flaw (l : Location) (flaw : Flaw) : (flaw.report l).OfScan := by
  cases flaw with
  | tab => exact ⟨.tabIndentation, by decide, rfl⟩
  | unclosed => exact ⟨.unclosedText, by decide, rfl⟩
  | escape => exact ⟨.strangeCharacter, by decide, rfl⟩
  | strange => exact ⟨.strangeCharacter, by decide, rfl⟩

theorem ofScan_tabFaults (s : Scanner) : ∀ r ∈ s.tabFaults, r.OfScan := by
  unfold tabFaults
  split
  · exact List.forall_mem_singleton.2 ⟨.tabIndentation, by decide, rfl⟩
  · exact List.forall_mem_nil _

theorem ofScan_relevel (s : Scanner) (here : Location) (found : Nat) :
    ∀ r ∈ (s.relevel here found).2.reports, r.OfScan := by
  have odd : ∀ r ∈ (s.openLevel here found).2.reports, r.OfScan := by
    have both : (s.openLevel here found).2.reports ⊆
        [Report.fill .badIndentation here [("spaces", Bytes.decimal found)],
          Report.tell .badIndentation here "Indentation increased by more than one level."
            ("Expected " ++ Bytes.decimal (s.level + 4) ++ " spaces, found " ++ Bytes.decimal found
              ++ ".")] := by
      intro r hr
      simp only [openLevel] at hr
      grind
    intro r hr
    obtain rfl | rfl := List.mem_pair.1 (both hr)
    · exact ⟨.badIndentation, by decide, rfl⟩
    · exact ⟨.badIndentation, by decide, rfl⟩
  unfold relevel
  split
  · exact odd
  · simp only [closeLevels]
    split
    · exact List.forall_mem_nil _
    · exact List.forall_mem_singleton.2 ⟨.unmatchedDedent, by decide, rfl⟩

theorem ofScan_step (hs : s.step = some (t, b)) : ∀ r ∈ b.reports, r.OfScan := by
  obtain ⟨-, made⟩ | ⟨-, c, rest, -, made⟩ := step_cases hs
  · obtain ⟨n, tabs⟩ | leveled := startLine_cases s
    · rw [tabs] at made
      cases made
      exact ofScan_tabFaults s
    · rw [leveled] at made
      cases made
      exact List.forall_mem_append.2 ⟨ofScan_tabFaults s, ofScan_relevel _ _ _⟩
  · have reports := reports_lexeme s c rest
    rw [made] at reports
    rw [reports]
    exact List.forall_mem_map.2 fun (n, flaw) _ => ofScan_flaw _ flaw

theorem ofScan_run (s : Scanner) : ∀ r ∈ s.run.1.flatMap (·.reports), r.OfScan := by
  cases hs : s.step with
  | none =>
    rw [TokenStream.run_of_none hs]
    simp
  | some next =>
    obtain ⟨t, b⟩ := next
    have _ := distance_step hs
    rw [TokenStream.run_of_some hs, List.flatMap_cons]
    exact List.forall_mem_append.2 ⟨ofScan_step hs, ofScan_run t⟩
termination_by s.distance

end Scanner

def Utf8.withoutMark : List Char → List Char
  | '\uFEFF' :: cs => cs
  | cs => cs

namespace TokenStream

theorem byteOrderMark_eq : byteOrderMark = String.utf8EncodeChar '\uFEFF' := by decide

def notUtf8 (file : Nat) (cs : List Char) : Report :=
  Report.fill .notUtf8
    { file, line := 1 + (Utf8.withoutMark cs).count '\n',
      column := 1 + ((Utf8.withoutMark cs).rtakeWhile (· ≠ '\n')).length }
    [("offset", Bytes.decimal (Utf8.encode cs).length)]

theorem encoding_of_stop {rest : Bytes} (stop : Utf8.sequence? rest = none) (file start : Nat)
    (cs : List Char) :
    encoding file (Utf8.encode cs ++ rest) start = if rest = [] then [] else
      [Report.fill .notUtf8
        { file, line := 1 + cs.count '\n', column := 1 + (cs.rtakeWhile (· ≠ '\n')).length }
        [("offset", Bytes.decimal (start + (Utf8.encode cs).length))]] := by
  rw [encoding, Utf8.malformed?_encode, Utf8.malformed?_of_stop stop, Utf8.foldl_behind]
  split
  · next none =>
    split at none
    · next empty => rw [if_pos empty]
    · cases none
  · next place some =>
    split at some
    · cases some
    · next filled =>
      cases some
      rw [if_neg filled]

theorem exists_encoding (file : Nat) (source : Bytes) :
    ∃ cs rest, source = Utf8.encode cs ++ rest ∧ Utf8.sequence? rest = none ∧
      encoding file (text source)
        (if source.startsWith byteOrderMark then byteOrderMark.length else 0) =
          if rest = [] then [] else [notUtf8 file cs] := by
  obtain ⟨cs, rest, spelled, stop⟩ := Utf8.exists_stop (text source)
  rw [spelled, encoding_of_stop stop]
  cases marked : source.startsWith byteOrderMark with
  | true =>
    obtain ⟨behind, rfl⟩ := List.isPrefixOf_iff_prefix.1 marked
    rw [text, if_pos marked, List.drop_left] at spelled
    refine ⟨'\uFEFF' :: cs, rest, ?_, stop, ?_⟩
    · rw [spelled, Utf8.encode_cons, byteOrderMark_eq, List.append_assoc]
    · rw [if_pos rfl, notUtf8, Utf8.encode_cons, List.length_append, byteOrderMark_eq]
      rfl
  | false =>
    rw [text_of_unmarked marked] at spelled
    refine ⟨cs, rest, spelled, stop, ?_⟩
    have same : Utf8.withoutMark cs = cs := by
      unfold Utf8.withoutMark
      split
      · next cs =>
        rw [spelled, Utf8.encode_cons, ← byteOrderMark_eq, List.append_assoc] at marked
        rw [Bytes.startsWith, List.isPrefixOf_iff_prefix.2 (List.prefix_append _ _)] at marked
        cases marked
      · rfl
    rw [notUtf8, same, if_neg Bool.false_ne_true, Nat.zero_add]

/-- The encoding of a source is reported if the source spells out no row of characters. -/
theorem malformed_reported_first (file : Nat) (source : Bytes) :
    (Fault.notUtf8.code ∈ (ofSource file source).reports.map (·.code) ↔
      ¬ ∃ cs, source = Utf8.encode cs) ∧
    ((∃ cs, source = Utf8.encode cs) ∨
      ∃ cs others, Utf8.Longest cs source ∧
        (ofSource file source).reports = notUtf8 file cs :: others ∧
        Fault.notUtf8.code ∉ others.map (·.code)) := by
  obtain ⟨cs, rest, spelled, stop, report⟩ := exists_encoding file source
  have reports := reports_spread_run (start file source)
    (if rest = [] then [] else [notUtf8 file cs])
  rw [← report, ← tokens_ofSource, report] at reports
  have scanned : Fault.notUtf8.code ∉
      ((start file source).run.1.flatMap (·.reports)).map (·.code) := by
    intro found
    obtain ⟨r, hr, same⟩ := List.mem_map.1 found
    obtain ⟨f, known, code⟩ := Scanner.ofScan_run _ r hr
    have other : ∀ f ∈ Fault.ofScan, f.code ≠ Fault.notUtf8.code := by decide
    exact other f known (code.symm.trans same)
  unfold TokenStream.reports
  cases rest with
  | nil =>
    have whole : ∃ cs, source = Utf8.encode cs := ⟨cs, by rw [spelled, List.append_nil]⟩
    rw [reports]
    exact ⟨⟨fun found => absurd found scanned, fun none => absurd whole none⟩, .inl whole⟩
  | cons b more =>
    have longest : Utf8.Longest cs source := spelled ▸ Utf8.longest_of_stop cs stop
    have none : ¬ ∃ cs, source = Utf8.encode cs := by
      rintro ⟨ds, whole⟩
      obtain ⟨es, rfl⟩ := longest.longest ds (whole ▸ List.prefix_rfl)
      have length := congrArg List.length (spelled.symm.trans whole)
      rw [Utf8.encode_append, List.length_append, List.length_append, List.length_cons] at length
      omega
    rw [reports]
    exact ⟨⟨fun _ => none, fun _ => List.mem_cons_self⟩, .inr ⟨cs, _, longest, rfl, scanned⟩⟩

example : notUtf8 0 ['\uFEFF', 'a', '\n', 'é'] =
    Report.fill .notUtf8 { file := 0, line := 2, column := 2 } [("offset", "7")] := by
  decide +kernel

end TokenStream

end StepsLang
