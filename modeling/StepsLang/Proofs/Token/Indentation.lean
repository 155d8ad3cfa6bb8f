import StepsLang.Proofs.Token.Row

namespace StepsLang

namespace Scanner

variable {s : Scanner} {d : Nat}

structure Measured (n d w : Nat) (rs : List Report) : Prop where
  uneven : w % 4 ≠ 0 → ∃ x ∈ rs, x.code = Fault.badIndentation.code ∨
    x.code = Fault.unmatchedDedent.code
  jump : d + 1 < w / 4 → ∃ x ∈ rs, x.code = Fault.badIndentation.code ∧
    x.message = "Indentation increased by more than one level." ∧ x.location.line = n

theorem dropWhile_levelsAt_floor {w : Nat} (h : w < 4 * (d + 1)) :
    (levelsAt d).dropWhile (w < ·) = levelsAt (w / 4) := by
  induction d with
  | zero =>
    have none : w / 4 = 0 := by omega
    simp [levelsAt, none]
  | succ d ih =>
    rcases Nat.lt_or_ge w (4 * (d + 1)) with less | whole
    · rw [levelsAt, List.dropWhile_cons_of_pos (by simpa using less), ih less]
    · have floor : w / 4 = d + 1 := by omega
      rw [floor, levelsAt, List.dropWhile_cons_of_neg (by simpa using whole)]

structure Leveled (s : Scanner) (n d w : Nat) (r : Scanner × Batch) : Prop where
  levels : r.1.levels = levelsAt (min (d + 1) (w / 4))
  tokens : r.2.tokens.map (·.kind) = (margin d (min (d + 1) (w / 4))).map (·.kind)
  line : ∀ t ∈ r.2.tokens, t.location.line = n
  reports : Measured n d w r.2.reports

theorem leveled_openLevel (levels : s.levels = levelsAt d) (here : Location) {w : Nat}
    (wider : 4 * d < w) : Leveled s here.line d w (s.openLevel here w) := by
  have level : s.level = 4 * d := by simp [level, levels]
  have wide : w - w % 4 = 4 * (w / 4) := by omega
  have reports : Measured here.line d w (s.openLevel here w).2.reports := by
    have all : (s.openLevel here w).2.reports =
        (if w % 4 == 0 then []
          else [Report.fill .badIndentation here [("spaces", Bytes.decimal w)]]) ++
        if 4 * d + 4 < 4 * (w / 4) then
          [Report.tell .badIndentation here "Indentation increased by more than one level."
            ("Expected " ++ Bytes.decimal (4 * d + 4) ++ " spaces, found " ++ Bytes.decimal w
              ++ ".")]
        else [] := by
      simp only [openLevel, level, wide]
      split <;> rfl
    rw [all]
    refine ⟨fun odd => ?_, fun jump => ?_⟩
    · rw [if_neg (by simpa using odd)]
      exact ⟨_, List.mem_append_left _ (List.mem_singleton_self _), .inl rfl⟩
    · have beyond : 4 * d + 4 < 4 * (w / 4) := by omega
      rw [if_pos beyond]
      exact ⟨_, List.mem_append_right _ (List.mem_singleton_self _), rfl, rfl, rfl⟩
  refine ⟨?_, ?_, ?_, reports⟩
  all_goals
    simp only [openLevel, level, wide]
    split
  · next deeper =>
    have next : min (d + 1) (w / 4) = d + 1 := by omega
    rw [next, levels]
    rfl
  · next same =>
    have stays : min (d + 1) (w / 4) = d := by omega
    rw [stays]
    exact levels
  · next deeper =>
    have next : min (d + 1) (w / 4) = d + 1 := by omega
    rw [next, margin, if_neg (Nat.not_succ_le_self d)]
    rfl
  · next same =>
    have stays : min (d + 1) (w / 4) = d := by omega
    rw [stays, margin, if_pos (Nat.le_refl d), Nat.sub_self]
    rfl
  · intro t ht
    rw [List.mem_singleton.1 ht]
    rfl
  · simp

theorem leveled_closeLevels (levels : s.levels = levelsAt d) (here : Location) {w : Nat}
    (within : w ≤ 4 * d) : Leveled s here.line d w (s.closeLevels here w) := by
  have kept := dropWhile_levelsAt_floor (d := d) (w := w) (by omega)
  have floor : min (d + 1) (w / 4) = w / 4 := by omega
  have closes : w / 4 ≤ d := by omega
  refine ⟨?_, ?_, ?_, ⟨fun odd => ?_, fun jump => absurd jump (by omega)⟩⟩
  · simp only [closeLevels, levels, kept, remember_replicate, floor]
  · simp only [closeLevels, levels, kept, floor, margin, closes, if_true, length_levelsAt,
      Nat.add_sub_add_right, List.map_replicate]
    rfl
  · intro t ht
    rw [(List.mem_replicate.1 ht).2]
    rfl
  · have other : ((levelsAt (w / 4)).headD 0 == w) = false := by
      simp
      omega
    simp only [closeLevels, levels, kept, other]
    exact ⟨_, List.mem_singleton_self _, .inr rfl⟩

theorem leveled_relevel (levels : s.levels = levelsAt d) (here : Location) (w : Nat) :
    Leveled s here.line d w (s.relevel here w) := by
  have level : s.level = 4 * d := by simp [level, levels]
  unfold relevel
  split
  · next wider => exact leveled_openLevel levels here (level ▸ wider)
  · next within => exact leveled_closeLevels levels here (by omega)

theorem tabFaults_code (tab : Byte.tab ∈ s.indentation) :
    ∃ x ∈ s.tabFaults, x.code = Fault.tabIndentation.code := by
  unfold tabFaults
  cases found : s.indentation.idxOf? Byte.tab with
  | none => exact absurd tab (List.idxOf?_eq_none_iff.1 found)
  | some i => exact ⟨_, List.mem_singleton_self _, rfl⟩

structure RowTokens (n d : Nat) (r : Bytes) (ts : List Token) : Prop where
  parts : ∃ ms us, ts = ms ++ us ∧
    ms.map (·.kind) = (margin d (r.depthBehind d)).map (·.kind) ∧
    (∀ t ∈ ms, t.location.line = n) ∧ Inside n us
  bare : r.isBare = true → ts = []

structure RowReports (n d : Nat) (r : Bytes) (rs : List Report) : Prop where
  tabs : Byte.tab ∈ r.blanks → ∃ x ∈ rs, x.code = Fault.tabIndentation.code
  width : r.isBare = false → Measured n d r.breadth rs

theorem Measured.mono {n w : Nat} {rs qs : List Report} (h : Measured n d w rs) (more : rs ⊆ qs) :
    Measured n d w qs :=
  ⟨fun odd => (h.uneven odd).imp fun _ hx => ⟨more hx.1, hx.2⟩,
    fun jump => (h.jump jump).imp fun _ hx => ⟨more hx.1, hx.2⟩⟩

theorem RowReports.mono {n : Nat} {r : Bytes} {rs qs : List Report} (h : RowReports n d r rs)
    (more : rs ⊆ qs) : RowReports n d r qs :=
  ⟨fun tab => (h.tabs tab).imp fun _ hx => ⟨more hx.1, hx.2⟩,
    fun filled => (h.width filled).mono more⟩

def ReadsRow (s : Scanner) (d : Nat) (r v : Bytes) : Prop :=
  ∃ bs t, Scans s bs t ∧ Past s.line (levelsAt (r.depthBehind d)) v t ∧
    RowTokens s.line d r (bs.flatMap (·.tokens)) ∧ RowReports s.line d r (bs.flatMap (·.reports))

structure Starts (s : Scanner) (u v : Bytes) : Prop where
  fresh : s.fresh = true
  here : s.rest = u ++ v
  line : Byte.lineFeed ∉ u
  ends : LineEnd v
  filled : s.rest ≠ []

namespace Starts

variable {u v : Bytes}

theorem indentation (h : s.Starts u v) : s.indentation = (u ++ v.take 1).blanks := by
  rw [Scanner.indentation, h.here]
  exact (Bytes.blanks_line h.ends).trans (Bytes.blanks_line (Bytes.lineEnd_take h.ends)).symm

theorem indented_rest (h : s.Starts u v) : s.indented.rest = u.drop u.blanks.length ++ v := by
  have blanks : s.indentation = u.blanks :=
    h.indentation.trans (Bytes.blanks_line (Bytes.lineEnd_take h.ends))
  rw [Scanner.indented_rest, blanks, h.here]
  exact List.drop_append_of_le_length (List.takeWhile_prefix _).length_le

theorem isBare (h : s.Starts u v) : (u ++ v.take 1).isBare = atLineEnd s.indented.rest := by
  rw [h.indented_rest, Bytes.isBare_line h.ends]

theorem tabs (h : s.Starts u v) (tab : Byte.tab ∈ (u ++ v.take 1).blanks) :
    ∃ x ∈ s.tabFaults, x.code = Fault.tabIndentation.code :=
  tabFaults_code (h.indentation ▸ tab)

theorem lineFeed_drop (h : s.Starts u v) : Byte.lineFeed ∉ u.drop u.blanks.length :=
  fun there => h.line (List.mem_of_mem_drop there)

theorem leveled (h : s.Starts u v) (levels : s.levels = levelsAt d) :
    Leveled s.indented s.line d (u ++ v.take 1).breadth s.leveled := by
  rw [Bytes.breadth, ← h.indentation]
  have known : s.indented.levels = levelsAt d := (indented_levels s).trans levels
  exact leveled_relevel known { s.location with column := 1 }
    (s.indentation.foldl (fun n b => n + width b) 0)

theorem scans_bare (h : s.Starts u v) (levels : s.levels = levelsAt d)
    (bare : (u ++ v.take 1).isBare = true) :
    ReadsRow s d (u ++ v.take 1) v := by
  have stays := Bytes.depthBehind_bare bare d
  have first := step_start h.fresh h.filled
  rw [startLine_blank (h.isBare ▸ bare)] at first
  refine ⟨_, _, .step first (.refl _), ?_, ⟨⟨[], [], rfl, ?_, by simp, .nil _⟩, fun _ => rfl⟩,
    ⟨fun tab => by simpa using h.tabs tab, fun filled => ?_⟩⟩
  · have past := past_skipLine h.indented_rest h.lineFeed_drop h.ends
    rwa [indented_line, indented_levels, levels, ← stays] at past
  · simp [stays, margin]
  · rw [bare] at filled
    cases filled

theorem scans_filled (h : s.Starts u v) (levels : s.levels = levelsAt d)
    (plain : NoComment s.rest) (filled : (u ++ v.take 1).isBare = false) :
    ReadsRow s d (u ++ v.take 1) v := by
  have deeper := Bytes.depthBehind_filled filled d
  have comment := (plain_indented plain).standsAt
  have leveled := h.leveled levels
  obtain ⟨levels', last', kept⟩ := relevel_kept s.indented { s.location with column := 1 }
    (s.indentation.foldl (fun n b => n + width b) 0)
  have same : s.leveled.1 = { s.indented with levels := levels', last := last' } := kept
  have first := step_start h.fresh h.filled
  rw [startLine_filled (h.isBare ▸ filled) comment] at first
  obtain ⟨bs, t, more, past, tokens⟩ := scans_inside (s := s.leveled.1) (u := u.drop _) (v := v)
    (by rw [same]; exact indented_fresh s) (by rw [same]; exact h.indented_rest) h.lineFeed_drop
    h.ends (plain.of_suffix (passes_step first).suffix)
  have row : s.leveled.1.line = s.line := by rw [same]; exact indented_line s
  refine ⟨_, t, .step first more, ?_, ?_, ?_⟩
  · rwa [row, leveled.levels, ← deeper] at past
  · refine ⟨⟨s.leveled.2.tokens, _, rfl, ?_, leveled.line, row ▸ tokens⟩, fun bare => ?_⟩
    · rw [deeper]
      exact leveled.tokens
    · rw [filled] at bare
      cases bare
  · refine ⟨fun tab => ?_, fun _ => leveled.reports.mono ?_⟩
    · obtain ⟨x, hx, code⟩ := h.tabs tab
      exact ⟨x, by simp [hx], code⟩
    · intro x hx
      simp [hx]

theorem scans (h : s.Starts u v) (levels : s.levels = levelsAt d) (plain : NoComment s.rest) :
    ReadsRow s d (u ++ v.take 1) v := by
  cases bare : (u ++ v.take 1).isBare with
  | true => exact h.scans_bare levels bare
  | false => exact h.scans_filled levels plain bare

end Starts

/-- The tokens of the lines from line `n` on, before which `d` blocks are open, where `rs` is
reported of the whole text. -/
inductive Page (rs : List Report) : Nat → Nat → List Bytes → List Token → Prop
  | nil (n d : Nat) : Page rs n d [] []
  | cons {n d : Nat} {r : Bytes} {more : List Bytes} {ts us : List Token}
    (tokens : RowTokens n d r ts) (reports : RowReports n d r rs)
    (rest : Page rs (n + 1) (r.depthBehind d) more us) : Page rs n d (r :: more) (ts ++ us)

theorem Page.of_rows_nil {rs : List Report} {n d : Nat} {ts : List Token} (h : Page rs n d [] ts)
    (m : Nat) : Page rs m d [] ts := by
  cases h
  exact .nil m d

/-- What the scanner makes of whole lines, one after the other. -/
theorem scans_page (start : s.rest ≠ [] → s.fresh = true) (levels : s.levels = levelsAt d)
    (plain : NoComment s.rest) :
    ∃ bs t, Scans s bs t ∧ t.rest = [] ∧
      t.levels = levelsAt (s.rest.rows.foldl Bytes.depthBehind d) ∧
      ∀ rs, bs.flatMap (·.reports) ⊆ rs →
        Page rs s.line d s.rest.rows (bs.flatMap (·.tokens)) := by
  induction size : s.rest.length using Nat.strongRecOn generalizing s d with
  | ind m ih =>
    subst size
    by_cases done : s.rest = []
    · rw [done]
      exact ⟨[], s, .refl s, done, levels, fun _ _ => .nil _ _⟩
    · obtain ⟨u, v, here, line, ends⟩ := Bytes.exists_line s.rest
      have starts : s.Starts u v := ⟨start done, here, line, ends, done⟩
      obtain ⟨bs, t, row, past, tokens, reports⟩ := starts.scans levels plain
      have rows : s.rest.rows = (u ++ v.take 1) :: t.rest.rows := by
        rw [past.rest, here]
        exact Bytes.rows_cons line ends (here ▸ done)
      have shorter : t.rest.length < s.rest.length := by
        have whole := congrArg List.length here
        have some := List.length_pos_of_ne_nil done
        rw [List.length_append] at whole
        rw [past.rest, List.length_drop]
        omega
      have within : t.rest <:+ s.rest := by
        rw [past.rest, here]
        exact (List.drop_suffix 1 v).trans (List.suffix_append u v)
      have next : t.rest ≠ [] → t.fresh = true ∧ t.line = s.line + 1 := fun more =>
        past.next fun none => more (by rw [past.rest, none]; rfl)
      obtain ⟨cs, w, page, ended, deeper, made⟩ := ih _ shorter (fun more => (next more).1)
        past.levels (plain.of_suffix within) rfl
      refine ⟨bs ++ cs, w, row.trans page, ended, ?_, fun rs all => ?_⟩
      · rw [rows]
        exact deeper
      · rw [List.flatMap_append, List.append_subset] at all
        rw [rows, List.flatMap_append]
        refine .cons tokens (reports.mono all.1) ?_
        by_cases more : t.rest = []
        · have none := made rs all.2
          rw [more] at none ⊢
          exact none.of_rows_nil _
        · rw [← (next more).2]
          exact made rs all.2

end Scanner

end StepsLang
