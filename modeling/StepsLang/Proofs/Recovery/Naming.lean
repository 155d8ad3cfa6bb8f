import StepsLang.Proofs.Recovery.Ending

namespace StepsLang
open Reader

def Token.Named (t : Token) : Prop := t.kind = .name → t.text ≠ []

namespace Lexeme

theorem named_word {b : UInt8} {rest : Bytes} (h : Byte.startsName b = true) :
    (word (b :: rest)).kind = some .name → (word (b :: rest)).text ≠ [] := by
  have hb : Byte.isNameByte b = true := by
    simp only [Byte.startsName, Byte.isNameByte, Bool.or_eq_true] at *
    rcases h with h | h <;> simp [h]
  have phrases : Kind.name ∉ Word.phrases := by decide
  unfold word
  split
  · rintro ⟨⟩
  · split
    · next k found =>
      intro same
      obtain rfl := Option.some.inj same
      exact absurd (List.mem_of_find?_eq_some found) phrases
    · dsimp only
      split
      · split
        · rintro ⟨⟩
        · exact fun _ => by simp
      · intro _
        rw [List.takeWhile_cons, if_pos hb]
        exact List.cons_ne_nil _ _

theorem ne_name_ite {c : Prop} [Decidable c] {k : Kind} {o : Option Kind} (here : k ≠ .name)
    (other : o ≠ some .name) : (if c then some k else o) ≠ some .name := by
  split
  · exact fun same => here (Option.some.inj same)
  · exact other

theorem symbol?_ne_name (b : UInt8) : symbol? b ≠ some .name := by
  unfold symbol?
  repeat apply ne_name_ite (by decide)
  nofun

theorem named_read (b : UInt8) (rest : Bytes) :
    (read b rest).kind = some .name → (read b rest).text ≠ [] := by
  unfold read
  split
  · nofun
  split
  · nofun
  split
  · nofun
  split
  · nofun
  split
  · next k found =>
    intro same
    obtain rfl := Option.some.inj same
    exact absurd found (symbol?_ne_name b)
  split
  · nofun
  split
  · next starts => exact named_word starts
  · nofun

end Lexeme

namespace Scanner

theorem named_closeLevels (s : Scanner) (here : Location) (found : Nat) :
    ∀ t ∈ (s.closeLevels here found).2.tokens, t.Named := by
  intro t ht
  obtain rfl := List.eq_of_mem_replicate ht
  nofun

theorem named_openLevel (s : Scanner) (here : Location) (found : Nat) :
    ∀ t ∈ (s.openLevel here found).2.tokens, t.Named := by
  intro t ht
  unfold openLevel at ht
  dsimp only at ht
  split at ht
  · obtain rfl := List.mem_singleton.1 ht
    nofun
  · cases ht

theorem named_startLine (s : Scanner) : ∀ t ∈ s.startLine.2.tokens, t.Named := by
  cases blank : atLineEnd s.indented.rest with
  | true =>
    rw [startLine_blank blank]
    exact List.forall_mem_nil _
  | false =>
    cases comment : Word.standsAt Word.blockCommentStart s.indented.rest with
    | true =>
      rw [startLine_comment blank comment]
      exact List.forall_mem_nil _
    | false =>
      rw [startLine_filled blank comment]
      change ∀ t ∈ s.leveled.2.tokens, t.Named
      rw [leveled, relevel]
      split
      · exact named_openLevel _ _ _
      · exact named_closeLevels _ _ _

theorem named_lexeme (s : Scanner) (b : UInt8) (rest : Bytes) :
    ∀ t ∈ (s.lexeme b rest).2.tokens, t.Named := by
  intro t ht
  have named := Lexeme.named_read b rest
  unfold lexeme at ht
  dsimp only at ht
  split at ht
  · cases ht
  · next k read =>
    split at ht
    · cases ht
    · obtain rfl := List.mem_singleton.1 ht
      rintro rfl
      exact named read

theorem named_finish (s : Scanner) : ∀ t ∈ s.finish, t.Named := by
  intro t ht
  rcases List.mem_append.1 ht with ht | ht
  · rcases List.mem_append.1 ht with ht | ht
    · split at ht
      · cases ht
      · obtain rfl := List.mem_singleton.1 ht
        nofun
    · obtain rfl := List.eq_of_mem_replicate ht
      nofun
  · obtain rfl := List.mem_singleton.1 ht
    nofun

theorem named_run (s : Scanner) : ∀ t ∈ s.run.1.flatMap (·.tokens), t.Named := by
  cases hs : s.step with
  | none =>
    rw [TokenStream.run_of_none hs]
    simpa using named_finish s
  | some p =>
    obtain ⟨u, b⟩ := p
    have _ := distance_step hs
    rw [TokenStream.run_of_some hs, List.flatMap_cons]
    intro t ht
    rcases List.mem_append.1 ht with here | later
    · unfold step at hs
      split at hs
      · cases hs
      · have made := Option.some.inj hs
        split at made
        · exact named_startLine s t (by rwa [made])
        · exact named_lexeme s _ _ t (by rwa [made])
    · exact named_run u t later
termination_by s.distance

end Scanner

namespace Cursor

/-- Somewhere in a text: the blocks that are open here are closed, and the names have bytes. -/
structure Stands (c : Cursor) : Prop where
  closes : ∃ d, Closes d c.tokens
  named : ∀ t ∈ c.tokens, t.Named

theorem Stands.still {p : Reader α} {c : Cursor} (h : c.Stands) (one : Still p) :
    (p c).2.Stands := by
  obtain ⟨closes, named⟩ := h
  rw [← one.tokens c] at closes named
  exact ⟨closes, named⟩

theorem Stands.after {p : Reader α} {c : Cursor} {d e k n j : Nat} {P : List Token → Prop}
    (h : c.Stands) (one : Climbs n j d e P p) (less : c.rest.length ≤ n) (hP : P c.tokens)
    (closes : Closes (d + k) c.tokens) : (p c).2.Stands := by
  obtain ⟨-, ts, here, -, -, mid⟩ := one less hP closes
  refine ⟨⟨_, mid⟩, fun t ht => h.named t ?_⟩
  rw [here]
  exact List.mem_append_right ts ht

theorem Stands.peekAt_zero {c : Cursor} (h : c.Stands) :
    ∃ us, c.tokens = (Reader.peekAt 0 c).1 :: us := by
  obtain ⟨d, closes⟩ := h.closes
  obtain ⟨t, us, here⟩ := closes.exists_cons
  refine ⟨us, ?_⟩
  rw [Tandem.peekAt_eq, show c.rest.map (·.token) = t :: us from here]
  exact here

theorem stands_start (file : Nat) (source : Bytes) : (Parsed.start file source).Stands := by
  have same : (Parsed.start file source).tokens =
      (TokenStream.ofSource file source).tokens.map (·.token) :=
    tokens_hear (ofStream (TokenStream.ofSource file source)) 1
  refine ⟨⟨0, same ▸ TokenStream.closes_ofSource file source⟩, ?_⟩
  rw [same]
  exact TokenStream.token_spread _ _ ▸ Scanner.named_run (TokenStream.start file source)

end Cursor

/-- What a reader gives is in `Q`, wherever in a text with the next tokens in `P` it begins. -/
def Gives (P : List Token → Prop) (Q : α → Prop) (p : Reader α) : Prop :=
  ∀ ⦃c : Cursor⦄, P c.tokens → c.Stands → Q (p c).1

namespace Gives

variable {P : List Token → Prop} {Q : α → Prop} {R : β → Prop} {p : Reader β} {g : β → Reader α}

theorem bind {j : Nat} (one : ∀ n, Climbs n j 0 0 P p) (first : Gives P R p)
    (two : ∀ a, R a → Gives Everywhere Q (g a)) : Gives P Q (p >>= g) := by
  intro c hP stands
  obtain ⟨d, closes⟩ := stands.closes
  exact two _ (first hP stands) trivial
    (stands.after (one _) (Nat.le_refl _) hP (by rwa [Nat.zero_add]))

theorem andThen {j : Nat} (one : ∀ n, Climbs n j 0 0 P p)
    (two : ∀ a, Gives Everywhere Q (g a)) : Gives P Q (p >>= g) :=
  bind one (R := fun _ => True) (fun _ _ _ => trivial) fun a _ => two a

theorem still (one : Still p) (two : ∀ a, Gives P Q (g a)) : Gives P Q (p >>= g) :=
  fun c hP stands => two _ (by rwa [one.tokens c]) (stands.still one)

theorem settled (first : Gives P R p) (two : ∀ a, R a → ∀ c, Q (g a c).1) : Gives P Q (p >>= g) :=
  fun _ hP stands => two _ (first hP stands) _

theorem always (two : ∀ a c, Q (g a c).1) : Gives P Q (p >>= g) := fun _ _ _ => two _ _

theorem pure {a : α} (h : Q a) : Gives P Q (Pure.pure a) := fun _ _ _ => h

theorem peek {g : Token → Reader α}
    (two : ∀ t, Gives (fun ts => P ts ∧ First (· = t.kind) ts) Q (g t)) :
    Gives P Q (Reader.peek >>= g) := by
  intro c hP stands
  have same := (Still.peekAt 0).tokens c
  obtain ⟨us, here⟩ := stands.peekAt_zero
  exact two _ ⟨same.symm ▸ hP, _, us, same.trans here, rfl⟩ (stands.still (.peekAt 0))

theorem check {k : Kind} {g : Bool → Reader α}
    (yes : Gives (fun ts => P ts ∧ First (· = k) ts) Q (g true)) (no : Gives P Q (g false)) :
    Gives P Q (Reader.check k >>= g) := by
  rw [Reader.check_bind]
  refine peek fun t => ?_
  cases same : t.kind == k with
  | true =>
    exact fun c h stands => yes ⟨h.1, h.2.imp fun _ hk => hk.trans (eq_of_beq same)⟩ stands
  | false => exact fun c h stands => no h.1 stands

theorem advance {K : Kind → Prop} :
    Gives (fun ts => P ts ∧ First K ts) (fun t => K t.kind ∧ t.Named) Reader.advance := by
  rintro c ⟨-, t, us, here, ht⟩ stands
  obtain ⟨vs, first⟩ := stands.peekAt_zero
  obtain ⟨same, -⟩ := List.cons.inj (here.symm.trans first)
  change K (Reader.peekAt 0 c).1.kind ∧ (Reader.peekAt 0 c).1.Named
  rw [← same]
  exact ⟨ht, stands.named t (here ▸ List.mem_cons_self)⟩

theorem expectName : Gives P (fun o => ∀ t ∈ o, t.text ≠ []) Reader.expectName := by
  unfold Reader.expectName
  rw [Reader.take?_bind]
  refine check ?_ fun c _ _ t none => absurd none (Option.not_mem_none t)
  refine settled advance fun t name c x hx => ?_
  obtain rfl := Option.some.inj hx
  exact name.2 name.1

theorem atMost {p : Reader (Option α)} (body : Level p) (h : Gives Everywhere (∀ a ∈ ·, Q a) p)
    (bound : List β) : Gives Everywhere (∀ a ∈ ·, Q a) (Reader.atMost p bound) := by
  induction bound with
  | nil => exact pure (by simp)
  | cons _ bound ih =>
    refine bind body h fun o first => ?_
    cases o with
    | none => exact pure (by simp)
    | some a => exact settled ih fun as rest _ => List.forall_mem_cons.2 ⟨first a rfl, rest⟩

theorem lines {line : Reader (List α)} (body : ∀ n, Climbs n 1 0 0 (First Climbs.Passed) line)
    (h : Gives Everywhere (∀ a ∈ ·, Q a) line) :
    Gives Everywhere (∀ a ∈ ·, Q a) (Reader.lines line) := by
  have level : Level (do
      Reader.skipNewlines
      if ← Reader.atBlockEnd then return none else return some (← line)) := by
    refine fun n => .andThen .skipNewlines fun _ => .atBlockEnd (.pure none) ?_
    exact .bind (((body n).slower (Nat.zero_le 1)).pre fun _ h => h.2) fun _ => .pure _
  have round : Gives Everywhere (∀ as ∈ ·, ∀ a ∈ as, Q a) (do
      Reader.skipNewlines
      if ← Reader.atBlockEnd then return none else return some (← line)) := by
    refine andThen (fun _ => .skipNewlines) fun _ => still .atBlockEnd fun stop => ?_
    cases stop with
    | true => exact pure (by simp)
    | false => exact settled h fun as all _ bs same => Option.some.inj same ▸ all
  refine settled (R := fun parts => ∀ as ∈ parts, ∀ a ∈ as, Q a)
    (fun c _ stands => atMost level round c.rest trivial stands) fun parts all _ => ?_
  intro a ha
  obtain ⟨as, here, inner⟩ := List.mem_flatten.1 ha
  exact all as here a inner

end Gives

/-- What a reader gives is in `ok`, or something is reported. -/
def Tells (ok : α → Prop) (p : Reader α) : Prop :=
  ∀ ⦃c : Cursor⦄, c.Stands → ok (p c).1 ∨ (p c).2.reports ≠ []

namespace Tells

variable {ok : α → Prop} {r : β → Prop} {p : Reader β} {g : β → Reader α}

theorem of_blames {p : Reader α} (h : Blames ok p) : Tells ok p := fun _ stands =>
  have ⟨_, closes⟩ := stands.closes
  h closes

theorem bind (one : Level p) (h : Blames r p) (yes : ∀ a, r a → Tells ok (g a))
    (no : ∀ a, ¬ r a → Still (g a)) : Tells ok (p >>= g) := by
  intro c stands
  obtain ⟨d, closes⟩ := stands.closes
  by_cases there : r (p c).1
  · exact yes _ there
      (stands.after (one c.rest.length) (Nat.le_refl _) trivial (by rwa [Nat.zero_add]))
  · exact .inr (((no _ there).grows (p c).2).loud ((h closes).resolve_left there))

theorem andThen (one : Level p) (two : ∀ a, Tells ok (g a)) : Tells ok (p >>= g) :=
  bind one (r := fun _ => True) (fun _ _ _ => .inl trivial) (fun a _ => two a)
    fun _ none => absurd trivial none

theorem skip?_indent {g : Bool → Reader α} (yes : Tells ok (g true)) (no : Tells ok (g false)) :
    Tells ok (Reader.skip? .indent >>= g) := by
  intro c stands
  obtain ⟨d, closes⟩ := stands.closes
  rw [bind_run]
  obtain ⟨-, ⟨there, left, opened⟩ | ⟨there, same⟩⟩ := Finishes.skip?_indent_eq closes
  · rw [there]
    exact yes ⟨⟨d + 1, opened⟩, fun t ht => stands.named t (left.subset ht)⟩
  · rw [there]
    exact no ⟨⟨d, same ▸ closes⟩, fun t ht => stands.named t (same ▸ ht)⟩

theorem of_gives (first : Gives Everywhere r p) (yes : ∀ a, r a → ∀ c, ok (g a c).1 ∨
    (g a c).2.reports ≠ []) : Tells ok (p >>= g) :=
  fun _ stands => yes _ (first trivial stands) _

end Tells

namespace Routine.Parser
open Statement.Parser

theorem stepLine_climbs (n : Nat) : Climbs n 1 0 0 (First Climbs.Passed) stepLine := by
  refine .still .beginLine fun _ => .peek fun t => ?_
  split
  · next kind =>
    rw [kind]
    refine .bind (.advance_at (by decide) rfl) fun _ => ?_
    refine (expectName_level fun name => ?_) _
    cases name with
    | none => exact fun _ => .andThen .resync fun _ => .pure _
    | some name => exact fun _ => .andThen (.discard (.expectEndOfLine _)) fun _ => .pure _
  · next kind =>
    rw [kind]
    exact .bind (.advance_at (by decide) rfl) fun _ => .andThen (riser_climbs _) fun _ => .pure _
  · refine section?_climbs (fun _ _ => .pure _) ?_
    exact (Climbs.bind (strayLine_climbs "step") fun _ => .pure _).pre fun _ h => h.1

def StepPart.Named (part : StepPart) : Prop := ∀ l name, part = .floor l (some name) → name ≠ []

theorem stepLine_gives : Gives Everywhere (∀ part ∈ ·, part.Named) stepLine := by
  refine .still .beginLine fun _ => .peek fun t => ?_
  split
  · next kind =>
    rw [kind]
    refine .andThen (j := 1) (fun _ => .advance_at (by decide) rfl) fun t => ?_
    refine .settled .expectName fun name named c => ?_
    cases name with
    | none =>
      refine List.forall_mem_singleton.2 fun _ _ same => ?_
      cases same
    | some name =>
      refine List.forall_mem_singleton.2 fun _ _ same => ?_
      cases same
      exact named name rfl
  · refine .always fun t c => List.forall_mem_singleton.2 fun _ _ same => ?_
    cases same
  · refine .always fun change c => ?_
    cases change with
    | some change =>
      refine List.forall_mem_singleton.2 fun _ _ same => ?_
      cases same
    | none => exact List.forall_mem_nil _

theorem floor_ne_nil {parts : List StepPart} (named : ∀ part ∈ parts, part.Named) {s : Step}
    (h : s.floor ≠ [] ∨ parts.any StepPart.namesFloor = true) :
    (parts.foldl StepPart.apply s).floor ≠ [] := by
  induction parts generalizing s with
  | nil => exact h.resolve_right (by simp)
  | cons part parts ih =>
    obtain ⟨first, named⟩ := List.forall_mem_cons.1 named
    refine ih named ?_
    rw [List.any_cons, Bool.or_eq_true, ← or_assoc] at h
    refine h.imp_left fun h => ?_
    match part with
    | .floor l (some name) => exact first l name rfl
    | .floor l none => exact h.resolve_right nofun
    | .riser r => exact h.resolve_right nofun
    | .amend change => exact h.resolve_right nofun

theorem missingFloor_loud (s : Step) (c : Cursor) : (missingFloor s c).2.reports ≠ [] := by
  change (if c.reports.length < c.reports.length then _ else _ : Cursor).reports ≠ []
  rw [if_neg (Nat.lt_irrefl _)]
  simp

theorem openFile_tells {ok : α → Prop} {keyword : Bytes} {g : Bool → Reader α}
    (yes : Tells ok (g true)) (no : ∀ n, Climbs n 0 0 0 Everywhere (g false)) :
    Tells ok (openFile keyword >>= g) := by
  unfold openFile
  simp only [bind_assoc]
  refine .andThen (fun _ => .skipNewlines) fun _ => .skip?_indent ?_ ?_
  · simpa using yes
  · simp only [Bool.false_eq_true, if_false, bind_assoc, pure_bind]
    exact .of_blames (.still .beginLine fun _ => .expectedBlock _ no)

theorem floor_blames : Blames (·.isSome = true) floor := by
  refine .bind (header_level (by decide) _) (header_blames (by decide) _) ?_ ?_
  · rintro _ ⟨l, x, rfl⟩ d c -
    refine .inl ?_
    change ((if !(openFile "floor:" c).1 then _ else _ : Reader (Option Floor))
      (openFile "floor:" c).2).1.isSome = true
    split <;> rfl
  · exact broken_still (.pure _) fun _ _ => .pure _

theorem step_tells : Tells (fun o => ∃ s, o = some s ∧ s.floor ≠ []) step := by
  refine .bind (header_level (by decide) _) (header_blames (by decide) _) ?_ ?_
  · rintro _ ⟨l, x, rfl⟩
    refine openFile_tells ?_ fun _ => .pure _
    refine .of_gives (.lines stepLine_climbs stepLine_gives) fun parts named c => ?_
    cases there : parts.any StepPart.namesFloor with
    | true => exact .inl ⟨_, rfl, floor_ne_nil named (.inr there)⟩
    | false =>
      -- The missing line is reported on a line of its own, so no earlier fault hides it.
      let s := parts.foldl StepPart.apply { location := l, name := x }
      have rest : Still (do missingDo s.toRoutine; return some s) :=
        (missingDo_still _).bind fun _ => .pure _
      exact .inr ((rest.grows _).loud (missingFloor_loud s c))
  · exact broken_still (.pure _) fun _ _ => .pure _

end Routine.Parser

namespace Parsed

theorem floor_isSome {file : Nat} {source : Bytes}
    (silent : (Parsed.floor file source).reports = []) :
    (Parsed.floor file source).result.isSome = true := by
  unfold Parsed.floor at silent ⊢
  rw [run_eq] at silent ⊢
  obtain ⟨d, closes⟩ := (Cursor.stands_start file source).closes
  rcases Routine.Parser.floor_blames closes with there | loud
  · exact there
  · exact absurd silent loud

theorem step_floor {file : Nat} {source : Bytes} (silent : (Parsed.step file source).reports = []) :
    ∃ s, (Parsed.step file source).result = some s ∧ s.floor ≠ [] := by
  unfold Parsed.step at silent ⊢
  rw [run_eq] at silent ⊢
  rcases Routine.Parser.step_tells (Cursor.stands_start file source) with there | loud
  · exact there
  · exact absurd silent loud

end Parsed

end StepsLang
