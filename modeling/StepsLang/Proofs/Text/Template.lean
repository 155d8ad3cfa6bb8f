import Mathlib.Data.List.Infix
import StepsLang.Template
import StepsLang.Proofs.List

namespace StepsLang.Template

def Bound (values : List (Bytes × Bytes)) (key v : Bytes) : Prop :=
  ∃ before after, values = before ++ (key, v) :: after ∧ ∀ e ∈ before, e.1 ≠ key

/-- A text with a placeholder at its start: what stands between the brace and the first closing one
behind it is a key, with the value `v`, and `rest` stands behind the closing brace. -/
inductive Opens (values : List (Bytes × Bytes)) : Bytes → Bytes → Bytes → Prop
  | key {key v rest : Bytes} : Byte.closeBrace ∉ key → Bound values key v →
    Opens values (Byte.openBrace :: (key ++ Byte.closeBrace :: rest)) v rest

/-- One pass over a template, and what it puts out. -/
inductive Passes (values : List (Bytes × Bytes)) : Bytes → Bytes → Prop
  | done : Passes values [] []
  | value {s v rest out : Bytes} : Opens values s v rest → Passes values rest out →
    Passes values s (v ++ out)
  | byte {b : UInt8} {rest out : Bytes} : (∀ v after, ¬ Opens values (b :: rest) v after) →
    Passes values rest out → Passes values (b :: rest) (b :: out)

/-- Text with more text behind it, at no byte of which a placeholder opens. -/
def Inert (values : List (Bytes × Bytes)) (u behind : Bytes) : Prop :=
  ∀ back, back <:+ u → back ≠ [] → ∀ v rest, ¬ Opens values (back ++ behind) v rest

section

variable {values : List (Bytes × Bytes)} {key v rest s u out : Bytes} {b : UInt8}

theorem Opens.head? (h : Opens values s v rest) : s.head? = some Byte.openBrace := by
  cases h
  rfl

theorem Inert.tail (h : Inert values (b :: u) s) : Inert values u s :=
  fun back tail => h back (tail.trans (List.suffix_cons b u))

theorem Inert.of_plain (plain : Byte.openBrace ∉ u) : Inert values u s := by
  intro back tail some v rest opens
  obtain ⟨b, back, rfl⟩ := List.exists_cons_of_ne_nil some
  obtain rfl := Option.some.inj opens.head?
  exact plain (tail.subset List.mem_cons_self)

theorem lookup_eq_some_iff : values.lookup key = some v ↔ Bound values key v := by
  simp [List.lookup_eq_some_iff, Bound, ne_comm]

theorem splitClose_eq_some_iff :
    splitClose s = some (key, rest) ↔
      s = key ++ Byte.closeBrace :: rest ∧ Byte.closeBrace ∉ key := by
  constructor
  · intro h
    unfold splitClose at h
    split at h
    · cases h
    · next c after found =>
      cases h
      have brace : c = Byte.closeBrace := by
        have first := List.head?_dropWhile_not (· != Byte.closeBrace) s
        simpa [found] using first
      subst brace
      refine ⟨?_, fun there => ?_⟩
      · rw [← found, List.takeWhile_append_dropWhile]
      · simpa using List.all_eq_true.1 List.all_takeWhile _ there
  · rintro ⟨rfl, out⟩
    have others := bne_of_not_mem out
    simp [splitClose, List.dropWhile_append_of_pos others, List.takeWhile_append_of_pos others]

theorem placeholder?_eq_some_iff :
    placeholder? values s = some (v, rest) ↔ Opens values s v rest := by
  constructor
  · intro h
    cases s with
    | nil => cases h
    | cons b s =>
      obtain ⟨brace, h⟩ := Option.ite_none_right_eq_some.1 h
      rw [eq_of_beq brace]
      split at h
      · cases h
      · next key after cut =>
        obtain ⟨w, found, same⟩ := Option.map_eq_some_iff.1 h
        cases same
        obtain ⟨rfl, out⟩ := splitClose_eq_some_iff.1 cut
        exact .key out (lookup_eq_some_iff.1 found)
  · rintro @⟨key, v, rest, out, bound⟩
    have cut : splitClose (key ++ Byte.closeBrace :: rest) = some (key, rest) :=
      splitClose_eq_some_iff.2 ⟨rfl, out⟩
    have found := lookup_eq_some_iff.2 bound
    simp [placeholder?, cut, found]

theorem placeholder?_eq_none_iff :
    placeholder? values s = none ↔ ∀ v rest, ¬ Opens values s v rest := by
  simp [Option.eq_none_iff_forall_ne_some, placeholder?_eq_some_iff]

theorem inert_iff :
    Inert values u s ↔ ∀ back ∈ u.tails, back ≠ [] → placeholder? values (back ++ s) = none := by
  simp [Inert, List.mem_tails, placeholder?_eq_none_iff]

instance : Decidable (Bound values key v) := decidable_of_iff _ lookup_eq_some_iff

instance : Decidable (Inert values u s) := decidable_of_iff _ inert_iff.symm

theorem fill_opens (h : Opens values s v rest) : fill values s = v ++ fill values rest := by
  have found := placeholder?_eq_some_iff.2 h
  rw [fill]
  split
  · next e =>
    cases found.symm.trans e
    rfl
  · next e => cases found.symm.trans e

theorem fill_other (h : ∀ v rest, ¬ Opens values (b :: s) v rest) :
    fill values (b :: s) = b :: fill values s := by
  have nothing := placeholder?_eq_none_iff.2 h
  rw [fill]
  split
  · next e => cases nothing.symm.trans e
  · rfl

theorem fill_nil : fill values [] = [] := by
  rw [fill]
  rfl

theorem passes_fill (values : List (Bytes × Bytes)) (s : Bytes) :
    Passes values s (fill values s) := by
  fun_induction fill values s with
  | case1 s v rest found _ ih => exact .value (placeholder?_eq_some_iff.1 found) ih
  | case2 => exact .done
  | case3 b rest nothing ih => exact .byte (placeholder?_eq_none_iff.1 nothing) ih

theorem Passes.fill_eq (h : Passes values s out) : fill values s = out := by
  induction h with
  | done => exact fill_nil
  | value opens _ ih => rw [fill_opens opens, ih]
  | byte other _ ih => rw [fill_other other, ih]

theorem fill_eq_iff : fill values s = out ↔ Passes values s out :=
  ⟨fun h => h ▸ passes_fill values s, Passes.fill_eq⟩

theorem fill_append (h : Inert values u s) : fill values (u ++ s) = u ++ fill values s := by
  induction u with
  | nil => rfl
  | cons b u ih =>
    have other : ∀ v rest, ¬ Opens values (b :: (u ++ s)) v rest :=
      h (b :: u) List.suffix_rfl (List.cons_ne_nil b u)
    rw [List.cons_append, fill_other other, ih h.tail, List.cons_append]

theorem fill_key (h : Inert values u (Byte.openBrace :: (key ++ Byte.closeBrace :: rest)))
    (out : Byte.closeBrace ∉ key) (bound : Bound values key v) :
    fill values (u ++ Byte.openBrace :: (key ++ Byte.closeBrace :: rest)) =
      u ++ v ++ fill values rest := by
  rw [fill_append h, fill_opens (.key out bound), List.append_assoc]

end

/-- Filling a template is one pass over it. -/
theorem fill_single_pass (values : List (Bytes × Bytes)) :
    (∀ s out, fill values s = out ↔ Passes values s out) ∧
      (∀ u key v w, Byte.openBrace ∉ u → Byte.closeBrace ∉ key → Bound values key v →
        fill values (u ++ Byte.openBrace :: (key ++ Byte.closeBrace :: w)) =
          u ++ v ++ fill values w) ∧
      ∀ u key v w, Inert values u (Byte.openBrace :: (key ++ Byte.closeBrace :: w)) →
        Byte.closeBrace ∉ key → Bound values key v →
        fill values (u ++ Byte.openBrace :: (key ++ Byte.closeBrace :: w)) =
          u ++ v ++ fill values w :=
  ⟨fun _ _ => fill_eq_iff, fun _ _ _ _ plain => fill_key (.of_plain plain),
    fun _ _ _ _ => fill_key⟩

theorem fill_single_pass_braces :
    let values : List (Bytes × Bytes) := [("name", "{other}"), ("other", "x"), ("name", "y")]
    fill values "'{name}'." = "'{other}'." ∧
      fill values "\x7b {} \x7bna{name}" = "\x7b {} \x7bna{other}" ∧
      Passes values "\x7b {} \x7bna{name}" "\x7b {} \x7bna{other}" := by
  intro values
  obtain ⟨passes, plain, inert⟩ := fill_single_pass values
  have quoted := plain "'" "name" "{other}" "'." (by decide) (by decide) (by decide)
  have behind := inert "\x7b {} \x7bna" "name" "{other}" "" (by decide +kernel) (by decide)
    (by decide)
  have last : fill values "'." = "'." := by decide +kernel
  have whole : fill values "\x7b {} \x7bna{name}" = "\x7b {} \x7bna{other}" :=
    behind.trans (congrArg _ fill_nil)
  exact ⟨quoted.trans (congrArg _ last), whole, (passes _ _).1 whole⟩

end StepsLang.Template
