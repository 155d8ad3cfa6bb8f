import Mathlib.Data.List.Basic
import Mathlib.Data.List.Induction
import StepsLang.Path

namespace StepsLang.Path

def Component (n : Bytes) : Prop := n ≠ [] ∧ Byte.slash ∉ n

/-- The names that a walk keeps, last first: those that lead down stand behind those that lead up,
and no name leads up from the root. -/
inductive Kept (absolute : Bool) : List Bytes → Prop
  | nil : Kept absolute []
  | up {names : List Bytes} : absolute = false → (∀ n ∈ names.head?, n = parent) →
    Kept absolute names → Kept absolute (parent :: names)
  | down {n : Bytes} {names : List Bytes} : Component n → n ≠ current → n ≠ parent →
    Kept absolute names → Kept absolute (n :: names)

section Components

variable {n path rest : Bytes} {ns : List Bytes}

theorem components_go_name (h : Byte.slash ∉ n) (name rest : Bytes) :
    components.go name (n ++ rest) = components.go (n.reverse ++ name) rest := by
  induction n generalizing name with
  | nil => rfl
  | cons b n ih =>
    rw [List.mem_cons, not_or] at h
    have other : (b == Byte.slash) = false := beq_false_of_ne (Ne.symm h.1)
    rw [List.cons_append, components.go, other]
    simp [ih h.2]

@[simp] theorem components_slash (rest : Bytes) :
    components (Byte.slash :: rest) = components rest := by
  simp [components, components.go]

theorem components_last (h : Component n) : components n = [n] := by
  have whole := components_go_name h.2 [] []
  rw [List.append_nil, List.append_nil] at whole
  rw [components, whole]
  simp [components.go, h.1]

theorem components_cons (h : Component n) (rest : Bytes) :
    components (n ++ Byte.slash :: rest) = n :: components rest := by
  rw [components, components_go_name h.2]
  simp [components, components.go, h.1]

theorem component_of_mem_go {name : Bytes} (clean : Byte.slash ∉ name)
    (h : n ∈ components.go name path) : Component n := by
  have ended {name : Bytes} (filled : ¬ name.isEmpty = true) (clean : Byte.slash ∉ name) :
      Component name.reverse := ⟨by simpa using filled, by simpa using clean⟩
  fun_induction components.go name path with
  | case1 => cases h
  | case2 name filled =>
    obtain rfl := List.mem_singleton.1 h
    exact ended filled clean
  | case3 name b rest slash empty ih => exact ih List.not_mem_nil h
  | case4 name b rest slash filled ih =>
    rcases List.mem_cons.1 h with rfl | later
    · exact ended filled clean
    · exact ih List.not_mem_nil later
  | case5 name b rest other ih =>
    refine ih ?_ h
    rw [List.mem_cons, not_or]
    exact ⟨Ne.symm (by simpa using other), clean⟩

theorem component_of_mem (h : n ∈ components path) : Component n :=
  component_of_mem_go List.not_mem_nil h

theorem components_join (h : ∀ n ∈ ns, Component n) {tail : Bytes}
    (ends : tail = [] ∨ tail = [Byte.slash]) :
    components (Bytes.join [Byte.slash] ns ++ tail) = ns := by
  fun_induction Bytes.join [Byte.slash] ns with
  | case1 => rcases ends with rfl | rfl <;> rfl
  | case2 s =>
    have one := h s List.mem_cons_self
    rcases ends with rfl | rfl
    · rw [List.append_nil, components_last one]
    · rw [components_cons one]
      rfl
  | case3 s t rest ih =>
    rw [List.forall_mem_cons] at h
    rw [List.append_assoc, List.append_assoc, List.singleton_append, components_cons h.1, ih h.2]

end Components

section Walk

variable {absolute : Bool} {n last path : Bytes} {names : List Bytes}

theorem Kept.tail (h : Kept absolute (last :: names)) : Kept absolute names := by
  cases h with
  | up _ _ below => exact below
  | down _ _ _ below => exact below

theorem Kept.relative (h : Kept absolute (parent :: names)) : absolute = false := by
  cases h with
  | up relative => exact relative
  | down _ _ other => exact absurd rfl other

theorem Kept.step {w : Walk} (h : Kept absolute w.names) (hn : Component n) :
    Kept absolute (w.step absolute n).names := by
  unfold Walk.step
  split
  · exact h
  · next down =>
    split
    · obtain ⟨names, slashed⟩ := w
      cases names with
      | nil =>
        dsimp only
        split
        · exact .nil
        · next relative => exact .up (Bool.eq_false_iff.2 relative) nofun .nil
      | cons last before =>
        dsimp only
        split
        · next up =>
          obtain rfl := eq_of_beq up
          exact .up h.relative (fun _ hn => (Option.some.inj hn).symm) h
        · exact h.tail
    · next up => exact .down hn (by simpa using down) (by simpa using up) h

theorem Kept.foldl {w : Walk} {ns : List Bytes} (h : Kept absolute w.names)
    (hns : ∀ n ∈ ns, Component n) : Kept absolute (ns.foldl (Walk.step absolute) w).names := by
  induction ns generalizing w with
  | nil => exact h
  | cons n ns ih =>
    rw [List.forall_mem_cons] at hns
    exact ih (h.step hns.1) hns.2

theorem Kept.component (h : Kept absolute names) (hn : n ∈ names) : Component n := by
  induction h with
  | nil => cases hn
  | up _ _ _ ih =>
    rcases List.mem_cons.1 hn with rfl | below
    · exact ⟨by decide, by decide⟩
    · exact ih below
  | down one _ _ _ ih =>
    rcases List.mem_cons.1 hn with rfl | below
    · exact one
    · exact ih below

theorem Kept.again (h : Kept absolute names) :
    names.reverse.foldl (Walk.step absolute) {} = ⟨names, false⟩ := by
  induction h with
  | nil => rfl
  | @up names relative above _ ih =>
    subst relative
    rw [List.reverse_cons, List.foldl_concat, ih]
    cases names with
    | nil => rfl
    | cons last before =>
      obtain rfl := above last rfl
      rfl
  | @down n names _ other other' _ ih =>
    rw [List.reverse_cons, List.foldl_concat, ih, Walk.step, if_neg (by simpa using other),
      if_neg (by simpa using other')]

def walk (path : Bytes) : Walk := (components path).foldl (Walk.step (isAbsolute path)) {}

theorem kept_walk (path : Bytes) : Kept (isAbsolute path) (walk path).names :=
  Kept.nil.foldl fun _ => component_of_mem

end Walk

section Spelling

variable {absolute slashed : Bool} {last path : Bytes} {before : List Bytes}

def spell (absolute : Bool) (names : List Bytes) (slashed : Bool) : Bytes :=
  (if absolute then [Byte.slash] else []) ++ Bytes.join [Byte.slash] names.reverse ++
    (if slashed then [Byte.slash] else [])

theorem normalize_nowhere (filled : path ≠ []) (names : (walk path).names = []) :
    normalize path = if isAbsolute path then [Byte.slash] else current := by
  have some : path.isEmpty = false := by simpa using filled
  unfold walk at names
  simp only [normalize, some, names]
  rfl

theorem normalize_eq_spell (filled : path ≠ []) (names : (walk path).names = last :: before) :
    normalize path = spell (isAbsolute path) (last :: before)
      (((walk path).slashed || path.getLast? == some Byte.slash) && last != parent) := by
  have some : path.isEmpty = false := by simpa using filled
  unfold walk at names ⊢
  simp only [normalize, some, names]
  rfl

theorem join_concat (separator : Bytes) (ns : List Bytes) (n : Bytes) :
    ∃ front, Bytes.join separator (ns ++ [n]) = front ++ n := by
  fun_induction Bytes.join separator ns with
  | case1 => exact ⟨[], rfl⟩
  | case2 s => exact ⟨s ++ separator, rfl⟩
  | case3 s t rest ih =>
    obtain ⟨front, whole⟩ := ih
    refine ⟨s ++ separator ++ front, ?_⟩
    rw [List.cons_append, List.cons_append, Bytes.join, ← List.cons_append, whole]
    simp only [List.append_assoc]

theorem join_cons (separator n : Bytes) (ns : List Bytes) :
    ∃ rest, Bytes.join separator (n :: ns) = n ++ rest := by
  cases ns with
  | nil => exact ⟨[], (List.append_nil n).symm⟩
  | cons m ns => exact ⟨separator ++ Bytes.join separator (m :: ns), List.append_assoc ..⟩

theorem head?_spell (h : Kept absolute (last :: before)) (slashed : Bool) :
    ((spell absolute (last :: before) slashed).head? == some Byte.slash) = absolute := by
  cases absolute with
  | true => rfl
  | false =>
    obtain ⟨n, ns, names⟩ : ∃ n ns, (last :: before).reverse = n :: ns :=
      List.exists_cons_of_ne_nil (by simp)
    have one : Component n := h.component (List.mem_reverse.1 (names ▸ List.mem_cons_self))
    obtain ⟨b, more, rfl⟩ := List.exists_cons_of_ne_nil one.1
    obtain ⟨rest, whole⟩ := join_cons [Byte.slash] (b :: more) ns
    have other : b ≠ Byte.slash := fun same => one.2 (by simp [same])
    simp [spell, names, whole, other]

theorem getLast?_spell (h : Component last) (absolute slashed : Bool) (before : List Bytes) :
    ((spell absolute (last :: before) slashed).getLast? == some Byte.slash) = slashed := by
  cases slashed with
  | true => simp [spell]
  | false =>
    obtain ⟨front, whole⟩ := join_concat [Byte.slash] before.reverse last
    cases last using List.reverseRecOn with
    | nil => exact absurd rfl h.1
    | append_singleton more b =>
      have other : b ≠ Byte.slash := fun same => h.2 (by simp [same])
      simp [spell, whole, other]

theorem components_spell (h : Kept absolute names) (slashed : Bool) :
    components (spell absolute names slashed) = names.reverse := by
  have ends : (if slashed = true then [Byte.slash] else []) = [] ∨
      (if slashed = true then [Byte.slash] else []) = [Byte.slash] := by
    cases slashed <;> simp
  have proper : ∀ n ∈ names.reverse, Component n := fun n hn =>
    h.component (List.mem_reverse.1 hn)
  have apart := components_join proper ends
  cases absolute with
  | true => rw [spell, if_pos rfl, List.append_assoc, List.singleton_append, components_slash, apart]
  | false => rw [spell, if_neg Bool.false_ne_true, List.nil_append, apart]

theorem normalize_spell (h : Kept absolute (last :: before))
    (down : slashed = true → last ≠ parent) :
    normalize (spell absolute (last :: before) slashed) =
      spell absolute (last :: before) slashed := by
  have slash : (slashed && last != parent) = slashed := by
    cases slashed with
    | true => simpa using down rfl
    | false => rfl
  have root : isAbsolute (spell absolute (last :: before) slashed) = absolute :=
    head?_spell h slashed
  have names := components_spell h slashed
  have again : walk (spell absolute (last :: before) slashed) = ⟨last :: before, false⟩ := by
    rw [walk, names, root, h.again]
  have filled : spell absolute (last :: before) slashed ≠ [] := by
    intro none
    rw [none] at names
    simp [components, components.go] at names
  have ends := getLast?_spell (h.component List.mem_cons_self) absolute slashed before
  rw [normalize_eq_spell filled (by rw [again]), root, again, ends, Bool.false_or, slash]

end Spelling

/-- The normal form of a path is its own normal form. -/
theorem normalize_normalize (path : Bytes) : normalize (normalize path) = normalize path := by
  by_cases filled : path = []
  · subst filled
    rfl
  cases names : (walk path).names with
  | nil =>
    rw [normalize_nowhere filled names]
    split <;> decide
  | cons last before =>
    rw [normalize_eq_spell filled names]
    refine normalize_spell (names ▸ kept_walk path) fun slashed => ?_
    exact bne_iff_ne.1 (Bool.and_eq_true_iff.1 slashed).2

end StepsLang.Path
