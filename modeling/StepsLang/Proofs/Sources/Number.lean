import Mathlib.Data.List.Basic
import StepsLang.Proofs.Path.Normal
import StepsLang.Sources

namespace StepsLang.Sources

def number? (s : Sources) (path : Bytes) : Option Nat :=
  (s.paths.idxOf? (Path.normalize path)).map (· + 1)

theorem paths_add (s : Sources) (path : Bytes) : s.paths <+: (s.add path).2.paths := by
  unfold add
  dsimp only
  split
  · exact List.prefix_refl _
  · exact List.prefix_append _ _

theorem number?_of_prefix {s t : Sources} {path : Bytes} {n : Nat} (grows : s.paths <+: t.paths)
    (known : s.number? path = some n) : t.number? path = some n := by
  obtain ⟨later, grown⟩ := grows
  obtain ⟨i, found, rfl⟩ := Option.map_eq_some_iff.1 known
  unfold number?
  rw [← grown, List.idxOf?, List.findIdx?_append, ← List.idxOf?, found]
  rfl

theorem number?_add (s : Sources) (path : Bytes) :
    (s.add path).2.number? path = some (s.add path).1 := by
  unfold add number?
  dsimp only
  split
  · next i found => simp [found]
  · next absent =>
    rw [List.idxOf?, List.findIdx?_append, ← List.idxOf?, absent]
    simp

@[simp] theorem paths_attach (s : Sources) (file : Nat) (text : Bytes) :
    (s.attach file text).paths = s.paths := by
  unfold attach
  split <;> rfl

variable {s : Sources} {path other : Bytes} {n : Nat}

theorem number?_congr (same : Path.normalize path = Path.normalize other) :
    s.number? path = s.number? other := by
  rw [number?, number?, same]

theorem number?_le (h : s.number? path = some n) : 0 < n ∧ n ≤ s.paths.length := by
  obtain ⟨i, found, rfl⟩ := Option.map_eq_some_iff.1 h
  obtain ⟨inside, -⟩ := List.idxOf?_eq_some_iff.1 found
  exact ⟨i.succ_pos, inside⟩

theorem path_of_number? (h : s.number? path = some n) : s.path n = Path.normalize path := by
  obtain ⟨i, found, rfl⟩ := Option.map_eq_some_iff.1 h
  obtain ⟨inside, there, -⟩ := List.idxOf?_eq_some_iff.1 found
  simp [Sources.path, inside, there]

theorem number?_eq_iff {m : Nat} (h : s.number? path = some n) (h' : s.number? other = some m) :
    n = m ↔ Path.normalize path = Path.normalize other := by
  constructor
  · rintro rfl
    exact (path_of_number? h).symm.trans (path_of_number? h')
  · intro same
    rw [number?_congr same, h'] at h
    exact (Option.some.inj h).symm

theorem path_beyond (h : n = 0 ∨ s.paths.length < n) : s.path n = [] := by
  rcases h with rfl | beyond
  · rfl
  · have outside : s.paths.length ≤ n - 1 := by omega
    simp [Sources.path, outside]

theorem add_known (h : s.number? path = some n) : s.add path = (n, s) := by
  obtain ⟨i, found, rfl⟩ := Option.map_eq_some_iff.1 h
  simp only [add, found]

theorem add_path (h : s.number? path = some n) : s.add (s.path n) = (n, s) := by
  have same : Path.normalize (s.path n) = Path.normalize path := by
    rw [path_of_number? h, Path.normalize_normalize]
  exact add_known ((number?_congr same).trans h)

theorem add_new (h : s.number? path = none) :
    s.add path =
      (s.paths.length + 1, { s with paths := s.paths ++ [Path.normalize path] }) := by
  have absent := Option.map_eq_none_iff.1 h
  simp only [add, absent]

inductive Request
  | add (path : Bytes)
  | attach (file : Nat) (text : Bytes)

def serve (s : Sources) : Request → Sources
  | .add path => (s.add path).2
  | .attach file text => s.attach file text

def given (s : Sources) : List Request → List (Bytes × Nat)
  | [] => []
  | .add path :: rs => (path, (s.add path).1) :: (s.add path).2.given rs
  | .attach file text :: rs => (s.attach file text).given rs

theorem paths_serve (s : Sources) (r : Request) : s.paths <+: (s.serve r).paths := by
  cases r with
  | add path => exact s.paths_add path
  | attach file text => exact (s.paths_attach file text).symm ▸ List.prefix_refl _

theorem paths_foldl (s : Sources) (rs : List Request) : s.paths <+: (rs.foldl serve s).paths := by
  induction rs generalizing s with
  | nil => exact List.prefix_refl _
  | cons r rs ih => exact (s.paths_serve r).trans (ih (s.serve r))

theorem number?_given {rs : List Request} {g : Bytes × Nat} (hg : g ∈ s.given rs) :
    (rs.foldl serve s).number? g.1 = some g.2 := by
  induction rs generalizing s with
  | nil => cases hg
  | cons r rs ih =>
    cases r with
    | add path =>
      rcases List.mem_cons.1 hg with rfl | later
      · exact number?_of_prefix (paths_foldl _ rs) (s.number?_add path)
      · exact ih later
    | attach file text => exact ih hg

theorem eraseDups_given (s : Sources) (rs : List Request) :
    (((s.given rs).map Prod.snd).filter (s.paths.length < ·)).eraseDups =
      List.range' (s.paths.length + 1) ((rs.foldl serve s).paths.length - s.paths.length) := by
  induction rs generalizing s with
  | nil => simp [given]
  | cons r rs ih =>
    cases r with
    | attach file text =>
      have later := ih (s.attach file text)
      rw [paths_attach] at later
      exact later
    | add path =>
      rw [List.foldl_cons, serve, given]
      cases known : s.number? path with
      | some n =>
        have old : ¬ s.paths.length < n := Nat.not_lt.2 (number?_le known).2
        rw [add_known known, List.map_cons, List.filter_cons_of_neg (by simpa using old), ih]
      | none =>
        have later := ih (s.add path).2
        have grows := (paths_foldl (s.add path).2 rs).length_le
        rw [add_new known] at later grows ⊢
        rw [List.length_append, List.length_singleton] at later grows
        have behind (n : Nat) :
            (!n == s.paths.length + 1 && decide (s.paths.length < n)) =
              decide (s.paths.length + 1 < n) := by
          rw [Bool.eq_iff_iff]
          simp
          omega
        rw [List.map_cons, List.filter_cons_of_pos (by simp), List.eraseDups_cons,
          List.filter_filter, List.filter_congr fun n _ => behind n, later, ← List.range'_succ]
        congr 1
        omega

theorem eraseDups_given_empty (rs : List Request) :
    ((empty.given rs).map Prod.snd).eraseDups =
      List.range' 1 (rs.foldl serve empty).paths.length := by
  have all : ((empty.given rs).map Prod.snd).filter (empty.paths.length < ·) =
      (empty.given rs).map Prod.snd := by
    refine List.filter_eq_self.2 fun n hn => ?_
    obtain ⟨g, hg, rfl⟩ := List.mem_map.1 hn
    exact decide_eq_true (number?_le (number?_given hg)).1
  rw [← all]
  exact eraseDups_given empty rs

end StepsLang.Sources
