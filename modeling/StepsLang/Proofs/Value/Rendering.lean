import StepsLang.Proofs.Value.Unfolding
import StepsLang.Value.Text

/-! How values are written.  The texts of a value come from walks that remember the containers they
are inside of and forget them on the way out; here the walks are told with this memory as their
state, and give up when they go too deep. -/

namespace StepsLang

namespace Tree

theorem displayItems_eq (ts : List Tree) : displayItems ts = ts.map display := by
  induction ts with
  | nil => rfl
  | cons t ts ih => rw [displayItems, ih, List.map_cons]

theorem displayEntries_eq (es : List (Bytes × Tree)) :
    displayEntries es = es.map fun e => keyText e.1 ++ e.2.display := by
  induction es with
  | nil => rfl
  | cons e es ih => rw [displayEntries, ih, List.map_cons]

theorem briefItems_eq (ts : List Tree) : briefItems ts = ts.map brief := by
  induction ts with
  | nil => rfl
  | cons t ts ih => rw [briefItems, ih, List.map_cons]

theorem briefEntries_eq (es : List (Bytes × Tree)) :
    briefEntries es = es.map fun e => keyText e.1 ++ e.2.brief := by
  induction es with
  | nil => rfl
  | cons e es ih => rw [briefEntries, ih, List.map_cons]

theorem infix_join {s : Bytes} {texts : List Bytes} (there : s ∈ texts) (separator : Bytes) :
    s <:+: Bytes.join separator texts := by
  induction texts with
  | nil => cases there
  | cons t texts ih =>
    cases texts with
    | nil =>
      rw [List.mem_singleton.1 there]
      exact List.infix_rfl
    | cons u texts =>
      rw [Bytes.join]
      rcases List.mem_cons.1 there with rfl | later
      · exact ⟨[], _, (List.append_assoc _ _ _).symm⟩
      · exact (ih later).trans (List.suffix_append _ _).isInfix

theorem infix_brackets (s : Bytes) : s <:+: "[" ++ s ++ "]" := ⟨"[", "]", rfl⟩

theorem display_part {t u : Tree} (there : u ∈ t.parts) : u.display <:+: t.display := by
  cases t with
  | list ts =>
    rw [display, displayItems_eq]
    exact (infix_join (List.mem_map_of_mem there) _).trans (infix_brackets _)
  | table es =>
    obtain ⟨e, he, rfl⟩ := List.mem_map.1 there
    have entry : keyText e.1 ++ e.2.display ∈ es.map fun e => keyText e.1 ++ e.2.display :=
      List.mem_map.2 ⟨e, he, rfl⟩
    rw [display, displayEntries_eq]
    exact (List.suffix_append _ _).isInfix.trans
      ((infix_join entry _).trans (infix_brackets _))
  | _ => cases there

theorem display_at {t u : Tree} {p : List Nat} (there : t.at? p = some u) :
    u.display <:+: t.display := by
  induction p generalizing t with
  | nil =>
    cases there
    exact List.infix_rfl
  | cons i p ih =>
    obtain ⟨s, part, below⟩ := Option.bind_eq_some_iff.1 there
    exact (ih below).trans (display_part (List.mem_of_getElem? part))

end Tree

namespace Heap
open StepsLang.Tree

theorem display_tree (h : Heap) (v : Value) : h.display v = (h.tree v).display := by
  cases v <;> simp [display, tree, unfold, Tree.display]

/-- A way of writing values: the text of what is no container, and how many of so many items or
entries are written out. -/
structure Style where
  leaf : Value → Bytes
  items : Nat → Nat
  entries : Nat → Nat

namespace Style

def plain : Style where
  leaf := Value.scalarText
  items n := n
  entries n := n

def short : Style where
  leaf
    | .text s => "\"" ++ s ++ "\""
    | v => v.scalarText
  items n := if n ≤ 5 then n else 3
  entries n := if n ≤ 3 then n else 2

end Style

/-- What stands between the brackets of a container: its first parts, and how many parts there are
if these are not all. -/
def bracketed (unit : Bytes) (total : Nat) (parts : List Bytes) : Bytes :=
  "[" ++ (Bytes.join ", " parts ++ Bytes.onlyIf (parts.length < total)
    (", ... (" ++ Bytes.decimal total ++ " " ++ unit ++ ")")) ++ "]"

def entering (r : Ref) (body : StateT (List Ref) Option Bytes) :
    StateT (List Ref) Option Bytes := do
  if r ∈ (← get) then return cycleText
  modify (r :: ·)
  let text ← body
  modify List.tail
  return text

/-- Writes a value, entering one container inside another at most so many times. The state holds
the containers that are entered and not left. -/
def write (s : Style) (h : Heap) : Nat → Value → StateT (List Ref) Option Bytes
  | 0, _ => failure
  | n + 1, .list id => entering (.list id) do
    let items := (h.items id).toList
    let parts ← (items.take (s.items items.length)).mapM fun v => write s h n v
    return bracketed "items" items.length parts
  | n + 1, .table id => entering (.table id) do
    let es := h.entries id
    let parts ← (es.take (s.entries es.length)).mapM fun e => (keyText e.1 ++ ·) <$> write s h n e.2
    return bracketed "entries" es.length parts
  | _ + 1, v => return s.leaf v

/-- A text for trees that is written in this style. -/
structure Style.Writes (s : Style) (text : Tree → Bytes) : Prop where
  leaf : ∀ v, v.ref? = none → s.leaf v = text (.leaf v)
  cycle : text .cycle = cycleText
  list : ∀ ts, text (.list ts) =
    bracketed "items" ts.length ((ts.take (s.items ts.length)).map text)
  table : ∀ es, text (.table es) = bracketed "entries" es.length
    ((es.take (s.entries es.length)).map fun e => keyText e.1 ++ text e.2)

theorem bracketed_all (unit : Bytes) (parts : List Bytes) :
    bracketed unit parts.length parts = "[" ++ Bytes.join ", " parts ++ "]" := by
  simp [bracketed, Bytes.onlyIf]

theorem bracketed_abbreviate (limit few : Nat) (within : few ≤ limit) (unit : Bytes)
    (parts : List Bytes) :
    bracketed unit parts.length (parts.take (if parts.length ≤ limit then parts.length else few)) =
      "[" ++ abbreviate limit few unit parts ++ "]" := by
  unfold abbreviate
  split
  · rw [List.take_length, bracketed_all]
  · next many =>
    have cut : (parts.take few).length < parts.length := by
      rw [List.length_take]
      omega
    simp only [bracketed, Bytes.onlyIf, decide_eq_true cut, if_true, List.append_assoc]

theorem writes_display : Style.plain.Writes Tree.display where
  leaf _ _ := rfl
  cycle := rfl
  list ts := by
    have all := bracketed_all "items" (ts.map Tree.display)
    rw [List.length_map] at all
    simp [Tree.display, displayItems_eq, Style.plain, all]
  table es := by
    have all := bracketed_all "entries" (es.map fun e => keyText e.1 ++ e.2.display)
    rw [List.length_map] at all
    simp [Tree.display, displayEntries_eq, Style.plain, all]

theorem writes_brief : Style.short.Writes Tree.brief where
  leaf v _ := by cases v <;> rfl
  cycle := rfl
  list ts := by
    have cut := bracketed_abbreviate 5 3 (by omega) "items" (ts.map Tree.brief)
    rw [List.length_map] at cut
    rw [Tree.brief, briefItems_eq, ← cut, List.map_take]
    rfl
  table es := by
    have cut := bracketed_abbreviate 3 2 (by omega) "entries"
      (es.map fun e => keyText e.1 ++ e.2.brief)
    rw [List.length_map] at cut
    rw [Tree.brief, briefEntries_eq, ← cut, List.map_take]
    rfl

theorem run_mapM {f : α → StateT (List Ref) Option β} {g : α → β} {path : List Ref} {xs : List α}
    (each : ∀ x ∈ xs, (f x).run path = some (g x, path)) :
    (xs.mapM f).run path = some (xs.map g, path) := by
  induction xs with
  | nil => rfl
  | cons x xs ih =>
    have first := each x (by simp)
    have rest := ih fun y hy => each y (by simp [hy])
    simp [List.mapM_cons, first, rest]

theorem run_entering {r : Ref} {path : List Ref} {body : StateT (List Ref) Option Bytes}
    (text : Bytes) (inside : r ∉ path → body.run (r :: path) = some (text, r :: path)) :
    (entering r body).run path = some (if r ∈ path then cycleText else text, path) := by
  by_cases met : r ∈ path
  · simp [entering, met]
  · simp [entering, met, inside met]

/-- With a bound above the number of containers not yet entered the walk comes to its end. -/
theorem run_write {s : Style} {text : Tree → Bytes} (writes : s.Writes text) {h : Heap} {n : Nat}
    {path : List Ref} (hn : (unseen h.refs path).length < n) (v : Value) :
    (write s h n v).run path = some (text (h.unfold path v), path) := by
  induction n generalizing path v with
  | zero => omega
  | succ n ih =>
    cases v with
    | list id =>
      rw [write, unfold_list, run_entering (text
        (.list ((h.items id).toList.map (h.unfold (.list id :: path)))))]
      · split <;> simp [writes.cycle]
      · intro fresh
        have each (v) (hv : v ∈ (h.items id).toList.take (s.items (h.items id).toList.length)) :
            (write s h n v).run (.list id :: path) =
              some (text (h.unfold (.list id :: path) v), .list id :: path) := by
          have fewer := unseen_cons_lt
            (list_mem_refs (Array.mem_toList_iff.1 (List.mem_of_mem_take hv))) fresh
          exact ih (by omega) v
        rw [StateT.run_bind, run_mapM each, writes.list]
        simp [List.map_take, Function.comp_def]
    | table id =>
      rw [write, unfold_table, run_entering (text
        (.table ((h.entries id).map fun e => (e.1, h.unfold (.table id :: path) e.2))))]
      · split <;> simp [writes.cycle]
      · intro fresh
        have each (e) (he : e ∈ (h.entries id).take (s.entries (h.entries id).length)) :
            ((keyText e.1 ++ ·) <$> write s h n e.2).run (.table id :: path) =
              some (keyText e.1 ++ text (h.unfold (.table id :: path) e.2),
                .table id :: path) := by
          have fewer := unseen_cons_lt (table_mem_refs (List.mem_of_mem_take he)) fresh
          rw [StateT.run_map, ih (by omega)]
          rfl
        rw [StateT.run_bind, run_mapM each, writes.table]
        simp [List.map_take, Function.comp_def]
    | _ =>
      simp only [write, unfold]
      rw [← writes.leaf _ rfl]
      rfl

/-- Writing a value comes to its end on every heap, within as many containers as there are. -/
theorem display_unfolds (h : Heap) (v : Value) :
    (∀ n, h.refs.length < n → (write .plain h n v).run [] = some (h.display v, []) ∧
      (write .short h n v).run [] = some (h.brief v, [])) ∧
    ∃ t, (∀ u, h.Unfolds v u ↔ u = t) ∧ h.display v = t.display ∧
      ∀ p w, h.at? v p = some w → h.Acyclic w → (∀ q, Above q p → ¬ h.Recurs v q) →
        ∃ u, t.at? p = some u ∧ (∀ q, u.node? q = (h.at? w q).map h.node) ∧
          u.display = h.display w ∧ h.display w <:+: h.display v := by
  refine ⟨fun n hn => ?_, h.tree v, fun u => unfolds_iff, display_tree h v, ?_⟩
  · have bound : (unseen h.refs []).length < n := by simpa [unseen] using hn
    exact ⟨display_tree h v ▸ run_write writes_display bound v, run_write writes_brief bound v⟩
  · intro p w here acyclic clear
    obtain ⟨subtree, full⟩ := acyclic.whole here clear
    refine ⟨h.tree w, subtree, full, (display_tree h w).symm, ?_⟩
    rw [display_tree, display_tree]
    exact display_at subtree

def shelf : Heap :=
  let h := (Heap.empty.newList #[.list 1, .table 0, .list 1]).2
  let h := (h.newList #[.number 7]).2
  (h.newTable [("back", .list 0), ("box", .list 1)]).2

theorem display_unfolds_shelf :
    shelf.display (.list 0) = "[[7], [\"back\": [...], \"box\": [7]], [7]]" ∧
      (write .plain shelf 4 (.list 0)).run [] = some (shelf.display (.list 0), []) ∧
      (write .short shelf 4 (.table 0)).run [] = some (shelf.brief (.table 0), []) ∧
      ∃ t, shelf.Unfolds (.list 0) t ∧ (∃ u, t.at? [1, 1] = some u ∧ u.display = "[7]") ∧
        shelf.Recurs (.list 0) [1, 0] := by
  have deep : shelf.refs.length < 4 := by decide
  obtain ⟨written, t, unfolds, -, full⟩ := display_unfolds shelf (.list 0)
  have box : shelf.Acyclic (.list 1) := acyclic_of_flat (by decide)
  have clear (q) (above : Above q [1, 1]) : ¬ shelf.Recurs (.list 0) q := by
    rintro ⟨c, r, isRef, here, o, higher, there⟩
    rcases prefix_iff_above.1 ((above_concat (p := [1])).1 above) with rfl | above
    · cases List.prefix_nil.1 ((above_concat (p := [])).1 higher)
      cases here
      cases there
    · cases List.prefix_nil.1 ((above_concat (p := [])).1 above)
      exact not_above_nil o higher
  obtain ⟨u, there, -, shown, -⟩ := full [1, 1] (.list 1) rfl box clear
  refine ⟨by decide +kernel, (written 4 deep).1, ((display_unfolds shelf (.table 0)).1 4 deep).2,
    t, (unfolds t).2 rfl, ⟨u, there, shown.trans (by decide +kernel)⟩,
    .list 0, .list 0, rfl, rfl, [], ⟨⟨[1, 0], rfl⟩, by decide⟩, rfl⟩

end Heap

end StepsLang
