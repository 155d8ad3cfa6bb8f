import Mathlib.Data.List.Nodup
import StepsLang.Environment

namespace StepsLang

namespace NameMap

variable {m upper : NameMap α} {x : Bytes} {a : α}

theorem names_nodup (m : NameMap α) : m.names.Nodup := by
  refine List.pairwise_map.2 (m.sorted.imp fun before same => ?_)
  rw [same] at before
  exact List.lt_irrefl _ before

theorem mem_entries_iff : (x, a) ∈ m.entries ↔ m.find? x = some a := by
  refine ⟨fun listed => ?_, fun found => ?_⟩
  · obtain ⟨before, after, split⟩ := List.append_of_mem listed
    refine List.lookup_eq_some_iff.2 ⟨before, after, split, fun e earlier => ?_⟩
    have distinct : (before.map (·.1) ++ x :: after.map (·.1)).Nodup := by
      simpa [names, split] using m.names_nodup
    have apart := (List.nodup_append.1 distinct).2.2 e.1 (List.mem_map_of_mem earlier) x (by simp)
    exact bne_iff_ne.2 apart.symm
  · obtain ⟨before, after, split, -⟩ := List.lookup_eq_some_iff.1 found
    exact split ▸ by simp

theorem find?_foldl_insert {entries : List (Bytes × α)} (distinct : (entries.map (·.1)).Nodup) :
    (entries.foldl (fun m e => m.insert e.1 e.2) m).find? x =
      (entries.lookup x).or (m.find? x) := by
  induction entries generalizing m with
  | nil => rfl
  | cons e rest ih =>
    obtain ⟨first, others⟩ := List.nodup_cons.1 distinct
    rw [List.foldl_cons, ih others, find?_insert, List.lookup_cons]
    by_cases here : x = e.1
    · have later : rest.lookup x = none := by
        refine List.lookup_eq_none_iff.2 fun f hf => bne_iff_ne.2 fun same => first ?_
        exact List.mem_map.2 ⟨f, hf, same.symm.trans here⟩
      simp [here, here ▸ later]
    · simp [here, beq_eq_false_iff_ne.2 here]

theorem find?_overlay : (m.overlay upper).find? x = (upper.find? x).or (m.find? x) :=
  find?_foldl_insert upper.names_nodup

end NameMap

namespace Frame

def merged (f : Frame) : Scope := f.blocks.foldr (fun block outer => outer.overlay block) f.main

theorem visible_eq (f : Frame) : f.visible = f.merged.entries.map fun e => (e.1, e.2.value) := rfl

theorem find?_merged (f : Frame) (x : Bytes) : f.merged.find? x = f.find? x := by
  simp only [merged, find?, scopes]
  induction f.blocks with
  | nil => simp
  | cons block rest ih =>
    rw [List.foldr_cons, NameMap.find?_overlay, ih, List.cons_append, List.findSome?_cons]
    cases block.find? x <;> rfl

theorem visible_sorted (f : Frame) : NameMap.Sorted f.visible :=
  List.pairwise_map.2 f.merged.sorted

theorem visible_nodup (f : Frame) : (f.visible.map (·.1)).Nodup := by
  rw [visible_eq, List.map_map]
  exact f.merged.names_nodup

theorem mem_visible_iff {f : Frame} {x : Bytes} {v : Value} :
    (x, v) ∈ f.visible ↔ ∃ y, f.find? x = some y ∧ y.value = v := by
  rw [visible_eq, List.mem_map]
  refine ⟨?_, ?_⟩
  · rintro ⟨⟨x, y⟩, listed, same⟩
    cases same
    exact ⟨y, f.find?_merged x ▸ NameMap.mem_entries_iff.1 listed, rfl⟩
  · rintro ⟨y, found, rfl⟩
    exact ⟨(x, y), NameMap.mem_entries_iff.2 (f.find?_merged x ▸ found), rfl⟩

end Frame

namespace Environment

variable {env : Environment} {x : Bytes} {v : Value}

theorem mem_visible_iff (l : Location) : (x, v) ∈ env.visible ↔ env.get x l = .ok v := by
  rw [visible, Frame.mem_visible_iff, get]
  cases env.top.find? x <;> simp

theorem has_iff : env.has x = true ↔ ∃ v, (x, v) ∈ env.visible := by
  simp only [has, visible, Frame.mem_visible_iff, Option.isSome_iff_exists]
  exact ⟨fun ⟨y, found⟩ => ⟨_, y, found, rfl⟩, fun ⟨_, y, found, _⟩ => ⟨y, found⟩⟩

end Environment

end StepsLang
