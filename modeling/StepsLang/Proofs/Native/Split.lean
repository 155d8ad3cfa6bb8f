import StepsLang.Proofs.Native.Text

namespace StepsLang

namespace Bytes

variable {d s : Bytes} {i : Nat}

theorem find?_none (h : find? d s = none) (i : Nat) : ¬ d <+: s.drop i := by
  rcases find?_cases d s with ⟨-, nowhere⟩ | ⟨i, found, -⟩
  · exact nowhere i
  · rw [h] at found
    cases found

theorem find?_some (h : find? d s = some i) : d <+: s.drop i ∧ ∀ j < i, ¬ d <+: s.drop j := by
  rcases find?_cases d s with ⟨none, -⟩ | ⟨k, found, here, before⟩
  · rw [h] at none
    cases none
  · rw [h] at found
    obtain rfl := Option.some.inj found
    exact ⟨here, before⟩

theorem take_append_drop_find (h : find? d s = some i) :
    s.take i ++ d ++ s.drop (i + d.length) = s := by
  obtain ⟨⟨rest, there⟩, -⟩ := find?_some h
  rw [← List.drop_drop, ← there, List.drop_left, List.append_assoc, there, List.take_append_drop]

theorem length_drop_find (h : find? d s = some i) (some : d ≠ []) :
    (s.drop (i + d.length)).length < s.length := by
  have whole := congrArg List.length (take_append_drop_find h)
  have size := List.length_pos_iff.2 some
  rw [List.length_append, List.length_append] at whole
  omega

end Bytes

namespace Utf8

theorem flatten_put (b : UInt8) (gs : List Bytes) :
    (characters.put b gs).flatten = b :: gs.flatten := by
  cases gs with
  | nil => rfl
  | cons g gs =>
    rw [characters.put]
    split <;> rfl

theorem mem_put {b : UInt8} {g : Bytes} {gs : List Bytes} (h : g ∈ characters.put b gs) :
    (∃ rest, g = b :: rest) ∨ g ∈ gs := by
  cases gs with
  | nil => exact .inl ⟨[], List.mem_singleton.1 h⟩
  | cons c gs =>
    rw [characters.put] at h
    split at h
    · exact (List.mem_cons.1 h).imp (⟨c, ·⟩) (List.mem_cons_of_mem c)
    · exact (List.mem_cons.1 h).imp (⟨[], ·⟩) id

theorem flatten_characters (s : Bytes) : (characters s).flatten = s := by
  induction s with
  | nil => rfl
  | cons b s ih => exact (flatten_put b (characters s)).trans (congrArg (b :: ·) ih)

theorem ne_nil_of_mem_characters {s g : Bytes} (h : g ∈ characters s) : g ≠ [] := by
  induction s with
  | nil => cases h
  | cons b s ih =>
    rcases mem_put h with ⟨rest, rfl⟩ | later
    · exact List.cons_ne_nil b rest
    · exact ih later

theorem characters_cons (b : UInt8) (s : Bytes) : ∃ g gs, characters (b :: s) = (b :: g) :: gs := by
  have joined := flatten_characters (b :: s)
  cases parts : characters (b :: s) with
  | nil =>
    rw [parts] at joined
    cases joined
  | cons g gs =>
    have some := ne_nil_of_mem_characters (s := b :: s) (g := g) (by simp [parts])
    obtain ⟨c, g, rfl⟩ := List.exists_cons_of_ne_nil some
    rw [parts] at joined
    obtain ⟨rfl, -⟩ := List.cons.inj joined
    exact ⟨g, gs, rfl⟩

/-- The parts of a text that no byte starts: one if the text begins amid a character, else none. -/
def stray (s : Bytes) : Nat := if s.head?.any Byte.isContinuation then 1 else 0

theorem length_characters (s : Bytes) : (characters s).length = length s + stray s := by
  induction s with
  | nil => rfl
  | cons b s ih =>
    have count : length (b :: s) + stray (b :: s) = length s + 1 := by
      rw [length, List.countP_cons, ← length, stray, List.head?_cons, Option.any_some]
      cases Byte.isContinuation b <;> simp
    have whole : characters (b :: s) = characters.put b (characters s) := rfl
    rw [count, whole]
    cases s with
    | nil => rfl
    | cons c s =>
      obtain ⟨g, gs, parts⟩ := characters_cons c s
      rw [parts] at ih ⊢
      cases first : Byte.isContinuation c <;> simpa [stray, characters.put, first] using ih

end Utf8

open Bytes

/-- The rounds of a search for `d` from the left.  Each cuts off what stands before the first
occurrence and goes on behind that; the last one finds no occurrence. -/
inductive Cuts (d : Bytes) : Bytes → List Bytes → Prop
  | last {s : Bytes} : find? d s = none → Cuts d s [s]
  | next {s : Bytes} {i : Nat} {ps : List Bytes} : find? d s = some i →
    Cuts d (s.drop (i + d.length)) ps → Cuts d s (s.take i :: ps)

namespace Cuts

variable {d s : Bytes} {ps : List Bytes}

theorem ne_nil (h : Cuts d s ps) : ps ≠ [] := by
  cases h with
  | last => exact List.cons_ne_nil _ _
  | next => exact List.cons_ne_nil _ _

theorem joined (h : Cuts d s ps) : d.intercalate ps = s := by
  induction h with
  | last => exact List.intercalate_singleton
  | next found later ih =>
    rw [List.intercalate_cons_of_ne_nil later.ne_nil, ih, take_append_drop_find found]

theorem not_infix (h : Cuts d s ps) (some : d ≠ []) {p : Bytes} (hp : p ∈ ps) : ¬ d <:+: p := by
  rintro ⟨before, behind, rfl⟩
  induction h with
  | last none =>
    obtain rfl := List.mem_singleton.1 hp
    refine find?_none none before.length ?_
    rw [List.append_assoc, List.drop_left]
    exact List.prefix_append d behind
  | @next s i ps found later ih =>
    rcases List.mem_cons.1 hp with here | hp
    · have size := congrArg List.length here
      have long := List.length_pos_iff.2 some
      simp only [List.length_append, List.length_take] at size
      refine (find?_some found).2 before.length (by omega) ?_
      rw [← List.take_append_drop i s, ← here, List.append_assoc, List.append_assoc, List.drop_left]
      exact List.prefix_append d _
    · exact ih hp

end Cuts

namespace Value

variable {d s : Bytes} {i : Nat}

theorem splitText_go_owed (d part : Bytes) (owed : Nat) (s : Bytes) :
    splitText.go d owed part s = splitText.go d 0 part (s.drop owed) := by
  induction owed generalizing s with
  | zero => rfl
  | succ owed ih =>
    cases s with
    | nil => rfl
    | cons b s => exact ih s

theorem splitText_go_pass (h : ∀ j < i, ¬ d <+: s.drop j) (part : Bytes) :
    splitText.go d 0 part s = splitText.go d 0 ((s.take i).reverse ++ part) (s.drop i) := by
  induction i generalizing s part with
  | zero => rfl
  | succ i ih =>
    cases s with
    | nil => rfl
    | cons b s =>
      have here : ¬ d.isPrefixOf (b :: s) = true := fun at_ =>
        h 0 (Nat.succ_pos i) (List.isPrefixOf_iff_prefix.1 at_)
      rw [splitText.go, if_neg here, ih fun j hj => h (j + 1) (Nat.succ_lt_succ hj)]
      simp

theorem splitText_of_none (h : find? d s = none) : splitText d s = [s] := by
  rw [splitText, splitText_go_pass (i := s.length) fun j _ => find?_none h j]
  simp [splitText.go]

theorem splitText_of_some (h : find? d s = some i) (some : d ≠ []) :
    splitText d s = s.take i :: splitText d (s.drop (i + d.length)) := by
  obtain ⟨here, before⟩ := find?_some h
  obtain ⟨c, d, rfl⟩ := List.exists_cons_of_ne_nil some
  obtain ⟨rest, there⟩ := here
  rw [splitText, splitText_go_pass before, ← List.drop_drop, ← there, List.cons_append,
    splitText.go, if_pos (by simp), splitText_go_owed]
  simp [splitText]

theorem cuts_splitText (some : d ≠ []) (s : Bytes) : Cuts d s (splitText d s) := by
  cases found : find? d s with
  | none =>
    rw [splitText_of_none found]
    exact .last found
  | some i =>
    rw [splitText_of_some found some]
    exact .next found (cuts_splitText some _)
termination_by s.length
decreasing_by exact length_drop_find found some

end Value

namespace Native.Text

variable {d s : Bytes} {i : Nat}

theorem replaceAll_go_owed (d new : Bytes) (owed : Nat) (s : Bytes) :
    replaceAll.go d new owed s = replaceAll.go d new 0 (s.drop owed) := by
  induction owed generalizing s with
  | zero => rfl
  | succ owed ih =>
    cases s with
    | nil => rfl
    | cons b s => exact ih s

theorem replaceAll_go_pass (h : ∀ j < i, ¬ d <+: s.drop j) (new : Bytes) :
    replaceAll.go d new 0 s = s.take i ++ replaceAll.go d new 0 (s.drop i) := by
  induction i generalizing s with
  | zero => rfl
  | succ i ih =>
    cases s with
    | nil => rfl
    | cons b s =>
      have here : ¬ d.isPrefixOf (b :: s) = true := fun at_ =>
        h 0 (Nat.succ_pos i) (List.isPrefixOf_iff_prefix.1 at_)
      rw [replaceAll.go, if_neg here, ih fun j hj => h (j + 1) (Nat.succ_lt_succ hj)]
      rfl

theorem replaceAll_of_none (h : find? d s = none) (new : Bytes) : replaceAll d new s = s := by
  rw [replaceAll, replaceAll_go_pass (i := s.length) fun j _ => find?_none h j]
  simp [replaceAll.go]

theorem replaceAll_of_some (h : find? d s = some i) (some : d ≠ []) (new : Bytes) :
    replaceAll d new s = s.take i ++ new ++ replaceAll d new (s.drop (i + d.length)) := by
  obtain ⟨here, before⟩ := find?_some h
  obtain ⟨c, d, rfl⟩ := List.exists_cons_of_ne_nil some
  obtain ⟨rest, there⟩ := here
  rw [replaceAll, replaceAll_go_pass before, ← List.drop_drop, ← there, List.cons_append,
    replaceAll.go, if_pos (by simp), replaceAll_go_owed]
  simp [replaceAll]

theorem replaceAll_of_cuts {ps : List Bytes} (h : Cuts d s ps) (some : d ≠ []) (new : Bytes) :
    replaceAll d new s = new.intercalate ps := by
  induction h with
  | last none => rw [replaceAll_of_none none, List.intercalate_singleton]
  | next found later ih =>
    rw [replaceAll_of_some found some, ih, List.intercalate_cons_of_ne_nil later.ne_nil]

theorem replace_eq (t : Bytes) (old new : Value) (l : Location) (w : World)
    (some : w.heap.display old ≠ []) : replace (.text t) old new l w =
      (.ok (.text (replaceAll (w.heap.display old) (w.heap.display new) t)), w) := by
  have full : (w.heap.display old).isEmpty = false := by simpa using some
  change (_, w) = _
  rw [full]
  rfl

end Native.Text

namespace Value

/-- A text is split into parts that join to it. -/
theorem split_join_replace (h : Heap) (t : Bytes) (d : Value) (l : Location) :
    ∃ id heap ps, splitBy h (.text t) d l = .ok (.list id, heap) ∧
      (heap.items id).toList = ps.map .text ∧
      (h.display d ≠ [] → Cuts (h.display d) t ps ∧ (h.display d).intercalate ps = t ∧
        (∀ p ∈ ps, ¬ h.display d <:+: p) ∧
        ∀ (w : World) (old new : Value) (l' : Location), w.heap.display old = h.display d →
          Native.Text.replace (.text t) old new l' w =
            (.ok (.text ((w.heap.display new).intercalate ps)), w)) ∧
      (h.display d = [] → ps.flatten = t ∧ ∀ p ∈ ps, p ≠ []) := by
  obtain ⟨id, heap, made, items⟩ := Native.Text.items_newList h ((parts (h.display d) t).map .text)
  refine ⟨id, heap, parts (h.display d) t, congrArg Except.ok made, items, fun some => ?_,
    fun none => ?_⟩
  · have pieces : parts (h.display d) t = splitText (h.display d) t := by
      rw [parts, if_neg (by simpa using some)]
    have cut : Cuts (h.display d) t (parts (h.display d) t) := pieces ▸ cuts_splitText some t
    refine ⟨cut, cut.joined, fun p hp => cut.not_infix some hp, fun w old new l' same => ?_⟩
    rw [Native.Text.replace_eq _ _ _ _ _ (same ▸ some), same,
      Native.Text.replaceAll_of_cuts cut some]
  · have pieces : parts (h.display d) t = Utf8.characters t := by
      rw [parts, none]
      rfl
    rw [pieces]
    exact ⟨Utf8.flatten_characters t, fun p => Utf8.ne_nil_of_mem_characters⟩

theorem split_join_replace_overlapping :
    (∃ id heap, ∃ ps : List Bytes, splitBy {} (.text "aaa") (.text "aa") {} = .ok (.list id, heap) ∧
      (heap.items id).toList = ps.map .text ∧ Cuts "aa" "aaa" ps ∧
      Native.Text.replace (.text "aaa") (.text "aa") (.text "b") {} {} =
        (.ok (.text (List.intercalate "b" ps)), {})) ∧
    ∃ id heap, ∃ ps : List Bytes, splitBy {} (.text "né") (.text "") {} = .ok (.list id, heap) ∧
      (heap.items id).toList = ps.map .text ∧ ps.flatten = "né" ∧ ∀ p ∈ ps, p ≠ [] := by
  obtain ⟨id, heap, ps, split, items, cut, -⟩ := split_join_replace {} "aaa" (.text "aa") {}
  obtain ⟨id', heap', ps', split', items', -, joined⟩ := split_join_replace {} "né" (.text "") {}
  obtain ⟨cut, -, -, replaced⟩ := cut (by decide)
  exact ⟨⟨id, heap, ps, split, items, cut, replaced {} (.text "aa") (.text "b") {} rfl⟩,
    id', heap', ps', split', items', joined rfl⟩

end Value

end StepsLang
