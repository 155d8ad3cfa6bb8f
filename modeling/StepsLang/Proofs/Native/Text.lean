import StepsLang.Native.Text
import StepsLang.Proofs.Number.Position
import StepsLang.Proofs.Text.Character

namespace StepsLang.Native.Text
open Utf8

/-- The place between two of `n` characters that a number means: a number below zero counts from the
end, and what is not a number is lower than all others. -/
def place (n : Nat) (x : Number) : Nat :=
  if x.isNaN then 0
  else if x.isFinite then
    min n (if x.truncate < 0 then (n + x.truncate).toNat else x.truncate.toNat)
  else if x.isNegative then 0 else n

/-- The operations on the text `t` are those on the characters `cs`. -/
structure OnCharacters (t : Bytes) (cs : List Char) : Prop where
  lengthOf (h : Heap) (l : Location) :
    ∃ n, Value.lengthOf h (.text t) l = .ok (.number n) ∧ n.Is cs.length
  characters (l : Location) (w : World) :
    ∃ id heap, Text.characters (.text t) l w = (.ok (.list id), { w with heap }) ∧
      (heap.items id).toList = cs.map fun c => .text (encode [c])
  splitBy (h : Heap) (l : Location) :
    ∃ id heap, Value.splitBy h (.text t) (.text []) l = .ok (.list id, heap) ∧
      (heap.items id).toList = cs.map fun c => .text (encode [c])
  characterAt (i : Number) (l : Location) :
    (∃ k c, i.CutsTo (k : Nat) ∧ cs[k]? = some c ∧
        Value.characterAt (.number i) (.text t) l = .ok (.text (encode [c]))) ∨
      (∀ k : Nat, k < cs.length → ¬ i.CutsTo k) ∧
        ∃ r, Value.characterAt (.number i) (.text t) l = .error r ∧ r.code = "E407"
  slice (a b : Number) (l : Location) (w : World) :
    Text.slice (.text t) (.number a) (.number b) l w =
      (.ok (.text (encode ((cs.take (place cs.length b)).drop (place cs.length a)))), w)

inductive Finds (t s : Bytes) (cs ss : List Char) : Prop
  | at_ (k : Nat) (here : ss <+: cs.drop k) (first : ∀ j < k, ¬ ss <+: cs.drop j)
    (indexOf : ∀ l w, ∃ n, Text.indexOf (.text t) (.text s) l w = (.ok (.number n), w) ∧
      n.Is (k : Nat) ∧ ∀ b : Number, b.CutsTo (k + ss.length : Nat) →
        Text.slice (.text t) (.number n) (.number b) l w = (.ok (.text s), w))
    (contains : ∀ h l, Value.contains h (.text t) (.text s) l = .ok (.boolean true))
  | nowhere (absent : ∀ k, ¬ ss <+: cs.drop k)
    (indexOf : ∀ l w, ∃ n, Text.indexOf (.text t) (.text s) l w = (.ok (.number n), w) ∧ n.Is (-1))
    (contains : ∀ h l, Value.contains h (.text t) (.text s) l = .ok (.boolean false))

variable {cs ss : List Char}

theorem clamp_eq {n : Nat} (h : n < 2 ^ 53) (x : Number) : clamp n x = place n x := by
  cases number : x.isNaN with
  | true =>
    simp only [clamp, place, number, Number.toIndex_nan number, if_true]
    rw [if_pos (by omega)]
    omega
  | false =>
    cases finite : x.isFinite with
    | true =>
      have index := Number.toIndex_finite finite
      simp only [clamp, place, number, finite, Bool.false_eq_true, if_false, if_true]
      split <;> split <;> omega
    | false =>
      simp only [clamp, place, number, finite, Number.toIndex_infinite finite number,
        Bool.false_eq_true, if_false]
      cases x.isNegative with
      | true =>
        simp only [if_true]
        rw [if_pos (by omega)]
        omega
      | false =>
        simp only [Bool.false_eq_true, if_false]
        rw [if_neg (by omega)]
        omega

theorem place_of_cutsTo {n k : Nat} {x : Number} (h : x.CutsTo k) (hk : k ≤ n) : place n x = k := by
  have positive : ¬ (k : Int) < 0 := by omega
  simp only [place, Number.isNaN_of_isFinite h.finite, h.finite, h.truncate, positive,
    Bool.false_eq_true, if_false, if_true]
  omega

theorem slice_eq (t : Bytes) (a b : Number) (l : Location) (w : World) :
    slice (.text t) (.number a) (.number b) l w = (.ok (.text (between t a b)), w) := rfl

theorem indexOf_eq (t s : Bytes) (l : Location) (w : World) :
    indexOf (.text t) (.text s) l w = (.ok (.number (position s t)), w) := rfl

theorem characters_eq (t : Bytes) (l : Location) (w : World) :
    characters (.text t) l w =
      let made := w.heap.newList ((Utf8.characters t).map .text).toArray
      (.ok made.1, { w with heap := made.2 }) := rfl

theorem between_encode (short : cs.length < 2 ^ 53) (a b : Number) :
    between (encode cs) a b =
      encode ((cs.take (place cs.length b)).drop (place cs.length a)) := by
  simp only [between, length_encode, clamp_eq short]
  split
  · next empty =>
    rw [List.drop_of_length_le, encode_nil]
    exact Nat.le_trans (List.length_take_le _ _) empty
  · next some => exact encode_between cs (Nat.le_of_lt (Nat.not_le.1 some))

theorem items_newList (h : Heap) (items : List Value) :
    ∃ id heap, h.newList items.toArray = (.list id, heap) ∧ (heap.items id).toList = items :=
  ⟨_, _, rfl, by simp [Heap.items]⟩

theorem texts_characters (cs : List Char) :
    (Utf8.characters (encode cs)).map Value.text = cs.map fun c => .text (encode [c]) := by
  rw [characters_encode]
  simp [glyphs, encode]

theorem outOfBounds_code (container empty : Bytes) (index : Int) (length : Nat) (l : Location) :
    (Heap.outOfBounds container empty index length l).code = "E407" := by
  unfold Heap.outOfBounds
  dsimp only
  split <;> rfl

theorem characterAt_encode (short : cs.length < 2 ^ 53) (i : Number) (l : Location) :
    (∃ k c, i.CutsTo (k : Nat) ∧ cs[k]? = some c ∧
        Value.characterAt (.number i) (.text (encode cs)) l = .ok (.text (encode [c]))) ∨
      (∀ k : Nat, k < cs.length → ¬ i.CutsTo k) ∧
        ∃ r, Value.characterAt (.number i) (.text (encode cs)) l = .error r ∧ r.code = "E407" := by
  have count : (glyphs cs).length = cs.length := List.length_map _
  simp only [Value.characterAt, characters_encode, count, Heap.position?]
  by_cases inside : 0 ≤ i.toIndex ∧ i.toIndex < cs.length
  · have small : i.toIndex.toNat < cs.length := by omega
    have cut : i.CutsTo i.toIndex.toNat := (Number.toIndex_eq_iff (by omega)).1 (by omega)
    refine .inl ⟨i.toIndex.toNat, cs[i.toIndex.toNat], cut, List.getElem?_eq_getElem small, ?_⟩
    simp [inside, glyphs, small, encode]
  · refine .inr ⟨fun k hk cut => inside ?_, ?_⟩
    · have index := (Number.toIndex_eq_iff (by omega)).2 cut
      omega
    · rw [if_neg inside]
      exact ⟨_, rfl, outOfBounds_code _ _ _ _ _⟩

theorem onCharacters_encode (short : cs.length < 2 ^ 53) : OnCharacters (encode cs) cs where
  lengthOf h l := by
    refine ⟨_, rfl, ?_⟩
    rw [length_encode]
    exact Number.ofNat_is short
  characters l w := by
    obtain ⟨id, heap, made, items⟩ := items_newList w.heap ((Utf8.characters (encode cs)).map .text)
    exact ⟨id, heap, by rw [characters_eq, made], items.trans (texts_characters cs)⟩
  splitBy h l := by
    obtain ⟨id, heap, made, items⟩ := items_newList h ((Utf8.characters (encode cs)).map .text)
    exact ⟨id, heap, congrArg Except.ok made, items.trans (texts_characters cs)⟩
  characterAt := characterAt_encode short
  slice a b l w := by rw [slice_eq, between_encode short]

theorem finds_encode (short : cs.length < 2 ^ 53) (ss : List Char) :
    Finds (encode cs) (encode ss) cs ss := by
  have contains : ∀ h l, Value.contains h (.text (encode cs)) (.text (encode ss)) l =
      .ok (.boolean (Bytes.find? (encode ss) (encode cs)).isSome) := fun _ _ => rfl
  rcases find?_encode ss cs with ⟨none, absent⟩ | ⟨k, hk, found, here, first⟩
  · refine .nowhere absent (fun l w => ⟨_, indexOf_eq _ _ _ _, ?_⟩) fun h l => ?_
    · rw [position, none]
      exact Number.ofInt_minusOne
    · rw [contains, none]
      rfl
  · have long : k + ss.length ≤ cs.length := by
      have within := here.length_le
      rw [List.length_drop] at within
      omega
    have at_ : (position (encode ss) (encode cs)).Is (k : Nat) := by
      rw [position, found]
      simp only [take_offset, length_encode, List.length_take, Nat.min_eq_left hk]
      exact Number.ofNat_is (Nat.lt_of_le_of_lt hk short)
    have cut : (cs.take (k + ss.length)).drop k = ss := by
      rw [List.drop_take, Nat.add_sub_cancel_left]
      exact (List.prefix_iff_eq_take.1 here).symm
    refine .at_ k here first (fun l w => ⟨_, indexOf_eq _ _ _ _, at_, fun b hb => ?_⟩) fun h l => ?_
    · rw [slice_eq, between_encode short, place_of_cutsTo at_.cutsTo hk,
        place_of_cutsTo hb long, cut]
    · rw [contains, found]
      rfl

/-- Every well-formed text of fewer than 2^53 characters is taken by its characters, and another one
is found in it by its characters. -/
theorem operations_by_character (t s : Bytes) (ht : isValid t = true) (hs : isValid s = true) :
    ∃ cs ss, t = encode cs ∧ s = encode ss ∧
      (cs.length < 2 ^ 53 → OnCharacters t cs ∧ Finds t s cs ss) := by
  obtain ⟨cs, rfl⟩ := (isValid_iff.1 ht).exists_encode
  obtain ⟨ss, rfl⟩ := (isValid_iff.1 hs).exists_encode
  exact ⟨cs, ss, rfl, rfl, fun short => ⟨onCharacters_encode short, finds_encode short ss⟩⟩

theorem operations_by_character_accent :
    isValid "né" = true ∧ isValid "é" = true ∧
      ∃ cs ss, ("né" : Bytes) = encode cs ∧ ("é" : Bytes) = encode ss ∧
        OnCharacters "né" cs ∧ Finds "né" "é" cs ss := by
  have valid : isValid "né" = true ∧ isValid "é" = true := by decide
  obtain ⟨cs, ss, ht, hs, here⟩ := operations_by_character "né" "é" valid.1 valid.2
  have count : cs.length = 2 := by
    rw [← length_encode, ← ht]
    decide
  exact ⟨valid.1, valid.2, cs, ss, ht, hs, here (by omega)⟩

end StepsLang.Native.Text
