import Mathlib.Data.List.Basic
import Mathlib.Data.List.TakeDrop
import StepsLang.Proofs.Text.Utf8

namespace StepsLang

theorem Byte.cases {P : UInt8 → Prop} (ofNat : ∀ n : Fin 256, P (UInt8.ofNat n)) (b : UInt8) :
    P b := by
  have here := ofNat ⟨b.toNat, b.toNat_lt⟩
  rwa [UInt8.ofNat_toNat] at here

theorem Bytes.find?_cases (needle s : Bytes) :
    find? needle s = none ∧ (∀ i, ¬ needle <+: s.drop i) ∨
      ∃ i, find? needle s = some i ∧ needle <+: s.drop i ∧ ∀ j < i, ¬ needle <+: s.drop j := by
  have from_ : ∀ k, find?.go needle k s = none ∧ (∀ i, ¬ needle <+: s.drop i) ∨
      ∃ i, find?.go needle k s = some (k + i) ∧ needle <+: s.drop i ∧
        ∀ j < i, ¬ needle <+: s.drop j := by
    induction s with
    | nil =>
      intro k
      cases needle with
      | nil => exact .inr ⟨0, rfl, List.nil_prefix, by simp⟩
      | cons b needle => exact .inl ⟨rfl, by simp⟩
    | cons b rest ih =>
      intro k
      simp only [find?.go]
      split
      · next here => exact .inr ⟨0, rfl, List.isPrefixOf_iff_prefix.1 here, by simp⟩
      · next other =>
        have here : ¬ needle <+: b :: rest := fun h => other (List.isPrefixOf_iff_prefix.2 h)
        rcases ih (k + 1) with ⟨none, later⟩ | ⟨i, found, there, before⟩
        · refine .inl ⟨none, fun i => ?_⟩
          cases i with
          | zero => exact here
          | succ i => exact later i
        · refine .inr ⟨i + 1, by rw [found]; congr 1; omega, there, fun j hj => ?_⟩
          cases j with
          | zero => exact here
          | succ j => exact before j (by omega)
  simpa [find?] using from_ 0

namespace Utf8

def encode (cs : List Char) : Bytes := cs.flatMap String.utf8EncodeChar

@[simp] theorem encode_nil : encode [] = [] := rfl

theorem encode_cons (c : Char) (cs : List Char) :
    encode (c :: cs) = String.utf8EncodeChar c ++ encode cs := List.flatMap_cons

theorem encode_append (cs ds : List Char) : encode (cs ++ ds) = encode cs ++ encode ds :=
  List.flatMap_append

theorem isContinuation_ofNat {n : Nat} (h : n < 256) :
    Byte.isContinuation (UInt8.ofNat n) = (decide (128 ≤ n) && decide (n < 192)) := by
  have all : ∀ n : Fin 256,
      Byte.isContinuation (UInt8.ofNat n) = (decide (128 ≤ n.val) && decide (n.val < 192)) := by
    decide +kernel
  exact all ⟨n, h⟩

theorem isContinuation_iff (b : UInt8) :
    Byte.isContinuation b = true ↔ 128 ≤ b.toNat ∧ b.toNat < 192 := by
  have here := isContinuation_ofNat b.toNat_lt
  rw [UInt8.ofNat_toNat] at here
  simp [here]

structure Glyph (g : Bytes) : Prop where
  starts : ∃ b rest, g = b :: rest ∧ Byte.isContinuation b = false ∧
    ∀ c ∈ rest, Byte.isContinuation c = true

theorem glyph_encodeChar (c : Char) : Glyph (String.utf8EncodeChar c) := by
  have first : ∀ n, n < 128 ∨ 192 ≤ n → n < 256 → Byte.isContinuation (UInt8.ofNat n) = false := by
    intro n outside small
    rw [isContinuation_ofNat small]
    simp only [Bool.and_eq_false_iff, decide_eq_false_iff_not]
    omega
  have more : ∀ n, n < 64 → Byte.isContinuation (UInt8.ofNat (n + 128)) = true := by
    intro n small
    rw [isContinuation_ofNat (by omega)]
    simp only [Bool.and_eq_true, decide_eq_true_eq]
    omega
  simp only [String.utf8EncodeChar]
  split
  · exact ⟨_, [], rfl, first _ (by omega) (by omega), by simp⟩
  · split
    · refine ⟨_, _, rfl, first _ (by omega) (by omega), ?_⟩
      simp only [List.forall_mem_cons, List.not_mem_nil, false_implies, implies_true, and_true]
      exact more _ (by omega)
    · split
      · refine ⟨_, _, rfl, first _ (by omega) (by omega), ?_⟩
        simp only [List.forall_mem_cons, List.not_mem_nil, false_implies, implies_true, and_true]
        exact ⟨more _ (by omega), more _ (by omega)⟩
      · refine ⟨_, _, rfl, first _ (by omega) (by omega), ?_⟩
        simp only [List.forall_mem_cons, List.not_mem_nil, false_implies, implies_true, and_true]
        exact ⟨more _ (by omega), more _ (by omega), more _ (by omega)⟩

theorem shape?_cases {b : UInt8} {n : Nat} {low high : UInt8} (h : shape? b = some (n, low, high)) :
    n = 1 ∧ b.toNat < 128 ∨
      n = 2 ∧ 194 ≤ b.toNat ∧ b.toNat < 224 ∧ low.toNat = 128 ∧ high.toNat = 191 ∨
      n = 3 ∧ 224 ≤ b.toNat ∧ b.toNat < 240 ∧ low.toNat = (if b.toNat = 224 then 160 else 128) ∧
        high.toNat = (if b.toNat = 237 then 159 else 191) ∨
      n = 4 ∧ 240 ≤ b.toNat ∧ b.toNat < 245 ∧ low.toNat = (if b.toNat = 240 then 144 else 128) ∧
        high.toNat = (if b.toNat = 244 then 143 else 191) := by
  have here : (shape? b).all (fun s =>
      s.1 = 1 ∧ b.toNat < 128 ∨
        s.1 = 2 ∧ 194 ≤ b.toNat ∧ b.toNat < 224 ∧ s.2.1.toNat = 128 ∧ s.2.2.toNat = 191 ∨
        s.1 = 3 ∧ 224 ≤ b.toNat ∧ b.toNat < 240 ∧
          s.2.1.toNat = (if b.toNat = 224 then 160 else 128) ∧
          s.2.2.toNat = (if b.toNat = 237 then 159 else 191) ∨
        s.1 = 4 ∧ 240 ≤ b.toNat ∧ b.toNat < 245 ∧
          s.2.1.toNat = (if b.toNat = 240 then 144 else 128) ∧
          s.2.2.toNat = (if b.toNat = 244 then 143 else 191)) = true := by
    clear h
    induction b using Byte.cases with
    | ofNat b =>
      revert b
      decide +kernel
  rw [h] at here
  simpa using here

theorem exists_char {n : Nat} (valid : n.isValidChar) : ∃ c : Char, c.val.toNat = n :=
  ⟨Char.ofNatAux n valid, rfl⟩

theorem encodeChar_one {x : Nat} (hx : x < 128) :
    ∃ c, String.utf8EncodeChar c = [UInt8.ofNat x] := by
  have valid : x.isValidChar := .inl (by omega)
  obtain ⟨c, value⟩ := exists_char valid
  refine ⟨c, ?_⟩
  simp only [String.utf8EncodeChar, value]
  rw [if_pos (by omega)]

theorem encodeChar_two {x y : Nat} (hx : 2 ≤ x ∧ x < 32) (hy : y < 64) :
    ∃ c, String.utf8EncodeChar c = [UInt8.ofNat (x + 192), UInt8.ofNat (y + 128)] := by
  have valid : (x * 64 + y).isValidChar := .inl (by omega)
  obtain ⟨c, value⟩ := exists_char valid
  refine ⟨c, ?_⟩
  have first : (x * 64 + y) / 64 % 32 = x := by omega
  have second : (x * 64 + y) % 64 = y := by omega
  simp only [String.utf8EncodeChar, value, first, second]
  rw [if_neg (by omega), if_pos (by omega)]

theorem encodeChar_three {x y z : Nat} (hx : x < 16) (hy : y < 64) (hz : z < 64)
    (low : x = 0 → 32 ≤ y) (high : x = 13 → y < 32) :
    ∃ c, String.utf8EncodeChar c =
      [UInt8.ofNat (x + 224), UInt8.ofNat (y + 128), UInt8.ofNat (z + 128)] := by
  have valid : (x * 4096 + y * 64 + z).isValidChar := by
    unfold Nat.isValidChar
    omega
  obtain ⟨c, value⟩ := exists_char valid
  refine ⟨c, ?_⟩
  have first : (x * 4096 + y * 64 + z) / 4096 % 16 = x := by omega
  have second : (x * 4096 + y * 64 + z) / 64 % 64 = y := by omega
  have third : (x * 4096 + y * 64 + z) % 64 = z := by omega
  simp only [String.utf8EncodeChar, value, first, second, third]
  rw [if_neg (by omega), if_neg (by omega), if_pos (by omega)]

theorem encodeChar_four {x y z w : Nat} (hx : x < 5) (hy : y < 64) (hz : z < 64) (hw : w < 64)
    (low : x = 0 → 16 ≤ y) (high : x = 4 → y < 16) :
    ∃ c, String.utf8EncodeChar c =
      [UInt8.ofNat (x + 240), UInt8.ofNat (y + 128), UInt8.ofNat (z + 128),
        UInt8.ofNat (w + 128)] := by
  have valid : (x * 262144 + y * 4096 + z * 64 + w).isValidChar := .inr (by omega)
  obtain ⟨c, value⟩ := exists_char valid
  refine ⟨c, ?_⟩
  have first : (x * 262144 + y * 4096 + z * 64 + w) / 262144 % 8 = x := by omega
  have second : (x * 262144 + y * 4096 + z * 64 + w) / 4096 % 64 = y := by omega
  have third : (x * 262144 + y * 4096 + z * 64 + w) / 64 % 64 = z := by omega
  have fourth : (x * 262144 + y * 4096 + z * 64 + w) % 64 = w := by omega
  simp only [String.utf8EncodeChar, value, first, second, third, fourth]
  rw [if_neg (by omega), if_neg (by omega), if_neg (by omega)]

theorem Tail.bytes {n : Nat} {low high : UInt8} {rest : Bytes} (h : Tail n low high rest)
    (len : rest.length + 1 = n) : ∃ c more, rest = c :: more ∧ low.toNat ≤ c.toNat ∧
      c.toNat ≤ high.toNat ∧ more.length + 2 = n ∧ ∀ d ∈ more, 128 ≤ d.toNat ∧ d.toNat < 192 := by
  obtain ⟨c, more, rfl, above, below, long, all⟩ := h
  rw [List.length_cons] at len
  refine ⟨c, more, rfl, UInt8.le_iff_toNat_le.1 above, UInt8.le_iff_toNat_le.1 below, by omega, ?_⟩
  rw [List.take_of_length_le (by omega), List.all_eq_true] at all
  exact fun d hd => (isContinuation_iff d).1 (all d hd)

theorem exists_ofNat_add {b : UInt8} {k : Nat} (h : k ≤ b.toNat) :
    ∃ x, b.toNat = x + k ∧ b = UInt8.ofNat (x + k) :=
  ⟨b.toNat - k, by omega, by rw [Nat.sub_add_cancel h, UInt8.ofNat_toNat]⟩

theorem exists_encodeChar {g : Bytes} (h : sequence? g = some g.length) :
    ∃ c, String.utf8EncodeChar c = g := by
  cases g with
  | nil => cases h
  | cons b rest =>
    obtain ⟨low, high, shape, tail⟩ := sequence?_cons.1 h
    rw [List.length_cons] at shape tail
    rcases shape?_cases shape with ⟨len, small⟩ | long
    · obtain rfl : rest = [] := List.length_eq_zero_iff.1 (by omega)
      have one := encodeChar_one small
      rwa [UInt8.ofNat_toNat] at one
    · obtain ⟨c, more, rfl, above, below, len, conts⟩ := (tail.resolve_left (by omega)).bytes rfl
      rw [List.length_cons] at long
      rcases long with ⟨two, hb, hb', hl, hh⟩ | ⟨three, hb, hb', hl, hh⟩ | ⟨four, hb, hb', hl, hh⟩
      · obtain rfl : more = [] := List.length_eq_zero_iff.1 (by omega)
        rw [hl] at above
        rw [hh] at below
        obtain ⟨x, hx, rfl⟩ := exists_ofNat_add (k := 192) (Nat.le_trans (by decide) hb)
        obtain ⟨y, hy, rfl⟩ := exists_ofNat_add above
        exact encodeChar_two ⟨by omega, by omega⟩ (by omega)
      · obtain ⟨d, rfl⟩ := List.length_eq_one_iff.1 (show more.length = 1 by omega)
        have hd := conts d (by simp)
        have hc : 128 ≤ c.toNat ∧ c.toNat < 192 := by
          split at hl <;> split at hh <;> omega
        obtain ⟨x, hx, rfl⟩ := exists_ofNat_add hb
        obtain ⟨y, hy, rfl⟩ := exists_ofNat_add hc.1
        obtain ⟨z, hz, rfl⟩ := exists_ofNat_add hd.1
        refine encodeChar_three (by omega) (by omega) (by omega) (fun none => ?_) (fun last => ?_)
        · rw [if_pos (by omega)] at hl
          omega
        · rw [if_pos (by omega)] at hh
          omega
      · obtain ⟨d, e, rfl⟩ := List.length_eq_two.1 (show more.length = 2 by omega)
        have hd := conts d (by simp)
        have he := conts e (by simp)
        have hc : 128 ≤ c.toNat ∧ c.toNat < 192 := by
          split at hl <;> split at hh <;> omega
        obtain ⟨x, hx, rfl⟩ := exists_ofNat_add hb
        obtain ⟨y, hy, rfl⟩ := exists_ofNat_add hc.1
        obtain ⟨z, hz, rfl⟩ := exists_ofNat_add hd.1
        obtain ⟨w, hw, rfl⟩ := exists_ofNat_add he.1
        refine encodeChar_four (by omega) (by omega) (by omega) (by omega) (fun none => ?_)
          (fun last => ?_)
        · rw [if_pos (by omega)] at hl
          omega
        · rw [if_pos (by omega)] at hh
          omega

theorem WellFormed.exists_encode {s : Bytes} (h : WellFormed s) : ∃ cs, s = encode cs := by
  induction h with
  | nil => exact ⟨[], rfl⟩
  | character hc _ ih =>
    obtain ⟨cs, rfl⟩ := ih
    obtain ⟨c, rfl⟩ := exists_encodeChar hc
    exact ⟨c :: cs, (encode_cons c cs).symm⟩

def glyphs (cs : List Char) : List Bytes := cs.map String.utf8EncodeChar

theorem glyph_of_mem {cs : List Char} {g : Bytes} (h : g ∈ glyphs cs) : Glyph g := by
  obtain ⟨c, -, rfl⟩ := List.mem_map.1 h
  exact glyph_encodeChar c

theorem length_append (s t : Bytes) : length (s ++ t) = length s + length t :=
  List.countP_append

theorem Glyph.length {g : Bytes} (h : Glyph g) : length g = 1 := by
  obtain ⟨b, rest, rfl, first, more⟩ := h.starts
  have none : rest.countP (fun b => !Byte.isContinuation b) = 0 :=
    List.countP_eq_zero.2 fun c hc => by simp [more c hc]
  simp [Utf8.length, first, none]

@[simp] theorem length_encode (cs : List Char) : length (encode cs) = cs.length := by
  induction cs with
  | nil => rfl
  | cons c cs ih =>
    rw [encode_cons, length_append, ih, (glyph_encodeChar c).length, List.length_cons, Nat.add_comm]

theorem foldr_put (b : UInt8) {rest : Bytes} {gs : List Bytes}
    (all : ∀ c ∈ rest, Byte.isContinuation c = true) (apart : ∀ g ∈ gs.head?, Glyph g) :
    (b :: rest).foldr characters.put gs = (b :: rest) :: gs := by
  induction rest generalizing b with
  | nil =>
    cases gs with
    | nil => rfl
    | cons g gs =>
      obtain ⟨c, more, rfl, first, -⟩ := (apart g rfl).starts
      simp [characters.put, first]
  | cons c rest ih =>
    obtain ⟨here, later⟩ := List.forall_mem_cons.1 all
    rw [List.foldr_cons, ih c later]
    simp [characters.put, here]

theorem characters_encode (cs : List Char) : characters (encode cs) = glyphs cs := by
  induction cs with
  | nil => rfl
  | cons c cs ih =>
    have apart : ∀ g ∈ (glyphs cs).head?, Glyph g := fun g hg => glyph_of_mem (List.mem_of_head? hg)
    obtain ⟨b, rest, whole, -, more⟩ := (glyph_encodeChar c).starts
    rw [characters] at ih ⊢
    rw [encode_cons, List.foldr_append, ih, whole, foldr_put b more apart, ← whole]
    rfl

theorem Glyph.offset_zero {g : Bytes} (h : Glyph g) (s : Bytes) : offset (g ++ s) 0 = 0 := by
  obtain ⟨b, rest, rfl, first, -⟩ := h.starts
  simp [offset, first]

theorem offset_conts {rest : Bytes} (all : ∀ c ∈ rest, Byte.isContinuation c = true) (s : Bytes)
    (n : Nat) : offset (rest ++ s) n = offset s n + rest.length := by
  induction rest with
  | nil => rfl
  | cons c rest ih =>
    obtain ⟨here, later⟩ := List.forall_mem_cons.1 all
    rw [List.cons_append, offset.eq_def]
    simp only [here, if_true, ih later, List.length_cons]
    omega

theorem Glyph.offset_succ {g : Bytes} (h : Glyph g) (s : Bytes) (n : Nat) :
    offset (g ++ s) (n + 1) = g.length + offset s n := by
  obtain ⟨b, rest, rfl, first, more⟩ := h.starts
  simp only [List.cons_append, offset, first, Bool.false_eq_true, if_false, offset_conts more,
    List.length_cons]
  omega

theorem offset_encode (cs : List Char) (n : Nat) :
    offset (encode cs) n = (encode (cs.take n)).length := by
  induction cs generalizing n with
  | nil => cases n <;> rfl
  | cons c cs ih =>
    cases n with
    | zero => exact (glyph_encodeChar c).offset_zero _
    | succ n =>
      rw [encode_cons, (glyph_encodeChar c).offset_succ, ih, List.take_succ_cons, encode_cons,
        List.length_append]

theorem take_offset (cs : List Char) (n : Nat) :
    (encode cs).take (offset (encode cs) n) = encode (cs.take n) := by
  have split : encode cs = encode (cs.take n) ++ encode (cs.drop n) := by
    rw [← encode_append, List.take_append_drop]
  rw [offset_encode, split, List.take_left]

theorem drop_offset (cs : List Char) (n : Nat) :
    (encode cs).drop (offset (encode cs) n) = encode (cs.drop n) := by
  have split : encode cs = encode (cs.take n) ++ encode (cs.drop n) := by
    rw [← encode_append, List.take_append_drop]
  rw [offset_encode, split, List.drop_left]

theorem encode_between (cs : List Char) {i j : Nat} (h : i ≤ j) :
    ((encode cs).take (offset (encode cs) j)).drop (offset (encode cs) i) =
      encode ((cs.take j).drop i) := by
  have same : offset (encode cs) i = offset (encode (cs.take j)) i := by
    rw [offset_encode, offset_encode, List.take_take, Nat.min_eq_left h]
  rw [take_offset, same, drop_offset]

theorem length_le_encode (cs : List Char) : cs.length ≤ (encode cs).length := by
  have count := List.countP_le_length (p := fun b => !Byte.isContinuation b) (l := encode cs)
  rwa [← Utf8.length, length_encode] at count

theorem offset_lt {cs : List Char} {j k : Nat} (h : j < k) (hk : k ≤ cs.length) :
    offset (encode cs) j < offset (encode cs) k := by
  have split : encode (cs.take k) = encode (cs.take j) ++ encode ((cs.take k).drop j) := by
    rw [← encode_append]
    have first : cs.take j = (cs.take k).take j := by
      rw [List.take_take, Nat.min_eq_left (Nat.le_of_lt h)]
    rw [first, List.take_append_drop]
  have some := length_le_encode ((cs.take k).drop j)
  rw [List.length_drop, List.length_take, Nat.min_eq_left hk] at some
  rw [offset_encode, offset_encode, split, List.length_append]
  omega

theorem encode_prefix {ss cs : List Char} : encode ss <+: encode cs ↔ ss <+: cs := by
  constructor
  · rintro ⟨rest, whole⟩
    refine List.isPrefix_of_utf8Encode_append_eq_utf8Encode rest.toByteArray ?_
    rw [List.utf8Encode, List.utf8Encode, ← List.toByteArray_append]
    exact congrArg List.toByteArray whole
  · rintro ⟨rest, rfl⟩
    exact ⟨encode rest, (encode_append ss rest).symm⟩

theorem exists_offset {cs : List Char} {i : Nat} {b : UInt8} {rest : Bytes}
    (here : (encode cs).drop i = b :: rest) (starts : Byte.isContinuation b = false) :
    ∃ k, k ≤ cs.length ∧ i = offset (encode cs) k := by
  induction cs generalizing i with
  | nil => simp at here
  | cons c cs ih =>
    rw [encode_cons] at here
    rcases Nat.lt_or_ge i (String.utf8EncodeChar c).length with within | beyond
    · -- Of the bytes of a character only the first one starts it.
      refine ⟨0, Nat.zero_le _, ?_⟩
      obtain ⟨d, more, whole, -, conts⟩ := (glyph_encodeChar c).starts
      rw [offset_encode, List.take_zero, encode_nil, List.length_nil]
      cases i with
      | zero => rfl
      | succ i =>
        rw [whole] at within here
        rw [List.cons_append, List.drop_succ_cons, List.drop_append_of_le_length
          (by simpa using Nat.le_of_lt within)] at here
        cases split : more.drop i with
        | nil =>
          rw [List.length_cons] at within
          exact absurd (List.drop_eq_nil_iff.1 split) (by omega)
        | cons e later =>
          rw [split] at here
          obtain ⟨rfl, -⟩ := List.cons.inj here
          have conts := conts e (List.mem_of_mem_drop (split ▸ List.mem_cons_self))
          rw [starts] at conts
          cases conts
    · obtain ⟨n, rfl⟩ := Nat.exists_eq_add_of_le beyond
      rw [List.drop_length_add_append] at here
      obtain ⟨k, hk, rfl⟩ := ih here
      refine ⟨k + 1, Nat.succ_le_succ hk, ?_⟩
      rw [encode_cons, (glyph_encodeChar c).offset_succ]

theorem find?_encode (ss cs : List Char) :
    Bytes.find? (encode ss) (encode cs) = none ∧ (∀ k, ¬ ss <+: cs.drop k) ∨
      ∃ k, k ≤ cs.length ∧ Bytes.find? (encode ss) (encode cs) = some (offset (encode cs) k) ∧
        ss <+: cs.drop k ∧ ∀ j < k, ¬ ss <+: cs.drop j := by
  have stands : ∀ k, encode ss <+: (encode cs).drop (offset (encode cs) k) ↔ ss <+: cs.drop k := by
    intro k
    rw [drop_offset, encode_prefix]
  rcases Bytes.find?_cases (encode ss) (encode cs) with ⟨none, nowhere⟩ | ⟨i, found, here, before⟩
  · exact .inl ⟨none, fun k there => nowhere _ ((stands k).2 there)⟩
  · have place : ∃ k, k ≤ cs.length ∧ i = offset (encode cs) k := by
      cases ss with
      | nil =>
        refine ⟨0, Nat.zero_le _, ?_⟩
        rw [offset_encode, List.take_zero]
        exact Nat.eq_zero_of_not_pos fun pos => before 0 pos List.nil_prefix
      | cons c ss =>
        obtain ⟨b, rest, whole, first, -⟩ := (glyph_encodeChar c).starts
        obtain ⟨more, there⟩ := here
        rw [encode_cons, whole] at there
        exact exists_offset there.symm first
    obtain ⟨k, hk, rfl⟩ := place
    refine .inr ⟨k, hk, found, (stands k).1 here, fun j hj there => ?_⟩
    exact before _ (offset_lt hj hk) ((stands j).2 there)

end Utf8

end StepsLang
