import Mathlib.Data.List.DropRight
import StepsLang.Proofs.Text.Character

namespace StepsLang.Utf8

variable {s rest : Bytes} {cs : List Char}

theorem shape?_eq (b : UInt8) :
    (b.toNat < 128 → shape? b = some (1, 0x80, 0xBF)) ∧
    (194 ≤ b.toNat ∧ b.toNat < 224 → shape? b = some (2, 0x80, 0xBF)) ∧
    (224 ≤ b.toNat ∧ b.toNat < 240 → shape? b = some (3,
      if b.toNat = 224 then 0xA0 else 0x80, if b.toNat = 237 then 0x9F else 0xBF)) ∧
    (240 ≤ b.toNat ∧ b.toNat < 245 → shape? b = some (4,
      if b.toNat = 240 then 0x90 else 0x80, if b.toNat = 244 then 0x8F else 0xBF)) := by
  refine ⟨?_, ?_, ?_, ?_⟩ <;>
  · induction b using Byte.cases with
    | ofNat b =>
      revert b
      decide +kernel

theorem isContinuation_add {k : Nat} (small : k < 64) :
    Byte.isContinuation (UInt8.ofNat (k + 128)) = true := by
  rw [isContinuation_ofNat (by omega)]
  simp only [Bool.and_eq_true, decide_eq_true_eq]
  omega

theorem tail_of {n k : Nat} {low high : UInt8} {more : Bytes} (small : k < 64)
    (above : low.toNat ≤ k + 128) (below : k + 128 ≤ high.toNat) (long : more.length + 2 = n)
    (conts : ∀ b ∈ more, Byte.isContinuation b = true) :
    Tail n low high (UInt8.ofNat (k + 128) :: more) := by
  have fits : k + 128 < UInt8.size := Nat.lt_trans (Nat.add_lt_add_right small 128) (by decide)
  have value : (UInt8.ofNat (k + 128)).toNat = k + 128 := UInt8.toNat_ofNat_of_lt' fits
  refine ⟨_, more, rfl, ?_, ?_, by omega, ?_⟩
  · rwa [UInt8.le_iff_toNat_le, value]
  · rwa [UInt8.le_iff_toNat_le, value]
  · rw [List.take_of_length_le (by omega)]
    exact List.all_eq_true.2 conts

theorem sequence?_encodeChar (c : Char) :
    sequence? (String.utf8EncodeChar c) = some (String.utf8EncodeChar c).length := by
  have valid : c.val.toNat < 0xD800 ∨ 0xDFFF < c.val.toNat ∧ c.val.toNat < 0x110000 := c.valid
  simp only [String.utf8EncodeChar]
  generalize c.val.toNat = v at *
  have first {n : Nat} (h : n < 256) : (UInt8.ofNat n).toNat = n := UInt8.toNat_ofNat_of_lt' h
  have last {k : Nat} : Byte.isContinuation (UInt8.ofNat (k % 64 + 128)) = true :=
    isContinuation_add (Nat.mod_lt k (by decide))
  split
  · next small =>
    have shape := (shape?_eq (UInt8.ofNat v)).1
    rw [first (by omega)] at shape
    exact sequence?_cons.2 ⟨_, _, shape (by omega), .inl rfl⟩
  split
  · next two =>
    have shape := (shape?_eq (UInt8.ofNat (v / 64 % 32 + 192))).2.1
    rw [first (by omega)] at shape
    refine sequence?_cons.2 ⟨_, _, shape (by omega), .inr ?_⟩
    exact tail_of (by omega) (Nat.le_add_left _ _) (by simp; omega) rfl (by simp)
  split
  · next three =>
    have shape := (shape?_eq (UInt8.ofNat (v / 4096 % 16 + 224))).2.2.1
    rw [first (by omega)] at shape
    refine sequence?_cons.2 ⟨_, _, shape (by omega), .inr ?_⟩
    refine tail_of (by omega) ?_ ?_ rfl (List.forall_mem_singleton.2 last)
    · split
      · simp
        omega
      · simp
    · split <;> simp <;> omega
  · next four =>
    have shape := (shape?_eq (UInt8.ofNat (v / 262144 % 8 + 240))).2.2.2
    rw [first (by omega)] at shape
    refine sequence?_cons.2 ⟨_, _, shape (by omega), .inr ?_⟩
    refine tail_of (by omega) ?_ ?_ rfl
      (List.forall_mem_cons.2 ⟨last, List.forall_mem_singleton.2 last⟩)
    · split
      · simp
        omega
      · simp
    · split <;> simp <;> omega

theorem exists_stop (s : Bytes) : ∃ cs rest, s = encode cs ++ rest ∧ sequence? rest = none := by
  cases found : sequence? s with
  | none => exact ⟨[], s, rfl, found⟩
  | some n =>
    have ⟨pos, fits⟩ := sequence?_bounds found
    have whole : sequence? (s.take n) = some (s.take n).length := by
      rw [sequence?_take found, List.length_take, Nat.min_eq_left fits]
    obtain ⟨c, spelled⟩ := exists_encodeChar whole
    have _ : (s.drop n).length < s.length := by
      rw [List.length_drop]
      omega
    obtain ⟨cs, rest, behind, stop⟩ := exists_stop (s.drop n)
    refine ⟨c :: cs, rest, ?_, stop⟩
    rw [encode_cons, List.append_assoc, ← behind, spelled, List.take_append_drop]
termination_by s.length

structure Longest (cs : List Char) (s : Bytes) : Prop where
  begins : encode cs <+: s
  longest : ∀ ds, encode ds <+: s → ds <+: cs

theorem longest_of_stop (cs : List Char) (stop : sequence? rest = none) :
    Longest cs (encode cs ++ rest) := by
  refine ⟨List.prefix_append _ _, fun ds begins => ?_⟩
  rcases List.prefix_or_prefix_of_prefix begins (List.prefix_append (encode cs) rest) with
    short | long
  · exact encode_prefix.1 short
  · obtain ⟨es, rfl⟩ := encode_prefix.1 long
    rw [encode_append, List.prefix_append_right_inj] at begins
    cases es with
    | nil => simp
    | cons e es =>
      -- A further character would be spelled where the text stops.
      obtain ⟨more, rfl⟩ := begins
      rw [encode_cons, List.append_assoc, sequence?_append (sequence?_encodeChar e)] at stop
      cases stop

def Malformed.behind (place : Malformed) (c : Char) : Malformed :=
  let offset := place.offset + (String.utf8EncodeChar c).length
  if c = '\n' then ⟨offset, place.line + 1, 1⟩ else ⟨offset, place.line, place.column + 1⟩

theorem head_encodeChar {c : Char} {b : UInt8} {more : Bytes}
    (h : String.utf8EncodeChar c = b :: more) : (b == Byte.lineFeed) = decide (c = '\n') := by
  have newline : c = '\n' ↔ c.val.toNat = 10 :=
    ⟨fun same => same ▸ rfl, fun same => Char.ext (UInt32.toNat_inj.1 same)⟩
  have byte {n : Nat} (small : n < 256) : UInt8.ofNat n = Byte.lineFeed ↔ n = 10 := by
    rw [← UInt8.toNat_inj, UInt8.toNat_ofNat_of_lt' small]
    rfl
  rw [beq_eq_decide, decide_eq_decide, newline]
  simp only [String.utf8EncodeChar] at h
  generalize c.val.toNat = v at *
  split at h
  · cases h
    rw [byte (by omega)]
  split at h
  · cases h
    rw [byte (by omega)]
    omega
  split at h
  · cases h
    rw [byte (by omega)]
    omega
  · cases h
    rw [byte (by omega)]
    omega

theorem malformed?_encode (cs : List Char) (rest : Bytes) (place : Malformed) :
    malformed? (encode cs ++ rest) place = malformed? rest (cs.foldl Malformed.behind place) := by
  induction cs generalizing place with
  | nil => rfl
  | cons c cs ih =>
    have whole := sequence?_append (sequence?_encodeChar c) (encode cs ++ rest)
    rw [encode_cons, List.append_assoc, List.foldl_cons, ← ih, Malformed.behind]
    cases spelled : String.utf8EncodeChar c with
    | nil =>
      have none := sequence?_encodeChar c
      rw [spelled] at none
      cases none
    | cons b more =>
      rw [spelled, List.cons_append] at whole
      unfold malformed?
      simp only [List.cons_append, malformed?.go, whole, head_encodeChar spelled, decide_eq_true_eq]
      rw [List.length_cons, Nat.add_sub_cancel, go_append]

theorem malformed?_of_stop (stop : sequence? rest = none) (place : Malformed) :
    malformed? rest place = if rest = [] then none else some place := by
  cases rest with
  | nil => rfl
  | cons b more => simp only [malformed?, malformed?.go, stop, reduceCtorEq, if_false]

theorem foldl_behind (cs : List Char) (start : Nat) :
    cs.foldl Malformed.behind ⟨start, 1, 1⟩ =
      ⟨start + (encode cs).length, 1 + cs.count '\n', 1 + (cs.rtakeWhile (· ≠ '\n')).length⟩ := by
  induction cs using List.reverseRecOn with
  | nil => rfl
  | append_singleton cs c ih =>
    rw [List.foldl_append, ih, List.foldl_cons, List.foldl_nil, Malformed.behind, encode_append,
      List.count_append]
    by_cases newline : c = '\n'
    · subst newline
      simp [encode, Nat.add_assoc]
    · simp [encode, newline, Nat.add_assoc]

end StepsLang.Utf8
