import StepsLang.Csv

namespace StepsLang.Csv

def Row.isBlank : Row → Bool
  | [] => true
  | [field] => field.isEmpty
  | _ => false

def FieldEnd (s : Bytes) : Prop := ∀ b ∈ s.head?, b = Byte.comma ∨ b = Byte.carriageReturn

namespace State

def putAll (s : State) (field : Bytes) : State :=
  { s with field := field.reverse ++ s.field, started := s.started || !field.isEmpty }

@[simp] theorem putAll_nil (s : State) : s.putAll [] = s := by simp [putAll]

theorem putAll_cons (s : State) (b : UInt8) (field : Bytes) :
    s.putAll (b :: field) = (s.put b).putAll field := by
  simp [putAll, put]

end State

section

variable {s : State} {field rest : Bytes}

theorem read_plain (open_ : s.quoted = false) (plain : needsQuotes field = false) :
    read s (field ++ rest) = read (s.putAll field) rest := by
  induction field generalizing s with
  | nil => rw [State.putAll_nil]; rfl
  | cons b field ih =>
    simp only [needsQuotes, List.any_cons, Bool.or_eq_false_iff] at plain
    obtain ⟨⟨⟨⟨comma, quote⟩, return_⟩, lineFeed⟩, later⟩ := plain
    rw [List.cons_append, read.eq_def]
    simp only [open_, comma, quote, return_, lineFeed, Bool.false_eq_true, if_false]
    rw [ih (s := s.put b) open_ later, State.putAll_cons]

theorem read_quoted (inside : s.quoted = true) (ends : FieldEnd rest) :
    read s (doubleQuotes field ++ Byte.quote :: rest) =
      read { s with field := field.reverse ++ s.field, quoted := false } rest := by
  induction field generalizing s with
  | nil =>
    rw [doubleQuotes, List.flatMap_nil, List.nil_append, read.eq_def]
    simp only [inside, if_true, bne_self_eq_false, Bool.false_eq_true, if_false]
    cases rest with
    | nil => rw [read.eq_def]; rfl
    | cons c rest =>
      have other : (c == Byte.quote) = false := by
        rcases ends c rfl with rfl | rfl <;> rfl
      simp [other]
  | cons b field ih =>
    have whole : doubleQuotes (b :: field) =
        (if b == Byte.quote then [b, b] else [b]) ++ doubleQuotes field := rfl
    rw [whole, List.append_assoc]
    by_cases quote : b = Byte.quote
    · subst quote
      rw [read.eq_def]
      simp only [inside, beq_self_eq_true, if_true, List.cons_append, List.nil_append,
        bne_self_eq_false, Bool.false_eq_true, if_false]
      rw [ih rfl]
      simp
    · have other : (b == Byte.quote) = false := by simpa using quote
      rw [read.eq_def]
      simp only [inside, other, Bool.false_eq_true, if_true, if_false, List.cons_append,
        List.nil_append, bne, Bool.not_false]
      rw [ih rfl]
      simp

theorem read_field (open_ : s.quoted = false) (ends : FieldEnd rest) :
    read s (encodeField field ++ rest) = read (s.putAll field) rest := by
  unfold encodeField
  cases quotes : needsQuotes field with
  | false => exact read_plain open_ quotes
  | true =>
    have some : field.isEmpty = false := by
      cases field with
      | nil => cases quotes
      | cons => rfl
    have whole : ("\"" ++ doubleQuotes field ++ "\"" : Bytes) ++ rest =
        Byte.quote :: (doubleQuotes field ++ Byte.quote :: rest) := by
      rw [show ("\"" : Bytes) = [Byte.quote] from rfl]
      simp
    rw [if_pos rfl, whole, read.eq_def]
    simp only [open_, Bool.false_eq_true, if_false, beq_self_eq_true, if_true]
    rw [read_quoted rfl ends]
    simp [State.putAll, some, open_]

end

theorem read_rowEnd {s : State} (open_ : s.quoted = false) (rest : Bytes) :
    read s (Byte.carriageReturn :: Byte.lineFeed :: rest) = read s.endRow rest := by
  have quote : (Byte.carriageReturn == Byte.quote) = false := rfl
  have comma : (Byte.carriageReturn == Byte.comma) = false := rfl
  rw [read.eq_def]
  simp only [open_, quote, comma, beq_self_eq_true, Bool.false_eq_true, if_false, if_true]

theorem read_comma {s : State} (open_ : s.quoted = false) (rest : Bytes) :
    read s (Byte.comma :: rest) = read { s.endField with started := true } rest := by
  have quote : (Byte.comma == Byte.quote) = false := rfl
  rw [read.eq_def]
  simp only [open_, quote, beq_self_eq_true, Bool.false_eq_true, if_false, if_true]

theorem read_fields (rows : List Row) (row : List Bytes) (started : Bool) (field : Bytes)
    (others : List Bytes) (rest : Bytes)
    (filled : started = true ∨ row ≠ [] ∨ field ≠ [] ∨ others ≠ []) :
    read { rows, row, started }
        (Bytes.join "," ((field :: others).map encodeField) ++
          Byte.carriageReturn :: Byte.lineFeed :: rest) =
      read { rows := (row.reverse ++ field :: others) :: rows } rest := by
  induction others generalizing row started field with
  | nil =>
    have ends : FieldEnd (Byte.carriageReturn :: Byte.lineFeed :: rest) := by simp [FieldEnd]
    have goes : (started || !field.isEmpty || !row.isEmpty) = true := by
      rcases filled with h | h | h | h <;> simp_all
    simp only [List.map_cons, List.map_nil, Bytes.join]
    rw [read_field rfl ends, read_rowEnd rfl]
    simp [State.endRow, State.endField, State.putAll, goes]
  | cons next others ih =>
    have ends (s : Bytes) : FieldEnd (Byte.comma :: s) := by simp [FieldEnd]
    have comma : ("," : Bytes) = [Byte.comma] := rfl
    have whole : Bytes.join "," ((field :: next :: others).map encodeField) ++
          Byte.carriageReturn :: Byte.lineFeed :: rest =
        encodeField field ++ Byte.comma :: (Bytes.join "," ((next :: others).map encodeField) ++
          Byte.carriageReturn :: Byte.lineFeed :: rest) := by
      simp [Bytes.join, comma]
    rw [whole, read_field rfl (ends _), read_comma rfl]
    have goes := ih (field :: row) true next (.inl rfl)
    simpa [State.putAll, State.endField] using goes

theorem read_row (rows : List Row) (row : Row) (rest : Bytes) :
    read { rows } (encodeRow row ++ rest) =
      read { rows := if row.isBlank then rows else row :: rows } rest := by
  have ends : ("\r\n" : Bytes) = [Byte.carriageReturn, Byte.lineFeed] := rfl
  have blank := read_rowEnd (s := { rows }) rfl rest
  rw [encodeRow, List.append_assoc, ends]
  match row with
  | [] => exact blank
  | [[]] => exact blank
  | (b :: field) :: [] => exact read_fields rows [] false (b :: field) [] rest (by simp)
  | first :: second :: others =>
    exact read_fields rows [] false first (second :: others) rest (by simp)

theorem read_encode (rows before : List Row) :
    read { rows := before } (encode rows) =
      { rows := (rows.filter (!·.isBlank)).reverse ++ before } := by
  induction rows generalizing before with
  | nil => rw [encode, read.eq_def]; rfl
  | cons row rows ih =>
    have whole : encode (row :: rows) = encodeRow row ++ encode rows := rfl
    rw [whole, read_row, ih]
    cases blank : row.isBlank <;> simp [blank]

/-- What is written can be read, and gives all rows but the blank ones. -/
theorem decode?_encode (rows : List Row) :
    decode? (encode rows) = some (rows.filter (!·.isBlank)) := by
  unfold decode?
  rw [show ({} : State) = { rows := [] } from rfl, read_encode]
  simp [State.endRow]

/-- Rows come back as they are if none of them is written as a blank line. -/
theorem rows_come_back {rows : List Row} (filled : ∀ row ∈ rows, row ≠ [] ∧ row ≠ [[]]) :
    decode? (encode rows) = some rows := by
  have kept : rows.filter (!·.isBlank) = rows := by
    refine List.filter_eq_self.2 fun row hrow => ?_
    obtain ⟨fields, text⟩ := filled row hrow
    match row with
    | [] => exact absurd rfl fields
    | [[]] => exact absurd rfl text
    | [_ :: _] => rfl
    | _ :: _ :: _ => rfl
  rw [decode?_encode, kept]

theorem rows_come_back_delimiters :
    let rows : List Row := [["a,b", "say \"hi\"", ""], ["", ""], ["\"", "\r\n"], ["\r"]]
    (∀ row ∈ rows, row ≠ [] ∧ row ≠ [[]]) ∧ decode? (encode rows) = some rows := by
  intro rows
  have filled : ∀ row ∈ rows, row ≠ [] ∧ row ≠ [[]] := by decide
  exact ⟨filled, rows_come_back filled⟩

end StepsLang.Csv
