import StepsLang.Native.File
import StepsLang.Proofs.List
import StepsLang.Proofs.Text.Csv
import StepsLang.Proofs.Value.Table

namespace StepsLang

namespace Files

variable {fs : Files} {place other : List Bytes} {content : Bytes}

theorem at?_put (e : Entry) (ne : place ≠ []) :
    (fs.put place e).at? other = if other = place then some e else fs.at? other := by
  unfold at? put
  by_cases root : other = []
  · subst root
    simp [Ne.symm ne]
  · by_cases same : other = place
    · subst same
      simp [root]
    · have apart : (other == place) = false := by simpa using same
      simp only [List.isEmpty_iff, root, same, if_false, List.lookup_cons, apart]
      exact lookup_filter_ne same _

theorem isDirectoryAt_put (file : fs.isDirectoryAt place = false) :
    (fs.put place (.file content)).isDirectoryAt other = fs.isDirectoryAt other := by
  have ne : place ≠ [] := by
    rintro rfl
    cases file
  unfold isDirectoryAt
  rw [at?_put _ ne]
  split
  · next same =>
    subst same
    exact file.symm
  · rfl

theorem follow?_congr {fs fs' : Files}
    (same : ∀ place, fs'.isDirectoryAt place = fs.isDirectoryAt place) (names : List Bytes)
    (place : List Bytes) : fs'.follow? place names = fs.follow? place names := by
  induction names generalizing place with
  | nil => rfl
  | cons name names ih => simp only [follow?, same, ih]

theorem place?_put (file : fs.isDirectoryAt place = false) (path : Bytes) :
    (fs.put place (.file content)).place? path = fs.place? path := by
  have same : ∀ other,
      (fs.put place (.file content)).isDirectoryAt other = fs.isDirectoryAt other :=
    fun _ => isDirectoryAt_put file
  simp only [place?, follow?_congr same, same]
  rfl

theorem read?_of_write? {fs' : Files} {path : Bytes} (wrote : fs.write? path content = some fs') :
    fs'.read? path = some content := by
  unfold write? update? at wrote
  split at wrote
  · cases wrote
  · next place found =>
    have made : fs.isDirectoryAt place = false ∧ fs' = fs.put place (.file content) := by
      unfold isDirectoryAt
      split at wrote
      · cases wrote
      · next old there => exact ⟨by rw [there]; rfl, (Option.some.inj wrote).symm⟩
      · next absent => exact ⟨by rw [absent]; rfl, (Option.some.inj wrote).symm⟩
    obtain ⟨file, rfl⟩ := made
    have ne : place ≠ [] := by
      rintro rfl
      cases file
    rw [read?, entry?, place?_put file, found, Option.bind_some, at?_put _ ne, if_pos rfl]

end Files

namespace Entries

theorem set_of_absent {es : Entries} {key : Bytes} (v : Value) (absent : key ∉ es.keys) :
    es.set key v = es ++ [(key, v)] := by
  induction es with
  | nil => rfl
  | cons e es ih =>
    obtain ⟨k, old⟩ := e
    have other : k ≠ key := fun same => absent (same ▸ List.mem_cons_self)
    have later : key ∉ keys es := fun there => absent (List.mem_cons_of_mem _ there)
    simp [set, other, ih later]

theorem ofList_of_nodup {pairs : List (Bytes × Value)} (distinct : (pairs.map (·.1)).Nodup) :
    ofList pairs = pairs := by
  induction pairs using List.reverseRecOn with
  | nil => rfl
  | append_singleton pairs e ih =>
    obtain ⟨before, -, apart⟩ := List.nodup_append.1 (List.map_append ▸ distinct)
    have absent : e.1 ∉ keys pairs := fun there => apart e.1 there e.1 (by simp) rfl
    rw [ofList_concat, ih before, set_of_absent e.2 absent]

theorem get?_of_mem {es : Entries} {key : Bytes} (there : key ∈ es.keys) :
    ∃ v, es.get? key = some v :=
  Option.isSome_iff_exists.1 (hasKey_iff.2 there)

theorem get?_map {keys : List Bytes} {key : Bytes} (there : key ∈ keys) (f : Bytes → Value) :
    get? (keys.map fun k => (k, f k)) key = some (f key) := by
  induction keys with
  | nil => cases there
  | cons k keys ih =>
    by_cases same : key = k
    · simp [get?_cons, same]
    · have later := ih (by simpa [same] using there)
      simpa [get?_cons, same] using later

end Entries

theorem Effect.bind_ok {x : Effect α} {f : α → Effect β} {w w' : World} {a : α}
    {r : Except Report β × World} (first : x w = (.ok a, w')) (then_ : f a w' = r) :
    (x >>= f) w = r := by
  show Mutation.andThen x f w = r
  rw [Mutation.andThen, first]
  exact then_

namespace Native.File

/-- All items are tables with the same keys, and `columns` are these in the order of the first
table. -/
structure Tabular (h : Heap) (items : List Value) (columns : List Bytes) : Prop where
  some : columns ≠ []
  first : ∀ t, items.head? = .some (.table t) → (h.entries t).keys = columns
  tables : ∀ v ∈ items, ∃ t, v = .table t ∧ ∀ key, key ∈ (h.entries t).keys ↔ key ∈ columns

structure Copied (h h' : Heap) (columns : List Bytes) (v v' : Value) : Prop where
  tables : ∃ t t', v = .table t ∧ v' = .table t' ∧ (h'.entries t').keys = columns ∧
    ∀ key ∈ columns, ∃ x y, (h.entries t).get? key = some x ∧ (h'.entries t').get? key = some y ∧
      ∀ l, x.convert h .text l = .ok y

variable {h : Heap} {items : List Value} {columns : List Bytes}

def newTables (h : Heap) (n : Nat) : List Value := (List.range' h.tables.size n).map Value.table

def rowTable (header row : Csv.Row) : Table := .ofList (rowEntries header row)

theorem newRows_eq (h : Heap) (header : Csv.Row) (rows : List Csv.Row) :
    newRows h header rows = (newTables h rows.length,
      { h with tables := h.tables ++ (rows.map (rowTable header)).toArray }) := by
  induction rows generalizing h with
  | nil => simp [newRows, newTables]
  | cons row rows ih =>
    simp only [newRows, Heap.newTable, ih]
    simp [newTables, List.range'_succ, rowTable]

theorem readRows_eq (h : Heap) (rows : List Csv.Row) :
    readRows h rows = (.list h.lists.size,
      { lists := h.lists.push (newTables h rows.tail.length).toArray,
        tables := h.tables ++ (rows.tail.map (rowTable (rows.headD []))).toArray }) := by
  cases rows with
  | nil => simp [readRows, Heap.newList, newTables]
  | cons header rows => simp [readRows, newRows_eq, Heap.newList]

theorem writeCsv_eq {w w' : World} {path v : Value} {id : Nat} {l : Location}
    (tables : ∀ v ∈ (w.heap.items id).toList, ∃ t, v = .table t)
    (wrote : writeCsv path (.list id) l w = (.ok v, w')) :
    ∃ p files, path = .text p ∧ w' = { w with files } ∧
      w.files.write? p (Csv.encode (writeRows w.heap (w.heap.items id).toList)) = some files := by
  cases path with
  | text p =>
    have fits : tablesOf (.list id) l w = (.ok (w.heap.items id).toList, w) := by
      refine Effect.bind_ok (a := (w.heap.items id).toList) rfl ?_
      cases whole : (w.heap.items id).toList with
      | nil => rfl
      | cons first rest =>
        obtain ⟨t, rfl⟩ := tables first (whole ▸ List.mem_cons_self)
        rfl
    have stored : writeCsv (.text p) (.list id) l w =
        store (·.write? p (Csv.encode (writeRows w.heap (w.heap.items id).toList)))
          ("Could not write CSV file " ++ inQuotes p ++ ".") l w :=
      Effect.bind_ok rfl (Effect.bind_ok fits (Effect.bind_ok rfl rfl))
    rw [stored, store] at wrote
    split at wrote
    · next files done =>
      cases wrote
      exact ⟨p, files, rfl, rfl, done⟩
    · cases wrote
  | _ => cases wrote

theorem readCsv_eq {w : World} {p text : Bytes} {rows : List Csv.Row} (l : Location)
    (content : w.files.read? p = some text) (decoded : Csv.decode? text = some rows) :
    readCsv (.text p) l w =
      (.ok (readRows w.heap rows).1, { w with heap := (readRows w.heap rows).2 }) := by
  have opened : File.content p "CSV file not found: " l w = (.ok text, w) := by
    unfold File.content
    rw [content]
  refine Effect.bind_ok rfl (Effect.bind_ok opened ?_)
  rw [decoded]
  rfl

def field (h : Heap) (t : Nat) (key : Bytes) : Bytes :=
  match (h.entries t).get? key with
  | some v => h.display v
  | none => []

theorem rowFields_eq (h : Heap) (header : Csv.Row) (t : Nat) :
    rowFields h header t = header.map (field h t) := rfl

theorem entries_rowTable_map {header : Csv.Row} (distinct : header.Nodup) (f : Bytes → Bytes) :
    (rowTable header (header.map f)).entries = header.map fun key => (key, .text (f key)) := by
  have pairs : (header.mapIdx fun i key => (key, Value.text ((header.map f).getD i []))) =
      header.map fun key => (key, .text (f key)) := by
    refine List.ext_getElem (by simp) fun i hi _ => ?_
    have there : i < header.length := by simpa using hi
    simp [there]
  have keys : (header.map fun key => (key, Value.text (f key))).map (·.1) = header := by
    rw [List.map_map]
    exact List.map_id header
  rw [rowTable, Table.entries_ofList, rowEntries, pairs,
    Entries.ofList_of_nodup (keys.symm ▸ distinct)]

theorem writeRows_eq {ids : List Nat} {t : Nat} (h : Heap) (first : ids.head? = some t) :
    writeRows h (ids.map .table) =
      (h.entries t).keys :: ids.map fun t' => (h.entries t).keys.map (field h t') := by
  obtain ⟨rest, rfl⟩ := List.head?_eq_some_iff.1 first
  simp [writeRows, rowFields_eq, List.filterMap_map]

/-- No table is written as a single empty text, and neither are the keys. -/
def Filled (h : Heap) (items : List Value) (columns : List Bytes) : Prop :=
  ∀ key, columns = [key] → ∀ t, .table t ∈ items →
    key ≠ [] ∧ ∀ v, (h.entries t).get? key = some v → h.display v ≠ []

variable {ids : List Nat}

theorem field_of_get? {t : Nat} {key : Bytes} {v : Value}
    (found : (h.entries t).get? key = some v) :
    field h t key = h.display v := by
  rw [field, found]

theorem filled_iff (tabular : Tabular h (ids.map .table) columns) (some_ : ids ≠ []) :
    Filled h (ids.map .table) columns ↔
      ∀ row ∈ columns :: ids.map (fun t => columns.map (field h t)),
        Csv.Row.isBlank row = false := by
  have known : ∀ t ∈ ids, ∀ key ∈ columns, ∃ v, (h.entries t).get? key = some v := by
    intro t ht key hkey
    obtain ⟨t', same, keys⟩ := tabular.tables (.table t) (List.mem_map_of_mem ht)
    cases same
    exact Entries.get?_of_mem ((keys key).2 hkey)
  match columns, tabular.some with
  | [key], _ =>
    constructor
    · intro filled row hrow
      rcases List.mem_cons.1 hrow with rfl | hrow
      · obtain ⟨t, ht⟩ := List.exists_mem_of_ne_nil ids some_
        simpa [Csv.Row.isBlank] using (filled key rfl t (List.mem_map_of_mem ht)).1
      · obtain ⟨t, ht, rfl⟩ := List.mem_map.1 hrow
        obtain ⟨v, found⟩ := known t ht key (.head _)
        simpa [Csv.Row.isBlank, field_of_get? found] using
          (filled key rfl t (List.mem_map_of_mem ht)).2 v found
    · intro visible key' same t ht
      cases same
      obtain ⟨t, there, same⟩ := List.mem_map.1 ht
      cases same
      refine ⟨?_, fun v found => ?_⟩
      · simpa [Csv.Row.isBlank] using visible [key] (.head _)
      · have row := visible [field h t key] (.tail _ (List.mem_map.2 ⟨t, there, rfl⟩))
        simpa [Csv.Row.isBlank, field_of_get? found] using row
  | first :: second :: rest, _ =>
    refine ⟨fun _ row hrow => ?_, fun _ key same => by cases same⟩
    rcases List.mem_cons.1 hrow with rfl | hrow
    · rfl
    · obtain ⟨t, -, rfl⟩ := List.mem_map.1 hrow
      rfl

theorem entries_append (h : Heap) (rows : List Table) (lists : Array (Array Value)) {i : Nat}
    (hi : i < rows.length) :
    Heap.entries { lists, tables := h.tables ++ rows.toArray } (h.tables.size + i) =
      rows[i].entries := by
  simp [Heap.entries, hi]

theorem readRows_items (h : Heap) (rows : List Csv.Row) :
    ∃ list, (readRows h rows).1 = .list list ∧
      ((readRows h rows).2.items list).toList = newTables h rows.tail.length := by
  rw [readRows_eq]
  exact ⟨_, rfl, by simp [Heap.items]⟩

theorem copied_readRows {t : Nat} (distinct : columns.Nodup)
    (keys : ∀ key ∈ columns, key ∈ (h.entries t).keys) (g : Heap)
    (rows : List Csv.Row) {i : Nat} (hi : i < rows.length)
    (here : rows[i] = columns.map (field h t)) :
    Copied h (readRows g (columns :: rows)).2 columns (.table t) (.table (g.tables.size + i)) := by
  have entries : (readRows g (columns :: rows)).2.entries (g.tables.size + i) =
      columns.map fun key => (key, .text (field h t key)) := by
    rw [readRows_eq]
    refine (entries_append g _ _ (by simpa using hi)).trans ?_
    simp [here, entries_rowTable_map distinct]
  refine ⟨t, _, rfl, rfl, ?_, fun key there => ?_⟩
  · rw [entries, Entries.keys, List.map_map]
    exact List.map_id columns
  · obtain ⟨v, found⟩ := Entries.get?_of_mem (keys key there)
    refine ⟨v, .text (field h t key), found, ?_, fun l => ?_⟩
    · rw [entries, Entries.get?_map there fun key => .text (field h t key)]
    · rw [field_of_get? found]
      rfl

theorem eq_map_table (all : ∀ v ∈ items, ∃ t, v = .table t) :
    ∃ ids : List Nat, items = ids.map .table := by
  induction items with
  | nil => exact ⟨[], rfl⟩
  | cons v items ih =>
    obtain ⟨t, rfl⟩ := all v (.head _)
    obtain ⟨ids, rfl⟩ := ih fun v hv => all v (.tail _ hv)
    exact ⟨t :: ids, rfl⟩

theorem copied_iff (tabular : Tabular h (ids.map .table) columns)
    {rows : List Csv.Row}
    (kept : rows = (writeRows h (ids.map .table)).filter (!Csv.Row.isBlank ·)) :
    List.Forall₂ (Copied h (readRows h rows).2 columns) (ids.map .table)
        (newTables h rows.tail.length) ↔
      Filled h (ids.map .table) columns := by
  subst kept
  cases first : ids.head? with
  | none =>
    obtain rfl := List.head?_eq_none_iff.1 first
    exact ⟨fun _ _ _ _ there => absurd there List.not_mem_nil, fun _ => .nil⟩
  | some t =>
    have some_ : ids ≠ [] := by
      rintro rfl
      cases first
    have keys : (h.entries t).keys = columns := tabular.first t (by simp [first])
    rw [writeRows_eq h first, keys, filled_iff tabular some_]
    constructor
    · -- A blank row would be missing, and then there would be too few tables.
      intro copied
      have count := copied.length_eq
      have more := List.length_pos_iff.2 some_
      simp only [newTables, List.length_map, List.length_range', List.length_tail] at count
      have all := List.length_filter_eq_length_iff.1 (Nat.le_antisymm (List.length_filter_le
        (!Csv.Row.isBlank ·) (columns :: ids.map fun t => columns.map (field h t))) (by
          rw [List.length_cons, List.length_map]
          omega))
      intro row hrow
      simpa using all row hrow
    · intro filled
      rw [List.filter_eq_self.2 fun row hrow => by simp [filled row hrow]]
      refine List.forall₂_iff_get.2 ⟨by simp [newTables], fun i hi _ => ?_⟩
      have short : i < ids.length := by simpa using hi
      have there : ids[i] ∈ ids := List.getElem_mem short
      obtain ⟨t', same, known⟩ := tabular.tables (.table ids[i]) (List.mem_map_of_mem there)
      cases same
      have copy := copied_readRows (keys ▸ h.nodup_keys t) (fun key hkey => (known key).2 hkey) h
        (ids.map fun t => columns.map (field h t)) (i := i) (by simpa using short) (by simp)
      simpa [newTables] using copy

/-- Of a list of tables that all have the same keys: once it is written, reading gives a list, and
the items of that list are copies of the tables, in order, if and only if no row that was written is
a single empty text. -/
theorem readCsv_writeCsv {w w' : World} {path v : Value} {id : Nat} {columns : List Bytes}
    {l : Location} (tabular : Tabular w.heap (w.heap.items id).toList columns)
    (wrote : writeCsv path (.list id) l w = (.ok v, w')) (l' : Location) :
    ∃ list w'', readCsv path l' w' = (.ok (.list list), w'') ∧
      (List.Forall₂ (Copied w.heap w''.heap columns) (w.heap.items id).toList
          (w''.heap.items list).toList ↔
        Filled w.heap (w.heap.items id).toList columns) := by
  have tables : ∀ v ∈ (w.heap.items id).toList, ∃ t, v = .table t := fun v hv =>
    (tabular.tables v hv).imp fun t ht => ht.1
  obtain ⟨p, files, rfl, rfl, stored⟩ := writeCsv_eq tables wrote
  obtain ⟨ids, whole⟩ := eq_map_table tables
  rw [whole] at tabular stored ⊢
  have read := readCsv_eq (w := { w with files }) l' (Files.read?_of_write? stored)
    (Csv.decode?_encode _)
  obtain ⟨list, made, items⟩ := readRows_items w.heap
    ((writeRows w.heap (ids.map .table)).filter (!Csv.Row.isBlank ·))
  rw [made] at read
  refine ⟨list, _, read, ?_⟩
  dsimp only
  rw [items]
  exact copied_iff tabular rfl

theorem readCsv_writeCsv_delimiters :
    let w : World := { heap := {
      lists := #[#[.table 0, .table 1]],
      tables := #[
        .ofList [("name", .text "Bo \"B\", \r\n"), ("", .text "")],
        .ofList [("", .boolean true), ("name", .text ",\n\r\"")]] } }
    let wrote := writeCsv (.text "scores.csv") (.list 0) {} w
    wrote.1 = .ok .nothing ∧
      ∃ list w'', readCsv (.text "scores.csv") {} wrote.2 = (.ok (.list list), w'') ∧
        List.Forall₂ (Copied w.heap w''.heap ["name", ""]) [.table 0, .table 1]
          (w''.heap.items list).toList := by
  intro w wrote
  have tabular : Tabular w.heap (w.heap.items 0).toList ["name", ""] := by
    refine ⟨by decide, fun t ht => by cases ht; rfl, fun v hv => ?_⟩
    have here : v ∈ [.table 0, .table 1] := hv
    obtain rfl | rfl : v = .table 0 ∨ v = .table 1 := by simpa using here
    · exact ⟨0, rfl, fun key => List.Perm.mem_iff (by decide)⟩
    · exact ⟨1, rfl, fun key => List.Perm.mem_iff (by decide)⟩
  have done : wrote = (.ok .nothing, wrote.2) := Prod.ext rfl rfl
  obtain ⟨list, w'', read, copied⟩ := readCsv_writeCsv tabular done {}
  exact ⟨rfl, list, w'', read, copied.2 fun key one => by cases one⟩

/-- A row that is a single empty text is a blank line, which is no row when it is read. -/
theorem blank_row_lost :
    let w : World := { heap := {
      lists := #[#[.table 0, .table 1]],
      tables := #[.ofList [("name", .text "")], .ofList [("name", .text "Ann")]] } }
    let wrote := writeCsv (.text "names.csv") (.list 0) {} w
    Tabular w.heap (w.heap.items 0).toList ["name"] ∧ wrote.1 = .ok .nothing ∧
      ∃ list w'', readCsv (.text "names.csv") {} wrote.2 = (.ok (.list list), w'') ∧
        (w.heap.items 0).size = 2 ∧ (w''.heap.items list).size = 1 := by
  intro w wrote
  have decoded : Csv.decode? "name\r\n\r\nAnn\r\n" =
      some [[("name" : Bytes)], [("Ann" : Bytes)]] :=
    Csv.decode?_encode [[("name" : Bytes)], [[]], [("Ann" : Bytes)]]
  have content : wrote.2.files.read? "names.csv" = some "name\r\n\r\nAnn\r\n" := by decide
  have tabular : Tabular w.heap (w.heap.items 0).toList [("name" : Bytes)] := by
    refine ⟨by decide, fun t ht => by cases ht; rfl, fun v hv => ?_⟩
    have here : v ∈ [.table 0, .table 1] := hv
    obtain rfl | rfl : v = .table 0 ∨ v = .table 1 := by simpa using here
    · exact ⟨0, rfl, fun key => Iff.rfl⟩
    · exact ⟨1, rfl, fun key => Iff.rfl⟩
  refine ⟨tabular, rfl, 1, _, readCsv_eq {} content decoded, rfl, rfl⟩

end Native.File

end StepsLang
