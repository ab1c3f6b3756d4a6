import Mathlib

/-! CSV text of data frames: the runtime's writer and record splitter, and the interpreter's splitter. -/

namespace Karac.Runtime

/-- A cell needs quotes when it holds a comma, a quote or a line break. -/
def needsQuotes (cell : List Char) : Bool :=
  cell.contains ',' || cell.contains '"' || cell.contains '\n' || cell.contains '\r'

/-- `cell.replace('"', "\"\"")`. -/
def doubleQuotes (cell : List Char) : List Char := cell.flatMap fun c => if c = '"' then ['"', '"'] else [c]

def csvQuote (cell : List Char) : List Char :=
  if needsQuotes cell then '"' :: (doubleQuotes cell ++ ['"']) else cell

/-- An element of a column by its kind. A float enters as its `Display` text, and `other` is a kind and size
that the writer's table does not have. -/
inductive Elem
  | int (n : ℤ)
  | float (shown : List Char)
  | bool (b : Bool)
  | string (s : List Char)
  | other

def Elem.display : Elem → List Char
  | int n => (toString n).toList
  | float shown => shown
  | bool b => if b then "true".toList else "false".toList
  | string s => s
  | other => []

/-- A column as the writer reads it: its name, its length, and at a row its element when the validity bit is set. -/
structure Col where
  name : List Char
  len : ℕ
  cell : ℕ → Option Elem

def Col.text (row : ℕ) (c : Col) : List Char :=
  match c.cell row with
  | none => []
  | some e => csvQuote e.display

/-- `cells.join(",")` and the line break. -/
def csvLine (cells : List (List Char)) : List Char := [','].intercalate cells ++ ['\n']

/-- The text of `karac_runtime_df_write_csv`. The first column gives the height. -/
def writeCsv (cols : List Col) : List Char :=
  let height := (cols.head?.map Col.len).getD 0
  csvLine (cols.map fun c => csvQuote c.name) ++
    (List.range height).flatMap fun row => csvLine (cols.map (Col.text row))

abbrev Records := List (List (Option (List Char)))

/-- The locals of `csv_split_records`. -/
structure SplitState where
  records : Records
  field : List Char
  quoted : Bool
  fields : List (Option (List Char))
  inQuotes : Bool
  deriving DecidableEq

namespace SplitState

variable (s : SplitState)

def push (c : Char) : SplitState := { s with field := s.field ++ [c] }

/-- The cell that ends here: NULL when it is empty and was never quoted. -/
def flush : SplitState :=
  { s with
    fields := s.fields ++ [if s.field.isEmpty && !s.quoted then none else some s.field]
    field := []
    quoted := false }

def endRecord : SplitState := { s.flush with records := s.records ++ [s.flush.fields], fields := [] }

end SplitState

/-- The character loop of `csv_split_records`; a peeked character that is taken too is dropped from the rest. -/
def csvSplitLoop : List Char → SplitState → SplitState
  | [], s => s
  | c :: rest, s =>
    if s.inQuotes then
      if c = '"' then
        if rest.head? = some '"' then csvSplitLoop rest.tail (s.push '"')
        else csvSplitLoop rest { s with inQuotes := false }
      else csvSplitLoop rest (s.push c)
    else if c = '"' then csvSplitLoop rest { s with inQuotes := true, quoted := true }
    else if c = ',' then csvSplitLoop rest s.flush
    else if c = '\r' then
      if rest.head? = some '\n' then csvSplitLoop rest.tail s.endRecord else csvSplitLoop rest s.endRecord
    else if c = '\n' then csvSplitLoop rest s.endRecord
    else csvSplitLoop rest (s.push c)
termination_by text => text.length
decreasing_by all_goals simp only [List.length_cons, List.length_tail]; omega

def unterminated : String := "CSV parse error: unterminated quoted cell"

/-- What `csv_split_records` answers after its loop. -/
def SplitState.finish (s : SplitState) : Except String Records :=
  if s.inQuotes then .error unterminated
  else if !s.field.isEmpty || s.quoted || !s.fields.isEmpty then .ok (s.records ++ [s.flush.fields])
  else .ok s.records

def csvSplitRecords (text : List Char) : Except String Records :=
  (csvSplitLoop text ⟨[], [], false, [], false⟩).finish

/-- `flush_field` of the interpreter's splitter. -/
def flushField (field : List Char) (quoted : Bool) (fields : List (Option (List Char))) :
    List (Option (List Char)) :=
  fields ++ [if field.isEmpty && !quoted then none else some field]

/-- The splitter at the head of the interpreter's `parse_csv_to_dataframe`. -/
def parseCsvRecords (text : List Char) (records : Records) (field : List Char) (quoted : Bool)
    (fields : List (Option (List Char))) (inQuotes : Bool) : Except String Records :=
  match text with
  | [] =>
    if inQuotes then .error unterminated
    else if !field.isEmpty || quoted || !fields.isEmpty then .ok (records ++ [flushField field quoted fields])
    else .ok records
  | c :: rest =>
    if inQuotes then
      if c = '"' then
        if rest.head? = some '"' then parseCsvRecords rest.tail records (field ++ ['"']) quoted fields true
        else parseCsvRecords rest records field quoted fields false
      else parseCsvRecords rest records (field ++ [c]) quoted fields true
    else if c = '"' then parseCsvRecords rest records field true fields true
    else if c = ',' then parseCsvRecords rest records [] false (flushField field quoted fields) false
    else if c = '\r' then
      if rest.head? = some '\n' then
        parseCsvRecords rest.tail (records ++ [flushField field quoted fields]) [] false [] false
      else parseCsvRecords rest (records ++ [flushField field quoted fields]) [] false [] false
    else if c = '\n' then parseCsvRecords rest (records ++ [flushField field quoted fields]) [] false [] false
    else parseCsvRecords rest records (field ++ [c]) quoted fields false
termination_by text.length
decreasing_by all_goals simp only [List.length_cons, List.length_tail]; omega

def parseCsvText (text : List Char) : Except String Records := parseCsvRecords text [] [] false [] false

/-! The two splitters agree. -/

theorem parseCsvRecords_eq (text : List Char) (s : SplitState) :
    parseCsvRecords text s.records s.field s.quoted s.fields s.inQuotes = (csvSplitLoop text s).finish := by
  induction text, s using csvSplitLoop.induct with
  | case1 s => rw [parseCsvRecords, csvSplitLoop]; rfl
  | case2 rest s hin hpeek ih =>
    rw [parseCsvRecords, csvSplitLoop, if_pos hin, if_pos hin, if_pos rfl, if_pos rfl, if_pos hpeek, if_pos hpeek, ← ih]
    simp only [SplitState.push, hin]
  | case3 rest s hin hpeek ih =>
    rw [parseCsvRecords, csvSplitLoop, if_pos hin, if_pos hin, if_pos rfl, if_pos rfl, if_neg hpeek, if_neg hpeek, ← ih]
  | case4 c rest s hin hc ih =>
    rw [parseCsvRecords, csvSplitLoop, if_pos hin, if_pos hin, if_neg hc, if_neg hc, ← ih]
    simp only [SplitState.push, hin]
  | case5 rest s hin ih =>
    rw [parseCsvRecords, csvSplitLoop, if_neg hin, if_neg hin, if_pos rfl, if_pos rfl, ← ih]
  | case6 rest s hin hq ih =>
    rw [parseCsvRecords, csvSplitLoop, if_neg hin, if_neg hin, if_neg hq, if_neg hq, if_pos rfl, if_pos rfl, ← ih]
    simp only [SplitState.flush, flushField, hin]
  | case7 rest s hin hpeek hq hcomma ih =>
    rw [parseCsvRecords, csvSplitLoop, if_neg hin, if_neg hin, if_neg hq, if_neg hq, if_neg hcomma, if_neg hcomma,
      if_pos rfl, if_pos rfl, if_pos hpeek, if_pos hpeek, ← ih]
    simp only [SplitState.endRecord, SplitState.flush, flushField, hin]
  | case8 rest s hin hpeek hq hcomma ih =>
    rw [parseCsvRecords, csvSplitLoop, if_neg hin, if_neg hin, if_neg hq, if_neg hq, if_neg hcomma, if_neg hcomma,
      if_pos rfl, if_pos rfl, if_neg hpeek, if_neg hpeek, ← ih]
    simp only [SplitState.endRecord, SplitState.flush, flushField, hin]
  | case9 rest s hin hq hcomma hcr ih =>
    rw [parseCsvRecords, csvSplitLoop, if_neg hin, if_neg hin, if_neg hq, if_neg hq, if_neg hcomma, if_neg hcomma,
      if_neg hcr, if_neg hcr, if_pos rfl, if_pos rfl, ← ih]
    simp only [SplitState.endRecord, SplitState.flush, flushField, hin]
  | case10 c rest s hin hq hcomma hcr hlf ih =>
    rw [parseCsvRecords, csvSplitLoop, if_neg hin, if_neg hin, if_neg hq, if_neg hq, if_neg hcomma, if_neg hcomma,
      if_neg hcr, if_neg hcr, if_neg hlf, if_neg hlf, ← ih]
    simp only [SplitState.push, hin]

theorem parseCsvText_eq (text : List Char) : parseCsvText text = csvSplitRecords text :=
  parseCsvRecords_eq text ⟨[], [], false, [], false⟩

/-! One cell. -/

/-- The cell as the splitter reads its text: an empty value reads as NULL. -/
def readBack (cell : Option (List Char)) : Option (List Char) :=
  match cell with
  | none => none
  | some s => if s.isEmpty then none else some s

/-- The text of a cell that is NULL or a string. -/
def cellText (cell : Option (List Char)) : List Char :=
  match cell with
  | none => []
  | some s => csvQuote s

theorem needsQuotes_eq_false {cell : List Char} :
    needsQuotes cell = false ↔ ∀ c ∈ cell, c ≠ ',' ∧ c ≠ '"' ∧ c ≠ '\n' ∧ c ≠ '\r' := by
  simp only [needsQuotes, Bool.or_eq_false_iff, List.contains_eq_mem, decide_eq_false_iff_not]
  refine ⟨fun h c hc => ?_, fun h => ?_⟩
  · refine ⟨?_, ?_, ?_, ?_⟩
    all_goals rintro rfl; simp_all
  · exact ⟨⟨⟨fun hc => (h _ hc).1 rfl, fun hc => (h _ hc).2.1 rfl⟩, fun hc => (h _ hc).2.2.1 rfl⟩,
      fun hc => (h _ hc).2.2.2 rfl⟩

/-- Outside quotes a plain text is collected as it stands. -/
theorem csvSplitLoop_plain (cell rest : List Char) {s : SplitState} (hin : s.inQuotes = false)
    (hplain : ∀ c ∈ cell, c ≠ ',' ∧ c ≠ '"' ∧ c ≠ '\n' ∧ c ≠ '\r') :
    csvSplitLoop (cell ++ rest) s = csvSplitLoop rest { s with field := s.field ++ cell } := by
  induction cell generalizing s with
  | nil => simp
  | cons c cell ih =>
    obtain ⟨hcomma, hq, hlf, hcr⟩ := hplain c List.mem_cons_self
    rw [List.cons_append, csvSplitLoop, if_neg (by simp [hin]), if_neg hq, if_neg hcomma, if_neg hcr, if_neg hlf]
    have hrest := ih (s := s.push c) hin fun c hc => hplain c (List.mem_cons_of_mem _ hc)
    simpa [SplitState.push] using hrest

/-- Inside quotes a text with its quotes doubled is collected up to the closing quote. -/
theorem csvSplitLoop_quoted (cell rest : List Char) {s : SplitState} (hin : s.inQuotes = true)
    (hrest : rest.head? ≠ some '"') :
    csvSplitLoop (doubleQuotes cell ++ '"' :: rest) s =
      csvSplitLoop rest { s with field := s.field ++ cell, inQuotes := false } := by
  induction cell generalizing s with
  | nil =>
    rw [doubleQuotes, List.flatMap_nil, List.nil_append, csvSplitLoop, if_pos hin, if_pos rfl, if_neg hrest]
    simp
  | cons c cell ih =>
    by_cases hc : c = '"'
    · have htext : doubleQuotes (c :: cell) = '"' :: '"' :: doubleQuotes cell := by simp [doubleQuotes, hc]
      rw [htext, List.cons_append, List.cons_append, csvSplitLoop, if_pos hin, if_pos rfl, List.head?_cons,
        if_pos rfl, List.tail_cons]
      have hrest' := ih (s := s.push '"') hin
      simpa [SplitState.push, hc] using hrest'
    · have htext : doubleQuotes (c :: cell) = c :: doubleQuotes cell := by simp [doubleQuotes, hc]
      rw [htext, List.cons_append, csvSplitLoop, if_pos hin, if_neg hc]
      have hrest' := ih (s := s.push c) hin
      simpa [SplitState.push] using hrest'

/-- Between cells: nothing collected, no quote open. -/
def SplitState.atCell (records : Records) (fields : List (Option (List Char))) : SplitState :=
  ⟨records, [], false, fields, false⟩

/-- A cell's text leaves the splitter with the value that `flush` reads back. -/
theorem csvSplitLoop_cell (cell : Option (List Char)) (rest : List Char) (records : Records)
    (fields : List (Option (List Char))) (hrest : rest.head? ≠ some '"') :
    ∃ s : SplitState, csvSplitLoop (cellText cell ++ rest) (.atCell records fields) = csvSplitLoop rest s ∧
      s.inQuotes = false ∧ s.flush = .atCell records (fields ++ [readBack cell]) := by
  cases cell with
  | none => exact ⟨_, rfl, rfl, rfl⟩
  | some cell =>
    simp only [cellText, csvQuote]
    by_cases hq : needsQuotes cell = true
    · rw [if_pos hq, List.cons_append, List.append_assoc, List.singleton_append, csvSplitLoop]
      refine ⟨_, csvSplitLoop_quoted cell rest rfl hrest, rfl, ?_⟩
      have hne : cell.isEmpty = false := by
        cases cell with
        | nil => simp [needsQuotes] at hq
        | cons c cell => rfl
      simp [SplitState.flush, SplitState.atCell, readBack, hne]
    · rw [if_neg hq]
      refine ⟨_, csvSplitLoop_plain cell rest rfl (needsQuotes_eq_false.mp (by simpa using hq)), rfl, ?_⟩
      simp [SplitState.flush, SplitState.atCell, readBack]

/-! Lines and texts. -/

/-- A line's cells, joined by commas, and its break. -/
theorem csvSplitLoop_cells (cells : List (Option (List Char))) (last : Option (List Char)) (rest : List Char)
    (records : Records) (fields : List (Option (List Char))) :
    csvSplitLoop ((cells.flatMap fun cell => cellText cell ++ [',']) ++ cellText last ++ '\n' :: rest)
        (.atCell records fields) =
      csvSplitLoop rest (.atCell (records ++ [fields ++ (cells ++ [last]).map readBack]) []) := by
  induction cells generalizing fields with
  | nil =>
    obtain ⟨s, hcell, hin, hflush⟩ := csvSplitLoop_cell last ('\n' :: rest) records fields (by simp)
    rw [List.flatMap_nil, List.nil_append, hcell, csvSplitLoop, if_neg (by simp [hin]), if_neg (by decide),
      if_neg (by decide), if_neg (by decide), if_pos rfl]
    have hrecords : s.records = records := congrArg SplitState.records hflush
    simp [SplitState.endRecord, hflush, hrecords, SplitState.atCell]
  | cons cell cells ih =>
    obtain ⟨s, hcell, hin, hflush⟩ := csvSplitLoop_cell cell
      (',' :: ((cells.flatMap fun cell => cellText cell ++ [',']) ++ cellText last ++ '\n' :: rest)) records fields
      (by simp)
    have htext : ((cell :: cells).flatMap fun cell => cellText cell ++ [',']) ++ cellText last ++ '\n' :: rest =
        cellText cell ++ ',' :: ((cells.flatMap fun cell => cellText cell ++ [',']) ++ cellText last ++ '\n' :: rest) := by
      simp
    rw [htext, hcell, csvSplitLoop, if_neg (by simp [hin]), if_neg (by decide), if_pos rfl, hflush, ih]
    simp

theorem intercalate_comma (cells : List (List Char)) (last : List Char) :
    [','].intercalate (cells ++ [last]) = (cells.flatMap fun cell => cell ++ [',']) ++ last := by
  induction cells with
  | nil => simp
  | cons cell cells ih =>
    have hne : cells ++ [last] ≠ [] := by simp
    rw [List.cons_append, List.intercalate_cons_of_ne_nil hne, ih]
    simp

/-- A line of a row that has cells. -/
theorem csvSplitLoop_line {row : List (Option (List Char))} (hrow : row ≠ []) (rest : List Char) (records : Records) :
    csvSplitLoop (csvLine (row.map cellText) ++ rest) (.atCell records []) =
      csvSplitLoop rest (.atCell (records ++ [row.map readBack]) []) := by
  obtain ⟨cells, last, rfl⟩ : ∃ cells last, row = cells ++ [last] :=
    ⟨row.dropLast, row.getLast hrow, (List.dropLast_append_getLast hrow).symm⟩
  have hline := csvSplitLoop_cells cells last rest records []
  rw [csvLine, List.map_append, List.map_cons, List.map_nil, intercalate_comma, List.flatMap_map]
  simpa using hline

theorem csvSplitLoop_lines (rows : Records) (hrows : ∀ row ∈ rows, row ≠ []) (records : Records) :
    csvSplitLoop (rows.flatMap fun row => csvLine (row.map cellText)) (.atCell records []) =
      .atCell (records ++ rows.map (List.map readBack)) [] := by
  induction rows generalizing records with
  | nil => simp [csvSplitLoop]
  | cons row rows ih =>
    rw [List.flatMap_cons, csvSplitLoop_line (hrows row List.mem_cons_self),
      ih fun row hrow => hrows row (List.mem_cons_of_mem _ hrow)]
    simp

/-- What the splitter makes of the text of any lines with cells. -/
theorem csvSplitRecords_lines (rows : Records) (hrows : ∀ row ∈ rows, row ≠ []) :
    csvSplitRecords (rows.flatMap fun row => csvLine (row.map cellText)) = .ok (rows.map (List.map readBack)) := by
  have hloop := csvSplitLoop_lines rows hrows []
  unfold csvSplitRecords
  rw [show (⟨[], [], false, [], false⟩ : SplitState) = .atCell [] [] from rfl, hloop]
  simp [SplitState.finish, SplitState.atCell]

/-! Grids. -/

/-- Column names and rows of cells, each row as wide as the header. -/
structure Grid where
  names : List (List Char)
  rows : Records
  names_ne : names ≠ []
  rect : ∀ row ∈ rows, row.length = names.length

namespace Grid

variable (g : Grid)

/-- The frame that holds the grid: a String column for each name. -/
def frame : List Col := g.names.mapIdx fun i name =>
  { name
    len := g.rows.length
    cell := fun r => (g.rows[r]?.bind fun row => row[i]?.join).map .string }

/-- The header as a record, then the rows. -/
def records : Records := g.names.map some :: g.rows

theorem records_ne {row : List (Option (List Char))} (h : row ∈ g.records) : row ≠ [] := by
  rcases List.mem_cons.mp h with rfl | h
  · simpa using g.names_ne
  · rintro rfl
    have := g.rect [] h
    exact g.names_ne (List.length_eq_zero_iff.mp this.symm)

theorem frame_row {r : ℕ} {row : List (Option (List Char))} (h : g.rows[r]? = some row) :
    g.frame.map (Col.text r) = row.map cellText := by
  have hlen : row.length = g.names.length := g.rect row (List.mem_of_getElem? h)
  refine List.ext_getElem (by simp [frame, hlen]) fun i hi hi' => ?_
  have hrow : i < row.length := by simpa using hi'
  simp only [frame, List.getElem_map, List.getElem_mapIdx, Col.text, h, Option.bind_some,
    List.getElem?_eq_getElem hrow, Option.join_some]
  cases row[i] with
  | none => rfl
  | some s => rfl

theorem writeCsv_frame : writeCsv g.frame = g.records.flatMap fun row => csvLine (row.map cellText) := by
  have hheader : (g.frame.map fun c => csvQuote c.name) = (g.names.map some).map cellText := by
    refine List.ext_getElem (by simp [frame]) fun i hi hi' => ?_
    simp [frame, cellText]
  have hheight : (g.frame.head?.map Col.len).getD 0 = g.rows.length := by
    cases hnames : g.names with
    | nil => exact absurd hnames g.names_ne
    | cons name names => simp [frame, hnames]
  have hbody : ((List.range g.rows.length).map fun r => csvLine (g.frame.map (Col.text r))) =
      g.rows.map fun row => csvLine (row.map cellText) := by
    refine List.ext_getElem (by simp) fun r hr hr' => ?_
    have hrow : r < g.rows.length := by simpa using hr
    simp only [List.getElem_map, List.getElem_range]
    rw [g.frame_row (List.getElem?_eq_getElem hrow)]
  unfold writeCsv
  simp only [hheader, hheight, records, List.flatMap_cons]
  rw [List.flatMap_def, hbody, ← List.flatMap_def]

theorem map_eq_self_iff {α : Type} {f : α → α} {l : List α} : l.map f = l ↔ ∀ x ∈ l, f x = x := by
  have h := List.map_inj_left (l := l) (f := f) (g := id)
  rwa [List.map_id] at h

/-- No name and no value is the empty string. -/
def NoEmptyCell : Prop := (∀ name ∈ g.names, name ≠ []) ∧ ∀ row ∈ g.rows, some [] ∉ row

theorem readBack_eq_iff {cell : Option (List Char)} : readBack cell = cell ↔ cell ≠ some [] := by
  cases cell with
  | none => simp [readBack]
  | some s => cases s <;> simp [readBack]

theorem map_readBack_iff {row : List (Option (List Char))} : row.map readBack = row ↔ some [] ∉ row := by
  rw [map_eq_self_iff]
  refine ⟨fun h hmem => readBack_eq_iff.mp (h _ hmem) rfl, fun h cell hcell => readBack_eq_iff.mpr ?_⟩
  rintro rfl
  exact h hcell

theorem readBack_records_iff : g.records.map (List.map readBack) = g.records ↔ g.NoEmptyCell := by
  rw [map_eq_self_iff]
  simp only [map_readBack_iff, records, NoEmptyCell, List.forall_mem_cons, List.mem_map, Option.some.injEq,
    exists_eq_right]
  refine and_congr_left fun _ => ⟨fun h name hname => ?_, fun h hmem => h _ hmem rfl⟩
  rintro rfl
  exact h hname

end Grid

/-- One column `a` with the one value `""`. -/
def emptyValueGrid : Grid := ⟨[['a']], [[some []]], by simp, by simp⟩

end Karac.Runtime
