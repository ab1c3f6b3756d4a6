import Mathlib

/-! A reader of a fragment of TOML 1.0: comment and blank lines, `key = value` lines with integers, basic strings
and arrays of basic strings, and arrays of tables of one name. What it reads, a TOML reader reads alike. -/

namespace Karac.Lib.Toml

abbrev Text := List Char

inductive Value
  | string (s : Text)
  | integer (i : ℤ)
  | array (vs : List Value)
  | table (get : Text → Option Value)
  /-- Floats, booleans and dates. -/
  | other

abbrev Table := Text → Option Value

/-- The character that no TOML text may hold, and that is easily forgotten. -/
def delete : Char := Char.ofNat 0x7f

/-- Control characters other than the tab do not stand for themselves. -/
def isControl (c : Char) : Bool := decide (c.toNat < 0x20 ∧ c ≠ '\t' ∨ c = delete)

def isKeyChar (c : Char) : Bool := c.isAlphanum || c = '_' || c = '-'

def hexValue (c : Char) : Option ℕ :=
  if c.isDigit then some (c.toNat - 48)
  else if 65 ≤ c.toNat ∧ c.toNat ≤ 70 then some (c.toNat - 55)
  else if 97 ≤ c.toNat ∧ c.toNat ≤ 102 then some (c.toNat - 87)
  else none

def scalarValue (a b c d : Char) : Option Char := do
  let a ← hexValue a
  let b ← hexValue b
  let c ← hexValue c
  let d ← hexValue d
  let n := ((a * 16 + b) * 16 + c) * 16 + d
  if n.isValidChar then some (Char.ofNat n) else none

def escape : Char → Option Char
  | 'b' => some (Char.ofNat 8)
  | 't' => some '\t'
  | 'n' => some '\n'
  | 'f' => some (Char.ofNat 12)
  | 'r' => some '\r'
  | '"' => some '"'
  | '\\' => some '\\'
  | _ => none

def push (c : Char) (read : Option (Text × Text)) : Option (Text × Text) := read.map fun p => (c :: p.1, p.2)

/-- A basic string after its opening quote, with what follows it. -/
def basicString : Text → Option (Text × Text)
  | '\\' :: 'u' :: a :: b :: c :: d :: r => (scalarValue a b c d).bind fun x => push x (basicString r)
  | '\\' :: e :: r => (escape e).bind fun x => push x (basicString r)
  | '"' :: r => some ([], r)
  | c :: r => if isControl c || c = '\\' then none else push c (basicString r)
  | [] => none

def isBlank (c : Char) : Bool := c = ' ' || c = '\t' || c = '\n'

/-- The items of an array after its opening bracket, each followed by a comma. -/
def items : ℕ → Text → Option (List Value × Text)
  | 0, _ => none
  | n + 1, t =>
    match t.dropWhile isBlank with
    | ']' :: r => some ([], r)
    | '"' :: r => do
      let (s, r) ← basicString r
      match r with
      | ',' :: r => do
        let (vs, r) ← items n r
        some (.string s :: vs, r)
      | _ => none
    | _ => none

/-- A decimal integer without leading zeros, of 64 bits with the sign. -/
def integer (t : Text) : Option (Value × Text) :=
  let digits := t.takeWhile Char.isDigit
  let n := Nat.ofDigitChars 10 digits 0
  if digits = Nat.toDigits 10 n ∧ n < 2 ^ 63 then some (.integer n, t.dropWhile Char.isDigit) else none

def value (t : Text) : Option (Value × Text) :=
  match t with
  | '"' :: r => (basicString r).map fun p => (.string p.1, p.2)
  | '[' :: r => (items (r.length + 1) r).map fun p => (.array p.1, p.2)
  | _ => integer t

/-- Comments, blank lines and `key = value` lines, up to the next header. -/
def pairs : ℕ → Text → Option (List (Text × Value) × Text)
  | 0, _ => none
  | n + 1, t =>
    match t with
    | [] => some ([], [])
    | '[' :: r => some ([], '[' :: r)
    | '\n' :: r => pairs n r
    | '#' :: r =>
      if (r.takeWhile fun c => c ≠ '\n').any isControl then none else pairs n (r.dropWhile fun c => c ≠ '\n')
    | c :: r =>
      match (c :: r).takeWhile isKeyChar, (c :: r).dropWhile isKeyChar with
      | k :: key, ' ' :: '=' :: ' ' :: r => do
        let (v, r) ← value r
        match r with
        | '\n' :: r => do
          let (ps, r) ← pairs n r
          if (k :: key) ∈ ps.map Prod.fst then none else some ((k :: key, v) :: ps, r)
        | _ => none
      | _, _ => none

def tableOf (ps : List (Text × Value)) : Table := fun key => ps.lookup key

/-- The tables under headers of the name. -/
def sections (name : Text) : ℕ → Text → Option (List Value)
  | 0, _ => none
  | _ + 1, [] => some []
  | n + 1, t => do
    let r ← t.dropPrefix? ("[[".toList ++ name ++ "]]\n".toList)
    let (ps, r) ← pairs (r.length + 2) r
    let tables ← sections name n r
    some (.table (tableOf ps) :: tables)

/-- The name of a first header. -/
def headerName (t : Text) : Text := (t.drop 2).takeWhile isKeyChar

def document (t : Text) : Option Table := do
  let (ps, r) ← pairs (t.length + 2) t
  if r = [] then some (tableOf ps)
  else
    let name := headerName r
    if name = [] ∨ name ∈ ps.map Prod.fst then none
    else do
      let tables ← sections name (r.length + 1) r
      some (tableOf (ps ++ [(name, .array tables)]))

/-- A TOML reader: it reads the fragment as documented, and no text with the delete character. -/
structure Documented (read : Text → Option Table) : Prop where
  fragment : ∀ t table, delete ∉ t → document t = some table → read t = some table
  control : ∀ t, delete ∈ t → read t = none

/-! What the reader makes of written texts. -/

/-- The text is that of a basic string up to its closing quote. -/
def Quotes (q s : Text) : Prop := ∀ r, basicString (q ++ '"' :: r) = some (s, r)

theorem Quotes.nil : Quotes [] [] := fun r => by simp [basicString]

theorem Quotes.raw {c : Char} (hcontrol : isControl c = false) (hslash : c ≠ '\\') (hquote : c ≠ '"') {q s : Text}
    (h : Quotes q s) : Quotes (c :: q) (c :: s) := by
  intro r
  rw [List.cons_append, basicString, h r]
  · simp [hcontrol, hslash, push]
  · exact fun _ _ _ _ _ heq _ => hslash heq
  · exact fun _ _ heq _ => hslash heq
  · exact hquote

theorem Quotes.escape {e c : Char} (he : Toml.escape e = some c) {q s : Text} (h : Quotes q s) :
    Quotes ('\\' :: e :: q) (c :: s) := by
  intro r
  rw [List.cons_append, List.cons_append, basicString, h r, he]
  · rfl
  · rintro a b c d r rfl
    exact absurd he (by simp [Toml.escape])

theorem Quotes.unicode {a b c d x : Char} (hx : scalarValue a b c d = some x) {q s : Text} (h : Quotes q s) :
    Quotes ('\\' :: 'u' :: a :: b :: c :: d :: q) (x :: s) := by
  intro r
  simp only [List.cons_append]
  rw [basicString, h r, hx]
  rfl

theorem value_string {q s : Text} (h : Quotes q s) (r : Text) :
    value ('"' :: q ++ '"' :: r) = some (.string s, r) := by
  rw [List.cons_append, value, h r]
  rfl

theorem takeWhile_append_of_all {p : Char → Bool} {l : Text} (hl : ∀ c ∈ l, p c = true) {d : Char}
    (hd : p d = false) (r : Text) : (l ++ d :: r).takeWhile p = l ∧ (l ++ d :: r).dropWhile p = d :: r := by
  induction l with
  | nil => simp [hd]
  | cons c l ih =>
    obtain ⟨hc, hrest⟩ := List.forall_mem_cons.mp hl
    obtain ⟨htake, hdrop⟩ := ih hrest
    rw [List.cons_append, List.takeWhile_cons_of_pos hc, List.dropWhile_cons_of_pos hc, htake, hdrop]
    exact ⟨rfl, rfl⟩

theorem value_integer {n : ℕ} (hn : n < 2 ^ 63) (r : Text) : value (Nat.toDigits 10 n ++ '\n' :: r) = some (.integer n, '\n' :: r) := by
  have hdigits : ∀ c ∈ Nat.toDigits 10 n, c.isDigit = true := fun c hc =>
    Nat.isDigit_of_mem_toDigits (by decide) le_rfl hc
  have hend : Char.isDigit '\n' = false := by decide
  obtain ⟨htake, hdrop⟩ := takeWhile_append_of_all hdigits hend r
  have hint : integer (Nat.toDigits 10 n ++ '\n' :: r) = some (.integer n, '\n' :: r) := by
    unfold integer
    simp only [htake, hdrop, Nat.ofDigitChars_ten_toDigits, true_and, if_pos hn]
  obtain ⟨d, ds, hcons⟩ := List.exists_cons_of_ne_nil (Nat.toDigits_ne_nil : Nat.toDigits 10 n ≠ [])
  have hd := hdigits d (hcons ▸ List.mem_cons_self)
  rw [hcons, List.cons_append] at hint ⊢
  rw [value]
  · exact hint
  · rintro r' heq
    rw [(List.cons.inj heq).1] at hd
    exact absurd hd (by decide)
  · rintro r' heq
    rw [(List.cons.inj heq).1] at hd
    exact absurd hd (by decide)

/-- One string of an array on a line of its own. -/
def itemLine (q : Text) : Text := "    ".toList ++ '"' :: q ++ "\",\n".toList

theorem items_lines {quote : Text → Text} (ss : List Text) (hss : ∀ s ∈ ss, Quotes (quote s) s) (n : ℕ)
    (hn : ss.length < n) (r : Text) :
    items n ('\n' :: ss.flatMap (fun s => itemLine (quote s)) ++ ']' :: r) = some (ss.map Value.string, r) := by
  induction ss generalizing n with
  | nil =>
    obtain ⟨n, rfl⟩ := Nat.exists_eq_succ_of_ne_zero (Nat.ne_of_gt hn)
    rw [items]
    simp [isBlank]
  | cons s ss ih =>
    obtain ⟨n, rfl⟩ := Nat.exists_eq_succ_of_ne_zero (Nat.ne_of_gt (Nat.zero_lt_of_lt hn))
    obtain ⟨hs, hrest⟩ := List.forall_mem_cons.mp hss
    have htail := ih hrest n (by simpa using hn)
    have hs' := hs (',' :: ('\n' :: ss.flatMap (fun s => itemLine (quote s)) ++ ']' :: r))
    rw [items]
    have hdrop : ('\n' :: (s :: ss).flatMap (fun s => itemLine (quote s)) ++ ']' :: r).dropWhile isBlank =
        '"' :: (quote s ++ '"' :: ',' :: ('\n' :: ss.flatMap (fun s => itemLine (quote s)) ++ ']' :: r)) := by
      simp [isBlank, itemLine]
    rw [hdrop]
    simp only [Option.bind_eq_bind]
    rw [hs', Option.bind_some]
    simp only
    rw [htail, Option.bind_some]
    rfl

/-! Documents line by line. -/

/-- A key with the text of its value and the value. -/
structure Line where
  key : Text
  text : Text
  value : Value

namespace Line

def write (l : Line) : Text := l.key ++ " = ".toList ++ l.text ++ ['\n']

/-- The key is a bare key and the text is read as the value. -/
structure Valid (l : Line) : Prop where
  key_ne : l.key ≠ []
  key_chars : ∀ c ∈ l.key, isKeyChar c = true
  reads : ∀ r, Toml.value (l.text ++ '\n' :: r) = some (l.value, '\n' :: r)

end Line

def entries (ls : List Line) : List (Text × Value) := ls.map fun l => (l.key, l.value)

theorem key_mem_entries {ls : List Line} {key : Text} : key ∈ (entries ls).map Prod.fst ↔ key ∈ ls.map Line.key := by
  unfold entries
  rw [List.map_map]
  rfl

theorem pairs_line {l : Line} (hl : l.Valid) {n : ℕ} {r r' : Text} {ps : List (Text × Value)}
    (hrest : pairs n r = some (ps, r')) (hkey : l.key ∉ ps.map Prod.fst) :
    pairs (n + 1) (l.write ++ r) = some ((l.key, l.value) :: ps, r') := by
  obtain ⟨key, text, v⟩ := l
  obtain ⟨hne, hchars, hreads⟩ := hl
  simp only at hne hchars hreads hkey ⊢
  obtain ⟨k, ks, rfl⟩ := List.exists_cons_of_ne_nil hne
  have hspace : isKeyChar ' ' = false := by decide
  obtain ⟨htake, hdrop⟩ := takeWhile_append_of_all hchars hspace ('=' :: ' ' :: (text ++ '\n' :: r))
  have hwrite : (Line.mk (k :: ks) text v).write ++ r = (k :: ks) ++ ' ' :: '=' :: ' ' :: (text ++ '\n' :: r) := by
    simp [Line.write]
  have hk := hchars k List.mem_cons_self
  rw [hwrite]
  rw [List.cons_append] at htake hdrop ⊢
  rw [pairs]
  · rw [htake, hdrop]
    simp only [Option.bind_eq_bind]
    rw [hreads r, Option.bind_some]
    simp only
    rw [hrest, Option.bind_some]
    exact if_neg hkey
  all_goals
    rintro rfl
    exact absurd hk (by decide)

/-- Lines, up to a text at which reading stops. -/
theorem pairs_lines (ls : List Line) (hls : ∀ l ∈ ls, l.Valid) (hnodup : (ls.map Line.key).Nodup) {r r' : Text}
    (hstop : ∀ m, pairs (m + 2) r = some ([], r')) (n : ℕ) (hn : ls.length + 2 ≤ n) :
    pairs n (ls.flatMap Line.write ++ r) = some (entries ls, r') := by
  induction ls generalizing n with
  | nil =>
    obtain ⟨m, rfl⟩ := Nat.exists_eq_add_of_le hn
    rw [List.length_nil, Nat.zero_add, Nat.add_comm]
    exact hstop m
  | cons l ls ih =>
    obtain ⟨hl, hrest⟩ := List.forall_mem_cons.mp hls
    obtain ⟨hnot, hnodup⟩ := List.nodup_cons.mp hnodup
    rw [List.length_cons] at hn
    obtain ⟨m, rfl⟩ : ∃ m, n = m + 1 := ⟨n - 1, by omega⟩
    rw [List.flatMap_cons, List.append_assoc]
    exact pairs_line hl (ih hrest hnodup m (by omega)) (fun hmem => hnot (key_mem_entries.mp hmem))

def sectionText (name : Text) (ls : List Line) : Text :=
  "[[".toList ++ name ++ "]]\n".toList ++ ls.flatMap Line.write

/-- Sections, a blank line before each. -/
def sectionsText (name : Text) (tables : List (List Line)) : Text :=
  tables.flatMap fun ls => '\n' :: sectionText name ls

theorem sectionsText_cons (name : Text) (ls : List Line) (tables : List (List Line)) :
    sectionsText name (ls :: tables) = '\n' :: '[' :: '[' :: (name ++ "]]\n".toList ++ ls.flatMap Line.write ++
      sectionsText name tables) := by
  simp [sectionsText, sectionText]

theorem pairs_stop (name : Text) (tables : List (List Line)) (m : ℕ) :
    pairs (m + 2) (sectionsText name tables) = some ([], (sectionsText name tables).drop 1) := by
  cases tables with
  | nil => rfl
  | cons ls tables =>
    rw [sectionsText_cons]
    rfl

theorem mul_length_le_flatMap {α β : Type} {k : ℕ} {f : α → List β} {l : List α} (h : ∀ a ∈ l, k ≤ (f a).length) :
    k * l.length ≤ (l.flatMap f).length := by
  induction l with
  | nil => exact le_rfl
  | cons a l ih =>
    obtain ⟨ha, hl⟩ := List.forall_mem_cons.mp h
    have := ih hl
    rw [List.flatMap_cons, List.length_append, List.length_cons, Nat.mul_succ]
    omega

theorem length_flatMap_write (ls : List Line) : ls.length ≤ (ls.flatMap Line.write).length := by
  have h := @mul_length_le_flatMap _ _ 1 Line.write ls fun l _ => by simp [Line.write]; omega
  omega

theorem length_sectionsText (name : Text) (tables : List (List Line)) :
    2 * tables.length ≤ (sectionsText name tables).length :=
  mul_length_le_flatMap fun ls _ => by simp [sectionText]

theorem sections_spec (name : Text) (tables : List (List Line)) (hvalid : ∀ ls ∈ tables, ∀ l ∈ ls, l.Valid)
    (hnodup : ∀ ls ∈ tables, (ls.map Line.key).Nodup) (n : ℕ) (hn : tables.length < n) :
    sections name n ((sectionsText name tables).drop 1) =
      some (tables.map fun ls => .table (tableOf (entries ls))) := by
  induction tables generalizing n with
  | nil =>
    obtain ⟨n, rfl⟩ := Nat.exists_eq_succ_of_ne_zero (Nat.ne_of_gt hn)
    rfl
  | cons ls tables ih =>
    obtain ⟨n, rfl⟩ := Nat.exists_eq_succ_of_ne_zero (Nat.ne_of_gt (Nat.zero_lt_of_lt hn))
    obtain ⟨hls, hrest⟩ := List.forall_mem_cons.mp hvalid
    obtain ⟨hnd, hnds⟩ := List.forall_mem_cons.mp hnodup
    have htail := ih hrest hnds n (by simpa using hn)
    have hdrop : ("[[".toList ++ name ++ "]]\n".toList ++ (ls.flatMap Line.write ++ sectionsText name tables)).dropPrefix?
        ("[[".toList ++ name ++ "]]\n".toList) = some (ls.flatMap Line.write ++ sectionsText name tables) :=
      List.dropPrefix?_eq_some_iff.mpr ⟨_, rfl, beq_self_eq_true _⟩
    have hpairs := pairs_lines ls hls hnd (pairs_stop name tables)
      ((ls.flatMap Line.write ++ sectionsText name tables).length + 2) (by
        have := length_flatMap_write ls
        rw [List.length_append]
        omega)
    have htext : (sectionsText name (ls :: tables)).drop 1 =
        "[[".toList ++ name ++ "]]\n".toList ++ (ls.flatMap Line.write ++ sectionsText name tables) := by
      rw [sectionsText_cons]
      simp
    rw [htext, sections, hdrop]
    · simp only [Option.bind_eq_bind, Option.bind_some]
      rw [hpairs, Option.bind_some]
      simp only
      rw [htail, Option.bind_some]
      rfl
    · simp

def commentLine (text : Text) : Text := '#' :: text ++ ['\n']

theorem pairs_comment {text : Text} (hline : ∀ c ∈ text, c ≠ '\n') (hcontrol : ∀ c ∈ text, isControl c = false)
    (n : ℕ) (r : Text) : pairs (n + 2) (commentLine text ++ r) = pairs n r := by
  have hall : ∀ c ∈ text, decide (c ≠ '\n') = true := fun c hc => decide_eq_true (hline c hc)
  obtain ⟨htake, hdrop⟩ := takeWhile_append_of_all hall (by decide : decide ('\n' ≠ '\n') = false) r
  have hany : text.any isControl = false := List.any_eq_false.mpr fun c hc => by rw [hcontrol c hc]; exact Bool.false_ne_true
  have htext : commentLine text ++ r = '#' :: (text ++ '\n' :: r) := by simp [commentLine]
  rw [htext, pairs]
  rw [htake, hdrop, hany]
  rfl

/-- Comment lines, top lines, and the sections of one name. -/
def documentText (comments : List Text) (top : List Line) (name : Text) (tables : List (List Line)) : Text :=
  comments.flatMap commentLine ++ ('\n' :: (top.flatMap Line.write ++ sectionsText name tables))

/-- The written document is read as its lines and sections. -/
theorem document_spec {comments : List Text} {top : List Line} {name : Text} {tables : List (List Line)}
    (hcomments : ∀ text ∈ comments, ∀ c ∈ text, c ≠ '\n' ∧ isControl c = false) (htop : ∀ l ∈ top, l.Valid)
    (htopkeys : (top.map Line.key).Nodup) (hname : name ≠ []) (hchars : ∀ c ∈ name, isKeyChar c = true)
    (hfree : name ∉ top.map Line.key) (hvalid : ∀ ls ∈ tables, ∀ l ∈ ls, l.Valid)
    (hnodup : ∀ ls ∈ tables, (ls.map Line.key).Nodup) :
    document (documentText comments top name tables) = some (tableOf (entries top ++
      if tables = [] then [] else [(name, .array (tables.map fun ls => .table (tableOf (entries ls))))])) := by
  have hpairs : ∀ n, 2 * comments.length + top.length + 3 ≤ n →
      pairs n (documentText comments top name tables) = some (entries top, (sectionsText name tables).drop 1) := by
    unfold documentText
    induction comments with
    | nil =>
      intro n hn
      obtain ⟨n, rfl⟩ : ∃ m, n = m + 1 := ⟨n - 1, by omega⟩
      rw [List.flatMap_nil, List.nil_append, pairs]
      exact pairs_lines top htop htopkeys (pairs_stop name tables) n (by simp at hn; omega)
    | cons text comments ih =>
      intro n hn
      obtain ⟨htext, hrest⟩ := List.forall_mem_cons.mp hcomments
      rw [List.length_cons] at hn
      obtain ⟨m, rfl⟩ : ∃ m, n = m + 2 := ⟨n - 2, by omega⟩
      rw [List.flatMap_cons, List.append_assoc, pairs_comment (fun c hc => (htext c hc).1) fun c hc => (htext c hc).2]
      exact ih hrest m (by omega)
  have hlen : 2 * comments.length + top.length + 3 ≤ (documentText comments top name tables).length + 2 := by
    have h1 := length_flatMap_write top
    have h2 : 2 * comments.length ≤ (comments.flatMap commentLine).length :=
      mul_length_le_flatMap fun text _ => by simp [commentLine]
    unfold documentText
    rw [List.length_append, List.length_cons, List.length_append]
    omega
  unfold document
  rw [hpairs _ hlen]
  simp only [Option.bind_eq_bind, Option.bind_some]
  cases htables : tables with
  | nil => simp [sectionsText]
  | cons ls rest =>
    have hhead : headerName ((sectionsText name (ls :: rest)).drop 1) = name := by
      have hbracket : isKeyChar ']' = false := by decide
      rw [sectionsText_cons]
      unfold headerName
      simpa using (takeWhile_append_of_all hchars hbracket (']' :: '\n' :: (ls.flatMap Line.write ++
        sectionsText name rest))).1
    have hne : (sectionsText name (ls :: rest)).drop 1 ≠ [] := by
      rw [sectionsText_cons]
      simp
    have hnot : ¬ (name = [] ∨ name ∈ (entries top).map Prod.fst) :=
      not_or.mpr ⟨hname, fun hmem => hfree (key_mem_entries.mp hmem)⟩
    have hfuel : tables.length < ((sectionsText name tables).drop 1).length + 1 := by
      have := length_sectionsText name tables
      rw [List.length_drop]
      omega
    have hsections := sections_spec name tables hvalid hnodup _ hfuel
    rw [htables] at hsections
    rw [if_neg hne, hhead, if_neg hnot, hsections]
    simp

end Karac.Lib.Toml
