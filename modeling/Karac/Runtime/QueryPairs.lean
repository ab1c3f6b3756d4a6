import Karac.Runtime.Utf8
import Karac.Runtime.Utf8Lossy

/-! `parse_query_pairs`: the pairs of a query string, decoded, and the C strings that hand them to the request
handler. -/

namespace Karac.Runtime.Query

/-! The source's functions. -/

/-- `(b as char).to_digit(16)`. -/
def toDigit16 (b : UInt8) : Option UInt8 :=
  if 0x30 ≤ b ∧ b ≤ 0x39 then some (b - 0x30)
  else if 0x41 ≤ b ∧ b ≤ 0x46 then some (b - 0x41 + 10)
  else if 0x61 ≤ b ∧ b ≤ 0x66 then some (b - 0x61 + 10)
  else none

/-- The loop of `decode_form_component`. Two bytes behind a percent sign is what `i + 2 < bytes.len()` asks. -/
def decodeFormBytes : List UInt8 → List UInt8
  | [] => []
  | b :: rest =>
    if b = 0x2B then 0x20 :: decodeFormBytes rest
    else if b = 0x25 then
      match rest with
      | b1 :: b2 :: tail =>
        match toDigit16 b1, toDigit16 b2 with
        | some h, some l => (h * 16 + l) :: decodeFormBytes tail
        | _, _ => 0x25 :: decodeFormBytes (b1 :: b2 :: tail)
      | [b1] => 0x25 :: decodeFormBytes [b1]
      | [] => [0x25]
    else b :: decodeFormBytes rest

def decodeFormComponent (s : List UInt8) : List UInt8 := fromUtf8Lossy (decodeFormBytes s)

/-- `split_once('=')`, and the whole segment with no value where there is none. -/
def splitOnce (segment : List UInt8) : List UInt8 × List UInt8 :=
  (segment.takeWhile (· ≠ 0x3D), (segment.dropWhile (· ≠ 0x3D)).drop 1)

def parseQueryPairs (query : List UInt8) : List (List UInt8 × List UInt8) :=
  ((query.splitOn 0x26).filter (· ≠ [])).map fun segment =>
    (decodeFormComponent (splitOnce segment).1, decodeFormComponent (splitOnce segment).2)

/-- `CString::new(..).unwrap_or_default()`, with its terminator: empty where the string has a NUL inside. -/
def cstring (bs : List UInt8) : List UInt8 := (if 0 ∈ bs then [] else bs) ++ [0]

/-- The key and the value array of `serve_request`. -/
def queryArrays (query : List UInt8) : List (List UInt8) × List (List UInt8) :=
  let pairs := parseQueryPairs query
  (pairs.map fun pair => cstring pair.1, pairs.map fun pair => cstring pair.2)

/-- What the handler reads at a pointer: the bytes up to the first NUL. -/
def readCStr (mem : List UInt8) : List UInt8 := mem.takeWhile (· ≠ 0)

/-- The pairs that the handler sees. -/
def handlerPairs (query : List UInt8) : List (List UInt8 × List UInt8) :=
  ((queryArrays query).1.map readCStr).zip ((queryArrays query).2.map readCStr)

/-! The texts of a list of pairs. -/

def utf8 (s : String) : List UInt8 := s.toList.flatMap String.utf8EncodeChar

/-- The hexadecimal digits of a number below 16. -/
def IsHexDigit (n : ℕ) (c : UInt8) : Prop :=
  c = UInt8.ofNat (if n < 10 then 0x30 + n else 0x41 + n - 10) ∨
    c = UInt8.ofNat (if n < 10 then 0x30 + n else 0x61 + n - 10)

/-- The ways to write a byte of a component. -/
inductive ByteText (inKey : Bool) : UInt8 → List UInt8 → Prop
  | itself {b : UInt8} (hascii : b < 0x80) (hamp : b ≠ 0x26) (hplus : b ≠ 0x2B) (hpercent : b ≠ 0x25)
    (heq : inKey = true → b ≠ 0x3D) : ByteText inKey b [b]
  | plus : ByteText inKey 0x20 [0x2B]
  | escape {b c1 c2 : UInt8} (h1 : IsHexDigit (b.toNat / 16) c1) (h2 : IsHexDigit (b.toNat % 16) c2) :
    ByteText inKey b [0x25, c1, c2]

inductive ComponentText (inKey : Bool) : List UInt8 → List UInt8 → Prop
  | nil : ComponentText inKey [] []
  | cons {b : UInt8} {bs text rest : List UInt8} (hb : ByteText inKey b text) (hrest : ComponentText inKey bs rest) :
    ComponentText inKey (b :: bs) (text ++ rest)

/-- The equals sign may be left out before an empty value, unless nothing would be left. -/
inductive PairText : String × String → List UInt8 → Prop
  | assigned {k v : String} {kt vt : List UInt8} (hk : ComponentText true (utf8 k) kt)
    (hv : ComponentText false (utf8 v) vt) : PairText (k, v) (kt ++ 0x3D :: vt)
  | keyOnly {k : String} {kt : List UInt8} (hk : ComponentText true (utf8 k) kt) (hne : kt ≠ []) : PairText (k, "") kt

/-- The pairs joined by ampersands, with empty segments anywhere. -/
def QueryText (pairs : List (String × String)) (text : List UInt8) : Prop :=
  ∃ segments, text = [0x26].intercalate segments ∧ List.Forall₂ PairText pairs (segments.filter (· ≠ []))

/-! Components. -/

variable {inKey : Bool} {b : UInt8} {bs text kt vt : List UInt8}

theorem toDigit16_isHexDigit {n : ℕ} {c : UInt8} (hn : n < 16) (h : IsHexDigit n c) :
    toDigit16 c = some (UInt8.ofNat n) := by
  have hdigits : ∀ n < 16, ∀ a, (a = 0x41 ∨ a = 0x61) →
      toDigit16 (UInt8.ofNat (if n < 10 then 0x30 + n else a + n - 10)) = some (UInt8.ofNat n) := by
    rintro n hn a (rfl | rfl)
    · revert n; decide
    · revert n; decide
  obtain rfl | rfl := h
  · exact hdigits n hn 0x41 (.inl rfl)
  · exact hdigits n hn 0x61 (.inr rfl)

theorem halves (b : UInt8) : UInt8.ofNat (b.toNat / 16) * 16 + UInt8.ofNat (b.toNat % 16) = b := by
  have hb := b.toNat_lt
  rw [← UInt8.toNat_inj, UInt8.toNat_add, UInt8.toNat_mul, UInt8.toNat_ofNat', UInt8.toNat_ofNat',
    show (16 : UInt8).toNat = 16 from rfl]
  omega

theorem decodeFormBytes_plus (rest : List UInt8) : decodeFormBytes (0x2B :: rest) = 0x20 :: decodeFormBytes rest := by
  rw [decodeFormBytes.eq_def]
  rfl

theorem decodeFormBytes_itself (hplus : b ≠ 0x2B) (hpercent : b ≠ 0x25) (rest : List UInt8) :
    decodeFormBytes (b :: rest) = b :: decodeFormBytes rest := by
  rw [decodeFormBytes.eq_def]
  simp only [if_neg hplus, if_neg hpercent]

theorem decodeFormBytes_byteText (h : ByteText inKey b text) (rest : List UInt8) :
    decodeFormBytes (text ++ rest) = b :: decodeFormBytes rest := by
  cases h with
  | itself hascii hamp hplus hpercent =>
    exact decodeFormBytes_itself hplus hpercent rest
  | plus => exact decodeFormBytes_plus rest
  | escape h1 h2 =>
    have hb := b.toNat_lt
    have hd1 := toDigit16_isHexDigit (by omega) h1
    have hd2 := toDigit16_isHexDigit (by omega) h2
    simp only [List.cons_append, List.nil_append]
    rw [decodeFormBytes, if_neg (by decide), if_pos rfl]
    simp only [hd1, hd2, halves]

theorem decodeFormBytes_componentText (h : ComponentText inKey bs text) : decodeFormBytes text = bs := by
  induction h with
  | nil => rfl
  | cons hb _ ih => rw [decodeFormBytes_byteText hb, ih]

theorem decodeFormComponent_text {s : String} (h : ComponentText inKey (utf8 s) text) :
    decodeFormComponent text = utf8 s := by
  rw [decodeFormComponent, decodeFormBytes_componentText h, utf8, fromUtf8Lossy_utf8]

/-! The separators. -/

theorem ne_of_isHexDigit {n : ℕ} {c x : UInt8} (hn : n < 16) (h : IsHexDigit n c) (hx : toDigit16 x = none) : x ≠ c := by
  intro heq
  rw [heq, toDigit16_isHexDigit hn h] at hx
  cases hx

/-- A byte that the format reserves is only in a text as itself. -/
theorem not_mem_byteText {x : UInt8} (h : ByteText inKey b text) (hb : text ≠ [x]) (hplus : x ≠ 0x2B)
    (hpercent : x ≠ 0x25) (hx : toDigit16 x = none) : x ∉ text := by
  cases h with
  | itself hascii => simpa [eq_comm] using hb
  | plus => simpa using hplus
  | escape h1 h2 =>
    have hlt := b.toNat_lt
    have hc1 := ne_of_isHexDigit (by omega) h1 hx
    have hc2 := ne_of_isHexDigit (by omega) h2 hx
    simp [hpercent, hc1, hc2]

theorem amp_not_mem_byteText (h : ByteText inKey b text) : 0x26 ∉ text := by
  refine not_mem_byteText h ?_ (by decide) (by decide) rfl
  cases h with
  | itself _ hamp => simpa using hamp
  | plus => decide
  | escape => simp

theorem eq_not_mem_byteText (h : ByteText true b text) : 0x3D ∉ text := by
  refine not_mem_byteText h ?_ (by decide) (by decide) rfl
  cases h with
  | itself _ _ _ _ heq => simpa using heq rfl
  | plus => decide
  | escape => simp

theorem not_mem_componentText {x : UInt8} (hbyte : ∀ b t, ByteText inKey b t → x ∉ t)
    (h : ComponentText inKey bs text) : x ∉ text := by
  induction h with
  | nil => exact List.not_mem_nil
  | cons hb _ ih => exact List.not_mem_append (hbyte _ _ hb) ih

theorem amp_not_mem_componentText (h : ComponentText inKey bs text) : 0x26 ∉ text :=
  not_mem_componentText (fun _ _ => amp_not_mem_byteText) h

theorem eq_not_mem_componentText (h : ComponentText true bs text) : 0x3D ∉ text :=
  not_mem_componentText (fun _ _ => eq_not_mem_byteText) h

theorem amp_not_mem_pairText {p : String × String} (h : PairText p text) : 0x26 ∉ text := by
  cases h with
  | assigned hk hv =>
    exact List.not_mem_append (amp_not_mem_componentText hk)
      (List.not_mem_cons_of_ne_of_not_mem (by decide) (amp_not_mem_componentText hv))
  | keyOnly hk => exact amp_not_mem_componentText hk

theorem splitOnce_assigned (h : 0x3D ∉ kt) : splitOnce (kt ++ 0x3D :: vt) = (kt, vt) := by
  have hkt : ∀ b ∈ kt, decide (b ≠ 0x3D) = true := fun b hb => decide_eq_true (ne_of_mem_of_not_mem hb h)
  unfold splitOnce
  rw [List.takeWhile_append_of_pos hkt, List.dropWhile_append_of_pos hkt]
  simp

theorem splitOnce_keyOnly (h : 0x3D ∉ kt) : splitOnce kt = (kt, []) := by
  have hkt : ∀ b ∈ kt, decide (b ≠ 0x3D) = true := fun b hb => decide_eq_true (ne_of_mem_of_not_mem hb h)
  unfold splitOnce
  rw [List.takeWhile_eq_self_iff.mpr hkt, List.dropWhile_eq_nil_iff.mpr hkt]
  rfl

theorem decode_pairText {p : String × String} (h : PairText p text) :
    (decodeFormComponent (splitOnce text).1, decodeFormComponent (splitOnce text).2) = (utf8 p.1, utf8 p.2) := by
  cases h with
  | assigned hk hv =>
    rw [splitOnce_assigned (eq_not_mem_componentText hk)]
    simp only [decodeFormComponent_text hk, decodeFormComponent_text hv]
  | keyOnly hk =>
    rw [splitOnce_keyOnly (eq_not_mem_componentText hk)]
    simp only [decodeFormComponent_text hk]
    rfl

variable {pairs : List (String × String)}

theorem amp_not_mem_pairTexts {texts : List (List UInt8)} (h : List.Forall₂ PairText pairs texts) :
    ∀ text ∈ texts, 0x26 ∉ text := by
  induction h with
  | nil => exact fun _ hmem => absurd hmem List.not_mem_nil
  | cons hp _ ih => exact List.forall_mem_cons.mpr ⟨amp_not_mem_pairText hp, ih⟩

theorem decode_pairTexts {texts : List (List UInt8)} (h : List.Forall₂ PairText pairs texts) :
    texts.map (fun text => (decodeFormComponent (splitOnce text).1, decodeFormComponent (splitOnce text).2)) =
      pairs.map fun p => (utf8 p.1, utf8 p.2) := by
  induction h with
  | nil => rfl
  | cons hp _ ih => rw [List.map_cons, List.map_cons, decode_pairText hp, ih]

theorem amp_not_mem_segments {segments : List (List UInt8)}
    (h : List.Forall₂ PairText pairs (segments.filter (· ≠ []))) {segment : List UInt8} (hmem : segment ∈ segments) :
    0x26 ∉ segment := by
  by_cases hempty : segment = []
  · rw [hempty]
    exact List.not_mem_nil
  · have hkept : segment ∈ segments.filter (· ≠ []) := List.mem_filter.mpr ⟨hmem, decide_eq_true hempty⟩
    exact amp_not_mem_pairTexts h segment hkept

/-- The parser reads the pairs back, whatever the escapes. -/
theorem parseQueryPairs_text (h : QueryText pairs text) :
    parseQueryPairs text = pairs.map fun p => (utf8 p.1, utf8 p.2) := by
  obtain ⟨segments, rfl, hpairs⟩ := h
  have hsplit : (([0x26].intercalate segments).splitOn 0x26).filter (· ≠ []) = segments.filter (· ≠ []) := by
    by_cases hempty : segments = []
    · rw [hempty]
      rfl
    · rw [List.splitOn_intercalate _ (fun _ => amp_not_mem_segments hpairs) hempty]
  rw [parseQueryPairs, hsplit]
  exact decode_pairTexts hpairs

/-! The C strings. -/

theorem readCStr_cstring (bs : List UInt8) : readCStr (cstring bs) = if 0 ∈ bs then [] else bs := by
  unfold readCStr cstring
  split_ifs with h
  · rfl
  · rw [List.takeWhile_append_of_pos fun b hb => decide_eq_true (ne_of_mem_of_not_mem hb h)]
    simp

theorem readCStr_cstring_eq_iff (bs : List UInt8) : readCStr (cstring bs) = bs ↔ 0 ∉ bs := by
  rw [readCStr_cstring]
  split_ifs with h
  · exact ⟨fun heq => absurd (heq ▸ h) List.not_mem_nil, fun hnot => absurd h hnot⟩
  · exact iff_of_true rfl h

theorem handlerPairs_eq (query : List UInt8) :
    handlerPairs query = (parseQueryPairs query).map fun p => (readCStr (cstring p.1), readCStr (cstring p.2)) := by
  simp only [handlerPairs, queryArrays, List.map_map, List.zip_map']
  rfl

theorem zero_mem_utf8EncodeChar (c : Char) : 0 ∈ String.utf8EncodeChar c ↔ c = Char.ofNat 0 := by
  constructor
  · intro h
    have hscalar := scalar_range c
    have hzero : c.val.toNat = 0 := by
      revert h
      unfold String.utf8EncodeChar
      simp only
      split_ifs <;> simp only [List.mem_cons, List.not_mem_nil, or_false, eq_comm (a := (0 : UInt8)), ofNat_eq_iff,
        UInt8.toNat_zero] <;> omega
    exact Char.ext (UInt32.toNat_inj.mp hzero)
  · rintro rfl
    decide

theorem zero_mem_utf8 (s : String) : 0 ∈ utf8 s ↔ Char.ofNat 0 ∈ s.toList := by
  simp [utf8, List.mem_flatMap, zero_mem_utf8EncodeChar]

/-- The handler sees the pairs of the text if and only if no NUL is in them. -/
theorem query_pairs_survive_iff (h : QueryText pairs text) :
    handlerPairs text = pairs.map (fun p => (utf8 p.1, utf8 p.2)) ↔
      ∀ p ∈ pairs, Char.ofNat 0 ∉ p.1.toList ∧ Char.ofNat 0 ∉ p.2.toList := by
  rw [handlerPairs_eq, parseQueryPairs_text h, List.map_map, List.map_inj_left]
  refine forall₂_congr fun p _ => ?_
  rw [Function.comp_apply, Prod.mk_inj, readCStr_cstring_eq_iff, readCStr_cstring_eq_iff, zero_mem_utf8, zero_mem_utf8]

/-- A value in escapes of both cases behind an empty segment, and a key alone. -/
theorem queryText_escaped :
    QueryText [("a", "é"), ("b", "")] [0x26, 0x61, 0x3D, 0x25, 0x43, 0x33, 0x25, 0x61, 0x39, 0x26, 0x62] := by
  refine ⟨[[], [0x61, 0x3D, 0x25, 0x43, 0x33, 0x25, 0x61, 0x39], [0x62]], rfl,
    .cons (@PairText.assigned _ _ [0x61] _ ?_ ?_) (.cons (.keyOnly ?_ ?_) .nil)⟩
  · exact .cons (.itself (by decide) (by decide) (by decide) (by decide) (by decide)) .nil
  · exact .cons (.escape (.inl (by decide)) (.inl (by decide))) (.cons (.escape (.inr (by decide)) (.inl (by decide))) .nil)
  · exact .cons (.itself (by decide) (by decide) (by decide) (by decide) (by decide)) .nil
  · decide

theorem query_pairs_survive_escaped :
    handlerPairs [0x26, 0x61, 0x3D, 0x25, 0x43, 0x33, 0x25, 0x61, 0x39, 0x26, 0x62] =
      [(utf8 "a", utf8 "é"), (utf8 "b", utf8 "")] :=
  (query_pairs_survive_iff queryText_escaped).mpr (by simp)

/-- A value that is a NUL, written `a=%00`: the handler reads an empty value. -/
theorem nul_value_dropped :
    QueryText [("a", "\x00")] [0x61, 0x3D, 0x25, 0x30, 0x30] ∧
      handlerPairs [0x61, 0x3D, 0x25, 0x30, 0x30] = [(utf8 "a", utf8 "")] ∧
      handlerPairs [0x61, 0x3D, 0x25, 0x30, 0x30] ≠ [(utf8 "a", utf8 "\x00")] := by
  refine ⟨⟨[[0x61, 0x3D, 0x25, 0x30, 0x30]], rfl, .cons (@PairText.assigned _ _ [0x61] _ ?_ ?_) .nil⟩, by decide,
    by decide⟩
  · exact .cons (.itself (by decide) (by decide) (by decide) (by decide) (by decide)) .nil
  · exact .cons (.escape (.inl (by decide)) (.inl (by decide))) .nil

end Karac.Runtime.Query
