import Mathlib

/-! The runtime's UTF-8 helpers: one scalar decoded at an offset, one encoded, and the loop of `for c in s.chars()`. -/

namespace Karac.Runtime

/-- The sequence length that a lead byte from `0x80` on announces; `none` for a byte that starts none. -/
def leadWidth (b0 : UInt8) : Option ℕ :=
  if b0 < 0xC2 then none
  else if b0 < 0xE0 then some 2
  else if b0 < 0xF0 then some 3
  else if b0 < 0xF5 then some 4
  else none

/-- The bits of the code point in the lead byte. -/
def leadBits (width : ℕ) (b0 : UInt8) : UInt32 :=
  match width with
  | 2 => (b0 &&& 0x1F).toUInt32
  | 3 => (b0 &&& 0x0F).toUInt32
  | _ => (b0 &&& 0x07).toUInt32

/-- The continuation bytes from position `i` on, shifted in. Outer `none`: a read past the string; inner
`none`: a byte that is no continuation. -/
def combineContinuation (data : List UInt8) (start : ℕ) : ℕ → ℕ → UInt32 → Option (Option UInt32)
  | 0, _, cp => some (some cp)
  | n + 1, i, cp =>
    match data[start + i]? with
    | none => none
    | some b =>
      if b &&& 0xC0 ≠ 0x80 then some none
      else combineContinuation data start n (i + 1) ((cp <<< 6) ||| (b &&& 0x3F).toUInt32)

/-- No surrogate, no overlong form, nothing above the last code point. -/
def validCodepoint (width : ℕ) (cp : UInt32) : Bool :=
  match width with
  | 2 => 0x80 ≤ cp
  | 3 => 0x800 ≤ cp && !(0xD800 ≤ cp && cp ≤ 0xDFFF)
  | _ => 0x10000 ≤ cp && cp ≤ 0x10FFFF

/-- The recovery: the replacement character for the byte at `start`. -/
def replaced (start : ℕ) : UInt32 × ℤ := (0xFFFD, (start : ℤ) + 1)

/-- `karac_string_decode_char`: the code point stored and the offset returned; `none` for a read outside the
string. -/
def stringDecodeChar (data : List UInt8) (byteOffset : ℤ) : Option (UInt32 × ℤ) :=
  if byteOffset < 0 ∨ byteOffset ≥ data.length then some (0, data.length)
  else
    let start := byteOffset.toNat
    let remaining := data.length - start
    match data[start]? with
    | none => none
    | some b0 =>
      if b0 < 0x80 then some (b0.toUInt32, (start : ℤ) + 1)
      else match leadWidth b0 with
        | none => some (replaced start)
        | some width =>
          if remaining < width then some (replaced start)
          else match combineContinuation data start (width - 1) 1 (leadBits width b0) with
            | none => none
            | some none => some (replaced start)
            | some (some cp) =>
              if validCodepoint width cp then some (cp, (start : ℤ) + width) else some (replaced start)

/-- The byte `10xxxxxx` of six bits. -/
def continuationByte (bits : UInt32) : UInt8 := 0x80 ||| bits.toUInt8

/-- `karac_string_encode_char`: the bytes written. -/
def stringEncodeChar (cp : UInt32) : List UInt8 :=
  if cp < 0x80 then [cp.toUInt8]
  else if cp < 0x800 then [(0xC0 : UInt8) ||| (cp >>> 6).toUInt8, continuationByte (cp &&& 0x3F)]
  else if cp < 0x10000 then
    -- a surrogate is no scalar value: the replacement character stands for it
    if 0xD800 ≤ cp ∧ cp ≤ 0xDFFF then [0xEF, 0xBF, 0xBD]
    else
      [(0xE0 : UInt8) ||| (cp >>> 12).toUInt8, continuationByte ((cp >>> 6) &&& 0x3F),
        continuationByte (cp &&& 0x3F)]
  else if cp < 0x110000 then
    [(0xF0 : UInt8) ||| (cp >>> 18).toUInt8, continuationByte ((cp >>> 12) &&& 0x3F),
      continuationByte ((cp >>> 6) &&& 0x3F), continuationByte (cp &&& 0x3F)]
  else [0xEF, 0xBF, 0xBD]

/-- The loop over a string from an offset: the scalars bound in turn. `none` when the rounds run out or a
call reads outside the string. -/
def stringChars (data : List UInt8) : ℕ → ℤ → Option (List UInt32)
  | 0, offset => if offset < data.length then none else some []
  | fuel + 1, offset =>
    if offset < data.length then
      match stringDecodeChar data offset with
      | none => none
      | some (cp, offset') => (stringChars data fuel offset').map (cp :: ·)
    else some []

/-! The bit operations as arithmetic. -/

theorem and_mask (b : UInt8) (k : ℕ) (m : UInt8) (hm : m.toNat = 2 ^ k - 1) :
    (b &&& m).toUInt32.toNat = b.toNat % 2 ^ k := by
  rw [UInt8.toNat_toUInt32, UInt8.toNat_and, hm]
  exact Nat.and_two_pow_sub_one_eq_mod b.toNat k

theorem isContinuation_iff (b : UInt8) : b &&& 0xC0 = 0x80 ↔ 128 ≤ b.toNat ∧ b.toNat < 192 := by
  have hbyte : ∀ n < 256, n &&& 192 = 128 ↔ 128 ≤ n ∧ n < 192 := by decide +kernel
  rw [← UInt8.toNat_inj, UInt8.toNat_and]
  exact hbyte b.toNat b.toNat_lt

theorem shiftIn (cp : UInt32) (b : UInt8) (hcp : cp.toNat < 2 ^ 26) :
    ((cp <<< 6) ||| (b &&& 0x3F).toUInt32).toNat = cp.toNat * 64 + b.toNat % 64 := by
  rw [UInt32.toNat_or, and_mask b 6 0x3F rfl, UInt32.toNat_shiftLeft]
  have hshift : cp.toNat <<< ((6 : UInt32).toNat % 32) % 2 ^ 32 = cp.toNat <<< 6 := by
    have h6 : (6 : UInt32).toNat % 32 = 6 := rfl
    rw [h6, Nat.shiftLeft_eq, Nat.mod_eq_of_lt (by omega)]
  rw [hshift, ← Nat.shiftLeft_add_eq_or_of_lt (i := 6) (by omega), Nat.shiftLeft_eq]
  rfl

theorem continuationByte_toNat (bits : UInt32) (h : bits.toNat < 64) :
    (continuationByte bits).toNat = 128 + bits.toNat := by
  unfold continuationByte
  rw [UInt8.toNat_or, UInt32.toNat_toUInt8, Nat.mod_eq_of_lt (by omega)]
  exact (Nat.two_pow_add_eq_or_of_lt (i := 7) (by omega) 1).symm

theorem lead_toNat (mark : UInt8) (i a : ℕ) (hmark : mark.toNat = 2 ^ i * a) (bits : UInt32) (h : bits.toNat < 2 ^ i)
    (hi : i ≤ 8) : (mark ||| bits.toUInt8).toNat = mark.toNat + bits.toNat := by
  have hbyte : 2 ^ i ≤ 2 ^ 8 := Nat.pow_le_pow_right (by omega) hi
  rw [UInt8.toNat_or, UInt32.toNat_toUInt8, Nat.mod_eq_of_lt (by omega), hmark]
  exact (Nat.two_pow_add_eq_or_of_lt h a).symm

theorem sixBits_toNat (cp : UInt32) : (cp &&& 0x3F).toNat = cp.toNat % 64 := by
  rw [UInt32.toNat_and]
  exact Nat.and_two_pow_sub_one_eq_mod cp.toNat 6

theorem shiftRight_toNat (cp : UInt32) (k : ℕ) (s : UInt32) (hs : s.toNat = k) (hk : k < 32) :
    (cp >>> s).toNat = cp.toNat / 2 ^ k := by
  rw [UInt32.toNat_shiftRight, hs, Nat.mod_eq_of_lt hk, Nat.shiftRight_eq_div_pow]

/-! One call, on the suffix it looks at. -/

def IsContinuation (b : UInt8) : Prop := b &&& 0xC0 = 0x80

instance (b : UInt8) : Decidable (IsContinuation b) := inferInstanceAs (Decidable (_ = _))

/-- The value that six-bit groups append to `cp`. -/
def appendBits (cp : ℕ) (bytes : List UInt8) : ℕ := bytes.foldl (fun acc b => acc * 64 + b.toNat % 64) cp

theorem appendBits_lt {cp : ℕ} {bytes : List UInt8} : appendBits cp bytes < (cp + 1) * 64 ^ bytes.length := by
  induction bytes generalizing cp with
  | nil => simp [appendBits]
  | cons b bytes ih =>
    have hstep : (cp * 64 + b.toNat % 64 + 1) * 64 ^ bytes.length ≤ (cp + 1) * 64 * 64 ^ bytes.length :=
      Nat.mul_le_mul_right _ (by omega)
    calc appendBits cp (b :: bytes) < (cp * 64 + b.toNat % 64 + 1) * 64 ^ bytes.length := ih
      _ ≤ (cp + 1) * 64 * 64 ^ bytes.length := hstep
      _ = (cp + 1) * 64 ^ (b :: bytes).length := by rw [List.length_cons]; ring

theorem combineContinuation_eq {data : List UInt8} {start : ℕ} (bytes : List UInt8) {i : ℕ} {cp : UInt32}
    (hdata : (data.drop (start + i)).take bytes.length = bytes)
    (hcp : (cp.toNat + 1) * 64 ^ bytes.length ≤ 2 ^ 32) :
    combineContinuation data start bytes.length i cp =
      some (if ∀ b ∈ bytes, IsContinuation b then some (UInt32.ofNat (appendBits cp.toNat bytes)) else none) := by
  induction bytes generalizing i cp with
  | nil => simp [combineContinuation, appendBits]
  | cons b bytes ih =>
    obtain ⟨tail, htail⟩ : ∃ tail, data.drop (start + i) = b :: tail := by
      cases hdrop : data.drop (start + i) with
      | nil => simp [hdrop] at hdata
      | cons b' tail =>
        rw [hdrop, List.length_cons, List.take_succ_cons] at hdata
        exact ⟨tail, by rw [(List.cons.inj hdata).1]⟩
    have hget : data[start + i]? = some b := by
      have h0 := congrArg (·[0]?) htail
      simpa using h0
    have hrest : (data.drop (start + (i + 1))).take bytes.length = bytes := by
      rw [← Nat.add_assoc, ← List.drop_drop, htail]
      rw [htail, List.length_cons, List.take_succ_cons] at hdata
      simpa using (List.cons.inj hdata).2
    rw [List.length_cons, combineContinuation, hget]
    by_cases hb : IsContinuation b
    · have hlen : 64 ≤ 64 ^ (b :: bytes).length := Nat.le_self_pow (by simp) 64
      have hsmall : cp.toNat < 2 ^ 26 := by nlinarith
      have hshift := shiftIn cp b hsmall
      have hbound : (((cp <<< 6) ||| (b &&& 0x3F).toUInt32).toNat + 1) * 64 ^ bytes.length ≤ 2 ^ 32 := by
        rw [hshift]
        refine le_trans ?_ hcp
        rw [List.length_cons, pow_succ', ← mul_assoc]
        exact Nat.mul_le_mul_right _ (by omega)
      have hb' : ¬ b &&& 0xC0 ≠ 0x80 := not_not_intro hb
      simp only [if_neg hb', ih hrest hbound, hshift, List.forall_mem_cons, hb, true_and]
      rfl
    · have hb' : b &&& 0xC0 ≠ 0x80 := hb
      simp [if_pos hb', hb]

/-- The code point of a sequence with lead byte `b0`. -/
def codepointOf (width : ℕ) (b0 : UInt8) (bytes : List UInt8) : UInt32 :=
  UInt32.ofNat (appendBits (leadBits width b0).toNat bytes)

/-- What a lead byte says: its length and the bits it carries. -/
inductive Lead (b0 : UInt8) : ℕ → ℕ → Prop
  | two : 0xC2 ≤ b0.toNat → b0.toNat < 0xE0 → Lead b0 2 (b0.toNat % 32)
  | three : 0xE0 ≤ b0.toNat → b0.toNat < 0xF0 → Lead b0 3 (b0.toNat % 16)
  | four : 0xF0 ≤ b0.toNat → b0.toNat < 0xF5 → Lead b0 4 (b0.toNat % 8)

theorem lead_of_leadWidth {b0 : UInt8} {width : ℕ} (h : leadWidth b0 = some width) :
    Lead b0 width (leadBits width b0).toNat := by
  unfold leadWidth at h
  simp only [UInt8.lt_iff_toNat_lt] at h
  split_ifs at h with h1 h2 h3 h4
  · obtain rfl := Option.some.inj h
    have hbits : (leadBits 2 b0).toNat = b0.toNat % 32 := and_mask b0 5 0x1F rfl
    rw [hbits]
    exact .two (not_lt.mp h1) h2
  · obtain rfl := Option.some.inj h
    have hbits : (leadBits 3 b0).toNat = b0.toNat % 16 := and_mask b0 4 0x0F rfl
    rw [hbits]
    exact .three (not_lt.mp h2) h3
  · obtain rfl := Option.some.inj h
    have hbits : (leadBits 4 b0).toNat = b0.toNat % 8 := and_mask b0 3 0x07 rfl
    rw [hbits]
    exact .four (not_lt.mp h3) h4

theorem leadWidth_of_lead {b0 : UInt8} {width bits : ℕ} (h : Lead b0 width bits) :
    leadWidth b0 = some width := by
  unfold leadWidth
  simp only [UInt8.lt_iff_toNat_lt, UInt8.reduceToNat]
  cases h with
  | two h1 h2 => rw [if_neg (not_lt.mpr h1), if_pos h2]
  | three h1 h2 => rw [if_neg (not_lt.mpr (le_trans (by decide) h1)), if_neg (not_lt.mpr h1), if_pos h2]
  | four h1 h2 =>
    rw [if_neg (not_lt.mpr (le_trans (by decide) h1)), if_neg (not_lt.mpr (le_trans (by decide) h1)),
      if_neg (not_lt.mpr h1), if_pos h2]

theorem lead_succ {b0 : UInt8} {width bits : ℕ} (h : Lead b0 width bits) : ∃ n, width = n + 1 := by
  cases h with
  | two _ _ => exact ⟨1, rfl⟩
  | three _ _ => exact ⟨2, rfl⟩
  | four _ _ => exact ⟨3, rfl⟩

theorem lead_not_ascii {b0 : UInt8} {width bits : ℕ} (h : Lead b0 width bits) : ¬ b0 < 0x80 := by
  rw [UInt8.lt_iff_toNat_lt]
  cases h with
  | two h1 _ => exact not_lt.mpr (le_trans (by decide) h1)
  | three h1 _ => exact not_lt.mpr (le_trans (by decide) h1)
  | four h1 _ => exact not_lt.mpr (le_trans (by decide) h1)

theorem lead_bits {b0 : UInt8} {width bits : ℕ} (h : Lead b0 width bits) : (leadBits width b0).toNat = bits := by
  cases h with
  | two _ _ => exact and_mask b0 5 0x1F rfl
  | three _ _ => exact and_mask b0 4 0x0F rfl
  | four _ _ => exact and_mask b0 3 0x07 rfl

/-- The code point of a sequence fits its 32 bits. -/
theorem lead_bound {b0 : UInt8} {n bits : ℕ} (h : Lead b0 (n + 1) bits) : (bits + 1) * 64 ^ n ≤ 2 ^ 32 := by
  cases h with
  | two _ _ => omega
  | three _ _ => omega
  | four _ _ => omega

section Call

variable {data : List UInt8} {start : ℕ} {b0 : UInt8} {tail : List UInt8}

theorem start_lt (h : data.drop start = b0 :: tail) : start < data.length := by
  by_contra hge
  rw [List.drop_eq_nil_of_le (not_lt.mp hge)] at h
  cases h

theorem getElem?_start (h : data.drop start = b0 :: tail) : data[start]? = some b0 := by
  have h0 := congrArg (·[0]?) h
  simpa using h0

theorem remaining_eq (h : data.drop start = b0 :: tail) : data.length - start = tail.length + 1 := by
  rw [← List.length_drop, h, List.length_cons]

theorem stringDecodeChar_ascii (h : data.drop start = b0 :: tail) (hb : b0 < 0x80) :
    stringDecodeChar data start = some (b0.toUInt32, (start : ℤ) + 1) := by
  have hlt := start_lt h
  unfold stringDecodeChar
  rw [if_neg (by omega)]
  simp only [Int.toNat_natCast, getElem?_start h, if_pos hb]

theorem stringDecodeChar_stray (h : data.drop start = b0 :: tail) (hb : ¬ b0 < 0x80) (hw : leadWidth b0 = none) :
    stringDecodeChar data start = some (replaced start) := by
  have hlt := start_lt h
  unfold stringDecodeChar
  rw [if_neg (by omega)]
  simp only [Int.toNat_natCast, getElem?_start h, if_neg hb, hw]

theorem stringDecodeChar_truncated (h : data.drop start = b0 :: tail) (hb : ¬ b0 < 0x80) {width : ℕ}
    (hw : leadWidth b0 = some width) (hshort : tail.length + 1 < width) :
    stringDecodeChar data start = some (replaced start) := by
  have hlt := start_lt h
  unfold stringDecodeChar
  rw [if_neg (by omega)]
  simp only [Int.toNat_natCast, getElem?_start h, if_neg hb, hw, remaining_eq h, if_pos hshort]

/-- A call at a lead byte with enough bytes behind it. -/
theorem stringDecodeChar_lead (h : data.drop start = b0 :: tail) (hb : ¬ b0 < 0x80) (bytes : List UInt8)
    (hw : leadWidth b0 = some (bytes.length + 1)) (hbytes : tail.take bytes.length = bytes) :
    stringDecodeChar data start = some (
      if (∀ b ∈ bytes, IsContinuation b) ∧
          validCodepoint (bytes.length + 1) (codepointOf (bytes.length + 1) b0 bytes) = true then
        (codepointOf (bytes.length + 1) b0 bytes, (start : ℤ) + (bytes.length + 1 : ℕ))
      else replaced start) := by
  have hlt := start_lt h
  have hlong : bytes.length ≤ tail.length := by
    have hlen := congrArg List.length hbytes
    rw [List.length_take] at hlen
    omega
  have hdrop : (data.drop (start + 1)).take bytes.length = bytes := by
    rw [← List.drop_drop, h]
    exact hbytes
  have hcombine := combineContinuation_eq bytes hdrop (lead_bound (lead_of_leadWidth hw))
  unfold stringDecodeChar
  rw [if_neg (by omega)]
  simp only [Int.toNat_natCast, getElem?_start h, if_neg hb, hw, remaining_eq h,
    if_neg (show ¬ tail.length + 1 < bytes.length + 1 by omega), Nat.add_sub_cancel, hcombine]
  by_cases hall : ∀ b ∈ bytes, IsContinuation b
  · simp only [if_pos hall]
    split_ifs with hvalid hvalid' hvalid'
    · rfl
    · exact absurd ⟨hall, hvalid⟩ hvalid'
    · exact absurd hvalid'.2 hvalid
    · rfl
  · simp only [if_neg hall]
    rw [if_neg (fun hboth => hall hboth.1)]

end Call

/-! The encodings, byte by byte. -/

theorem ofNat_eq_iff {x : ℕ} {b : UInt8} : UInt8.ofNat x = b ↔ x % 256 = b.toNat := by
  rw [← UInt8.toNat_inj, UInt8.toNat_ofNat']

theorem scalar_range (c : Char) : c.val.toNat < 0xD800 ∨ 0xDFFF < c.val.toNat ∧ c.val.toNat < 0x110000 := c.valid

theorem utf8EncodeChar_one {c : Char} {b0 : UInt8} (h : c.val.toNat = b0.toNat) (hb : b0.toNat < 0x80) :
    String.utf8EncodeChar c = [b0] := by
  unfold String.utf8EncodeChar
  simp only [h]
  rw [if_pos (by omega), ofNat_eq_iff.mpr (by omega : _ = b0.toNat)]

theorem utf8EncodeChar_two {c : Char} {b0 b1 : UInt8}
    (h : c.val.toNat = b0.toNat % 32 * 64 + b1.toNat % 64) (h0 : 0xC2 ≤ b0.toNat) (h0' : b0.toNat < 0xE0)
    (h1 : 128 ≤ b1.toNat ∧ b1.toNat < 192) : String.utf8EncodeChar c = [b0, b1] := by
  unfold String.utf8EncodeChar
  simp only [h]
  rw [if_neg (by omega), if_pos (by omega), ofNat_eq_iff.mpr (by omega : _ = b0.toNat),
    ofNat_eq_iff.mpr (by omega : _ = b1.toNat)]

theorem utf8EncodeChar_three {c : Char} {b0 b1 b2 : UInt8}
    (h : c.val.toNat = (b0.toNat % 16 * 64 + b1.toNat % 64) * 64 + b2.toNat % 64) (hlong : 0x800 ≤ c.val.toNat)
    (h0 : 0xE0 ≤ b0.toNat) (h0' : b0.toNat < 0xF0) (h1 : 128 ≤ b1.toNat ∧ b1.toNat < 192)
    (h2 : 128 ≤ b2.toNat ∧ b2.toNat < 192) : String.utf8EncodeChar c = [b0, b1, b2] := by
  unfold String.utf8EncodeChar
  simp only
  rw [if_neg (by omega), if_neg (by omega), if_pos (by omega), ofNat_eq_iff.mpr (by omega : _ = b0.toNat),
    ofNat_eq_iff.mpr (by omega : _ = b1.toNat), ofNat_eq_iff.mpr (by omega : _ = b2.toNat)]

theorem utf8EncodeChar_four {c : Char} {b0 b1 b2 b3 : UInt8}
    (h : c.val.toNat = ((b0.toNat % 8 * 64 + b1.toNat % 64) * 64 + b2.toNat % 64) * 64 + b3.toNat % 64)
    (hlong : 0x10000 ≤ c.val.toNat) (h0 : 0xF0 ≤ b0.toNat) (h0' : b0.toNat < 0xF5)
    (h1 : 128 ≤ b1.toNat ∧ b1.toNat < 192) (h2 : 128 ≤ b2.toNat ∧ b2.toNat < 192)
    (h3 : 128 ≤ b3.toNat ∧ b3.toNat < 192) : String.utf8EncodeChar c = [b0, b1, b2, b3] := by
  unfold String.utf8EncodeChar
  simp only
  rw [if_neg (by omega), if_neg (by omega), if_neg (by omega), ofNat_eq_iff.mpr (by omega : _ = b0.toNat),
    ofNat_eq_iff.mpr (by omega : _ = b1.toNat), ofNat_eq_iff.mpr (by omega : _ = b2.toNat),
    ofNat_eq_iff.mpr (by omega : _ = b3.toNat)]

/-- The encoder writes the one well-formed encoding of every scalar. -/
theorem stringEncodeChar_eq (c : Char) : stringEncodeChar c.val = String.utf8EncodeChar c := by
  have hrange := scalar_range c
  have hsix := sixBits_toNat c.val
  have h6 : (c.val >>> 6).toNat = c.val.toNat / 64 := shiftRight_toNat c.val 6 6 rfl (by omega)
  have h12 : (c.val >>> 12).toNat = c.val.toNat / 4096 := shiftRight_toNat c.val 12 12 rfl (by omega)
  have h18 : (c.val >>> 18).toNat = c.val.toNat / 262144 := shiftRight_toNat c.val 18 18 rfl (by omega)
  have hcont : ∀ bits : UInt32, (continuationByte (bits &&& 0x3F)).toNat = 128 + bits.toNat % 64 := fun bits => by
    rw [continuationByte_toNat _ (by rw [sixBits_toNat]; omega), sixBits_toNat]
  unfold stringEncodeChar
  simp only [UInt32.lt_iff_toNat_lt, UInt32.le_iff_toNat_le, UInt32.reduceToNat]
  split_ifs with h1 h2 h3 hsur h4
  · refine (utf8EncodeChar_one ?_ ?_).symm
    · rw [UInt32.toNat_toUInt8]; omega
    · rw [UInt32.toNat_toUInt8]; omega
  · have hlead : ((0xC0 : UInt8) ||| (c.val >>> 6).toUInt8).toNat = 192 + (c.val >>> 6).toNat :=
      lead_toNat 0xC0 6 3 rfl _ (by omega) (by omega)
    have hb1 := hcont c.val
    exact (utf8EncodeChar_two (by omega) (by omega) (by omega) (by omega)).symm
  · omega
  · have hlead : ((0xE0 : UInt8) ||| (c.val >>> 12).toUInt8).toNat = 224 + (c.val >>> 12).toNat :=
      lead_toNat 0xE0 5 7 rfl _ (by omega) (by omega)
    have hb1 := hcont (c.val >>> 6)
    have hb2 := hcont c.val
    exact (utf8EncodeChar_three (by omega) (by omega) (by omega) (by omega) (by omega) (by omega)).symm
  · have hlead : ((0xF0 : UInt8) ||| (c.val >>> 18).toUInt8).toNat = 240 + (c.val >>> 18).toNat :=
      lead_toNat 0xF0 4 15 rfl _ (by omega) (by omega)
    have hb1 := hcont (c.val >>> 12)
    have hb2 := hcont (c.val >>> 6)
    have hb3 := hcont c.val
    exact (utf8EncodeChar_four (by omega) (by omega) (by omega) (by omega) (by omega) (by omega) (by omega)).symm
  · omega

/-! One call against the encodings. -/

theorem isContinuation_range {b : UInt8} (h : IsContinuation b) : 128 ≤ b.toNat ∧ b.toNat < 192 :=
  (isContinuation_iff b).mp h

theorem codepointOf_toNat {width : ℕ} {b0 : UInt8} {bytes : List UInt8}
    (h : appendBits (leadBits width b0).toNat bytes < 2 ^ 32) :
    (codepointOf width b0 bytes).toNat = appendBits (leadBits width b0).toNat bytes := by
  rw [codepointOf, UInt32.toNat_ofNat', Nat.mod_eq_of_lt h]

theorem validCodepoint_two {cp : UInt32} : validCodepoint 2 cp = true ↔ 0x80 ≤ cp.toNat := by
  simp [validCodepoint, UInt32.le_iff_toNat_le]

theorem validCodepoint_three {cp : UInt32} : validCodepoint 3 cp = true ↔
    0x800 ≤ cp.toNat ∧ (0xD800 ≤ cp.toNat → 0xDFFF < cp.toNat) := by
  simp only [validCodepoint, UInt32.le_iff_toNat_le, UInt32.reduceToNat, Bool.and_eq_true, decide_eq_true_eq,
    Bool.not_eq_true', Bool.and_eq_false_iff, decide_eq_false_iff_not]
  omega

theorem validCodepoint_four {cp : UInt32} : validCodepoint 4 cp = true ↔
    0x10000 ≤ cp.toNat ∧ cp.toNat ≤ 0x10FFFF := by
  simp [validCodepoint, UInt32.le_iff_toNat_le]

/-- A sequence that passes the decoder's checks is the encoding of its code point. -/
theorem scalar_of_lead {b0 : UInt8} {bytes : List UInt8}
    (hlead : Lead b0 (bytes.length + 1) (leadBits (bytes.length + 1) b0).toNat) (hcont : ∀ b ∈ bytes, IsContinuation b)
    (hvalid : validCodepoint (bytes.length + 1) (codepointOf (bytes.length + 1) b0 bytes) = true) :
    ∃ c : Char, c.val = codepointOf (bytes.length + 1) b0 bytes ∧ String.utf8EncodeChar c = b0 :: bytes := by
  have hbound : appendBits (leadBits (bytes.length + 1) b0).toNat bytes < 2 ^ 32 :=
    lt_of_lt_of_le appendBits_lt (lead_bound hlead)
  have hcp := codepointOf_toNat hbound
  generalize hw : codepointOf (bytes.length + 1) b0 bytes = cp at *
  generalize (leadBits (bytes.length + 1) b0).toNat = bits at *
  match bytes, hcont, hlead with
  | [b1], hcont, .two h0 h0' =>
    have h1 := isContinuation_range (hcont b1 (by simp))
    have hvalid := validCodepoint_two.mp hvalid
    simp only [appendBits, List.foldl] at hcp
    refine ⟨⟨cp, Or.inl (by omega)⟩, rfl, ?_⟩
    exact utf8EncodeChar_two hcp h0 h0' h1
  | [b1, b2], hcont, .three h0 h0' =>
    have h1 := isContinuation_range (hcont b1 (by simp))
    have h2 := isContinuation_range (hcont b2 (by simp))
    have hvalid := validCodepoint_three.mp hvalid
    simp only [appendBits, List.foldl] at hcp
    have hscalar : cp.toNat < 0xD800 ∨ 0xDFFF < cp.toNat ∧ cp.toNat < 0x110000 := by omega
    refine ⟨⟨cp, hscalar⟩, rfl, ?_⟩
    exact utf8EncodeChar_three hcp hvalid.1 h0 h0' h1 h2
  | [b1, b2, b3], hcont, .four h0 h0' =>
    have h1 := isContinuation_range (hcont b1 (by simp))
    have h2 := isContinuation_range (hcont b2 (by simp))
    have h3 := isContinuation_range (hcont b3 (by simp))
    have hvalid := validCodepoint_four.mp hvalid
    simp only [appendBits, List.foldl] at hcp
    refine ⟨⟨cp, Or.inr (by omega)⟩, rfl, ?_⟩
    exact utf8EncodeChar_four hcp hvalid.1 h0 h0' h1 h2 h3

/-- What a call at an offset inside the string may answer: one byte replaced, or one scalar whose whole
encoding stands there. -/
inductive Decoded (data : List UInt8) (start : ℕ) : UInt32 → ℕ → Prop
  | replaced : Decoded data start 0xFFFD (start + 1)
  | scalar (c : Char) (rest : List UInt8) (h : data.drop start = String.utf8EncodeChar c ++ rest) :
    Decoded data start c.val (start + (String.utf8EncodeChar c).length)

theorem stringDecodeChar_decoded {data : List UInt8} {start : ℕ} (hlt : start < data.length) :
    ∃ (cp : UInt32) (next : ℕ), stringDecodeChar data start = some (cp, (next : ℤ)) ∧ Decoded data start cp next := by
  obtain ⟨b0, tail, h⟩ : ∃ b0 tail, data.drop start = b0 :: tail :=
    List.exists_cons_of_length_pos (by rw [List.length_drop]; omega)
  have hreplaced (hr : stringDecodeChar data start = some (replaced start)) :
      ∃ (cp : UInt32) (next : ℕ), stringDecodeChar data start = some (cp, (next : ℤ)) ∧ Decoded data start cp next :=
    ⟨0xFFFD, start + 1, by rw [hr, replaced, Nat.cast_succ], .replaced⟩
  by_cases hascii : b0 < 0x80
  · have hvalid : b0.toUInt32.toNat < 0xD800 := by rw [UInt8.toNat_toUInt32]; have := b0.toNat_lt; omega
    have henc : String.utf8EncodeChar ⟨b0.toUInt32, Or.inl hvalid⟩ = [b0] :=
      utf8EncodeChar_one (UInt8.toNat_toUInt32 b0) hascii
    refine ⟨b0.toUInt32, start + 1, stringDecodeChar_ascii h hascii, ?_⟩
    have hscalar : Decoded data start _ _ := .scalar ⟨b0.toUInt32, Or.inl hvalid⟩ tail (by rw [h, henc]; rfl)
    rwa [henc] at hscalar
  cases hw : leadWidth b0 with
  | none => exact hreplaced (stringDecodeChar_stray h hascii hw)
  | some width =>
    by_cases hshort : tail.length + 1 < width
    · exact hreplaced (stringDecodeChar_truncated h hascii hw hshort)
    have hlead := lead_of_leadWidth hw
    obtain ⟨n, rfl⟩ := lead_succ hlead
    have hlen : (tail.take n).length = n := List.length_take_of_le (by omega)
    have hcall := stringDecodeChar_lead h hascii (tail.take n) (by rw [hlen]; exact hw) (by rw [hlen])
    split_ifs at hcall with hgood
    · obtain ⟨c, hc, henc⟩ := scalar_of_lead (by rw [hlen]; exact hlead) hgood.1 hgood.2
      refine ⟨_, _, hcall, ?_⟩
      have hscalar : Decoded data start _ _ := .scalar c (tail.drop n) (by
        rw [henc, h, List.cons_append, List.take_append_drop])
      rwa [hc, henc, List.length_cons] at hscalar
    · exact hreplaced hcall

theorem utf8EncodeChar_ascii {c : Char} (h : c.val.toNat < 0x80) : String.utf8EncodeChar c = [c.val.toUInt8] := by
  refine utf8EncodeChar_one ?_ ?_
  · rw [UInt32.toNat_toUInt8]; omega
  · rw [UInt32.toNat_toUInt8]; omega

theorem isContinuation_ofNat (x : ℕ) : IsContinuation (UInt8.ofNat (x % 64 + 128)) := by
  refine (isContinuation_iff _).mpr ?_
  rw [UInt8.toNat_ofNat']
  omega

/-- A scalar past ASCII is encoded as a sequence that passes the decoder's checks. -/
theorem lead_of_scalar {c : Char} (h : 0x80 ≤ c.val.toNat) :
    ∃ b0 bytes bits, String.utf8EncodeChar c = b0 :: bytes ∧ Lead b0 (bytes.length + 1) bits ∧
      (∀ b ∈ bytes, IsContinuation b) ∧ appendBits bits bytes = c.val.toNat ∧
      validCodepoint (bytes.length + 1) c.val = true := by
  have hrange := scalar_range c
  unfold String.utf8EncodeChar
  simp only
  rw [if_neg (by omega)]
  split_ifs with h2 h3
  · refine ⟨_, _, _, rfl, .two ?_ ?_, ?_, ?_, ?_⟩
    · rw [UInt8.toNat_ofNat']; omega
    · rw [UInt8.toNat_ofNat']; omega
    · simp only [List.forall_mem_cons, isContinuation_ofNat, true_and]
      exact List.forall_mem_nil _
    · simp only [appendBits, List.foldl, UInt8.toNat_ofNat']; omega
    · exact validCodepoint_two.mpr h
  · refine ⟨_, _, _, rfl, .three ?_ ?_, ?_, ?_, ?_⟩
    · rw [UInt8.toNat_ofNat']; omega
    · rw [UInt8.toNat_ofNat']; omega
    · simp only [List.forall_mem_cons, isContinuation_ofNat, true_and]
      exact List.forall_mem_nil _
    · simp only [appendBits, List.foldl, UInt8.toNat_ofNat']; omega
    · exact validCodepoint_three.mpr (by omega)
  · refine ⟨_, _, _, rfl, .four ?_ ?_, ?_, ?_, ?_⟩
    · rw [UInt8.toNat_ofNat']; omega
    · rw [UInt8.toNat_ofNat']; omega
    · simp only [List.forall_mem_cons, isContinuation_ofNat, true_and]
      exact List.forall_mem_nil _
    · simp only [appendBits, List.foldl, UInt8.toNat_ofNat']; omega
    · exact validCodepoint_four.mpr (by omega)

/-- The decoder reads back every encoded scalar. -/
theorem stringDecodeChar_encoded {data rest : List UInt8} {start : ℕ} (c : Char)
    (h : data.drop start = String.utf8EncodeChar c ++ rest) :
    stringDecodeChar data start = some (c.val, ((start + (String.utf8EncodeChar c).length : ℕ) : ℤ)) := by
  by_cases hascii : c.val.toNat < 0x80
  · rw [utf8EncodeChar_ascii hascii] at h ⊢
    have hsmall : c.val.toUInt8.toNat = c.val.toNat := by rw [UInt32.toNat_toUInt8]; omega
    have hback : c.val.toUInt8.toUInt32 = c.val := by
      rw [← UInt32.toNat_inj, UInt8.toNat_toUInt32, hsmall]
    have hcall := stringDecodeChar_ascii h (UInt8.lt_iff_toNat_lt.mpr (hsmall ▸ hascii))
    rw [hback] at hcall
    exact hcall
  · obtain ⟨b0, bytes, bits, henc, hlead, hcont, hvalue, hvalid⟩ := lead_of_scalar (not_lt.mp hascii)
    rw [henc] at h ⊢
    have hb0 := lead_not_ascii hlead
    have hcp : codepointOf (bytes.length + 1) b0 bytes = c.val := by
      unfold codepointOf
      rw [lead_bits hlead, hvalue, UInt32.ofNat_toNat]
    have hcall := stringDecodeChar_lead h hb0 bytes (leadWidth_of_lead hlead) List.take_left
    rw [hcp, if_pos ⟨hcont, hvalid⟩] at hcall
    exact hcall

theorem utf8EncodeChar_length_pos (c : Char) : 0 < (String.utf8EncodeChar c).length :=
  List.length_pos_of_ne_nil String.utf8EncodeChar_ne_nil

theorem utf8EncodeChar_length_le (c : Char) : (String.utf8EncodeChar c).length ≤ 4 := by
  rw [String.length_utf8EncodeChar]
  exact c.utf8Size_le_four

theorem utf8EncodeChar_injective : Function.Injective String.utf8EncodeChar := fun c c' h => by
  have hc : (String.utf8EncodeChar c).drop 0 = String.utf8EncodeChar c ++ [] := by simp
  have hc' : (String.utf8EncodeChar c).drop 0 = String.utf8EncodeChar c' ++ [] := by simp [h]
  have heq := (stringDecodeChar_encoded c hc).symm.trans (stringDecodeChar_encoded c' hc')
  exact Char.ext (Prod.mk.inj (Option.some.inj heq)).1

theorem Decoded.progress {data : List UInt8} {start next : ℕ} {cp : UInt32} (h : Decoded data start cp next)
    (hlt : start < data.length) : start < next ∧ next ≤ start + 4 ∧ next ≤ data.length := by
  cases h with
  | replaced => omega
  | scalar c rest h =>
    have hpos := utf8EncodeChar_length_pos c
    have hle := utf8EncodeChar_length_le c
    have hlen := congrArg List.length h
    rw [List.length_drop, List.length_append] at hlen
    omega

/-! The loop. -/

/-- The bytes of a string with these scalars. -/
def encodeChars (cs : List Char) : List UInt8 := cs.flatMap fun c => stringEncodeChar c.val

theorem encodeChars_eq (cs : List Char) : encodeChars cs = cs.flatMap String.utf8EncodeChar := by
  simp only [encodeChars, stringEncodeChar_eq]

/-- With a round for each byte the loop comes to the end of any string. -/
theorem stringChars_ends {data : List UInt8} {fuel start : ℕ} (hfuel : data.length ≤ start + fuel) :
    (stringChars data fuel start).isSome = true := by
  induction fuel generalizing start with
  | zero =>
    have hge : ¬ (start : ℤ) < data.length := by omega
    rw [stringChars, if_neg hge]
    rfl
  | succ fuel ih =>
    rw [stringChars]
    split_ifs with hlt
    · obtain ⟨cp, next, hcall, hdec⟩ := stringDecodeChar_decoded (Nat.cast_lt.mp hlt)
      have hprogress := hdec.progress (Nat.cast_lt.mp hlt)
      simp only [hcall, Option.isSome_map]
      exact ih (by omega)
    · rfl

theorem stringChars_encoded {data : List UInt8} {fuel start : ℕ} (cs : List Char)
    (h : data.drop start = cs.flatMap String.utf8EncodeChar) (hfuel : data.length ≤ start + fuel) :
    stringChars data fuel start = some (cs.map Char.val) := by
  induction fuel generalizing start cs with
  | zero =>
    rw [List.drop_eq_nil_of_le (by omega)] at h
    cases cs with
    | nil =>
      have hge : ¬ (start : ℤ) < data.length := by omega
      rw [stringChars, if_neg hge]
      rfl
    | cons c cs => simp [String.utf8EncodeChar_ne_nil] at h
  | succ fuel ih =>
    rw [stringChars]
    cases cs with
    | nil =>
      have hge : data.length ≤ start := List.drop_eq_nil_iff.mp h
      rw [if_neg (by omega)]
      rfl
    | cons c cs =>
      rw [List.flatMap_cons] at h
      have hpos := utf8EncodeChar_length_pos c
      have hlt : start < data.length := by
        have hlen := congrArg List.length h
        rw [List.length_drop, List.length_append] at hlen
        omega
      have hrest : data.drop (start + (String.utf8EncodeChar c).length) = cs.flatMap String.utf8EncodeChar := by
        rw [← List.drop_drop, h, List.drop_left]
      rw [if_pos (Nat.cast_lt.mpr hlt)]
      simp only [stringDecodeChar_encoded c h, ih cs hrest (by omega), Option.map_some, List.map_cons]

/-- Decoding is the exact inverse of encoding, and on arbitrary bytes a call stays inside the string, moves
on, and accepts nothing but a scalar's own encoding. -/
theorem string_chars_exact :
    (∀ cs : List Char, stringChars (encodeChars cs) (encodeChars cs).length 0 = some (cs.map Char.val)) ∧
    (∀ data : List UInt8, (stringChars data data.length 0).isSome = true) ∧
    ∀ (data : List UInt8) (start : ℕ), start < data.length →
      ∃ (cp : UInt32) (next : ℕ), stringDecodeChar data start = some (cp, (next : ℤ)) ∧
        start + 1 ≤ next ∧ next ≤ start + 4 ∧ next ≤ data.length ∧
        ((cp = 0xFFFD ∧ next = start + 1) ∨
          ∃ c : Char, c.val = cp ∧ (data.take next).drop start = stringEncodeChar c.val ∧
            ∀ c' : Char, (data.take next).drop start = stringEncodeChar c'.val → c' = c) := by
  refine ⟨fun cs => ?_, fun data => stringChars_ends (by simp), fun data start hlt => ?_⟩
  · exact stringChars_encoded cs (by rw [List.drop_zero, encodeChars_eq]) (by simp)
  · obtain ⟨cp, next, hcall, hdec⟩ := stringDecodeChar_decoded hlt
    obtain ⟨hnext, hfour, hlen⟩ := hdec.progress hlt
    refine ⟨cp, next, hcall, hnext, hfour, hlen, ?_⟩
    cases hdec with
    | replaced => exact Or.inl ⟨rfl, rfl⟩
    | scalar c rest h =>
      have hbytes : (data.take (start + (String.utf8EncodeChar c).length)).drop start = stringEncodeChar c.val := by
        rw [List.drop_take, h, Nat.add_sub_cancel_left, List.take_left, stringEncodeChar_eq]
      refine Or.inr ⟨c, rfl, hbytes, fun c' hc' => utf8EncodeChar_injective ?_⟩
      rw [← stringEncodeChar_eq, ← stringEncodeChar_eq, ← hc', hbytes]

/-- An overlong form of `/` and a truncated sequence are replaced, and `é` is read whole. -/
theorem string_chars_exact_overlong :
    (∃ (cp : UInt32) (next : ℕ), stringDecodeChar [0xC0, 0xAF, 0xC3, 0xA9] (2 : ℕ) = some (cp, (next : ℤ)) ∧
      next ≤ 4) ∧
      stringChars [0xC0, 0xAF, 0xC3, 0xA9, 0xE2, 0x82] 6 0 = some [0xFFFD, 0xFFFD, 0xE9, 0xFFFD, 0xFFFD] := by
  refine ⟨?_, by decide⟩
  obtain ⟨cp, next, hcall, -, -, hlen, -⟩ := string_chars_exact.2.2 [0xC0, 0xAF, 0xC3, 0xA9] 2 (by decide)
  exact ⟨cp, next, hcall, hlen⟩

end Karac.Runtime
