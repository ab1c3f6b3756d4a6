import Karac.Runtime.FormatSpec
import Karac.Runtime.FormatShown

/-! `karac_runtime_int_fmt`, the fast path that compiled programs take for an integer hole: the fields of the specifier
come decoded, and nothing is allocated. `none` is an access outside the digit scratch or the buffer. -/

namespace Karac.Runtime.Format

/-- The caller's output buffer: `none` for a null pointer, else the bytes from it on, of which `len` are for writing. -/
structure Buffer where
  bytes : Option (List UInt8)
  len : ℤ
  len_le : ∀ b ∈ bytes, len ≤ b.length

/-- The byte of a digit. -/
def digitByte (upper : Bool) (d : ℕ) : UInt8 :=
  if d < 10 then 48 + d.toUInt8 else if upper then 65 + (d - 10).toUInt8 else 97 + (d - 10).toUInt8

/-- The digit loop, from the scratch's end; the scratch and where the digits begin in it. -/
def digitLoop (base : ℕ) (upper : Bool) : ℕ → List UInt8 → ℕ → Option (List UInt8 × ℕ)
  | 0, _, _ => none
  | i + 1, scratch, mag =>
    let scratch := scratch.set i (digitByte upper (mag % base))
    let mag := mag / base
    if mag = 0 then some (scratch, i) else digitLoop base upper i scratch mag

/-- One byte at the cursor, dropped past `cap`. The state: the buffer and the cursor. -/
def put (cap : ℕ) (s : List UInt8 × ℕ) (b : UInt8) : Option (List UInt8 × ℕ) :=
  if s.2 < cap then
    if s.2 < s.1.length then some (s.1.set s.2 b, s.2 + 1) else none
  else some s

def putAll (cap : ℕ) (bs : List UInt8) (s : List UInt8 × ℕ) : Option (List UInt8 × ℕ) := bs.foldlM (put cap) s

/-- `karac_runtime_int_fmt`: the buffer after the call, and the count returned. The flags are C integers. -/
def intFmt (lo hi : BitVec 64) (isSigned radix zeroPad width alignLeft : ℤ) (buf : Buffer) :
    Option (Option (List UInt8) × ℤ) :=
  match buf.bytes with
  | none => some (none, 0)
  | some bytes =>
    if buf.len ≤ 0 then some (some bytes, 0)
    else
      let cap := buf.len.toNat
      let raw : BitVec 128 := (hi.setWidth 128 <<< 64) ||| lo.setWidth 128
      let dec := radix = 10
      let neg := isSigned ≠ 0 ∧ dec ∧ raw.toInt < 0
      let base := if radix = 8 then 8 else if radix = 16 ∨ radix = -16 then 16 else 10
      let upper := radix = -16
      let mag := if neg then raw.toInt.natAbs else raw.toNat
      do
        let (scratch, i) ← digitLoop base upper 48 (List.replicate 48 0) mag
        let digits := scratch.drop i
        let signLen := if neg then 1 else 0
        let body := signLen + digits.length
        let w := if width > 0 then width.toNat else 0
        let pad := w - body
        let sign : List UInt8 := if neg then [45] else []
        let (bytes, n) ←
          if zeroPad ≠ 0 ∧ pad > 0 then
            putAll cap sign (bytes, 0) >>= putAll cap (List.replicate pad 48) >>= putAll cap digits
          else if alignLeft ≠ 0 then
            putAll cap sign (bytes, 0) >>= putAll cap digits >>= putAll cap (List.replicate pad 32)
          else
            putAll cap (List.replicate pad 32) (bytes, 0) >>= putAll cap sign >>= putAll cap digits
        some (some bytes, (n : ℤ))

/-! The call. -/

/-- `n as i64`. -/
def asI64 (n : ℕ) : ℤ := (BitVec.ofNat 64 n).toInt

def flag (b : Bool) : ℤ := if b then 1 else 0

/-- The call with the decoded fields of a specifier, the value in two words. -/
def FormatSpec.fast (spec : FormatSpec) (signed : Bool) (raw : BitVec 128) (buf : Buffer) :
    Option (Option (List UInt8) × ℤ) :=
  intFmt (raw.setWidth 64) ((raw >>> 64).setWidth 64) (flag signed) spec.fastRadixCode (flag spec.zeroPad)
    (asI64 (spec.width.getD 0)) (flag spec.numericAlignLeft) buf

/-- The extension of a narrower value: only a signed decimal one keeps its sign. -/
def FormatSpec.widen (spec : FormatSpec) (signed : Bool) {w : ℕ} (v : BitVec w) : BitVec 128 :=
  if !signed ∨ spec.radix ≠ .dec then v.setWidth 128 else v.signExtend 128

/-! What it should be. -/

/-- The text's bytes, or as many as the buffer takes, from the buffer's start on, and how many they are. -/
def Buffer.filled (buf : Buffer) (out : List UInt8) : Option (List UInt8) × ℤ :=
  match buf.bytes with
  | none => (none, 0)
  | some bytes =>
    let written := out.take buf.len.toNat
    (some (written ++ bytes.drop written.length), written.length)

/-- A formatter gives a text, and the calls of the fast path write it, whatever the buffer. -/
def Agrees (fast : Buffer → Option (Option (List UInt8) × ℤ)) (reference : Option Text) : Prop :=
  ∃ text ∈ reference, ∀ buf, fast buf = some (buf.filled (text.flatMap String.utf8EncodeChar))

/-- What the interpreter shows for a 128-bit hole. -/
def FormatSpec.apply128 (spec : FormatSpec) (signed : Bool) (v : BitVec 128) : Option Text :=
  if signed then spec.applyInt128 v else spec.applyUint128 v

/-- What it shows for a narrower one. -/
def FormatSpec.apply64 (spec : FormatSpec) (signed : Bool) {w : ℕ} (v : BitVec w) : Option Text :=
  if signed then spec.applyInt (v.signExtend 64) else spec.applyUint (v.setWidth 64)

end Karac.Runtime.Format

/-! What the fast path writes: the same sign, digits and padding, with the width that the call sees. -/

namespace Karac.Runtime.Format

open Lib

/-! The digits. -/

theorem charByte_digitChar (upper : Bool) {d : ℕ} (hd : d < 16) : charByte upper d.digitChar = digitByte upper d := by
  have hall : ∀ upper, ∀ d < 16, charByte upper d.digitChar = digitByte upper d := by decide
  exact hall upper d hd

theorem drop_set {scratch : List UInt8} {i : ℕ} (hi : i < scratch.length) (c : UInt8) :
    (scratch.set i c).drop i = c :: scratch.drop (i + 1) := by
  rw [List.set_eq_take_append_cons_drop, if_pos hi, List.drop_left' (List.length_take_of_le hi.le)]

/-- The scratch is long enough for any value below a power of the base. -/
theorem digitLoop_spec {base : ℕ} (hbase : 1 < base) (hbase' : base ≤ 16) (upper : Bool) {i mag : ℕ}
    {scratch : List UInt8} (hi : 0 < i) (hmag : mag < base ^ i) (hlen : i ≤ scratch.length) :
    ∃ s j, digitLoop base upper i scratch mag = some (s, j) ∧
      s.drop j = (Nat.toDigits base mag).map (charByte upper) ++ scratch.drop i := by
  induction i generalizing scratch mag with
  | zero => exact absurd hi (lt_irrefl 0)
  | succ i ih =>
    have hmod : mag % base < base := Nat.mod_lt mag (by omega)
    have hlast : charByte upper (mag % base).digitChar = digitByte upper (mag % base) :=
      charByte_digitChar upper (by omega)
    have hdrop := drop_set (Nat.lt_of_succ_le hlen) (digitByte upper (mag % base))
    unfold digitLoop
    by_cases hzero : mag / base = 0
    · have hlt : mag < base := (Nat.div_eq_zero_iff_lt (by omega)).mp hzero
      refine ⟨_, i, if_pos hzero, ?_⟩
      rw [hdrop, Nat.toDigits_of_lt_base hlt, ← hlast, Nat.mod_eq_of_lt hlt]
      rfl
    · have hle : base ≤ mag := not_lt.mp fun hlt => hzero (Nat.div_eq_of_lt hlt)
      have hmag' : mag / base < base ^ i := Nat.div_lt_of_lt_mul (by rwa [← pow_succ'])
      have hpos : 0 < i := by
        refine Nat.pos_of_ne_zero fun h => hzero ?_
        rw [h, pow_zero] at hmag'
        exact Nat.lt_one_iff.mp hmag'
      obtain ⟨s, j, hloop, hs⟩ := @ih (mag / base) (scratch.set i (digitByte upper (mag % base))) hpos hmag'
        (by rw [List.length_set]; omega)
      refine ⟨s, j, (if_neg hzero).trans hloop, ?_⟩
      rw [hs, hdrop, Nat.toDigits_of_base_le hbase hle, List.map_append, List.map_singleton, hlast, List.append_assoc]
      rfl

/-! The cursor. -/

/-- The buffer and the cursor after these mem. -/
def state (mem : List UInt8) (cap : ℕ) (out : List UInt8) : List UInt8 × ℕ :=
  (out.take cap ++ mem.drop (out.take cap).length, (out.take cap).length)

variable {mem : List UInt8} {cap : ℕ}

theorem put_state (hcap : cap ≤ mem.length) (out : List UInt8) (b : UInt8) :
    put cap (state mem cap out) b = some (state mem cap (out ++ [b])) := by
  unfold put state
  by_cases hlt : out.length < cap
  · have htake : out.take cap = out := List.take_of_length_le hlt.le
    have htake' : (out ++ [b]).take cap = out ++ [b] := List.take_of_length_le (by simpa using hlt)
    have hset : (out ++ mem.drop out.length).set out.length b = out ++ [b] ++ mem.drop (out.length + 1) := by
      rw [List.set_append_right _ _ le_rfl, Nat.sub_self, ← List.cons_getElem_drop_succ (h := by omega),
        List.set_cons_zero, List.append_assoc]
      rfl
    simp only [htake, htake', List.length_append, List.length_drop, List.length_singleton]
    rw [if_pos hlt, if_pos (by omega), hset]
  · have htake : (out ++ [b]).take cap = out.take cap := List.take_append_of_le_length (not_lt.mp hlt)
    have hlen : (out.take cap).length = cap := List.length_take_of_le (not_lt.mp hlt)
    rw [htake, if_neg (by rw [hlen]; exact lt_irrefl cap)]

theorem putAll_state (hcap : cap ≤ mem.length) (out bs : List UInt8) :
    putAll cap bs (state mem cap out) = some (state mem cap (out ++ bs)) := by
  induction bs generalizing out with
  | nil => rw [List.append_nil]; rfl
  | cons b bs ih =>
    have hcons : out ++ b :: bs = out ++ [b] ++ bs := by rw [List.append_assoc]; rfl
    rw [hcons, ← ih]
    unfold putAll
    rw [List.foldlM_cons, put_state hcap]
    rfl

/-! The call. -/

variable {spec : FormatSpec}

theorem words_joined (raw : BitVec 128) :
    ((((raw >>> 64).setWidth 64).setWidth 128 <<< 64) ||| (raw.setWidth 64).setWidth 128 : BitVec 128) = raw := by
  ext i hi
  simp only [BitVec.getElem_or, BitVec.getElem_shiftLeft, BitVec.getElem_setWidth, BitVec.getLsbD_setWidth,
    BitVec.getLsbD_ushiftRight]
  by_cases hlt : i < 64
  · simp [hlt, hi]
  · have hsub : 64 + (i - 64) = i := by omega
    have hlow : i - 64 < 64 := by omega
    simp [hlt, hsub, hlow, BitVec.getLsbD_eq_getElem hi]

theorem flag_ne_zero (b : Bool) : flag b ≠ 0 ↔ b = true := by
  cases b <;> decide

/-- The value is shown with its sign. -/
def negative (spec : FormatSpec) (signed : Bool) (raw : BitVec 128) : Prop :=
  signed ∧ spec.radix = .dec ∧ raw.toInt < 0

instance (signed : Bool) (raw : BitVec 128) : Decidable (negative spec signed raw) :=
  inferInstanceAs (Decidable (_ ∧ _ ∧ _))

/-- The width that the call sees. -/
def seenWidth (spec : FormatSpec) : ℕ :=
  if spec.width.getD 0 ≤ maxBytes then spec.width.getD 0 else 0

theorem asI64_width (hw : spec.width.getD 0 < 2 ^ 64) :
    (if asI64 (spec.width.getD 0) > 0 then (asI64 (spec.width.getD 0)).toNat else 0) = seenWidth spec := by
  unfold asI64 seenWidth maxBytes
  generalize spec.width.getD 0 = width at hw
  rw [BitVec.toInt_eq_toNat_cond, BitVec.toNat_ofNat, Nat.mod_eq_of_lt hw]
  by_cases hle : width ≤ 2 ^ 63 - 1
  · rw [if_pos hle]
    split_ifs <;> omega
  · rw [if_neg hle]
    split_ifs <;> omega

theorem putAll_three (hcap : cap ≤ mem.length) (a b c : List UInt8) :
    putAll cap a (mem, 0) >>= putAll cap b >>= putAll cap c = some (state mem cap (a ++ b ++ c)) := by
  have hstart : (mem, 0) = state mem cap [] := by simp [state]
  rw [hstart, putAll_state hcap]
  simp only [Option.bind_eq_bind, Option.bind_some, putAll_state hcap, List.nil_append]

theorem mag_lt (raw : BitVec 128) (neg : Prop) [Decidable neg] :
    (if neg then raw.toInt.natAbs else raw.toNat) < 2 ^ 128 := by
  have hlt := raw.isLt
  have hle := BitVec.toInt_eq_toNat_cond raw
  split_ifs at hle ⊢ <;> omega

theorem lt_pow_base (hbin : spec.radix ≠ .bin) {mag : ℕ} (hmag : mag < 2 ^ 128) : mag < spec.radix.base ^ 48 := by
  have hbase : 8 ≤ spec.radix.base := by
    cases hradix : spec.radix with
    | bin => exact absurd hradix hbin
    | _ => decide
  exact (hmag.trans (by decide)).trans_le (Nat.pow_le_pow_left hbase 48)

theorem fast_eq (hfast : spec.needsRuntimeFormatter = false) (hw : spec.width.getD 0 < 2 ^ 64) (signed : Bool)
    (raw : BitVec 128) (buf : Buffer) :
    spec.fast signed raw buf = some (buf.filled (shownBytes spec (seenWidth spec) (negative spec signed raw)
      (if negative spec signed raw then raw.toInt.natAbs else raw.toNat))) := by
  obtain ⟨-, hbin, -⟩ := fast_fields hfast
  have hdec : (flag signed ≠ 0 ∧ spec.fastRadixCode = 10 ∧ raw.toInt < 0) ↔ negative spec signed raw := by
    have hcode : spec.fastRadixCode = 10 ↔ spec.radix = .dec := by
      unfold FormatSpec.fastRadixCode
      cases spec.radix <;> decide
    rw [flag_ne_zero, hcode]
    rfl
  have hbase : (if spec.fastRadixCode = 8 then 8
      else if spec.fastRadixCode = 16 ∨ spec.fastRadixCode = -16 then 16 else 10) = spec.radix.base := by
    unfold FormatSpec.fastRadixCode
    cases hradix : spec.radix with
    | bin => exact absurd hradix hbin
    | _ => rfl
  have hupper : decide (spec.fastRadixCode = -16) = spec.radix.upper := by
    unfold FormatSpec.fastRadixCode Radix.upper
    cases spec.radix <;> rfl
  unfold FormatSpec.fast intFmt Buffer.filled
  cases hbytes : buf.bytes with
  | none => rfl
  | some mem =>
    have hcap : buf.len.toNat ≤ mem.length := by
      have hle := buf.len_le mem hbytes
      omega
    by_cases hlen : buf.len ≤ 0
    · simp [hlen, Int.toNat_of_nonpos hlen]
    · simp only [words_joined, hdec, hbase, hupper, if_neg hlen]
      have hmag := lt_pow_base hbin (mag_lt raw (negative spec signed raw))
      generalize (if negative spec signed raw then raw.toInt.natAbs else raw.toNat) = mag at hmag ⊢
      obtain ⟨scratch, i, hloop, hdigits⟩ := digitLoop_spec spec.radix.base_bounds.1 spec.radix.base_bounds.2
        spec.radix.upper (by decide) hmag (show 48 ≤ (List.replicate 48 (0 : UInt8)).length from le_rfl)
      have hend : (List.replicate 48 (0 : UInt8)).drop 48 = [] := rfl
      rw [hend, List.append_nil] at hdigits
      have hsign : (if negative spec signed raw then 1 else 0) =
          (if negative spec signed raw then [45] else ([] : List UInt8)).length := by
        split_ifs <;> rfl
      have hneg : (if decide (negative spec signed raw) then [45] else ([] : List UInt8)) =
          if negative spec signed raw then [45] else [] := by simp
      rw [hloop]
      simp only [Option.bind_eq_bind, Option.bind_some, hdigits, asI64_width hw, hsign, flag_ne_zero]
      simp only [← Option.bind_eq_bind, putAll_three hcap]
      simp only [Option.bind_eq_bind, Option.bind_some, shownBytes, layout, hneg]
      split_ifs <;> rfl

end Karac.Runtime.Format
