import Karac.Runtime.WebSocketFrames

/-! The masked frames of a client, as values and as bytes. -/

namespace Karac.Runtime.WebSocket

open Karac.Lib

/-- Where the length of a payload stands: in the seven bits, or in two or eight bytes behind them. -/
inductive LengthForm where
  | short
  | medium
  | long
  deriving DecidableEq, Repr

structure Frame where
  fin : Bool
  opcode : UInt8
  form : LengthForm
  mask : List UInt8
  payload : List UInt8
  deriving DecidableEq, Repr

namespace LengthForm

/-- The lengths that the form holds. -/
def Holds : LengthForm → ℕ → Prop
  | short, len => len ≤ 125
  | medium, len => len < 2 ^ 16
  | long, len => len < 2 ^ 63

def len7 : LengthForm → ℕ → UInt8
  | short, len => UInt8.ofNat len
  | medium, _ => 126
  | long, _ => 127

def extra : LengthForm → ℕ → List UInt8
  | short, _ => []
  | medium, len => toBeBytes 2 len
  | long, len => toBeBytes 8 len

end LengthForm

namespace Frame

structure Valid (f : Frame) : Prop where
  opcode_lt : f.opcode < 16
  holds : f.form.Holds f.payload.length
  mask_length : f.mask.length = 4

def firstByte (f : Frame) : UInt8 := (if f.fin then 0x80 else 0) ||| f.opcode

def secondByte (f : Frame) : UInt8 := 0x80 ||| f.form.len7 f.payload.length

/-- The frame as it is sent, its payload masked. -/
def encode (f : Frame) : List UInt8 :=
  f.firstByte :: f.secondByte :: (f.form.extra f.payload.length ++ (f.mask ++ applyMask f.mask f.payload))

/-- The length behind the seven bits. -/
def decodeLen (len7 : UInt8) (bs : List UInt8) : Option ((LengthForm × ℕ) × List UInt8) :=
  if len7 ≤ 125 then some ((.short, len7.toNat), bs)
  else if len7 = 126 then
    if bs.length < 2 then none else some ((.medium, fromBeBytes (bs.take 2)), bs.drop 2)
  else if bs.length < 8 ∨ bs.headD 0 &&& 0x80 ≠ 0 then none
  else some ((.long, fromBeBytes (bs.take 8)), bs.drop 8)

/-- The frame at the front of some bytes, all of it. -/
def decode : List UInt8 → Option (Frame × List UInt8)
  | b0 :: b1 :: bs =>
    if b0 &&& 0x70 ≠ 0 ∨ b1 &&& 0x80 = 0 then none
    else (decodeLen (b1 &&& 0x7F) bs).bind fun lenRest =>
      let len := lenRest.1.2
      let bs := lenRest.2
      if bs.length < 4 + len then none
      else some (⟨b0 &&& 0x80 ≠ 0, b0 &&& 0x0F, lenRest.1.1, bs.take 4, applyMask (bs.take 4) ((bs.drop 4).take len)⟩,
        bs.drop (4 + len))
  | _ => none

end Frame

/-! The bits of the two header bytes. -/

theorem forall_byte {p : UInt8 → Prop} (h : ∀ n < 256, p (UInt8.ofNat n)) (b : UInt8) : p b := by
  have hb := h b.toNat b.toNat_lt
  rwa [UInt8.ofNat_toNat] at hb

/-- All of it at once for each byte, since one run through the bytes is enough. -/
theorem header_bits (b : UInt8) :
    (b &&& 0x70 = 0 → ((if b &&& 0x80 ≠ 0 then 0x80 else 0) ||| (b &&& 0x0F) : UInt8) = b) ∧
    (b &&& 0x80 ≠ 0 → (0x80 ||| (b &&& 0x7F) : UInt8) = b) ∧ b &&& 0x0F < 16 ∧ b &&& 0x7F < 128 ∧
    (b < 16 → ∀ fin : Bool, ((if fin then 0x80 else 0) ||| b : UInt8) &&& 0x70 = 0 ∧
      ((if fin then 0x80 else 0) ||| b : UInt8) &&& 0x0F = b ∧
      decide (((if fin then 0x80 else 0) ||| b : UInt8) &&& 0x80 ≠ 0) = fin) ∧
    (b < 128 → (0x80 ||| b) &&& 0x80 ≠ 0 ∧ (0x80 ||| b) &&& 0x7F = b) ∧ (b &&& 0x80 ≠ 0 ↔ 128 ≤ b.toNat) := by
  revert b
  exact forall_byte (by decide +kernel)

theorem firstByte_bits (b : UInt8) (h : b &&& 0x70 = 0) :
    ((if b &&& 0x80 ≠ 0 then 0x80 else 0) ||| (b &&& 0x0F) : UInt8) = b :=
  (header_bits b).1 h

theorem secondByte_bits (b : UInt8) (h : b &&& 0x80 ≠ 0) : (0x80 ||| (b &&& 0x7F) : UInt8) = b :=
  (header_bits b).2.1 h

theorem lowNibble_lt (b : UInt8) : b &&& 0x0F < 16 := (header_bits b).2.2.1

theorem low7_lt (b : UInt8) : b &&& 0x7F < 128 := (header_bits b).2.2.2.1

theorem bits_firstByte (b : UInt8) (h : b < 16) : ∀ fin : Bool,
    ((if fin then 0x80 else 0) ||| b : UInt8) &&& 0x70 = 0 ∧ ((if fin then 0x80 else 0) ||| b : UInt8) &&& 0x0F = b ∧
      decide (((if fin then 0x80 else 0) ||| b : UInt8) &&& 0x80 ≠ 0) = fin :=
  (header_bits b).2.2.2.2.1 h

theorem bits_secondByte (b : UInt8) (h : b < 128) : (0x80 ||| b) &&& 0x80 ≠ 0 ∧ (0x80 ||| b) &&& 0x7F = b :=
  (header_bits b).2.2.2.2.2.1 h

theorem topBit_iff (b : UInt8) : b &&& 0x80 ≠ 0 ↔ 128 ≤ b.toNat := (header_bits b).2.2.2.2.2.2

/-! The laws of the code. -/

theorem length_applyMask (mask payload : List UInt8) : (applyMask mask payload).length = payload.length := by
  simp [applyMask]

theorem applyMask_applyMask (mask payload : List UInt8) : applyMask mask (applyMask mask payload) = payload := by
  apply List.ext_getElem (by simp [applyMask])
  intro i hi hi'
  simp only [applyMask, List.getElem_mapIdx]
  rw [UInt8.xor_assoc, UInt8.xor_self, UInt8.xor_zero]

theorem topBit_fromBeBytes {bs : List UInt8} (h : bs.length = 8) : bs.headD 0 &&& 0x80 ≠ 0 ↔ 2 ^ 63 ≤ fromBeBytes bs := by
  cases bs with
  | nil => simp at h
  | cons b bs =>
    have hlen : bs.length = 7 := by simpa using h
    have hlow := fromBeBytes_lt bs
    rw [List.headD_cons, topBit_iff, fromBeBytes_cons, hlen]
    rw [hlen] at hlow
    omega

namespace Frame

theorem decodeLen_extra {form : LengthForm} {len : ℕ} (h : form.Holds len) (rest : List UInt8) :
    decodeLen (form.len7 len) (form.extra len ++ rest) = some ((form, len), rest) := by
  cases form with
  | short =>
    have hlen : len ≤ 125 := h
    have hnat : (UInt8.ofNat len).toNat = len := by
      rw [UInt8.toNat_ofNat']
      omega
    have hle : UInt8.ofNat len ≤ 125 := by
      rw [UInt8.le_iff_toNat_le, hnat]
      exact hlen
    simp [decodeLen, LengthForm.len7, LengthForm.extra, hle, hnat]
  | medium =>
    have hbound : len < 256 ^ 2 := h
    have hval : fromBeBytes (toBeBytes 2 len) = len := by
      rw [fromBeBytes_toBeBytes, Nat.mod_eq_of_lt hbound]
    have hlen := length_toBeBytes 2 len
    have hroom : ¬(toBeBytes 2 len ++ rest).length < 2 := by
      rw [List.length_append, hlen]
      omega
    change decodeLen 126 (toBeBytes 2 len ++ rest) = some ((.medium, len), rest)
    rw [decodeLen, if_neg (by decide), if_pos rfl, if_neg hroom, List.take_left' hlen, List.drop_left' hlen, hval]
  | long =>
    have hbound : len < 2 ^ 63 := h
    have hval : fromBeBytes (toBeBytes 8 len) = len := by
      rw [fromBeBytes_toBeBytes, Nat.mod_eq_of_lt (by omega)]
    have hlen := length_toBeBytes 8 len
    have htop : ¬((toBeBytes 8 len ++ rest).headD 0 &&& 0x80 ≠ 0) := by
      have hhead : (toBeBytes 8 len ++ rest).headD 0 = (toBeBytes 8 len).headD 0 := by
        cases hbs : toBeBytes 8 len with
        | nil => simp [hbs] at hlen
        | cons b bs => rfl
      rw [hhead, topBit_fromBeBytes hlen, hval]
      omega
    have hroom : ¬((toBeBytes 8 len ++ rest).length < 8 ∨ (toBeBytes 8 len ++ rest).headD 0 &&& 0x80 ≠ 0) := by
      rw [or_iff_left htop, List.length_append, hlen]
      omega
    change decodeLen 127 (toBeBytes 8 len ++ rest) = some ((.long, len), rest)
    rw [decodeLen, if_neg (by decide), if_neg (by decide), if_neg hroom, List.take_left' hlen, List.drop_left' hlen, hval]

theorem decodeLen_sound {len7 : UInt8} {bs rest : List UInt8} {form : LengthForm} {len : ℕ} (h7 : len7 < 128)
    (h : decodeLen len7 bs = some ((form, len), rest)) :
    form.Holds len ∧ form.len7 len = len7 ∧ bs = form.extra len ++ rest := by
  unfold decodeLen at h
  split at h
  · next hle =>
    obtain ⟨hform, rfl⟩ := Prod.mk.inj (Option.some.inj h)
    obtain ⟨rfl, rfl⟩ := Prod.mk.inj hform
    exact ⟨UInt8.le_iff_toNat_le.mp hle, UInt8.ofNat_toNat, rfl⟩
  · next hle =>
    split at h
    · next heq =>
      split at h
      · cases h
      · next hlen =>
        obtain ⟨hform, rfl⟩ := Prod.mk.inj (Option.some.inj h)
        obtain ⟨rfl, rfl⟩ := Prod.mk.inj hform
        have htake : (bs.take 2).length = 2 := List.length_take_of_le (by omega)
        have hlt := fromBeBytes_lt (bs.take 2)
        have hback := toBeBytes_fromBeBytes (bs.take 2)
        rw [htake] at hlt hback
        exact ⟨hlt, heq.symm, by rw [LengthForm.extra, hback, List.take_append_drop]⟩
    · next hne =>
      split at h
      · cases h
      · next hlen =>
        obtain ⟨hform, rfl⟩ := Prod.mk.inj (Option.some.inj h)
        obtain ⟨rfl, rfl⟩ := Prod.mk.inj hform
        have h7eq : (127 : UInt8) = len7 := by
          rw [UInt8.le_iff_toNat_le] at hle
          rw [UInt8.lt_iff_toNat_lt] at h7
          rw [← UInt8.toNat_inj] at hne ⊢
          have h125 : (125 : UInt8).toNat = 125 := rfl
          have h126 : (126 : UInt8).toNat = 126 := rfl
          have h127 : (127 : UInt8).toNat = 127 := rfl
          have h128 : (128 : UInt8).toNat = 128 := rfl
          omega
        have htake : (bs.take 8).length = 8 := List.length_take_of_le (by omega)
        have hhead : (bs.take 8).headD 0 = bs.headD 0 := by cases bs <;> rfl
        have htop : ¬((bs.take 8).headD 0 &&& 0x80 ≠ 0) := by
          rw [hhead]
          exact fun hbit => hlen (.inr hbit)
        rw [topBit_fromBeBytes htake, not_le] at htop
        have hback := toBeBytes_fromBeBytes (bs.take 8)
        rw [htake] at hback
        exact ⟨htop, h7eq, by rw [LengthForm.extra, hback, List.take_append_drop]⟩

theorem len7_lt {form : LengthForm} {len : ℕ} (h : form.Holds len) : form.len7 len < 128 := by
  cases form with
  | short =>
    have hlen : len ≤ 125 := h
    rw [LengthForm.len7, UInt8.lt_iff_toNat_lt, UInt8.toNat_ofNat']
    have h128 : (128 : UInt8).toNat = 128 := rfl
    omega
  | medium => exact show (126 : UInt8) < 128 by decide
  | long => exact show (127 : UInt8) < 128 by decide

theorem decode_encode (f : Frame) (rest : List UInt8) (hf : f.Valid) : decode (f.encode ++ rest) = some (f, rest) := by
  obtain ⟨hrsv, hop, hfin⟩ := bits_firstByte f.opcode hf.opcode_lt f.fin
  obtain ⟨hmasked, h7⟩ := bits_secondByte _ (len7_lt hf.holds)
  have hlen := decodeLen_extra hf.holds (f.mask ++ applyMask f.mask f.payload ++ rest)
  have htake : (f.mask ++ applyMask f.mask f.payload ++ rest).take 4 = f.mask := by
    rw [List.append_assoc, List.take_left' hf.mask_length]
  have hdrop : (f.mask ++ applyMask f.mask f.payload ++ rest).drop 4 = applyMask f.mask f.payload ++ rest := by
    rw [List.append_assoc, List.drop_left' hf.mask_length]
  have hpay := length_applyMask f.mask f.payload
  have hshort : ¬(f.mask ++ applyMask f.mask f.payload ++ rest).length < 4 + f.payload.length := by
    simp only [List.length_append, hf.mask_length, hpay]
    omega
  have hrest : (f.mask ++ applyMask f.mask f.payload ++ rest).drop (4 + f.payload.length) = rest := by
    apply List.drop_left'
    simp only [List.length_append, hf.mask_length, hpay]
  rw [encode, List.cons_append, List.cons_append, List.append_assoc, decode, firstByte, secondByte,
    if_neg (by simp only [hrsv, hmasked, ne_eq, not_true_eq_false, or_self, not_false_eq_true]), h7, hlen]
  simp only [Option.bind_some, if_neg hshort, htake, hdrop, hrest, hop, hfin, List.take_left' hpay, applyMask_applyMask]

theorem encode_decode (bs : List UInt8) (f : Frame) (rest : List UInt8) (h : decode bs = some (f, rest)) :
    f.Valid ∧ bs = f.encode ++ rest := by
  cases bs with
  | nil => cases h
  | cons b0 bs =>
  cases bs with
  | nil => cases h
  | cons b1 bs =>
    rw [decode] at h
    split at h
    · cases h
    · next hbits =>
      rw [not_or, not_not] at hbits
      obtain ⟨hrsv, hmasked⟩ := hbits
      obtain ⟨⟨⟨form, len⟩, tail⟩, hlen, hframe⟩ := Option.bind_eq_some_iff.mp h
      clear h
      obtain ⟨hholds, h7, rfl⟩ := decodeLen_sound (low7_lt b1) hlen
      simp only at hframe
      split at hframe
      · cases hframe
      · next hroom =>
        obtain ⟨rfl, rfl⟩ := Prod.mk.inj (Option.some.inj hframe)
        have hmask : (tail.take 4).length = 4 := List.length_take_of_le (by omega)
        have hpay : ((tail.drop 4).take len).length = len := by
          rw [List.length_take, List.length_drop]
          omega
        refine ⟨⟨lowNibble_lt b0, ?_, hmask⟩, ?_⟩
        · simpa only [length_applyMask, hpay] using hholds
        · have hfirst := firstByte_bits b0 hrsv
          simp only [encode, firstByte, secondByte, length_applyMask, hpay, h7, applyMask_applyMask, decide_eq_true_eq,
            hfirst, secondByte_bits b1 hmasked, List.cons_append, List.append_assoc]
          rw [← List.drop_drop, List.take_append_drop, List.take_append_drop]

/-- The frames as a code. -/
def codec : PrefixCodec Frame UInt8 where
  Valid := Valid
  encode := encode
  decode := decode
  decode_encode := decode_encode
  encode_decode := encode_decode

end Frame
end Karac.Runtime.WebSocket
