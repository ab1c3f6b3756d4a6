import Karac.Runtime.IntFmtFast

/-! The integer fast path writes what the interpreter shows, unless the width is no `i64` or a narrow negative value is
shown as a word. -/

namespace Karac.Runtime.Format

variable {spec : FormatSpec}

theorem filled_injective {out out' : List UInt8} (h : ∀ buf : Buffer, buf.filled out = buf.filled out') :
    out = out' := by
  have hbuf := h ⟨some (List.replicate (out.length + out'.length) 0), ((out.length + out'.length : ℕ) : ℤ), by simp⟩
  simp only [Buffer.filled, Int.toNat_natCast, Prod.mk.injEq, Option.some.injEq, Nat.cast_inj] at hbuf
  rw [List.take_of_length_le (Nat.le_add_right _ _), List.take_of_length_le (Nat.le_add_left _ _)] at hbuf
  exact (List.append_inj hbuf.1 hbuf.2).1

theorem agrees_iff (hfast : spec.needsRuntimeFormatter = false) (hw : spec.width.getD 0 < 2 ^ 64) (signed : Bool)
    (raw : BitVec 128) (neg : Bool) {mag : ℕ} (hmag : mag < 2 ^ 128) :
    Agrees (spec.fast signed raw) (spec.applyMagnitude neg mag) ↔ spec.width.getD 0 < 2 ^ 63 ∧
      shownBytes spec (spec.width.getD 0) (negative spec signed raw)
        (if negative spec signed raw then raw.toInt.natAbs else raw.toNat) =
          shownBytes spec (spec.width.getD 0) neg mag := by
  have hmax : spec.width.getD 0 ≤ maxBytes ↔ spec.width.getD 0 < 2 ^ 63 := by
    unfold maxBytes
    omega
  unfold Agrees
  rw [applyMagnitude_eq hfast neg hmag]
  by_cases hle : spec.width.getD 0 ≤ maxBytes
  · have hseen : seenWidth spec = spec.width.getD 0 := if_pos hle
    simp only [if_pos hle, fast_eq hfast hw, hseen, Option.mem_def, Option.some.injEq, exists_eq_left', bytes_shown,
      hmax.mp hle, true_and]
    exact ⟨filled_injective, fun h buf => by rw [h]⟩
  · simp only [if_neg hle, Option.mem_def, reduceCtorEq, false_and, exists_false, mt hmax.mpr hle]

theorem natAbs_of_nonneg {w : ℕ} {v : BitVec w} (h : ¬v.toInt < 0) : v.toInt.natAbs = v.toNat := by
  have hcond := BitVec.toInt_eq_toNat_cond v
  have hlt := v.isLt
  split_ifs at hcond <;> omega

/-- Only where decimals are shown does the sign matter. -/
theorem signedMag_eq {w : ℕ} (v : BitVec w) (dec : Prop) [Decidable dec] :
    (if v.toInt < 0 ∧ dec then v.toInt.natAbs else v.toNat) = if dec then v.toInt.natAbs else v.toNat := by
  by_cases hneg : v.toInt < 0
  · simp only [hneg, true_and]
  · simp only [hneg, false_and, natAbs_of_nonneg hneg, ite_self]

theorem negative_signed (raw : BitVec 128) : negative spec true raw ↔ raw.toInt < 0 ∧ spec.radix = .dec := by
  unfold negative
  tauto

theorem not_negative_unsigned (raw : BitVec 128) : ¬negative spec false raw := fun h => Bool.false_ne_true h.1

theorem agrees128_iff (hfast : spec.needsRuntimeFormatter = false) (hw : spec.width.getD 0 < 2 ^ 64) (signed : Bool)
    (v : BitVec 128) : Agrees (spec.fast signed v) (spec.apply128 signed v) ↔ spec.width.getD 0 < 2 ^ 63 := by
  cases signed with
  | false =>
    rw [FormatSpec.apply128, if_neg Bool.false_ne_true, FormatSpec.applyUint128, agrees_iff hfast hw _ _ _ v.isLt]
    simp only [not_negative_unsigned, decide_false, if_false, and_true]
  | true =>
    rw [FormatSpec.apply128, if_pos rfl, FormatSpec.applyInt128, FormatSpec.applySigned,
      agrees_iff hfast hw _ _ _ (mag_lt v (spec.radix = .dec))]
    simp only [negative_signed, signedMag_eq, and_true]

/-- The word of a narrow value, extended to 64 bits with its sign. -/
theorem toNat_signExtend_iff {w : ℕ} (hw : w ≤ 64) (v : BitVec w) :
    (v.signExtend 64).toNat = v.toNat ↔ ¬(w < 64 ∧ v.toInt < 0) := by
  have hlt : v.toNat < 2 ^ 64 := v.isLt.trans_le (Nat.pow_le_pow_right two_pos hw)
  have hmsb : v.msb = true ↔ v.toInt < 0 := by rw [BitVec.msb_eq_toInt, decide_eq_true_iff]
  rw [BitVec.toNat_signExtend, BitVec.toNat_setWidth, Nat.mod_eq_of_lt hlt]
  simp only [hmsb]
  obtain rfl | hw := hw.eq_or_lt
  · simp
  · have hpow : 2 ^ w < 2 ^ 64 := Nat.pow_lt_pow_right one_lt_two hw
    split_ifs with hneg
    · simp only [hw, hneg, and_self, not_true_eq_false, iff_false]
      omega
    · simp [hneg]

theorem agrees64_unsigned {w : ℕ} (hfast : spec.needsRuntimeFormatter = false) (hwidth : spec.width.getD 0 < 2 ^ 64)
    (hw : w ≤ 64) (v : BitVec w) :
    Agrees (spec.fast false (spec.widen false v)) (spec.apply64 false v) ↔ spec.width.getD 0 < 2 ^ 63 := by
  have hlt : v.toNat < 2 ^ 64 := v.isLt.trans_le (Nat.pow_le_pow_right two_pos hw)
  have hwide : (v.setWidth 128).toNat = v.toNat := by
    rw [BitVec.toNat_setWidth, Nat.mod_eq_of_lt (by omega)]
  have hword : (v.setWidth 64).toNat = v.toNat := by
    rw [BitVec.toNat_setWidth, Nat.mod_eq_of_lt hlt]
  rw [FormatSpec.widen, if_pos (.inl rfl), FormatSpec.apply64, if_neg Bool.false_ne_true, FormatSpec.applyUint,
    agrees_iff hfast hwidth _ _ _ (by omega)]
  simp only [not_negative_unsigned, decide_false, if_false, hwide, hword, and_true]

theorem agrees64_decimal {w : ℕ} (hfast : spec.needsRuntimeFormatter = false) (hwidth : spec.width.getD 0 < 2 ^ 64)
    (hw : w ≤ 64) (v : BitVec w) (hdec : spec.radix = .dec) :
    Agrees (spec.fast true (spec.widen true v)) (spec.apply64 true v) ↔ spec.width.getD 0 < 2 ^ 63 := by
  have hwide : (v.signExtend 128).toInt = v.toInt := BitVec.toInt_signExtend_of_le (by omega)
  have hword : (v.signExtend 64).toInt = v.toInt := BitVec.toInt_signExtend_of_le hw
  have hmag : v.toInt.natAbs < 2 ^ 128 := by
    have hbound := mag_lt (v.signExtend 128) True
    rwa [if_pos trivial, hwide] at hbound
  rw [FormatSpec.widen, if_neg (by simp [hdec]), FormatSpec.apply64, if_pos rfl, FormatSpec.applyInt,
    FormatSpec.applySigned, agrees_iff hfast hwidth _ _ _ (by rw [if_pos hdec, hword]; exact hmag)]
  have hshown : (if v.toInt < 0 then v.toInt.natAbs else (v.signExtend 128).toNat) = v.toInt.natAbs := by
    split_ifs with hneg
    · rfl
    · rw [← natAbs_of_nonneg (by rwa [hwide]), hwide]
  simp only [negative_signed, hdec, if_true, hwide, hword, hshown, and_true]

theorem agrees64_word {w : ℕ} (hfast : spec.needsRuntimeFormatter = false) (hwidth : spec.width.getD 0 < 2 ^ 64)
    (hw : w ≤ 64) (v : BitVec w) (hdec : spec.radix ≠ .dec) :
    Agrees (spec.fast true (spec.widen true v)) (spec.apply64 true v) ↔
      spec.width.getD 0 < 2 ^ 63 ∧ ¬(w < 64 ∧ v.toInt < 0) := by
  have hlt : v.toNat < 2 ^ 64 := v.isLt.trans_le (Nat.pow_le_pow_right two_pos hw)
  have hwide : (v.setWidth 128).toNat = v.toNat := by
    rw [BitVec.toNat_setWidth, Nat.mod_eq_of_lt (by omega)]
  have hext := (v.signExtend 64).isLt
  rw [FormatSpec.widen, if_pos (.inr hdec), FormatSpec.apply64, if_pos rfl, FormatSpec.applyInt,
    FormatSpec.applySigned, agrees_iff hfast hwidth _ _ _ (by rw [if_neg hdec]; omega)]
  simp only [negative_signed, hdec, and_false, decide_false, if_false, hwide]
  refine and_congr_right fun _ => ?_
  rw [← toNat_signExtend_iff hw]
  exact ⟨fun h => (shownBytes_injective h).symm, fun h => by rw [h]⟩

/-- The fast path stays in bounds. It agrees with the interpreter's formatter unless the width is no `i64`, or a
negative value narrower than 64 bits is shown as a word. -/
theorem int_fmt_agrees_iff {raw : Text} (hparse : parse raw = .ok spec) (hfast : spec.needsRuntimeFormatter = false) :
    (∀ signed v buf, (spec.fast signed v buf).isSome) ∧
      (∀ signed v, Agrees (spec.fast signed v) (spec.apply128 signed v) ↔ spec.width.getD 0 < 2 ^ 63) ∧
      ∀ signed w, w ≤ 64 → ∀ v : BitVec w, Agrees (spec.fast signed (spec.widen signed v)) (spec.apply64 signed v) ↔
        spec.width.getD 0 < 2 ^ 63 ∧ ¬(signed ∧ spec.radix ≠ .dec ∧ w < 64 ∧ v.toInt < 0) := by
  have hwidth := parse_width_lt hparse
  refine ⟨fun signed v buf => ?_, agrees128_iff hfast hwidth, fun signed w hw v => ?_⟩
  · rw [fast_eq hfast hwidth]
    rfl
  · cases signed with
    | false =>
      rw [agrees64_unsigned hfast hwidth hw v]
      simp
    | true =>
      by_cases hdec : spec.radix = .dec
      · rw [agrees64_decimal hfast hwidth hw v hdec]
        simp [hdec]
      · rw [agrees64_word hfast hwidth hw v hdec]
        simp [hdec]

/-- `{:x}`. -/
def hexSpec : FormatSpec := ⟨none, none, false, none, none, .hex⟩

theorem int_fmt_agrees_hex : parse ['x'] = .ok hexSpec ∧ hexSpec.needsRuntimeFormatter = false ∧
    Agrees (hexSpec.fast true (hexSpec.widen true (-1#64))) (hexSpec.apply64 true (-1#64)) :=
  ⟨by decide, by decide, ((@int_fmt_agrees_iff hexSpec ['x'] (by decide) (by decide)).2.2 true 64 le_rfl (-1#64)).mpr
    ⟨by decide, by decide⟩⟩

/-- An `i8` hole with -1 prints `ff` compiled, and sixteen of them interpreted. -/
theorem narrow_hex_differs : parse ['x'] = .ok hexSpec ∧ hexSpec.needsRuntimeFormatter = false ∧
    ¬Agrees (hexSpec.fast true (hexSpec.widen true (-1#8))) (hexSpec.apply64 true (-1#8)) := by
  refine ⟨by decide, by decide, fun h => ?_⟩
  obtain ⟨text, htext, hfast⟩ := h
  have hshown : hexSpec.apply64 true (-1#8) = some (List.replicate 16 'f') := by decide
  obtain rfl : List.replicate 16 'f' = text := Option.some.inj (hshown.symm.trans htext)
  have hcall := hfast ⟨some (List.replicate 16 0), 16, by simp⟩
  exact absurd hcall (by decide)

end Karac.Runtime.Format
