import Mathlib

/-! Clearing the lowest bit that is set, as signed arithmetic does it: one bit less each time, the sign bit last. -/

namespace Karac.Lib.ClearLowest

variable {w : ℕ}

def clearLowest (x : BitVec w) : BitVec w := x &&& (x - 1)

theorem concat_true_sub_one (x : BitVec w) : x.concat true - 1 = x.concat false := by
  rw [BitVec.sub_eq_iff_eq_add]
  apply BitVec.eq_of_toNat_eq
  have h := (x.concat true).isLt
  simp only [BitVec.toNat_concat, Bool.toNat_true] at h
  simp [BitVec.toNat_add, BitVec.toNat_concat, Nat.mod_eq_of_lt h]

/-- Borrowing from the bits above. -/
theorem concat_false_sub_one (x : BitVec w) : x.concat false - 1 = (x - 1).concat true := by
  rw [BitVec.sub_eq_iff_eq_add, ← BitVec.sub_add_cancel x 1]
  generalize x - 1 = y
  rw [BitVec.add_sub_cancel]
  apply BitVec.eq_of_toNat_eq
  have hpow : 2 ^ (w + 1) = 2 * 2 ^ w := Nat.pow_succ'
  simp only [BitVec.toNat_concat, BitVec.toNat_add, BitVec.ofNat_eq_ofNat, BitVec.toNat_ofNat, Bool.toNat_true,
    Bool.toNat_false, hpow]
  rw [Nat.add_mod_mod, Nat.mul_comm _ 2, Nat.add_zero, ← Nat.mul_mod_mul_left, Nat.mul_add, Nat.mul_comm 2 y.toNat,
    Nat.add_mod_mod]

theorem clearLowest_concat_true (x : BitVec w) : clearLowest (x.concat true) = x.concat false := by
  unfold clearLowest
  rw [concat_true_sub_one, BitVec.concat_and_concat, BitVec.and_self, Bool.true_and]

theorem clearLowest_concat_false (x : BitVec w) : clearLowest (x.concat false) = (clearLowest x).concat false := by
  unfold clearLowest
  rw [concat_false_sub_one, BitVec.concat_and_concat, Bool.false_and]

/-- One bit less. -/
theorem toNat_cpop_clearLowest (x : BitVec w) (hx : x ≠ 0) : (clearLowest x).cpop.toNat + 1 = x.cpop.toNat := by
  induction x using BitVec.concat_induction with
  | nil => exact absurd rfl hx
  | concat x b ih =>
    cases b with
    | true => simp [clearLowest_concat_true, Nat.add_comm]
    | false =>
      have hne : x ≠ 0 := by
        rintro rfl
        exact hx (BitVec.zero_concat_false)
      rw [clearLowest_concat_false, BitVec.toNat_cpop_concat, BitVec.toNat_cpop_concat, Nat.add_assoc, ih hne]

theorem cpop_pos {x : BitVec w} (hx : x ≠ 0) : 0 < x.cpop.toNat := by
  have h := toNat_cpop_clearLowest x hx
  omega

/-- A number that is not negative has a bit to spare. -/
theorem cpop_lt_of_msb {x : BitVec w} (hw : 0 < w) (hx : x.msb = false) : x.cpop.toNat < w := by
  obtain ⟨n, rfl⟩ : ∃ n, w = n + 1 := ⟨w - 1, by omega⟩
  have hcons : x = BitVec.cons false (x.setWidth n) := by
    rw [← hx]
    exact (BitVec.cons_msb_setWidth x).symm
  rw [hcons, BitVec.toNat_cpop_cons, Bool.toNat_false, Nat.zero_add]
  exact Nat.lt_succ_of_le (BitVec.toNat_cpop_le _)

/-- Only the least number has no predecessor. -/
theorem ssubOverflow_one_iff (hw : 1 < w) (x : BitVec w) : BitVec.ssubOverflow x 1 = true ↔ x = BitVec.intMin w := by
  have hmin := BitVec.toInt_intMin_of_pos (Nat.zero_lt_of_lt hw)
  have hle := BitVec.toInt_intMin_le x
  have hlt := BitVec.toInt_lt (x := x)
  have hone : (1 : BitVec w).toInt = 1 := BitVec.toInt_one hw
  rw [← BitVec.toInt_inj, hmin]
  rw [hmin] at hle
  unfold BitVec.ssubOverflow
  rw [hone, Bool.or_eq_true, decide_eq_true_eq, decide_eq_true_eq]
  omega

theorem toInt_sub_one (hw : 1 < w) {x : BitVec w} (hmin : x ≠ BitVec.intMin w) : (x - 1).toInt = x.toInt - 1 := by
  have hone : (1 : BitVec w).toInt = 1 := BitVec.toInt_one hw
  rw [BitVec.toInt_sub_of_not_ssubOverflow fun h => hmin ((ssubOverflow_one_iff hw x).mp h), hone]

theorem msb_clearLowest_of_msb (hw : 1 < w) {x : BitVec w} (hx : x.msb = true) (hmin : x ≠ BitVec.intMin w) :
    (clearLowest x).msb = true := by
  have hneg : (x - 1).msb = true := by
    rw [BitVec.msb_eq_toInt, decide_eq_true_eq] at hx ⊢
    rw [toInt_sub_one hw hmin]
    omega
  unfold clearLowest
  rw [BitVec.msb_and, hx, hneg, Bool.true_and]

theorem msb_clearLowest {x : BitVec w} (hx : x.msb = false) : (clearLowest x).msb = false := by
  unfold clearLowest
  rw [BitVec.msb_and, hx, Bool.false_and]

end Karac.Lib.ClearLowest
