import Mathlib

/-! Bytes of a machine word, for code that works on all of them at once: the lanes of bitwise
operations and of additions that do not carry between lanes, and the loop that takes the lowest set
lane of a mask and clears it with `m & (m - 1)`. -/

namespace Karac.Lib

variable {w : ℕ}

/-- Byte `i` of a word, counted from the low end. -/
def lane (i : ℕ) (x : BitVec w) : BitVec 8 := x.extractLsb' (8 * i) 8

@[simp] theorem lane_and (i : ℕ) (x y : BitVec w) : lane i (x &&& y) = lane i x &&& lane i y :=
  BitVec.extractLsb'_and

@[simp] theorem lane_or (i : ℕ) (x y : BitVec w) : lane i (x ||| y) = lane i x ||| lane i y :=
  BitVec.extractLsb'_or

@[simp] theorem lane_xor (i : ℕ) (x y : BitVec w) : lane i (x ^^^ y) = lane i x ^^^ lane i y :=
  BitVec.extractLsb'_xor

theorem getLsbD_lane (i j : ℕ) (x : BitVec w) :
    (lane i x).getLsbD j = (decide (j < 8) && x.getLsbD (8 * i + j)) := by
  simp [lane]

theorem lane_not {i : ℕ} (hi : 8 * i + 8 ≤ w) (x : BitVec w) : lane i (~~~x) = ~~~lane i x := by
  refine BitVec.eq_of_getLsbD_eq fun j hj => ?_
  simp only [getLsbD_lane, BitVec.getLsbD_not, hj, decide_true, Bool.true_and]
  rw [decide_eq_true (show 8 * i + j < w by omega), Bool.true_and]

theorem toNat_lane (i : ℕ) (x : BitVec w) : (lane i x).toNat = x.toNat / 2 ^ (8 * i) % 256 := by
  simp [lane, BitVec.extractLsb'_toNat, Nat.shiftRight_eq_div_pow]

theorem mod_two_pow_lane (i : ℕ) (x : BitVec w) :
    x.toNat % 2 ^ (8 * (i + 1)) = x.toNat % 2 ^ (8 * i) + 2 ^ (8 * i) * (lane i x).toNat := by
  rw [toNat_lane, show 8 * (i + 1) = 8 * i + 8 by ring, pow_add, Nat.mod_mul]
  rfl

/-- Without a carry out of a lane, the low lanes add up within their width. -/
theorem low_add_lt {x y : BitVec w} {i : ℕ} (h : ∀ j < i, (lane j x).toNat + (lane j y).toNat < 256) :
    x.toNat % 2 ^ (8 * i) + y.toNat % 2 ^ (8 * i) < 2 ^ (8 * i) := by
  induction i with
  | zero => simp [Nat.mod_one]
  | succ i ih =>
    have hlow := ih fun j hj => h j (by omega)
    have hi := h i (by omega)
    rw [mod_two_pow_lane, mod_two_pow_lane, show 8 * (i + 1) = 8 * i + 8 by ring, pow_add]
    have hle : 2 ^ (8 * i) * ((lane i x).toNat + (lane i y).toNat) ≤ 2 ^ (8 * i) * 255 :=
      Nat.mul_le_mul_left _ (by omega)
    have hsum : 2 ^ (8 * i) * ((lane i x).toNat + (lane i y).toNat) =
        2 ^ (8 * i) * (lane i x).toNat + 2 ^ (8 * i) * (lane i y).toNat := Nat.mul_add _ _ _
    omega

theorem lane_add {x y : BitVec w} {i : ℕ} (hi : 8 * i + 8 ≤ w)
    (h : ∀ j < i, (lane j x).toNat + (lane j y).toNat < 256) : lane i (x + y) = lane i x + lane i y := by
  apply BitVec.eq_of_toNat_eq
  have hlow := low_add_lt h
  rw [BitVec.toNat_add, toNat_lane, toNat_lane, toNat_lane, BitVec.toNat_add, ← Nat.add_mod]
  have hw : 2 ^ w = 2 ^ (8 * i) * 2 ^ (w - 8 * i) := by rw [← pow_add]; congr 1; omega
  have h256 : 256 ∣ 2 ^ (w - 8 * i) := pow_dvd_pow 2 (show 8 ≤ w - 8 * i by omega)
  rw [hw, Nat.mod_mul_right_div_self, Nat.mod_mod_of_dvd _ h256]
  have hdiv : (x.toNat + y.toNat) / 2 ^ (8 * i) = x.toNat / 2 ^ (8 * i) + y.toNat / 2 ^ (8 * i) := by
    rw [Nat.add_div (by positivity), if_neg (by omega), Nat.add_zero]
  rw [hdiv]

@[simp] theorem lane_append_zero (x : BitVec w) (b : BitVec 8) : lane 0 (x ++ b) = b :=
  BitVec.extractLsb'_append_eq_right

@[simp] theorem lane_append_succ (i : ℕ) (x : BitVec w) (b : BitVec 8) :
    lane (i + 1) (x ++ b) = lane i x := by
  refine BitVec.eq_of_getLsbD_eq fun j hj => ?_
  rw [getLsbD_lane, getLsbD_lane, BitVec.getLsbD_append, if_neg (by omega)]
  congr 2
  omega

@[simp] theorem lane_byte (b : BitVec 8) : lane 0 b = b := by
  simp [lane]

theorem lane_of_ge {i : ℕ} (hi : w ≤ 8 * i) (x : BitVec w) : lane i x = 0 := by
  refine BitVec.eq_of_getLsbD_eq fun j hj => ?_
  rw [getLsbD_lane, BitVec.getLsbD_of_ge x _ (by omega)]
  simp

theorem lane_zero (i : ℕ) : lane i (0 : BitVec w) = 0 := by
  apply BitVec.eq_of_toNat_eq
  simp [toNat_lane]

/-! Masks. -/

/-- Every lane is empty or has just its high bit set. -/
def LaneMask (m : BitVec w) : Prop := ∀ i, lane i m = 0 ∨ lane i m = 0x80

theorem LaneMask.bit {m : BitVec w} (h : LaneMask m) (j : ℕ) :
    m.getLsbD j = true ↔ j % 8 = 7 ∧ lane (j / 8) m ≠ 0 := by
  have hlane : (lane (j / 8) m).getLsbD (j % 8) = m.getLsbD j := by
    rw [getLsbD_lane, Nat.div_add_mod, decide_eq_true (Nat.mod_lt j (by norm_num)), Bool.true_and]
  rw [← hlane]
  have hmod : j % 8 < 8 := Nat.mod_lt j (by norm_num)
  rcases h (j / 8) with hz | hz
  · simp [hz]
  · rw [hz]
    interval_cases j % 8 <;> decide

/-- Clearing the lowest set bit. -/
theorem getLsbD_clear_lowest {m : BitVec w} (hm : m ≠ 0) (j : ℕ) :
    (m &&& (m - 1)).getLsbD j = (m.getLsbD j && decide (j ≠ m.ctz.toNat)) := by
  have hk := BitVec.getLsbD_true_ctz_of_ne_zero hm
  generalize hkdef : m.ctz.toNat = k at hk ⊢
  have hlow : m.toNat % 2 ^ k = 0 := by
    refine Nat.eq_of_testBit_eq fun i => ?_
    rw [Nat.testBit_mod_two_pow, Nat.zero_testBit]
    by_cases hi : i < k
    · have := BitVec.getLsbD_false_of_lt_ctz (x := m) (i := i) (by omega)
      rw [BitVec.getLsbD] at this
      simp [this]
    · simp [hi]
  have hbit : m.toNat / 2 ^ k % 2 = 1 := by
    rw [BitVec.getLsbD, Nat.testBit, Nat.shiftRight_eq_div_pow] at hk
    simpa [Nat.one_and_eq_mod_two] using hk
  obtain ⟨q, hq⟩ : ∃ q, m.toNat = 2 ^ (k + 1) * q + 2 ^ k := by
    refine ⟨m.toNat / 2 ^ k / 2, ?_⟩
    have h1 := Nat.div_add_mod m.toNat (2 ^ k)
    have h2 := Nat.div_add_mod (m.toNat / 2 ^ k) 2
    rw [hlow] at h1
    rw [hbit] at h2
    calc m.toNat = 2 ^ k * (2 * (m.toNat / 2 ^ k / 2) + 1) := by rw [h2]; omega
      _ = 2 ^ (k + 1) * (m.toNat / 2 ^ k / 2) + 2 ^ k := by ring
  have hpos : 1 ≤ 2 ^ k := Nat.one_le_two_pow
  have hpred : (m - 1).toNat = 2 ^ (k + 1) * q + (2 ^ k - 1) := by
    have hlt := m.isLt
    have hone : (1 : BitVec w).toNat = 1 := by
      rw [show (1 : BitVec w) = 1#w from rfl, BitVec.toNat_ofNat, Nat.mod_eq_of_lt (by omega)]
    rw [BitVec.toNat_sub, hone, show 2 ^ w - 1 + m.toNat = (m.toNat - 1) + 2 ^ w by omega,
      Nat.add_mod_right, Nat.mod_eq_of_lt (by omega)]
    omega
  have hsplit : ∀ b < 2 ^ (k + 1), (2 ^ (k + 1) * q + b).testBit j =
      if j < k + 1 then b.testBit j else q.testBit (j - (k + 1)) :=
    fun b hb => Nat.testBit_two_pow_mul_add q hb j
  have hpow : 2 ^ (k + 1) = 2 ^ k + 2 ^ k := by ring
  rw [BitVec.getLsbD_and, BitVec.getLsbD, BitVec.getLsbD, hpred, hq, hsplit _ (by omega),
    hsplit _ (by omega)]
  split_ifs with hj
  · rw [Nat.testBit_two_pow, Nat.testBit_two_pow_sub_one]
    by_cases hjk : k = j <;> simp [hjk]
  · simp [show j ≠ k by omega]

theorem ctz_lane {m : BitVec w} (h : LaneMask m) (hm : m ≠ 0) :
    lane (m.ctz.toNat / 8) m ≠ 0 ∧ ∀ i < m.ctz.toNat / 8, lane i m = 0 := by
  obtain ⟨hmod, hne⟩ := (h.bit _).mp (BitVec.getLsbD_true_ctz_of_ne_zero hm)
  refine ⟨hne, fun i hi => ?_⟩
  by_contra hlane
  have hbit : m.getLsbD (8 * i + 7) = true := (h.bit _).mpr ⟨by omega, by
    rwa [show (8 * i + 7) / 8 = i by omega]⟩
  rw [BitVec.getLsbD_false_of_lt_ctz (by omega)] at hbit
  exact absurd hbit (by simp)

/-- Clearing the lowest set bit of a mask empties its lowest set lane. -/
theorem lane_clear_lowest {m : BitVec w} (h : LaneMask m) (hm : m ≠ 0) (i : ℕ) :
    lane i (m &&& (m - 1)) = if i = m.ctz.toNat / 8 then 0 else lane i m := by
  obtain ⟨hmod, -⟩ := (h.bit _).mp (BitVec.getLsbD_true_ctz_of_ne_zero hm)
  refine BitVec.eq_of_getLsbD_eq fun j hj => ?_
  rw [getLsbD_lane, decide_eq_true hj, Bool.true_and, getLsbD_clear_lowest hm]
  have hdiv : (8 * i + j) / 8 = i := by omega
  have hrem : (8 * i + j) % 8 = j := by omega
  by_cases hi : i = m.ctz.toNat / 8
  · rw [if_pos hi]
    by_cases hj7 : j = 7
    · rw [decide_eq_false (by omega)]
      simp
    · have : m.getLsbD (8 * i + j) = false := by
        rw [← Bool.not_eq_true, h.bit, hrem]
        exact fun hc => hj7 hc.1
      simp [this]
  · rw [if_neg hi, getLsbD_lane, decide_eq_true hj, Bool.true_and, decide_eq_true (by omega), Bool.and_true]

theorem LaneMask.clear_lowest {m : BitVec w} (h : LaneMask m) (hm : m ≠ 0) : LaneMask (m &&& (m - 1)) := by
  intro i
  rw [lane_clear_lowest h hm]
  split_ifs
  · exact Or.inl rfl
  · exact h i

end Karac.Lib
