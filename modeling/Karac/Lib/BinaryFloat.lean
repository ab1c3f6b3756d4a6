import Karac.Lib.NearestEven

/-! The magnitudes of a binary floating-point format in the order of their bit patterns, with subnormals and without a
largest one: the pattern's upper bits give the binade, and the `t` lower ones the fraction. -/

namespace Karac.Lib

variable {t : ℕ} {q : ℤ} {n m b : ℕ}

def binade (t n : ℕ) : ℕ := n / 2 ^ t - 1

def significand (t n : ℕ) : ℕ := n - binade t n * 2 ^ t

/-- `2 ^ q` is the least value above 0. -/
def floatValue (t : ℕ) (q : ℤ) (n : ℕ) : ℚ := significand t n * 2 ^ (q + binade t n)

theorem binade_of_lt (hb : b = 0 ∨ 2 ^ t ≤ m) (hm : m < 2 ^ (t + 1)) : binade t (b * 2 ^ t + m) = b := by
  have hpos : 0 < 2 ^ t := Nat.two_pow_pos t
  rw [pow_succ] at hm
  rw [binade, Nat.add_comm, Nat.add_mul_div_right _ _ hpos]
  have hlt : m / 2 ^ t < 2 := Nat.div_lt_of_lt_mul hm
  obtain rfl | hle := hb
  · omega
  · have hone : 1 ≤ m / 2 ^ t := (Nat.one_le_div_iff hpos).mpr hle
    omega

theorem floatValue_of_lt (hb : b = 0 ∨ 2 ^ t ≤ m) (hm : m < 2 ^ (t + 1)) :
    floatValue t q (b * 2 ^ t + m) = m * 2 ^ (q + b) := by
  rw [floatValue, significand, binade_of_lt hb hm, Nat.add_sub_cancel_left]

/-- The first value of the next binade too. -/
theorem floatValue_of_le (hb : b = 0 ∨ 2 ^ t ≤ m) (hm : m ≤ 2 ^ (t + 1)) :
    floatValue t q (b * 2 ^ t + m) = m * 2 ^ (q + b) := by
  obtain hlt | rfl := hm.lt_or_eq
  · exact floatValue_of_lt hb hlt
  · have hindex : b * 2 ^ t + 2 ^ (t + 1) = (b + 1) * 2 ^ t + 2 ^ t := by ring
    rw [hindex, floatValue_of_lt (.inr le_rfl) (Nat.pow_lt_pow_right one_lt_two (Nat.lt_succ_self t))]
    push_cast
    rw [← add_assoc, zpow_add_one₀ two_ne_zero]
    ring

theorem significand_spec (t n : ℕ) : n = binade t n * 2 ^ t + significand t n ∧
    (binade t n = 0 ∨ 2 ^ t ≤ significand t n) ∧ significand t n < 2 ^ (t + 1) := by
  have hpos : 0 < 2 ^ t := Nat.two_pow_pos t
  have hdiv := Nat.div_add_mod n (2 ^ t)
  have hmod := Nat.mod_lt n hpos
  unfold significand binade
  rw [pow_succ]
  obtain hzero | ⟨k, hk⟩ : n / 2 ^ t = 0 ∨ ∃ k, n / 2 ^ t = k + 1 := by
    cases n / 2 ^ t with
    | zero => exact .inl rfl
    | succ k => exact .inr ⟨k, rfl⟩
  · rw [hzero] at hdiv ⊢
    refine ⟨by simp, .inl rfl, ?_⟩
    simp only [Nat.zero_sub, Nat.zero_mul, Nat.sub_zero]
    omega
  · rw [hk] at hdiv ⊢
    rw [Nat.mul_succ, Nat.mul_comm] at hdiv
    rw [Nat.add_sub_cancel]
    exact ⟨by omega, .inr (by omega), by omega⟩

theorem floatValue_succ (t : ℕ) (q : ℤ) (n : ℕ) : floatValue t q (n + 1) = floatValue t q n + 2 ^ (q + binade t n) := by
  obtain ⟨hn, hb, hm⟩ := significand_spec t n
  have hsucc : n + 1 = binade t n * 2 ^ t + (significand t n + 1) := by omega
  rw [hsucc, floatValue_of_le (hb.imp_right Nat.le_succ_of_le) hm, floatValue]
  push_cast
  ring

theorem floatValue_strictMono (t : ℕ) (q : ℤ) : StrictMono (floatValue t q) := by
  refine strictMono_nat_of_lt_succ fun n => ?_
  rw [floatValue_succ]
  exact lt_add_of_pos_right _ (zpow_pos two_pos _)

theorem tie_floatValue (t : ℕ) (q : ℤ) (n : ℕ) :
    tie (floatValue t q) n = (2 * significand t n + 1 : ℕ) * 2 ^ (q - 1 + binade t n) := by
  have hq : (2 : ℚ) ^ (q + binade t n) = 2 * 2 ^ (q - 1 + binade t n) := by
    rw [← zpow_one_add₀ two_ne_zero]
    congr 1
    ring
  rw [tie, floatValue_succ, floatValue, hq]
  push_cast
  ring

/-- A number with few bits is a value. -/
theorem exists_floatValue (hm : m ≤ 2 ^ (t + 1)) (b : ℕ) : ∃ k, floatValue t q k = m * 2 ^ (q + b) := by
  induction b generalizing m with
  | zero => exact ⟨m, by simpa using floatValue_of_le (b := 0) (.inl rfl) hm⟩
  | succ b ih =>
    by_cases hle : 2 ^ t ≤ m
    · exact ⟨_, floatValue_of_le (.inr hle) hm⟩
    · obtain ⟨k, hk⟩ := @ih (2 * m) (by rw [pow_succ]; omega)
      refine ⟨k, hk.trans ?_⟩
      push_cast
      rw [← add_assoc, zpow_add_one₀ two_ne_zero]
      ring

/-- The ties of a format are values of every finer one. -/
theorem exists_tie {t' : ℕ} {q' : ℤ} (ht : t < t') (hq : q' < q) (n : ℕ) :
    ∃ k, floatValue t' q' k = tie (floatValue t q) n := by
  obtain ⟨-, -, hm⟩ := significand_spec t n
  have hle : 2 * significand t n + 1 ≤ 2 ^ (t' + 1) := by
    have hpow : 2 ^ (t + 1) ≤ 2 ^ t' := Nat.pow_le_pow_right two_pos ht
    rw [pow_succ]
    omega
  obtain ⟨d, hd⟩ : ∃ d : ℕ, q - 1 = q' + d := ⟨(q - 1 - q').toNat, by omega⟩
  obtain ⟨k, hk⟩ := @exists_floatValue t' q' _ hle (d + binade t n)
  refine ⟨k, hk.trans ?_⟩
  rw [tie_floatValue, hd]
  push_cast
  rw [add_assoc]

theorem le_floatValue (t : ℕ) (q : ℤ) (n : ℕ) : n * 2 ^ q ≤ floatValue t q n := by
  induction n with
  | zero => simp [floatValue, significand]
  | succ n ih =>
    have hstep : (2 : ℚ) ^ q ≤ 2 ^ (q + binade t n) := zpow_le_zpow_right₀ one_le_two (by omega)
    rw [floatValue_succ]
    push_cast
    linarith

theorem exists_lt_floatValue (t : ℕ) (q : ℤ) (x : ℚ) : ∃ n, x < floatValue t q n := by
  obtain ⟨n, hn⟩ := exists_nat_gt (x / 2 ^ q)
  exact ⟨n, ((div_lt_iff₀ (zpow_pos two_pos q)).mp hn).trans_le (le_floatValue t q n)⟩

/-- To an integer, ties to even. -/
def roundHalfEven (s : ℚ) : ℕ :=
  if 1 / 2 < s - ⌊s⌋₊ ∨ s - ⌊s⌋₊ = 1 / 2 ∧ ¬Even ⌊s⌋₊ then ⌊s⌋₊ + 1 else ⌊s⌋₊

/-- Rounding in units of the last place. -/
theorem roundsTo_scaled {s : ℚ} (ht : t ≠ 0) (hs : 0 ≤ s) (hb : b = 0 ∨ 2 ^ t ≤ s) (hlt : s < 2 ^ (t + 1)) :
    RoundsTo (floatValue t q) (s * 2 ^ (q + b)) (b * 2 ^ t + roundHalfEven s) := by
  have hpos : (0 : ℚ) < 2 ^ (q + b) := zpow_pos two_pos _
  have hfloor : ⌊s⌋₊ < 2 ^ (t + 1) := (Nat.floor_lt hs).mpr (by exact_mod_cast hlt)
  have hb' : b = 0 ∨ 2 ^ t ≤ ⌊s⌋₊ := hb.imp_right fun h => Nat.le_floor (by exact_mod_cast h)
  have hlo : floatValue t q (b * 2 ^ t + ⌊s⌋₊) = ⌊s⌋₊ * 2 ^ (q + b) := floatValue_of_lt hb' hfloor
  have hhi : floatValue t q (b * 2 ^ t + ⌊s⌋₊ + 1) = (⌊s⌋₊ + 1) * 2 ^ (q + b) := by
    rw [add_assoc, floatValue_of_le (hb'.imp_right Nat.le_succ_of_le) hfloor]
    push_cast
    rfl
  have heven : Even (b * 2 ^ t + ⌊s⌋₊) ↔ Even ⌊s⌋₊ := by
    have h2 : Even (b * 2 ^ t) := (Nat.even_pow.mpr ⟨even_two, ht⟩).mul_left b
    rw [Nat.even_add]
    exact iff_true_left h2
  have htie : tie (floatValue t q) (b * 2 ^ t + ⌊s⌋₊) = (⌊s⌋₊ + 1 / 2) * 2 ^ (q + b) := by
    rw [tie, hlo, hhi]
    ring
  have hround := roundsTo_between (floatValue_strictMono t q) (x := s * 2 ^ (q + b)) (n := b * 2 ^ t + ⌊s⌋₊)
    (by rw [hlo]; exact mul_le_mul_of_nonneg_right (Nat.floor_le hs) hpos.le)
    (by rw [hhi]; exact mul_lt_mul_of_pos_right (Nat.lt_floor_add_one s) hpos)
  have hcond : ((⌊s⌋₊ : ℚ) + 1 / 2 < s ∨ (⌊s⌋₊ : ℚ) + 1 / 2 = s ∧ ¬Even ⌊s⌋₊) ↔
      1 / 2 < s - ⌊s⌋₊ ∨ s - ⌊s⌋₊ = 1 / 2 ∧ ¬Even ⌊s⌋₊ := by
    rw [lt_sub_iff_add_lt, add_comm (1 / 2 : ℚ), sub_eq_iff_eq_add, add_comm (1 / 2 : ℚ), eq_comm]
  simp only [htie, mul_lt_mul_iff_left₀ hpos, mul_left_inj' hpos.ne', heven, hcond] at hround
  unfold roundHalfEven
  split_ifs at hround ⊢ with h
  · exact hround
  · exact hround

/-- The pattern to which a magnitude rounds. -/
def floatIndex (t : ℕ) (q : ℤ) (x : ℚ) : ℕ :=
  if x = 0 then 0
  else
    let b := (Int.log 2 x - t - q).toNat
    b * 2 ^ t + roundHalfEven (x / 2 ^ (q + b))

theorem roundsTo_floatIndex {x : ℚ} (ht : t ≠ 0) (hx : 0 ≤ x) : RoundsTo (floatValue t q) x (floatIndex t q x) := by
  unfold floatIndex
  split_ifs with h0
  · have hzero : floatValue t q 0 = 0 := by simp [floatValue, significand]
    rw [h0, ← hzero]
    exact roundsTo_self (floatValue_strictMono t q) 0
  · have hpos : 0 < x := lt_of_le_of_ne hx (Ne.symm h0)
    have hlo : (2 : ℚ) ^ Int.log 2 x ≤ x := by exact_mod_cast Int.zpow_log_le_self one_lt_two hpos
    have hhi : x < 2 ^ (Int.log 2 x + 1) := by exact_mod_cast Int.lt_zpow_succ_log_self one_lt_two x
    generalize Int.log 2 x = l at hlo hhi
    have hunit : (0 : ℚ) < 2 ^ (q + ((l - t - q).toNat : ℤ)) := zpow_pos two_pos _
    have hx' : x = x / 2 ^ (q + ((l - t - q).toNat : ℤ)) * 2 ^ (q + ((l - t - q).toNat : ℤ)) :=
      (div_mul_cancel₀ x hunit.ne').symm
    nth_rewrite 1 [hx']
    refine roundsTo_scaled ht (div_nonneg hx hunit.le) ?_ ?_
    · by_cases hle : l - t - q ≤ 0
      · exact .inl (Int.toNat_eq_zero.mpr hle)
      · refine .inr ((le_div_iff₀ hunit).mpr (le_of_eq_of_le ?_ hlo))
        rw [← zpow_natCast, ← zpow_add₀ two_ne_zero]
        congr 1
        omega
    · rw [div_lt_iff₀ hunit]
      refine hhi.trans_le ?_
      rw [← zpow_natCast, ← zpow_add₀ two_ne_zero]
      exact zpow_le_zpow_right₀ one_le_two (by push_cast; omega)

end Karac.Lib
