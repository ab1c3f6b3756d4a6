import Karac.Lib.BinaryFloat

/-! `round_f64_via_f16`: how the interpreter keeps a value that is typed `f16` representable. A double is rounded to a
single and the single to a half. -/

namespace Karac.Interpreter

open Lib

/-- A finite `f64`. -/
structure Double where
  neg : Bool
  exp : ℕ
  frac : ℕ
  exp_lt : exp < 2047
  frac_lt : frac < 2 ^ 52

def Double.magnitude (x : Double) : ℚ :=
  if x.exp = 0 then x.frac * 2 ^ (-1074 : ℤ) else (2 ^ 52 + x.frac) * 2 ^ ((x.exp : ℤ) - 1075)

/-- The values of the bit patterns of a single from 0 on, and of a half. -/
def single : ℕ → ℚ := floatValue 23 (-149)

def half : ℕ → ℚ := floatValue 10 (-24)

/-- `x as f32`, as bits: to nearest, ties to even, infinity past the largest single. -/
def asF32Bits (x : Double) : ℕ := (if x.neg then 2 ^ 31 else 0) + min (floatIndex 23 (-149) x.magnitude) 0x7F800000

/-- Round half to even at the cut. -/
def cut (mant shift : ℕ) : ℕ :=
  let base := mant >>> shift
  let rem := mant &&& (2 ^ shift - 1)
  let half := 2 ^ (shift - 1)
  if rem > half ∨ rem = half ∧ base &&& 1 = 1 then base + 1 else base

/-- `f32_to_f16_bits`. The words are natural numbers; none overflows. -/
def f32ToF16Bits (b : ℕ) : ℕ :=
  let sign := (b >>> 16) &&& 0x8000
  let exp := (b >>> 23) &&& 0xFF
  let frac := b &&& 0x007FFFFF
  if exp = 0xFF then
    if frac ≠ 0 then sign ||| 0x7E00 ||| (frac >>> 13) else sign ||| 0x7C00
  else if exp = 0 ∧ frac = 0 then sign
  else
    let e : ℤ := exp - 127
    let mant := 0x00800000 ||| frac
    if e ≥ 16 then sign ||| 0x7C00
    else if e ≥ -14 then
      let r := cut mant 13
      let ee := (e + 15).toNat
      let mm := r &&& 0x3FF
      let ee := if r = 0x800 then ee + 1 else ee
      let mm := if r = 0x800 then 0 else mm
      if ee ≥ 31 then sign ||| 0x7C00 else sign ||| (ee <<< 10) ||| mm
    else if e < -25 then sign
    else sign ||| cut mant (13 + (-14 - e)).toNat

/-- What an `f64` can be here. -/
inductive F64
  | nan
  | infinity (neg : Bool)
  | finite (neg : Bool) (magnitude : ℚ)
deriving DecidableEq

def F64.negate : F64 → F64
  | .nan => .nan
  | .infinity neg => .infinity !neg
  | .finite neg magnitude => .finite (!neg) magnitude

/-- `f16_bits_to_f64`. The operations are exact. -/
def f16BitsToF64 (h : ℕ) : F64 :=
  let neg := h &&& 0x8000 ≠ 0
  let exp := (h >>> 10) &&& 0x1F
  let mant := h &&& 0x3FF
  let v :=
    if exp = 31 then if mant ≠ 0 then F64.nan else .infinity false
    else if exp = 0 then .finite false (mant * 2 ^ (-24 : ℤ))
    else .finite false ((1 + mant / 1024) * 2 ^ ((exp : ℤ) - 15))
  if neg then v.negate else v

def roundF64ViaF16 (x : Double) : F64 := f16BitsToF64 (f32ToF16Bits (asF32Bits x))

/-! What narrowing to a half should be. -/

/-- The correctly rounded half: the nearest, ties to even, infinity from 65520 on, and a zero up to `2 ^ (-25)`. -/
structure CorrectlyRounded (x : Double) (r : F64) : Prop where
  infinity : r = .infinity x.neg ↔ 65520 ≤ x.magnitude
  zero : r = .finite x.neg 0 ↔ x.magnitude ≤ 2 ^ (-25 : ℤ)
  nearest : x.magnitude < 65520 → ∃ h < 0x7C00, r = .finite x.neg (half h) ∧
    ∀ g < 0x7C00, g ≠ h → |x.magnitude - half h| < |x.magnitude - half g| ∨
      |x.magnitude - half h| = |x.magnitude - half g| ∧ Even h

/-- The conversion to a single moves `x` onto the middle of two neighbouring halves (65536 standing for infinity), from
the side of the odd one. -/
def MovesOntoTie (x : Double) : Prop :=
  ∃ m < 0x7C00, MovedOntoTie half x.magnitude (single (floatIndex 23 (-149) x.magnitude)) m

end Karac.Interpreter

/-! What the two conversions of `round_f64_via_f16` do: the half is the one nearest the single. -/

namespace Karac.Interpreter

open Lib

/-! The words. -/

/-- The sign bit of a word of `i + 1` bits. -/
def signBit (neg : Bool) (i : ℕ) : ℕ := if neg then 2 ^ i else 0

variable {neg : Bool} {k n h : ℕ}

theorem or_signBit {i x : ℕ} (hx : x < 2 ^ i) : signBit neg i ||| x = signBit neg i + x := by
  cases neg with
  | false => simp [signBit]
  | true =>
    have hor := Nat.two_pow_add_eq_or_of_lt hx 1
    rw [Nat.mul_one] at hor
    exact hor.symm

theorem signBit_and {i : ℕ} (hk : k < 2 ^ i) : (signBit neg i + k) &&& 2 ^ i = signBit neg i := by
  rw [Nat.and_two_pow, Nat.testBit_eq_decide_div_mod_eq]
  cases neg with
  | false => simp [signBit, Nat.div_eq_of_lt hk]
  | true => simp [signBit, Nat.add_div_left, Nat.div_eq_of_lt hk]

theorem signBit_mod {i j : ℕ} (hij : j ≤ i) : (signBit neg i + k) % 2 ^ j = k % 2 ^ j := by
  cases neg with
  | false => simp [signBit]
  | true =>
    obtain ⟨d, rfl⟩ := Nat.exists_eq_add_of_le hij
    rw [signBit, if_pos rfl, pow_add, Nat.mul_add_mod]

theorem signBit_div {i j : ℕ} (hij : j ≤ i) : (signBit neg i + k) / 2 ^ j = signBit neg (i - j) + k / 2 ^ j := by
  cases neg with
  | false => simp [signBit]
  | true =>
    obtain ⟨d, rfl⟩ := Nat.exists_eq_add_of_le hij
    rw [signBit, if_pos rfl, pow_add, Nat.mul_add_div (Nat.two_pow_pos j), signBit, if_pos rfl, Nat.add_sub_cancel_left]

theorem cut_eq (mant : ℕ) {shift : ℕ} (hshift : shift ≠ 0) : cut mant shift = roundHalfEven (mant / 2 ^ shift) := by
  obtain ⟨d, rfl⟩ := Nat.exists_eq_succ_of_ne_zero hshift
  have hpos : (0 : ℚ) < 2 ^ d := by positivity
  have hfloor : ⌊(mant : ℚ) / 2 ^ (d + 1)⌋₊ = mant / 2 ^ (d + 1) := by
    exact_mod_cast Nat.floor_div_eq_div (K := ℚ) mant (2 ^ (d + 1))
  have hrem : (mant : ℚ) / 2 ^ (d + 1) - (mant / 2 ^ (d + 1) : ℕ) = (mant % 2 ^ (d + 1) : ℕ) / 2 ^ (d + 1) := by
    have hdiv : (mant : ℚ) = 2 ^ (d + 1) * (mant / 2 ^ (d + 1) : ℕ) + (mant % 2 ^ (d + 1) : ℕ) := by
      exact_mod_cast (Nat.div_add_mod mant (2 ^ (d + 1))).symm
    rw [eq_div_iff (by positivity), sub_mul, div_mul_cancel₀ _ (by positivity)]
    linarith
  have hhalf : ∀ r : ℕ, (1 / 2 < (r : ℚ) / 2 ^ (d + 1) ↔ 2 ^ d < r) ∧ ((r : ℚ) / 2 ^ (d + 1) = 1 / 2 ↔ r = 2 ^ d) := by
    intro r
    have hval : (r : ℚ) / 2 ^ (d + 1) = r / 2 ^ d / 2 := by rw [pow_succ, div_div]
    constructor
    · rw [hval, div_lt_div_iff_of_pos_right two_pos, lt_div_iff₀ hpos, one_mul]
      exact_mod_cast Iff.rfl
    · rw [hval, div_left_inj' two_ne_zero, div_eq_iff hpos.ne', one_mul]
      exact_mod_cast Iff.rfl
  unfold cut roundHalfEven
  simp only [Nat.shiftRight_eq_div_pow, Nat.and_two_pow_sub_one_eq_mod, Nat.and_one_is_mod, hfloor, hrem,
    Nat.succ_eq_add_one, Nat.add_sub_cancel, (hhalf _).1, (hhalf _).2, gt_iff_lt, Nat.not_even_iff]

theorem single_of_normal {exp frac : ℕ} (hexp : exp ≠ 0) (hfrac : frac < 2 ^ 23) :
    single (exp * 2 ^ 23 + frac) = (2 ^ 23 + frac : ℕ) * 2 ^ ((exp : ℤ) - 150) := by
  obtain ⟨e, rfl⟩ := Nat.exists_eq_succ_of_ne_zero hexp
  have hindex : e.succ * 2 ^ 23 + frac = e * 2 ^ 23 + (2 ^ 23 + frac) := by rw [Nat.succ_mul, Nat.add_assoc]
  rw [single, hindex, floatValue_of_lt (.inr (Nat.le_add_right _ _)) (by omega)]
  congr 2
  push_cast
  ring

/-- The normal and the subnormal cut round a single to a half. -/
theorem roundsTo_cut {exp frac b shift : ℕ} (hexp : exp ≠ 0) (hfrac : frac < 2 ^ 23) (hshift : shift + exp = b + 126)
    (hlow : 13 ≤ shift) (hb : b = 0 ∨ shift = 13) :
    RoundsTo half (single (exp * 2 ^ 23 + frac)) (b * 2 ^ 10 + cut (2 ^ 23 + frac) shift) := by
  have hscale : single (exp * 2 ^ 23 + frac) = ((2 ^ 23 + frac : ℕ) / 2 ^ shift : ℚ) * 2 ^ (-24 + b : ℤ) := by
    rw [single_of_normal hexp hfrac, div_mul_eq_mul_div, mul_div_assoc, ← zpow_natCast, ← zpow_sub₀ two_ne_zero]
    congr 2
    omega
  have hpos : (0 : ℚ) < 2 ^ shift := by positivity
  rw [hscale, cut_eq _ (by omega)]
  refine roundsTo_scaled (by decide) (by positivity) (hb.imp_right fun h => ?_) ?_
  · rw [h, le_div_iff₀ (by positivity)]
    push_cast
    have hnonneg : (0 : ℚ) ≤ frac := Nat.cast_nonneg _
    linarith
  · rw [div_lt_iff₀ hpos]
    have hle : (2 : ℚ) ^ 13 ≤ 2 ^ shift := pow_le_pow_right₀ one_le_two hlow
    have hlt : ((2 ^ 23 + frac : ℕ) : ℚ) < 2 ^ 24 := by exact_mod_cast (by omega : 2 ^ 23 + frac < 2 ^ 24)
    refine hlt.trans_le ?_
    calc (2 : ℚ) ^ 24 = 2 ^ (10 + 1) * 2 ^ 13 := by norm_num
      _ ≤ 2 ^ (10 + 1) * 2 ^ shift := mul_le_mul_of_nonneg_left hle (by positivity)

theorem half_strictMono : StrictMono half := floatValue_strictMono 10 (-24)

theorem single_strictMono : StrictMono single := floatValue_strictMono 23 (-149)

theorem tie_top : tie half 0x7BFF = 65520 := by norm_num [tie, half, floatValue, significand, binade]

theorem tie_zero : tie half 0 = 2 ^ (-25 : ℤ) := by norm_num [tie, half, floatValue, significand, binade]

/-- From 2 ^ 16 on a single rounds to infinity. -/
theorem top_le_of_single (hn : RoundsTo half (single k) n) (hk : 143 * 2 ^ 23 ≤ k) : 0x7C00 ≤ n := by
  have hle : half 0x7C00 ≤ single k := by
    refine le_trans (le_of_eq ?_) (single_strictMono.monotone hk)
    norm_num [half, single, floatValue, significand, binade]
  exact (roundsTo_self half_strictMono 0x7C00).mono half_strictMono hn hle

/-- Below 2 ^ (-25) one rounds to 0. -/
theorem eq_zero_of_single (hn : RoundsTo half (single k) n) (hk : k < 102 * 2 ^ 23) : n = 0 := by
  have hlt : single k < tie half 0 := by
    refine (single_strictMono hk).trans_le (le_of_eq ?_)
    norm_num [tie, half, single, floatValue, significand, binade]
  exact Nat.le_zero.mp (le_of_lt_tie half_strictMono hn hlt)

theorem f32_fields {exp frac : ℕ} (hexp : exp < 256) (hfrac : frac < 2 ^ 23) :
    ((signBit neg 31 + (exp * 2 ^ 23 + frac)) >>> 16) &&& 0x8000 = signBit neg 15 ∧
      ((signBit neg 31 + (exp * 2 ^ 23 + frac)) >>> 23) &&& 0xFF = exp ∧
      (signBit neg 31 + (exp * 2 ^ 23 + frac)) &&& 0x007FFFFF = frac := by
  refine ⟨?_, ?_, ?_⟩
  · rw [Nat.shiftRight_eq_div_pow, signBit_div (by decide)]
    exact signBit_and (i := 15) (by omega)
  · rw [Nat.shiftRight_eq_div_pow, signBit_div (by decide)]
    refine (Nat.and_two_pow_sub_one_eq_mod _ 8).trans ?_
    rw [signBit_mod (by decide)]
    omega
  · refine (Nat.and_two_pow_sub_one_eq_mod _ 23).trans ?_
    rw [signBit_mod (by decide)]
    omega

theorem cut_bounds (mant shift : ℕ) : mant / 2 ^ shift ≤ cut mant shift ∧ cut mant shift ≤ mant / 2 ^ shift + 1 := by
  unfold cut
  simp only [Nat.shiftRight_eq_div_pow]
  split_ifs <;> omega

/-- A carry out of the fraction goes into the exponent, and past the largest to infinity. -/
theorem pack {b r : ℕ} (hb : b < 30) (hlo : 2 ^ 10 ≤ r) (hhi : r ≤ 2 ^ 11) :
    (if (if r = 0x800 then b + 1 + 1 else b + 1) ≥ 31 then signBit neg 15 + 0x7C00
      else signBit neg 15 ||| ((if r = 0x800 then b + 1 + 1 else b + 1) <<< 10) |||
        (if r = 0x800 then 0 else r &&& 0x3FF)) =
      signBit neg 15 + min (b * 2 ^ 10 + r) 0x7C00 := by
  have hmod : r &&& 0x3FF = r % 2 ^ 10 := Nat.and_two_pow_sub_one_eq_mod r 10
  have hor : ∀ e m, e < 31 → m < 2 ^ 10 → signBit neg 15 ||| (e <<< 10) ||| m = signBit neg 15 + (e * 2 ^ 10 + m) := by
    intro e m he hm
    have hpack : e <<< 10 ||| m = e * 2 ^ 10 + m := by
      rw [Nat.shiftLeft_eq, Nat.mul_comm]
      exact (Nat.two_pow_add_eq_or_of_lt hm e).symm
    rw [Nat.or_assoc, hpack, or_signBit (by omega)]
  by_cases hr : r = 0x800
  · simp only [if_pos hr]
    by_cases htop : b + 1 + 1 ≥ 31
    · rw [if_pos htop, min_eq_right (by omega)]
    · rw [if_neg htop, hor _ _ (by omega) (by decide), min_eq_left (by omega)]
      omega
  · simp only [if_neg hr]
    rw [if_neg (by omega), hmod, hor _ _ (by omega) (Nat.mod_lt _ (by decide)), min_eq_left (by omega)]
    omega

theorem f32ToF16Bits_spec (neg : Bool) (hn : RoundsTo half (single k) n) :
    f32ToF16Bits (signBit neg 31 + min k 0x7F800000) = signBit neg 15 + min n 0x7C00 := by
  have hinf : signBit neg 15 ||| 0x7C00 = signBit neg 15 + 0x7C00 := or_signBit (by decide)
  by_cases hk : 0x7F800000 ≤ k
  · obtain ⟨hsign, hexp, hfrac⟩ := @f32_fields neg 255 0 (by decide) (by decide)
    rw [min_eq_right hk, min_eq_right (top_le_of_single hn (by omega))]
    unfold f32ToF16Bits
    simp only [show (0x7F800000 : ℕ) = 255 * 2 ^ 23 + 0 from rfl, hsign, hexp, hfrac]
    exact hinf
  · have hkeq : k / 2 ^ 23 * 2 ^ 23 + k % 2 ^ 23 = k := Nat.div_add_mod' k (2 ^ 23)
    have hexp : k / 2 ^ 23 < 255 := by omega
    have hfrac : k % 2 ^ 23 < 2 ^ 23 := Nat.mod_lt _ (by decide)
    rw [min_eq_left (by omega)]
    generalize k / 2 ^ 23 = exp at hkeq hexp
    generalize k % 2 ^ 23 = frac at hkeq hfrac
    subst hkeq
    obtain ⟨hsign, hexp', hfrac'⟩ := @f32_fields neg exp frac (by omega) hfrac
    have hmant : 0x00800000 ||| frac = 2 ^ 23 + frac := by
      simpa using (Nat.two_pow_add_eq_or_of_lt hfrac 1).symm
    unfold f32ToF16Bits
    simp only [hsign, hexp', hfrac', hmant, hinf]
    rw [if_neg (by omega)]
    by_cases hzero : exp = 0 ∧ frac = 0
    · rw [if_pos hzero, eq_zero_of_single hn (by omega)]
      rfl
    rw [if_neg hzero]
    by_cases hbig : (exp : ℤ) - 127 ≥ 16
    · rw [if_pos hbig, min_eq_right (top_le_of_single hn (by omega))]
    rw [if_neg hbig]
    by_cases hnormal : (exp : ℤ) - 127 ≥ -14
    · rw [if_pos hnormal]
      obtain ⟨b, rfl⟩ : ∃ b, exp = b + 113 := ⟨exp - 113, by omega⟩
      have hround : RoundsTo half (single ((b + 113) * 2 ^ 23 + frac)) (b * 2 ^ 10 + cut (2 ^ 23 + frac) 13) :=
        roundsTo_cut (by omega) hfrac (by omega) le_rfl (.inr rfl)
      have hee : ((b + 113 : ℕ) - 127 + 15 : ℤ).toNat = b + 1 := by omega
      rw [hn.unique half_strictMono hround, hee]
      obtain ⟨hlo, hhi⟩ := cut_bounds (2 ^ 23 + frac) 13
      exact pack (by omega) (by omega) (by omega)
    rw [if_neg hnormal]
    by_cases hlow : (exp : ℤ) - 127 < -25
    · rw [if_pos hlow, eq_zero_of_single hn (by omega)]
      rfl
    rw [if_neg hlow]
    obtain ⟨shift, hshift⟩ : ∃ shift, shift + exp = 126 := ⟨126 - exp, by omega⟩
    have hround : RoundsTo half (single (exp * 2 ^ 23 + frac)) (0 * 2 ^ 10 + cut (2 ^ 23 + frac) shift) :=
      roundsTo_cut (by omega) hfrac (by omega) (by omega) (.inl rfl)
    have hcut : (13 + (-14 - ((exp : ℤ) - 127))).toNat = shift := by omega
    rw [hn.unique half_strictMono hround, hcut, Nat.zero_mul, Nat.zero_add]
    have hbound : cut (2 ^ 23 + frac) shift ≤ 2 ^ 10 := by
      refine (cut_bounds _ _).2.trans ?_
      have hle : 2 ^ 14 ≤ 2 ^ shift := Nat.pow_le_pow_right two_pos (by omega)
      have hdiv : (2 ^ 23 + frac) / 2 ^ shift ≤ (2 ^ 23 + frac) / 2 ^ 14 := Nat.div_le_div_left hle (by decide)
      omega
    rw [or_signBit (by omega), min_eq_left (by omega)]

/-! The values. -/

/-- The half at an index, where all past the largest are infinity. -/
def halfAt (neg : Bool) (n : ℕ) : F64 := if 0x7C00 ≤ n then .infinity neg else .finite neg (half n)

theorem half_eq {exp mant : ℕ} (hmant : mant < 2 ^ 10) : half (exp * 2 ^ 10 + mant) =
    if exp = 0 then (mant : ℚ) * 2 ^ (-24 : ℤ) else (1 + (mant : ℚ) / 1024) * 2 ^ ((exp : ℤ) - 15) := by
  cases exp with
  | zero =>
    rw [half, floatValue_of_lt (.inl rfl) (by omega), if_pos rfl]
    simp
  | succ e =>
    have hindex : (e + 1) * 2 ^ 10 + mant = e * 2 ^ 10 + (2 ^ 10 + mant) := by ring
    have hpow : (2 : ℚ) ^ ((e + 1 : ℕ) - 15 : ℤ) = 2 ^ (10 : ℤ) * 2 ^ (-24 + e : ℤ) := by
      rw [← zpow_add₀ two_ne_zero]
      congr 1
      push_cast
      ring
    rw [hindex, half, floatValue_of_lt (.inr (Nat.le_add_right _ _)) (by omega), if_neg (Nat.succ_ne_zero e), hpow]
    push_cast
    ring

theorem halfAt_min (neg : Bool) (n : ℕ) : halfAt neg n = halfAt neg (min n 0x7C00) := by
  unfold halfAt
  by_cases hn : 0x7C00 ≤ n
  · rw [min_eq_right hn, if_pos hn, if_pos le_rfl]
  · rw [min_eq_left (by omega)]

theorem f16BitsToF64_spec (neg : Bool) (n : ℕ) : f16BitsToF64 (signBit neg 15 + min n 0x7C00) = halfAt neg n := by
  have htop : min n 0x7C00 ≤ 0x7C00 := min_le_right _ _
  rw [halfAt_min]
  generalize min n 0x7C00 = h at htop
  have hsign : (signBit neg 15 + h) &&& 0x8000 = signBit neg 15 := signBit_and (i := 15) (by omega)
  have hexp : ((signBit neg 15 + h) >>> 10) &&& 0x1F = h / 2 ^ 10 := by
    rw [Nat.shiftRight_eq_div_pow, signBit_div (by decide)]
    refine (Nat.and_two_pow_sub_one_eq_mod _ 5).trans ?_
    rw [signBit_mod (by decide)]
    omega
  have hmant : (signBit neg 15 + h) &&& 0x3FF = h % 2 ^ 10 := by
    refine (Nat.and_two_pow_sub_one_eq_mod _ 10).trans ?_
    rw [signBit_mod (by decide)]
  have hheq : h / 2 ^ 10 * 2 ^ 10 + h % 2 ^ 10 = h := Nat.div_add_mod' h (2 ^ 10)
  have hlt : h % 2 ^ 10 < 2 ^ 10 := Nat.mod_lt _ (by decide)
  unfold f16BitsToF64
  simp only [hsign, hexp, hmant]
  generalize h / 2 ^ 10 = exp at hheq
  generalize h % 2 ^ 10 = mant at hheq hlt
  subst hheq
  unfold halfAt
  by_cases hinf : exp = 31
  · subst hinf
    obtain rfl : mant = 0 := by omega
    cases neg <;> rfl
  · rw [half_eq hlt, if_neg hinf, if_neg (by omega : ¬0x7C00 ≤ exp * 2 ^ 10 + mant)]
    by_cases hzero : exp = 0
    · rw [if_pos hzero, if_pos hzero]
      cases neg <;> rfl
    · rw [if_neg hzero, if_neg hzero]
      cases neg <;> rfl

theorem roundF64ViaF16_eq (x : Double) (hn : RoundsTo half (single (floatIndex 23 (-149) x.magnitude)) n) :
    roundF64ViaF16 x = halfAt x.neg n := by
  have hbits : f32ToF16Bits (asF32Bits x) = signBit x.neg 15 + min n 0x7C00 := f32ToF16Bits_spec x.neg hn
  rw [roundF64ViaF16, hbits, f16BitsToF64_spec]

end Karac.Interpreter

/-! `round_f64_via_f16` is correctly rounded unless the conversion to a single moves the double onto a tie. -/

namespace Karac.Interpreter

open Lib

variable {x : Double} {n : ℕ}

theorem magnitude_nonneg (x : Double) : 0 ≤ x.magnitude := by
  unfold Double.magnitude
  split_ifs <;> positivity

theorem top_le_iff (hn : RoundsTo half x.magnitude n) : 0x7C00 ≤ n ↔ 65520 ≤ x.magnitude := by
  constructor
  · intro htop
    by_contra hlt
    have hle : n ≤ 0x7BFF := le_of_lt_tie half_strictMono hn (tie_top ▸ not_le.mp hlt)
    omega
  · intro hle
    have htie : RoundsTo half (tie half 0x7BFF) 0x7C00 := roundsTo_tie_odd half_strictMono (by decide)
    exact htie.mono half_strictMono hn (tie_top ▸ hle)

theorem eq_zero_iff (hn : RoundsTo half x.magnitude n) : n = 0 ↔ x.magnitude ≤ 2 ^ (-25 : ℤ) := by
  rw [← tie_zero]
  constructor
  · rintro rfl
    exact hn.2.elim le_of_lt fun h => h.1.le
  · intro hle
    have htie : RoundsTo half (tie half 0) 0 := roundsTo_tie_even half_strictMono (by decide)
    exact Nat.le_zero.mp (hn.mono half_strictMono htie hle)

theorem correctlyRounded_halfAt (hn : RoundsTo half x.magnitude n) : CorrectlyRounded x (halfAt x.neg n) where
  infinity := by
    rw [← top_le_iff hn, halfAt]
    split_ifs with h <;> simp [h]
  zero := by
    rw [← eq_zero_iff hn, halfAt]
    have hzero : half 0 = 0 := by simp [half, floatValue, significand]
    split_ifs with h
    · simp
      omega
    · rw [F64.finite.injEq, ← hzero, half_strictMono.injective.eq_iff]
      exact and_iff_right rfl
  nearest hlt := by
    have hn' : n < 0x7C00 := not_le.mp fun htop => absurd ((top_le_iff hn).mp htop) (not_le.mpr hlt)
    refine ⟨n, hn', if_neg (not_le.mpr hn'), fun g _ hne => ?_⟩
    exact (hn.nearest half_strictMono g).lt_or_eq.imp id fun heq => ⟨heq, hn.even half_strictMono heq hne⟩

/-- Only one result is correctly rounded. -/
theorem min_eq_of_correctlyRounded {n' : ℕ} (h : CorrectlyRounded x (halfAt x.neg n))
    (hn' : RoundsTo half x.magnitude n') :
    min n 0x7C00 = min n' 0x7C00 := by
  by_cases hlt : x.magnitude < 65520
  · obtain ⟨g, hg, heq, hnear⟩ := h.nearest hlt
    unfold halfAt at heq
    split_ifs at heq with htop
    obtain rfl : n = g := half_strictMono.injective (F64.finite.inj heq).2
    have hround : RoundsTo half x.magnitude n := by
      have hside : ∀ g < 0x7C00, g ≠ n → |x.magnitude - half n| ≤ |x.magnitude - half g| ∧
          (|x.magnitude - half n| = |x.magnitude - half g| → Even n) := fun g hg hne =>
        ⟨(hnear g hg hne).elim le_of_lt fun h => h.1.le, fun heq => ((hnear g hg hne).resolve_left heq.not_lt).2⟩
      refine roundsTo_of_nearest half_strictMono ?_ fun m hm => hside m (by omega) (by omega)
      by_cases hlast : n = 0x7BFF
      · rw [hlast, tie_top]
        exact .inl hlt
      · exact .inr (hside (n + 1) (by omega) (by omega))
    rw [hround.unique half_strictMono hn']
  · have hinf := h.infinity.mpr (not_lt.mp hlt)
    unfold halfAt at hinf
    split_ifs at hinf with htop
    rw [min_eq_right htop, min_eq_right ((top_le_iff hn').mpr (not_lt.mp hlt))]

theorem correctlyRounded_halfAt_iff {n' : ℕ} (hn' : RoundsTo half x.magnitude n') :
    CorrectlyRounded x (halfAt x.neg n) ↔ min n 0x7C00 = min n' 0x7C00 := by
  refine ⟨fun h => min_eq_of_correctlyRounded h hn', fun heq => ?_⟩
  have hat : halfAt x.neg n = halfAt x.neg n' := by rw [halfAt_min x.neg n, heq, ← halfAt_min]
  rw [hat]
  exact correctlyRounded_halfAt hn'

/-- Narrowing is correctly rounded exactly where the conversion to a single does not make a tie. -/
theorem narrowing_correct_iff (x : Double) : CorrectlyRounded x (roundF64ViaF16 x) ↔ ¬MovesOntoTie x := by
  have hsingle : RoundsTo single x.magnitude (floatIndex 23 (-149) x.magnitude) :=
    roundsTo_floatIndex (by decide) (magnitude_nonneg x)
  obtain ⟨n, hn⟩ := exists_roundsTo half_strictMono
    (exists_lt_floatValue 10 (-24) (single (floatIndex 23 (-149) x.magnitude)))
  obtain ⟨n', hn'⟩ := exists_roundsTo half_strictMono (exists_lt_floatValue 10 (-24) x.magnitude)
  have hties : ∀ m, ∃ k, single k = tie half m := exists_tie (by decide) (by decide)
  rw [roundF64ViaF16_eq x hn, correctlyRounded_halfAt_iff hn',
    roundsTo_twice_iff half_strictMono single_strictMono hties hsingle hn hn' 0x7C00, MovesOntoTie]
  push Not
  rfl

/-- `1 + 2 ^ (-11) + 2 ^ (-40)`. -/
def aboveTie : Double := ⟨false, 1023, 2 ^ 41 + 2 ^ 12, by decide, by decide⟩

theorem aboveTie_magnitude : aboveTie.magnitude = 1 + 2 ^ (-11 : ℤ) + 2 ^ (-40 : ℤ) := by
  norm_num [aboveTie, Double.magnitude]

theorem aboveTie_single : floatIndex 23 (-149) aboveTie.magnitude = 127 * 2 ^ 23 + 2 ^ 12 := by
  have hround : RoundsTo single aboveTie.magnitude (127 * 2 ^ 23 + 2 ^ 12) := by
    rw [aboveTie_magnitude]
    refine ⟨fun m hm => .inl ?_, .inl ?_⟩
    · obtain rfl : m = 127 * 2 ^ 23 + 2 ^ 12 - 1 := by omega
      norm_num [single, tie_floatValue, significand, binade]
    · norm_num [single, tie_floatValue, significand, binade]
  exact (roundsTo_floatIndex (by decide) (magnitude_nonneg aboveTie)).unique single_strictMono hround

/-- Its single is `1 + 2 ^ (-11)`, midway between two halves, and goes to the even one below. -/
theorem aboveTie_rounds_down : ¬CorrectlyRounded aboveTie (roundF64ViaF16 aboveTie) := by
  have htie : single (127 * 2 ^ 23 + 2 ^ 12) = tie half 0x3C00 := by
    norm_num [single, half, tie_floatValue, floatValue, significand, binade]
  have hn : RoundsTo half (single (floatIndex 23 (-149) aboveTie.magnitude)) 0x3C00 := by
    rw [aboveTie_single, htie]
    exact roundsTo_tie_even half_strictMono (by decide)
  have hn' : RoundsTo half aboveTie.magnitude 0x3C01 := by
    rw [aboveTie_magnitude]
    refine ⟨fun m hm => .inl ?_, .inl ?_⟩
    · obtain rfl : m = 0x3C00 := by omega
      norm_num [half, tie_floatValue, significand, binade]
    · norm_num [half, tie_floatValue, significand, binade]
  rw [roundF64ViaF16_eq aboveTie hn]
  intro h
  exact absurd (min_eq_of_correctlyRounded h hn') (by decide)

end Karac.Interpreter
