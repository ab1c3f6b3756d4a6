import Mathlib

/-! Positional notation, most significant digit first, in any alphabet. -/

namespace Karac.Lib

variable {α : Type*} {b n : ℕ} {value : α → ℕ} {f : Char → α}

theorem forall_mem_toDigits {P : Char → Prop} (hb : 1 < b) (h : ∀ d < b, P d.digitChar) (n : ℕ) :
    ∀ c ∈ Nat.toDigits b n, P c := by
  induction n using Nat.strong_induction_on with
  | _ n ih =>
    rw [Nat.toDigits_eq_if hb]
    split_ifs with hlt
    · simpa using h n hlt
    · intro c hc
      obtain hc | hc := List.mem_append.mp hc
      · exact ih (n / b) (Nat.div_lt_self (by omega) hb) c hc
      · rw [List.mem_singleton.mp hc]
        exact h (n % b) (Nat.mod_lt n (by omega))

/-- The number that the digits denote. -/
def readDigits (b : ℕ) (value : α → ℕ) (digits : List α) : ℕ := digits.foldl (fun n c => b * n + value c) 0

theorem readDigits_concat (digits : List α) (c : α) :
    readDigits b value (digits ++ [c]) = b * readDigits b value digits + value c := by
  rw [readDigits, List.foldl_append, List.foldl_cons, List.foldl_nil, readDigits]

theorem readDigits_toDigits (hb : 1 < b) (hvalue : ∀ d < b, value (f d.digitChar) = d) (n : ℕ) :
    readDigits b value ((Nat.toDigits b n).map f) = n := by
  induction n using Nat.strong_induction_on with
  | _ n ih =>
    rw [Nat.toDigits_eq_if hb]
    split_ifs with hlt
    · simpa [readDigits] using hvalue n hlt
    · rw [List.map_append, List.map_singleton, readDigits_concat, ih _ (Nat.div_lt_self (by omega) hb),
        hvalue _ (Nat.mod_lt n (by omega))]
      exact Nat.div_add_mod n b

/-- Leading zeros do not count. -/
theorem readDigits_zeros {zero : α} (hzero : value zero = 0) (k : ℕ) (digits : List α) :
    readDigits b value (List.replicate k zero ++ digits) = readDigits b value digits := by
  have hfold : (List.replicate k zero).foldl (fun n c => b * n + value c) 0 = 0 := by
    induction k with
    | zero => rfl
    | succ k ih => rw [List.replicate_succ, List.foldl_cons, hzero, Nat.mul_zero, Nat.zero_add, ih]
  rw [readDigits, List.foldl_append, hfold, readDigits]

end Karac.Lib

/-! Numbers of a fixed width in bytes, the most significant byte first. -/

namespace Karac.Lib

/-- The last `k` bytes of `n`. -/
def toBeBytes : ℕ → ℕ → List UInt8
  | 0, _ => []
  | k + 1, n => toBeBytes k (n / 256) ++ [UInt8.ofNat n]

def fromBeBytes (bs : List UInt8) : ℕ := bs.foldl (fun n b => n * 256 + b.toNat) 0

@[simp] theorem length_toBeBytes (k n : ℕ) : (toBeBytes k n).length = k := by
  induction k generalizing n with
  | zero => rfl
  | succ k ih => simp [toBeBytes, ih]

theorem fromBeBytes_snoc (bs : List UInt8) (b : UInt8) : fromBeBytes (bs ++ [b]) = fromBeBytes bs * 256 + b.toNat := by
  simp [fromBeBytes]

theorem fromBeBytes_toBeBytes (k n : ℕ) : fromBeBytes (toBeBytes k n) = n % 256 ^ k := by
  induction k generalizing n with
  | zero => simp [toBeBytes, fromBeBytes, Nat.mod_one]
  | succ k ih =>
    rw [toBeBytes, fromBeBytes_snoc, ih, UInt8.toNat_ofNat', pow_succ' 256 k, Nat.mod_mul]
    omega

theorem toBeBytes_fromBeBytes (bs : List UInt8) : toBeBytes bs.length (fromBeBytes bs) = bs := by
  induction bs using List.reverseRecOn with
  | nil => rfl
  | append_singleton bs b ih =>
    have hb := b.toNat_lt
    have hdiv : (fromBeBytes bs * 256 + b.toNat) / 256 = fromBeBytes bs := by omega
    have hlast : UInt8.ofNat (fromBeBytes bs * 256 + b.toNat) = b := by
      rw [← UInt8.toNat_inj, UInt8.toNat_ofNat']
      omega
    rw [fromBeBytes_snoc, List.length_append, List.length_singleton, toBeBytes, hdiv, ih, hlast]

theorem fromBeBytes_lt (bs : List UInt8) : fromBeBytes bs < 256 ^ bs.length := by
  rw [← toBeBytes_fromBeBytes bs, fromBeBytes_toBeBytes]
  simpa using Nat.mod_lt _ (Nat.pow_pos (by omega))

/-- The top bit of the first byte is the top bit of the number. -/
theorem fromBeBytes_cons (b : UInt8) (bs : List UInt8) :
    fromBeBytes (b :: bs) = b.toNat * 256 ^ bs.length + fromBeBytes bs := by
  induction bs using List.reverseRecOn with
  | nil => simp [fromBeBytes]
  | append_singleton bs c ih =>
    rw [← List.cons_append, fromBeBytes_snoc, ih, fromBeBytes_snoc, List.length_append, List.length_singleton, pow_succ]
    ring

end Karac.Lib

/-! Words of a fixed width in bytes, the least significant byte first, and a list cut into chunks of eight. -/

namespace Karac.Lib

variable {α : Type*} {w : ℕ}

/-- The low `n` bytes of `v`. -/
def leBytes (n : ℕ) (v : BitVec w) : List (BitVec 8) := (List.range n).map fun i => v.extractLsb' (8 * i) 8

def ofLeBytes (w : ℕ) : List (BitVec 8) → BitVec w
  | [] => 0
  | b :: bs => b.setWidth w ||| ofLeBytes w bs <<< 8

@[simp] theorem length_leBytes (n : ℕ) (v : BitVec w) : (leBytes n v).length = n := by simp [leBytes]

theorem take_leBytes {n m : ℕ} (h : n ≤ m) (v : BitVec w) : (leBytes m v).take n = leBytes n v := by
  rw [leBytes, ← List.map_take, List.take_range, Nat.min_eq_left h, leBytes]

theorem leBytes_succ (n : ℕ) (v : BitVec w) : leBytes (n + 1) v = v.extractLsb' 0 8 :: leBytes n (v >>> 8) := by
  rw [leBytes, List.range_succ_eq_map, List.map_cons, List.map_map, leBytes]
  congr 1
  refine List.map_congr_left fun i _ => ?_
  ext j hj
  simp [Nat.mul_add, Nat.add_comm, Nat.add_left_comm]

/-- The low bytes of a word are the word with its high bits masked off. -/
theorem getLsbD_ofLeBytes_leBytes (n : ℕ) (v : BitVec w) (j : ℕ) :
    (ofLeBytes w (leBytes n v)).getLsbD j = (decide (j < 8 * n) && v.getLsbD j) := by
  induction n generalizing v j with
  | zero => simp [leBytes, ofLeBytes]
  | succ n ih =>
    rw [leBytes_succ, ofLeBytes, BitVec.getLsbD_or, BitVec.getLsbD_shiftLeft, ih, BitVec.getLsbD_setWidth,
      BitVec.getLsbD_extractLsb', BitVec.getLsbD_ushiftRight]
    by_cases hw : j < w
    · by_cases hj : j < 8
      · simp [hw, hj, show j < 8 * (n + 1) by omega]
      · have hrest : j - 8 < 8 * n ↔ j < 8 * (n + 1) := by omega
        have hback : 8 + (j - 8) = j := by omega
        simp [hw, hj, hrest, hback]
    · have hhigh : v.getLsbD j = false := BitVec.getLsbD_of_ge v j (by omega)
      simp [hw, hhigh]

theorem ofLeBytes_leBytes {n : ℕ} (h : w ≤ 8 * n) (v : BitVec w) : ofLeBytes w (leBytes n v) = v := by
  refine BitVec.eq_of_getLsbD_eq fun j hj => ?_
  rw [getLsbD_ofLeBytes_leBytes]
  simp [show j < 8 * n by omega]

theorem getLsbD_mask {k : ℕ} (h : k < w) (j : ℕ) : (1#w <<< k - 1#w).getLsbD j = decide (j < k) := by
  have hlt : 2 ^ k < 2 ^ w := Nat.pow_lt_pow_right (by omega) h
  have hpos : 0 < 2 ^ k := Nat.pow_pos (by omega)
  have hone : (1#w).toNat = 1 := BitVec.toNat_ofNat 1 w ▸ Nat.mod_eq_of_lt (by omega)
  have hshift : (1#w <<< k).toNat = 2 ^ k := by
    rw [BitVec.toNat_shiftLeft, hone, Nat.one_shiftLeft, Nat.mod_eq_of_lt hlt]
  have hmask : (1#w <<< k - 1#w).toNat = 2 ^ k - 1 := by
    rw [BitVec.toNat_sub_of_le (BitVec.le_def.mpr (by omega)), hshift, hone]
  rw [← BitVec.testBit_toNat, hmask, Nat.testBit_two_pow_sub_one]

theorem ofLeBytes_leBytes_mask {n : ℕ} (h : 8 * n < w) (v : BitVec w) :
    ofLeBytes w (leBytes n v) = v &&& (1#w <<< (8 * n) - 1#w) := by
  refine BitVec.eq_of_getLsbD_eq fun j _ => ?_
  rw [getLsbD_ofLeBytes_leBytes, BitVec.getLsbD_and, getLsbD_mask h, Bool.and_comm]

/-- Or-ing each byte in at its own place is reading the bytes as a word. -/
theorem foldl_or_bytes (bs : List (BitVec 8)) (k : ℕ) (acc : BitVec w) :
    (bs.zipIdx k).foldl (fun (last : BitVec w) (b : BitVec 8 × ℕ) => last ||| b.1.setWidth w <<< (8 * b.2)) acc =
      acc ||| ofLeBytes w bs <<< (8 * k) := by
  induction bs generalizing k acc with
  | nil => simp [ofLeBytes]
  | cons b bs ih =>
    rw [List.zipIdx_cons, List.foldl_cons, ih, ofLeBytes, BitVec.shiftLeft_or_distrib, ← BitVec.shiftLeft_add,
      BitVec.or_assoc, Nat.mul_add, Nat.add_comm]

/-- `as_chunks::<8>`: the whole chunks, and what is left after them. -/
def asChunks : List α → List (List α) × List α
  | b0 :: b1 :: b2 :: b3 :: b4 :: b5 :: b6 :: b7 :: rest =>
    ([b0, b1, b2, b3, b4, b5, b6, b7] :: (asChunks rest).1, (asChunks rest).2)
  | rem => ([], rem)

theorem asChunks_short {bs : List α} (h : bs.length < 8) : asChunks bs = ([], bs) := by
  fun_cases asChunks bs with
  | case1 => simp [Nat.add_assoc] at h
  | case2 => rfl

theorem asChunks_eight {bs : List α} (h : bs.length = 8) : asChunks bs = ([bs], []) := by
  obtain ⟨b0, b1, b2, b3, b4, b5, b6, b7, rfl⟩ : ∃ b0 b1 b2 b3 b4 b5 b6 b7, bs = [b0, b1, b2, b3, b4, b5, b6, b7] := by
    obtain _ | ⟨b0, _ | ⟨b1, _ | ⟨b2, _ | ⟨b3, _ | ⟨b4, _ | ⟨b5, _ | ⟨b6, _ | ⟨b7, rest⟩⟩⟩⟩⟩⟩⟩⟩ := bs <;> simp_all
  rfl

end Karac.Lib
