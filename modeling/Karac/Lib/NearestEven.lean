import Mathlib

/-! Rounding to the nearest value of an increasing sequence, where a tie goes to the even index. A second rounding into
a coarser sequence gives what one would have given, unless the first moved onto a tie. -/

namespace Karac.Lib

variable {K : Type*} [Field K] [LinearOrder K] [IsStrictOrderedRing K] {v w : ℕ → K} {x y : K} {m n k : ℕ}

/-- The middle between a value and the next. -/
def tie (v : ℕ → K) (n : ℕ) : K := (v n + v (n + 1)) / 2

def RoundsTo (v : ℕ → K) (x : K) (n : ℕ) : Prop :=
  (∀ m, n = m + 1 → tie v m < x ∨ tie v m = x ∧ Even n) ∧ (x < tie v n ∨ x = tie v n ∧ Even n)

section

variable (hv : StrictMono v)
include hv

theorem lt_tie (n : ℕ) : v n < tie v n := by
  have h : v n < v (n + 1) := hv (Nat.lt_succ_self n)
  unfold tie
  linarith

theorem tie_lt (n : ℕ) : tie v n < v (n + 1) := by
  have h : v n < v (n + 1) := hv (Nat.lt_succ_self n)
  unfold tie
  linarith

theorem tie_strictMono : StrictMono (tie v) :=
  strictMono_nat_of_lt_succ fun n => (tie_lt hv n).trans (lt_tie hv (n + 1))

/-- The index does not go down. -/
theorem RoundsTo.mono (hx : RoundsTo v x m) (hy : RoundsTo v y n) (hxy : x ≤ y) : m ≤ n := by
  by_contra hlt
  obtain ⟨j, rfl⟩ : ∃ j, m = j + 1 := ⟨m - 1, by omega⟩
  have hle : tie v n ≤ tie v j := (tie_strictMono hv).monotone (by omega)
  obtain hlow | ⟨hlow, heven⟩ := hx.1 j rfl
  · obtain hup | ⟨hup, -⟩ := hy.2
    · exact absurd (hlow.trans_le (hxy.trans (hup.le.trans hle))) (lt_irrefl _)
    · exact absurd (hlow.trans_le (hxy.trans (hup.le.trans hle))) (lt_irrefl _)
  · obtain hup | ⟨hup, heven'⟩ := hy.2
    · exact absurd ((hlow.le.trans hxy).trans_lt (hup.trans_le hle)) (lt_irrefl _)
    · have heq : tie v n = tie v j := le_antisymm hle (hlow.le.trans (hxy.trans hup.le))
      have hnj : n = j := (tie_strictMono hv).injective heq
      rw [← hnj] at heven
      exact absurd heven' (Nat.even_add_one.mp heven)

theorem RoundsTo.unique (hm : RoundsTo v x m) (hn : RoundsTo v x n) : m = n :=
  le_antisymm (hm.mono hv hn le_rfl) (hn.mono hv hm le_rfl)

theorem roundsTo_self (n : ℕ) : RoundsTo v (v n) n := by
  refine ⟨fun m hm => .inl ?_, .inl (lt_tie hv n)⟩
  rw [hm]
  exact tie_lt hv m

theorem roundsTo_tie_even (h : Even n) : RoundsTo v (tie v n) n :=
  ⟨fun m hm => .inl (tie_strictMono hv (by omega)), .inr ⟨rfl, h⟩⟩

theorem roundsTo_tie_odd (h : ¬Even n) : RoundsTo v (tie v n) (n + 1) := by
  refine ⟨fun m hm => ?_, .inl (tie_strictMono hv (Nat.lt_succ_self n))⟩
  obtain rfl : n = m := by omega
  exact .inr ⟨rfl, Nat.even_add_one.mpr h⟩

/-- Between two neighbours the middle decides. -/
theorem roundsTo_between (hlo : v n ≤ x) (hhi : x < v (n + 1)) :
    RoundsTo v x (if tie v n < x ∨ tie v n = x ∧ ¬Even n then n + 1 else n) := by
  split_ifs with h
  · refine ⟨fun m hm => ?_, .inl (hhi.trans (lt_tie hv (n + 1)))⟩
    obtain rfl : n = m := by omega
    exact h.imp id fun h => ⟨h.1, Nat.even_add_one.mpr h.2⟩
  · refine ⟨fun m hm => .inl ?_, ?_⟩
    · rw [hm] at hlo
      exact (tie_lt hv m).trans_le hlo
    · rw [not_or, not_lt, not_and_not_right] at h
      exact h.1.lt_or_eq.imp id fun heq => ⟨heq, h.2 heq.symm⟩

theorem exists_roundsTo (hunbounded : ∃ n, x < v n) : ∃ n, RoundsTo v x n := by
  classical
  by_cases h0 : x < v 0
  · exact ⟨0, fun m hm => absurd hm.symm (Nat.succ_ne_zero m), .inl (h0.trans (lt_tie hv 0))⟩
  · obtain ⟨n, hn⟩ : ∃ n, Nat.find hunbounded = n + 1 := by
      refine ⟨Nat.find hunbounded - 1, ?_⟩
      have hpos : Nat.find hunbounded ≠ 0 := fun hzero => h0 (hzero ▸ Nat.find_spec hunbounded)
      omega
    have hlo : v n ≤ x := not_lt.mp (Nat.find_min hunbounded (by omega))
    have hhi : x < v (n + 1) := hn ▸ Nat.find_spec hunbounded
    exact ⟨_, roundsTo_between hv hlo hhi⟩

theorem le_of_lt_tie (h : RoundsTo v x n) (hlt : x < tie v m) : n ≤ m := by
  by_contra hle
  obtain ⟨j, rfl⟩ : ∃ j, n = j + 1 := ⟨n - 1, by omega⟩
  have hmj : tie v m ≤ tie v j := (tie_strictMono hv).monotone (by omega)
  have hj : tie v j ≤ x := (h.1 j rfl).elim le_of_lt fun heq => heq.1.le
  exact absurd (hlt.trans_le (hmj.trans hj)) (lt_irrefl _)

theorem lt_of_tie_lt (h : RoundsTo v x n) (hlt : tie v m < x) : m < n := by
  by_contra hle
  have hnm : tie v n ≤ tie v m := (tie_strictMono hv).monotone (not_lt.mp hle)
  have hn : x ≤ tie v n := h.2.elim le_of_lt fun heq => heq.1.le
  exact absurd (hlt.trans_le (hn.trans hnm)) (lt_irrefl _)

/-! No value is nearer, and one as near has an odd index. -/

omit hv in
theorem le_of_roundsTo (h : RoundsTo v x n) : x - v n ≤ v (n + 1) - x ∧ ∀ m, n = m + 1 → v n - x ≤ x - v m := by
  refine ⟨?_, fun m hm => ?_⟩
  · have hle : x ≤ tie v n := h.2.elim le_of_lt fun h => h.1.le
    unfold tie at hle
    linarith
  · have hle : tie v m ≤ x := (h.1 m hm).elim le_of_lt fun h => h.1.le
    unfold tie at hle
    rw [hm]
    linarith

theorem RoundsTo.nearest (h : RoundsTo v x n) (m : ℕ) : |x - v n| ≤ |x - v m| := by
  obtain ⟨hup, hlow⟩ := le_of_roundsTo h
  obtain hlt | rfl | hgt := lt_trichotomy m n
  · obtain ⟨j, rfl⟩ : ∃ j, n = j + 1 := ⟨n - 1, by omega⟩
    have hmj : v m ≤ v j := hv.monotone (by omega)
    have hjn : v j < v (j + 1) := hv (Nat.lt_succ_self j)
    have hj := hlow j rfl
    rw [abs_le]
    constructor
    · linarith [le_abs_self (x - v m)]
    · linarith [le_abs_self (x - v m)]
  · exact le_rfl
  · have hnm : v (n + 1) ≤ v m := hv.monotone hgt
    have hn : v n < v (n + 1) := hv (Nat.lt_succ_self n)
    rw [abs_le]
    constructor
    · linarith [neg_abs_le (x - v m)]
    · linarith [neg_abs_le (x - v m)]

theorem RoundsTo.even (h : RoundsTo v x n) (hm : |x - v n| = |x - v m|) (hne : m ≠ n) : Even n := by
  have hmid : 2 * x = v n + v m := by
    obtain heq | heq := abs_eq_abs.mp hm
    · exact absurd (hv.injective (sub_right_injective heq)) hne.symm
    · linarith
  obtain hlt | hgt := lt_or_gt_of_ne hne
  · obtain ⟨j, rfl⟩ : ∃ j, n = j + 1 := ⟨n - 1, by omega⟩
    have hmj : v m ≤ v j := hv.monotone (by omega)
    refine (h.1 j rfl).elim (fun hlow => ?_) And.right
    unfold tie at hlow
    linarith
  · have hnm : v (n + 1) ≤ v m := hv.monotone hgt
    refine h.2.elim (fun hup => ?_) And.right
    unfold tie at hup
    linarith

/-- Of the neighbours it is the nearest. -/
theorem roundsTo_of_nearest
    (hup : x < tie v n ∨ |x - v n| ≤ |x - v (n + 1)| ∧ (|x - v n| = |x - v (n + 1)| → Even n))
    (hlow : ∀ m, n = m + 1 → |x - v n| ≤ |x - v m| ∧ (|x - v n| = |x - v m| → Even n)) : RoundsTo v x n := by
  refine ⟨fun m hm => ?_, ?_⟩
  · obtain ⟨hle, heven⟩ := hlow m hm
    have hmn : v m < v n := hv (by omega)
    subst hm
    obtain hlt | heq | hgt := lt_trichotomy (tie v m) x
    · exact .inl hlt
    · refine .inr ⟨heq, heven ?_⟩
      rw [← heq, tie, abs_sub_comm]
      congr 1
      ring
    · refine absurd hle (not_le.mpr ?_)
      unfold tie at hgt
      rw [abs_lt]
      exact ⟨by linarith [neg_abs_le (x - v (m + 1))], by linarith [neg_abs_le (x - v (m + 1))]⟩
  · have hn : v n < v (n + 1) := hv (Nat.lt_succ_self n)
    obtain hlt | ⟨hle, heven⟩ := hup
    · exact .inl hlt
    obtain hlt | heq | hgt := lt_trichotomy x (tie v n)
    · exact .inl hlt
    · refine .inr ⟨heq, heven ?_⟩
      rw [heq, tie, abs_sub_comm _ (v (n + 1))]
      congr 1
      ring
    · refine absurd hle (not_le.mpr ?_)
      unfold tie at hgt
      rw [abs_lt]
      exact ⟨by linarith [le_abs_self (x - v n)], by linarith [le_abs_self (x - v n)]⟩

end

/-! Two roundings. -/

/-- The second value is a tie, and the first lies on the side of it that the tie does not go to. -/
def MovedOntoTie (v : ℕ → K) (x y : K) (m : ℕ) : Prop := y = tie v m ∧ (x < y ∧ ¬Even m ∨ y < x ∧ Even m)

variable (hv : StrictMono v) (hw : StrictMono w) (hties : ∀ n, ∃ k, w k = tie v n)
include hw hties

theorem lt_tie_of_lt (hx : RoundsTo w x k) (h : w k < tie v m) : x < tie v m := by
  obtain ⟨j, hj⟩ := hties m
  by_contra hle
  have hjk : j ≤ k := (roundsTo_self hw j).mono hw hx (hj ▸ not_lt.mp hle)
  exact absurd (hw.monotone hjk) (not_le.mpr (hj ▸ h))

theorem tie_lt_of_lt (hx : RoundsTo w x k) (h : tie v m < w k) : tie v m < x := by
  obtain ⟨j, hj⟩ := hties m
  by_contra hle
  have hkj : k ≤ j := hx.mono hw (roundsTo_self hw j) (hj ▸ not_lt.mp hle)
  exact absurd (hw.monotone hkj) (not_le.mpr (hj ▸ h))

theorem roundsTo_of_not_moved (hx : RoundsTo w x k) (hy : RoundsTo v (w k) n) (hnot : ∀ m, ¬MovedOntoTie v x (w k) m) :
    RoundsTo v x n := by
  refine ⟨fun m hm => ?_, ?_⟩
  · obtain hlt | ⟨heq, heven⟩ := hy.1 m hm
    · exact .inl (tie_lt_of_lt hw hties hx hlt)
    · have hodd : ¬Even m := by
        rw [hm] at heven
        exact Nat.even_add_one.mp heven
      obtain hlt | hsame | hgt := lt_trichotomy x (w k)
      · exact absurd ⟨heq.symm, .inl ⟨hlt, hodd⟩⟩ (hnot m)
      · exact .inr ⟨heq.trans hsame.symm, heven⟩
      · exact .inl (heq.trans_lt hgt)
  · obtain hlt | ⟨heq, heven⟩ := hy.2
    · exact .inl (lt_tie_of_lt hw hties hx hlt)
    · obtain hlt | hsame | hgt := lt_trichotomy x (w k)
      · exact .inl (hlt.trans_eq heq)
      · exact .inr ⟨hsame.trans heq, heven⟩
      · exact absurd ⟨heq, .inr ⟨hgt, heven⟩⟩ (hnot n)

include hv

/-- Up to an index that stands for all above it, two roundings give what one gives unless the first moves onto a tie
below that index. -/
theorem roundsTo_twice_iff {n' : ℕ} (hx : RoundsTo w x k) (hy : RoundsTo v (w k) n) (hn' : RoundsTo v x n') (top : ℕ) :
    min n top = min n' top ↔ ∀ m < top, ¬MovedOntoTie v x (w k) m := by
  constructor
  · rintro h m hm ⟨htie, hside⟩
    rw [htie] at hy hside
    obtain ⟨hlt, hodd⟩ | ⟨hlt, heven⟩ := hside
    · have hn : n = m + 1 := hy.unique hv (roundsTo_tie_odd hv hodd)
      have hle : n' ≤ m := le_of_lt_tie hv hn' hlt
      omega
    · have hn : n = m := hy.unique hv (roundsTo_tie_even hv heven)
      have hle : m < n' := lt_of_tie_lt hv hn' hlt
      omega
  · intro hnot
    by_cases hmoved : ∃ m, MovedOntoTie v x (w k) m
    · -- Past the top both are.
      obtain ⟨m, hm⟩ := hmoved
      have htop : top ≤ m := not_lt.mp fun hlt => hnot m hlt hm
      cases top with
      | zero => rw [Nat.min_zero, Nat.min_zero]
      | succ low =>
        have hlow : tie v low < w k := (tie_strictMono hv htop).trans_eq hm.1.symm
        have hn : low < n := lt_of_tie_lt hv hy hlow
        have hn'low : low < n' := lt_of_tie_lt hv hn' (tie_lt_of_lt hw hties hx hlow)
        rw [min_eq_right hn, min_eq_right hn'low]
    · rw [hn'.unique hv (roundsTo_of_not_moved hw hties hx hy (not_exists.mp hmoved))]

end Karac.Lib
