import Karac.Lib.Probing
import Karac.Map.Table

/-! The eight-lane scan answers like the plain walk that looks at one control byte after the other and
stops at the first empty one, for every status array of a power-of-two capacity. -/

namespace Karac.Map

open Karac.Lib

/-! Lanes of the masks. -/

theorem lane_hi {i : ℕ} (hi' : i < 8) : lane i hi = 0x80 := by
  interval_cases i <;> decide

/-- `zero_lanes` flags exactly the zero bytes. -/
theorem lane_zeroLanes (x : Word) {i : ℕ} (hi' : i < 8) :
    lane i (zeroLanes x) = if lane i x = 0 then 0x80 else 0 := by
  have hnot : ∀ j < 8, lane j (~~~hi) = 0x7f := by
    intro j hj
    rw [lane_not (by omega), lane_hi hj]
    decide
  have hbyte : ∀ b : Byte, (b &&& 0x7f).toNat + (0x7f : Byte).toNat < 256 := by
    intro b
    have : (b &&& 0x7f).toNat ≤ 0x7f := by
      rw [BitVec.toNat_and]
      exact Nat.and_le_right
    have h7f : (0x7f : Byte).toNat = 0x7f := rfl
    omega
  have hadd : lane i ((x &&& ~~~hi) + ~~~hi) = (lane i x &&& 0x7f) + 0x7f := by
    rw [lane_add (by omega) fun j hj => ?_, lane_and, hnot i hi']
    rw [lane_and, hnot j (by omega)]
    exact hbyte _
  rw [zeroLanes, lane_and, lane_not (by omega), lane_or, hadd, lane_hi hi']
  generalize lane i x = b
  revert b
  decide

theorem laneMask_zeroLanes (x : Word) : LaneMask (zeroLanes x) := by
  intro i
  by_cases hi' : i < 8
  · rw [lane_zeroLanes x hi']
    split_ifs
    · exact Or.inr rfl
    · exact Or.inl rfl
  · exact Or.inl (lane_of_ge (by omega) _)

theorem lane_broadcast (b : Byte) {i : ℕ} (hi' : i < 8) : lane i (lo * b.setWidth 64) = b := by
  interval_cases i <;> revert b <;> decide +kernel

theorem lane_lanesEq (g : Word) (b : Byte) {i : ℕ} (hi' : i < 8) :
    lane i (lanesEq g b) = if lane i g = b then 0x80 else 0 := by
  rw [lanesEq, lane_zeroLanes _ hi', lane_xor, lane_broadcast b hi']
  have : (lane i g ^^^ b = 0) ↔ lane i g = b := BitVec.xor_eq_zero_iff
  simp only [this]

theorem laneMask_lanesEq (g : Word) (b : Byte) : LaneMask (lanesEq g b) := laneMask_zeroLanes _

theorem lane_groupAt (status : ℕ → Byte) (slot : ℕ) {i : ℕ} (hi' : i < 8) :
    lane i (groupAt status slot) = status (slot + i) := by
  unfold groupAt
  interval_cases i <;> simp

/-- The lowest set lane. -/
theorem firstLane_spec {m : Word} (h : LaneMask m) :
    firstLane m ≤ 8 ∧ (∀ j < firstLane m, lane j m = 0) ∧ (m ≠ 0 → firstLane m < 8 ∧ lane (firstLane m) m ≠ 0) := by
  unfold firstLane
  split_ifs with hm
  · exact ⟨le_rfl, fun j _ => by rw [hm, lane_zero], fun hne => absurd hm hne⟩
  · obtain ⟨hlane, hlow⟩ := ctz_lane h hm
    have hlt : m.ctz.toNat / 8 < 8 := by
      by_contra hge
      exact hlane (lane_of_ge (by omega) m)
    exact ⟨hlt.le, hlow, fun _ => ⟨hlt, hlane⟩⟩

theorem firstLane_clear {m : Word} (h : LaneMask m) (hm : m ≠ 0) (i : ℕ) :
    lane i (m &&& (m - 1)) = if i = firstLane m then 0 else lane i m := by
  rw [lane_clear_lowest h hm, firstLane, if_neg hm]

/-! The match loop. -/

section MatchLanes

variable {eq : ℕ → Bool} {slot stop : ℕ}

/-- What is returned is the first lane that compares equal. -/
theorem matchLanes_some {m : Word} {s : ℕ} (hm : LaneMask m) (h : matchLanes eq slot stop m = some s) :
    ∃ i < stop, i < 8 ∧ s = slot + i ∧ lane i m ≠ 0 ∧ eq (slot + i) = true ∧
      ∀ j < i, lane j m ≠ 0 → eq (slot + j) = false := by
  induction m using matchLanes.induct eq slot stop with
  | case1 m hne _ hstop =>
    rw [matchLanes, dif_pos hne, if_pos hstop] at h
    exact absurd h (by simp)
  | case2 m hne lane' hstop heq =>
    obtain ⟨hle, hlow, hfirst⟩ := firstLane_spec hm
    rw [matchLanes, dif_pos hne, if_neg hstop, if_pos heq] at h
    obtain rfl := Option.some.inj h
    refine ⟨firstLane m, by omega, (hfirst hne).1, rfl, (hfirst hne).2, heq, fun j hj hlane => ?_⟩
    exact absurd (hlow j hj) hlane
  | case3 m hne lane' hstop heq ih =>
    rw [matchLanes, dif_pos hne, if_neg hstop, if_neg heq] at h
    obtain ⟨i, hi, hi8, rfl, hlane, heqi, hbefore⟩ := ih (hm.clear_lowest hne) h
    have hkeep := firstLane_clear hm hne
    rw [hkeep] at hlane
    split_ifs at hlane with hif
    · exact absurd rfl hlane
    · refine ⟨i, hi, hi8, rfl, hlane, heqi, fun j hj hlanej => ?_⟩
      by_cases hjf : j = firstLane m
      · rw [hjf]
        simpa using heq
      · exact hbefore j hj (by rwa [hkeep, if_neg hjf])
  | case4 m hne =>
    rw [matchLanes, dif_neg hne] at h
    exact absurd h (by simp)

theorem matchLanes_none {m : Word} (hm : LaneMask m) (h : matchLanes eq slot stop m = none) :
    ∀ i < stop, lane i m ≠ 0 → eq (slot + i) = false := by
  induction m using matchLanes.induct eq slot stop with
  | case1 m hne lane' hstop =>
    obtain ⟨hle, hlow, hfirst⟩ := firstLane_spec hm
    exact fun i hi hlane => absurd (hlow i (by omega)) hlane
  | case2 m hne lane' hstop heq =>
    rw [matchLanes, dif_pos hne, if_neg hstop, if_pos heq] at h
    exact absurd h (by simp)
  | case3 m hne lane' hstop heq ih =>
    rw [matchLanes, dif_pos hne, if_neg hstop, if_neg heq] at h
    intro i hi hlane
    by_cases hif : i = firstLane m
    · rw [hif]
      simpa using heq
    · exact ih (hm.clear_lowest hne) h i hi (by rwa [firstLane_clear hm hne, if_neg hif])
  | case4 m hne =>
    intro i _ hlane
    rw [not_not.mp hne, lane_zero] at hlane
    exact absurd rfl hlane

end MatchLanes

/-! One group. -/

def stopAt (status : ℕ → Byte) (s : ℕ) : Bool := decide (status s = bucketEmpty)
def reuseAt (status : ℕ → Byte) (s : ℕ) : Bool := decide (status s = bucketTombstone)
def hitAt (status : ℕ → Byte) (ctrl : Byte) (eq : ℕ → Bool) (s : ℕ) : Bool := decide (status s = ctrl) && eq s

section Group

variable {status : ℕ → Byte} {slot : ℕ}

/-- The first lane that holds a byte, or eight. -/
theorem firstLane_lanesEq (b : Byte) :
    firstLane (lanesEq (groupAt status slot) b) ≤ 8 ∧
    (∀ j < firstLane (lanesEq (groupAt status slot) b), status (slot + j) ≠ b) ∧
    (firstLane (lanesEq (groupAt status slot) b) < 8 →
      status (slot + firstLane (lanesEq (groupAt status slot) b)) = b) := by
  obtain ⟨hle, hlow, hfirst⟩ := firstLane_spec (laneMask_lanesEq (groupAt status slot) b)
  have hlane : ∀ j < 8, lane j (lanesEq (groupAt status slot) b) ≠ 0 ↔ status (slot + j) = b := by
    intro j hj
    rw [lane_lanesEq _ b hj, lane_groupAt status slot hj]
    split_ifs with h
    · simp [h]
    · simp [h]
  refine ⟨hle, fun j hj => ?_, fun hlt => ?_⟩
  · rw [Ne, ← hlane j (by omega), not_not]
    exact hlow j hj
  · refine (hlane _ hlt).mp (hfirst fun hzero => ?_).2
    rw [hzero] at hlt
    simp [firstLane, group] at hlt

theorem zeroLanes_eq_lanesEq (g : Word) : zeroLanes g = lanesEq g bucketEmpty := by
  simp [lanesEq, bucketEmpty]

theorem zeroLanes_ne_zero_iff (g : Word) : zeroLanes g ≠ 0 ↔ firstLane (zeroLanes g) < 8 := by
  refine ⟨fun h => ((firstLane_spec (laneMask_zeroLanes g)).2.2 h).1, fun h hz => ?_⟩
  rw [hz] at h
  simp [firstLane, group] at h

/-- What the match loop of a group says about its slots. -/
theorem matchLanes_group {ctrl : Byte} {eq : ℕ → Bool} {stop : ℕ} :
    (∀ s, matchLanes eq slot stop (lanesEq (groupAt status slot) ctrl) = some s →
      ∃ i < stop, i < 8 ∧ s = slot + i ∧ hitAt status ctrl eq (slot + i) = true ∧
        ∀ j < i, hitAt status ctrl eq (slot + j) = false) ∧
    (matchLanes eq slot stop (lanesEq (groupAt status slot) ctrl) = none →
      ∀ i < stop, i < 8 → hitAt status ctrl eq (slot + i) = false) := by
  have hmask := laneMask_lanesEq (groupAt status slot) ctrl
  have hlane : ∀ j < 8, lane j (lanesEq (groupAt status slot) ctrl) ≠ 0 ↔ status (slot + j) = ctrl := by
    intro j hj
    rw [lane_lanesEq _ ctrl hj, lane_groupAt status slot hj]
    split_ifs with h
    · simp [h]
    · simp [h]
  refine ⟨fun s hs => ?_, fun hnone i hi hi8 => ?_⟩
  · obtain ⟨i, hi, hi8, rfl, hl, heq, hbefore⟩ := matchLanes_some hmask hs
    refine ⟨i, hi, hi8, rfl, ?_, fun j hj => ?_⟩
    · simp [hitAt, (hlane i hi8).mp hl, heq]
    · by_cases hst : status (slot + j) = ctrl
      · simp [hitAt, hbefore j hj ((hlane j (by omega)).mpr hst)]
      · simp [hitAt, hst]
  · by_cases hst : status (slot + i) = ctrl
    · have := matchLanes_none hmask hnone i hi ((hlane i hi8).mpr hst)
      simp [hitAt, this]
    · simp [hitAt, hst]

end Group

/-! The probe loops. -/

/-- The capacity is a power of two that holds a group. -/
def GroupedCapacity (cap : ℕ) : Prop := ∃ e, 4 ≤ e ∧ cap = 2 ^ e

theorem GroupedCapacity.le {cap : ℕ} (h : GroupedCapacity cap) : 16 ≤ cap := by
  obtain ⟨e, he, rfl⟩ := h
  calc 16 = 2 ^ 4 := by norm_num
    _ ≤ 2 ^ e := Nat.pow_le_pow_right (by norm_num) he

theorem GroupedCapacity.and_mask {cap : ℕ} (h : GroupedCapacity cap) (x : ℕ) :
    x &&& (cap - 1) = x % cap := by
  obtain ⟨e, -, rfl⟩ := h
  exact Nat.and_two_pow_sub_one_eq_mod x e

theorem GroupedCapacity.double {cap : ℕ} (h : GroupedCapacity cap) (e : ℕ) : GroupedCapacity (cap * 2 ^ e) := by
  obtain ⟨d, hd, rfl⟩ := h
  exact ⟨d + e, by omega, (pow_add 2 d e).symm⟩

namespace KaracMap

variable {K V : Type} {m : KaracMap K V} {ctrl : Byte} {eq : ℕ → Bool} {home : ℕ}

/-- The walk goes on at the first `k` slots from `slot`. -/
def PassesUpTo (m : KaracMap K V) (ctrl : Byte) (eq : ℕ → Bool) (slot k : ℕ) : Prop :=
  ∀ i < k, Passes (stopAt m.status) (hitAt m.status ctrl eq) (probe m.capacity slot i)

theorem PassesUpTo.add {scanned k : ℕ} (h : PassesUpTo m ctrl eq home scanned)
    (h' : PassesUpTo m ctrl eq (probe m.capacity home scanned) k) :
    PassesUpTo m ctrl eq home (scanned + k) := by
  intro i hi
  by_cases his : i < scanned
  · exact h i his
  · have := h' (i - scanned) (by omega)
    rwa [probe_probe, show scanned + (i - scanned) = i by omega] at this

/-- A slot that ends the walk is not one that was passed before. -/
theorem PassesUpTo.fresh {scanned i : ℕ} (hpass : PassesUpTo m ctrl eq home scanned) (h8 : 8 ≤ m.capacity)
    (hi : i < 8) (hno : ¬ Passes (stopAt m.status) (hitAt m.status ctrl eq)
      (probe m.capacity home (scanned + i))) : scanned + i < m.capacity := by
  by_contra hge
  refine hno ?_
  rw [show scanned + i = (scanned + i - m.capacity) + m.capacity by omega, probe_add_cap]
  exact hpass _ (by omega)

/-- What a group of eight says about the walk through its slots. -/
inductive GroupOutcome (m : KaracMap K V) (ctrl : Byte) (eq : ℕ → Bool) (slot : ℕ) : Prop
  | hit (i : ℕ) (hi : i < 8)
      (hmatch : matchLanes eq slot (firstLane (zeroLanes (groupAt m.status slot)))
        (lanesEq (groupAt m.status slot) ctrl) = some (slot + i))
      (hpass : PassesUpTo m ctrl eq slot i) (hstop : stopAt m.status (slot + i) = false)
      (hhit : hitAt m.status ctrl eq (slot + i) = true)
  | blank (stop : ℕ) (hi : stop < 8) (hfirst : firstLane (zeroLanes (groupAt m.status slot)) = stop)
      (hempty : zeroLanes (groupAt m.status slot) ≠ 0)
      (hmatch : matchLanes eq slot stop (lanesEq (groupAt m.status slot) ctrl) = none)
      (hpass : PassesUpTo m ctrl eq slot stop) (hstop : stopAt m.status (slot + stop) = true)
  | through (hfirst : firstLane (zeroLanes (groupAt m.status slot)) = 8)
      (hempty : zeroLanes (groupAt m.status slot) = 0)
      (hmatch : matchLanes eq slot 8 (lanesEq (groupAt m.status slot) ctrl) = none)
      (hpass : PassesUpTo m ctrl eq slot 8)

theorem group_outcome {slot : ℕ} (hfit : slot + 8 ≤ m.capacity) : GroupOutcome m ctrl eq slot := by
  have hprobe : ∀ i < 8, probe m.capacity slot i = slot + i := fun i hi => probe_eq_add (by omega)
  obtain ⟨hle, hbefore, hblank⟩ := @firstLane_lanesEq m.status slot bucketEmpty
  rw [← zeroLanes_eq_lanesEq] at hle hbefore hblank
  obtain ⟨hsome, hnone⟩ := @matchLanes_group m.status slot ctrl eq
    (firstLane (zeroLanes (groupAt m.status slot)))
  have hnostop : ∀ j < firstLane (zeroLanes (groupAt m.status slot)), stopAt m.status (slot + j) = false :=
    fun j hj => by simpa [stopAt] using hbefore j hj
  cases hmatch : matchLanes eq slot (firstLane (zeroLanes (groupAt m.status slot)))
      (lanesEq (groupAt m.status slot) ctrl) with
  | some s =>
    obtain ⟨i, hi, hi8, rfl, hhit, hmiss⟩ := hsome s hmatch
    refine GroupOutcome.hit i hi8 hmatch (fun j hj => ?_) (hnostop i hi) hhit
    rw [hprobe j (by omega)]
    exact ⟨hnostop j (by omega), hmiss j hj⟩
  | none =>
    have hpass : PassesUpTo m ctrl eq slot (firstLane (zeroLanes (groupAt m.status slot))) := by
      intro j hj
      rw [hprobe j (by omega)]
      exact ⟨hnostop j hj, hnone hmatch j hj (by omega)⟩
    by_cases hz : zeroLanes (groupAt m.status slot) = 0
    · have h8 : firstLane (zeroLanes (groupAt m.status slot)) = 8 := by
        rw [firstLane, if_pos hz]
        rfl
      rw [h8] at hmatch hpass
      exact GroupOutcome.through h8 hz hmatch hpass
    · have hlt := (zeroLanes_ne_zero_iff _).mp hz
      exact GroupOutcome.blank _ hlt rfl hz hmatch hpass (by simpa [stopAt] using hblank hlt)

/-- The first tombstone of a group, as the walk finds it. -/
theorem firstReuse_group {slot k : ℕ} (hk : k ≤ 8) (hfit : slot + 8 ≤ m.capacity) :
    firstReuse m.capacity (reuseAt m.status) slot k =
      if firstLane (lanesEq (groupAt m.status slot) bucketTombstone) < k then
        some (slot + firstLane (lanesEq (groupAt m.status slot) bucketTombstone)) else none := by
  have hprobe : ∀ i < 8, probe m.capacity slot i = slot + i := fun i hi => probe_eq_add (by omega)
  obtain ⟨hle, hbefore, hat⟩ := @firstLane_lanesEq m.status slot bucketTombstone
  generalize firstLane (lanesEq (groupAt m.status slot) bucketTombstone) = t at *
  split_ifs with ht
  · rw [← hprobe t (by omega)]
    refine firstReuse_eq_some ht ?_ fun i hi => ?_
    · rw [hprobe t (by omega)]
      exact decide_eq_true (hat (by omega))
    · rw [hprobe i (by omega)]
      exact decide_eq_false (hbefore i hi)
  · refine firstReuse_eq_none.mpr fun i hi => ?_
    rw [hprobe i (by omega)]
    exact decide_eq_false (hbefore i (by omega))

section Loops

variable (hcap : GroupedCapacity m.capacity) {slot scanned fuel : ℕ}
  (hslot : slot = probe m.capacity home scanned) (hpass : PassesUpTo m ctrl eq home scanned)
  (hfuel : m.capacity ≤ scanned + fuel)
include hcap hslot hpass hfuel

theorem lookupLoop_eq_walk : lookupLoop m ctrl eq fuel slot scanned =
    walk m.capacity (stopAt m.status) (hitAt m.status ctrl eq) (m.capacity - scanned) slot := by
  have h16 := hcap.le
  have hlt : slot < m.capacity := by rw [hslot]; exact probe_lt (by omega) _ _
  induction fuel generalizing scanned slot with
  | zero => rw [show m.capacity - scanned = 0 by omega, walk, lookupLoop]
  | succ fuel ih =>
    by_cases hscan : scanned < m.capacity
    swap
    · rw [show m.capacity - scanned = 0 by omega, walk, lookupLoop, if_neg hscan]
    have hmask : ∀ x, x &&& m.mask = x % m.capacity := hcap.and_mask
    by_cases hend : slot + 8 > m.capacity
    · simp only [lookupLoop, if_pos hscan, show group = 8 from rfl, if_pos hend, hmask]
      rw [show m.capacity - scanned = (m.capacity - (scanned + 1)) + 1 by omega, walk]
      by_cases hs : m.status slot = bucketEmpty
      · rw [if_pos hs, stopAt, decide_eq_true hs, if_pos rfl]
      have hstop : stopAt m.status slot = false := decide_eq_false hs
      simp only [if_neg hs, hstop, Bool.false_eq_true, if_false]
      by_cases hh : m.status slot = ctrl ∧ eq slot = true
      · rw [if_pos hh, if_pos (by simpa [hitAt] using hh)]
      have hhit : hitAt m.status ctrl eq slot = false := by simpa [hitAt] using hh
      simp only [if_neg hh, hhit, Bool.false_eq_true, if_false]
      refine ih (by rw [hslot, probe_succ]) (hpass.add fun i hi => ?_) (by omega) (Nat.mod_lt _ (by omega))
      obtain rfl : i = 0 := by omega
      rw [← hslot, probe_zero hlt]
      exact ⟨hstop, hhit⟩
    · have hfit : slot + 8 ≤ m.capacity := by omega
      have hprobe : ∀ i < 8, probe m.capacity slot i = slot + i := fun i hi => probe_eq_add (by omega)
      have hprobe' : ∀ i < 8, probe m.capacity home (scanned + i) = slot + i := fun i hi => by
        rw [← probe_probe, ← hslot, hprobe i hi]
      simp only [lookupLoop, if_pos hscan, show group = 8 from rfl, if_neg hend, hmask]
      rcases @group_outcome K V m ctrl eq slot hfit with
        ⟨i, hi, hmatch, hbefore, hstop, hhit⟩ | ⟨stop, hi, hfirst, hempty, hmatch, hbefore, hstop⟩ |
        ⟨hfirst, hempty, hmatch, hbefore⟩
      · have hfresh := hpass.fresh (by omega) hi fun hno => by
          rw [hprobe' i hi, Passes, hhit] at hno
          exact absurd hno.2 (by simp)
        rw [hmatch, Option.some_or, ← hprobe i hi]
        exact (walk_hit hlt (by omega) hbefore (by rwa [hprobe i hi]) (by rwa [hprobe i hi])).symm
      · have hfresh := hpass.fresh (by omega) hi fun hno => by
          rw [hprobe' stop hi, Passes, hstop] at hno
          exact absurd hno.1 (by simp)
        rw [hfirst, hmatch, Option.none_or, if_pos hempty]
        exact (walk_stop hlt (by omega) hbefore (by rwa [hprobe stop hi])).symm
      · rw [hfirst, hmatch, Option.none_or, if_neg (not_not.mpr hempty)]
        have hrec := @ih ((slot + 8) % m.capacity) (scanned + 8) (by rw [hslot, probe_add])
          (hpass.add (by rwa [← hslot])) (by omega) (Nat.mod_lt _ (by omega))
        rw [hrec]
        by_cases h8 : 8 ≤ m.capacity - scanned
        · rw [walk_skip hlt h8 hbefore, show m.capacity - scanned - 8 = m.capacity - (scanned + 8) by omega,
            probe]
        · rw [show m.capacity - (scanned + 8) = 0 by omega, walk]
          exact (walk_none hlt fun i hi => hbefore i (by omega)).symm

theorem insertLoop_eq_walk (hctrl : ctrl ≠ bucketTombstone) {after : Option ℕ → ℕ × Bool}
    {t : Option ℕ}
    (ht : t = none → ∀ i < scanned, reuseAt m.status (probe m.capacity home i) = false) :
    insertLoop m ctrl eq after fuel slot scanned t =
      insertWalk m.capacity (stopAt m.status) (reuseAt m.status) (hitAt m.status ctrl eq) after
        (m.capacity - scanned) slot t := by
  have h16 := hcap.le
  have hlt : slot < m.capacity := by rw [hslot]; exact probe_lt (by omega) _ _
  induction fuel generalizing scanned slot t with
  | zero => rw [show m.capacity - scanned = 0 by omega, insertWalk, insertLoop]
  | succ fuel ih =>
    by_cases hscan : scanned < m.capacity
    swap
    · rw [show m.capacity - scanned = 0 by omega, insertWalk, insertLoop, if_neg hscan]
    have hmask : ∀ x, x &&& m.mask = x % m.capacity := hcap.and_mask
    by_cases hend : slot + 8 > m.capacity
    · simp only [insertLoop, if_pos hscan, show group = 8 from rfl, if_pos hend, hmask]
      rw [show m.capacity - scanned = (m.capacity - (scanned + 1)) + 1 by omega, insertWalk]
      by_cases hs : m.status slot = bucketEmpty
      · rw [if_pos hs, stopAt, decide_eq_true hs, if_pos rfl]
      have hstop : stopAt m.status slot = false := decide_eq_false hs
      simp only [if_neg hs, hstop, Bool.false_eq_true, if_false]
      by_cases htomb : m.status slot = bucketTombstone
      · have hreuse : reuseAt m.status slot = true := decide_eq_true htomb
        have hhit : hitAt m.status ctrl eq slot = false := by
          simp [hitAt, htomb, Ne.symm hctrl]
        simp only [if_pos htomb, hreuse, if_true]
        refine ih (by rw [hslot, probe_succ]) (hpass.add fun i hi => ?_) (by omega) (fun hnone => ?_)
          (Nat.mod_lt _ (by omega))
        · obtain rfl : i = 0 := by omega
          rw [← hslot, probe_zero hlt]
          exact ⟨hstop, hhit⟩
        · cases t <;> simp at hnone
      have hreuse : reuseAt m.status slot = false := decide_eq_false htomb
      simp only [if_neg htomb, hreuse, Bool.false_eq_true, if_false]
      by_cases hh : m.status slot = ctrl ∧ eq slot = true
      · rw [if_pos hh, if_pos (by simpa [hitAt] using hh)]
      have hhit : hitAt m.status ctrl eq slot = false := by simpa [hitAt] using hh
      simp only [if_neg hh, hhit, Bool.false_eq_true, if_false]
      refine ih (by rw [hslot, probe_succ]) (hpass.add fun i hi => ?_) (by omega) (fun hnone i hi => ?_)
        (Nat.mod_lt _ (by omega))
      · obtain rfl : i = 0 := by omega
        rw [← hslot, probe_zero hlt]
        exact ⟨hstop, hhit⟩
      · by_cases his : i = scanned
        · rw [his, ← hslot]
          exact hreuse
        · exact ht hnone i (by omega)
    · have hfit : slot + 8 ≤ m.capacity := by omega
      have hprobe : ∀ i < 8, probe m.capacity slot i = slot + i := fun i hi => probe_eq_add (by omega)
      have hprobe' : ∀ i, probe m.capacity home (scanned + i) = probe m.capacity slot i := fun i => by
        rw [← probe_probe, ← hslot]
      simp only [insertLoop, if_pos hscan, show group = 8 from rfl, if_neg hend, hmask]
      rcases @group_outcome K V m ctrl eq slot hfit with
        ⟨i, hi, hmatch, hbefore, hstop, hhit⟩ | ⟨stop, hi, hfirst, hempty, hmatch, hbefore, hstop⟩ |
        ⟨hfirst, hempty, hmatch, hbefore⟩
      · have hfresh := hpass.fresh (by omega) hi fun hno => by
          rw [hprobe', hprobe i hi, Passes, hhit] at hno
          exact absurd hno.2 (by simp)
        have hreuse : reuseAt m.status (slot + i) = false := by
          have hst : m.status (slot + i) = ctrl := by
            have := (Bool.and_eq_true_iff.mp hhit).1
            exact of_decide_eq_true this
          simp [reuseAt, hst, hctrl]
        rw [hmatch, Option.elim_some, ← hprobe i hi]
        exact (insertWalk_hit hlt (by omega) hbefore (by rwa [hprobe i hi]) (by rwa [hprobe i hi])
          (by rwa [hprobe i hi])).symm
      · have hfresh := hpass.fresh (by omega) hi fun hno => by
          rw [hprobe', hprobe stop hi, Passes, hstop] at hno
          exact absurd hno.1 (by simp)
        rw [hfirst, hmatch, Option.elim_none, if_pos hempty, ← firstReuse_group hi.le hfit,
          insertWalk_stop hlt (by omega) hbefore (by rwa [hprobe stop hi]), hprobe stop hi]
      · rw [hfirst, hmatch, Option.elim_none, if_neg (not_not.mpr hempty), ← firstReuse_group le_rfl hfit]
        have hnoreuse : t.or (firstReuse m.capacity (reuseAt m.status) slot 8) = none →
            ∀ i < scanned + 8, reuseAt m.status (probe m.capacity home i) = false := by
          intro hnone i hi
          obtain ⟨ht0, hfr⟩ := Option.or_eq_none_iff.mp hnone
          by_cases his : i < scanned
          · exact ht ht0 i his
          · rw [show i = scanned + (i - scanned) by omega, hprobe']
            exact firstReuse_eq_none.mp hfr _ (by omega)
        have hrec := @ih ((slot + 8) % m.capacity) (scanned + 8) (by rw [hslot, probe_add])
          (hpass.add (by rwa [← hslot])) (by omega) _ hnoreuse (Nat.mod_lt _ (by omega))
        rw [hrec]
        by_cases h8 : 8 ≤ m.capacity - scanned
        · rw [insertWalk_skip hlt h8 hbefore,
            show m.capacity - scanned - 8 = m.capacity - (scanned + 8) by omega, probe]
        · rw [show m.capacity - (scanned + 8) = 0 by omega, insertWalk,
            insertWalk_none hlt fun i hi => hbefore i (by omega)]
          -- the lanes beyond the round were scanned before
          cases t with
          | some t => rfl
          | none =>
            have hrevisit : ∀ i, m.capacity - scanned ≤ i → i < 8 →
                reuseAt m.status (probe m.capacity slot i) = false := by
              intro i h1 h2
              rw [← hprobe', show scanned + i = (scanned + i - m.capacity) + m.capacity by omega,
                probe_add_cap]
              exact ht rfl _ (by omega)
            rw [Option.none_or, Option.none_or, firstReuse_extend (by omega) hrevisit]

end Loops

theorem ctrlOf_occupied (hash : Word) : isOccupied (ctrlOf hash) = true := by
  have h : ∀ b : Byte, isOccupied (bucketOccupiedBit ||| (b &&& 0x7f)) = true := by decide
  exact h _

theorem ne_of_isOccupied {s : Byte} (h : isOccupied s = true) : s ≠ bucketEmpty ∧ s ≠ bucketTombstone := by
  revert s
  decide

/-- The scan of `lookup_hashed` is the plain walk from the key's home slot. -/
theorem lookupHashed_eq_walk (hcap : GroupedCapacity m.capacity) (hash : Word) :
    m.lookupHashed hash eq = walk m.capacity (stopAt m.status) (hitAt m.status (ctrlOf hash) eq)
      m.capacity (hash.toNat % m.capacity) := by
  have h16 := hcap.le
  have hhome : hash.toNat % m.capacity < m.capacity := Nat.mod_lt _ (by omega)
  rw [lookupHashed, mask, hcap.and_mask]
  exact lookupLoop_eq_walk hcap (probe_zero hhome).symm (fun i hi => absurd hi (by omega)) (by omega)

/-- `zero_lanes` flags exactly the zero bytes of a word, and from every start slot, for every tag and
every key predicate, the two group scans answer like the plain byte walks. -/
theorem group_scan_eq_byte_walk (m : KaracMap K V) (hcap : GroupedCapacity m.capacity) (slot : ℕ)
    (hslot : slot < m.capacity) (ctrl : Byte) (hctrl : isOccupied ctrl = true) (eq : ℕ → Bool)
    (after : Option ℕ → ℕ × Bool) :
    (∀ x i, i < 8 → lane i (zeroLanes x) = if lane i x = 0 then 0x80 else 0) ∧
    lookupLoop m ctrl eq m.capacity slot 0 =
      walk m.capacity (stopAt m.status) (hitAt m.status ctrl eq) m.capacity slot ∧
    insertLoop m ctrl eq after m.capacity slot 0 none =
      insertWalk m.capacity (stopAt m.status) (reuseAt m.status) (hitAt m.status ctrl eq) after m.capacity
        slot none := by
  have hstart : slot = probe m.capacity slot 0 := (probe_zero hslot).symm
  have hpass : PassesUpTo m ctrl eq slot 0 := fun i hi => absurd hi (by omega)
  refine ⟨fun x i hi => lane_zeroLanes x hi, ?_, ?_⟩
  · exact lookupLoop_eq_walk hcap hstart hpass (by omega)
  · exact insertLoop_eq_walk hcap hstart hpass (by omega) (ne_of_isOccupied hctrl).2
      fun _ i hi => absurd hi (by omega)

theorem group_scan_new : lookupLoop (KaracMap.new ℕ ℕ 8 8) 0x85 (fun _ => true) 16 11 0 =
    walk 16 (stopAt fun _ => bucketEmpty) (hitAt (fun _ => bucketEmpty) 0x85 fun _ => true) 16 11 :=
  (group_scan_eq_byte_walk (KaracMap.new ℕ ℕ 8 8) ⟨4, le_rfl, rfl⟩ 11 (by decide) 0x85 (by decide)
    (fun _ => true) fallThrough).2.1

end KaracMap

end Karac.Map
