import Karac.Runtime.ParReduceSound

/-! The range of a loop that is fanned out: the total that is taken from its bounds and handed to the runtime, and the
values that the workers' loops run through. All of it is arithmetic of the accumulator's width. -/

namespace Karac.Codegen

open Lib Karac.Runtime

variable {w : ℕ}

/-- The widths that `try_emit_reduction_lowering` takes. -/
def AcceptedWidth (w : ℕ) : Prop := w = 8 ∨ w = 16 ∨ w = 32 ∨ w = 64

inductive Signedness
  | signed
  | unsigned

/-- The number that a bound of the source stands for. -/
def Signedness.value (s : Signedness) (x : BitVec w) : ℤ :=
  match s with
  | .signed => x.toInt
  | .unsigned => x.toNat

def clampIterTotalNonneg (v : BitVec w) : BitVec w := if (0#w).slt v then v else 0#w

def iterTotal (lo : Option (BitVec w)) (stop : BitVec w) : BitVec w :=
  match lo with
  | none => clampIterTotalNonneg stop
  | some lo => clampIterTotalNonneg (stop - lo)

/-- A bound of a worker's chunk, truncated to the width and shifted by `lo`. -/
def workerBound (lo : Option (BitVec w)) (raw : ℕ) : BitVec w :=
  match lo with
  | none => BitVec.ofNat w raw
  | some lo => BitVec.ofNat w raw + lo

/-! Words as signed numbers. -/

def half (w : ℕ) : ℤ := 2 ^ (w - 1)

theorem half_pos (w : ℕ) : 0 < half w := by
  unfold half
  positivity

theorem two_half (hw : 0 < w) : (2 : ℤ) ^ w = 2 * half w := by
  rw [half, ← pow_succ', Nat.sub_add_cancel hw]

theorem le_toInt (x : BitVec w) : -half w ≤ x.toInt := BitVec.le_toInt x

theorem toInt_lt (x : BitVec w) : x.toInt < half w := BitVec.toInt_lt

theorem toNat_eq_toInt (hw : 0 < w) (x : BitVec w) :
    (x.toNat : ℤ) = if x.toInt < 0 then x.toInt + 2 * half w else x.toInt := by
  have hlt : (x.toNat : ℤ) < 2 ^ w := by exact_mod_cast x.isLt
  have htwo := two_half hw
  have hcond := BitVec.toInt_eq_toNat_cond x
  push_cast at hcond
  split_ifs at hcond ⊢ <;> omega

theorem toInt_ofInt_of_fits (hw : 0 < w) {z : ℤ} (hlo : -half w ≤ z) (hhi : z < half w) :
    (BitVec.ofInt w z).toInt = z := by
  rw [BitVec.toInt_ofInt]
  refine Int.bmod_eq_of_le_mul_two ?_ ?_ <;> push_cast <;> rw [two_half hw] <;> omega

theorem ofInt_sub_twice (hw : 0 < w) (z : ℤ) : BitVec.ofInt w (z - 2 * half w) = BitVec.ofInt w z := by
  have hwrap := Int.sub_bmod_right z (2 ^ w)
  push_cast at hwrap
  refine BitVec.eq_of_toInt_eq ?_
  rw [BitVec.toInt_ofInt, BitVec.toInt_ofInt, ← two_half hw, hwrap]

theorem toInt_ofInt_of_above (hw : 0 < w) {z : ℤ} (hlo : half w ≤ z) (hhi : z < 3 * half w) :
    (BitVec.ofInt w z).toInt = z - 2 * half w := by
  rw [← ofInt_sub_twice hw, toInt_ofInt_of_fits hw (by omega) (by omega)]

theorem toInt_ofInt_of_below (hw : 0 < w) {z : ℤ} (hlo : -(3 * half w) ≤ z) (hhi : z < -half w) :
    (BitVec.ofInt w z).toInt = z + 2 * half w := by
  have hshift := ofInt_sub_twice hw (z + 2 * half w)
  rw [add_sub_cancel_right] at hshift
  rw [hshift, toInt_ofInt_of_fits hw (by omega) (by omega)]

/-! The total. -/

theorem toNat_clamp (v : BitVec w) : (clampIterTotalNonneg v).toNat = v.toInt.toNat := by
  unfold clampIterTotalNonneg
  have hcond := BitVec.toInt_eq_toNat_cond v
  have hlt := v.isLt
  split
  · rename_i hpos
    rw [BitVec.slt_iff_toInt_lt, BitVec.toInt_zero] at hpos
    split_ifs at hcond <;> omega
  · rename_i hneg
    rw [BitVec.slt_iff_toInt_lt, BitVec.toInt_zero] at hneg
    rw [BitVec.toNat_zero, Int.toNat_eq_zero.mpr (by omega)]

theorem toNat_iterTotal (lo : Option (BitVec w)) (stop : BitVec w) :
    (iterTotal lo stop).toNat = (BitVec.ofInt w (stop.toInt - (lo.getD 0#w).toInt)).toInt.toNat := by
  have hdiff (x : BitVec w) : (stop - x).toInt = (BitVec.ofInt w (stop.toInt - x.toInt)).toInt := by
    rw [BitVec.toInt_sub, BitVec.toInt_ofInt]
  cases lo with
  | none =>
    rw [iterTotal, toNat_clamp, Option.getD_none, ← hdiff, BitVec.sub_zero]
  | some lo => rw [iterTotal, toNat_clamp, Option.getD_some, ← hdiff]

theorem iterTotal_lt (hw : AcceptedWidth w) (lo : Option (BitVec w)) (stop : BitVec w) :
    (iterTotal lo stop).toNat < 2 ^ 63 := by
  rw [toNat_iterTotal]
  have hlt := toInt_lt (BitVec.ofInt w (stop.toInt - (lo.getD 0#w).toInt))
  rcases hw with rfl | rfl | rfl | rfl <;> norm_num [half] at hlt ⊢ <;> omega

/-! A worker. -/

theorem toInt_add_one {k stop : BitVec w} (h : k.toInt < stop.toInt) : (k + 1#w).toInt = k.toInt + 1 := by
  have hw : 0 < w := by
    by_contra hzero
    obtain rfl : w = 0 := by omega
    rw [BitVec.eq_nil k, BitVec.eq_nil stop] at h
    exact lt_irrefl _ h
  have hadd : k + 1#w = BitVec.ofInt w (k.toInt + 1) := by
    rw [BitVec.ofInt_add, BitVec.ofInt_toInt]
    rfl
  have hk := le_toInt k
  have hstop := toInt_lt stop
  rw [hadd, toInt_ofInt_of_fits hw (by omega) (by omega)]

/-- The values of the loop variable in the worker function's loop. -/
def workerLoop (k stop : BitVec w) : List (BitVec w) :=
  if k.slt stop = true then k :: workerLoop (k + 1#w) stop else []
termination_by (stop.toInt - k.toInt).toNat
decreasing_by
  rename_i h
  rw [BitVec.slt_iff_toInt_lt] at h
  rw [toInt_add_one h]
  omega

def workerValues (lo : Option (BitVec w)) (call : ℕ × ℕ) : List (BitVec w) :=
  workerLoop (workerBound lo call.1) (workerBound lo call.2)

/-- The values of the loop variable in all calls of the worker function. -/
def visitedValues (lo : Option (BitVec w)) (calls : List (ℕ × ℕ)) : List (BitVec w) := calls.flatMap (workerValues lo)

theorem workerLoop_empty {k stop : BitVec w} (h : stop.toInt ≤ k.toInt) : workerLoop k stop = [] := by
  rw [workerLoop, if_neg]
  rw [BitVec.slt_iff_toInt_lt]
  omega

theorem workerLoop_step {k stop : BitVec w} (h : k.toInt < stop.toInt) :
    workerLoop k stop = k :: workerLoop (k + 1#w) stop := by
  rw [workerLoop, if_pos (BitVec.slt_iff_toInt_lt.mpr h)]

theorem mem_workerLoop {k stop : BitVec w} (h : k.toInt < stop.toInt) : k ∈ workerLoop k stop := by
  rw [workerLoop_step h]
  exact List.mem_cons_self

/-- The word at an index of the range that starts at a number. -/
def place (w : ℕ) (first : ℤ) (i : ℕ) : BitVec w := BitVec.ofInt w (first + i)

theorem workerBound_eq (lo : Option (BitVec w)) (raw : ℕ) : workerBound lo raw = place w (lo.getD 0#w).toInt raw := by
  have hraw : BitVec.ofNat w raw = BitVec.ofInt w (raw : ℤ) := (BitVec.ofInt_natCast w raw).symm
  cases lo with
  | none => rw [workerBound, place, hraw, Option.getD_none, BitVec.toInt_zero, zero_add]
  | some lo => rw [workerBound, place, hraw, Option.getD_some, BitVec.ofInt_add, BitVec.ofInt_toInt, BitVec.add_comm]

section

variable {first : ℤ} (hfirst : -half w ≤ first) {start stop : ℕ}

include hfirst

theorem toInt_place (hw : 0 < w) {i : ℕ} (hi : first + i < half w) : (place w first i).toInt = first + i :=
  toInt_ofInt_of_fits hw (by omega) hi

theorem workerLoop_place (hw : 0 < w) (hstart : first + start < half w) (hstop : first + stop < half w) :
    workerLoop (place w first start) (place w first stop) = (between start stop).map (place w first) := by
  have hstopInt := toInt_place hfirst hw hstop
  induction hn : stop - start generalizing start with
  | zero =>
    rw [workerLoop_empty, between, hn]
    · rfl
    · rw [hstopInt, toInt_place hfirst hw hstart]
      omega
  | succ n ih =>
    have hstartInt := toInt_place hfirst hw hstart
    have hlt : (place w first start).toInt < (place w first stop).toInt := by omega
    have hnext : place w first start + 1#w = place w first (start + 1) := by
      refine BitVec.eq_of_toInt_eq ?_
      rw [toInt_add_one hlt, hstartInt, toInt_place hfirst hw (by push_cast; omega)]
      push_cast
      ring
    rw [workerLoop_step hlt, hnext, ih (by push_cast; omega) (by omega), between, between, hn, List.range'_succ,
      List.map_cons, show stop - (start + 1) = n by omega]

end

/-! The ranges that the runtime hands out. -/

section

variable {α : Type*} {desc : KaracReduceDescriptor α} {env : ReduceEnv} {schedule : List ℕ} {o : ReduceOutcome α}

/-- What a call of the worker function may be for. Past the end of the range a worker of the static split still has a
start. -/
def HandedOut (total : ℕ) (call : ℕ × ℕ) : Prop :=
  call.2 ≤ total ∧ (call.1 ≤ call.2 ∨
    call.2 = total ∧ ∃ n k, k < n ∧ n ≤ total ∧ n < 2 ^ 32 ∧ call.1 = k * divCeil total n)

theorem handedOut_chunkAt {size total k : ℕ} (h : k * size ≤ total) : HandedOut total (chunkAt size total k) := by
  have hnext : k * size ≤ (k + 1) * size := Nat.mul_le_mul_right _ (Nat.le_succ k)
  exact ⟨min_le_right _ _, Or.inl (le_min hnext h)⟩

/-- What the pooled shapes hand out. -/
theorem handedOut_of_pooled {n : ℕ} {mode : Mode} (h : dispatchPooled env desc = some (.pooled n mode))
    (htotal : desc.iterTotal < 2 ^ 63) (hpos : 0 < desc.iterTotal) :
    ∀ call ∈ mode.handedOut desc.iterTotal, HandedOut desc.iterTotal call := by
  unfold dispatchPooled at h
  extract_lets poolWorkers nWorkers perIterCost totalCost costThreshold chunk staticChunk at h
  have hpool : poolWorkers < 2 ^ 32 := env.pool.threads
  have hpoolPos : 1 ≤ poolWorkers := env.pool.pos
  have hn : 0 < nWorkers := by omega
  have hlt : nWorkers < 2 ^ 32 := by omega
  have hle : nWorkers ≤ desc.iterTotal := by omega
  split at h
  · exact absurd h (by simp)
  · split at h
    · obtain ⟨rfl, rfl⟩ := Dispatch.pooled.inj (Option.some.inj h)
      intro call hcall
      obtain ⟨idx, hidx, rfl⟩ := List.mem_map.mp hcall
      have hchunk : 0 < chunk := orderFreeChunk_pos _ _ _
      have hlast : (idx + 1) * chunk ≤ divCeil desc.iterTotal chunk * chunk :=
        Nat.mul_le_mul_right _ (List.mem_range.mp hidx)
      have hend := divCeil_mul_lt (a := desc.iterTotal) hchunk
      rw [Nat.succ_mul] at hlast
      exact handedOut_chunkAt (by omega)
    · rw [staticRanges_eq htotal hn hle, Option.map_some] at h
      obtain ⟨rfl, rfl⟩ := Dispatch.pooled.inj (Option.some.inj h)
      intro call hcall
      obtain ⟨k, hk, rfl⟩ := List.mem_map.mp hcall
      rcases Nat.le_total (k * staticChunk) desc.iterTotal with hin | hpast
      · exact handedOut_chunkAt hin
      · have hnext : desc.iterTotal ≤ (k + 1) * staticChunk := le_trans hpast (Nat.mul_le_mul_right _ (Nat.le_succ k))
        exact ⟨min_le_right _ _, Or.inr ⟨min_eq_right hnext, nWorkers, k, List.mem_range.mp hk, hle, hlt, rfl⟩⟩

theorem handedOut_of_karacParReduce (htotal : desc.iterTotal < 2 ^ 63) (h : karacParReduce desc env schedule = some o) :
    ∀ call ∈ o.calls, HandedOut desc.iterTotal call := by
  have hinline : HandedOut desc.iterTotal (0, desc.iterTotal) := ⟨le_rfl, Or.inl (Nat.zero_le _)⟩
  obtain ⟨d, hd, -⟩ := dispatch_sound env htotal
  cases d with
  | empty =>
    rw [karacParReduce, hd] at h
    obtain rfl := Option.some.inj h
    intro call hcall
    exact absurd hcall (by simp)
  | inline =>
    rw [karacParReduce, hd] at h
    obtain rfl := Option.some.inj h
    intro call hcall
    rwa [List.mem_singleton.mp hcall]
  | pooled n mode =>
    have hperm := calls_of_pooled htotal hd h
    unfold dispatch at hd
    split at hd
    · exact absurd hd (by simp)
    · split at hd
      · exact absurd hd (by simp)
      · split at hd
        · exact absurd hd (by simp)
        · intro call hcall
          exact handedOut_of_pooled hd htotal (by omega) call (hperm.subset hcall)

theorem calls_of_empty (hzero : desc.iterTotal = 0) (h : karacParReduce desc env schedule = some o) : o.calls = [] := by
  rw [karacParReduce, dispatch, if_pos hzero] at h
  obtain rfl := Option.some.inj h
  rfl

end

/-- A reduction of nothing, over a range. -/
def plainDescriptor (total : ℕ) : KaracReduceDescriptor Unit := ⟨total, (), fun _ _ _ => (), fun _ _ => (), 0⟩

/-- Outside of any other reduction, with so many workers. -/
def workersEnv (pool : Pool) : ReduceEnv := ⟨true, pool, none, none, 0⟩

/-- One worker takes the whole range in one call. -/
theorem exists_inline_run {total : ℕ} (h : total ≠ 0) :
    ∃ env schedule o, karacParReduce (plainDescriptor total) env schedule = some o ∧ o.calls = [(0, total)] := by
  refine ⟨⟨false, ⟨1, by decide, by decide⟩, none, none, 0⟩, [], ⟨(), [(0, total)]⟩, ?_, rfl⟩
  have hzero : (plainDescriptor total).iterTotal ≠ 0 := h
  rw [karacParReduce, dispatch, if_neg hzero, if_pos rfl]
  rfl

/-- So many workers split the range among them. -/
theorem exists_static_run {total n : ℕ} (htotal : total < 2 ^ 63) (htwo : 2 ≤ n) (hle : n ≤ total) (hn : n < 2 ^ 32) :
    ∃ env schedule o, karacParReduce (plainDescriptor total) env schedule = some o ∧
      o.calls.Perm ((List.range n).map (chunkAt (divCeil total n) total)) := by
  obtain ⟨pool, hpool⟩ : ∃ pool : Pool, pool.workers = n := ⟨⟨n, by omega, hn⟩, rfl⟩
  have hpooled : dispatchPooled (workersEnv pool) (plainDescriptor total) =
      some (.pooled n (.ranges ((List.range n).map (chunkAt (divCeil total n) total)))) := by
    have hmin : max (min (workersEnv pool).pool.workers (plainDescriptor total).iterTotal) 1 = n := by
      change max (min pool.workers total) 1 = n
      omega
    have hcost : ((plainDescriptor total).perIterCostUnits &&& ~~~karacParOrderFreeFlag).toNat = 0 :=
      show ((0 : BitVec 64) &&& ~~~karacParOrderFreeFlag).toNat = 0 by decide
    have hordered : (plainDescriptor total).orderFree = false :=
      show decide ((0 : BitVec 64) &&& karacParOrderFreeFlag ≠ 0) = false by decide
    dsimp only [dispatchPooled]
    rw [if_neg (by rw [hmin, hcost]; omega), hordered, if_neg (by decide), hmin]
    exact congrArg (Option.map fun ranges => Dispatch.pooled n (.ranges ranges)) (staticRanges_eq htotal (by omega) hle)
  have hd : dispatch (workersEnv pool) (plainDescriptor total) =
      some (.pooled n (.ranges ((List.range n).map (chunkAt (divCeil total n) total)))) := by
    have hzero : (plainDescriptor total).iterTotal ≠ 0 := show total ≠ 0 by omega
    have hthreads : (workersEnv pool).pooled ≠ false := show true ≠ false by decide
    have hdepth : ¬(workersEnv pool).resolveMaxForkDepth ≤ (workersEnv pool).depth := show ¬1 ≤ 0 by decide
    rw [dispatch, if_neg hzero, if_neg hthreads, if_neg hdepth]
    exact hpooled
  obtain ⟨bound, hends⟩ := ends_of_pooled htotal hd
  obtain ⟨-, more, o, ho⟩ := hends [] _ rfl
  exact ⟨_, _, o, ho, calls_of_pooled htotal hd ho⟩

/-! The values of the loop. -/

section

variable (s : Signedness) (lo : Option (BitVec w)) (hi : BitVec w)

/-- The values of the loop variable are those of the sequential loop, each once. -/
structure Exact (s : Signedness) (lo hi : BitVec w) (visited : List (BitVec w)) : Prop where
  once : visited.Nodup
  mem : ∀ x, x ∈ visited ↔ s.value lo ≤ s.value x ∧ s.value x < s.value hi

/-- The runtime's call comes back, whatever the order of the workers' steps. -/
structure ComesBack {α : Type} (env : ReduceEnv) (desc : KaracReduceDescriptor α) : Prop where
  dispatched : dispatch env desc ≠ none
  ends : ∀ n mode, dispatch env desc = some (.pooled n mode) → ∃ bound, ∀ schedule s,
    runSteps (reduceStep desc mode) (launch desc n) schedule = some s →
      schedule.length ≤ bound ∧ ∃ more o, karacParReduce desc env (schedule ++ more) = some o

/-- Every fan-out of the range runs the sequential loop's iterations. -/
structure FansOut : Prop where
  back : ∀ {α : Type} (desc : KaracReduceDescriptor α) (env : ReduceEnv), desc.iterTotal = (iterTotal lo hi).toNat →
    ComesBack env desc
  exact : ∀ {α : Type} (desc : KaracReduceDescriptor α) (env : ReduceEnv) (schedule : List ℕ) (o : ReduceOutcome α),
    desc.iterTotal = (iterTotal lo hi).toNat → karacParReduce desc env schedule = some o →
      Exact s (lo.getD 0#w) hi (visitedValues lo o.calls)

/-- The span as a signed number of the width is the span. -/
def SpanFits (lo hi : BitVec w) : Prop :=
  match s with
  | .signed => (-half w ≤ hi.toInt - lo.toInt ∧ hi.toInt - lo.toInt < half w) ∨ lo.toInt = half w - 1 ∧ hi.toInt = -half w
  | .unsigned => ((hi.toNat : ℤ) ≤ lo.toNat ∧ (lo.toNat : ℤ) - hi.toNat ≤ half w) ∨
      (lo.toNat : ℤ) < hi.toNat ∧ ((hi.toNat : ℤ) < half w ∨ half w ≤ lo.toNat)

/-- No worker of the static split starts past the end of the range so far that its start wraps. -/
def WorkersInRange (lo hi : BitVec w) : Prop :=
  let span := (s.value hi - s.value lo).toNat
  ∀ n k, k < n → n ≤ span → n < 2 ^ 32 → k * divCeil span n ≤ span ∨ lo.toInt + (k * divCeil span n : ℕ) < half w

end

variable {s : Signedness} {lo hi : BitVec w}

/-- The span as it is handed to the runtime. -/
def spanTotal (lo hi : BitVec w) : ℕ := (BitVec.ofInt w (hi.toInt - lo.toInt)).toInt.toNat

/-- Where the signed span fits. -/
theorem spanTotal_of_fits (hw : 0 < w) (hlo : -half w ≤ hi.toInt - lo.toInt) (hhi : hi.toInt - lo.toInt < half w) :
    spanTotal lo hi = (hi.toInt - lo.toInt).toNat := by
  rw [spanTotal, toInt_ofInt_of_fits hw hlo hhi]

theorem spanTotal_of_above (hw : 0 < w) (h : half w ≤ hi.toInt - lo.toInt) : spanTotal lo hi = 0 := by
  have hhi := toInt_lt hi
  have hlo := le_toInt lo
  have hpos := half_pos w
  rw [spanTotal, toInt_ofInt_of_above hw h (by omega)]
  omega

theorem spanTotal_of_below (hw : 0 < w) (h : hi.toInt - lo.toInt < -half w) :
    spanTotal lo hi = (hi.toInt - lo.toInt + 2 * half w).toNat := by
  have hhi := le_toInt hi
  have hlo := toInt_lt lo
  have hpos := half_pos w
  rw [spanTotal, toInt_ofInt_of_below hw (by omega) h]

/-- What the runtime is handed for the sequential loop's range. -/
inductive SpanCase (s : Signedness) (lo hi : BitVec w) : Prop
  /-- Nothing for nothing. -/
  | empty (htotal : spanTotal lo hi = 0) (hle : s.value hi ≤ s.value lo)
  | span (hlt : lo.toInt < hi.toInt) (htotal : (spanTotal lo hi : ℤ) = hi.toInt - lo.toInt)
      (hspan : s.value hi - s.value lo = hi.toInt - lo.toInt)
      (hmem : ∀ x : BitVec w, s.value lo ≤ s.value x ∧ s.value x < s.value hi ↔ lo.toInt ≤ x.toInt ∧ x.toInt < hi.toInt)
  /-- One index for nothing, from the last word to the first. -/
  | last (hlo : lo.toInt = half w - 1) (hhi : hi.toInt = -half w) (htotal : spanTotal lo hi = 1)
      (hle : s.value hi ≤ s.value lo)

theorem spanCase_of_spanFits (hw : 0 < w) (hhalf : 1 < half w) (h : SpanFits s lo hi) : SpanCase s lo hi := by
  have hlo := le_toInt lo
  have hhi := le_toInt hi
  have hloLt := toInt_lt lo
  have hhiLt := toInt_lt hi
  cases s with
  | signed =>
    rcases h with ⟨hge, hlt⟩ | ⟨hloEq, hhiEq⟩
    · have htotal := spanTotal_of_fits hw hge hlt
      rcases lt_or_ge lo.toInt hi.toInt with hspan | hnone
      · exact .span hspan (by omega) rfl fun x => Iff.rfl
      · exact .empty (by omega) hnone
    · have hbelow : hi.toInt - lo.toInt < -half w := by omega
      have htotal := spanTotal_of_below hw hbelow
      exact .last hloEq hhiEq (by omega) (show hi.toInt ≤ lo.toInt by omega)
  | unsigned =>
    have hloNat := toNat_eq_toInt hw lo
    have hhiNat := toNat_eq_toInt hw hi
    rcases h with ⟨hle, hgap⟩ | ⟨hlt, hsame⟩
    · refine .empty ?_ hle
      have hge : -half w ≤ hi.toInt - lo.toInt := by
        change (hi.toNat : ℤ) ≤ lo.toNat at hle
        split_ifs at hloNat hhiNat <;> omega
      rcases lt_or_ge (hi.toInt - lo.toInt) (half w) with hfits | habove
      · rw [spanTotal_of_fits hw hge hfits]
        split_ifs at hloNat hhiNat <;> omega
      · exact spanTotal_of_above hw habove
    · have hsigned : lo.toInt < hi.toInt := by split_ifs at hloNat hhiNat <;> omega
      have hspan : (hi.toNat : ℤ) - lo.toNat = hi.toInt - lo.toInt := by split_ifs at hloNat hhiNat <;> omega
      have hfits : hi.toInt - lo.toInt < half w := by split_ifs at hloNat hhiNat <;> omega
      have htotal := spanTotal_of_fits hw (by omega) hfits
      refine .span hsigned (by omega) hspan fun x => ?_
      have hxNat := toNat_eq_toInt hw x
      have hx := le_toInt x
      have hxLt := toInt_lt x
      change (lo.toNat : ℤ) ≤ x.toNat ∧ (x.toNat : ℤ) < hi.toNat ↔ _
      split_ifs at hloNat hhiNat hxNat <;> omega

/-- What goes wrong where the span does not fit. -/
inductive Misfit (s : Signedness) (lo hi : BitVec w) : Prop
  /-- Nothing for some iterations. -/
  | none (htotal : spanTotal lo hi = 0) (hlt : s.value lo < s.value hi)
  /-- A worker that takes the whole range does not enter its loop. -/
  | skipped (htotal : spanTotal lo hi ≠ 0) (hle : hi.toInt ≤ lo.toInt) (hlt : s.value lo < s.value hi)
  /-- A worker that takes the whole range enters its loop, where there are no iterations. -/
  | entered (htotal : spanTotal lo hi ≠ 0) (hlt : lo.toInt < hi.toInt) (hle : s.value hi ≤ s.value lo)
  /-- One of two workers enters its loop, where there are no iterations. -/
  | half (htotal : 2 ≤ spanTotal lo hi) (hle : s.value hi ≤ s.value lo)

theorem misfit_of_not_spanFits (hw : 0 < w) (h : ¬SpanFits s lo hi) : Misfit s lo hi := by
  have hlo := le_toInt lo
  have hhi := le_toInt hi
  have hloLt := toInt_lt lo
  have hhiLt := toInt_lt hi
  cases s with
  | signed =>
    obtain ⟨hspan, hlast⟩ := not_or.mp h
    rcases lt_or_ge (hi.toInt - lo.toInt) (-half w) with hbelow | hge
    · have htotal := spanTotal_of_below hw hbelow
      exact .half (by omega) (show hi.toInt ≤ lo.toInt by omega)
    · have habove : half w ≤ hi.toInt - lo.toInt := by omega
      exact .none (spanTotal_of_above hw habove) (show lo.toInt < hi.toInt by omega)
  | unsigned =>
    have hloNat := toNat_eq_toInt hw lo
    have hhiNat := toNat_eq_toInt hw hi
    obtain ⟨hdown, hup⟩ := not_or.mp h
    rcases lt_or_ge (lo.toNat : ℤ) hi.toNat with hlt | hle
    · have hsides : lo.toInt - hi.toInt ≤ 2 * half w := by omega
      rcases lt_or_ge (hi.toInt - lo.toInt) (-half w) with hbelow | hge
      · have htotal := spanTotal_of_below hw hbelow
        refine .skipped ?_ (by omega) hlt
        split_ifs at hloNat hhiNat <;> omega
      · have hneg : hi.toInt < lo.toInt := by split_ifs at hloNat hhiNat <;> omega
        refine .none ?_ hlt
        rw [spanTotal_of_fits hw hge (by omega)]
        omega
    · have hgap : half w < (lo.toNat : ℤ) - hi.toNat := by omega
      have hlt : lo.toInt < hi.toInt := by split_ifs at hloNat hhiNat <;> omega
      have hfits : hi.toInt - lo.toInt < half w := by split_ifs at hloNat hhiNat <;> omega
      refine .entered ?_ hlt hle
      rw [spanTotal_of_fits hw (by omega) hfits]
      omega

/-! Exactness. -/

theorem exact_nil_iff : Exact s lo hi [] ↔ s.value hi ≤ s.value lo := by
  constructor
  · intro h
    by_contra hlt
    exact absurd ((h.mem lo).mpr ⟨le_rfl, by omega⟩) (by simp)
  · intro hle
    refine ⟨List.nodup_nil, fun x => ⟨fun hx => absurd hx (by simp), fun hx => ?_⟩⟩
    omega

/-- The values of the runtime's range, placed from `lo` on. -/
theorem exact_of_perm (hw : 0 < w) {total : ℕ} (htotal : (total : ℤ) = hi.toInt - lo.toInt)
    (hmem : ∀ x : BitVec w, s.value lo ≤ s.value x ∧ s.value x < s.value hi ↔ lo.toInt ≤ x.toInt ∧ x.toInt < hi.toInt)
    {visited : List (BitVec w)} (h : visited.Perm ((List.range total).map (place w lo.toInt))) :
    Exact s lo hi visited := by
  have hhi := toInt_lt hi
  have hplace (i : ℕ) (hi' : i < total) : (place w lo.toInt i).toInt = lo.toInt + i :=
    toInt_place (le_toInt lo) hw (by omega)
  refine ⟨h.nodup_iff.mpr (List.nodup_range.map_on fun i hi' j hj heq => ?_), fun x => ?_⟩
  · have hint := congrArg BitVec.toInt heq
    rw [hplace i (List.mem_range.mp hi'), hplace j (List.mem_range.mp hj)] at hint
    omega
  · rw [hmem, h.mem_iff, List.mem_map]
    constructor
    · intro hx
      obtain ⟨i, hi', rfl⟩ := hx
      have hlt' := List.mem_range.mp hi'
      rw [hplace i hlt']
      omega
    · intro hx
      have hindex : (x.toInt - lo.toInt).toNat < total := by omega
      refine ⟨(x.toInt - lo.toInt).toNat, List.mem_range.mpr hindex, BitVec.eq_of_toInt_eq ?_⟩
      rw [hplace _ hindex]
      omega

theorem workerValues_eq (lo : Option (BitVec w)) (call : ℕ × ℕ) :
    workerValues lo call = workerLoop (place w (lo.getD 0#w).toInt call.1) (place w (lo.getD 0#w).toInt call.2) := by
  rw [workerValues, workerBound_eq, workerBound_eq]

theorem visitedValues_eq (hw : 0 < w) {lo : Option (BitVec w)} {calls : List (ℕ × ℕ)}
    (h : ∀ call ∈ calls, (lo.getD 0#w).toInt + call.1 < half w ∧ (lo.getD 0#w).toInt + call.2 < half w) :
    visitedValues lo calls = (visits calls).map (place w (lo.getD 0#w).toInt) := by
  rw [visitedValues, visits, List.map_flatMap]
  refine List.flatMap_congr fun call hcall => ?_
  obtain ⟨hstart, hstop⟩ := h call hcall
  rw [workerValues_eq, workerLoop_place (le_toInt _) hw hstart hstop]

theorem toNat_iterTotal_eq (lo : Option (BitVec w)) (hi : BitVec w) :
    (iterTotal lo hi).toNat = spanTotal (lo.getD 0#w) hi :=
  toNat_iterTotal lo hi

/-- The index of the total is the end of the range. -/
theorem place_spanTotal (h : spanTotal lo hi ≠ 0) : place w lo.toInt (spanTotal lo hi) = hi := by
  have hpos : ((spanTotal lo hi : ℕ) : ℤ) = (BitVec.ofInt w (hi.toInt - lo.toInt)).toInt := by
    unfold spanTotal at h ⊢
    omega
  have hsum : BitVec.ofInt w (lo.toInt + (hi.toInt - lo.toInt)) = _ := BitVec.ofInt_add _ _
  rw [add_sub_cancel, BitVec.ofInt_toInt, BitVec.ofInt_toInt] at hsum
  rw [place, BitVec.ofInt_add, hpos, BitVec.ofInt_toInt, BitVec.ofInt_toInt]
  exact hsum.symm

theorem place_zero : place w lo.toInt 0 = lo := by
  rw [place, Int.natCast_zero, add_zero, BitVec.ofInt_toInt]

/-! The fan-out. -/

section

variable {lo : Option (BitVec w)}

/-- A worker whose loop is for the last word up to the first, or for less, does not enter it. -/
theorem workerValues_last (hlo : (lo.getD 0#w).toInt = half w - 1) {call : ℕ × ℕ} (hle : call.1 ≤ call.2)
    (hone : call.2 ≤ 1) : workerValues lo call = [] := by
  rw [workerValues_eq]
  refine workerLoop_empty ?_
  have hpos := half_pos w
  have hfirst (i : ℕ) (hi : i = 0) : (place w (lo.getD 0#w).toInt i).toInt = half w - 1 := by
    rw [hi, place_zero, hlo]
  rcases Nat.eq_zero_or_pos call.1 with hzero | hstart
  · rw [hfirst call.1 hzero]
    have hlt := toInt_lt (place w (lo.getD 0#w).toInt call.2)
    omega
  · rw [show call.2 = call.1 by omega]

/-- Where the span fits and the workers stay in range, every run is exact. -/
theorem exact_of_spanCase (hw : AcceptedWidth w) (hpos : 0 < w) (hcase : SpanCase s (lo.getD 0#w) hi)
    (hworkers : WorkersInRange s (lo.getD 0#w) hi) {α : Type} {desc : KaracReduceDescriptor α} {env : ReduceEnv}
    {schedule : List ℕ} {o : ReduceOutcome α} (htotal : desc.iterTotal = (iterTotal lo hi).toNat)
    (h : karacParReduce desc env schedule = some o) : Exact s (lo.getD 0#w) hi (visitedValues lo o.calls) := by
  have hbound : desc.iterTotal < 2 ^ 63 := htotal ▸ iterTotal_lt hw lo hi
  have hhanded := handedOut_of_karacParReduce hbound h
  rw [toNat_iterTotal_eq] at htotal
  cases hcase with
  | empty hzero hle =>
    rw [calls_of_empty (htotal.trans hzero) h]
    exact exact_nil_iff.mpr hle
  | span hlt hspanTotal hspan hmem =>
    have hhi := toInt_lt hi
    have hrange : ∀ call ∈ o.calls, (lo.getD 0#w).toInt + call.1 < half w ∧ (lo.getD 0#w).toInt + call.2 < half w := by
      intro call hcall
      obtain ⟨hstop, hstart⟩ := hhanded call hcall
      refine ⟨?_, by omega⟩
      rcases hstart with hle | ⟨-, n, k, hk, hn, hthreads, hstart⟩
      · omega
      · have hwidth : (s.value hi - s.value (lo.getD 0#w)).toNat = desc.iterTotal := by omega
        have hworker := hworkers n k hk (by rw [hwidth]; exact hn) hthreads
        rw [hwidth, ← hstart] at hworker
        omega
    have hcovers := (finished_of_karacParReduce hbound h).covers
    rw [visitedValues_eq hpos hrange]
    refine exact_of_perm hpos ?_ hmem (hcovers.perm.map _)
    omega
  | last hlo hhi hone hle =>
    have hnone : visitedValues lo o.calls = [] := by
      refine List.flatMap_eq_nil_iff.mpr fun call hcall => ?_
      obtain ⟨hstop, hstart⟩ := hhanded call hcall
      refine workerValues_last hlo ?_ (by omega)
      rcases hstart with hle' | ⟨hend, n, k, hk, hn, -, hstart⟩
      · exact hle'
      · obtain rfl : k = 0 := by omega
        omega
    rw [hnone]
    exact exact_nil_iff.mpr hle

theorem FansOut.exact_empty (h : FansOut s lo hi) (hzero : spanTotal (lo.getD 0#w) hi = 0) :
    Exact s (lo.getD 0#w) hi [] := by
  have htotal := toNat_iterTotal_eq lo hi
  have hrun : karacParReduce (plainDescriptor 0) (workersEnv ⟨1, by decide, by decide⟩) [] = some ⟨(), []⟩ := rfl
  exact h.exact _ _ _ _ (show 0 = _ by omega) hrun

theorem FansOut.exact_inline (h : FansOut s lo hi) (hzero : spanTotal (lo.getD 0#w) hi ≠ 0) :
    Exact s (lo.getD 0#w) hi (workerLoop (lo.getD 0#w) hi) := by
  obtain ⟨env, schedule, o, hrun, hcalls⟩ := exists_inline_run hzero
  have hexact := h.exact _ _ _ _ (toNat_iterTotal_eq lo hi).symm hrun
  rwa [hcalls, visitedValues, List.flatMap_singleton, workerValues_eq, place_zero, place_spanTotal hzero] at hexact

theorem FansOut.exact_static (hw : AcceptedWidth w) (h : FansOut s lo hi) {n : ℕ} (htwo : 2 ≤ n)
    (hle : n ≤ spanTotal (lo.getD 0#w) hi) (hn : n < 2 ^ 32) {k : ℕ} (hk : k < n) {x : BitVec w}
    (hx : x ∈ workerValues lo (chunkAt (divCeil (spanTotal (lo.getD 0#w) hi) n) (spanTotal (lo.getD 0#w) hi) k)) :
    s.value (lo.getD 0#w) ≤ s.value x ∧ s.value x < s.value hi := by
  have hbound := iterTotal_lt hw lo hi
  rw [toNat_iterTotal_eq] at hbound
  obtain ⟨env, schedule, o, hrun, hcalls⟩ := exists_static_run hbound htwo hle hn
  have hexact := h.exact _ _ _ _ (toNat_iterTotal_eq lo hi).symm hrun
  have hcall := hcalls.symm.subset (List.mem_map_of_mem (List.mem_range.mpr hk))
  exact (hexact.mem x).mp (List.mem_flatMap.mpr ⟨_, hcall, hx⟩)

/-- Two workers split a range that wraps from its end to its start, and one of them enters its loop. -/
theorem not_fansOut_of_half (hw : AcceptedWidth w) (hpos : 0 < w) (htwo : 2 ≤ spanTotal (lo.getD 0#w) hi)
    (hle : s.value hi ≤ s.value (lo.getD 0#w)) : ¬FansOut s lo hi := by
  intro h
  have hinside {k : ℕ} (hk : k < 2) {x : BitVec w}
      (hx : x ∈ workerValues lo (chunkAt (divCeil (spanTotal (lo.getD 0#w) hi) 2) (spanTotal (lo.getD 0#w) hi) k)) :
      False := by
    have hvalue := h.exact_static hw le_rfl htwo (by decide) hk hx
    omega
  have htotalLt : (spanTotal (lo.getD 0#w) hi : ℤ) < half w := by
    have hword := toInt_lt (BitVec.ofInt w (hi.toInt - (lo.getD 0#w).toInt))
    have hhalf := half_pos w
    unfold spanTotal
    omega
  have hlast := place_spanTotal (show spanTotal (lo.getD 0#w) hi ≠ 0 by omega)
  set total := spanTotal (lo.getD 0#w) hi
  set first := (lo.getD 0#w).toInt with hfirst
  have hge := divCeil_mul_ge (a := total) (Nat.two_pos)
  have hless := divCeil_mul_lt (a := total) (Nat.two_pos)
  set size := divCeil total 2
  have hstartLe : -half w ≤ first := le_toInt _
  have hstartLt : first < half w := toInt_lt _
  have hmid : size ≤ total ∧ 0 < size ∧ size < total := by omega
  rcases lt_or_ge (first + size) (half w) with hfits | habove
  · have hchunk : chunkAt size total 0 = (0, size) := by
      rw [chunkAt, Nat.zero_mul, zero_add, Nat.one_mul, min_eq_left hmid.1]
    refine hinside (by decide : 0 < 2) (x := lo.getD 0#w) ?_
    rw [hchunk, workerValues_eq, place_zero]
    refine mem_workerLoop ?_
    rw [toInt_place hstartLe hpos hfits]
    omega
  · have hchunk : chunkAt size total 1 = (size, total) := by
      rw [chunkAt, Nat.one_mul, min_eq_right (by omega)]
    have hwrapped : (place w first size).toInt = first + size - 2 * half w :=
      toInt_ofInt_of_above hpos habove (by omega)
    have hend := congrArg BitVec.toInt hlast
    rw [place, toInt_ofInt_of_above hpos (by omega) (by omega)] at hend
    refine hinside (by decide : 1 < 2) (x := place w first size) ?_
    rw [hchunk, workerValues_eq, hlast]
    refine mem_workerLoop ?_
    rw [hwrapped]
    omega

theorem spanFits_of_fansOut (hw : AcceptedWidth w) (hpos : 0 < w) (h : FansOut s lo hi) :
    SpanFits s (lo.getD 0#w) hi := by
  by_contra hnot
  cases misfit_of_not_spanFits hpos hnot with
  | none hzero hlt =>
    have hle := exact_nil_iff.mp (h.exact_empty hzero)
    omega
  | skipped htotal hle hlt =>
    have hexact := h.exact_inline htotal
    rw [workerLoop_empty hle, exact_nil_iff] at hexact
    omega
  | entered htotal hlt hle =>
    have hvalue := ((h.exact_inline htotal).mem _).mp (mem_workerLoop hlt)
    omega
  | half htwo hle => exact not_fansOut_of_half hw hpos htwo hle h

/-- A start that wraps is before the whole range. -/
theorem workersInRange_of_fansOut (hw : AcceptedWidth w) (hpos : 0 < w) (h : FansOut s lo hi)
    (hcase : SpanCase s (lo.getD 0#w) hi) : WorkersInRange s (lo.getD 0#w) hi := by
  intro n k hk hn hthreads
  set span := (s.value hi - s.value (lo.getD 0#w)).toNat
  by_contra hnot
  obtain ⟨hpast, hwraps⟩ := not_or.mp hnot
  rw [not_le] at hpast
  rw [not_lt] at hwraps
  cases hcase with
  | empty _ hle => omega
  | last _ _ _ hle => omega
  | span hlt htotal hspan hmem =>
    have hspanEq : spanTotal (lo.getD 0#w) hi = span := by omega
    have hnext : (k + 1) * divCeil span n ≤ n * divCeil span n := Nat.mul_le_mul_right _ hk
    have hless := divCeil_mul_lt (a := span) (b := n) (by omega)
    rw [Nat.mul_comm] at hless
    have hsucc : k * divCeil span n ≤ (k + 1) * divCeil span n := Nat.mul_le_mul_right _ (Nat.le_succ k)
    have htwo : 2 ≤ n := by
      by_contra hone
      obtain rfl : k = 0 := by omega
      omega
    have hlast := place_spanTotal (show spanTotal (lo.getD 0#w) hi ≠ 0 by omega)
    have hhi := toInt_lt hi
    have hlo := le_toInt (lo.getD 0#w)
    have hloLt := toInt_lt (lo.getD 0#w)
    have hwidth : (spanTotal (lo.getD 0#w) hi : ℤ) < half w := by
      have hword := toInt_lt (BitVec.ofInt w (hi.toInt - (lo.getD 0#w).toInt))
      have hhalf := half_pos w
      unfold spanTotal
      omega
    rw [hspanEq] at hlast hwidth
    have hwrapped : (place w (lo.getD 0#w).toInt (k * divCeil span n)).toInt =
        (lo.getD 0#w).toInt + (k * divCeil span n : ℕ) - 2 * half w :=
      toInt_ofInt_of_above hpos hwraps (by omega)
    have hentered : place w (lo.getD 0#w).toInt (k * divCeil span n) ∈
        workerValues lo (chunkAt (divCeil (spanTotal (lo.getD 0#w) hi) n) (spanTotal (lo.getD 0#w) hi) k) := by
      rw [hspanEq, chunkAt, min_eq_right (by omega), workerValues_eq, hlast]
      refine mem_workerLoop ?_
      rw [hwrapped]
      omega
    have hvalue := h.exact_static hw htwo (hspanEq ▸ hn) hthreads hk hentered
    rw [hmem, hwrapped] at hvalue
    omega

/-- A fan-out runs exactly the sequential loop's iterations, in every run, where the span of the bounds fits the signed
width and no worker's start wraps, and only there. -/
theorem fanout_exact_iff (hw : AcceptedWidth w) :
    FansOut s lo hi ↔ SpanFits s (lo.getD 0#w) hi ∧ WorkersInRange s (lo.getD 0#w) hi := by
  have hpos : 0 < w := by
    unfold AcceptedWidth at hw
    omega
  have hhalf : 1 < half w := by
    rcases hw with rfl | rfl | rfl | rfl <;> norm_num [half]
  constructor
  · intro h
    have hfits := spanFits_of_fansOut hw hpos h
    exact ⟨hfits, workersInRange_of_fansOut hw hpos h (spanCase_of_spanFits hpos hhalf hfits)⟩
  · intro h
    obtain ⟨hfits, hworkers⟩ := h
    refine ⟨fun desc env htotal => ?_, fun desc env schedule o htotal hrun => ?_⟩
    · have hbound : desc.iterTotal < 2 ^ 63 := htotal ▸ iterTotal_lt hw lo hi
      refine ⟨?_, fun n mode hd => ends_of_pooled hbound hd⟩
      obtain ⟨d, hd, -⟩ := dispatch_sound env hbound
      rw [hd]
      exact Option.some_ne_none d
    · exact exact_of_spanCase hw hpos (spanCase_of_spanFits hpos hhalf hfits) hworkers htotal hrun

theorem fanout_exact_iff_five_to_fifteen : iterTotal (some 5#8) 15#8 = 10#8 ∧ FansOut .signed (some 5#8) 15#8 := by
  refine ⟨by decide, (fanout_exact_iff (Or.inl rfl)).mpr ⟨Or.inl (by decide), fun n k hk hn _ => Or.inr ?_⟩⟩
  have hspan : (Signedness.signed.value 15#8 - Signedness.signed.value ((some 5#8).getD 0#8)).toNat = 10 := by decide
  have hfirst : ((some 5#8).getD 0#8).toInt = 5 := by decide
  have hhalf : half 8 = 128 := by norm_num [half]
  rw [hspan] at hn ⊢
  have hsize : k * divCeil 10 n ≤ 9 * 10 := Nat.mul_le_mul (by omega) (divCeil_le (by omega))
  rw [hfirst, hhalf]
  omega

/-- A loop of four thousand million iterations whose accumulator has 32 bits is fanned out as none. -/
theorem long_span_runs_nothing : iterTotal (some (BitVec.ofInt 32 (-2000000000))) 2000000000#32 = 0#32 ∧
    ¬FansOut .signed (some (BitVec.ofInt 32 (-2000000000))) 2000000000#32 := by
  refine ⟨by decide, fun h => ?_⟩
  have hle := exact_nil_iff.mp (h.exact_empty (by decide))
  exact absurd hle (by decide)

end

end Karac.Codegen
