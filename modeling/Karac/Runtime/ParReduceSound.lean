import Karac.Runtime.ParReduce

/-! A parallel reduction hands each index to one call of the worker function, whatever the shape and the order of the
workers' steps. With the ranges fixed in advance it folds the loop from left to right. -/

namespace Karac.Runtime

open Lib

/-! The arithmetic on the range. -/

section

variable {a b total n : ℕ}

theorem divCeil_mul_ge (hb : 0 < b) : a ≤ divCeil a b * b := by
  have hdiv := Nat.div_add_mod' a b
  have hmod := Nat.mod_lt a hb
  unfold divCeil
  split
  · rw [Nat.succ_mul]
    omega
  · omega

theorem divCeil_mul_lt (hb : 0 < b) : divCeil a b * b < a + b := by
  have hdiv := Nat.div_add_mod' a b
  unfold divCeil
  split
  · rw [Nat.succ_mul]
    omega
  · omega

theorem divCeil_le (hb : 0 < b) : divCeil a b ≤ a := by
  by_contra hlt
  have hge : (a + 1) * b ≤ divCeil a b * b := Nat.mul_le_mul_right b (by omega)
  have hlt' := divCeil_mul_lt (a := a) hb
  rw [Nat.succ_mul] at hge
  have hle : a ≤ a * b := Nat.le_mul_of_pos_right a hb
  omega

theorem checkedMul_eq (h : a * b ≤ u64Max) : checkedMul a b = some (a * b) := if_pos h

theorem checkedAdd_eq (h : a + b ≤ u64Max) : checkedAdd a b = some (a + b) := if_pos h

/-- The static split does not overflow, for the workers whose range is past the end too. -/
theorem staticRange_eq (htotal : total < 2 ^ 63) (hn : 0 < n) (hle : n ≤ total) {w : ℕ} (hw : w < n) :
    staticRange total (divCeil total n) w = some (chunkAt (divCeil total n) total w) := by
  have hend : (w + 1) * divCeil total n ≤ u64Max := by
    have hlast : (w + 1) * divCeil total n ≤ n * divCeil total n := Nat.mul_le_mul_right _ hw
    have hlt := divCeil_mul_lt (a := total) hn
    rw [Nat.mul_comm] at hlt
    simp only [u64Max]
    omega
  have hstart : w * divCeil total n ≤ u64Max := le_trans (Nat.mul_le_mul_right _ (Nat.le_succ w)) hend
  have hnext : w + 1 ≤ u64Max := by
    simp only [u64Max]
    omega
  rw [staticRange, checkedMul_eq hstart, checkedAdd_eq hnext]
  simp only [Option.bind_eq_bind, Option.bind_some, saturatingMul, Nat.min_eq_left hend, chunkAt]

theorem mapM_eq_some_map {β γ : Type*} {f : β → Option γ} {g : β → γ} {l : List β} (h : ∀ x ∈ l, f x = some (g x)) :
    l.mapM f = some (l.map g) := by
  induction l with
  | nil => rfl
  | cons x l ih =>
    obtain ⟨hx, hl⟩ := List.forall_mem_cons.mp h
    rw [List.mapM_cons, hx, ih hl]
    rfl

theorem staticRanges_eq (htotal : total < 2 ^ 63) (hn : 0 < n) (hle : n ≤ total) :
    (List.range n).mapM (staticRange total (divCeil total n)) =
      some ((List.range n).map (chunkAt (divCeil total n) total)) :=
  mapM_eq_some_map fun _ hw => staticRange_eq htotal hn hle (List.mem_range.mp hw)

theorem orderFreeChunk_pos (total n factor : ℕ) : 0 < orderFreeChunk total n factor :=
  lt_of_lt_of_le Nat.one_pos (le_max_right _ _)

/-- The floor of a chunk's size does not push it over the range. -/
theorem orderFreeChunk_le {factor : ℕ} (htotal : 0 < total) : orderFreeChunk total n factor ≤ total := by
  have hn : 0 < max n 1 := by omega
  have htarget : 0 < saturatingMul (max n 1) (max factor 1) := by
    have hpos : 0 < max n 1 * max factor 1 := Nat.mul_pos hn (by omega)
    simp only [saturatingMul, u64Max]
    omega
  have hchunk := divCeil_le (a := total) htarget
  have hstatic := divCeil_le (a := total) hn
  simp only [orderFreeChunk]
  omega

/-- A chunk that is drawn starts within the range and ends without an overflow. -/
theorem chunkRange_eq {chunk idx : ℕ} (htotal : total < 2 ^ 63) (hpos : 0 < chunk) (hle : chunk ≤ total)
    (hidx : idx < divCeil total chunk) : chunkRange total chunk idx = some (chunkAt chunk total idx) := by
  have hstart : idx * chunk < total := by
    have hlast : (idx + 1) * chunk ≤ divCeil total chunk * chunk := Nat.mul_le_mul_right _ hidx
    have hlt := divCeil_mul_lt (a := total) hpos
    rw [Nat.succ_mul] at hlast
    omega
  have hmul : idx * chunk ≤ u64Max := by
    simp only [u64Max]
    omega
  have hadd : idx * chunk + chunk ≤ u64Max := by
    simp only [u64Max]
    omega
  rw [chunkRange, checkedMul_eq hmul]
  simp only [Option.bind_eq_bind, Option.bind_some, checkedAdd_eq hadd, chunkAt, Nat.succ_mul]

end

/-! The shapes. -/

variable {α : Type*} {desc : KaracReduceDescriptor α} {env : ReduceEnv}

/-- The tasks are right for so many workers. -/
inductive Mode.Sound (desc : KaracReduceDescriptor α) (n : ℕ) : Mode → Prop
  | ranges {size : ℕ} (hordered : desc.orderFree = false) (hcover : desc.iterTotal ≤ n * size) :
      Mode.Sound desc n (.ranges ((List.range n).map (chunkAt size desc.iterTotal)))
  | chunks {chunk k : ℕ} (hfree : desc.orderFree = true) (hcover : desc.iterTotal ≤ k * chunk) (hk : k < 2 ^ 63)
      (hrange : ∀ idx < k, chunkRange desc.iterTotal chunk idx = some (chunkAt chunk desc.iterTotal idx)) :
      Mode.Sound desc n (.chunks chunk k)

/-- What a reduction is dispatched as. -/
inductive Dispatch.Sound (desc : KaracReduceDescriptor α) : Dispatch → Prop
  | empty (h : desc.iterTotal = 0) : Dispatch.Sound desc .empty
  | inline : Dispatch.Sound desc .inline
  | pooled {n : ℕ} {mode : Mode} (hpos : 0 < n) (hn : n < 2 ^ 32) (hmode : mode.Sound desc n) :
      Dispatch.Sound desc (.pooled n mode)

theorem dispatchPooled_sound (htotal : desc.iterTotal < 2 ^ 63) (hpos : 0 < desc.iterTotal) :
    ∃ d, dispatchPooled env desc = some d ∧ d.Sound desc := by
  unfold dispatchPooled
  extract_lets poolWorkers nWorkers perIterCost totalCost costThreshold chunk staticChunk
  have hpool : poolWorkers < 2 ^ 32 := env.pool.threads
  have hpoolPos : 1 ≤ poolWorkers := env.pool.pos
  have hn : 0 < nWorkers := by omega
  have hlt : nWorkers < 2 ^ 32 := by omega
  have hle : nWorkers ≤ desc.iterTotal := by omega
  split
  · exact ⟨.inline, rfl, .inline⟩
  · split
    · rename_i hfree
      have hchunk : 0 < chunk := orderFreeChunk_pos _ _ _
      have hchunkLe : chunk ≤ desc.iterTotal := orderFreeChunk_le hpos
      refine ⟨_, rfl, .pooled hn hlt (.chunks hfree (divCeil_mul_ge hchunk) ?_ fun idx => chunkRange_eq htotal hchunk hchunkLe)⟩
      exact lt_of_le_of_lt (divCeil_le hchunk) htotal
    · rename_i hordered
      refine ⟨_, by rw [staticRanges_eq htotal hn hle]; rfl, .pooled hn hlt (.ranges (by simpa using hordered) ?_)⟩
      rw [Nat.mul_comm]
      exact divCeil_mul_ge hn

theorem dispatch_sound (env : ReduceEnv) (htotal : desc.iterTotal < 2 ^ 63) : ∃ d, dispatch env desc = some d ∧ d.Sound desc := by
  unfold dispatch
  split
  · exact ⟨.empty, rfl, .empty ‹_›⟩
  · split
    · exact ⟨.inline, rfl, .inline⟩
    · split
      · exact ⟨.inline, rfl, .inline⟩
      · exact dispatchPooled_sound htotal (by omega)

/-! The steps of the tasks. -/

variable {n w : ℕ} {mode : Mode} {s s' : ReduceState α}

/-- What one step does. -/
inductive ReduceStep (desc : KaracReduceDescriptor α) (s : ReduceState α) (w : ℕ) : Mode → ReduceState α → Prop
  | start {ranges : List (ℕ × ℕ)} {range : ℕ × ℕ} (hpc : s.tasks[w]? = some .queued) (hrange : ranges[w]? = some range) :
      ReduceStep desc s w (.ranges ranges) (s.call w range)
  | enter {chunk k : ℕ} (hpc : s.tasks[w]? = some .queued) : ReduceStep desc s w (.chunks chunk k) (s.setPc w .pulling)
  | drained {chunk k : ℕ} (hpc : s.tasks[w]? = some .pulling) (hk : k ≤ s.nextChunk) :
      ReduceStep desc s w (.chunks chunk k) ({ s with nextChunk := (s.nextChunk + 1) % 2 ^ 64 }.setPc w .returned)
  | pull {chunk k : ℕ} {range : ℕ × ℕ} (hpc : s.tasks[w]? = some .pulling) (hk : s.nextChunk < k)
      (hrange : chunkRange desc.iterTotal chunk s.nextChunk = some range) :
      ReduceStep desc s w (.chunks chunk k) ({ s with nextChunk := (s.nextChunk + 1) % 2 ^ 64 }.call w range)
  | overflow {chunk k : ℕ} (hpc : s.tasks[w]? = some .pulling) (hk : s.nextChunk < k)
      (hrange : chunkRange desc.iterTotal chunk s.nextChunk = none) :
      ReduceStep desc s w (.chunks chunk k) ({ s with nextChunk := (s.nextChunk + 1) % 2 ^ 64 }.setPc w .overflowed)
  | back {mode : Mode} {start stop : ℕ} (hpc : s.tasks[w]? = some (.calling start stop)) :
      ReduceStep desc s w mode
        { s.setPc w mode.afterCall with slots := s.slots.modify w fun slot => desc.workerFn slot start stop }
  | finish {mode : Mode} (hpc : s.tasks[w]? = some .returned) :
      ReduceStep desc s w mode { s.setPc w .finished with remaining := s.remaining - 1 }

theorem reduceStep_cases (h : reduceStep desc mode s w = some s') : ReduceStep desc s w mode s' := by
  unfold reduceStep at h
  split at h
  · rename_i ranges hpc
    obtain ⟨range, hrange, rfl⟩ := Option.map_eq_some_iff.mp h
    exact .start hpc hrange
  · rename_i hpc
    obtain rfl := Option.some.inj h
    exact .enter hpc
  · rename_i hpc
    dsimp only at h
    split at h
    · obtain rfl := Option.some.inj h
      exact .drained hpc ‹_›
    · split at h
      · obtain rfl := Option.some.inj h
        exact .pull hpc (by omega) ‹_›
      · obtain rfl := Option.some.inj h
        exact .overflow hpc (by omega) ‹_›
  · rename_i hpc
    obtain rfl := Option.some.inj h
    exact .back hpc
  · rename_i hpc
    obtain rfl := Option.some.inj h
    exact .finish hpc
  · exact absurd h (by simp)

/-- The unfinished tasks. -/
def TaskPc.open : TaskPc → ℕ
  | .finished => 0
  | _ => 1

/-- How many steps a task has left before its next draw from the counter, and two for the draw and the call after it. -/
def TaskPc.weight : TaskPc → ℕ
  | .queued => 5
  | .calling _ _ => 4
  | .pulling => 3
  | .returned => 1
  | .finished => 0
  | .overflowed => 0

def Mode.nChunks : Mode → ℕ
  | .ranges _ => 0
  | .chunks _ k => k

def ReduceState.measure (mode : Mode) (s : ReduceState α) : ℕ :=
  (s.tasks.map TaskPc.weight).sum + 2 * (mode.nChunks - s.nextChunk)

/-- The tasks whose worker function is not called again. -/
def TaskPc.back : TaskPc → ℕ
  | .returned => 1
  | .finished => 1
  | _ => 0

/-- What holds of the tasks in both modes: one for each worker, the count of the call says how many are unfinished, each
draw past the last chunk is one task's last, and no task has overflowed. -/
structure ReduceState.Valid (mode : Mode) (n : ℕ) (s : ReduceState α) : Prop where
  tasks : s.tasks.length = n
  remaining : s.remaining = (s.tasks.map TaskPc.open).sum
  counter : s.nextChunk ≤ mode.nChunks + (s.tasks.map TaskPc.back).sum
  overflowed : .overflowed ∉ s.tasks

theorem sum_back_le (tasks : List TaskPc) : (tasks.map TaskPc.back).sum ≤ tasks.length := by
  have hle := List.sum_le_card_nsmul (tasks.map TaskPc.back) 1 fun x hx => by
    obtain ⟨pc, -, rfl⟩ := List.mem_map.mp hx
    cases pc <;> simp [TaskPc.back]
  simpa using hle

theorem launch_valid (hn : n < 2 ^ 32) : (launch desc n).Valid mode n := by
  refine ⟨List.length_replicate, ?_, Nat.zero_le _, fun hmem => ?_⟩
  · simp only [launch, Nat.mod_eq_of_lt hn, List.map_replicate, List.sum_replicate, TaskPc.open, smul_eq_mul, Nat.mul_one]
  · exact absurd (List.eq_of_mem_replicate hmem) (by simp)

/-- The counter does not wrap. -/
theorem ReduceState.Valid.counter_lt (hv : s.Valid mode n) (hn : n < 2 ^ 32) (hk : mode.nChunks < 2 ^ 63) :
    (s.nextChunk + 1) % 2 ^ 64 = s.nextChunk + 1 := by
  have hle := hv.counter
  have hback := sum_back_le s.tasks
  rw [hv.tasks] at hback
  exact Nat.mod_eq_of_lt (by omega)

theorem Mode.Sound.nChunks_lt (h : mode.Sound desc n) : mode.nChunks < 2 ^ 63 := by
  cases h with
  | ranges => exact Nat.two_pow_pos 63
  | chunks _ _ hk _ => exact hk

/-- No chunk that is drawn overflows. -/
theorem Mode.Sound.pull {chunk k : ℕ} {range : Option (ℕ × ℕ)} {idx : ℕ} (h : Mode.Sound desc n (.chunks chunk k)) (hk : idx < k)
    (hrange : chunkRange desc.iterTotal chunk idx = range) : range = some (chunkAt chunk desc.iterTotal idx) := by
  cases h with
  | chunks _ _ _ hall => exact hrange.symm.trans (hall idx hk)

/-- A step moves one task on. -/
theorem ReduceState.Valid.move (hv : s.Valid mode n) {pc pc' : TaskPc} (hpc : s.tasks[w]? = some pc)
    (htasks : s'.tasks = s.tasks.set w pc') (hne : pc' ≠ .overflowed) (hopen : s'.remaining + pc.open = s.remaining + pc'.open)
    (hcounter : s'.nextChunk + pc.back ≤ s.nextChunk + pc'.back ∨ s'.nextChunk ≤ mode.nChunks)
    (hweight : pc'.weight + 2 * (mode.nChunks - s'.nextChunk) < pc.weight + 2 * (mode.nChunks - s.nextChunk)) :
    s'.Valid mode n ∧ s'.measure mode < s.measure mode := by
  have hremaining := hv.remaining
  have hbound := hv.counter
  have hopens := sum_map_set TaskPc.open hpc pc'
  have hbacks := sum_map_set TaskPc.back hpc pc'
  have hweights := sum_map_set TaskPc.weight hpc pc'
  refine ⟨⟨by rw [htasks, List.length_set, hv.tasks], ?_, ?_, ?_⟩, ?_⟩
  · rw [htasks]
    omega
  · rw [htasks]
    omega
  · rw [htasks]
    exact fun hmem => (List.mem_or_eq_of_mem_set hmem).elim hv.overflowed fun heq => hne heq.symm
  · rw [ReduceState.measure, ReduceState.measure, htasks]
    omega

theorem ReduceState.Valid.step (hv : s.Valid mode n) (hn : n < 2 ^ 32) (hm : mode.Sound desc n)
    (h : ReduceStep desc s w mode s') : s'.Valid mode n ∧ s'.measure mode < s.measure mode := by
  have hwrap := hv.counter_lt hn hm.nChunks_lt
  cases h with
  | start hpc hrange => exact hv.move hpc rfl (by simp) rfl (Or.inl le_rfl) (by simp [TaskPc.weight, ReduceState.call, ReduceState.setPc])
  | enter hpc => exact hv.move hpc rfl (by simp) rfl (Or.inl le_rfl) (by simp [TaskPc.weight, ReduceState.setPc])
  | drained hpc hk =>
    refine hv.move hpc rfl (by simp) rfl (Or.inl ?_) ?_
    · simp only [ReduceState.setPc, hwrap, TaskPc.back]
      omega
    · simp only [ReduceState.setPc, hwrap, TaskPc.weight, Mode.nChunks]
      omega
  | pull hpc hk hrange =>
    refine hv.move hpc rfl (by simp) rfl (Or.inr ?_) ?_
    · simp only [ReduceState.call, ReduceState.setPc, hwrap, Mode.nChunks]
      omega
    · simp only [ReduceState.call, ReduceState.setPc, hwrap, TaskPc.weight, Mode.nChunks]
      omega
  | overflow hpc hk hrange => exact absurd (hm.pull hk hrange) (by simp)
  | back hpc =>
    cases mode with
    | ranges => exact hv.move hpc rfl (by simp [Mode.afterCall]) rfl (Or.inl (Nat.le_succ _)) (by simp [TaskPc.weight, ReduceState.setPc, Mode.afterCall])
    | chunks => exact hv.move hpc rfl (by simp [Mode.afterCall]) rfl (Or.inl le_rfl) (by simp [TaskPc.weight, ReduceState.setPc, Mode.afterCall])
  | finish hpc =>
    have hpos : 1 ≤ s.remaining := by
      rw [hv.remaining]
      exact List.single_le_sum (by simp) _ (List.mem_map_of_mem (f := TaskPc.open) (List.mem_of_getElem? hpc))
    refine hv.move hpc rfl (by simp) ?_ (Or.inl le_rfl) (by simp [TaskPc.weight, ReduceState.setPc])
    simp only [TaskPc.open]
    omega

/-! What the worker function has been called for. -/

/-- The workers whose task has started. -/
def ReduceState.started (n : ℕ) (s : ReduceState α) : Finset ℕ := (Finset.range n).filter fun w => s.tasks[w]? ≠ some .queued

/-- What a worker's slot is worth while its task is this far. -/
def TaskPc.SlotIs (desc : KaracReduceDescriptor α) (range : ℕ × ℕ) (slot : α) : TaskPc → Prop
  | .queued => slot = desc.initSlot
  | .calling start stop => range = (start, stop) ∧ slot = desc.initSlot
  | .returned => slot = desc.workerFn desc.initSlot range.1 range.2
  | .finished => slot = desc.workerFn desc.initSlot range.1 range.2
  | .pulling => False
  | .overflowed => False

/-- With fixed ranges: the started workers' ranges have been handed out, and those whose function is back are in the slots. -/
structure RangesHistory (desc : KaracReduceDescriptor α) (ranges : List (ℕ × ℕ)) (n : ℕ) (s : ReduceState α) : Prop where
  calls : (s.calls : Multiset (ℕ × ℕ)) = (s.started n).val.map fun w => ranges.getD w (0, 0)
  slots : s.slots.length = n
  slotIs : ∀ (w : ℕ) (pc : TaskPc) (slot : α), s.tasks[w]? = some pc → s.slots[w]? = some slot →
    pc.SlotIs desc (ranges.getD w (0, 0)) slot

variable {ranges : List (ℕ × ℕ)}

theorem launch_ranges : RangesHistory desc ranges n (launch desc n) := by
  refine ⟨?_, List.length_replicate, fun w pc slot hpc hslot => ?_⟩
  · have hnone : (launch desc n).started n = ∅ := by
      refine Finset.filter_eq_empty_iff.mpr fun w hw hne => hne ?_
      exact List.getElem?_replicate_of_lt (Finset.mem_range.mp hw)
    rw [hnone]
    rfl
  · obtain rfl : pc = .queued := List.eq_of_mem_replicate (List.mem_of_getElem? hpc)
    exact List.eq_of_mem_replicate (List.mem_of_getElem? hslot)

/-- A task that has started stays so, and no other starts with it. -/
theorem started_set {pc pc' : TaskPc} (hpc : s.tasks[w]? = some pc) (hne : pc ≠ .queued) (hne' : pc' ≠ .queued)
    (htasks : s'.tasks = s.tasks.set w pc') : s'.started n = s.started n := by
  refine Finset.filter_congr fun v _ => ?_
  rw [htasks, List.getElem?_set]
  split
  · rename_i heq
    subst heq
    obtain ⟨hlt, -⟩ := List.getElem?_eq_some_iff.mp hpc
    rw [if_pos hlt, hpc]
    simp [hne, hne']
  · rfl

theorem started_start {pc' : TaskPc} (hpc : s.tasks[w]? = some .queued) (hw : w < n) (hne' : pc' ≠ .queued)
    (htasks : s'.tasks = s.tasks.set w pc') : w ∉ s.started n ∧ s'.started n = insert w (s.started n) := by
  have hlt := (List.getElem?_eq_some_iff.mp hpc).1
  refine ⟨fun hmem => (Finset.mem_filter.mp hmem).2 hpc, Finset.ext fun v => ?_⟩
  rw [Finset.mem_insert, ReduceState.started, ReduceState.started, Finset.mem_filter, Finset.mem_filter, htasks, List.getElem?_set]
  split
  · rename_i heq
    subst heq
    simp [hlt, hw, hne']
  · rename_i hvw
    simp [Ne.symm hvw]

/-- A step leaves the other workers' tasks and slots alone. -/
theorem RangesHistory.move (hs : RangesHistory desc ranges n s) {pc pc' : TaskPc} (hpc : s.tasks[w]? = some pc)
    (htasks : s'.tasks = s.tasks.set w pc') {f : α → α} (hslots : s'.slots = s.slots.modify w f)
    (hcalls : (s'.calls : Multiset (ℕ × ℕ)) = (s'.started n).val.map fun w => ranges.getD w (0, 0))
    (hmove : ∀ slot, pc.SlotIs desc (ranges.getD w (0, 0)) slot →
      pc'.SlotIs desc (ranges.getD w (0, 0)) (f slot)) : RangesHistory desc ranges n s' := by
  refine ⟨hcalls, by rw [hslots, List.length_modify, hs.slots], fun v pcv slot hpcv hslot => ?_⟩
  rw [htasks, List.getElem?_set] at hpcv
  rw [hslots, List.getElem?_modify] at hslot
  obtain ⟨old, hold, rfl⟩ := Option.map_eq_some_iff.mp hslot
  have hlt := (List.getElem?_eq_some_iff.mp hpc).1
  split at hpcv
  · rename_i heq
    subst heq
    obtain rfl := Option.some.inj hpcv
    rw [if_pos rfl]
    exact hmove old (hs.slotIs w pc old hpc hold)
  · rw [if_neg ‹_›]
    exact hs.slotIs v pcv old hpcv hold

theorem RangesHistory.step (hs : RangesHistory desc ranges n s) (hlen : s.tasks.length = n)
    (h : ReduceStep desc s w (.ranges ranges) s') : RangesHistory desc ranges n s' := by
  cases h with
  | @start _ range hpc hrange =>
    have hw : w < n := hlen ▸ (List.getElem?_eq_some_iff.mp hpc).1
    have hget : ranges.getD w (0, 0) = range := by rw [List.getD_eq_getElem?_getD, hrange, Option.getD_some]
    have htasks : (s.call w range).tasks = s.tasks.set w (.calling range.1 range.2) := rfl
    obtain ⟨hnew, hstarted⟩ := started_start hpc hw (by simp) htasks
    refine hs.move hpc rfl (f := id) (by simp [ReduceState.call, ReduceState.setPc]) ?_ fun slot hslot => ⟨hget, hslot⟩
    rw [hstarted, Finset.insert_val_of_notMem hnew, Multiset.map_cons, ← hs.calls, hget]
    exact Multiset.coe_eq_coe.mpr (List.perm_append_singleton _ _)
  | back hpc =>
    refine hs.move hpc rfl rfl ?_ fun slot ⟨hrange, hslot⟩ => ?_
    · rw [started_set hpc (by simp) (by simp [Mode.afterCall]) rfl]
      exact hs.calls
    · rw [hslot, hrange]
      rfl
  | finish hpc =>
    refine hs.move hpc rfl (f := id) (by simp [ReduceState.setPc]) ?_ fun slot hslot => hslot
    rw [started_set hpc (by simp) (by simp) rfl]
    exact hs.calls

/-- With chunks drawn from the counter: those below it have been handed out, and a task that is back has found none left. -/
structure ChunksHistory (desc : KaracReduceDescriptor α) (chunk k : ℕ) (s : ReduceState α) : Prop where
  calls : s.calls = (List.range (min s.nextChunk k)).map (chunkAt chunk desc.iterTotal)
  back : ∀ pc ∈ s.tasks, pc.back = 1 → k ≤ s.nextChunk

theorem launch_chunks {chunk k : ℕ} : ChunksHistory desc chunk k (launch desc n) := by
  refine ⟨by simp [launch], fun pc hmem hback => ?_⟩
  obtain rfl := List.eq_of_mem_replicate hmem
  exact absurd hback (by simp [TaskPc.back])

theorem ChunksHistory.step {chunk k : ℕ} (hs : ChunksHistory desc chunk k s) (hv : s.Valid (.chunks chunk k) n)
    (hn : n < 2 ^ 32) (hm : Mode.Sound desc n (.chunks chunk k)) (h : ReduceStep desc s w (.chunks chunk k) s') :
    ChunksHistory desc chunk k s' := by
  have hwrap := hv.counter_lt hn hm.nChunks_lt
  have hset {pc' pc : TaskPc} (hmem : pc ∈ s.tasks.set w pc') (hback : pc.back = 1) : pc'.back = 1 ∨ k ≤ s.nextChunk := by
    rcases List.mem_or_eq_of_mem_set hmem with hold | rfl
    · exact Or.inr (hs.back pc hold hback)
    · exact Or.inl hback
  cases h with
  | enter hpc => exact ⟨hs.calls, fun pc hmem hback => (hset hmem hback).resolve_left (by simp [TaskPc.back])⟩
  | drained hpc hk =>
    refine ⟨?_, fun pc _ _ => ?_⟩
    · simp only [ReduceState.setPc, hwrap]
      rw [hs.calls, Nat.min_eq_right hk, Nat.min_eq_right (by omega)]
    · simp only [ReduceState.setPc, hwrap]
      omega
  | pull hpc hk hrange =>
    obtain rfl := Option.some.inj (hm.pull hk hrange)
    refine ⟨?_, fun pc hmem hback => ?_⟩
    · simp only [ReduceState.call, ReduceState.setPc, hwrap]
      rw [hs.calls, Nat.min_eq_left (by omega), Nat.min_eq_left (by omega), List.range_succ, List.map_append, List.map_singleton]
    · rcases hset hmem hback with hzero | hle
      · exact absurd hzero (by simp [TaskPc.back])
      · omega
  | overflow hpc hk hrange => exact absurd (hm.pull hk hrange) (by simp)
  | back hpc => exact ⟨hs.calls, fun pc hmem hback => (hset hmem hback).resolve_left (by simp [TaskPc.back, Mode.afterCall])⟩
  | finish hpc =>
    refine ⟨hs.calls, fun pc hmem hback => (hset hmem hback).elim (fun _ => ?_) id⟩
    exact hs.back .returned (List.mem_of_getElem? hpc) rfl

/-! Whole runs. -/

/-- What the steps so far have done. -/
inductive Recorded (desc : KaracReduceDescriptor α) (n : ℕ) (s : ReduceState α) : Mode → Prop
  | ranges {ranges : List (ℕ × ℕ)} (h : RangesHistory desc ranges n s) : Recorded desc n s (.ranges ranges)
  | chunks {chunk k : ℕ} (h : ChunksHistory desc chunk k s) : Recorded desc n s (.chunks chunk k)

theorem launch_recorded (hm : mode.Sound desc n) : Recorded desc n (launch desc n) mode := by
  cases hm with
  | ranges => exact .ranges launch_ranges
  | chunks => exact .chunks launch_chunks

theorem Recorded.step (hr : Recorded desc n s mode) (hv : s.Valid mode n) (hn : n < 2 ^ 32) (hm : mode.Sound desc n)
    (h : ReduceStep desc s w mode s') : Recorded desc n s' mode := by
  cases hr with
  | ranges hr => exact .ranges (hr.step hv.tasks h)
  | chunks hr => exact .chunks (hr.step hv hn hm h)

theorem run_sound (hn : n < 2 ^ 32) (hm : mode.Sound desc n) {schedule : List ℕ}
    (h : runSteps (reduceStep desc mode) (launch desc n) schedule = some s) : s.Valid mode n ∧ Recorded desc n s mode := by
  refine runSteps_preserves (I := fun s => s.Valid mode n ∧ Recorded desc n s mode) (fun t w t' ht hstep => ?_)
    ⟨launch_valid hn, launch_recorded hm⟩ h
  have hcase := reduceStep_cases hstep
  exact ⟨(ht.1.step hn hm hcase).1, ht.2.step ht.1 hn hm hcase⟩

/-- No order of the steps is longer than the work that there is. -/
theorem run_length_le (hn : n < 2 ^ 32) (hm : mode.Sound desc n) (hv : s.Valid mode n) {schedule : List ℕ}
    (h : runSteps (reduceStep desc mode) s schedule = some s') : schedule.length + s'.measure mode ≤ s.measure mode := by
  induction schedule generalizing s with
  | nil =>
    obtain rfl := Option.some.inj h
    simp
  | cons w schedule ih =>
    obtain ⟨t, ht, hrun⟩ := runSteps_cons.mp h
    obtain ⟨hv', hlt⟩ := hv.step hn hm (reduceStep_cases ht)
    have hle := ih hv' hrun
    rw [List.length_cons]
    omega

theorem finished_of_remaining (hv : s.Valid mode n) (h : s.remaining = 0) : ∀ pc ∈ s.tasks, pc = .finished := by
  intro pc hpc
  have hzero : pc.open = 0 :=
    List.sum_eq_zero_iff.mp (hv.remaining.symm.trans h) _ (List.mem_map_of_mem hpc)
  cases pc <;> first | rfl | exact absurd hzero (by simp [TaskPc.open])

/-- While a task remains one of them can go on. -/
theorem exists_reduceStep (hm : mode.Sound desc n) (hv : s.Valid mode n) (hr : Recorded desc n s mode) (h : s.remaining ≠ 0) :
    ∃ w s', reduceStep desc mode s w = some s' := by
  have hopen : ∃ pc ∈ s.tasks, pc.open ≠ 0 := by
    by_contra hall
    push Not at hall
    refine h (hv.remaining.trans (List.sum_eq_zero fun x hx => ?_))
    obtain ⟨pc, hpc, rfl⟩ := List.mem_map.mp hx
    exact hall pc hpc
  obtain ⟨pc, hmem, hpc⟩ := hopen
  obtain ⟨w, hw⟩ := List.mem_iff_getElem?.mp hmem
  have hlt : w < n := hv.tasks ▸ (List.getElem?_eq_some_iff.mp hw).1
  refine ⟨w, ?_⟩
  unfold reduceStep
  rw [hw]
  cases pc with
  | queued =>
    cases hm with
    | ranges => exact ⟨_, Option.map_eq_some_iff.mpr ⟨_, by rw [List.getElem?_map, List.getElem?_range hlt, Option.map_some], rfl⟩⟩
    | chunks => exact ⟨_, rfl⟩
  | pulling =>
    cases hr with
    | ranges hr =>
      have hslot : w < s.slots.length := hr.slots ▸ hlt
      exact (hr.slotIs w .pulling _ hw (List.getElem?_eq_getElem hslot)).elim
    | chunks =>
      dsimp only
      split
      · exact ⟨_, rfl⟩
      · split <;> exact ⟨_, rfl⟩
  | calling => exact ⟨_, rfl⟩
  | returned => exact ⟨_, rfl⟩
  | finished => exact absurd rfl hpc
  | overflowed => exact absurd hmem hv.overflowed

/-- From wherever the run is it can be brought to the join. -/
theorem exists_completion (hn : n < 2 ^ 32) (hm : mode.Sound desc n) (hv : s.Valid mode n) (hr : Recorded desc n s mode) :
    ∃ more s', runSteps (reduceStep desc mode) s more = some s' ∧ s'.remaining = 0 := by
  induction hb : s.measure mode using Nat.strong_induction_on generalizing s with
  | _ b ih =>
    by_cases hzero : s.remaining = 0
    · exact ⟨[], s, rfl, hzero⟩
    · obtain ⟨w, t, ht⟩ := exists_reduceStep hm hv hr hzero
      have hcase := reduceStep_cases ht
      obtain ⟨hv', hlt⟩ := hv.step hn hm hcase
      obtain ⟨more, s', hrun, hdone⟩ := ih _ (hb ▸ hlt) hv' (hr.step hv hn hm hcase) rfl
      exact ⟨w :: more, s', runSteps_cons.mpr ⟨t, ht, hrun⟩, hdone⟩

/-- The ranges that the tasks hand to the worker function, all in all. -/
def Mode.handedOut (total : ℕ) : Mode → List (ℕ × ℕ)
  | .ranges ranges => ranges
  | .chunks chunk k => (List.range k).map (chunkAt chunk total)

theorem Mode.Sound.handedOut (hm : mode.Sound desc n) :
    ∃ size k, mode.handedOut desc.iterTotal = (List.range k).map (chunkAt size desc.iterTotal) ∧ desc.iterTotal ≤ k * size := by
  cases hm with
  | ranges _ hcover => exact ⟨_, n, rfl, hcover⟩
  | chunks _ hcover => exact ⟨_, _, rfl, hcover⟩

/-- At the join the worker function has been called once for each range. -/
theorem calls_of_joined (hpos : 0 < n) (hm : mode.Sound desc n) (hv : s.Valid mode n) (hr : Recorded desc n s mode)
    (h : s.remaining = 0) : s.calls.Perm (mode.handedOut desc.iterTotal) := by
  have hdone := finished_of_remaining hv h
  cases hm with
  | @ranges size hordered hcover =>
    cases hr with
    | ranges hr =>
      have hall : s.started n = Finset.range n := by
        refine Finset.filter_true_of_mem fun w hw hqueued => ?_
        exact absurd (hdone _ (List.mem_of_getElem? hqueued)) (by simp)
      refine Multiset.coe_eq_coe.mp (hr.calls.trans ?_)
      rw [hall, Finset.range_val]
      refine congrArg _ (List.map_congr_left fun w hw => ?_)
      simp [List.mem_range.mp hw]
  | chunks hfree hcover hk hrange =>
    cases hr with
    | chunks hr =>
      obtain ⟨pc, hpc⟩ : ∃ pc, pc ∈ s.tasks := List.exists_mem_of_length_pos (hv.tasks ▸ hpos)
      have hend := hr.back pc hpc (by rw [hdone pc hpc]; rfl)
      rw [hr.calls, Nat.min_eq_right hend, Mode.handedOut]

/-- At the join the calls cover the range. -/
theorem covers_of_joined (hpos : 0 < n) (hm : mode.Sound desc n) (hv : s.Valid mode n) (hr : Recorded desc n s mode)
    (h : s.remaining = 0) : Covers desc.iterTotal s.calls := by
  obtain ⟨size, k, hall, hcover⟩ := hm.handedOut
  exact .of_chunks hcover (hall ▸ calls_of_joined hpos hm hv hr h)

/-- The descriptor's functions fold the loop's items with an operation, and a slot starts with its identity. -/
structure Folding (desc : KaracReduceDescriptor α) (op : α → α → α) (item : ℕ → α) : Prop where
  assoc : Std.Associative op
  identity : Std.LawfulIdentity op desc.initSlot
  worker : ∀ slot start stop, desc.workerFn slot start stop = ((between start stop).map item).foldl op slot
  combine : ∀ dst src, desc.combineFn dst src = op dst src

variable {op : α → α → α} {item : ℕ → α}

/-- The loop in one thread. -/
def sequentialFold (desc : KaracReduceDescriptor α) (op : α → α → α) (item : ℕ → α) : α :=
  ((List.range desc.iterTotal).map item).foldl op desc.initSlot

theorem Folding.foldl_slots (h : Folding desc op item) {size : ℕ} (hcover : desc.iterTotal ≤ n * size) :
    ((List.range n).map fun w =>
      desc.workerFn desc.initSlot (chunkAt size desc.iterTotal w).1 (chunkAt size desc.iterTotal w).2).foldl
        desc.combineFn desc.initSlot = sequentialFold desc op item := by
  have hassoc := h.assoc
  have hidentity := h.identity
  have hcombine : desc.combineFn = op := funext₂ h.combine
  have hvisits := visits_chunks size desc.iterTotal n
  rw [Nat.min_eq_right hcover] at hvisits
  simp only [h.worker, hcombine]
  rw [← foldl_flatMap_op op desc.initSlot (fun w =>
    (between (chunkAt size desc.iterTotal w).1 (chunkAt size desc.iterTotal w).2).map item), sequentialFold, ← hvisits,
    visits, List.flatMap_map, List.map_flatMap]

/-- At the join of fixed ranges the slots fold to the loop. -/
theorem join_eq_fold (hfold : Folding desc op item) (hordered : desc.orderFree = false) (hm : mode.Sound desc n)
    (hv : s.Valid mode n) (hr : Recorded desc n s mode) (h : s.remaining = 0) :
    s.slots.foldl desc.combineFn desc.initSlot = sequentialFold desc op item := by
  have hdone := finished_of_remaining hv h
  cases hm with
  | @ranges size _ hcover =>
    cases hr with
    | ranges hr =>
      rw [← hfold.foldl_slots hcover]
      congr 1
      refine List.ext_getElem (by rw [hr.slots, List.length_map, List.length_range]) fun w hw hw' => ?_
      have hlt : w < n := hr.slots ▸ hw
      have hpc : s.tasks[w]? = some .finished := by
        have htask := List.getElem?_eq_getElem (hv.tasks.symm ▸ hlt : w < s.tasks.length)
        rwa [hdone _ (List.getElem_mem _)] at htask
      have hslot := hr.slotIs w .finished s.slots[w] hpc (List.getElem?_eq_getElem hw)
      simpa [TaskPc.SlotIs, hlt] using hslot
  | chunks hfree => exact absurd (hordered.symm.trans hfree) (by simp)

/-! The reduction. -/

/-- A reduction does what its loop does in one thread: the range is split without an overflow, all orders of the workers'
steps end and can be continued to the join, each index is in one call of the worker function, and, unless the order is
free, the result is the fold of the items in their order. -/
structure Reduces (env : ReduceEnv) (desc : KaracReduceDescriptor α) (op : α → α → α) (item : ℕ → α) : Prop where
  dispatched : dispatch env desc ≠ none
  overflow : ∀ n mode schedule s, dispatch env desc = some (.pooled n mode) →
    runSteps (reduceStep desc mode) (launch desc n) schedule = some s → .overflowed ∉ s.tasks
  ends : ∀ n mode, dispatch env desc = some (.pooled n mode) → ∃ bound, ∀ schedule s,
    runSteps (reduceStep desc mode) (launch desc n) schedule = some s →
      schedule.length ≤ bound ∧ ∃ more o, karacParReduce desc env (schedule ++ more) = some o
  covers : ∀ schedule o, karacParReduce desc env schedule = some o → Covers desc.iterTotal o.calls
  ordered : ∀ schedule o, karacParReduce desc env schedule = some o → desc.orderFree = false →
    o.out = sequentialFold desc op item

theorem dispatched_pooled (htotal : desc.iterTotal < 2 ^ 63) (h : dispatch env desc = some (.pooled n mode)) :
    0 < n ∧ n < 2 ^ 32 ∧ mode.Sound desc n := by
  obtain ⟨d, hd, hsound⟩ := dispatch_sound env htotal
  obtain rfl := Option.some.inj (h.symm.trans hd)
  cases hsound with
  | pooled hpos hn hm => exact ⟨hpos, hn, hm⟩

theorem calls_of_pooled (htotal : desc.iterTotal < 2 ^ 63) (hd : dispatch env desc = some (.pooled n mode)) {schedule : List ℕ}
    {o : ReduceOutcome α} (h : karacParReduce desc env schedule = some o) : o.calls.Perm (mode.handedOut desc.iterTotal) := by
  obtain ⟨hpos, hn, hm⟩ := dispatched_pooled htotal hd
  rw [karacParReduce, hd, Option.bind_some] at h
  obtain ⟨s, hrun, hjoin⟩ := Option.bind_eq_some_iff.mp h
  obtain ⟨hv, hr⟩ := run_sound hn hm hrun
  unfold join at hjoin
  split at hjoin
  · obtain rfl := Option.some.inj hjoin
    exact calls_of_joined hpos hm hv hr ‹_›
  · exact absurd hjoin (by simp)

/-- All orders of the steps end, and each can be continued to the join. -/
theorem ends_of_pooled (htotal : desc.iterTotal < 2 ^ 63) (hd : dispatch env desc = some (.pooled n mode)) : ∃ bound, ∀ schedule s,
    runSteps (reduceStep desc mode) (launch desc n) schedule = some s →
      schedule.length ≤ bound ∧ ∃ more o, karacParReduce desc env (schedule ++ more) = some o := by
  obtain ⟨-, hn, hm⟩ := dispatched_pooled htotal hd
  refine ⟨(launch desc n).measure mode, fun schedule s hrun => ?_⟩
  have hlength := run_length_le hn hm (launch_valid hn) hrun
  obtain ⟨hv, hr⟩ := run_sound hn hm hrun
  obtain ⟨more, s', hmore, hzero⟩ := exists_completion hn hm hv hr
  refine ⟨by omega, more, ⟨s'.slots.foldl desc.combineFn desc.initSlot, s'.calls⟩, ?_⟩
  rw [karacParReduce, hd, Option.bind_some]
  exact Option.bind_eq_some_iff.mpr ⟨s', runSteps_append hrun hmore, if_pos hzero⟩

/-- How a call that is back got there: without tasks, with one call of the worker function, or through the join. -/
inductive Finished (env : ReduceEnv) (desc : KaracReduceDescriptor α) : ReduceOutcome α → Prop
  | empty (h : desc.iterTotal = 0) : Finished env desc ⟨desc.initSlot, []⟩
  | inline : Finished env desc ⟨desc.workerFn desc.initSlot 0 desc.iterTotal, [(0, desc.iterTotal)]⟩
  | joined {n : ℕ} {mode : Mode} {s : ReduceState α} (hpos : 0 < n) (hm : mode.Sound desc n) (hv : s.Valid mode n)
      (hr : Recorded desc n s mode) (h : s.remaining = 0) :
      Finished env desc ⟨s.slots.foldl desc.combineFn desc.initSlot, s.calls⟩

theorem finished_of_karacParReduce (htotal : desc.iterTotal < 2 ^ 63) {schedule : List ℕ} {o : ReduceOutcome α}
    (h : karacParReduce desc env schedule = some o) : Finished env desc o := by
  obtain ⟨d, hd, hsound⟩ := dispatch_sound env htotal
  rw [karacParReduce, hd, Option.bind_some] at h
  cases hsound with
  | empty hzero =>
    obtain rfl := Option.some.inj h
    exact .empty hzero
  | inline =>
    obtain rfl := Option.some.inj h
    exact .inline
  | pooled hpos hn hm =>
    obtain ⟨s, hrun, hjoin⟩ := Option.bind_eq_some_iff.mp h
    obtain ⟨hv, hr⟩ := run_sound hn hm hrun
    unfold join at hjoin
    split at hjoin
    · obtain rfl := Option.some.inj hjoin
      exact .joined hpos hm hv hr ‹_›
    · exact absurd hjoin (by simp)

theorem Finished.covers {o : ReduceOutcome α} (h : Finished env desc o) : Covers desc.iterTotal o.calls := by
  cases h with
  | empty hzero => exact .of_perm (by simp [visits, hzero])
  | inline => exact .of_perm (by simp [visits, between_zero])
  | joined hpos hm hv hr hzero => exact covers_of_joined hpos hm hv hr hzero

theorem Finished.ordered {o : ReduceOutcome α} (h : Finished env desc o) (hfold : Folding desc op item)
    (hordered : desc.orderFree = false) : o.out = sequentialFold desc op item := by
  cases h with
  | empty hzero => rw [sequentialFold, hzero, List.range_zero, List.map_nil, List.foldl_nil]
  | inline => rw [hfold.worker, between_zero, sequentialFold]
  | joined _ hm hv hr hzero => exact join_eq_fold hfold hordered hm hv hr hzero

/-- Every reduction does what its loop does. -/
theorem par_reduce_eq_fold (env : ReduceEnv) (htotal : desc.iterTotal < 2 ^ 63) (hfold : Folding desc op item) :
    Reduces env desc op item where
  dispatched := by
    obtain ⟨d, hd, -⟩ := dispatch_sound env htotal
    rw [hd]
    simp
  overflow n mode schedule s hd hrun := by
    obtain ⟨-, hn, hm⟩ := dispatched_pooled htotal hd
    exact (run_sound hn hm hrun).1.overflowed
  ends n mode hd := ends_of_pooled htotal hd
  covers _ _ h := (finished_of_karacParReduce htotal h).covers
  ordered _ _ h := (finished_of_karacParReduce htotal h).ordered hfold

/-- Ten items in a list on three workers: an operation that does not commute. -/
def listing (flag : BitVec 64) : KaracReduceDescriptor (List ℕ) where
  iterTotal := 10
  initSlot := []
  workerFn slot start stop := slot ++ between start stop
  combineFn dst src := dst ++ src
  perIterCostUnits := flag

def threeWorkers : ReduceEnv := ⟨true, ⟨3, by decide, by decide⟩, none, none, 0⟩

theorem par_reduce_eq_fold_listing : Reduces threeWorkers (listing 0) (· ++ ·) ([·]) ∧
    (listing 0).iterTotal < 2 ^ 63 ∧ (karacParReduce (listing 0) threeWorkers [2, 0, 1, 1, 2, 0, 0, 2, 1]).map (·.out) =
      some [0, 1, 2, 3, 4, 5, 6, 7, 8, 9] := by
  refine ⟨par_reduce_eq_fold threeWorkers (by decide) ⟨⟨List.append_assoc⟩, ?_, fun slot start stop => ?_, fun _ _ => rfl⟩,
    by decide, by decide⟩
  · exact { left_id := List.nil_append, right_id := List.append_nil }
  · have hfold (l : List ℕ) (slot : List ℕ) : (l.map ([·])).foldl (· ++ ·) slot = slot ++ l := by
      induction l generalizing slot with
      | nil => simp
      | cons x l ih => rw [List.map_cons, List.foldl_cons, ih, List.append_assoc, List.singleton_append]
    exact (hfold _ _).symm

end Karac.Runtime
