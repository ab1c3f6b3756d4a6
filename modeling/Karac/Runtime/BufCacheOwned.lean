import Karac.Runtime.BufCache

/-! The buffer cache conserves ownership: in every run of the threads each live block is the program's, a call's or one
slot's, a request gets a block that holds it, and the total and the brackets stay within their limits. -/

namespace Karac.Runtime.BufCache

/-! The cache under its lock. -/

variable {c : Cache} {size ptr usable : ℕ}

theorem foldl_better {l : List SlotIndex} {best : Option SlotIndex} {i : SlotIndex}
    (h : l.foldl (better c size) best = some i) :
    best = some i ∨ (c.slots i).ptr ≠ 0 ∧ size ≤ (c.slots i).usable := by
  induction l generalizing best with
  | nil => exact .inl h
  | cons j l ih =>
    obtain hbest | hfit := ih h
    · unfold better at hbest
      split_ifs at hbest with hj
      · obtain rfl := Option.some.inj hbest
        exact .inr ⟨hj.1, hj.2.1⟩
      · exact .inl hbest
    · exact .inr hfit

theorem bestFit_fits {i : SlotIndex} (h : bestFit c size = some i) : (c.slots i).ptr ≠ 0 ∧ size ≤ (c.slots i).usable :=
  (foldl_better h).resolve_left (Option.some_ne_none i).symm

theorem take_cases (size : ℕ) (c : Cache) : take size c = (0, c) ∨
    ∃ i, (c.slots i).ptr ≠ 0 ∧ size ≤ (c.slots i).usable ∧
      take size c = ((c.slots i).ptr, ⟨Function.update c.slots i ⟨0, 0⟩, c.total - (c.slots i).usable⟩) := by
  unfold take
  cases hbest : bestFit c size with
  | none => exact .inl rfl
  | some i =>
    obtain ⟨hptr, hfits⟩ := bestFit_fits hbest
    exact .inr ⟨i, hptr, hfits, rfl⟩

/-- A parked buffer in the bracket of `usable`. -/
def Shares (c : Cache) (usable : ℕ) (i : SlotIndex) : Prop :=
  (c.slots i).ptr ≠ 0 ∧ bracket (c.slots i).usable = bracket usable

instance : DecidablePred (Shares c usable) := fun _ => inferInstanceAs (Decidable (_ ∧ _))

theorem scan_spec {found : Option SlotIndex × ℕ} (hbound : found.2 + 1 ≤ usizeMax) (j : SlotIndex) :
    (∀ i, (scan c usable found j).1 = some i → found.1 = some i ∨ (c.slots i).ptr = 0) ∧
      (scan c usable found j).2 = found.2 + if Shares c usable j then 1 else 0 := by
  unfold scan
  by_cases hempty : (c.slots j).ptr = 0
  · have hnot : ¬Shares c usable j := fun h => h.1 hempty
    rw [if_pos hempty, if_neg hnot]
    refine ⟨fun i hi => ?_, rfl⟩
    obtain h | ⟨-, h⟩ := Option.or_eq_some_iff.mp hi
    · exact .inl h
    · obtain rfl := Option.some.inj h
      exact .inr hempty
  · rw [if_neg hempty]
    by_cases hbr : bracket (c.slots j).usable = bracket usable
    · have hshares : Shares c usable j := ⟨hempty, hbr⟩
      rw [if_pos hbr, if_pos hshares]
      exact ⟨fun i hi => .inl hi, min_eq_left hbound⟩
    · have hnot : ¬Shares c usable j := fun h => hbr h.2
      rw [if_neg hbr, if_neg hnot]
      exact ⟨fun i hi => .inl hi, rfl⟩

/-- The scan finds an empty slot and counts the bracket. -/
theorem foldl_scan (l : List SlotIndex) (found : Option SlotIndex × ℕ) (hbound : found.2 + l.length ≤ usizeMax) :
    (∀ i, (l.foldl (scan c usable) found).1 = some i → found.1 = some i ∨ (c.slots i).ptr = 0) ∧
      (l.foldl (scan c usable) found).2 = found.2 + l.countP (fun i => decide (Shares c usable i)) := by
  induction l generalizing found with
  | nil => exact ⟨fun i h => .inl h, rfl⟩
  | cons j l ih =>
    rw [List.length_cons] at hbound
    obtain ⟨hslot, hn⟩ := @scan_spec c usable found (by omega) j
    have hle : (scan c usable found j).2 ≤ found.2 + 1 := by
      rw [hn]
      split_ifs <;> omega
    obtain ⟨hfound, hcount⟩ := ih (scan c usable found j) (by omega)
    refine ⟨fun i hi => (hfound i hi).elim (hslot i) .inr, ?_⟩
    rw [List.foldl_cons, hcount, hn, List.countP_cons]
    simp only [decide_eq_true_eq]
    omega

theorem countP_finRange (c : Cache) (usable : ℕ) :
    (List.finRange 16).countP (fun i => decide (Shares c usable i)) = (Finset.univ.filter (Shares c usable)).card := by
  rw [List.countP_eq_length_filter]
  rfl

theorem put_cases (ptr usable : ℕ) (c : Cache) : put ptr usable c = (false, c) ∨
    ∃ i, (c.slots i).ptr = 0 ∧ bufCacheMinBytes ≤ usable ∧ c.total + usable ≤ maxTotal ∧
      (Finset.univ.filter (Shares c usable)).card < bracketSlots ∧
      put ptr usable c = (true, ⟨Function.update c.slots i ⟨ptr, usable⟩, c.total + usable⟩) := by
  unfold put
  split_ifs with hmin
  · unfold park
    split_ifs with hcap
    · exact .inl rfl
    · have hsum : satAdd c.total usable = c.total + usable := by
        unfold satAdd at hcap ⊢
        unfold maxTotal usizeMax at *
        omega
      obtain ⟨hfound, hcount⟩ := @foldl_scan c usable (List.finRange 16) (none, 0) (by simp [usizeMax])
      rw [countP_finRange, Nat.zero_add] at hcount
      simp only
      split_ifs with hfull
      · exact .inl rfl
      · cases hslot : ((List.finRange 16).foldl (scan c usable) (none, 0)).1 with
        | none => exact .inl rfl
        | some i =>
          obtain hnone | hempty := hfound i hslot
          · cases hnone
          · exact .inr ⟨i, hempty, hmin, hsum ▸ not_lt.mp hcap, hcount ▸ not_le.mp hfull, by rw [hsum]⟩
  · exact .inl rfl

/-- What the cache alone conserves. -/
structure Cache.Valid (c : Cache) : Prop where
  empty : ∀ i, (c.slots i).ptr = 0 → (c.slots i).usable = 0
  total : c.total = ∑ i, (c.slots i).usable
  cap : c.total ≤ maxTotal
  brackets : ∀ k, (c.inBracket k).card ≤ bracketSlots

theorem valid_init : Cache.init.Valid where
  empty _ _ := rfl
  total := by simp [Cache.init]
  cap := Nat.zero_le _
  brackets k := by simp [Cache.inBracket, Cache.init]

theorem sum_update (slots : SlotIndex → Slot) (i : SlotIndex) (v : Slot) :
    (∑ j, (Function.update slots i v j).usable) + (slots i).usable = (∑ j, (slots j).usable) + v.usable := by
  rw [← Finset.add_sum_erase _ _ (Finset.mem_univ i),
    ← Finset.add_sum_erase (f := fun j => (slots j).usable) _ (Finset.mem_univ i), Function.update_self]
  have hrest : ∑ j ∈ Finset.univ.erase i, (Function.update slots i v j).usable =
      ∑ j ∈ Finset.univ.erase i, (slots j).usable :=
    Finset.sum_congr rfl fun j hj => by rw [Function.update_of_ne (Finset.ne_of_mem_erase hj)]
  rw [hrest]
  omega

theorem usable_le_sum (c : Cache) (i : SlotIndex) : (c.slots i).usable ≤ ∑ j, (c.slots j).usable :=
  Finset.single_le_sum (f := fun j => (c.slots j).usable) (fun _ _ => Nat.zero_le _) (Finset.mem_univ i)

theorem valid_take (h : c.Valid) (i : SlotIndex) :
    Cache.Valid ⟨Function.update c.slots i ⟨0, 0⟩, c.total - (c.slots i).usable⟩ where
  empty j hj := by
    by_cases hji : j = i
    · simp [hji]
    · simp only [Function.update_of_ne hji] at hj ⊢
      exact h.empty j hj
  total := by
    have hsum := sum_update c.slots i ⟨0, 0⟩
    have hle := usable_le_sum c i
    rw [h.total]
    simp only at hsum ⊢
    omega
  cap := (Nat.sub_le _ _).trans h.cap
  brackets k := by
    refine (Finset.card_le_card fun j hj => ?_).trans (h.brackets k)
    simp only [Cache.inBracket, Finset.mem_filter, Finset.mem_univ, true_and] at hj ⊢
    by_cases hji : j = i
    · simp [hji] at hj
    · rwa [Function.update_of_ne hji] at hj

theorem bracket_eq {u k : ℕ} (hlo : 2 ^ k ≤ u) (hhi : u < 2 ^ (k + 1)) : bracket u = 64 - 1 - (64 - (k + 1)) := by
  have hsize : u.size = k + 1 := le_antisymm (Nat.size_le.mpr hhi) (Nat.lt_size.mpr hlo)
  rw [bracket, leadingZeros, hsize]

theorem valid_park (h : c.Valid) {i : SlotIndex} (hempty : (c.slots i).ptr = 0) (hptr : ptr ≠ 0)
    (hcap : c.total + usable ≤ maxTotal) (hfree : (Finset.univ.filter (Shares c usable)).card < bracketSlots) :
    Cache.Valid ⟨Function.update c.slots i ⟨ptr, usable⟩, c.total + usable⟩ where
  empty j hj := by
    by_cases hji : j = i
    · simp only [hji, Function.update_self] at hj
      exact absurd hj hptr
    · simp only [Function.update_of_ne hji] at hj ⊢
      exact h.empty j hj
  total := by
    have hsum := sum_update c.slots i ⟨ptr, usable⟩
    rw [h.empty i hempty] at hsum
    rw [h.total]
    simp only at hsum ⊢
    omega
  cap := hcap
  brackets k := by
    by_cases hk : 2 ^ k ≤ usable ∧ usable < 2 ^ (k + 1)
    · -- The others of the bracket are those that the scan counted.
      have hsub : Cache.inBracket ⟨Function.update c.slots i ⟨ptr, usable⟩, c.total + usable⟩ k ⊆
          insert i (Finset.univ.filter (Shares c usable)) := by
        intro j hj
        simp only [Cache.inBracket, Finset.mem_filter, Finset.mem_univ, true_and] at hj
        by_cases hji : j = i
        · exact Finset.mem_insert.mpr (.inl hji)
        · rw [Function.update_of_ne hji] at hj
          refine Finset.mem_insert_of_mem (Finset.mem_filter.mpr ⟨Finset.mem_univ j, hj.1, ?_⟩)
          rw [bracket_eq hj.2.1 hj.2.2, bracket_eq hk.1 hk.2]
      exact ((Finset.card_le_card hsub).trans (Finset.card_insert_le _ _)).trans hfree
    · refine (Finset.card_le_card fun j hj => ?_).trans (h.brackets k)
      simp only [Cache.inBracket, Finset.mem_filter, Finset.mem_univ, true_and] at hj ⊢
      by_cases hji : j = i
      · rw [hji, Function.update_self] at hj
        exact absurd hj.2 hk
      · rwa [Function.update_of_ne hji] at hj

/-! The owners. An update of a state takes a block from one owner, or gives it to one. -/

variable {Thread : Type} [DecidableEq Thread] {s : State Thread} {t : Thread} {pc : Pc} {p q total : ℕ} {i : SlotIndex}
  {v : Slot} {o : Owner Thread}

namespace State

/-- The cache with another slot and total. -/
def setSlot (s : State Thread) (i : SlotIndex) (v : Slot) (total : ℕ) : State Thread :=
  { s with cache := ⟨Function.update s.cache.slots i v, total⟩ }

theorem owns_setPc_call {t' : Thread} :
    (s.setPc t pc).Owns q (.call t') ↔ q ≠ 0 ∧ (if t' = t then pc.block else (s.threads t').block) = q := by
  unfold Owns setPc
  by_cases ht : t' = t
  · subst ht
    simp
  · simp [ht]

omit [DecidableEq Thread] in
theorem owns_setSlot_slot {j : SlotIndex} :
    (s.setSlot i v total).Owns q (.slot j) ↔ q ≠ 0 ∧ (if j = i then v.ptr else (s.cache.slots j).ptr) = q := by
  unfold Owns setSlot
  by_cases hj : j = i
  · subst hj
    simp
  · simp [hj]

theorem owns_setPc_self (hp : p ≠ 0) (h : pc.block = p) : (s.setPc t pc).Owns p (.call t) :=
  owns_setPc_call.mpr ⟨hp, by rw [if_pos rfl, h]⟩

theorem owns_setPc_left (h : (s.setPc t pc).Owns p o) : o = .call t ∧ pc.block = p ∨ s.Owns p o ∧ o ≠ .call t := by
  cases o with
  | program => exact .inr ⟨h, by simp⟩
  | slot i => exact .inr ⟨h, by simp⟩
  | call t' =>
    obtain ⟨hp, hblock⟩ := owns_setPc_call.mp h
    by_cases ht : t' = t
    · rw [if_pos ht] at hblock
      exact .inl ⟨congrArg _ ht, hblock⟩
    · rw [if_neg ht] at hblock
      exact .inr ⟨⟨hp, hblock⟩, fun heq => ht (Owner.call.inj heq)⟩

omit [DecidableEq Thread] in
theorem owns_setSlot_left (h : (s.setSlot i v total).Owns p o) : o = .slot i ∧ v.ptr = p ∨ s.Owns p o ∧ o ≠ .slot i := by
  cases o with
  | program => exact .inr ⟨h, by simp⟩
  | call t => exact .inr ⟨h, by simp⟩
  | slot j =>
    obtain ⟨hp, hptr⟩ := owns_setSlot_slot.mp h
    by_cases hj : j = i
    · rw [if_pos hj] at hptr
      exact .inl ⟨congrArg _ hj, hptr⟩
    · rw [if_neg hj] at hptr
      exact .inr ⟨⟨hp, hptr⟩, fun heq => hj (Owner.slot.inj heq)⟩

/-- A thread that goes on with the same block. -/
theorem owns_setPc_same (h : pc.block = (s.threads t).block) : (s.setPc t pc).Owns q o ↔ s.Owns q o := by
  cases o with
  | program => exact Iff.rfl
  | slot i => exact Iff.rfl
  | call t' =>
    rw [owns_setPc_call, h]
    by_cases ht : t' = t
    · rw [if_pos ht, ht]
      exact Iff.rfl
    · rw [if_neg ht]
      exact Iff.rfl

/-- A thread that gets the block `p` or loses it does nothing to the others. -/
theorem owns_setPc_other (hold : (s.threads t).block = 0 ∨ (s.threads t).block = p) (hnew : pc.block = 0 ∨ pc.block = p)
    (hq : q ≠ p) : (s.setPc t pc).Owns q o ↔ s.Owns q o := by
  cases o with
  | program => exact Iff.rfl
  | slot i => exact Iff.rfl
  | call t' =>
    rw [owns_setPc_call]
    by_cases ht : t' = t
    · rw [if_pos ht, ht]
      refine and_congr_right fun hq0 => iff_of_false ?_ ?_
      · rintro rfl
        exact hnew.elim hq0 hq
      · rintro rfl
        exact hold.elim hq0 hq
    · rw [if_neg ht]
      exact Iff.rfl

omit [DecidableEq Thread] in
theorem owns_setSlot_other (hold : (s.cache.slots i).ptr = 0 ∨ (s.cache.slots i).ptr = p) (hnew : v.ptr = 0 ∨ v.ptr = p)
    (hq : q ≠ p) : (s.setSlot i v total).Owns q o ↔ s.Owns q o := by
  cases o with
  | program => exact Iff.rfl
  | call t => exact Iff.rfl
  | slot j =>
    rw [owns_setSlot_slot]
    by_cases hj : j = i
    · rw [if_pos hj, hj]
      refine and_congr_right fun hq0 => iff_of_false ?_ ?_
      · rintro rfl
        exact hnew.elim hq0 hq
      · rintro rfl
        exact hold.elim hq0 hq
    · rw [if_neg hj]
      exact Iff.rfl

theorem live_update_other {u : Option ℕ} (hq : q ≠ p) :
    ({ s with heap := Function.update s.heap p u }.setPc t pc).Live q ↔ s.Live q := by
  refine exists_congr fun v => ?_
  show Function.update s.heap p u q = some v ↔ s.heap q = some v
  rw [Function.update_of_ne hq]

end State

/-- What a thread knows of its request. -/
def Pc.Fits (heap : ℕ → Option ℕ) : Pc → Prop
  | .taking size n => size ≤ n
  | .mallocing size n => size ≤ n
  | .returning size ptr => ∀ usable, heap ptr = some usable → size ≤ usable
  | .putting ptr => ptr ≠ 0
  | .freeing ptr => ptr ≠ 0
  | .idle => True

theorem Pc.Fits.mono {heap heap' : ℕ → Option ℕ} (h : pc.Fits heap)
    (hheap : ∀ usable, heap' pc.block = some usable → heap pc.block = some usable) : pc.Fits heap' := by
  cases pc with
  | returning size ptr => exact fun usable husable => h usable (hheap usable husable)
  | _ => exact h

structure State.Sound (s : State Thread) : Prop where
  exclusive : Lib.Exclusive s.Live s.Owns
  cache : s.cache.Valid
  null : s.heap 0 = none
  fits : ∀ t, (s.threads t).Fits s.heap
  parked : ∀ i, (s.cache.slots i).ptr ≠ 0 → s.heap (s.cache.slots i).ptr = some (s.cache.slots i).usable

namespace State.Sound

omit [DecidableEq Thread] in
theorem init : (State.init : State Thread).Sound where
  exclusive := by
    have hnone : ∀ p o, ¬(State.init : State Thread).Owns p o := by
      intro p o ho
      cases o with
      | program => exact Finset.notMem_empty p ho
      | call t => exact ho.1 ho.2.symm
      | slot i => exact ho.1 ho.2.symm
    exact ⟨fun p hp => absurd hp.choose_spec (Option.some_ne_none _).symm, fun p o ho => absurd ho (hnone p o),
      fun p o o' ho => absurd ho (hnone p o)⟩
  cache := valid_init
  null := rfl
  fits _ := trivial
  parked i h := absurd rfl h

variable (h : s.Sound)
include h

omit [DecidableEq Thread] in
theorem ne_zero (hp : s.Owns p o) : p ≠ 0 := by
  rintro rfl
  obtain ⟨usable, hlive⟩ := h.exclusive.live 0 o hp
  rw [h.null] at hlive
  cases hlive

theorem fits_update (hfits : pc.Fits s.heap) (t' : Thread) : (Function.update s.threads t pc t').Fits s.heap := by
  by_cases ht : t' = t
  · rw [ht, Function.update_self]
    exact hfits
  · rw [Function.update_of_ne ht]
    exact h.fits t'

theorem setPc_same (hblock : pc.block = (s.threads t).block) (hfits : pc.Fits s.heap) : (s.setPc t pc).Sound where
  exclusive := h.exclusive.congr fun _ _ => owns_setPc_same hblock
  cache := h.cache
  null := h.null
  fits := h.fits_update hfits
  parked := h.parked

/-- The block goes from a slot to the call. -/
theorem take_hit {size : ℕ} (ht : (s.threads t).block = 0) (hi : (s.cache.slots i).ptr ≠ 0)
    (hsize : size ≤ (s.cache.slots i).usable) :
    ((s.setSlot i ⟨0, 0⟩ (s.cache.total - (s.cache.slots i).usable)).setPc t
      (.returning size (s.cache.slots i).ptr)).Sound where
  exclusive := by
    have hfrom : s.Owns (s.cache.slots i).ptr (.slot i) := ⟨hi, rfl⟩
    refine h.exclusive.transfer hfrom (owns_setPc_self hi rfl) (fun o ho => ?_) fun q hq o => ?_
    · obtain ⟨rfl, -⟩ | ⟨ho, -⟩ := owns_setPc_left ho
      · exact .inl rfl
      · obtain ⟨-, hzero⟩ | hold := owns_setSlot_left ho
        · exact absurd hzero.symm hi
        · exact .inr hold
    · exact (owns_setPc_other (s := s.setSlot i ⟨0, 0⟩ _) (.inl ht) (.inr rfl) hq).trans
        (owns_setSlot_other (.inr rfl) (.inl rfl) hq)
  cache := valid_take h.cache i
  null := h.null
  fits := h.fits_update fun usable husable => by
    rw [h.parked i hi] at husable
    exact Option.some.inj husable ▸ hsize
  parked j hj := by
    by_cases hji : j = i
    · subst hji
      simp [setPc, setSlot] at hj
    · simp only [setPc, setSlot, Function.update_of_ne hji] at hj ⊢
      exact h.parked j hj

/-- The block goes from the call to a slot. -/
theorem put_parked {usable : ℕ} (ht : (s.threads t).block = p) (hp : p ≠ 0) (hpc : pc.block = 0) (hfits : pc.Fits s.heap)
    (hempty : (s.cache.slots i).ptr = 0) (hlive : s.heap p = some usable)
    (hvalid : Cache.Valid ⟨Function.update s.cache.slots i ⟨p, usable⟩, total⟩) :
    ((s.setSlot i ⟨p, usable⟩ total).setPc t pc).Sound where
  exclusive := by
    have hfrom : s.Owns p (.call t) := ⟨hp, ht⟩
    have hto : (s.setSlot i ⟨p, usable⟩ total).Owns p (.slot i) := owns_setSlot_slot.mpr ⟨hp, if_pos rfl⟩
    refine h.exclusive.transfer hfrom (b := .slot i) hto (fun o ho => ?_) fun q hq o => ?_
    · obtain ⟨-, hzero⟩ | ⟨ho, hne⟩ := owns_setPc_left ho
      · exact absurd (hzero.symm.trans hpc) hp
      · obtain ⟨rfl, -⟩ | hold := owns_setSlot_left ho
        · exact .inl rfl
        · exact .inr ⟨hold.1, hne⟩
    · exact (owns_setPc_other (s := s.setSlot i ⟨p, usable⟩ _) (.inr ht) (.inl hpc) hq).trans
        (owns_setSlot_other (.inl hempty) (.inr rfl) hq)
  cache := hvalid
  null := h.null
  fits := h.fits_update hfits
  parked j hj := by
    by_cases hji : j = i
    · subst hji
      simpa [setPc, setSlot] using hlive
    · simp only [setPc, setSlot, Function.update_of_ne hji] at hj ⊢
      exact h.parked j hj

/-- A new block goes to the call. -/
theorem malloc {size n usable : ℕ} (ht : (s.threads t).block = 0) (hnew : Mallocs s n p usable) (hsize : size ≤ n) :
    (s.doMalloc t size p usable).Sound where
  exclusive := by
    obtain ⟨hp, hfree, -, -⟩ := hnew
    have hdead : ¬s.Live p := fun hlive => by
      rw [State.Live, hfree] at hlive
      cases hlive.choose_spec
    refine h.exclusive.create (b := .call t) hdead (fun q hq => ?_) ⟨usable, Function.update_self _ _ _⟩
      (owns_setPc_self hp rfl) (fun o ho => ?_) fun q hq o => ?_
    · exact live_update_other hq
    · obtain ⟨rfl, -⟩ | ⟨ho, -⟩ := owns_setPc_left ho
      · exact .inl rfl
      · exact .inr ho
    · exact owns_setPc_other (s := { s with heap := _ }) (.inl ht) (.inr rfl) hq
  cache := h.cache
  null := (Function.update_of_ne hnew.1.symm _ _).trans h.null
  fits t' := by
    by_cases htt : t' = t
    · simp only [State.doMalloc, setPc, htt, Function.update_self]
      intro u hu
      rw [Function.update_self] at hu
      exact (hsize.trans hnew.2.2.1).trans_eq (Option.some.inj hu)
    · simp only [State.doMalloc, setPc, Function.update_of_ne htt]
      refine (h.fits t').mono fun u hu => ?_
      have hne : (s.threads t').block ≠ p := fun heq => by
        obtain ⟨v, hv⟩ := h.exclusive.live p (.call t') ⟨hnew.1, heq⟩
        rw [hnew.2.1] at hv
        cases hv
      rwa [Function.update_of_ne hne] at hu
  parked j hj := by
    have hne : (s.cache.slots j).ptr ≠ p := fun heq => by
      have hlive := h.parked j hj
      rw [heq, hnew.2.1] at hlive
      cases hlive
    exact (Function.update_of_ne hne _ _).trans (h.parked j hj)

/-- The block goes from the call to the program. -/
theorem doReturn {size : ℕ} (ht : s.threads t = .returning size p) : (s.doReturn t p).Sound := by
  unfold State.doReturn
  split_ifs with hp
  · exact h.setPc_same (by rw [ht, hp]; rfl) trivial
  · refine ⟨?_, h.cache, h.null, h.fits_update trivial, h.parked⟩
    have hblock : (s.threads t).block = p := by rw [ht]; rfl
    refine h.exclusive.transfer (a := .call t) (b := .program) (r := p) ⟨hp, hblock⟩ (Finset.mem_insert_self p _)
      (fun o ho => ?_) fun q hq o => ?_
    · obtain ⟨-, hzero⟩ | ⟨ho, hne⟩ := owns_setPc_left ho
      · exact absurd hzero.symm hp
      · cases o with
        | program => exact .inl rfl
        | call t' => exact .inr ⟨ho, hne⟩
        | slot j => exact .inr ⟨ho, hne⟩
    · have hidle : Pc.idle.block = 0 := rfl
      refine (owns_setPc_other (s := { s with held := insert p s.held }) (.inr hblock) (.inl hidle) hq).trans ?_
      cases o with
      | program => exact (Finset.mem_insert.trans (or_iff_right hq))
      | call t' => exact Iff.rfl
      | slot j => exact Iff.rfl

/-- The block goes from the program to the call. -/
theorem release (ht : s.threads t = .idle) (hp : p ∈ s.held) (hpc : pc.block = p) (hfits : pc.Fits s.heap) :
    ({ s with held := s.held.erase p }.setPc t pc).Sound := by
  have hfrom : s.Owns p .program := hp
  have hp0 := h.ne_zero hfrom
  refine ⟨?_, h.cache, h.null, h.fits_update hfits, h.parked⟩
  refine h.exclusive.transfer hfrom (owns_setPc_self hp0 hpc) (fun o ho => ?_) fun q hq o => ?_
  · obtain ⟨rfl, -⟩ | ⟨ho, -⟩ := owns_setPc_left ho
    · exact .inl rfl
    · cases o with
      | program => exact absurd ho (Finset.notMem_erase p _)
      | call t' => exact .inr ⟨ho, by simp⟩
      | slot j => exact .inr ⟨ho, by simp⟩
  · refine (owns_setPc_other (s := { s with held := _ }) (.inl (by rw [ht]; rfl)) (.inr hpc) hq).trans ?_
    cases o with
    | program => exact Finset.mem_erase.trans (and_iff_right hq)
    | call t' => exact Iff.rfl
    | slot j => exact Iff.rfl

/-- The block is no more. -/
theorem free (ht : s.threads t = .freeing p) (hp : p ≠ 0) : (s.doFree t p).Sound where
  exclusive := by
    have hblock : (s.threads t).block = p := by rw [ht]; rfl
    refine h.exclusive.destroy (a := .call t) (r := p) ⟨hp, hblock⟩ (fun hlive => ?_) (fun q hq => ?_)
      (fun o ho => ?_) fun q hq o => ?_
    · obtain ⟨u, hu⟩ := hlive
      simp [State.doFree, setPc] at hu
    · exact live_update_other hq
    · obtain ⟨-, hzero⟩ | hold := owns_setPc_left ho
      · exact absurd hzero.symm hp
      · exact hold
    · exact owns_setPc_other (s := { s with heap := _ }) (.inr hblock) (.inl rfl) hq
  cache := h.cache
  null := (Function.update_of_ne hp.symm _ _).trans h.null
  fits t' := by
    have hidle : Pc.idle.Fits s.heap := trivial
    refine (h.fits_update (t := t) hidle t').mono fun u hu => ?_
    by_cases hb : (Function.update s.threads t .idle t').block = p
    · simp [State.doFree, setPc, hb] at hu
    · simpa [State.doFree, setPc, Function.update_of_ne hb] using hu
  parked j hj := by
    have hne : (s.cache.slots j).ptr ≠ p := fun heq => by
      have hsame := h.exclusive.unique p (.slot j) (.call t) ⟨hp, heq⟩ ⟨hp, by rw [ht]; rfl⟩
      cases hsame
    exact (Function.update_of_ne hne _ _).trans (h.parked j hj)

omit [DecidableEq Thread] in
theorem pc_fits (ht : s.threads t = pc) : pc.Fits s.heap := ht ▸ h.fits t

theorem alloc {size : ℕ} {enabled : Bool} (ht : s.threads t = .idle) : (s.karacAllocFallible t size enabled).Sound := by
  have hblock : (s.threads t).block = 0 := by rw [ht]; rfl
  have hn : size ≤ if size = 0 then 1 else size := by split_ifs <;> omega
  unfold State.karacAllocFallible
  simp only
  generalize (if size = 0 then 1 else size) = n at hn ⊢
  split_ifs with hbig hcached
  · refine h.setPc_same hblock.symm fun usable husable => ?_
    rw [h.null] at husable
    cases husable
  · exact h.setPc_same hblock.symm hn
  · exact h.setPc_same hblock.symm hn

theorem take {size n : ℕ} (ht : s.threads t = .taking size n) : (s.doTake t size n).Sound := by
  have hblock : (s.threads t).block = 0 := by rw [ht]; rfl
  have hn : size ≤ n := h.pc_fits ht
  unfold State.doTake
  obtain hmiss | ⟨i, hi, hsize, hhit⟩ := take_cases n s.cache
  · simp only [hmiss, ne_eq, not_true_eq_false, if_false]
    exact h.setPc_same hblock.symm hn
  · simp only [hhit, ne_eq, hi, not_false_eq_true, if_true]
    exact h.take_hit hblock hi (hn.trans hsize)

theorem freeBuf {bytesHint : ℕ} {enabled : Bool} (ht : s.threads t = .idle) (hp : p = 0 ∨ p ∈ s.held) :
    (s.karacFreeBuf t p bytesHint enabled).Sound := by
  unfold State.karacFreeBuf
  split_ifs with hp0
  · exact h
  all_goals exact h.release ht (hp.resolve_left hp0) rfl hp0

theorem put {usable : ℕ} (ht : s.threads t = .putting p) (hlive : s.heap p = some usable) : (s.doPut t p usable).Sound := by
  have hblock : (s.threads t).block = p := by rw [ht]; rfl
  have hp : p ≠ 0 := h.pc_fits ht
  unfold State.doPut
  obtain hrejected | ⟨i, hempty, -, hcap, hfree, hparked⟩ := put_cases p usable s.cache
  · simp only [hrejected, Bool.false_eq_true, if_false]
    exact h.setPc_same hblock.symm hp
  · simp only [hparked, if_true]
    exact h.put_parked hblock hp rfl trivial hempty hlive (valid_park h.cache hempty hp hcap hfree)

/-- Every step conserves the ownership. -/
theorem step {a : Action Thread} {s' : State Thread} (hstep : BufCache.step s a = some s') : s'.Sound := by
  cases a with
  | alloc t size enabled =>
    simp only [BufCache.step] at hstep
    split_ifs at hstep with ht
    exact Option.some.inj hstep ▸ h.alloc ht
  | take t =>
    simp only [BufCache.step] at hstep
    split at hstep
    · next size n ht => exact Option.some.inj hstep ▸ h.take ht
    · cases hstep
  | malloc t block =>
    simp only [BufCache.step] at hstep
    split at hstep
    · next size n ptr usable ht =>
      split_ifs at hstep with hnew
      exact Option.some.inj hstep ▸ h.malloc (by rw [ht]; rfl) hnew (h.pc_fits ht)
    · next size n ht =>
      refine Option.some.inj hstep ▸ h.setPc_same (by rw [ht]; rfl) fun usable husable => ?_
      rw [h.null] at husable
      cases husable
    · cases hstep
  | ret t =>
    simp only [BufCache.step] at hstep
    split at hstep
    · next size ptr ht => exact Option.some.inj hstep ▸ h.doReturn ht
    · cases hstep
  | freeBuf t ptr bytesHint enabled =>
    simp only [BufCache.step] at hstep
    split_ifs at hstep with ht
    exact Option.some.inj hstep ▸ h.freeBuf ht.1 ht.2
  | put t =>
    simp only [BufCache.step] at hstep
    split at hstep
    · next ptr ht =>
      obtain ⟨usable, hlive, rfl⟩ := Option.map_eq_some_iff.mp hstep
      exact h.put ht hlive
    · cases hstep
  | free t =>
    simp only [BufCache.step] at hstep
    split at hstep
    · next ptr ht => exact Option.some.inj hstep ▸ h.free ht (h.pc_fits ht)
    · cases hstep

omit [DecidableEq Thread] in
theorem conserves : s.Conserves where
  exclusive := h.exclusive
  fits _ _ _ usable ht := h.pc_fits ht usable
  parked := h.parked
  empty := h.cache.empty
  total := h.cache.total
  cap := h.cache.cap
  brackets := h.cache.brackets

end State.Sound

/-- After every run of the threads each live block has one owner, and the cache's books are right. -/
theorem ownership_conserved {as : List (Action Thread)} (h : run as = some s) : s.Conserves :=
  State.Sound.conserves (Lib.runSteps_preserves (fun _ _ _ hs hstep => hs.step hstep) State.Sound.init h)

/-- Two threads: the buffer that one frees is parked and goes to the other. -/
def reused : List (Action Bool) :=
  [.alloc true (2 ^ 20) true, .take true, .malloc true (some (4096, 2 ^ 20 + 8)), .ret true, .alloc false (2 ^ 20) true,
    .freeBuf true 4096 0 true, .put true, .take false]

theorem ownership_conserved_reused :
    ∃ s, run reused = some s ∧ s.threads false = .returning (2 ^ 20) 4096 ∧ s.Conserves := by
  have hrun : ∃ s, run reused = some s ∧ s.threads false = .returning (2 ^ 20) 4096 := ⟨_, rfl, rfl⟩
  obtain ⟨s, hs, hpc⟩ := hrun
  exact ⟨s, hs, hpc, ownership_conserved hs⟩

end Karac.Runtime.BufCache
