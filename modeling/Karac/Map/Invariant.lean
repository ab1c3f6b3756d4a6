import Karac.Map.Scan

/-! The representation invariant of the table: every operation keeps it, whatever the hash and the
equality are, and no two buckets hold equal keys when the equality is one. -/

namespace Karac.Map

open Karac.Lib

/-- What the map's callers promise of the two key functions. -/
structure LawfulKeys {K : Type} (hashFn : K → Word) (eqFn : K → K → Bool) : Prop where
  refl : ∀ a, eqFn a a = true
  symm : ∀ a b, eqFn a b = true → eqFn b a = true
  trans : ∀ a b c, eqFn a b = true → eqFn b c = true → eqFn a c = true
  hash_eq : ∀ a b, eqFn a b = true → hashFn a = hashFn b

def isTombstone (status : Byte) : Bool := decide (status = bucketTombstone)

namespace KaracMap

variable {K V : Type} {hashFn : K → Word} {eqFn : K → K → Bool} {m m' old : KaracMap K V}

/-- The number of buckets whose status byte is of a kind. -/
def bucketCount (m : KaracMap K V) (kind : Byte → Bool) : ℕ :=
  ((Finset.range m.capacity).filter fun s => kind (m.status s) = true).card

/-- Where the probe for a key starts. -/
def homeSlot (m : KaracMap K V) (hashFn : K → Word) (key : K) : ℕ := (hashFn key).toNat &&& m.mask

/-- The bucket is occupied by the key. -/
def Holds (m : KaracMap K V) (s : ℕ) (key : K) : Prop :=
  s < m.capacity ∧ isOccupied (m.status s) = true ∧ m.keys s = some key

structure Inv (hashFn : K → Word) (m : KaracMap K V) : Prop where
  grouped : GroupedCapacity m.capacity
  len_eq : m.len = m.bucketCount isOccupied
  tombstones_eq : m.tombstones = m.bucketCount isTombstone
  load : 4 * (m.len + m.tombstones) ≤ 3 * m.capacity
  free : ∀ s < m.capacity, isOccupied (m.status s) = false →
    m.status s = bucketEmpty ∨ m.status s = bucketTombstone
  stored : ∀ s < m.capacity, isOccupied (m.status s) = true → ∃ key, m.keys s = some key ∧
    m.status s = ctrlOf (hashFn key) ∧
    Reached m.capacity (stopAt m.status) (m.homeSlot hashFn key) s

/-- No two buckets hold equal keys. -/
def Distinct (eqFn : K → K → Bool) (m : KaracMap K V) : Prop :=
  ∀ s t a b, m.Holds s a → m.Holds t b → eqFn a b = true → s = t

/-- There is room for one more key under the load bound. -/
def HasRoom (m : KaracMap K V) : Prop := 4 * (m.len + m.tombstones + 1) ≤ 3 * m.capacity

/-! Counting. -/

theorem card_update {cap slot : ℕ} (status : ℕ → Byte) (b : Byte) (kind : Byte → Bool) (h : slot < cap) :
    ((Finset.range cap).filter fun s => kind (Function.update status slot b s) = true).card +
      (if kind (status slot) = true then 1 else 0) =
    ((Finset.range cap).filter fun s => kind (status s) = true).card + if kind b = true then 1 else 0 := by
  have hmem := Finset.mem_range.mpr h
  have hrest : ∑ s ∈ (Finset.range cap).erase slot,
      (if kind (Function.update status slot b s) = true then 1 else 0) =
      ∑ s ∈ (Finset.range cap).erase slot, if kind (status s) = true then 1 else 0 := by
    refine Finset.sum_congr rfl fun s hs => ?_
    rw [Function.update_of_ne (Finset.ne_of_mem_erase hs)]
  simp only [Finset.card_filter]
  rw [← Finset.add_sum_erase _ _ hmem, ← Finset.add_sum_erase _ (fun s => if kind (status s) = true then 1 else 0)
    hmem, hrest, Function.update_self]
  omega

theorem bucketCount_blank (kind : Byte → Bool) (hkind : kind bucketEmpty = false)
    (h : ∀ s < m.capacity, m.status s = bucketEmpty) : m.bucketCount kind = 0 := by
  rw [bucketCount, Finset.card_eq_zero, Finset.filter_eq_empty_iff]
  intro s hs
  rw [h s (Finset.mem_range.mp hs), hkind]
  simp

theorem isOccupied_empty : isOccupied bucketEmpty = false := by decide
theorem isTombstone_empty : isTombstone bucketEmpty = false := by decide
theorem isOccupied_tombstone : isOccupied bucketTombstone = false := by decide
theorem isTombstone_ctrlOf (hash : Word) : isTombstone (ctrlOf hash) = false :=
  decide_eq_false (ne_of_isOccupied (ctrlOf_occupied hash)).2

/-! What the invariant gives. -/

namespace Inv

variable (h : Inv hashFn m)
include h

theorem pos : 0 < m.capacity := by
  have := h.grouped.le
  omega

theorem homeSlot_eq (key : K) : m.homeSlot hashFn key = (hashFn key).toNat % m.capacity :=
  h.grouped.and_mask _

theorem homeSlot_lt (key : K) : m.homeSlot hashFn key < m.capacity := by
  rw [h.homeSlot_eq]
  exact Nat.mod_lt _ h.pos

/-- The load bound leaves a bucket empty. -/
theorem exists_empty : ∃ s < m.capacity, m.status s = bucketEmpty := by
  by_contra hno
  have hcover : Finset.range m.capacity ⊆
      ((Finset.range m.capacity).filter fun s => isOccupied (m.status s) = true) ∪
      (Finset.range m.capacity).filter fun s => isTombstone (m.status s) = true := by
    intro s hs
    have hlt := Finset.mem_range.mp hs
    rw [Finset.mem_union, Finset.mem_filter, Finset.mem_filter]
    by_cases hocc : isOccupied (m.status s) = true
    · exact Or.inl ⟨hs, hocc⟩
    · rcases h.free s hlt (by simpa using hocc) with hempty | htomb
      · exact absurd ⟨s, hlt, hempty⟩ hno
      · exact Or.inr ⟨hs, decide_eq_true htomb⟩
  have hcard := (Finset.card_le_card hcover).trans (Finset.card_union_le _ _)
  have hpos := h.pos
  have hload := h.load
  rw [h.len_eq, h.tombstones_eq, bucketCount, bucketCount] at hload
  rw [Finset.card_range] at hcard
  omega

/-- So every chain stops. -/
theorem stops {home : ℕ} (hh : home < m.capacity) : Stops m.capacity (stopAt m.status) home := by
  obtain ⟨s, hs, hempty⟩ := h.exists_empty
  obtain ⟨i, hi, rfl⟩ := exists_probe hh hs
  exact ⟨i, hi, decide_eq_true hempty⟩

theorem holds_of_occupied {s : ℕ} (hs : s < m.capacity) (hocc : isOccupied (m.status s) = true) :
    ∃ key, m.Holds s key := by
  obtain ⟨key, hkey, -⟩ := h.stored s hs hocc
  exact ⟨key, hs, hocc, hkey⟩

theorem of_holds {s : ℕ} {key : K} (hk : m.Holds s key) : m.status s = ctrlOf (hashFn key) ∧
    Reached m.capacity (stopAt m.status) (m.homeSlot hashFn key) s := by
  obtain ⟨hs, hocc, hkey⟩ := hk
  obtain ⟨key', hkey', hctrl, hreach⟩ := h.stored s hs hocc
  obtain rfl : key' = key := Option.some.inj (hkey'.symm.trans hkey)
  exact ⟨hctrl, hreach⟩

end Inv

/-- A chain that stops with nothing hit before passes no equal key. -/
theorem Inv.absent (h : Inv hashFn m) (hl : LawfulKeys hashFn eqFn) {key : K} {k : ℕ} (hk : k < m.capacity)
    (hpass : PassesUpTo m (ctrlOf (hashFn key)) (m.eqAt eqFn key) (m.homeSlot hashFn key) k)
    (hstop : stopAt m.status (probe m.capacity (m.homeSlot hashFn key) k) = true) {s : ℕ} {a : K}
    (ha : m.Holds s a) : eqFn a key = false := by
  by_contra heq
  have heq : eqFn a key = true := by simpa using heq
  obtain ⟨hctrl, i, hi, rfl, hbefore⟩ := h.of_holds ha
  have hhome : m.homeSlot hashFn a = m.homeSlot hashFn key := by
    rw [homeSlot, homeSlot, hl.hash_eq a key heq]
  rw [hhome] at ha hctrl hbefore
  obtain ⟨hs, hocc, hkey⟩ := ha
  rcases lt_trichotomy i k with hik | hik | hik
  · have hmiss := (hpass i hik).2
    simp [hitAt, eqAt, hkey, heq, hctrl, hl.hash_eq a key heq] at hmiss
  · rw [hik] at hocc
    exact (ne_of_isOccupied hocc).1 (of_decide_eq_true hstop)
  · rw [hbefore k hik] at hstop
    exact absurd hstop (by simp)

/-! The two probes. -/

/-- `lookup` finds a bucket that holds an equal key, or there is none. -/
theorem lookup_spec (h : Inv hashFn m) (key : K) :
    (∃ s a, m.Holds s a ∧ eqFn a key = true ∧ m.lookup hashFn eqFn key = some s) ∨
    m.lookup hashFn eqFn key = none ∧
      (LawfulKeys hashFn eqFn → ∀ s a, m.Holds s a → eqFn a key = false) := by
  have hlt := h.homeSlot_lt key
  rw [lookup, lookupHashed_eq_walk h.grouped, ← h.homeSlot_eq]
  obtain ⟨k, hk, hpass, hstop | ⟨hgo, hhit⟩⟩ := @Stops.outcome _ _
    (hitAt m.status (ctrlOf (hashFn key)) (m.eqAt eqFn key)) _ (h.stops hlt)
  · exact Or.inr ⟨walk_stop hlt hk hpass hstop, fun hl s a ha => h.absent hl hk hpass hstop ha⟩
  · obtain ⟨hctrl, heq⟩ := Bool.and_eq_true_iff.mp hhit
    have hocc : isOccupied (m.status (probe m.capacity (m.homeSlot hashFn key) k)) = true := by
      rw [of_decide_eq_true hctrl]
      exact ctrlOf_occupied _
    obtain ⟨a, ha⟩ := h.holds_of_occupied (probe_lt h.pos _ _) hocc
    refine Or.inl ⟨_, a, ha, ?_, walk_hit hlt hk hpass hgo hhit⟩
    simpa [eqAt, ha.2.2] using heq

/-- Where a key may be put: a free bucket on its chain. -/
structure FreeSlot (hashFn : K → Word) (m : KaracMap K V) (key : K) (slot : ℕ) : Prop where
  lt : slot < m.capacity
  free : isOccupied (m.status slot) = false
  reached : Reached m.capacity (stopAt m.status) (m.homeSlot hashFn key) slot

/-- The loop of `find_insert_slot` answers from inside: a bucket that holds an equal key, or a free
bucket on the chain when there is none. -/
theorem insertLoop_spec (h : Inv hashFn m) (key : K) :
    (∃ s a, m.Holds s a ∧ eqFn a key = true ∧ m.status s = ctrlOf (hashFn key) ∧
      ∀ after, insertLoop m (ctrlOf (hashFn key)) (m.eqAt eqFn key) after m.capacity
        (m.homeSlot hashFn key) 0 none = (s, true)) ∨
    ∃ s, FreeSlot hashFn m key s ∧
      (LawfulKeys hashFn eqFn → ∀ s' a, m.Holds s' a → eqFn a key = false) ∧
      ∀ after, insertLoop m (ctrlOf (hashFn key)) (m.eqAt eqFn key) after m.capacity
        (m.homeSlot hashFn key) 0 none = (s, false) := by
  have hlt := h.homeSlot_lt key
  have hwalk : ∀ after, insertLoop m (ctrlOf (hashFn key)) (m.eqAt eqFn key) after m.capacity
      (m.homeSlot hashFn key) 0 none = insertWalk m.capacity (stopAt m.status) (reuseAt m.status)
        (hitAt m.status (ctrlOf (hashFn key)) (m.eqAt eqFn key)) after m.capacity
        (m.homeSlot hashFn key) none := fun after => by
    rw [insertLoop_eq_walk h.grouped (probe_zero hlt).symm (fun i hi => absurd hi (by omega)) (by omega)
      (ne_of_isOccupied (ctrlOf_occupied _)).2 fun _ i hi => absurd hi (by omega), Nat.sub_zero]
  obtain ⟨k, hk, hpass, hstop | ⟨hgo, hhit⟩⟩ := @Stops.outcome _ _
    (hitAt m.status (ctrlOf (hashFn key)) (m.eqAt eqFn key)) _ (h.stops hlt)
  · obtain ⟨i, hi, hslot, hfree⟩ := @firstReuse_getD m.capacity (reuseAt m.status) (m.homeSlot hashFn key) k
    refine Or.inr ⟨probe m.capacity (m.homeSlot hashFn key) i, ⟨probe_lt h.pos _ _, ?_, i, by omega, rfl, ?_⟩,
      fun hl s a ha => h.absent hl hk hpass hstop ha, fun after => ?_⟩
    · rcases hfree with rfl | hreuse
      · rw [of_decide_eq_true hstop, isOccupied_empty]
      · rw [of_decide_eq_true hreuse, isOccupied_tombstone]
    · exact fun j hj => (hpass j (by omega)).1
    · rw [hwalk, insertWalk_stop hlt hk hpass hstop, Option.none_or, hslot]
  · obtain ⟨hctrl, heq⟩ := Bool.and_eq_true_iff.mp hhit
    have hctrl := of_decide_eq_true hctrl
    have hocc : isOccupied (m.status (probe m.capacity (m.homeSlot hashFn key) k)) = true := by
      rw [hctrl]
      exact ctrlOf_occupied _
    obtain ⟨a, ha⟩ := h.holds_of_occupied (probe_lt h.pos _ _) hocc
    refine Or.inl ⟨_, a, ha, by simpa [eqAt, ha.2.2] using heq, hctrl, fun after => ?_⟩
    rw [hwalk, insertWalk_hit hlt hk hpass hgo (decide_eq_false (ne_of_isOccupied hocc).2) hhit]

theorem findInsertSlot_eq (key : K) : m.findInsertSlot hashFn eqFn key =
    ((insertLoop m (ctrlOf (hashFn key)) (m.eqAt eqFn key) fallThrough m.capacity (m.homeSlot hashFn key) 0
      none).1, (insertLoop m (ctrlOf (hashFn key)) (m.eqAt eqFn key) fallThrough m.capacity
      (m.homeSlot hashFn key) 0 none).2, ctrlOf (hashFn key)) := rfl

theorem findInsertSlot_spec (h : Inv hashFn m) (key : K) :
    (∃ s a, m.Holds s a ∧ eqFn a key = true ∧ m.status s = ctrlOf (hashFn key) ∧
      m.findInsertSlot hashFn eqFn key = (s, true, ctrlOf (hashFn key))) ∨
    ∃ s, FreeSlot hashFn m key s ∧
      (LawfulKeys hashFn eqFn → ∀ s' a, m.Holds s' a → eqFn a key = false) ∧
      m.findInsertSlot hashFn eqFn key = (s, false, ctrlOf (hashFn key)) := by
  rcases @insertLoop_spec _ _ hashFn eqFn m h key with ⟨s, a, ha, heq, hctrl, hloop⟩ | ⟨s, hfree, hnew, hloop⟩
  · refine Or.inl ⟨s, a, ha, heq, hctrl, ?_⟩
    rw [findInsertSlot_eq, hloop]
  · refine Or.inr ⟨s, hfree, hnew, ?_⟩
    rw [findInsertSlot_eq, hloop]

/-! Changes of the storage. -/

/-- The invariant does not look at the values. -/
theorem Inv.setVal (h : Inv hashFn m) (slot : ℕ) (v : V) : Inv hashFn (m.setVal slot v) :=
  ⟨h.grouped, h.len_eq, h.tombstones_eq, h.load, h.free, h.stored⟩

theorem Inv.blank (hcap : GroupedCapacity m.capacity) (hlen : m.len = 0) (htombs : m.tombstones = 0)
    (hempty : ∀ s < m.capacity, m.status s = bucketEmpty) : Inv hashFn m where
  grouped := hcap
  len_eq := by rw [hlen, bucketCount_blank _ isOccupied_empty hempty]
  tombstones_eq := by rw [htombs, bucketCount_blank _ isTombstone_empty hempty]
  load := by omega
  free := fun s hs _ => Or.inl (hempty s hs)
  stored := fun s hs hocc => by
    rw [hempty s hs, isOccupied_empty] at hocc
    exact absurd hocc (by simp)

theorem Distinct.blank (hempty : ∀ s < m.capacity, m.status s = bucketEmpty) : Distinct eqFn m := by
  intro s t a b ⟨hs, hocc, _⟩
  rw [hempty s hs, isOccupied_empty] at hocc
  exact absurd hocc (by simp)

/-- The bucket now holds the key; the rest of the table is as it was. -/
structure Fills (hashFn : K → Word) (m m' : KaracMap K V) (slot : ℕ) (key : K) : Prop where
  capacity : m'.capacity = m.capacity
  status : m'.status = Function.update m.status slot (ctrlOf (hashFn key))
  keys : m'.keys = Function.update m.keys slot (some key)
  len : m'.len = m.len + 1
  tombstones : m'.tombstones = if m.status slot = bucketTombstone then m.tombstones - 1 else m.tombstones

theorem Fills.holds_iff {slot : ℕ} {key : K} (hf : Fills hashFn m m' slot key) (hslot : slot < m.capacity)
    (s : ℕ) (a : K) : m'.Holds s a ↔ s = slot ∧ a = key ∨ s ≠ slot ∧ m.Holds s a := by
  rw [Holds, Holds, hf.capacity, hf.status, hf.keys]
  by_cases hs : s = slot
  · subst hs
    simp only [Function.update_self, ctrlOf_occupied, true_and, Option.some.injEq, ne_eq, not_true,
      false_and, or_false]
    exact ⟨fun h => h.2.symm, fun h => ⟨hslot, h.symm⟩⟩
  · simp only [Function.update_of_ne hs, hs, false_and, false_or, ne_eq, not_false_eq_true, true_and]

theorem Inv.fill (h : Inv hashFn m) {slot : ℕ} {key : K} (hf : Fills hashFn m m' slot key)
    (hslot : FreeSlot hashFn m key slot) (hroom : m.HasRoom) : Inv hashFn m' := by
  have hocc := card_update m.status (ctrlOf (hashFn key)) isOccupied hslot.lt
  have htomb := card_update m.status (ctrlOf (hashFn key)) isTombstone hslot.lt
  rw [hslot.free, ctrlOf_occupied, if_neg (by simp), if_pos rfl] at hocc
  rw [isTombstone_ctrlOf, if_neg (by simp : ¬ false = true)] at htomb
  have hlen := h.len_eq
  have htombs := h.tombstones_eq
  rw [bucketCount] at hlen htombs
  refine ⟨by rw [hf.capacity]; exact h.grouped, ?_, ?_, ?_, fun s hs hfree => ?_, fun s hs hoccupied => ?_⟩
  · rw [bucketCount, hf.len, hf.capacity, hf.status]
    omega
  · rw [bucketCount, hf.tombstones, hf.capacity, hf.status]
    by_cases ht : m.status slot = bucketTombstone
    · rw [if_pos ht]
      have ht' : isTombstone (m.status slot) = true := decide_eq_true ht
      rw [ht', if_pos rfl] at htomb
      omega
    · rw [if_neg ht]
      have ht' : isTombstone (m.status slot) = false := decide_eq_false ht
      rw [ht', if_neg (by simp)] at htomb
      omega
  · have hroom : 4 * (m.len + m.tombstones + 1) ≤ 3 * m.capacity := hroom
    rw [hf.len, hf.tombstones, hf.capacity]
    split_ifs
    · omega
    · omega
  · rw [hf.status] at hfree ⊢
    by_cases hss : s = slot
    · rw [hss, Function.update_self, ctrlOf_occupied] at hfree
      exact absurd hfree (by simp)
    · rw [Function.update_of_ne hss] at hfree ⊢
      exact h.free s (by rwa [← hf.capacity]) hfree
  · have hmono : ∀ x, stopAt m.status x = false → stopAt m'.status x = false := by
      intro x hx
      rw [stopAt, hf.status]
      by_cases hxs : x = slot
      · rw [hxs, Function.update_self]
        exact decide_eq_false (ne_of_isOccupied (ctrlOf_occupied _)).1
      · rw [Function.update_of_ne hxs]
        exact hx
    have hhome : ∀ a, m'.homeSlot hashFn a = m.homeSlot hashFn a := fun a => by
      rw [homeSlot, homeSlot, mask, mask, hf.capacity]
    rw [hf.capacity] at hs ⊢
    rw [hf.status] at hoccupied
    by_cases hss : s = slot
    · subst hss
      refine ⟨key, by rw [hf.keys, Function.update_self], by rw [hf.status, Function.update_self], ?_⟩
      rw [hhome]
      exact hslot.reached.mono hmono
    · rw [Function.update_of_ne hss] at hoccupied
      obtain ⟨a, hkey, hctrl, hreach⟩ := h.stored s hs hoccupied
      refine ⟨a, by rwa [hf.keys, Function.update_of_ne hss], by rwa [hf.status, Function.update_of_ne hss], ?_⟩
      rw [hhome]
      exact hreach.mono hmono

theorem Distinct.fill (hl : LawfulKeys hashFn eqFn) (hd : Distinct eqFn m) {slot : ℕ} {key : K}
    (hf : Fills hashFn m m' slot key) (hslot : slot < m.capacity)
    (hnew : ∀ s a, m.Holds s a → eqFn a key = false) : Distinct eqFn m' := by
  intro s t a b ha hb heq
  rw [hf.holds_iff hslot] at ha hb
  rcases ha with ⟨rfl, rfl⟩ | ⟨hs, ha⟩ <;> rcases hb with ⟨rfl, rfl⟩ | ⟨ht, hb⟩
  · rfl
  · have := hnew t b hb
    rw [hl.symm a b heq] at this
    exact absurd this (by simp)
  · rw [hnew s a ha] at heq
    exact absurd heq (by simp)
  · exact hd s t a b ha hb heq

/-- A released bucket holds nothing; the rest of the table is as it was. -/
theorem vacate_holds_iff (h : Inv hashFn m) {slot : ℕ} (hslot : slot < m.capacity) (s : ℕ) (a : K) :
    (m.vacate slot).Holds s a ↔ s ≠ slot ∧ m.Holds s a := by
  by_cases hs : s = slot
  · subst hs
    have hfree : isOccupied ((m.vacate s).status s) = false := by
      simp only [vacate, setStatus, Function.update_self]
      split_ifs
      · exact isOccupied_empty
      · exact isOccupied_tombstone
    simp [Holds, hfree]
  · simp [Holds, vacate, setStatus, Function.update_of_ne hs, hs]

theorem Inv.vacate (h : Inv hashFn m) {slot : ℕ} (hslot : slot < m.capacity)
    (hocc : isOccupied (m.status slot) = true) : Inv hashFn (m.vacate slot) := by
  -- the byte the bucket is left with
  set runEnd := decide (m.status ((slot + 1) &&& m.mask) = bucketEmpty) with hrun
  set b : Byte := if runEnd then bucketEmpty else bucketTombstone with hb
  have hstatus : (m.vacate slot).status = Function.update m.status slot b := rfl
  have hfree : isOccupied b = false := by
    rw [hb]
    split_ifs
    · exact isOccupied_empty
    · exact isOccupied_tombstone
  have hcount := card_update m.status b isOccupied hslot
  have htomb := card_update m.status b isTombstone hslot
  have hslotTomb : isTombstone (m.status slot) = false := decide_eq_false (ne_of_isOccupied hocc).2
  rw [hocc, hfree, if_pos rfl, if_neg (by simp)] at hcount
  rw [hslotTomb, if_neg (by simp)] at htomb
  have hlen := h.len_eq
  have htombs := h.tombstones_eq
  have hload := h.load
  rw [bucketCount] at hlen htombs
  have hrunTomb : (if isTombstone b = true then 1 else 0) = if runEnd then 0 else 1 := by
    rw [hb]
    cases runEnd
    · rfl
    · rfl
  rw [hrunTomb] at htomb
  have hnewLen : (m.vacate slot).len = m.len - 1 := rfl
  have hnewTombs : (m.vacate slot).tombstones = m.tombstones + if runEnd then 0 else 1 := rfl
  refine ⟨h.grouped, ?_, ?_, ?_, fun s hs hfree' => ?_, fun s hs hocc' => ?_⟩
  · rw [bucketCount, hnewLen, hstatus]
    exact (Nat.sub_eq_of_eq_add (by rw [hlen]; exact hcount.symm))
  · rw [bucketCount, hnewTombs, hstatus, htombs]
    exact htomb.symm
  · have hle : (if runEnd then 0 else 1) ≤ 1 := by split_ifs <;> omega
    rw [hnewLen, hnewTombs]
    change 4 * (m.len - 1 + (m.tombstones + if runEnd then 0 else 1)) ≤ 3 * m.capacity
    omega
  · rw [hstatus] at hfree' ⊢
    by_cases hss : s = slot
    · rw [hss, Function.update_self, hb]
      split_ifs
      · exact Or.inl rfl
      · exact Or.inr rfl
    · rw [Function.update_of_ne hss] at hfree' ⊢
      exact h.free s hs hfree'
  · rw [hstatus] at hocc' ⊢
    by_cases hss : s = slot
    · rw [hss, Function.update_self, hfree] at hocc'
      exact absurd hocc' (by simp)
    rw [Function.update_of_ne hss] at hocc'
    obtain ⟨a, hkey, hctrl, hreach⟩ := h.stored s hs hocc'
    refine ⟨a, hkey, by rwa [Function.update_of_ne hss], ?_⟩
    change Reached m.capacity _ (m.homeSlot hashFn a) s
    by_cases hr : runEnd = true
    · -- the next bucket is empty, so no other chain runs through this one
      have hsucc : stopAt m.status ((slot + 1) % m.capacity) = true := by
        rw [← h.grouped.and_mask]
        exact hr
      have hgo : stopAt m.status s = false := decide_eq_false (ne_of_isOccupied hocc').1
      refine (hreach.release hgo hss hsucc).mono fun x hx => ?_
      rw [stopAt, hb, if_pos hr]
      by_cases hxs : x = slot
      · rw [hxs, Function.update_self] at hx
        exact absurd hx (by simp)
      · rw [Function.update_of_ne hxs] at hx ⊢
        exact hx
    · refine hreach.mono fun x hx => ?_
      rw [stopAt, hb, if_neg hr]
      by_cases hxs : x = slot
      · rw [hxs, Function.update_self]
        rfl
      · rw [Function.update_of_ne hxs]
        exact hx

theorem Distinct.vacate (h : Inv hashFn m) (hd : Distinct eqFn m) {slot : ℕ} (hslot : slot < m.capacity) :
    Distinct eqFn (m.vacate slot) := by
  intro s t a b ha hb heq
  rw [vacate_holds_iff h hslot] at ha hb
  exact hd s t a b ha.2 hb.2 heq

/-! Rehashing. -/

theorem emptySlot_eq {n k slot : ℕ} (hcap : GroupedCapacity m.capacity) (hslot : slot < m.capacity)
    (hk : k < n) (hbefore : ∀ i < k, stopAt m.status (probe m.capacity slot i) = false)
    (hstop : stopAt m.status (probe m.capacity slot k) = true) :
    m.emptySlot n slot = probe m.capacity slot k := by
  induction k generalizing n slot with
  | zero =>
    obtain ⟨n, rfl⟩ : ∃ n', n = n' + 1 := ⟨n - 1, by omega⟩
    rw [probe_zero hslot] at hstop ⊢
    rw [emptySlot, if_neg (not_not.mpr (of_decide_eq_true hstop))]
  | succ k ih =>
    obtain ⟨n, rfl⟩ : ∃ n', n = n' + 1 := ⟨n - 1, by omega⟩
    have hpos := hcap.le
    have hgo := hbefore 0 (by omega)
    rw [probe_zero hslot] at hgo
    have hstep : ∀ j, probe m.capacity ((slot + 1) % m.capacity) j = probe m.capacity slot (j + 1) :=
      fun j => by rw [show (slot + 1) % m.capacity = probe m.capacity slot 1 from rfl, probe_probe, Nat.add_comm]
    rw [emptySlot, if_pos (of_decide_eq_false hgo), mask, hcap.and_mask, ← hstep]
    exact ih (Nat.mod_lt _ (by omega)) (by omega) (fun i hi => by rw [hstep]; exact hbefore (i + 1) (by omega))
      (by rwa [hstep])

/-- `while status[slot] != EMPTY` ends, on a free bucket of the chain. -/
theorem emptySlot_spec (h : Inv hashFn m) {slot : ℕ} (hslot : slot < m.capacity) :
    m.status (m.emptySlot m.capacity slot) = bucketEmpty ∧ m.emptySlot m.capacity slot < m.capacity ∧
      Reached m.capacity (stopAt m.status) slot (m.emptySlot m.capacity slot) := by
  obtain ⟨k, hk, hpass, hend⟩ := @Stops.first _ _ (fun _ => false) _ (h.stops hslot)
  have hstop : stopAt m.status (probe m.capacity slot k) = true := by
    by_contra hgo
    exact hend ⟨by simpa using hgo, rfl⟩
  have hbefore : ∀ i < k, stopAt m.status (probe m.capacity slot i) = false := fun i hi => (hpass i hi).1
  rw [emptySlot_eq h.grouped hslot hk hbefore hstop]
  exact ⟨of_decide_eq_true hstop, probe_lt h.pos _ _, k, hk, rfl, hbefore⟩

/-- The fresh table after the first `n` buckets of the old one were moved. -/
def rehashed (hashFn : K → Word) (old : KaracMap K V) (capacity n : ℕ) : KaracMap K V :=
  (List.range n).foldl (rehashSlot hashFn old) (old.withStorage capacity)

theorem rehashed_succ (capacity n : ℕ) : rehashed hashFn old capacity (n + 1) =
    rehashSlot hashFn old (rehashed hashFn old capacity n) n := by
  rw [rehashed, List.range_succ, List.foldl_append]
  rfl

/-- The occupied buckets among the first `n`. -/
def occupiedBelow (m : KaracMap K V) (n : ℕ) : ℕ :=
  ((Finset.range n).filter fun s => isOccupied (m.status s) = true).card

theorem occupiedBelow_succ (n : ℕ) : old.occupiedBelow (n + 1) =
    old.occupiedBelow n + if isOccupied (old.status n) = true then 1 else 0 := by
  rw [occupiedBelow, occupiedBelow, Finset.range_add_one, Finset.filter_insert]
  split_ifs
  · rw [Finset.card_insert_of_notMem (by simp)]
  · rfl

theorem occupiedBelow_le {n k : ℕ} (hle : n ≤ k) : old.occupiedBelow n ≤ old.occupiedBelow k :=
  Finset.card_le_card (Finset.filter_subset_filter _ (Finset.range_subset_range.mpr hle))

theorem rehashSlot_skip {n : ℕ} (hfree : isOccupied (old.status n) = false) :
    rehashSlot hashFn old m n = m := by
  rw [rehashSlot, if_neg (by rw [hfree]; simp)]

/-- Moving one bucket fills a free one on the chain of its key. -/
theorem rehashSlot_fills (h : Inv hashFn m) {n : ℕ} {key : K} (hkey : old.Holds n key) :
    ∃ slot, FreeSlot hashFn m key slot ∧ Fills hashFn m (rehashSlot hashFn old m n) slot key ∧
      (rehashSlot hashFn old m n).vals = Function.update m.vals slot (old.vals n) := by
  obtain ⟨hempty, hlt, hreach⟩ := emptySlot_spec h (h.homeSlot_lt key)
  refine ⟨_, ⟨hlt, by rw [hempty, isOccupied_empty], hreach⟩, ?_⟩
  have hmove : rehashSlot hashFn old m n =
      { m with keys := Function.update m.keys (m.emptySlot m.capacity (m.homeSlot hashFn key)) (some key),
               vals := Function.update m.vals (m.emptySlot m.capacity (m.homeSlot hashFn key)) (old.vals n),
               status := Function.update m.status (m.emptySlot m.capacity (m.homeSlot hashFn key))
                 (ctrlOf (hashFn key)),
               len := m.len + 1 } := by
    rw [rehashSlot, if_pos hkey.2.1, hkey.2.2]
    rfl
  rw [hmove]
  refine ⟨⟨rfl, rfl, rfl, rfl, ?_⟩, rfl⟩
  rw [hempty, if_neg (by decide)]

/-- A capacity that the live keys fit in. -/
structure Fits (m : KaracMap K V) (capacity : ℕ) : Prop where
  grouped : GroupedCapacity capacity
  load : 4 * m.len ≤ 3 * capacity

section Rehash

variable {capacity : ℕ} (h : Inv hashFn old) (hfits : old.Fits capacity)
include h hfits

/-- While the buckets move, the fresh table keeps the invariant and counts what was moved. -/
theorem rehashed_inv {n : ℕ} (hn : n ≤ old.capacity) :
    Inv hashFn (rehashed hashFn old capacity n) ∧ (rehashed hashFn old capacity n).capacity = capacity ∧
      (rehashed hashFn old capacity n).tombstones = 0 ∧
      (rehashed hashFn old capacity n).len = old.occupiedBelow n := by
  induction n with
  | zero => exact ⟨Inv.blank hfits.grouped rfl rfl fun _ _ => rfl, rfl, rfl, rfl⟩
  | succ n ih =>
    obtain ⟨hinv, hcap, htombs, hlen⟩ := ih (by omega)
    rw [rehashed_succ, occupiedBelow_succ]
    by_cases hocc : isOccupied (old.status n) = true
    · obtain ⟨key, hkey⟩ := h.holds_of_occupied (by omega) hocc
      obtain ⟨slot, hslot, hf, -⟩ := rehashSlot_fills hinv hkey
      have hroom : (rehashed hashFn old capacity n).HasRoom := by
        have hle := @occupiedBelow_le _ _ old _ _ hn
        have htotal : old.len = old.occupiedBelow old.capacity := h.len_eq
        have hload := hfits.load
        rw [occupiedBelow_succ, if_pos hocc] at hle
        rw [HasRoom, hcap, htombs, hlen]
        omega
      refine ⟨hinv.fill hf hslot hroom, by rw [hf.capacity, hcap], ?_, by rw [hf.len, hlen, if_pos hocc]⟩
      rw [hf.tombstones, htombs]
      split_ifs <;> rfl
    · have hfree : isOccupied (old.status n) = false := by simpa using hocc
      rw [rehashSlot_skip hfree, if_neg hocc]
      exact ⟨hinv, hcap, htombs, hlen⟩

/-- What holds of the blank storage and is kept as one key after the other is moved holds of the
regrown table. -/
theorem rehash_induction {P : ℕ → KaracMap K V → Prop} (hzero : P 0 (old.withStorage capacity))
    (hskip : ∀ n p, n < old.capacity → isOccupied (old.status n) = false → P n p → P (n + 1) p)
    (hfill : ∀ n p p' slot key, old.Holds n key → P n p → FreeSlot hashFn p key slot →
      Fills hashFn p p' slot key → p'.vals = Function.update p.vals slot (old.vals n) → P (n + 1) p') :
    P old.capacity (old.regrow hashFn capacity) := by
  have hrun : ∀ n ≤ old.capacity, P n (rehashed hashFn old capacity n) := by
    intro n hn
    induction n with
    | zero => exact hzero
    | succ n ih =>
      rw [rehashed_succ]
      by_cases hocc : isOccupied (old.status n) = true
      · obtain ⟨key, hkey⟩ := h.holds_of_occupied (by omega) hocc
        obtain ⟨slot, hslot, hf, hvals⟩ := rehashSlot_fills (rehashed_inv h hfits (n := n) (by omega)).1 hkey
        exact hfill n _ _ slot key hkey (ih (by omega)) hslot hf hvals
      · have hfree : isOccupied (old.status n) = false := by simpa using hocc
        rw [rehashSlot_skip hfree]
        exact hskip n _ (by omega) hfree (ih (by omega))
  exact hrun _ le_rfl

theorem regrow_inv : Inv hashFn (old.regrow hashFn capacity) ∧
    (old.regrow hashFn capacity).capacity = capacity ∧ (old.regrow hashFn capacity).tombstones = 0 ∧
    (old.regrow hashFn capacity).len = old.len := by
  obtain ⟨hinv, hcap, htombs, hlen⟩ := rehashed_inv h hfits le_rfl
  exact ⟨hinv, hcap, htombs, hlen.trans h.len_eq.symm⟩

theorem regrow_distinct (hl : LawfulKeys hashFn eqFn) (hd : Distinct eqFn old) :
    Distinct eqFn (old.regrow hashFn capacity) := by
  -- every key of the fresh table comes from a bucket already moved
  have hrun : Distinct eqFn (old.regrow hashFn capacity) ∧ ∀ s a,
      (old.regrow hashFn capacity).Holds s a → ∃ t < old.capacity, old.Holds t a := by
    apply rehash_induction h hfits (P := fun n p => Distinct eqFn p ∧ ∀ s a, p.Holds s a →
      ∃ t < n, old.Holds t a)
    · refine ⟨Distinct.blank fun _ _ => rfl, fun s a ha => ?_⟩
      have hocc : isOccupied bucketEmpty = true := ha.2.1
      rw [isOccupied_empty] at hocc
      exact absurd hocc (by simp)
    · rintro n p - - ⟨hdp, hfrom⟩
      refine ⟨hdp, fun s a ha => ?_⟩
      obtain ⟨t, ht, hta⟩ := hfrom s a ha
      exact ⟨t, by omega, hta⟩
    · rintro n p p' slot key hkey ⟨hdp, hfrom⟩ hslot hf -
      refine ⟨hdp.fill hl hf hslot.lt fun s a ha => ?_, fun s a ha => ?_⟩
      · obtain ⟨t, ht, hta⟩ := hfrom s a ha
        by_contra heq
        have := hd t n a key hta hkey (by simpa using heq)
        omega
      · rcases (hf.holds_iff hslot.lt s a).mp ha with ⟨rfl, rfl⟩ | ⟨-, ha⟩
        · exact ⟨n, by omega, hkey⟩
        · obtain ⟨t, ht, hta⟩ := hfrom s a ha
          exact ⟨t, by omega, hta⟩
  exact hrun.1

end Rehash

/-! Capacities. -/

theorem nextCapacity_fits (h : Inv hashFn m) : m.Fits m.nextCapacity ∧ 4 * (m.len + 1) ≤ 3 * m.nextCapacity := by
  have hload := h.load
  have hpos := h.grouped.le
  rw [nextCapacity]
  split_ifs with hband
  · exact ⟨⟨h.grouped, by omega⟩, by omega⟩
  · exact ⟨⟨h.grouped.double 1, by omega⟩, by omega⟩

theorem growTo_eq_some {needed fuel cap c : ℕ} (h : growTo needed fuel cap = some c) :
    needed ≤ c ∧ ∃ e, c = cap * 2 ^ e := by
  induction fuel generalizing cap with
  | zero => simp [growTo] at h
  | succ fuel ih =>
    rw [growTo] at h
    split_ifs at h with hlt hfit
    · obtain ⟨hle, e, rfl⟩ := ih h
      exact ⟨hle, e + 1, by ring⟩
    · obtain rfl := Option.some.inj h
      exact ⟨by omega, 0, by simp⟩

theorem growTo_fits (h : Inv hashFn m) {needed c : ℕ}
    (hc : growTo needed 64 (max m.capacity initialCapacity) = some c) : m.Fits c := by
  obtain ⟨-, e, rfl⟩ := growTo_eq_some hc
  have hpos := h.grouped.le
  have hload := h.load
  have hmax : max m.capacity initialCapacity = m.capacity := by simp only [initialCapacity]; omega
  rw [hmax]
  refine ⟨h.grouped.double e, ?_⟩
  have hle : m.capacity ≤ m.capacity * 2 ^ e := Nat.le_mul_of_pos_right _ (by positivity)
  omega

/-! The operations. -/

/-- What an operation may do to a table that keeps the invariant. -/
structure Keeps (hashFn : K → Word) (eqFn : K → K → Bool) (m m' : KaracMap K V) : Prop where
  inv : Inv hashFn m'
  distinct : LawfulKeys hashFn eqFn → Distinct eqFn m → Distinct eqFn m'

theorem Keeps.refl (h : Inv hashFn m) : Keeps hashFn eqFn m m := ⟨h, fun _ hd => hd⟩

theorem Keeps.trans {m₁ m₂ : KaracMap K V} (h₁ : Keeps hashFn eqFn m m₁) (h₂ : Keeps hashFn eqFn m₁ m₂) :
    Keeps hashFn eqFn m m₂ := ⟨h₂.inv, fun hl hd => h₂.distinct hl (h₁.distinct hl hd)⟩

theorem keeps_setVal (h : Inv hashFn m) (slot : ℕ) (v : V) : Keeps hashFn eqFn m (m.setVal slot v) :=
  ⟨h.setVal slot v, fun _ hd => hd⟩

theorem keeps_regrow (h : Inv hashFn m) {capacity : ℕ} (hfits : m.Fits capacity) :
    Keeps hashFn eqFn m (m.regrow hashFn capacity) :=
  ⟨(regrow_inv h hfits).1, regrow_distinct h hfits⟩

theorem keeps_fill (h : Inv hashFn m) {slot : ℕ} {key : K} (hf : Fills hashFn m m' slot key)
    (hslot : FreeSlot hashFn m key slot) (hroom : m.HasRoom)
    (hnew : LawfulKeys hashFn eqFn → ∀ s a, m.Holds s a → eqFn a key = false) : Keeps hashFn eqFn m m' :=
  ⟨h.fill hf hslot hroom, fun hl hd => hd.fill hl hf hslot.lt (hnew hl)⟩

theorem keeps_vacate (h : Inv hashFn m) {slot : ℕ} {key : K} (hk : m.Holds slot key) :
    Keeps hashFn eqFn m (m.vacate slot) :=
  ⟨h.vacate hk.1 hk.2.1, fun _ hd => hd.vacate h hk.1⟩

/-- The table has room after the growth test and its resize. -/
theorem hasRoom_regrow (h : Inv hashFn m) : (m.regrow hashFn m.nextCapacity).HasRoom := by
  obtain ⟨hfits, hroom⟩ := nextCapacity_fits h
  obtain ⟨-, hcap, htombs, hlen⟩ := regrow_inv h hfits
  rw [HasRoom, hcap, htombs, hlen]
  omega

theorem hasRoom_of_needsResize (hn : m.needsResize = false) : m.HasRoom := by
  have := of_decide_eq_false hn
  rw [HasRoom]
  omega

theorem resizeIfNeeded_spec (h : Inv hashFn m) {alloc : ℕ → Bool}
    (hr : m.resizeIfNeeded hashFn alloc = some m') : Keeps hashFn eqFn m m' ∧ m'.HasRoom := by
  rw [resizeIfNeeded] at hr
  split_ifs at hr with hn
  · rw [resize] at hr
    split_ifs at hr
    obtain rfl := Option.some.inj hr
    exact ⟨keeps_regrow h (nextCapacity_fits h).1, hasRoom_regrow h⟩
  · obtain rfl := Option.some.inj hr
    exact ⟨Keeps.refl h, hasRoom_of_needsResize (by simpa using hn)⟩

/-- A claimed bucket is filled with the key. -/
theorem claim_fills (key : K) (slot : ℕ) :
    Fills hashFn m ((m.claim key slot true).setStatus slot (ctrlOf (hashFn key))) slot key :=
  ⟨rfl, rfl, rfl, rfl, rfl⟩

theorem claim_setVal_fills (key : K) (slot : ℕ) (v : V) :
    Fills hashFn m (((m.claim key slot true).setVal slot v).setStatus slot (ctrlOf (hashFn key))) slot key :=
  ⟨rfl, rfl, rfl, rfl, rfl⟩

theorem setStatus_self (slot : ℕ) : m.setStatus slot (m.status slot) = m := by
  rw [setStatus, Function.update_eq_self]

/-- Insertion overwrites the value of an equal key, or fills a free bucket. -/
theorem place_spec (h : Inv hashFn m) (key : K) (val : V) :
    (∃ s a, m.Holds s a ∧ eqFn a key = true ∧
      m.place hashFn eqFn key val = (m.setVal s val, m.vals s)) ∨
    ∃ s, FreeSlot hashFn m key s ∧ (LawfulKeys hashFn eqFn → ∀ s' a, m.Holds s' a → eqFn a key = false) ∧
      m.place hashFn eqFn key val =
        (((m.claim key s true).setVal s val).setStatus s (ctrlOf (hashFn key)), none) := by
  rcases @findInsertSlot_spec _ _ hashFn eqFn m h key with ⟨s, a, ha, heq, hctrl, hfind⟩ | ⟨s, hs, hnew, hfind⟩
  · refine Or.inl ⟨s, a, ha, heq, ?_⟩
    rw [place, hfind]
    have hsame : (m.setVal s val).setStatus s (ctrlOf (hashFn key)) = m.setVal s val := by
      rw [← hctrl]
      exact setStatus_self (m := m.setVal s val) s
    simp [claim, hsame]
  · refine Or.inr ⟨s, hs, hnew, ?_⟩
    rw [place, hfind]
    simp

theorem keeps_place (h : Inv hashFn m) (hroom : m.HasRoom) (key : K) (val : V) :
    Keeps hashFn eqFn m (m.place hashFn eqFn key val).1 := by
  rcases @place_spec _ _ hashFn eqFn m h key val with ⟨s, a, ha, -, hplace⟩ | ⟨s, hs, hnew, hplace⟩
  · rw [hplace]
    exact keeps_setVal h s val
  · rw [hplace]
    exact keeps_fill h (claim_setVal_fills key s val) hs hroom hnew

theorem keeps_tryInsert (h : Inv hashFn m) (alloc : ℕ → Bool) (key : K) (val : V) :
    Keeps hashFn eqFn m (m.tryInsert hashFn eqFn alloc key val).1 := by
  rw [tryInsert]
  split_ifs with hn
  · rw [tryResize]
    by_cases halloc : alloc m.nextCapacity = true
    · rw [if_pos halloc]
      have hfits := (nextCapacity_fits h).1
      exact (keeps_regrow h hfits).trans
        (keeps_place (regrow_inv h hfits).1 (hasRoom_regrow h) key val)
    · rw [if_neg halloc]
      exact Keeps.refl h
  · exact keeps_place h (hasRoom_of_needsResize (by simpa using hn)) key val

theorem entry_spec (h : Inv hashFn m) (hroom : m.HasRoom) (key : K) :
    (∃ s a, m.Holds s a ∧ eqFn a key = true ∧
      m.findInsertSlot hashFn eqFn key = (s, true, ctrlOf (hashFn key))) ∨
    ∃ s, FreeSlot hashFn m key s ∧ (LawfulKeys hashFn eqFn → ∀ s' a, m.Holds s' a → eqFn a key = false) ∧
      m.findInsertSlot hashFn eqFn key = (s, false, ctrlOf (hashFn key)) ∧
      Keeps hashFn eqFn m ((m.claim key s true).setStatus s (ctrlOf (hashFn key))) := by
  rcases @findInsertSlot_spec _ _ hashFn eqFn m h key with ⟨s, a, ha, heq, -, hfind⟩ | ⟨s, hs, hnew, hfind⟩
  · exact Or.inl ⟨s, a, ha, heq, hfind⟩
  · exact Or.inr ⟨s, hs, hnew, hfind, keeps_fill h (claim_fills key s) hs hroom hnew⟩

theorem keeps_entry (h : Inv hashFn m) {alloc : ℕ → Bool} {key : K} {slot : ℕ} {existed : Bool}
    (he : m.entry hashFn eqFn alloc key = some (m', slot, existed)) : Keeps hashFn eqFn m m' := by
  obtain ⟨m₁, hresize, hm⟩ := Option.map_eq_some_iff.mp he
  obtain ⟨hkeeps, hroom⟩ := @resizeIfNeeded_spec _ _ hashFn eqFn _ _ h _ hresize
  rcases @entry_spec _ _ hashFn eqFn m₁ hkeeps.inv hroom key with ⟨s, a, -, -, hfind⟩ | ⟨s, -, -, hfind, hfill⟩
  · rw [hfind] at hm
    obtain ⟨rfl, -⟩ := Prod.mk.inj hm
    exact hkeeps
  · rw [hfind] at hm
    obtain ⟨rfl, -⟩ := Prod.mk.inj hm
    exact hkeeps.trans hfill

theorem keeps_reserveAdditional (h : Inv hashFn m) {alloc : ℕ → Bool} {additional : ℕ}
    (hr : m.reserveAdditional hashFn alloc additional = .ok m') : Keeps hashFn eqFn m m' := by
  rw [reserveAdditional] at hr
  split_ifs at hr
  · obtain rfl := Except.ok.inj hr
    exact Keeps.refl h
  · cases hgrow : growTo (m.neededCapacity additional) 64 (max m.capacity initialCapacity) with
    | none => simp [hgrow] at hr
    | some c =>
      simp only [hgrow] at hr
      split_ifs at hr
      obtain rfl := Except.ok.inj hr
      exact keeps_regrow h (growTo_fits h hgrow)

theorem keeps_remove (h : Inv hashFn m) (key : K) : Keeps hashFn eqFn m (m.remove hashFn eqFn key).1 := by
  rcases @lookup_spec _ _ hashFn eqFn m h key with ⟨s, a, ha, -, hs⟩ | ⟨hs, -⟩
  · rw [remove, hs]
    exact keeps_vacate h ha
  · rw [remove, hs]
    exact Keeps.refl h

theorem keeps_removeOld (h : Inv hashFn m) (key : K) :
    Keeps hashFn eqFn m (m.removeOld hashFn eqFn key).1 := by
  rcases @lookup_spec _ _ hashFn eqFn m h key with ⟨s, a, ha, -, hs⟩ | ⟨hs, -⟩
  · rw [removeOld, hs]
    exact keeps_vacate h ha
  · rw [removeOld, hs]
    exact Keeps.refl h

theorem keeps_reserve (h : Inv hashFn m) {alloc : ℕ → Bool} {additional : ℤ}
    (hr : m.reserve hashFn alloc additional = some m') : Keeps hashFn eqFn m m' := by
  rw [reserve] at hr
  split_ifs at hr
  · obtain rfl := Option.some.inj hr
    exact Keeps.refl h
  · cases hres : m.reserveAdditional hashFn alloc additional.toNat with
    | ok m₁ =>
      simp only [hres] at hr
      obtain rfl := Option.some.inj hr
      exact keeps_reserveAdditional h hres
    | error bytes => simp [hres] at hr

theorem keeps_tryReserve (h : Inv hashFn m) (alloc : ℕ → Bool) (additional : ℤ) :
    Keeps hashFn eqFn m (m.tryReserve hashFn alloc additional).1 := by
  rw [tryReserve]
  split_ifs
  · exact Keeps.refl h
  · cases hres : m.reserveAdditional hashFn alloc additional.toNat with
    | ok m₁ => exact keeps_reserveAdditional h hres
    | error bytes => exact Keeps.refl h

theorem keeps_clear (h : Inv hashFn m) : Keeps hashFn eqFn m m.clear := by
  have hempty : ∀ s < m.clear.capacity, m.clear.status s = bucketEmpty := fun s hs => if_pos hs
  exact ⟨Inv.blank h.grouped rfl rfl hempty, fun _ _ => Distinct.blank hempty⟩

/-- One operation of the map, and the write of a value through the pointer that `entry` or
`lookup_slot` handed out. -/
inductive Step (hashFn : K → Word) (eqFn : K → K → Bool) : KaracMap K V → KaracMap K V → Prop
  | insert {m m' : KaracMap K V} (alloc : ℕ → Bool) (key : K) (val : V)
      (h : m.insert hashFn eqFn alloc key val = some m') : Step hashFn eqFn m m'
  | insertOld {m m' : KaracMap K V} (alloc : ℕ → Bool) (key : K) (val : V) (old : Option V)
      (h : m.insertOld hashFn eqFn alloc key val = some (m', old)) : Step hashFn eqFn m m'
  | tryInsert (m : KaracMap K V) (alloc : ℕ → Bool) (key : K) (val : V) :
      Step hashFn eqFn m (m.tryInsert hashFn eqFn alloc key val).1
  | entry {m m' : KaracMap K V} (alloc : ℕ → Bool) (key : K) (slot : ℕ) (existed : Bool)
      (h : m.entry hashFn eqFn alloc key = some (m', slot, existed)) : Step hashFn eqFn m m'
  | writeVal (m : KaracMap K V) (slot : ℕ) (val : V) : Step hashFn eqFn m (m.setVal slot val)
  | remove (m : KaracMap K V) (key : K) : Step hashFn eqFn m (m.remove hashFn eqFn key).1
  | removeOld (m : KaracMap K V) (key : K) : Step hashFn eqFn m (m.removeOld hashFn eqFn key).1
  | reserve {m m' : KaracMap K V} (alloc : ℕ → Bool) (additional : ℤ)
      (h : m.reserve hashFn alloc additional = some m') : Step hashFn eqFn m m'
  | tryReserve (m : KaracMap K V) (alloc : ℕ → Bool) (additional : ℤ) :
      Step hashFn eqFn m (m.tryReserve hashFn alloc additional).1
  | clear (m : KaracMap K V) : Step hashFn eqFn m m.clear

theorem Step.keeps (hstep : Step hashFn eqFn m m') (h : Inv hashFn m) : Keeps hashFn eqFn m m' := by
  induction hstep with
  | insert alloc key val hm =>
    obtain ⟨m₁, hresize, rfl⟩ := Option.map_eq_some_iff.mp hm
    obtain ⟨hkeeps, hroom⟩ := @resizeIfNeeded_spec _ _ hashFn eqFn _ _ h _ hresize
    exact hkeeps.trans (keeps_place hkeeps.inv hroom key val)
  | insertOld alloc key val old hm =>
    obtain ⟨m₁, hresize, hplace⟩ := Option.map_eq_some_iff.mp hm
    obtain ⟨hkeeps, hroom⟩ := @resizeIfNeeded_spec _ _ hashFn eqFn _ _ h _ hresize
    have := hkeeps.trans (keeps_place hkeeps.inv hroom key val)
    rwa [hplace] at this
  | tryInsert alloc key val => exact keeps_tryInsert h alloc key val
  | entry alloc key slot existed hm => exact keeps_entry h hm
  | writeVal slot val => exact keeps_setVal h slot val
  | remove key => exact keeps_remove h key
  | removeOld key => exact keeps_removeOld h key
  | reserve alloc additional hm => exact keeps_reserve h hm
  | tryReserve alloc additional => exact keeps_tryReserve h alloc additional
  | clear => exact keeps_clear h

/-- A table that a run of operations made from a new one. -/
def Reachable (hashFn : K → Word) (eqFn : K → K → Bool) (m : KaracMap K V) : Prop :=
  ∃ keySize valSize, Relation.ReflTransGen (Step hashFn eqFn) (new K V keySize valSize) m

theorem Reachable.inv (hr : Reachable hashFn eqFn m) :
    Inv hashFn m ∧ (LawfulKeys hashFn eqFn → Distinct eqFn m) := by
  obtain ⟨keySize, valSize, hrun⟩ := hr
  induction hrun with
  | refl => exact ⟨Inv.blank ⟨4, le_rfl, rfl⟩ rfl rfl fun _ _ => rfl, fun _ => Distinct.blank fun _ _ => rfl⟩
  | tail _ hstep ih =>
    obtain ⟨hinv, hdistinct⟩ := ih
    have hkeeps := hstep.keeps hinv
    exact ⟨hkeeps.inv, fun hl => hkeeps.distinct hl (hdistinct hl)⟩

/-- Every reachable table keeps the representation invariant, so a bucket is empty, `find_insert_slot`
answers from inside its loop, and the probes of a rehash end. -/
theorem reachable_invariant (hashFn : K → Word) (eqFn : K → K → Bool) (m : KaracMap K V)
    (hr : Reachable hashFn eqFn m) :
    Inv hashFn m ∧ (LawfulKeys hashFn eqFn → Distinct eqFn m) ∧
    (∀ home < m.capacity, ∃ k < m.capacity, m.status (probe m.capacity home k) = bucketEmpty) ∧
    (∀ key after, insertLoop m (ctrlOf (hashFn key)) (m.eqAt eqFn key) after m.capacity
      (m.homeSlot hashFn key) 0 none =
        ((m.findInsertSlot hashFn eqFn key).1, (m.findInsertSlot hashFn eqFn key).2.1)) ∧
    ∀ capacity, m.Fits capacity → ∀ n ≤ m.capacity, ∀ slot < capacity,
      (rehashed hashFn m capacity n).status ((rehashed hashFn m capacity n).emptySlot capacity slot) =
        bucketEmpty := by
  obtain ⟨hinv, hdistinct⟩ := hr.inv
  refine ⟨hinv, hdistinct, fun home hh => ?_, fun key after => ?_, fun capacity hfits n hn slot hslot => ?_⟩
  · obtain ⟨k, hk, hstop⟩ := hinv.stops hh
    exact ⟨k, hk, of_decide_eq_true hstop⟩
  · rw [findInsertSlot_eq]
    rcases @insertLoop_spec _ _ hashFn eqFn m hinv key with ⟨s, a, -, -, -, hloop⟩ | ⟨s, -, -, hloop⟩
    · rw [hloop, hloop]
    · rw [hloop, hloop]
  · obtain ⟨hp, hcap, -, -⟩ := rehashed_inv hinv hfits hn
    have hempty := (@emptySlot_spec _ _ hashFn _ hp slot (by rwa [hcap])).1
    rwa [hcap] at hempty

theorem reachable_invariant_insert :
    Inv (BitVec.ofNat 64) ((new ℕ ℕ 8 8).tryInsert (BitVec.ofNat 64) Nat.beq (fun _ => true) 3 7).1 :=
  (reachable_invariant (BitVec.ofNat 64) Nat.beq _
    ⟨8, 8, Relation.ReflTransGen.single (Step.tryInsert _ _ _ _)⟩).1

end KaracMap

end Karac.Map
