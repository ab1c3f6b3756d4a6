import Karac.Map.Runs

/-! The capacity follows the live keys and not the history: a call leaves it, or asks for the next one under the growth
rule, and that rule doubles only while the live keys fill more than three sixteenths of the buckets. -/

namespace Karac.Map

variable {K V : Type}

/-- A call that reserves room ahead of its keys. -/
def Op.reserves : Op K V → Bool
  | .reserve .. | .tryReserve .. => true
  | _ => false

/-- The call's allocator hands out this many buckets. -/
def Op.Grants : Op K V → ℕ → Prop
  | .insert alloc .. | .insertOld alloc .. | .tryInsert alloc .. | .entry alloc .. | .reserve alloc _
  | .tryReserve alloc _ => fun capacity => alloc capacity = true
  | _ => fun _ => False

/-- The run keeps at most `limit` live keys, from the table it starts on to the last one. -/
def LiveWithin (hashFn : K → Word) (eqFn : K → K → Bool) (limit : ℕ) : List (Op K V) → KaracMap K V → Prop
  | [], m => m.len ≤ limit
  | op :: ops, m =>
    m.len ≤ limit ∧ ∀ m' a, op.run hashFn eqFn m = some (m', a) → LiveWithin hashFn eqFn limit ops m'

namespace KaracMap

variable {hashFn : K → Word} {eqFn : K → K → Bool} {m m' : KaracMap K V}

/-- The buckets that the growth test counts: live keys and tombstones. -/
def used (m : KaracMap K V) : ℕ := m.len + m.tombstones

theorem rehashSlot_capacity (old : KaracMap K V) (i : ℕ) : (rehashSlot hashFn old m i).capacity = m.capacity := by
  rw [rehashSlot]
  split_ifs
  · cases old.keys i <;> rfl
  · rfl

@[simp] theorem regrow_capacity (capacity : ℕ) : (m.regrow hashFn capacity).capacity = capacity := by
  have hfold : ∀ (l : List ℕ) (p : KaracMap K V), (l.foldl (rehashSlot hashFn m) p).capacity = p.capacity := by
    intro l
    induction l with
    | nil => exact fun _ => rfl
    | cons i l ih => exact fun p => (ih _).trans (rehashSlot_capacity m i)
  exact hfold _ _

@[simp] theorem claim_capacity (key : K) (slot : ℕ) (fresh : Bool) :
    (m.claim key slot fresh).capacity = m.capacity := by
  cases fresh <;> rfl

@[simp] theorem place_capacity (key : K) (val : V) : (m.place hashFn eqFn key val).1.capacity = m.capacity :=
  claim_capacity key _ _

theorem claim_used_le (key : K) (slot : ℕ) (fresh : Bool) : (m.claim key slot fresh).used ≤ m.used + 1 := by
  cases fresh with
  | false => exact Nat.le_succ _
  | true =>
    have htombs : (m.claim key slot true).tombstones ≤ m.tombstones := by
      show (if m.status slot = bucketTombstone then m.tombstones - 1 else m.tombstones) ≤ m.tombstones
      split_ifs
      · exact Nat.sub_le _ _
      · exact le_rfl
    have hlen : (m.claim key slot true).len = m.len + 1 := rfl
    rw [used, used]
    omega

theorem place_used_le (key : K) (val : V) : (m.place hashFn eqFn key val).1.used ≤ m.used + 1 :=
  claim_used_le key _ _

theorem remove_capacity (key : K) : (m.remove hashFn eqFn key).1.capacity = m.capacity := by
  rw [remove]
  cases m.lookup hashFn eqFn key <;> rfl

theorem removeOld_capacity (key : K) : (m.removeOld hashFn eqFn key).1.capacity = m.capacity := by
  rw [removeOld]
  cases m.lookup hashFn eqFn key <;> rfl

/-- The storage is kept, or replaced by one that the allocator granted: by the growth rule, or for a reservation. -/
def Grows (grants : ℕ → Prop) (reserves : Bool) (m m' : KaracMap K V) : Prop :=
  m'.capacity = m.capacity ∨ grants m'.capacity ∧ (reserves = false → m'.capacity = m.nextCapacity)

theorem Grows.of_capacity {grants : ℕ → Prop} {reserves : Bool} {m₁ : KaracMap K V} (h : Grows grants reserves m m₁)
    (hcap : m'.capacity = m₁.capacity) : Grows grants reserves m m' := by
  rw [Grows, hcap]
  exact h

theorem grows_regrow {alloc : ℕ → Bool} {reserves : Bool} (h : alloc m.nextCapacity = true) :
    Grows (fun c => alloc c = true) reserves m (m.regrow hashFn m.nextCapacity) :=
  Or.inr ⟨by rwa [regrow_capacity], fun _ => regrow_capacity _⟩

theorem grows_resizeIfNeeded {alloc : ℕ → Bool} (h : m.resizeIfNeeded hashFn alloc = some m') :
    Grows (fun c => alloc c = true) false m m' := by
  rw [resizeIfNeeded] at h
  split_ifs at h
  · rw [resize] at h
    split_ifs at h with halloc
    obtain rfl := Option.some.inj h
    exact grows_regrow halloc
  · obtain rfl := Option.some.inj h
    exact Or.inl rfl

theorem grows_tryInsert (alloc : ℕ → Bool) (key : K) (val : V) :
    Grows (fun c => alloc c = true) false m (m.tryInsert hashFn eqFn alloc key val).1 := by
  rw [tryInsert]
  split_ifs
  · rw [tryResize]
    by_cases halloc : alloc m.nextCapacity = true
    · rw [if_pos halloc]
      exact (@grows_regrow K V hashFn m alloc false halloc).of_capacity (place_capacity key val)
    · rw [if_neg halloc]
      exact Or.inl rfl
  · exact Or.inl (place_capacity key val)

/-- An entry takes one bucket at most, after the growth test. -/
theorem entryOrInsert_storage {alloc : ℕ → Bool} {key : K} {default : V} {v : Option V}
    (h : m.entryOrInsert hashFn eqFn alloc key default = some (m', v)) :
    ∃ m₀, m.resizeIfNeeded hashFn alloc = some m₀ ∧ m'.capacity = m₀.capacity ∧ m'.used ≤ m₀.used + 1 := by
  obtain ⟨⟨m₁, slot, existed⟩, hentry, heq⟩ := Option.map_eq_some_iff.mp h
  obtain ⟨m₀, hresize, hm⟩ := Option.map_eq_some_iff.mp hentry
  refine ⟨m₀, hresize, ?_⟩
  have hm' : m'.capacity = m₁.capacity ∧ m'.used = m₁.used := by
    obtain ⟨rfl, -⟩ := Prod.mk.inj heq
    cases existed <;> exact ⟨rfl, rfl⟩
  rw [hm'.1, hm'.2]
  obtain ⟨rfl, -⟩ := Prod.mk.inj hm
  split_ifs
  · exact ⟨rfl, Nat.le_succ _⟩
  · exact ⟨rfl, claim_used_le key _ true⟩

theorem grows_entryOrInsert {alloc : ℕ → Bool} {key : K} {default : V} {v : Option V}
    (h : m.entryOrInsert hashFn eqFn alloc key default = some (m', v)) :
    Grows (fun c => alloc c = true) false m m' := by
  obtain ⟨m₀, hresize, hcap, -⟩ := entryOrInsert_storage h
  exact (grows_resizeIfNeeded hresize).of_capacity hcap

theorem grows_reserveAdditional {alloc : ℕ → Bool} {additional : ℕ}
    (h : m.reserveAdditional hashFn alloc additional = .ok m') : Grows (fun c => alloc c = true) true m m' := by
  rw [reserveAdditional] at h
  split_ifs at h
  · obtain rfl := Except.ok.inj h
    exact Or.inl rfl
  · cases hgrow : growTo (m.neededCapacity additional) 64 (max m.capacity initialCapacity) with
    | none => simp [hgrow] at h
    | some c =>
      simp only [hgrow] at h
      split_ifs at h with halloc
      obtain rfl := Except.ok.inj h
      exact Or.inr ⟨by rwa [regrow_capacity], fun hno => absurd hno (by simp)⟩

theorem grows_reserve {alloc : ℕ → Bool} {additional : ℤ} (h : m.reserve hashFn alloc additional = some m') :
    Grows (fun c => alloc c = true) true m m' := by
  rw [reserve] at h
  split_ifs at h
  · obtain rfl := Option.some.inj h
    exact Or.inl rfl
  · cases hres : m.reserveAdditional hashFn alloc additional.toNat with
    | ok m₁ =>
      simp only [hres] at h
      obtain rfl := Option.some.inj h
      exact grows_reserveAdditional hres
    | error bytes => simp [hres] at h

theorem grows_tryReserve (alloc : ℕ → Bool) (additional : ℤ) :
    Grows (fun c => alloc c = true) true m (m.tryReserve hashFn alloc additional).1 := by
  rw [tryReserve]
  split_ifs
  · exact Or.inl rfl
  · cases hres : m.reserveAdditional hashFn alloc additional.toNat with
    | ok m₁ => exact grows_reserveAdditional hres
    | error bytes => exact Or.inl rfl

/-- What a call does to the capacity. -/
theorem run_grows {op : Op K V} {a : Answer V} (h : op.run hashFn eqFn m = some (m', a)) :
    Grows op.Grants op.reserves m m' := by
  cases op with
  | insert alloc key val =>
    obtain ⟨m₁, hins, heq⟩ := Option.map_eq_some_iff.mp h
    obtain ⟨m₀, hresize, rfl⟩ := Option.map_eq_some_iff.mp hins
    obtain ⟨rfl, -⟩ := Prod.mk.inj heq
    exact (grows_resizeIfNeeded hresize).of_capacity (place_capacity key val)
  | insertOld alloc key val =>
    obtain ⟨r, hins, heq⟩ := Option.map_eq_some_iff.mp h
    obtain ⟨m₀, hresize, rfl⟩ := Option.map_eq_some_iff.mp hins
    obtain ⟨rfl, -⟩ := Prod.mk.inj heq
    exact (grows_resizeIfNeeded hresize).of_capacity (place_capacity key val)
  | tryInsert alloc key val =>
    obtain ⟨rfl, -⟩ := Prod.mk.inj (Option.some.inj h)
    exact grows_tryInsert alloc key val
  | entry alloc key default =>
    obtain ⟨r, hentry, heq⟩ := Option.map_eq_some_iff.mp h
    obtain ⟨rfl, -⟩ := Prod.mk.inj heq
    exact grows_entryOrInsert hentry
  | reserve alloc additional =>
    obtain ⟨m₁, hres, heq⟩ := Option.map_eq_some_iff.mp h
    obtain ⟨rfl, -⟩ := Prod.mk.inj heq
    exact grows_reserve hres
  | tryReserve alloc additional =>
    obtain ⟨rfl, -⟩ := Prod.mk.inj (Option.some.inj h)
    exact grows_tryReserve alloc additional
  | remove key =>
    obtain ⟨rfl, -⟩ := Prod.mk.inj (Option.some.inj h)
    exact Or.inl (remove_capacity key)
  | removeOld key =>
    obtain ⟨rfl, -⟩ := Prod.mk.inj (Option.some.inj h)
    exact Or.inl (removeOld_capacity key)
  | clear | get | contains | len =>
    obtain ⟨rfl, -⟩ := Prod.mk.inj (Option.some.inj h)
    exact Or.inl rfl

/-- The initial capacity doubled, and no more of it than `limit` live keys account for. -/
structure Bounded (limit : ℕ) (m : KaracMap K V) : Prop where
  doubled : ∃ e, m.capacity = 2 ^ (e + 4)
  small : m.capacity = initialCapacity ∨ 3 * m.capacity < 32 * (limit + 1)

theorem Bounded.step {limit : ℕ} (h : Bounded limit m) (hlive : m.len ≤ limit)
    (hnext : m'.capacity = m.capacity ∨ m'.capacity = m.nextCapacity) : Bounded limit m' := by
  obtain ⟨e, he⟩ := h.doubled
  have hnext' : m'.capacity = m.capacity ∨ (m.len + 1) * 16 > m.capacity * 3 ∧ m'.capacity = m.capacity * 2 := by
    obtain hsame | hnext := hnext
    · exact Or.inl hsame
    · rw [nextCapacity] at hnext
      split_ifs at hnext with hband
      · exact Or.inl hnext
      · exact Or.inr ⟨by omega, hnext⟩
  obtain hsame | ⟨hfull, hdouble⟩ := hnext'
  · exact ⟨⟨e, hsame.trans he⟩, hsame ▸ h.small⟩
  · exact ⟨⟨e + 1, by rw [hdouble, he]; ring⟩, Or.inr (by omega)⟩

theorem Bounded.run {limit : ℕ} (h : Bounded limit m) {ops : List (Op K V)} (hops : ∀ op ∈ ops, op.reserves = false)
    (hlive : LiveWithin hashFn eqFn limit ops m) {answers : List (Answer V)}
    (hrun : runOps hashFn eqFn ops m = some (m', answers)) : Bounded limit m' := by
  induction ops generalizing m answers with
  | nil =>
    obtain ⟨rfl, -⟩ := Prod.mk.inj (Option.some.inj hrun)
    exact h
  | cons op ops ih =>
    obtain ⟨⟨m₁, a⟩, hop, hrest⟩ := Option.bind_eq_some_iff.mp hrun
    obtain ⟨⟨m₂, as⟩, hruns, heq⟩ := Option.map_eq_some_iff.mp hrest
    obtain ⟨rfl, -⟩ := Prod.mk.inj heq
    have hkind := hops op List.mem_cons_self
    have hgrows := (run_grows hop).imp_right fun hgrown => hgrown.2 hkind
    exact ih (h.step hlive.1 hgrows) (fun op hmem => hops op (List.mem_cons_of_mem _ hmem)) (hlive.2 m₁ a hop) hruns

/-- A run of any length that inserts and removes and holds at most `limit` keys at a time leaves the initial capacity or
a power of two under `32 (limit + 1) / 3`. -/
theorem capacity_bounded_by_live (hashFn : K → Word) (eqFn : K → K → Bool) (keySize valSize limit : ℕ)
    (ops : List (Op K V)) (hops : ∀ op ∈ ops, op.reserves = false)
    (hlive : LiveWithin hashFn eqFn limit ops (new K V keySize valSize)) (m : KaracMap K V) (answers : List (Answer V))
    (hrun : runOps hashFn eqFn ops (new K V keySize valSize) = some (m, answers)) :
    (∃ e, m.capacity = 2 ^ e) ∧ m.capacity ≤ max initialCapacity (32 * (limit + 1) / 3) := by
  have hnew : Bounded limit (new K V keySize valSize) := ⟨⟨0, rfl⟩, Or.inl rfl⟩
  obtain ⟨⟨e, he⟩, hsmall⟩ := hnew.run hops hlive hrun
  refine ⟨⟨e + 4, he⟩, ?_⟩
  obtain hinit | hunder := hsmall
  · exact hinit ▸ le_max_left _ _
  · exact le_max_of_le_right (by omega)

/-- The colliding run holds two keys at most. -/
theorem capacity_bounded_by_live_colliding : collidingTable.capacity ≤ max initialCapacity (32 * (2 + 1) / 3) := by
  refine (capacity_bounded_by_live (BitVec.ofNat 64) Nat.beq 8 8 2 collidingOps ?_ ?_ collidingTable _ rfl).2
  · simp [collidingOps, Op.reserves]
  refine ⟨by decide +kernel, fun m a h => ?_⟩
  obtain ⟨rfl, -⟩ := Prod.mk.inj (Option.some.inj h)
  refine ⟨by decide +kernel, fun m a h => ?_⟩
  obtain ⟨rfl, -⟩ := Prod.mk.inj (Option.some.inj h)
  refine ⟨by decide +kernel, fun m a h => ?_⟩
  obtain ⟨rfl, -⟩ := Prod.mk.inj (Option.some.inj h)
  refine ⟨by decide +kernel, fun m a h => ?_⟩
  obtain ⟨rfl, -⟩ := Prod.mk.inj (Option.some.inj h)
  refine ⟨by decide +kernel, fun m a h => ?_⟩
  obtain ⟨rfl, -⟩ := Prod.mk.inj (Option.some.inj h)
  exact (by decide +kernel : collidingTable.len ≤ 2)

end KaracMap

end Karac.Map
