import Karac.Map.Capacity

/-! A reservation: what it grants lets that many keys in with no growth, and it changes the storage only. A map's
storage is never more than `isize::MAX` bytes: the layout of a larger one is refused before it is asked for. -/

namespace Karac.Map

variable {K V : Type}

/-- `isize::MAX`, the bound of `Layout::array`. -/
def isizeMax : ℕ := 2 ^ 63 - 1

/-- The allocator is asked only for what a layout can describe. -/
def RespectsLayout (grants : ℕ → Prop) : Prop := ∀ capacity, grants capacity → capacity ≤ isizeMax

/-- A call that may add a key. -/
def Op.inserts : Op K V → Bool
  | .insert .. | .insertOld .. | .tryInsert .. | .entry .. => true
  | _ => false

namespace KaracMap

variable {hashFn : K → Word} {eqFn : K → K → Bool} {m m' : KaracMap K V}

/-- There is room for `n` more keys under the load bound. -/
def HasRoomFor (m : KaracMap K V) (n : ℕ) : Prop := 4 * (m.used + n) ≤ 3 * m.capacity

theorem HasRoomFor.mono {n k : ℕ} (h : m.HasRoomFor n) (hk : k ≤ n) : m.HasRoomFor k := by
  rw [HasRoomFor] at h ⊢
  omega

theorem HasRoomFor.not_needsResize {n : ℕ} (h : m.HasRoomFor (n + 1)) : m.needsResize = false := by
  rw [HasRoomFor, used] at h
  rw [needsResize, decide_eq_false_iff_not]
  omega

/-- With no growth an insertion takes one more bucket at most. -/
theorem HasRoomFor.insert {n : ℕ} (h : m.HasRoomFor (n + 1)) {op : Op K V} (hop : op.inserts = true) {a : Answer V}
    (hrun : op.run hashFn eqFn m = some (m', a)) : m'.capacity = m.capacity ∧ m'.HasRoomFor n := by
  have hn := h.not_needsResize
  have hresize : ∀ alloc, m.resizeIfNeeded hashFn alloc = some m := fun alloc => if_neg (by simp [hn])
  suffices hused : m'.capacity = m.capacity ∧ m'.used ≤ m.used + 1 by
    refine ⟨hused.1, ?_⟩
    rw [HasRoomFor] at h ⊢
    omega
  cases op with
  | insert alloc key val =>
    obtain ⟨m₁, hins, heq⟩ := Option.map_eq_some_iff.mp hrun
    obtain ⟨m₀, hresized, rfl⟩ := Option.map_eq_some_iff.mp hins
    obtain ⟨rfl, -⟩ := Prod.mk.inj heq
    obtain rfl := Option.some.inj ((hresize alloc).symm.trans hresized)
    exact ⟨place_capacity key val, place_used_le key val⟩
  | insertOld alloc key val =>
    obtain ⟨r, hins, heq⟩ := Option.map_eq_some_iff.mp hrun
    obtain ⟨m₀, hresized, rfl⟩ := Option.map_eq_some_iff.mp hins
    obtain ⟨rfl, -⟩ := Prod.mk.inj heq
    obtain rfl := Option.some.inj ((hresize alloc).symm.trans hresized)
    exact ⟨place_capacity key val, place_used_le key val⟩
  | tryInsert alloc key val =>
    obtain ⟨rfl, -⟩ := Prod.mk.inj (Option.some.inj hrun)
    rw [tryInsert, if_neg (by simp [hn])]
    exact ⟨place_capacity key val, place_used_le key val⟩
  | entry alloc key default =>
    obtain ⟨r, hentry, heq⟩ := Option.map_eq_some_iff.mp hrun
    obtain ⟨rfl, -⟩ := Prod.mk.inj heq
    obtain ⟨m₀, hresized, hcap, hused⟩ := entryOrInsert_storage hentry
    obtain rfl := Option.some.inj ((hresize alloc).symm.trans hresized)
    exact ⟨hcap, hused⟩
  | reserve | tryReserve | remove | removeOld | clear | get | contains | len => simp [Op.inserts] at hop

/-- The saturating arithmetic of the request is exact wherever its answer is a capacity. -/
theorem hasRoomFor_of_needed {additional capacity : ℕ} (hle : m.neededCapacity additional ≤ capacity)
    (hcap : capacity ≤ 2 ^ 62) : 4 * (m.used + additional) ≤ 3 * capacity := by
  rw [neededCapacity, satAdd, satAdd, satAdd, satMul] at hle
  rw [used]
  omega

theorem le_of_isizeMax {capacity : ℕ} (hcap : GroupedCapacity capacity) (hle : capacity ≤ isizeMax) :
    capacity ≤ 2 ^ 62 := by
  obtain ⟨e, -, rfl⟩ := hcap
  refine Nat.pow_le_pow_right (by norm_num) ?_
  by_contra hlarge
  have hpow : 2 ^ 63 ≤ 2 ^ e := Nat.pow_le_pow_right (by norm_num) (by omega)
  rw [isizeMax] at hle
  omega

/-- A reservation that succeeds leaves room for what it was asked. -/
theorem reserveAdditional_room (h : Inv hashFn m) (hm : m.capacity ≤ isizeMax) {alloc : ℕ → Bool}
    (halloc : RespectsLayout fun c => alloc c = true) {additional : ℕ}
    (hr : m.reserveAdditional hashFn alloc additional = .ok m') : m'.HasRoomFor additional := by
  rw [reserveAdditional] at hr
  split_ifs at hr with hle
  · obtain rfl := Except.ok.inj hr
    exact hasRoomFor_of_needed hle (le_of_isizeMax h.grouped hm)
  · cases hgrow : growTo (m.neededCapacity additional) 64 (max m.capacity initialCapacity) with
    | none => simp [hgrow] at hr
    | some c =>
      simp only [hgrow] at hr
      split_ifs at hr with hgranted
      obtain rfl := Except.ok.inj hr
      have hfits := growTo_fits h hgrow
      obtain ⟨-, hcap, htombs, hlen⟩ := regrow_inv h hfits
      have hroom := hasRoomFor_of_needed (growTo_eq_some hgrow).1 (le_of_isizeMax hfits.1 (halloc c hgranted))
      rw [used] at hroom
      rw [HasRoomFor, used, hcap, htombs, hlen]
      omega

/-- None of the calls of a run finds the growth test true. -/
def NeverResizes (hashFn : K → Word) (eqFn : K → K → Bool) : List (Op K V) → KaracMap K V → Prop
  | [], _ => True
  | op :: ops, m =>
    m.needsResize = false ∧ ∀ m' a, op.run hashFn eqFn m = some (m', a) → NeverResizes hashFn eqFn ops m'

theorem HasRoomFor.neverResizes {ops : List (Op K V)} (h : m.HasRoomFor ops.length)
    (hops : ∀ op ∈ ops, op.inserts = true) : NeverResizes hashFn eqFn ops m := by
  induction ops generalizing m with
  | nil => trivial
  | cons op ops ih =>
    refine ⟨h.not_needsResize, fun m' a hrun => ?_⟩
    exact ih (h.insert (hops op List.mem_cons_self) hrun).2 fun op hmem => hops op (List.mem_cons_of_mem _ hmem)

/-- A run whose allocators respect the layout keeps the capacity describable. -/
theorem run_capacity_le {ops : List (Op K V)} (hops : ∀ op ∈ ops, RespectsLayout op.Grants)
    (hm : m.capacity ≤ isizeMax) {answers : List (Answer V)}
    (hrun : runOps hashFn eqFn ops m = some (m', answers)) : m'.capacity ≤ isizeMax := by
  induction ops generalizing m answers with
  | nil =>
    obtain ⟨rfl, -⟩ := Prod.mk.inj (Option.some.inj hrun)
    exact hm
  | cons op ops ih =>
    obtain ⟨⟨m₁, a⟩, hop, hrest⟩ := Option.bind_eq_some_iff.mp hrun
    obtain ⟨⟨m₂, as⟩, hruns, heq⟩ := Option.map_eq_some_iff.mp hrest
    obtain ⟨rfl, -⟩ := Prod.mk.inj heq
    have hnext : m₁.capacity ≤ isizeMax := by
      obtain hsame | ⟨hgranted, -⟩ := run_grows hop
      · exact hsame ▸ hm
      · exact hops op List.mem_cons_self _ hgranted
    exact ih (fun op hmem => hops op (List.mem_cons_of_mem _ hmem)) hnext hruns

/-- On every table that a run leaves, a reservation that succeeds lets as many insertions in as it was asked for with no
growth and keeps the contents; one that fails leaves the table as it was. -/
theorem reserve_guarantee (hl : LawfulKeys hashFn eqFn) (keySize valSize : ℕ) (ops : List (Op K V))
    (hops : ∀ op ∈ ops, RespectsLayout op.Grants) (m : KaracMap K V) (answers : List (Answer V))
    (hrun : runOps hashFn eqFn ops (new K V keySize valSize) = some (m, answers)) (alloc : ℕ → Bool)
    (halloc : RespectsLayout fun c => alloc c = true) (additional : ℕ) :
    (∀ m', m.reserveAdditional hashFn alloc additional = .ok m' →
      (∀ inserted : List (Op K V), inserted.length ≤ additional → (∀ op ∈ inserted, op.inserts = true) →
        NeverResizes hashFn eqFn inserted m') ∧
      ∃ f : FiniteMap (Quotient (keySetoid hl)) V,
        Represents hashFn eqFn (keyClass hl) m f ∧ Represents hashFn eqFn (keyClass hl) m' f) ∧
    ∀ bytes, m.reserveAdditional hashFn alloc additional = .error bytes →
      (m.tryReserve hashFn alloc additional).1 = m := by
  have hcls : ∀ a b, eqFn a b = true ↔ keyClass hl a = keyClass hl b := fun a b =>
    (Quotient.eq (r := keySetoid hl)).symm
  have hnew : Represents hashFn eqFn (keyClass hl) (new K V keySize valSize) ∅ :=
    Represents.blank (Inv.blank ⟨4, le_rfl, rfl⟩ rfl rfl fun _ _ => rfl) rfl fun _ _ => rfl
  obtain ⟨f, -, h⟩ := runOps_spec hl hcls hnew hrun
  have hcap : m.capacity ≤ isizeMax := run_capacity_le hops (by decide : initialCapacity ≤ isizeMax) hrun
  refine ⟨fun m' hok => ⟨fun inserted hlen hins => ?_, f, h, h.reserveAdditional hl hok⟩, fun bytes herr => ?_⟩
  · exact ((reserveAdditional_room h.inv hcap halloc hok).mono hlen).neverResizes hins
  · rw [tryReserve, Int.toNat_natCast, herr]
    split_ifs <;> rfl

/-- Every layout that can be described is granted. -/
def describable (capacity : ℕ) : Bool := decide (capacity ≤ isizeMax)

theorem reserve_guarantee_two :
    ∃ m answers, runOps (BitVec.ofNat 64) Nat.beq [.tryInsert describable 3 7] (new ℕ ℕ 8 8) = some (m, answers) ∧
      ∀ m', m.reserveAdditional (BitVec.ofNat 64) describable 100 = .ok m' →
        NeverResizes (BitVec.ofNat 64) Nat.beq [.insert describable 4 8, .entry describable 19 9] m' := by
  have hgranted : RespectsLayout fun c => describable c = true := fun c hc => of_decide_eq_true hc
  refine ⟨_, _, rfl, fun m' hok => ?_⟩
  refine ((reserve_guarantee natKeys_lawful 8 8 [.tryInsert describable 3 7] ?_ _ _ rfl describable hgranted 100).1 m'
    hok).1 _ (by decide) (by simp [Op.inserts])
  intro op hop
  rw [List.mem_singleton.mp hop]
  exact hgranted

end KaracMap

end Karac.Map
