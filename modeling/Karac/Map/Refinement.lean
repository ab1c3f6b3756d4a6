import Karac.Map.Invariant

/-! The table implements a finite map. Keys that compare equal are one key of the map, so the map is
taken over the classes of keys; `cls` names the class of a key. -/

namespace Karac.Map

open Karac.Lib

/-- The finite map a table stands for. -/
abbrev FiniteMap (Q V : Type) := Finmap fun _ : Q => V

namespace KaracMap

variable {K V Q : Type} {hashFn : K → Word} {eqFn : K → K → Bool} {m m' : KaracMap K V}
variable {cls : K → Q}

/-- Each bucket in use holds the latest value of its key, and each live key has a bucket. -/
structure Represents [DecidableEq Q] (hashFn : K → Word) (eqFn : K → K → Bool) (cls : K → Q)
    (m : KaracMap K V) (f : FiniteMap Q V) : Prop where
  inv : Inv hashFn m
  distinct : Distinct eqFn m
  valued : ∀ s a, m.Holds s a → ∃ v, m.vals s = some v ∧ f.lookup (cls a) = some v
  live : ∀ q v, f.lookup q = some v → ∃ s a, m.Holds s a ∧ cls a = q
  len_eq : m.len = f.keys.card

section Changes

variable [DecidableEq Q] (hcls : ∀ a b, eqFn a b = true ↔ cls a = cls b) {f : FiniteMap Q V}

theorem keys_insert_of_mem {q : Q} {v w : V} (h : f.lookup q = some w) : (f.insert q v).keys = f.keys := by
  ext q'
  rw [Finmap.mem_keys, Finmap.mem_keys, Finmap.mem_insert]
  refine ⟨fun hq => hq.elim (fun heq => ?_) id, Or.inr⟩
  rw [heq]
  exact Finmap.mem_of_lookup_eq_some h

theorem keys_insert_of_new {q : Q} {v : V} (h : f.lookup q = none) :
    (f.insert q v).keys.card = f.keys.card + 1 := by
  have hkeys : (f.insert q v).keys = Insert.insert q f.keys := by
    ext q'
    rw [Finmap.mem_keys, Finmap.mem_insert, Finset.mem_insert, Finmap.mem_keys]
  rw [hkeys, Finset.card_insert_of_notMem]
  rw [Finmap.mem_keys]
  exact Finmap.lookup_eq_none.mp h

theorem erase_of_unheld {q : Q} (h : f.lookup q = none) : f.erase q = f := by
  apply Finmap.ext_lookup
  intro q'
  by_cases hq : q' = q
  · rw [hq, Finmap.lookup_erase, h]
  · exact Finmap.lookup_erase_ne hq

theorem Represents.blank (h : Inv hashFn m) (hlen : m.len = 0)
    (hempty : ∀ s < m.capacity, m.status s = bucketEmpty) :
    Represents hashFn eqFn cls m (∅ : FiniteMap Q V) where
  inv := h
  distinct := Distinct.blank hempty
  valued := fun s a ⟨hs, hocc, _⟩ => by
    rw [hempty s hs, isOccupied_empty] at hocc
    exact absurd hocc (by simp)
  live := fun q v hq => absurd hq (by simp)
  len_eq := by rw [hlen, Finmap.keys_empty, Finset.card_empty]

include hcls

theorem Represents.unheld (h : Represents hashFn eqFn cls m f) {key : K}
    (hnew : ∀ s a, m.Holds s a → eqFn a key = false) : f.lookup (cls key) = none := by
  cases hlook : f.lookup (cls key) with
  | none => rfl
  | some v =>
    obtain ⟨s, a, ha, heq⟩ := h.live _ _ hlook
    have := hnew s a ha
    rw [(hcls a key).mpr heq] at this
    exact absurd this (by simp)

/-- The bucket a probe found carries the value of the key. -/
theorem Represents.held (h : Represents hashFn eqFn cls m f) {s : ℕ} {a key : K} (ha : m.Holds s a)
    (heq : eqFn a key = true) : m.vals s = f.lookup (cls key) ∧ ∃ v, f.lookup (cls key) = some v := by
  obtain ⟨v, hv, hlook⟩ := h.valued s a ha
  rw [(hcls a key).mp heq] at hlook
  exact ⟨hv.trans hlook.symm, v, hlook⟩

/-- Overwriting the value of a key in use. -/
theorem Represents.setVal (h : Represents hashFn eqFn cls m f) {s : ℕ} {a key : K} (ha : m.Holds s a)
    (heq : eqFn a key = true) (v : V) :
    Represents hashFn eqFn cls (m.setVal s v) (f.insert (cls key) v) where
  inv := h.inv.setVal s v
  distinct := h.distinct
  valued := fun t b hb => by
    change ∃ w, Function.update m.vals s (some v) t = some w ∧ _
    by_cases hts : t = s
    · subst hts
      have hab : b = a := Option.some.inj (hb.2.2.symm.trans ha.2.2)
      exact ⟨v, Function.update_self .., by rw [hab, (hcls a key).mp heq, Finmap.lookup_insert]⟩
    · have hne : cls b ≠ cls key := fun hbk =>
        hts (h.distinct t s b a hb ha ((hcls b a).mpr (hbk.trans ((hcls a key).mp heq).symm)))
      rw [Function.update_of_ne hts, Finmap.lookup_insert_of_ne _ hne]
      exact h.valued t b hb
  live := fun q w hq => by
    by_cases hqk : q = cls key
    · exact ⟨s, a, ha, by rw [hqk, (hcls a key).mp heq]⟩
    · rw [Finmap.lookup_insert_of_ne _ hqk] at hq
      exact h.live q w hq
  len_eq := by
    obtain ⟨w, hw⟩ := (h.held hcls ha heq).2
    rw [keys_insert_of_mem hw]
    exact h.len_eq

/-- Filling a free bucket with a key that was not there. -/
theorem Represents.fill (h : Represents hashFn eqFn cls m f) {slot : ℕ} {key : K} {v : V}
    (hkeeps : Keeps hashFn eqFn m m') (hl : LawfulKeys hashFn eqFn)
    (hf : Fills hashFn m m' slot key) (hslot : FreeSlot hashFn m key slot)
    (hvals : m'.vals = Function.update m.vals slot (some v))
    (hnew : ∀ s a, m.Holds s a → eqFn a key = false) :
    Represents hashFn eqFn cls m' (f.insert (cls key) v) where
  inv := hkeeps.inv
  distinct := hkeeps.distinct hl h.distinct
  valued := fun t b hb => by
    rcases (hf.holds_iff hslot.lt t b).mp hb with ⟨rfl, rfl⟩ | ⟨hts, hb⟩
    · exact ⟨v, by rw [hvals, Function.update_self], Finmap.lookup_insert _⟩
    · have hne : cls b ≠ cls key := fun hbk => by
        have := hnew t b hb
        rw [(hcls b key).mpr hbk] at this
        exact absurd this (by simp)
      rw [hvals, Function.update_of_ne hts, Finmap.lookup_insert_of_ne _ hne]
      exact h.valued t b hb
  live := fun q w hq => by
    by_cases hqk : q = cls key
    · exact ⟨slot, key, (hf.holds_iff hslot.lt slot key).mpr (Or.inl ⟨rfl, rfl⟩), hqk.symm⟩
    · rw [Finmap.lookup_insert_of_ne _ hqk] at hq
      obtain ⟨s, a, ha, hcl⟩ := h.live q w hq
      refine ⟨s, a, (hf.holds_iff hslot.lt s a).mpr (Or.inr ⟨?_, ha⟩), hcl⟩
      rintro rfl
      rw [Holds, hslot.free] at ha
      exact absurd ha.2.1 (by simp)
  len_eq := by rw [hf.len, h.len_eq, keys_insert_of_new (h.unheld hcls hnew)]

/-- Releasing the bucket of a key. -/
theorem Represents.vacate (h : Represents hashFn eqFn cls m f) {s : ℕ} {a key : K} (ha : m.Holds s a)
    (heq : eqFn a key = true) : Represents hashFn eqFn cls (m.vacate s) (f.erase (cls key)) where
  inv := h.inv.vacate ha.1 ha.2.1
  distinct := h.distinct.vacate h.inv ha.1
  valued := fun t b hb => by
    obtain ⟨hts, hb⟩ := (vacate_holds_iff h.inv ha.1 t b).mp hb
    have hne : cls b ≠ cls key := fun hbk =>
      hts (h.distinct t s b a hb ha ((hcls b a).mpr (hbk.trans ((hcls a key).mp heq).symm)))
    rw [Finmap.lookup_erase_ne hne]
    exact h.valued t b hb
  live := fun q w hq => by
    have hqk : q ≠ cls key := by
      rintro rfl
      rw [Finmap.lookup_erase] at hq
      exact absurd hq (by simp)
    rw [Finmap.lookup_erase_ne hqk] at hq
    obtain ⟨t, b, hb, hcl⟩ := h.live q w hq
    refine ⟨t, b, (vacate_holds_iff h.inv ha.1 t b).mpr ⟨?_, hb⟩, hcl⟩
    rintro rfl
    obtain rfl : b = a := Option.some.inj (hb.2.2.symm.trans ha.2.2)
    exact hqk (hcl.symm.trans ((hcls b key).mp heq))
  len_eq := by
    obtain ⟨w, hw⟩ := (h.held hcls ha heq).2
    rw [Finmap.keys_erase, Finset.card_erase_of_mem (Finmap.mem_keys.mpr (Finmap.mem_of_lookup_eq_some hw)),
      ← h.len_eq]
    rfl

omit hcls

/-- Growing or compacting moves every pair and loses none. -/
theorem Represents.regrow (h : Represents hashFn eqFn cls m f) (hl : LawfulKeys hashFn eqFn) {capacity : ℕ}
    (hfits : m.Fits capacity) : Represents hashFn eqFn cls (m.regrow hashFn capacity) f := by
  -- the fresh table carries the pairs of the buckets already moved, and all of them
  have hmoved : (∀ s a, (m.regrow hashFn capacity).Holds s a → ∃ t < m.capacity, m.Holds t a ∧
      (m.regrow hashFn capacity).vals s = m.vals t) ∧
      ∀ t < m.capacity, ∀ a, m.Holds t a → ∃ s, (m.regrow hashFn capacity).Holds s a := by
    apply rehash_induction h.inv hfits (P := fun n p =>
      (∀ s a, p.Holds s a → ∃ t < n, m.Holds t a ∧ p.vals s = m.vals t) ∧
      ∀ t < n, ∀ a, m.Holds t a → ∃ s, p.Holds s a)
    · refine ⟨fun s a ha => ?_, fun t ht => absurd ht (by omega)⟩
      have hocc : isOccupied bucketEmpty = true := ha.2.1
      rw [isOccupied_empty] at hocc
      exact absurd hocc (by simp)
    · rintro n p - hfree ⟨hfrom, hto⟩
      refine ⟨fun s a ha => ?_, fun t ht a ha => ?_⟩
      · obtain ⟨t, ht, hta⟩ := hfrom s a ha
        exact ⟨t, by omega, hta⟩
      · by_cases htn : t = n
        · rw [htn, Holds, hfree] at ha
          exact absurd ha.2.1 (by simp)
        · exact hto t (by omega) a ha
    · rintro n p p' slot key hkey ⟨hfrom, hto⟩ hslot hf hvals
      refine ⟨fun s a ha => ?_, fun t ht a ha => ?_⟩
      · rcases (hf.holds_iff hslot.lt s a).mp ha with ⟨rfl, rfl⟩ | ⟨hss, ha⟩
        · exact ⟨n, by omega, hkey, by rw [hvals, Function.update_self]⟩
        · obtain ⟨t, ht, hta, hv⟩ := hfrom s a ha
          exact ⟨t, by omega, hta, by rw [hvals, Function.update_of_ne hss, hv]⟩
      · by_cases htn : t = n
        · subst htn
          obtain rfl : a = key := Option.some.inj (ha.2.2.symm.trans hkey.2.2)
          exact ⟨slot, (hf.holds_iff hslot.lt _ _).mpr (Or.inl ⟨rfl, rfl⟩)⟩
        · obtain ⟨s, hs⟩ := hto t (by omega) a ha
          refine ⟨s, (hf.holds_iff hslot.lt _ _).mpr (Or.inr ⟨?_, hs⟩)⟩
          rintro rfl
          rw [Holds, hslot.free] at hs
          exact absurd hs.2.1 (by simp)
  obtain ⟨hinv, -, -, hlen⟩ := regrow_inv h.inv hfits
  refine ⟨hinv, regrow_distinct h.inv hfits hl h.distinct, fun s a ha => ?_, fun q v hq => ?_, ?_⟩
  · obtain ⟨t, -, hta, hv⟩ := hmoved.1 s a ha
    rw [hv]
    exact h.valued t a hta
  · obtain ⟨t, a, ha, hcl⟩ := h.live q v hq
    obtain ⟨s, hs⟩ := hmoved.2 t ha.1 a ha
    exact ⟨s, a, hs, hcl⟩
  · rw [hlen, h.len_eq]

end Changes

/-! The iterator. -/

/-- The pair of a bucket, as the iterator hands it out. -/
def pairAt (m : KaracMap K V) (s : ℕ) : Option K × Option V := (m.keys s, m.vals s)

/-- The buckets in use from an index on. -/
def liveFrom (m : KaracMap K V) (index : ℕ) : List ℕ :=
  (List.range' index (m.capacity - index)).filter fun s => isOccupied (m.status s)

theorem liveFrom_of_ge {index : ℕ} (h : m.capacity ≤ index) : m.liveFrom index = [] := by
  rw [liveFrom, show m.capacity - index = 0 by omega]
  rfl

theorem liveFrom_of_lt {index : ℕ} (h : index < m.capacity) : m.liveFrom index =
    if isOccupied (m.status index) = true then index :: m.liveFrom (index + 1) else m.liveFrom (index + 1) := by
  rw [liveFrom, show m.capacity - index = (m.capacity - (index + 1)) + 1 by omega, List.range'_succ,
    List.filter_cons, ← liveFrom]

/-- `iter_next` hands out the first bucket in use. -/
theorem iterNext_eq {n index : ℕ} (hn : m.capacity ≤ index + n) :
    m.iterNext n index = (m.liveFrom index).head?.map fun s => (m.pairAt s, s + 1) := by
  induction n generalizing index with
  | zero => rw [iterNext, liveFrom_of_ge (by omega)]; rfl
  | succ n ih =>
    rw [iterNext]
    by_cases hlt : index < m.capacity
    · rw [if_pos hlt, liveFrom_of_lt hlt]
      by_cases hocc : isOccupied (m.status index) = true
      · rw [if_pos hocc, if_pos hocc]
        rfl
      · rw [if_neg hocc, if_neg hocc]
        exact ih (by omega)
    · rw [if_neg hlt, liveFrom_of_ge (by omega)]
      rfl

theorem liveFrom_tail {index s : ℕ} (h : (m.liveFrom index).head? = some s) :
    m.liveFrom index = s :: m.liveFrom (s + 1) ∧ index ≤ s ∧ s < m.capacity := by
  obtain ⟨k, hk⟩ : ∃ k, m.capacity ≤ index + k := ⟨m.capacity, by omega⟩
  induction k generalizing index with
  | zero =>
    rw [liveFrom_of_ge (by omega)] at h
    exact absurd h (by simp)
  | succ k ih =>
    by_cases hlt : index < m.capacity
    · rw [liveFrom_of_lt hlt] at h ⊢
      by_cases hocc : isOccupied (m.status index) = true
      · rw [if_pos hocc] at h ⊢
        obtain rfl : index = s := by simpa using h
        exact ⟨rfl, le_rfl, hlt⟩
      · rw [if_neg hocc] at h ⊢
        obtain ⟨htail, hle, hs⟩ := ih h (by omega)
        exact ⟨htail, by omega, hs⟩
    · rw [liveFrom_of_ge (by omega)] at h
      exact absurd h (by simp)

/-- A full iteration visits the buckets in use, each once. -/
theorem iterate_eq {fuel index : ℕ} (hfuel : m.capacity ≤ index + fuel) :
    m.iterate fuel index = (m.liveFrom index).map m.pairAt := by
  induction fuel generalizing index with
  | zero => rw [iterate, liveFrom_of_ge (by omega)]; rfl
  | succ fuel ih =>
    rw [iterate, iterNext_eq (by omega)]
    cases hhead : (m.liveFrom index).head? with
    | none =>
      rw [List.head?_eq_none_iff.mp hhead]
      rfl
    | some s =>
      obtain ⟨htail, hle, hs⟩ := liveFrom_tail hhead
      rw [htail]
      simp only [Option.map_some, List.map_cons]
      rw [ih (by omega)]

theorem mem_liveFrom_zero {s : ℕ} : s ∈ m.liveFrom 0 ↔ s < m.capacity ∧ isOccupied (m.status s) = true := by
  simp [liveFrom]

theorem liveFrom_nodup (index : ℕ) : (m.liveFrom index).Nodup := (List.nodup_range').filter _

/-- The pair of a bucket in use. -/
def bindingAt (m : KaracMap K V) (s : ℕ) : Option (K × V) :=
  (m.keys s).bind fun k => (m.vals s).map fun v => (k, v)

theorem bindingAt_eq_some {s : ℕ} {e : K × V} :
    m.bindingAt s = some e ↔ m.keys s = some e.1 ∧ m.vals s = some e.2 := by
  obtain ⟨k, v⟩ := e
  simp [bindingAt, Option.bind_eq_some_iff]

theorem map_pairAt_eq {l : List ℕ} (h : ∀ s ∈ l, ∃ e, m.bindingAt s = some e) :
    l.map m.pairAt = (l.filterMap m.bindingAt).map fun e => (some e.1, some e.2) := by
  induction l with
  | nil => rfl
  | cons s l ih =>
    obtain ⟨e, he⟩ := h s (by simp)
    obtain ⟨hk, hv⟩ := bindingAt_eq_some.mp he
    rw [List.map_cons, List.filterMap_cons_some he, List.map_cons, ih fun t ht => h t (by simp [ht]), pairAt,
      hk, hv]

section Iterate

variable [DecidableEq Q] {f : FiniteMap Q V} (h : Represents hashFn eqFn cls m f)
include h

theorem Represents.binding {s : ℕ} (hs : s ∈ m.liveFrom 0) :
    ∃ e, m.bindingAt s = some e ∧ m.Holds s e.1 ∧ f.lookup (cls e.1) = some e.2 := by
  obtain ⟨hlt, hocc⟩ := mem_liveFrom_zero.mp hs
  obtain ⟨a, ha⟩ := h.inv.holds_of_occupied hlt hocc
  obtain ⟨v, hv, hlook⟩ := h.valued s a ha
  exact ⟨(a, v), bindingAt_eq_some.mpr ⟨ha.2.2, hv⟩, ha, hlook⟩

/-- The bindings of the table are those of the map. -/
theorem Represents.mem_bindings {q : Q} {v : V} :
    (∃ e ∈ (m.liveFrom 0).filterMap m.bindingAt, cls e.1 = q ∧ e.2 = v) ↔ f.lookup q = some v := by
  constructor
  · rintro ⟨e, he, rfl, rfl⟩
    obtain ⟨s, hs, hb⟩ := List.mem_filterMap.mp he
    obtain ⟨e', he', -, hlook⟩ := h.binding hs
    obtain rfl : e' = e := Option.some.inj (he'.symm.trans hb)
    exact hlook
  · intro hq
    obtain ⟨s, a, ha, rfl⟩ := h.live q v hq
    have hs := mem_liveFrom_zero.mpr ⟨ha.1, ha.2.1⟩
    obtain ⟨e, he, hhold, hlook⟩ := h.binding hs
    have hae : e.1 = a := Option.some.inj (hhold.2.2.symm.trans ha.2.2)
    refine ⟨e, List.mem_filterMap.mpr ⟨s, hs, he⟩, by rw [hae], ?_⟩
    rw [hae, hq] at hlook
    exact (Option.some.inj hlook).symm

theorem Represents.bindings_nodup (hcls : ∀ a b, eqFn a b = true ↔ cls a = cls b) :
    (((m.liveFrom 0).filterMap m.bindingAt).map fun e => (⟨cls e.1, e.2⟩ : Σ _ : Q, V)).Nodup := by
  have hpair : ((m.liveFrom 0).filterMap m.bindingAt).Pairwise fun e e' => cls e.1 ≠ cls e'.1 := by
    have hlive := (liveFrom_nodup (m := m) 0).imp_of_mem fun hs ht hne =>
      (⟨hs, ht, hne⟩ : _ ∈ m.liveFrom 0 ∧ _ ∈ m.liveFrom 0 ∧ _ ≠ _)
    refine hlive.filterMap _ fun s t hst e he e' he' heq => ?_
    obtain ⟨hs, ht, hne⟩ := hst
    obtain ⟨e₁, he₁, hhold, -⟩ := h.binding hs
    obtain ⟨e₂, he₂, hhold', -⟩ := h.binding ht
    obtain rfl : e₁ = e := Option.some.inj (he₁.symm.trans he)
    obtain rfl : e₂ = e' := Option.some.inj (he₂.symm.trans he')
    exact hne (h.distinct s t _ _ hhold hhold' ((hcls _ _).mpr heq))
  refine hpair.map _ fun e e' hne heq => hne ?_
  exact congrArg Sigma.fst heq

/-- A full iteration yields every pair of the finite map, once. -/
theorem Represents.iterate (hcls : ∀ a b, eqFn a b = true ↔ cls a = cls b) :
    ∃ pairs : List (K × V), m.iterate m.capacity 0 = pairs.map (fun e => (some e.1, some e.2)) ∧
      f.entries = pairs.map fun e => (⟨cls e.1, e.2⟩ : Σ _ : Q, V) := by
  refine ⟨(m.liveFrom 0).filterMap m.bindingAt, ?_, ?_⟩
  · rw [iterate_eq (by omega)]
    apply map_pairAt_eq
    intro s hs
    obtain ⟨e, he, -⟩ := h.binding hs
    exact ⟨e, he⟩
  · apply (Multiset.Nodup.ext f.nodup_entries (Multiset.coe_nodup.mpr (h.bindings_nodup hcls))).mpr
    rintro ⟨q, v⟩
    rw [← Finmap.lookup_eq_some_iff, ← h.mem_bindings, Multiset.mem_coe, List.mem_map]
    refine exists_congr fun e => and_congr_right fun _ => ?_
    rw [Sigma.mk.injEq, heq_eq_eq]

end Iterate

/-! The operations against the finite map. -/

section Operations

variable [DecidableEq Q] {f : FiniteMap Q V} (h : Represents hashFn eqFn cls m f)
  (hl : LawfulKeys hashFn eqFn) (hcls : ∀ a b, eqFn a b = true ↔ cls a = cls b)
include h hl hcls

theorem Represents.lookup (key : K) :
    (∃ s a, m.Holds s a ∧ eqFn a key = true ∧ m.lookup hashFn eqFn key = some s) ∨
    m.lookup hashFn eqFn key = none ∧ f.lookup (cls key) = none := by
  rcases @lookup_spec _ _ hashFn eqFn m h.inv key with hfound | ⟨hnone, hnew⟩
  · exact Or.inl hfound
  · exact Or.inr ⟨hnone, h.unheld hcls (hnew hl)⟩

theorem Represents.get (key : K) : m.get hashFn eqFn key = f.lookup (cls key) := by
  rw [KaracMap.get]
  rcases h.lookup hl hcls key with ⟨s, a, ha, heq, hs⟩ | ⟨hs, hnone⟩
  · rw [hs, Option.bind_some]
    exact (h.held hcls ha heq).1
  · rw [hs, hnone]
    rfl

theorem Represents.contains (key : K) : m.contains hashFn eqFn key = (f.lookup (cls key)).isSome := by
  rw [KaracMap.contains]
  rcases h.lookup hl hcls key with ⟨s, a, ha, heq, hs⟩ | ⟨hs, hnone⟩
  · obtain ⟨-, v, hv⟩ := h.held hcls ha heq
    rw [hs, hv]
    rfl
  · rw [hs, hnone]
    rfl

theorem Represents.remove (key : K) :
    Represents hashFn eqFn cls (m.remove hashFn eqFn key).1 (f.erase (cls key)) ∧
      (m.remove hashFn eqFn key).2 = (f.lookup (cls key)).isSome := by
  rw [KaracMap.remove]
  rcases h.lookup hl hcls key with ⟨s, a, ha, heq, hs⟩ | ⟨hs, hnone⟩
  · obtain ⟨-, v, hv⟩ := h.held hcls ha heq
    rw [hs, hv]
    exact ⟨h.vacate hcls ha heq, rfl⟩
  · rw [hs, hnone, erase_of_unheld hnone]
    exact ⟨h, rfl⟩

theorem Represents.removeOld (key : K) :
    Represents hashFn eqFn cls (m.removeOld hashFn eqFn key).1 (f.erase (cls key)) ∧
      (m.removeOld hashFn eqFn key).2 = f.lookup (cls key) := by
  rw [KaracMap.removeOld]
  rcases h.lookup hl hcls key with ⟨s, a, ha, heq, hs⟩ | ⟨hs, hnone⟩
  · rw [hs]
    exact ⟨h.vacate hcls ha heq, (h.held hcls ha heq).1⟩
  · rw [hs, hnone, erase_of_unheld hnone]
    exact ⟨h, rfl⟩

theorem Represents.place (hroom : m.HasRoom) (key : K) (val : V) :
    Represents hashFn eqFn cls (m.place hashFn eqFn key val).1 (f.insert (cls key) val) ∧
      (m.place hashFn eqFn key val).2 = f.lookup (cls key) := by
  have hkeeps := @keeps_place _ _ hashFn eqFn _ h.inv hroom key val
  rcases @place_spec _ _ hashFn eqFn m h.inv key val with ⟨s, a, ha, heq, hplace⟩ | ⟨s, hs, hnew, hplace⟩
  · rw [hplace]
    exact ⟨h.setVal hcls ha heq val, (h.held hcls ha heq).1⟩
  · rw [hplace] at hkeeps ⊢
    exact ⟨h.fill hcls hkeeps hl (claim_setVal_fills key s val) hs rfl (hnew hl), (h.unheld hcls (hnew hl)).symm⟩

omit hcls in
theorem Represents.resizeIfNeeded {alloc : ℕ → Bool} (hr : m.resizeIfNeeded hashFn alloc = some m') :
    Represents hashFn eqFn cls m' f ∧ m'.HasRoom := by
  refine ⟨?_, (@resizeIfNeeded_spec _ _ hashFn eqFn _ _ h.inv _ hr).2⟩
  rw [KaracMap.resizeIfNeeded] at hr
  split_ifs at hr with hn
  · rw [resize] at hr
    split_ifs at hr
    obtain rfl := Option.some.inj hr
    exact h.regrow hl (nextCapacity_fits h.inv).1
  · obtain rfl := Option.some.inj hr
    exact h

/-- A refused allocation leaves the map alone; otherwise the pair is there. -/
theorem Represents.tryInsert (alloc : ℕ → Bool) (key : K) (val : V) :
    (Represents hashFn eqFn cls (m.tryInsert hashFn eqFn alloc key val).1 (f.insert (cls key) val) ∧
      (m.tryInsert hashFn eqFn alloc key val).2 = .ok (f.lookup (cls key))) ∨
    (∃ n, alloc n = false) ∧ ∃ bytes, m.tryInsert hashFn eqFn alloc key val = (m, .error bytes) := by
  rw [KaracMap.tryInsert]
  split_ifs with hn
  · rw [tryResize]
    by_cases halloc : alloc m.nextCapacity = true
    · rw [if_pos halloc]
      obtain ⟨hplace, hold⟩ := (h.regrow hl (nextCapacity_fits h.inv).1).place hl hcls
        (hasRoom_regrow h.inv) key val
      exact Or.inl ⟨hplace, congrArg Except.ok hold⟩
    · rw [if_neg halloc]
      exact Or.inr ⟨⟨m.nextCapacity, by simpa using halloc⟩, _, rfl⟩
  · obtain ⟨hplace, hold⟩ := h.place hl hcls (hasRoom_of_needsResize (by simpa using hn)) key val
    exact Or.inl ⟨hplace, congrArg Except.ok hold⟩

/-- `or_insert` hands out the value of the key, which is the default one when it was absent. -/
theorem Represents.entryOrInsert {alloc : ℕ → Bool} {key : K} {default : V} {v : Option V}
    (he : m.entryOrInsert hashFn eqFn alloc key default = some (m', v)) :
    Represents hashFn eqFn cls m' (f.insert (cls key) ((f.lookup (cls key)).getD default)) ∧
      v = some ((f.lookup (cls key)).getD default) := by
  obtain ⟨⟨m₂, slot, existed⟩, hentry, hm⟩ := Option.map_eq_some_iff.mp he
  obtain ⟨m₁, hresize, hr⟩ := Option.map_eq_some_iff.mp hentry
  obtain ⟨h₁, hroom⟩ := h.resizeIfNeeded hl hresize
  rcases @entry_spec _ _ hashFn eqFn m₁ h₁.inv hroom key with
    ⟨s, a, ha, heq, hfind⟩ | ⟨s, hs, hnew, hfind, hkeeps⟩
  · rw [hfind] at hr
    obtain ⟨rfl, rfl, rfl⟩ : m₁ = m₂ ∧ s = slot ∧ true = existed := by simpa using hr
    obtain ⟨rfl, rfl⟩ := Prod.mk.inj hm
    obtain ⟨hval, w, hw⟩ := h₁.held hcls ha heq
    have hsame : m₁.setVal s w = m₁ := by
      rw [KaracMap.setVal, ← hw, ← hval, Function.update_eq_self]
    have hset := h₁.setVal hcls ha heq w
    rw [hsame] at hset
    rw [hw]
    exact ⟨hset, hval.trans hw⟩
  · rw [hfind] at hr
    obtain ⟨rfl, rfl, rfl⟩ : (m₁.claim key s true).setStatus s (ctrlOf (hashFn key)) = m₂ ∧ s = slot ∧
        false = existed := by simpa using hr
    obtain ⟨rfl, rfl⟩ := Prod.mk.inj hm
    rw [h₁.unheld hcls (hnew hl)]
    have hfills : Fills hashFn m₁ (((m₁.claim key s true).setStatus s (ctrlOf (hashFn key))).setVal s default)
        s key := ⟨rfl, rfl, rfl, rfl, rfl⟩
    refine ⟨h₁.fill hcls (hkeeps.trans (keeps_setVal hkeeps.inv s default)) hl hfills hs rfl (hnew hl), ?_⟩
    exact Function.update_self ..

omit hcls in
theorem Represents.reserveAdditional {alloc : ℕ → Bool} {additional : ℕ}
    (hr : m.reserveAdditional hashFn alloc additional = .ok m') : Represents hashFn eqFn cls m' f := by
  rw [KaracMap.reserveAdditional] at hr
  split_ifs at hr
  · obtain rfl := Except.ok.inj hr
    exact h
  · cases hgrow : growTo (m.neededCapacity additional) 64 (max m.capacity initialCapacity) with
    | none => simp [hgrow] at hr
    | some c =>
      simp only [hgrow] at hr
      split_ifs at hr
      obtain rfl := Except.ok.inj hr
      exact h.regrow hl (growTo_fits h.inv hgrow)

omit hcls in
theorem Represents.reserve {alloc : ℕ → Bool} {additional : ℤ}
    (hr : m.reserve hashFn alloc additional = some m') : Represents hashFn eqFn cls m' f := by
  rw [KaracMap.reserve] at hr
  split_ifs at hr
  · obtain rfl := Option.some.inj hr
    exact h
  · cases hres : m.reserveAdditional hashFn alloc additional.toNat with
    | ok m₁ =>
      simp only [hres] at hr
      obtain rfl := Option.some.inj hr
      exact h.reserveAdditional hl hres
    | error bytes => simp [hres] at hr

omit hcls in
theorem Represents.tryReserve (alloc : ℕ → Bool) (additional : ℤ) :
    (Represents hashFn eqFn cls (m.tryReserve hashFn alloc additional).1 f ∧
      (m.tryReserve hashFn alloc additional).2 = .ok ()) ∨
    0 < additional ∧ ∃ bytes, m.tryReserve hashFn alloc additional = (m, .error bytes) := by
  rw [KaracMap.tryReserve]
  split_ifs with hle
  · exact Or.inl ⟨h, rfl⟩
  · cases hres : m.reserveAdditional hashFn alloc additional.toNat with
    | ok m₁ => exact Or.inl ⟨h.reserveAdditional hl hres, rfl⟩
    | error bytes => exact Or.inr ⟨lt_of_not_ge hle, bytes, rfl⟩

omit hl hcls in
theorem Represents.clear : Represents hashFn eqFn cls m.clear (∅ : FiniteMap Q V) := by
  have hempty : ∀ s < m.clear.capacity, m.clear.status s = bucketEmpty := fun s hs => if_pos hs
  exact Represents.blank (Inv.blank h.inv.grouped rfl rfl hempty) rfl hempty

end Operations

end KaracMap

end Karac.Map
