import Karac.Map.Refinement

/-! Whole runs of the map's interface: they answer as the finite map does. -/

namespace Karac.Map

/-- One call of the interface. What its allocations are granted is part of the call. -/
inductive Op (K V : Type)
  | insert (alloc : ℕ → Bool) (key : K) (val : V)
  | insertOld (alloc : ℕ → Bool) (key : K) (val : V)
  | tryInsert (alloc : ℕ → Bool) (key : K) (val : V)
  | entry (alloc : ℕ → Bool) (key : K) (default : V)
  | remove (key : K)
  | removeOld (key : K)
  | reserve (alloc : ℕ → Bool) (additional : ℤ)
  | tryReserve (alloc : ℕ → Bool) (additional : ℤ)
  | clear
  | get (key : K)
  | contains (key : K)
  | len

inductive Answer (V : Type)
  | done
  | found (b : Bool)
  | value (v : Option V)
  | count (n : ℕ)
  | refused (bytes : ℕ)

def Answer.ofTry {α V : Type} (ok : α → Answer V) : Except ℕ α → Answer V
  | .ok a => ok a
  | .error bytes => .refused bytes

variable {K V Q : Type}

/-- The call on the table; `none` when it ends the process. -/
def Op.run (hashFn : K → Word) (eqFn : K → K → Bool) (m : KaracMap K V) :
    Op K V → Option (KaracMap K V × Answer V)
  | .insert alloc key val => (m.insert hashFn eqFn alloc key val).map fun m => (m, .done)
  | .insertOld alloc key val =>
    (m.insertOld hashFn eqFn alloc key val).map fun r => (r.1, .value r.2)
  | .tryInsert alloc key val =>
    let r := m.tryInsert hashFn eqFn alloc key val
    some (r.1, Answer.ofTry .value r.2)
  | .entry alloc key default =>
    (m.entryOrInsert hashFn eqFn alloc key default).map fun r => (r.1, .value r.2)
  | .remove key => let r := m.remove hashFn eqFn key; some (r.1, .found r.2)
  | .removeOld key => let r := m.removeOld hashFn eqFn key; some (r.1, .value r.2)
  | .reserve alloc additional => (m.reserve hashFn alloc additional).map fun m => (m, .done)
  | .tryReserve alloc additional =>
    let r := m.tryReserve hashFn alloc additional
    some (r.1, Answer.ofTry (fun _ => .done) r.2)
  | .clear => some (m.clear, .done)
  | .get key => some (m, .value (m.get hashFn eqFn key))
  | .contains key => some (m, .found (m.contains hashFn eqFn key))
  | .len => some (m, .count m.len)

/-- The calls in turn, with their answers. -/
def runOps (hashFn : K → Word) (eqFn : K → K → Bool) :
    List (Op K V) → KaracMap K V → Option (KaracMap K V × List (Answer V))
  | [], m => some (m, [])
  | op :: ops, m =>
    (op.run hashFn eqFn m).bind fun r =>
      (runOps hashFn eqFn ops r.1).map fun r' => (r'.1, r.2 :: r'.2)

/-- What the call does to the finite map, and its answer. -/
def Op.spec [DecidableEq Q] (cls : K → Q) (f : FiniteMap Q V) : Op K V → FiniteMap Q V × Answer V
  | .insert _ key val => (f.insert (cls key) val, .done)
  | .insertOld _ key val => (f.insert (cls key) val, .value (f.lookup (cls key)))
  | .tryInsert _ key val => (f.insert (cls key) val, .value (f.lookup (cls key)))
  | .entry _ key default =>
    let v := (f.lookup (cls key)).getD default
    (f.insert (cls key) v, .value (some v))
  | .remove key => (f.erase (cls key), .found (f.lookup (cls key)).isSome)
  | .removeOld key => (f.erase (cls key), .value (f.lookup (cls key)))
  | .reserve _ _ => (f, .done)
  | .tryReserve _ _ => (f, .done)
  | .clear => (∅, .done)
  | .get key => (f, .value (f.lookup (cls key)))
  | .contains key => (f, .found (f.lookup (cls key)).isSome)
  | .len => (f, .count f.keys.card)

/-- The fallible calls that may report a refusal. -/
def Op.MayRefuse : Op K V → Prop
  | .tryInsert alloc _ _ => ∃ n, alloc n = false
  | .tryReserve _ additional => 0 < additional
  | _ => False

/-- The calls that may end the process. -/
def Op.MayEnd : Op K V → Prop
  | .insert alloc _ _ | .insertOld alloc _ _ | .entry alloc _ _ => ∃ n, alloc n = false
  | .reserve _ additional => 0 < additional
  | _ => False

/-- A call on the finite map: it answers, or is refused and changes nothing. -/
inductive SpecStep [DecidableEq Q] (cls : K → Q) (op : Op K V) (f : FiniteMap Q V) :
    FiniteMap Q V → Answer V → Prop
  | answered : SpecStep cls op f (op.spec cls f).1 (op.spec cls f).2
  | refused (bytes : ℕ) (h : op.MayRefuse) : SpecStep cls op f f (.refused bytes)

inductive SpecRun [DecidableEq Q] (cls : K → Q) :
    List (Op K V) → FiniteMap Q V → FiniteMap Q V → List (Answer V) → Prop
  | nil (f : FiniteMap Q V) : SpecRun cls [] f f []
  | cons {op : Op K V} {ops : List (Op K V)} {f f₁ f₂ : FiniteMap Q V} {a : Answer V}
      {as : List (Answer V)} (h : SpecStep cls op f f₁ a) (hrest : SpecRun cls ops f₁ f₂ as) :
      SpecRun cls (op :: ops) f f₂ (a :: as)

namespace KaracMap

variable {hashFn : K → Word} {eqFn : K → K → Bool} {m m' : KaracMap K V} {cls : K → Q}

theorem resizeIfNeeded_eq_none {alloc : ℕ → Bool} (h : m.resizeIfNeeded hashFn alloc = none) :
    ∃ n, alloc n = false := by
  rw [resizeIfNeeded] at h
  split_ifs at h
  rw [resize] at h
  split_ifs at h with halloc
  exact ⟨m.nextCapacity, by simpa using halloc⟩

/-- Only a refused allocation or a reservation ends the process. -/
theorem mayEnd_of_run_eq_none {op : Op K V} (h : op.run hashFn eqFn m = none) : op.MayEnd := by
  cases op with
  | insert alloc key val => exact resizeIfNeeded_eq_none (Option.map_eq_none_iff.mp (Option.map_eq_none_iff.mp h))
  | insertOld alloc key val =>
    exact resizeIfNeeded_eq_none (Option.map_eq_none_iff.mp (Option.map_eq_none_iff.mp h))
  | entry alloc key default =>
    exact resizeIfNeeded_eq_none
      (Option.map_eq_none_iff.mp (Option.map_eq_none_iff.mp (Option.map_eq_none_iff.mp h)))
  | reserve alloc additional =>
    have hres := Option.map_eq_none_iff.mp h
    rw [KaracMap.reserve] at hres
    split_ifs at hres with hle
    exact lt_of_not_ge hle
  | tryInsert | remove | removeOld | tryReserve | clear | get | contains | len => simp [Op.run] at h

section Runs

variable [DecidableEq Q] (hl : LawfulKeys hashFn eqFn) (hcls : ∀ a b, eqFn a b = true ↔ cls a = cls b)
include hl hcls

/-- One call on the table is one on the finite map. -/
theorem run_step {f : FiniteMap Q V} (h : Represents hashFn eqFn cls m f) {op : Op K V} {a : Answer V}
    (hrun : op.run hashFn eqFn m = some (m', a)) :
    ∃ f', SpecStep cls op f f' a ∧ Represents hashFn eqFn cls m' f' := by
  have answered : ∀ {a' m'' f'}, (op.spec cls f) = (f', a') → a = a' → m' = m'' →
      Represents hashFn eqFn cls m'' f' → ∃ f', SpecStep cls op f f' a ∧ Represents hashFn eqFn cls m' f' := by
    rintro a' m'' f' hspec rfl rfl hrep
    have hstep := @SpecStep.answered K V Q _ cls op f
    rw [hspec] at hstep
    exact ⟨f', hstep, hrep⟩
  cases op with
  | insert alloc key val =>
    obtain ⟨m₁, hins, heq⟩ := Option.map_eq_some_iff.mp hrun
    obtain ⟨m₀, hresize, rfl⟩ := Option.map_eq_some_iff.mp hins
    obtain ⟨rfl, rfl⟩ := Prod.mk.inj heq
    obtain ⟨h₀, hroom⟩ := h.resizeIfNeeded hl hresize
    exact answered rfl rfl rfl (h₀.place hl hcls hroom key val).1
  | insertOld alloc key val =>
    obtain ⟨⟨m₁, old⟩, hins, heq⟩ := Option.map_eq_some_iff.mp hrun
    obtain ⟨m₀, hresize, hplace⟩ := Option.map_eq_some_iff.mp hins
    obtain ⟨rfl, rfl⟩ := Prod.mk.inj heq
    obtain ⟨h₀, hroom⟩ := h.resizeIfNeeded hl hresize
    obtain ⟨hrep, hold⟩ := h₀.place hl hcls hroom key val
    rw [hplace] at hrep hold
    exact answered rfl (congrArg Answer.value hold) rfl hrep
  | tryInsert alloc key val =>
    obtain ⟨rfl, rfl⟩ := Prod.mk.inj (Option.some.inj hrun)
    rcases h.tryInsert hl hcls alloc key val with ⟨hrep, hold⟩ | ⟨hrefused, bytes, hsame⟩
    · exact answered rfl (by rw [hold]; rfl) rfl hrep
    · rw [hsame]
      exact ⟨f, SpecStep.refused bytes hrefused, h⟩
  | entry alloc key default =>
    obtain ⟨⟨m₁, v⟩, hentry, heq⟩ := Option.map_eq_some_iff.mp hrun
    obtain ⟨rfl, rfl⟩ := Prod.mk.inj heq
    obtain ⟨hrep, hv⟩ := h.entryOrInsert hl hcls hentry
    exact answered rfl (congrArg Answer.value hv) rfl hrep
  | remove key =>
    obtain ⟨rfl, rfl⟩ := Prod.mk.inj (Option.some.inj hrun)
    obtain ⟨hrep, hfound⟩ := h.remove hl hcls key
    exact answered rfl (congrArg Answer.found hfound) rfl hrep
  | removeOld key =>
    obtain ⟨rfl, rfl⟩ := Prod.mk.inj (Option.some.inj hrun)
    obtain ⟨hrep, hold⟩ := h.removeOld hl hcls key
    exact answered rfl (congrArg Answer.value hold) rfl hrep
  | reserve alloc additional =>
    obtain ⟨m₁, hres, heq⟩ := Option.map_eq_some_iff.mp hrun
    obtain ⟨rfl, rfl⟩ := Prod.mk.inj heq
    exact answered rfl rfl rfl (h.reserve hl hres)
  | tryReserve alloc additional =>
    obtain ⟨rfl, rfl⟩ := Prod.mk.inj (Option.some.inj hrun)
    rcases h.tryReserve hl alloc additional with ⟨hrep, hok⟩ | ⟨hpos, bytes, hsame⟩
    · exact answered rfl (by rw [hok]; rfl) rfl hrep
    · rw [hsame]
      exact ⟨f, SpecStep.refused bytes hpos, h⟩
  | clear =>
    obtain ⟨rfl, rfl⟩ := Prod.mk.inj (Option.some.inj hrun)
    exact answered rfl rfl rfl h.clear
  | get key =>
    obtain ⟨rfl, rfl⟩ := Prod.mk.inj (Option.some.inj hrun)
    exact answered rfl (congrArg Answer.value (h.get hl hcls key)) rfl h
  | contains key =>
    obtain ⟨rfl, rfl⟩ := Prod.mk.inj (Option.some.inj hrun)
    exact answered rfl (congrArg Answer.found (h.contains hl hcls key)) rfl h
  | len =>
    obtain ⟨rfl, rfl⟩ := Prod.mk.inj (Option.some.inj hrun)
    exact answered rfl (congrArg Answer.count h.len_eq) rfl h

theorem runOps_spec {ops : List (Op K V)} {f : FiniteMap Q V} (h : Represents hashFn eqFn cls m f)
    {answers : List (Answer V)} (hrun : runOps hashFn eqFn ops m = some (m', answers)) :
    ∃ f', SpecRun cls ops f f' answers ∧ Represents hashFn eqFn cls m' f' := by
  induction ops generalizing m f answers with
  | nil =>
    obtain ⟨rfl, rfl⟩ := Prod.mk.inj (Option.some.inj hrun)
    exact ⟨f, SpecRun.nil f, h⟩
  | cons op ops ih =>
    obtain ⟨⟨m₁, a⟩, hop, hrest⟩ := Option.bind_eq_some_iff.mp hrun
    obtain ⟨⟨m₂, as⟩, hops, heq⟩ := Option.map_eq_some_iff.mp hrest
    obtain ⟨rfl, rfl⟩ := Prod.mk.inj heq
    obtain ⟨f₁, hstep, h₁⟩ := run_step hl hcls h hop
    obtain ⟨f₂, hspec, h₂⟩ := ih h₁ hops
    exact ⟨f₂, SpecRun.cons hstep hspec, h₂⟩

end Runs

/-- Keys up to the equality of the map. -/
def keySetoid (hl : LawfulKeys hashFn eqFn) : Setoid K where
  r a b := eqFn a b = true
  iseqv := ⟨hl.refl, fun h => hl.symm _ _ h, fun h h' => hl.trans _ _ _ h h'⟩

/-- The class of a key. -/
def keyClass (hl : LawfulKeys hashFn eqFn) (key : K) : Quotient (keySetoid hl) := Quotient.mk _ key

noncomputable instance keyClassDecidableEq (hl : LawfulKeys hashFn eqFn) :
    DecidableEq (Quotient (keySetoid hl)) := Classical.decEq _

/-- Every run of the interface on a new table answers as the same run on the empty finite map, and the
table it leaves holds that map: every lookup agrees, and a full iteration yields each live pair once. -/
theorem run_refines (hl : LawfulKeys hashFn eqFn) (keySize valSize : ℕ) (ops : List (Op K V))
    (m : KaracMap K V) (answers : List (Answer V))
    (hrun : runOps hashFn eqFn ops (new K V keySize valSize) = some (m, answers)) :
    ∃ f : FiniteMap (Quotient (keySetoid hl)) V, SpecRun (keyClass hl) ops ∅ f answers ∧
      (∀ key, m.get hashFn eqFn key = f.lookup (keyClass hl key)) ∧
      (∀ key, m.contains hashFn eqFn key = (f.lookup (keyClass hl key)).isSome) ∧
      m.len = f.keys.card ∧
      (∃ pairs : List (K × V), m.iterate m.capacity 0 = pairs.map (fun e => (some e.1, some e.2)) ∧
        f.entries = pairs.map fun e => (⟨keyClass hl e.1, e.2⟩ : Σ _ : Quotient (keySetoid hl), V)) ∧
      ∀ op : Op K V, op.run hashFn eqFn m = none → op.MayEnd := by
  have hcls : ∀ a b, eqFn a b = true ↔ keyClass hl a = keyClass hl b := fun a b =>
    (Quotient.eq (r := keySetoid hl)).symm
  have hnew : Represents hashFn eqFn (keyClass hl) (new K V keySize valSize) ∅ :=
    Represents.blank (Inv.blank ⟨4, le_rfl, rfl⟩ rfl rfl fun _ _ => rfl) rfl fun _ _ => rfl
  obtain ⟨f, hspec, h⟩ := runOps_spec hl hcls hnew hrun
  exact ⟨f, hspec, h.get hl hcls, h.contains hl hcls, h.len_eq, h.iterate hcls,
    fun op => mayEnd_of_run_eq_none⟩

/-- A run over two keys that share a home bucket. -/
def collidingOps : List (Op ℕ ℕ) :=
  [.tryInsert (fun _ => true) 3 7, .tryInsert (fun _ => true) 19 8, .remove 3, .get 19, .len]

/-- What that run leaves of a new table. -/
def collidingTable : KaracMap ℕ ℕ :=
  ((((new ℕ ℕ 8 8).tryInsert (BitVec.ofNat 64) Nat.beq (fun _ => true) 3 7).1.tryInsert (BitVec.ofNat 64)
    Nat.beq (fun _ => true) 19 8).1.remove (BitVec.ofNat 64) Nat.beq 3).1

theorem natKeys_lawful : LawfulKeys (BitVec.ofNat 64) Nat.beq where
  refl a := Nat.beq_refl a
  symm a b h := by rw [Nat.eq_of_beq_eq_true h]; exact Nat.beq_refl b
  trans a b c h h' := by rw [Nat.eq_of_beq_eq_true h]; exact h'
  hash_eq a b h := by rw [Nat.eq_of_beq_eq_true h]

theorem run_refines_colliding : ∃ answers, runOps (BitVec.ofNat 64) Nat.beq collidingOps (new ℕ ℕ 8 8) =
    some (collidingTable, answers) ∧ ∃ f : FiniteMap (Quotient (keySetoid natKeys_lawful)) ℕ,
      SpecRun (keyClass natKeys_lawful) collidingOps ∅ f answers ∧ collidingTable.len = f.keys.card := by
  have hrun : runOps (BitVec.ofNat 64) Nat.beq collidingOps (new ℕ ℕ 8 8) = some (collidingTable, _) := rfl
  obtain ⟨f, hspec, -, -, hlen, -⟩ := run_refines natKeys_lawful 8 8 collidingOps collidingTable _ hrun
  exact ⟨_, hrun, f, hspec, hlen⟩

/-- `karac_map_sorted_keys`: the count and the keys in the buffer. -/
def sortedKeys (cmpFn : K → K → Ordering) (m : KaracMap K V) : ℕ × List K :=
  (m.len, if m.len = 0 then [] else ((m.liveFrom 0).filterMap m.keys).mergeSort fun a b => (cmpFn a b).isLE)

/-- After every run the buffer has the keys of the finite map, each once and in order, as many as are counted. -/
theorem sorted_keys_exact (hl : LawfulKeys hashFn eqFn) (cmpFn : K → K → Ordering) [Std.TransCmp cmpFn]
    (hcmp : ∀ a b, cmpFn a b = .eq → eqFn a b = true) (keySize valSize : ℕ) (ops : List (Op K V))
    (answers : List (Answer V)) (hrun : runOps hashFn eqFn ops (new K V keySize valSize) = some (m, answers))
    {n : ℕ} {keys : List K} (hkeys : m.sortedKeys cmpFn = (n, keys)) :
    ∃ f : FiniteMap (Quotient (keySetoid hl)) V, SpecRun (keyClass hl) ops ∅ f answers ∧
      f.keys.val = (keys.map (keyClass hl) : List _) ∧ keys.Pairwise (fun a b => cmpFn a b = .lt) ∧ n = keys.length := by
  have hcls : ∀ a b, eqFn a b = true ↔ keyClass hl a = keyClass hl b := fun a b =>
    (Quotient.eq (r := keySetoid hl)).symm
  have hnew : Represents hashFn eqFn (keyClass hl) (new K V keySize valSize) ∅ :=
    Represents.blank (Inv.blank ⟨4, le_rfl, rfl⟩ rfl rfl fun _ _ => rfl) rfl fun _ _ => rfl
  obtain ⟨f, hspec, h⟩ := runOps_spec hl hcls hnew hrun
  obtain ⟨pairs, hiterate, hentries⟩ := h.iterate hcls
  obtain ⟨rfl, rfl⟩ := Prod.mk.inj hkeys
  have hlive : (m.liveFrom 0).filterMap m.keys = pairs.map Prod.fst := by
    rw [iterate_eq (by omega)] at hiterate
    simpa [List.filterMap_map, pairAt, Function.comp_def] using congrArg (List.filterMap Prod.fst) hiterate
  have hpairs : f.keys.val = ((pairs.map Prod.fst).map (keyClass hl) : List _) := by
    change f.entries.map Sigma.fst = _
    simp [hentries, Function.comp_def]
  have hcard : m.len = pairs.length := by
    rw [h.len_eq, Finset.card_def, hpairs]
    simp
  split_ifs with hlen
  · obtain rfl := List.eq_nil_of_length_eq_zero (hcard.symm.trans hlen)
    exact ⟨f, hspec, hpairs, List.Pairwise.nil, hlen⟩
  have hperm := List.mergeSort_perm (pairs.map Prod.fst) fun a b => (cmpFn a b).isLE
  have hval := hpairs.trans (Multiset.coe_eq_coe.mpr (hperm.map (keyClass hl)).symm)
  rw [hlive]
  refine ⟨f, hspec, hval, ?_, hcard.trans (by simp)⟩
  have hnodup := List.pairwise_map.mp (Multiset.coe_nodup.mp (hval ▸ f.keys.nodup))
  have hsorted := @List.pairwise_mergeSort _ (fun a b => (cmpFn a b).isLE) (fun a b c => Std.TransCmp.isLE_trans)
    (fun a b => by rw [@Std.OrientedCmp.eq_swap _ cmpFn _ b a]; cases cmpFn a b <;> rfl) (pairs.map Prod.fst)
  refine (hsorted.and hnodup).imp ?_
  rintro a b ⟨hle, hne⟩
  cases hab : cmpFn a b with
  | lt => rfl
  | eq => exact absurd ((hcls a b).mp (hcmp a b hab)) hne
  | gt => rw [hab] at hle; cases hle

theorem sorted_keys_colliding : ∃ answers, runOps (BitVec.ofNat 64) Nat.beq collidingOps (new ℕ ℕ 8 8) =
    some (collidingTable, answers) ∧ (collidingTable.sortedKeys compare).2.Pairwise fun a b => compare a b = .lt := by
  have hrun : runOps (BitVec.ofNat 64) Nat.beq collidingOps (new ℕ ℕ 8 8) = some (collidingTable, _) := rfl
  have hcmp : ∀ a b : ℕ, compare a b = .eq → Nat.beq a b = true := by simp
  obtain ⟨f, -, -, hsorted, -⟩ := sorted_keys_exact natKeys_lawful compare hcmp 8 8 collidingOps _ hrun rfl
  exact ⟨_, hrun, hsorted⟩

end KaracMap

end Karac.Map
