import Karac.Flow.Postorder

/-! The sweeps end and leave the dominator tree: a reached block lies on every path to another exactly
where `dominates` says so. -/

namespace Karac.Flow

open Lib.Dominance

theorem idomOf_set {idom : List (Option BlockId)} {b : BlockId} (hb : b < idom.length) (m : BlockId) :
    idomOf (idom.set b (some m)) = Function.update (idomOf idom) b (some m) := by
  funext c
  unfold idomOf
  by_cases hc : c = b
  · rw [hc, Function.update_self, List.getElem?_set_self hb]
    rfl
  · rw [Function.update_of_ne hc, List.getElem?_set_ne (Ne.symm hc)]

section Intersect

variable {cfg : Cfg} {rpo : List BlockId} {rpoIndex : List ℕ} {idom : List (Option BlockId)}
  (hL : Listed cfg rpo) (hP : Positions rpo rpoIndex)
  (h : Parents cfg.Edge cfg.entry (position rpoIndex) (idomOf idom))
include hL hP h

/-- The inner loop stops at the highest ancestor not above the other finger. -/
theorem climb_spec (fuel : ℕ) {b1 : BlockId} (b2 : BlockId) (h1 : (idomOf idom b1).isSome = true)
    (hfuel : position rpoIndex b1 < fuel) :
    ∃ c, climb idom rpoIndex fuel b1 b2 = some c ∧ Anc (idomOf idom) b1 c ∧
      position rpoIndex c ≤ position rpoIndex b2 ∧
      ∀ x, Anc (idomOf idom) b1 x → position rpoIndex x ≤ position rpoIndex b2 → Anc (idomOf idom) c x := by
  induction fuel generalizing b1 with
  | zero => omega
  | succ fuel ih =>
    rw [climb]
    by_cases hdeep : position rpoIndex b1 > position rpoIndex b2
    · have hne : b1 ≠ cfg.entry := by
        rintro rfl
        rw [hL.position_entry hP] at hdeep
        omega
      obtain ⟨d, hd⟩ := Option.isSome_iff_exists.mp h1
      have hlt := h.rank b1 d hd hne
      obtain ⟨c, hc, hdc, hle, hmax⟩ := ih (h.assigned b1 d hd) (by omega)
      refine ⟨c, by rw [if_pos hdeep, hd]; exact hc, Relation.ReflTransGen.head hd hdc, hle, fun x hx hxle => ?_⟩
      apply hmax x _ hxle
      rcases Relation.ReflTransGen.cases_head hx with rfl | ⟨d', hd', hdx⟩
      · omega
      · rw [hd] at hd'
        rw [Option.some.inj hd']
        exact hdx
    · exact ⟨b1, if_neg hdeep, Relation.ReflTransGen.refl, by omega, fun x hx _ => hx⟩

/-- The two fingers meet at the nearest common ancestor. -/
theorem intersect_spec (fuel : ℕ) {b1 b2 : BlockId} (h1 : (idomOf idom b1).isSome = true)
    (h2 : (idomOf idom b2).isSome = true) (hfuel : position rpoIndex b1 + position rpoIndex b2 + 1 < fuel) :
    ∃ m, intersect idom rpoIndex fuel b1 b2 = some m ∧ Anc (idomOf idom) b1 m ∧ Anc (idomOf idom) b2 m ∧
      ∀ x, Anc (idomOf idom) b1 x → Anc (idomOf idom) b2 x → Anc (idomOf idom) m x := by
  induction fuel generalizing b1 b2 with
  | zero => omega
  | succ fuel ih =>
    rw [intersect]
    by_cases heq : b1 = b2
    · rw [if_pos heq]
      exact ⟨b1, rfl, Relation.ReflTransGen.refl, heq ▸ Relation.ReflTransGen.refl, fun x hx _ => hx⟩
    · obtain ⟨d1, hd1⟩ := Option.isSome_iff_exists.mp h1
      obtain ⟨d2, hd2⟩ := Option.isSome_iff_exists.mp h2
      have hpos : position rpoIndex b1 ≠ position rpoIndex b2 := fun hpos =>
        heq (hL.position_inj hP (h.reached b1 d1 hd1) (h.reached b2 d2 hd2) hpos)
      obtain ⟨c1, hc1, hanc1, hle1, hmax1⟩ := climb_spec hL hP h fuel b2 h1 (by omega)
      obtain ⟨c2, hc2, hanc2, hle2, hmax2⟩ := climb_spec hL hP h fuel c1 h2 (by omega)
      have hrank1 := h.anc_rank hanc1
      have hrank2 := h.anc_rank hanc2
      obtain ⟨m, hm, hm1, hm2, hmax⟩ :=
        ih (h.anc_assigned h1 hanc1) (h.anc_assigned h2 hanc2) (by omega)
      refine ⟨m, by rw [if_neg heq, hc1, Option.bind_some, hc2]; exact hm, hanc1.trans hm1, hanc2.trans hm2,
        fun x hx1 hx2 => ?_⟩
      have hx1' : Anc (idomOf idom) c1 x := hmax1 x hx1 (h.anc_rank hx2)
      exact hmax x hx1' (hmax2 x hx2 (h.anc_rank hx1'))

theorem intersectPreds_spec {fuel : ℕ} (hfuel : 2 * rpo.length + 1 < fuel) (preds : List BlockId)
    {new : BlockId} (hnew : (idomOf idom new).isSome = true) :
    ∃ m, intersectPreds idom rpoIndex fuel preds new = some m ∧ Anc (idomOf idom) new m ∧
      (∀ p ∈ preds, (idomOf idom p).isSome = true → Anc (idomOf idom) p m) ∧
      ∀ x, Anc (idomOf idom) new x → (∀ p ∈ preds, (idomOf idom p).isSome = true → Anc (idomOf idom) p x) →
        Anc (idomOf idom) m x := by
  induction preds generalizing new with
  | nil => exact ⟨new, rfl, Relation.ReflTransGen.refl, fun p hp => absurd hp List.not_mem_nil, fun x hx _ => hx⟩
  | cons p preds ih =>
    rw [intersectPreds]
    by_cases heq : p = new
    · obtain ⟨m, hm, hanc, hall, hmax⟩ := ih hnew
      rw [if_pos heq]
      refine ⟨m, hm, hanc, fun q hq hsome => ?_, fun x hx hq => ?_⟩
      · rcases List.mem_cons.mp hq with rfl | hq
        · rw [heq]
          exact hanc
        · exact hall q hq hsome
      · exact hmax x hx fun q hmem => hq q (List.mem_cons_of_mem _ hmem)
    · rw [if_neg heq]
      by_cases hp : (idomOf idom p).isSome = true
      · obtain ⟨dp, hdp⟩ := Option.isSome_iff_exists.mp hp
        obtain ⟨dn, hdn⟩ := Option.isSome_iff_exists.mp hnew
        have hltp := hL.position_lt hP (h.reached p dp hdp)
        have hltn := hL.position_lt hP (h.reached new dn hdn)
        obtain ⟨c, hc, hpc, hnc, hmaxc⟩ := intersect_spec hL hP h fuel hp hnew (by omega)
        obtain ⟨m, hm, hanc, hall, hmax⟩ := ih (h.anc_assigned hp hpc)
        refine ⟨m, by rw [if_pos hp, hc]; exact hm, hnc.trans hanc, fun q hq hsome => ?_, fun x hx hq => ?_⟩
        · rcases List.mem_cons.mp hq with rfl | hq
          · exact hpc.trans hanc
          · exact hall q hq hsome
        · apply hmax x (hmaxc x (hq p List.mem_cons_self hp) hx)
          exact fun q hmem => hq q (List.mem_cons_of_mem _ hmem)
      · obtain ⟨m, hm, hanc, hall, hmax⟩ := ih hnew
        rw [if_neg hp]
        refine ⟨m, hm, hanc, fun q hq hsome => ?_, fun x hx hq => ?_⟩
        · rcases List.mem_cons.mp hq with rfl | hq
          · exact absurd hsome hp
          · exact hall q hq hsome
        · exact hmax x hx fun q hmem => hq q (List.mem_cons_of_mem _ hmem)

/-- A block with a processed predecessor moves to the nearest common ancestor of its predecessors. -/
theorem visitBlock_spec {fuel : ℕ} (hfuel : 2 * rpo.length + 1 < fuel) {b : BlockId} (hb : b ≠ cfg.entry)
    (hfw : ∃ p, cfg.Edge p b ∧ (idomOf idom p).isSome = true) (changed : Bool) :
    ∃ m, Meets cfg.Edge (idomOf idom) b m ∧ visitBlock cfg fuel rpoIndex b idom changed =
      some (if idomOf idom b = some m then (idom, changed) else (idom.set b (some m), true)) := by
  obtain ⟨p, e, hp⟩ := hfw
  unfold visitBlock
  rw [if_neg hb]
  simp only
  split
  · rename_i hnone
    exact absurd hp (List.find?_eq_none.mp hnone p (Cfg.mem_predecessors.mpr e))
  · rename_i first hfirst
    have hsome := List.find?_some hfirst
    have hmem := List.mem_of_find?_eq_some hfirst
    obtain ⟨m, hm, hanc, hall, hmax⟩ := intersectPreds_spec hL hP h hfuel (cfg.predecessors b) hsome
    refine ⟨m, ⟨fun q eq => hall q (Cfg.mem_predecessors.mpr eq), fun x hx => ?_⟩, by rw [hm]; rfl⟩
    apply hmax x (hx first (Cfg.mem_predecessors.mp hmem) hsome)
    exact fun q hq => hx q (Cfg.mem_predecessors.mp hq)

end Intersect

section Sweep

variable {cfg : Cfg} {rpo : List BlockId} {rpoIndex : List ℕ} (hL : Listed cfg rpo) (hP : Positions rpo rpoIndex)
include hL hP

/-- What a sweep over the rest of the listing does: it ends, and where it changes nothing every parent is
a common ancestor of the predecessors; exact parents it leaves alone. -/
theorem sweep_spec {fuel : ℕ} (hfuel : 2 * rpo.length + 1 < fuel) {k : ℕ} (todo : List BlockId)
    {done : List BlockId} (horder : rpo.tail = done ++ todo) {idom : List (Option BlockId)}
    (hlen : idom.length = cfg.numBlocks) (changed : Bool)
    (h : Swept cfg.Edge cfg.entry (position rpoIndex) k done todo (idomOf idom)) :
    ∃ idom' changed', sweep cfg fuel rpoIndex todo idom changed = some (idom', changed') ∧
      idom'.length = cfg.numBlocks ∧
      Swept cfg.Edge cfg.entry (position rpoIndex) k rpo.tail [] (idomOf idom') ∧
      (changed' = false → changed = false ∧ idom' = idom ∧ ∀ b ∈ todo, ∃ d, idomOf idom b = some d ∧
        ∀ p, cfg.Edge p b → (idomOf idom p).isSome = true → Anc (idomOf idom) p d) ∧
      (Exact cfg.Edge cfg.entry (idomOf idom) → idom' = idom ∧ changed' = changed) := by
  have hN := hL.numbered hP
  induction todo generalizing done idom changed with
  | nil =>
    rw [List.append_nil] at horder
    refine ⟨idom, changed, rfl, hlen, horder ▸ h, fun hch => ⟨hch, rfl, fun b hb => ?_⟩, fun _ => ⟨rfl, rfl⟩⟩
    exact absurd hb List.not_mem_nil
  | cons b todo ih =>
    have hN' := horder ▸ hN
    obtain ⟨hreached, hne⟩ := (hN'.mem_iff b).mp (by simp)
    obtain ⟨p, e, hp, hlt⟩ := h.exists_forward hN'
    obtain ⟨m, hm, hvisit⟩ := visitBlock_spec hL hP h.parents hfuel hne ⟨p, e, hp⟩ changed
    have hswept := h.visit hN' hm
    have horder' : rpo.tail = (done ++ [b]) ++ todo := by rw [horder, List.append_assoc, List.singleton_append]
    rw [sweep, hvisit, Option.bind_some]
    by_cases hsame : idomOf idom b = some m
    · rw [if_pos hsame]
      rw [← hsame, Function.update_eq_self] at hswept
      obtain ⟨idom', changed', hrun, hlen', hdone, hstable, hexact⟩ := ih horder' hlen changed hswept
      refine ⟨idom', changed', hrun, hlen', hdone, fun hch => ?_, hexact⟩
      obtain ⟨hch', heq, hrest⟩ := hstable hch
      refine ⟨hch', heq, fun c hc => ?_⟩
      rcases List.mem_cons.mp hc with rfl | hc
      · exact ⟨m, hsame, hm.common⟩
      · exact hrest c hc
    · rw [if_neg hsame]
      rw [← idomOf_set (by rw [hlen]; exact Cfg.reached_lt hreached) m] at hswept
      obtain ⟨idom', changed', hrun, hlen', hdone, hstable, -⟩ :=
        ih horder' ((List.length_set ..).trans hlen) true hswept
      refine ⟨idom', changed', hrun, hlen', hdone, fun hch => ?_, fun hex => ?_⟩
      · exact absurd (hstable hch).1 (by simp)
      · exact absurd (hex.visit_eq h.parents hne hreached hm ⟨p, e, hp, hlt⟩) hsame

/-- A whole sweep starts with the entry, which it skips. -/
theorem sweep_rpo (fuel : ℕ) (idom : List (Option BlockId)) (changed : Bool) :
    sweep cfg fuel rpoIndex rpo idom changed = sweep cfg fuel rpoIndex rpo.tail idom changed := by
  obtain ⟨t, ht⟩ := List.head?_eq_some_iff.mp hL.head
  rw [ht, sweep, visitBlock, if_pos rfl]
  rfl

/-- With `j` sweeps to go until the parents are exact, the loop ends with exact parents. -/
theorem iterateSweeps_spec {fuel : ℕ} (hfuel : 2 * rpo.length + 1 < fuel) {K : ℕ}
    (hK : ∀ up, Swept cfg.Edge cfg.entry (position rpoIndex) K rpo.tail [] up → Exact cfg.Edge cfg.entry up)
    (j : ℕ) {k : ℕ} (hkj : k + j = K + 1) {idom : List (Option BlockId)} (hlen : idom.length = cfg.numBlocks)
    (h : Swept cfg.Edge cfg.entry (position rpoIndex) k [] rpo.tail (idomOf idom))
    (hexact : j = 0 → Exact cfg.Edge cfg.entry (idomOf idom)) :
    ∃ idom', iterateSweeps cfg fuel rpo rpoIndex (j + 1) idom = some idom' ∧ idom'.length = cfg.numBlocks ∧
      Parents cfg.Edge cfg.entry (position rpoIndex) (idomOf idom') ∧
      Exact cfg.Edge cfg.entry (idomOf idom') := by
  have hN := hL.numbered hP
  induction j generalizing k idom with
  | zero =>
    obtain ⟨idom', changed', hrun, -, -, -, hsame⟩ := sweep_spec hL hP hfuel rpo.tail rfl hlen false h
    obtain ⟨rfl, rfl⟩ := hsame (hexact rfl)
    refine ⟨idom', ?_, hlen, h.parents, hexact rfl⟩
    rw [iterateSweeps, sweep_rpo hL hP, hrun]
    rfl
  | succ j ih =>
    obtain ⟨idom', changed', hrun, hlen', hdone, hstable, -⟩ := sweep_spec hL hP hfuel rpo.tail rfl hlen false h
    rw [iterateSweeps, sweep_rpo hL hP, hrun, Option.bind_some]
    by_cases hch : changed' = true
    · rw [if_pos hch]
      refine ih (by omega) hlen' hdone.next fun hj => ?_
      obtain rfl : k = K := by omega
      exact hK _ hdone
    · rw [if_neg hch]
      obtain ⟨-, rfl, hst⟩ := hstable (Bool.eq_false_iff.mpr hch)
      refine ⟨idom', rfl, hlen', h.parents, h.parents.exact_of_stable fun b hr hne => ?_⟩
      exact hst b ((hN.mem_iff b).mpr ⟨hr, hne⟩)

end Sweep

/-! More fuel changes nothing. -/

section Fuel

variable {cfg : Cfg} {rpoIndex : List ℕ}

theorem climb_mono {idom : List (Option BlockId)} {fuel fuel' : ℕ} (hle : fuel ≤ fuel') {b1 b2 c : BlockId}
    (h : climb idom rpoIndex fuel b1 b2 = some c) : climb idom rpoIndex fuel' b1 b2 = some c := by
  induction fuel generalizing b1 fuel' with
  | zero => exact absurd h (by simp [climb])
  | succ fuel ih =>
    obtain ⟨fuel', rfl⟩ : ∃ k, fuel' = k + 1 := ⟨fuel' - 1, by omega⟩
    rw [climb] at h ⊢
    split at h
    · obtain ⟨d, hd, hrun⟩ := Option.bind_eq_some_iff.mp h
      rw [if_pos (by assumption), hd]
      exact ih (by omega) hrun
    · rw [if_neg (by assumption)]
      exact h

theorem intersect_mono {idom : List (Option BlockId)} {fuel fuel' : ℕ} (hle : fuel ≤ fuel') {b1 b2 c : BlockId}
    (h : intersect idom rpoIndex fuel b1 b2 = some c) : intersect idom rpoIndex fuel' b1 b2 = some c := by
  induction fuel generalizing b1 b2 fuel' with
  | zero => exact absurd h (by simp [intersect])
  | succ fuel ih =>
    obtain ⟨fuel', rfl⟩ : ∃ k, fuel' = k + 1 := ⟨fuel' - 1, by omega⟩
    rw [intersect] at h ⊢
    split at h
    · rw [if_pos (by assumption)]
      exact h
    · rw [if_neg (by assumption)]
      obtain ⟨c1, h1, h⟩ := Option.bind_eq_some_iff.mp h
      obtain ⟨c2, h2, h⟩ := Option.bind_eq_some_iff.mp h
      rw [climb_mono (by omega) h1, Option.bind_some, climb_mono (by omega) h2]
      exact ih (by omega) h

theorem intersectPreds_mono {idom : List (Option BlockId)} {fuel fuel' : ℕ} (hle : fuel ≤ fuel')
    (preds : List BlockId) {new m : BlockId} (h : intersectPreds idom rpoIndex fuel preds new = some m) :
    intersectPreds idom rpoIndex fuel' preds new = some m := by
  induction preds generalizing new with
  | nil => exact h
  | cons p preds ih =>
    rw [intersectPreds] at h ⊢
    split at h
    · rw [if_pos (by assumption)]
      exact ih h
    · rw [if_neg (by assumption)]
      split at h
      · obtain ⟨c, hc, h⟩ := Option.bind_eq_some_iff.mp h
        rw [if_pos (by assumption), intersect_mono hle hc]
        exact ih h
      · rw [if_neg (by assumption)]
        exact ih h

theorem visitBlock_mono {fuel fuel' : ℕ} (hle : fuel ≤ fuel') {b : BlockId} {idom : List (Option BlockId)}
    {changed : Bool} {r : List (Option BlockId) × Bool}
    (h : visitBlock cfg fuel rpoIndex b idom changed = some r) :
    visitBlock cfg fuel' rpoIndex b idom changed = some r := by
  unfold visitBlock at h ⊢
  split at h
  · rw [if_pos (by assumption)]
    exact h
  · rw [if_neg (by assumption)]
    simp only at h ⊢
    split at h
    · exact h
    · obtain ⟨m, hm, h⟩ := Option.map_eq_some_iff.mp h
      rw [intersectPreds_mono hle _ hm, Option.map_some, h]

theorem sweep_mono {fuel fuel' : ℕ} (hle : fuel ≤ fuel') (bs : List BlockId) {idom : List (Option BlockId)}
    {changed : Bool} {r : List (Option BlockId) × Bool} (h : sweep cfg fuel rpoIndex bs idom changed = some r) :
    sweep cfg fuel' rpoIndex bs idom changed = some r := by
  induction bs generalizing idom changed with
  | nil => exact h
  | cons b bs ih =>
    rw [sweep] at h ⊢
    obtain ⟨r', hr', h⟩ := Option.bind_eq_some_iff.mp h
    rw [visitBlock_mono hle hr']
    exact ih h

theorem iterateSweeps_mono {fuel fuel' : ℕ} (hle : fuel ≤ fuel') {rpo : List BlockId} {k k' : ℕ} (hk : k ≤ k')
    {idom r : List (Option BlockId)} (h : iterateSweeps cfg fuel rpo rpoIndex k idom = some r) :
    iterateSweeps cfg fuel' rpo rpoIndex k' idom = some r := by
  induction k generalizing idom k' with
  | zero => exact absurd h (by simp [iterateSweeps])
  | succ k ih =>
    obtain ⟨k', rfl⟩ : ∃ j, k' = j + 1 := ⟨k' - 1, by omega⟩
    rw [iterateSweeps] at h ⊢
    obtain ⟨r', hr', h⟩ := Option.bind_eq_some_iff.mp h
    rw [sweep_mono hle rpo hr', Option.bind_some]
    split at h
    · rw [if_pos (by assumption)]
      exact ih (by omega) h
    · rw [if_neg (by assumption)]
      exact h

theorem DominatorTree.dominatesFrom_mono {tree : DominatorTree} {a : BlockId} {fuel fuel' : ℕ} (hle : fuel ≤ fuel')
    {cur : BlockId} {r : Bool} (h : tree.dominatesFrom a fuel cur = some r) :
    tree.dominatesFrom a fuel' cur = some r := by
  induction fuel generalizing cur fuel' with
  | zero => exact absurd h (by simp [dominatesFrom])
  | succ fuel ih =>
    obtain ⟨fuel', rfl⟩ : ∃ k, fuel' = k + 1 := ⟨fuel' - 1, by omega⟩
    rw [dominatesFrom] at h ⊢
    split at h
    · exact h
    · split at h
      · rw [if_pos (by assumption)]
        exact h
      · rw [if_neg (by assumption)]
        split at h
        · rw [if_pos (by assumption)]
          exact h
        · rw [if_neg (by assumption)]
          exact ih (by omega) h

theorem DominatorTree.dominates_mono {tree : DominatorTree} {a b : BlockId} {fuel fuel' : ℕ} (hle : fuel ≤ fuel')
    {r : Bool} (h : tree.dominates fuel a b = some r) : tree.dominates fuel' a b = some r := by
  unfold dominates at h ⊢
  split at h
  · rw [if_pos (by assumption)]
    exact h
  · rw [if_neg (by assumption)]
    exact dominatesFrom_mono hle h

end Fuel

/-- The parents of the public tree are those of the loop but for the entry. -/
theorem idom_publicIdoms {cfg : Cfg} (idom : List (Option BlockId)) (rpo : List BlockId) (rpoIndex : List ℕ)
    (b : BlockId) : (⟨publicIdoms cfg idom, rpo, rpoIndex⟩ : DominatorTree).idom b =
      if b = cfg.entry then none else idomOf idom b := by
  unfold DominatorTree.idom publicIdoms idomOf
  rw [List.getElem?_mapIdx]
  cases idom[b]? with
  | none => split <;> rfl
  | some d =>
    by_cases hb : b = cfg.entry
    · rw [if_pos hb, Option.map_some, if_pos hb]
      rfl
    · rw [if_neg hb, Option.map_some, if_neg hb]

/-- The chain up from a block meets its ancestors. -/
theorem dominatesFrom_spec {cfg : Cfg} {rpo : List BlockId} {rpoIndex : List ℕ} {idom : List (Option BlockId)}
    (h : Parents cfg.Edge cfg.entry (position rpoIndex) (idomOf idom)) (a : BlockId) (fuel : ℕ) {cur : BlockId}
    (hcur : (idomOf idom cur).isSome = true) (hfuel : position rpoIndex cur < fuel) :
    ∃ r, (⟨publicIdoms cfg idom, rpo, rpoIndex⟩ : DominatorTree).dominatesFrom a fuel cur = some r ∧
      (r = true ↔ a ≠ cur ∧ Anc (idomOf idom) cur a) := by
  induction fuel generalizing cur with
  | zero => omega
  | succ fuel ih =>
    rw [DominatorTree.dominatesFrom, idom_publicIdoms]
    by_cases hentry : cur = cfg.entry
    · rw [if_pos hentry]
      refine ⟨false, rfl, fun hf => absurd hf (by simp), ?_⟩
      rintro ⟨hne, hanc⟩
      rw [hentry] at hne hanc
      exact absurd (h.anc_root hanc) hne
    · obtain ⟨d, hd⟩ := Option.isSome_iff_exists.mp hcur
      have hlt := h.rank cur d hd hentry
      have hdcur : d ≠ cur := by
        rintro rfl
        exact absurd hlt (lt_irrefl _)
      rw [if_neg hentry, hd]
      simp only
      by_cases hda : d = a
      · rw [if_pos hda]
        exact ⟨true, rfl, fun _ => ⟨hda ▸ hdcur, hda ▸ Relation.ReflTransGen.single hd⟩, fun _ => rfl⟩
      · rw [if_neg hda, if_neg hdcur]
        obtain ⟨r, hr, hiff⟩ := ih (h.assigned cur d hd) (by omega)
        refine ⟨r, hr, hiff.trans ⟨?_, ?_⟩⟩
        · rintro ⟨-, hanc⟩
          refine ⟨?_, Relation.ReflTransGen.head hd hanc⟩
          rintro rfl
          exact absurd (h.anc_rank hanc) (by omega)
        · rintro ⟨hne, hanc⟩
          refine ⟨Ne.symm hda, ?_⟩
          rcases Relation.ReflTransGen.cases_head hanc with heq | ⟨d', hd', hdx⟩
          · exact absurd heq.symm hne
          · rw [hd] at hd'
            rw [Option.some.inj hd']
            exact hdx

/-- The loops end with a tree over a listing of the reached blocks whose chains are the dominators. -/
theorem exists_tree (cfg : Cfg) :
    ∃ N tree, Listed cfg tree.rpo ∧
      (∀ fuel, N ≤ fuel → computeDominators cfg fuel = some tree ∧
        reversePostorder cfg fuel = some (tree.rpo, tree.rpoIndex)) ∧
      ∀ a b, Reached cfg.Edge cfg.entry b →
        ∃ r, (∀ fuel, N ≤ fuel → tree.dominates fuel a b = some r) ∧
          (r = true ↔ Dominates cfg.Edge cfg.entry a b) := by
  obtain ⟨N, rpo, rpoIndex, hL, hP, horder⟩ := reverse_postorder_listed cfg
  obtain ⟨K, hK⟩ := exists_exact (hL.numbered hP)
  have hentry : cfg.entry < (List.replicate cfg.numBlocks (none : Option BlockId)).length := by
    rw [List.length_replicate]
    exact cfg.entry_lt
  have hnone : idomOf (List.replicate cfg.numBlocks (none : Option BlockId)) = fun _ => none := by
    funext b
    unfold idomOf
    rw [List.getElem?_replicate]
    split <;> rfl
  have hstart : Swept cfg.Edge cfg.entry (position rpoIndex) 0 [] rpo.tail
      (idomOf ((List.replicate cfg.numBlocks (none : Option BlockId)).set cfg.entry (some cfg.entry))) := by
    rw [idomOf_set hentry, hnone]
    exact ⟨Parents.initial _, fun c hc => absurd hc List.not_mem_nil, fun j hj => absurd hj (by omega)⟩
  obtain ⟨idom, hrun, -, hparents, hexact⟩ := iterateSweeps_spec hL hP (Nat.lt_succ_self (2 * rpo.length + 1)) hK
    (K + 1) (by omega) (by rw [List.length_set, List.length_replicate]) hstart (fun hk => absurd hk (by omega))
  refine ⟨N + (2 * rpo.length + 2) + (K + 2), ⟨publicIdoms cfg idom, rpo, rpoIndex⟩, hL, fun fuel hle => ?_,
    fun a b hb => ?_⟩
  · have hpost := horder fuel (by omega)
    refine ⟨?_, hpost⟩
    unfold computeDominators
    rw [hpost, Option.bind_some]
    simp only
    rw [iterateSweeps_mono (by omega) (by omega) hrun]
    rfl
  · by_cases hab : a = b
    · refine ⟨true, fun fuel _ => if_pos hab, fun _ => hab ▸ Dominates.refl a, fun _ => rfl⟩
    · obtain ⟨hsome, hanc⟩ := hexact b hb
      have hlt := hL.position_lt hP hb
      obtain ⟨r, hr, hiff⟩ := @dominatesFrom_spec cfg rpo rpoIndex idom hparents a rpo.length b hsome hlt
      refine ⟨r, fun fuel hle => ?_, ?_⟩
      · unfold DominatorTree.dominates
        rw [if_neg hab]
        exact DominatorTree.dominatesFrom_mono (by omega) hr
      · rw [hiff, hanc a]
        exact ⟨fun hdom => hdom.2, fun hdom => ⟨hab, hdom⟩⟩

/-- The dominator tree of every graph: the loops end, the listing holds the reached blocks once each with
the entry first, and between reached blocks `dominates` is dominance. -/
theorem compute_dominators_correct (cfg : Cfg) :
    ∃ N tree, (∀ fuel, N ≤ fuel → computeDominators cfg fuel = some tree ∧
        reversePostorder cfg fuel = some (tree.rpo, tree.rpoIndex)) ∧
      tree.rpo.Nodup ∧ (∀ b, b ∈ tree.rpo ↔ Reached cfg.Edge cfg.entry b) ∧ tree.rpo.head? = some cfg.entry ∧
      ∀ a b, Reached cfg.Edge cfg.entry a → Reached cfg.Edge cfg.entry b →
        ∃ r, (∀ fuel, N ≤ fuel → tree.dominates fuel a b = some r) ∧
          (r = true ↔ Dominates cfg.Edge cfg.entry a b) := by
  obtain ⟨N, tree, hL, hrun, hdom⟩ := exists_tree cfg
  exact ⟨N, tree, hrun, hL.nodup, hL.mem_iff, hL.head, fun a b _ hb => hdom a b hb⟩

/-- A dominance test that is right about the reached blocks. -/
def CorrectTest (cfg : Cfg) (dominates : BlockId → BlockId → Bool) : Prop :=
  ∀ a b, Reached cfg.Edge cfg.entry b → (dominates a b = true ↔ Dominates cfg.Edge cfg.entry a b)

/-- The test a tree answers with enough fuel. -/
def DominatorTree.test (tree : DominatorTree) (fuel : ℕ) (a b : BlockId) : Bool := (tree.dominates fuel a b).getD false

theorem computeDominators_mono {cfg : Cfg} {fuel fuel' : ℕ} (hle : fuel ≤ fuel') {tree : DominatorTree}
    (h : computeDominators cfg fuel = some tree) : computeDominators cfg fuel' = some tree := by
  unfold computeDominators at h ⊢
  obtain ⟨order, horder, h⟩ := Option.bind_eq_some_iff.mp h
  obtain ⟨idom, hrun, h⟩ := Option.map_eq_some_iff.mp h
  unfold reversePostorder at horder ⊢
  obtain ⟨st, hst, horder⟩ := Option.map_eq_some_iff.mp horder
  rw [dfsLoop_mono hst hle, Option.map_some, horder, Option.bind_some]
  simp only
  rw [iterateSweeps_mono hle hle hrun, Option.map_some, h]

/-- The computed tree answers every question about reached blocks that the fuel suffices for. -/
theorem correctTest_of_computed {cfg : Cfg} {fuel : ℕ} {tree : DominatorTree}
    (h : computeDominators cfg fuel = some tree)
    (hsome : ∀ a b, Reached cfg.Edge cfg.entry b → (tree.dominates fuel a b).isSome = true) :
    CorrectTest cfg (tree.test fuel) := by
  obtain ⟨N, tree', -, hrun, hdom⟩ := exists_tree cfg
  obtain rfl : tree = tree' := by
    have h1 := computeDominators_mono (Nat.le_max_left fuel N) h
    rw [(hrun _ (Nat.le_max_right fuel N)).1] at h1
    exact (Option.some.inj h1).symm
  intro a b hb
  obtain ⟨r, hr, hiff⟩ := hdom a b hb
  obtain ⟨r', hr'⟩ := Option.isSome_iff_exists.mp (hsome a b hb)
  have hmax := hr _ (Nat.le_max_right fuel N)
  rw [DominatorTree.dominates_mono (Nat.le_max_left fuel N) hr'] at hmax
  unfold DominatorTree.test
  rw [hr', Option.getD_some, Option.some.inj hmax]
  exact hiff

end Karac.Flow
