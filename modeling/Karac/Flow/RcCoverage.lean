import Karac.Flow.DominatorCorrect
import Karac.Flow.RcPredicate

/-! What the predicates cover of the uses that run after a consume with no covering rebind between. -/

namespace Karac.Flow

open Lib.Dominance

/-! Executions. -/

/-- The uses a path executes, the path with its last block first. -/
def executed (cfg : Cfg) (l : List BlockId) : List Site := l.reverse.flatMap fun b => blockSites (cfg.block b)

/-- The site gives no new value to what `c` consumes. -/
def Keeps (c r : Site) : Prop := r.use.binding = c.use.binding → isRebind c.use.place r.use = false

/-- Some path executes the consume `c` and later the use `u` of an overlapping place of the binding, with
no covering rebind between. -/
def Reused (cfg : Cfg) (c u : Site) : Prop :=
  ∃ l v pre mid post, PathTo cfg.Edge cfg.entry l v ∧ executed cfg l = pre ++ c :: (mid ++ u :: post) ∧
    c.use.kind = .consume ∧ u.use.binding = c.use.binding ∧
    (u.use.kind = .read ∨ u.use.kind = .consume ∨
      (u.use.kind = .reassign ∧ placeRebindCovers u.use.place c.use.place = false)) ∧
    placePathsDisjoint c.use.place u.use.place = false ∧ ∀ r ∈ mid, Keeps c r

/-- One of the three predicates has a witness for the binding. -/
def Reported (cfg : Cfg) (dominates : BlockId → BlockId → Bool) (x : String) : Prop :=
  (∃ w ∈ rcCandidates dominates cfg, w.binding = x) ∨ (∃ w ∈ directUamCandidates dominates cfg, w.binding = x) ∨
    ∃ w ∈ loopOfConsumeCandidates dominates cfg, w.binding = x

/-! Splitting what a path executes. -/

theorem flatMap_split {β γ : Type} (f : β → List γ) (l : List β) {pre rest : List γ} {x : γ}
    (h : l.flatMap f = pre ++ x :: rest) :
    ∃ l1 b l2 p q, l = l1 ++ b :: l2 ∧ f b = p ++ x :: q ∧ pre = l1.flatMap f ++ p ∧ rest = q ++ l2.flatMap f := by
  induction l generalizing pre with
  | nil => exact absurd h (by simp)
  | cons a l ih =>
    rw [List.flatMap_cons] at h
    rcases List.append_eq_append_iff.mp h with ⟨pre', hpre, hrest⟩ | ⟨c, ha, hrest⟩
    · obtain ⟨l1, b, l2, p, q, rfl, hb, rfl, hq⟩ := ih hrest
      exact ⟨a :: l1, b, l2, p, q, rfl, hb, by rw [hpre, List.flatMap_cons, List.append_assoc], hq⟩
    · cases c with
      | nil =>
        obtain ⟨l1, b, l2, p, q, rfl, hb, hp, hq⟩ := ih (show l.flatMap f = [] ++ x :: rest from hrest.symm)
        refine ⟨a :: l1, b, l2, p, q, rfl, hb, ?_, hq⟩
        rw [List.flatMap_cons, List.append_assoc, ← hp, ha, List.append_nil, List.append_nil]
      | cons y q =>
        obtain ⟨rfl, rfl⟩ := List.cons.inj hrest
        exact ⟨[], a, l, pre, q, rfl, ha, rfl, rfl⟩

/-- The element is in the first part or in the second. -/
theorem append_split {γ : Type} {mid post q rest : List γ} {x : γ} (h : mid ++ x :: post = q ++ rest) :
    (∃ q', q = mid ++ x :: q') ∨ ∃ mid', mid = q ++ mid' ∧ rest = mid' ++ x :: post := by
  rcases List.append_eq_append_iff.mp h with ⟨c, hq, hrest⟩ | ⟨mid', hmid, hrest⟩
  · cases c with
    | nil => exact Or.inr ⟨[], by rw [hq, List.append_nil, List.append_nil], hrest.symm⟩
    | cons y q' =>
      obtain ⟨rfl, -⟩ := List.cons.inj hrest
      exact Or.inl ⟨q', hq⟩
  · exact Or.inr ⟨mid', hmid, hrest⟩

theorem blockSites_sorted (b : BasicBlock) : (blockSites b).Pairwise fun r s => r.idx < s.idx := by
  unfold blockSites
  rw [List.pairwise_map, List.pairwise_iff_getElem]
  intro i j hi hj hij
  rw [List.getElem_zipIdx, List.getElem_zipIdx]
  simp only
  omega

theorem mem_blockSites {b : BasicBlock} {s : Site} : s ∈ blockSites b ↔ s.block = b.id ∧ b.uses[s.idx]? = some s.use := by
  unfold blockSites
  rw [List.mem_map]
  constructor
  · rintro ⟨ui, hui, rfl⟩
    exact ⟨rfl, List.mk_mem_zipIdx_iff_getElem?.mp hui⟩
  · rintro ⟨hblock, huse⟩
    exact ⟨(s.use, s.idx), List.mk_mem_zipIdx_iff_getElem?.mpr huse, by rw [← hblock]⟩

/-- In a split of the sites of a block, what stands after the site is in the tail. -/
theorem mem_after {b : BasicBlock} {p q : List Site} {c r : Site} (h : blockSites b = p ++ c :: q)
    (hr : r ∈ blockSites b) (hlt : c.idx < r.idx) : r ∈ q := by
  have hsorted := blockSites_sorted b
  rw [h] at hr hsorted
  obtain ⟨-, -, hcross⟩ := List.pairwise_append.mp hsorted
  rcases List.mem_append.mp hr with hr | hr
  · exact absurd (hcross r hr c List.mem_cons_self) (by omega)
  · rcases List.mem_cons.mp hr with rfl | hr
    · exact absurd hlt (lt_irrefl _)
    · exact hr

theorem mem_before {b : BasicBlock} {p q : List Site} {c r : Site} (h : blockSites b = p ++ c :: q)
    (hr : r ∈ blockSites b) (hlt : r.idx < c.idx) : r ∈ p := by
  have hsorted := blockSites_sorted b
  rw [h] at hr hsorted
  obtain ⟨-, hsorted, -⟩ := List.pairwise_append.mp hsorted
  rcases List.mem_append.mp hr with hr | hr
  · exact hr
  · rcases List.mem_cons.mp hr with rfl | hr
    · exact absurd hlt (lt_irrefl _)
    · exact absurd ((List.pairwise_cons.mp hsorted).1 r hr) (by omega)

/-- All sites of the block leave the consumed value as it is. -/
def Clean (cfg : Cfg) (c : Site) (b : BlockId) : Prop := ∀ r ∈ blockSites (cfg.block b), Keeps c r

/-- The use runs in the same visit of the block, or a path goes on to its block through clean blocks. -/
def Follows (cfg : Cfg) (c u : Site) : Prop :=
  (c.block = u.block ∧ c.idx < u.idx ∧
    ∀ r ∈ blockSites (cfg.block c.block), c.idx < r.idx → r.idx < u.idx → Keeps c r) ∨
  ((∀ r ∈ blockSites (cfg.block c.block), c.idx < r.idx → Keeps c r) ∧
    (∀ r ∈ blockSites (cfg.block u.block), r.idx < u.idx → Keeps c r) ∧
    ∃ s, cfg.Edge c.block s ∧ (Clean cfg c s ∨ s = u.block) ∧
      Relation.ReflTransGen (fun x y => cfg.Edge x y ∧ (Clean cfg c y ∨ y = u.block)) s u.block)

/-- The use runs in the same visit of the block, or a path goes on to its block, through sites that have the property. -/
def RunsThrough (P : Site → Prop) (cfg : Cfg) (c u : Site) : Prop :=
  (c.block = u.block ∧ c.idx < u.idx ∧ ∀ r ∈ blockSites (cfg.block c.block), c.idx < r.idx → r.idx < u.idx → P r) ∨
  ((∀ r ∈ blockSites (cfg.block c.block), c.idx < r.idx → P r) ∧
    (∀ r ∈ blockSites (cfg.block u.block), r.idx < u.idx → P r) ∧
    ∃ s, cfg.Edge c.block s ∧ ((∀ r ∈ blockSites (cfg.block s), P r) ∨ s = u.block) ∧
      Relation.ReflTransGen (fun x y => cfg.Edge x y ∧ ((∀ r ∈ blockSites (cfg.block y), P r) ∨ y = u.block)) s u.block)

theorem RunsThrough.mono {P Q : Site → Prop} {cfg : Cfg} {c u : Site} (hPQ : ∀ r, P r → Q r)
    (h : RunsThrough P cfg c u) : RunsThrough Q cfg c u := by
  have hclean : ∀ y, ((∀ r ∈ blockSites (cfg.block y), P r) ∨ y = u.block) →
      (∀ r ∈ blockSites (cfg.block y), Q r) ∨ y = u.block :=
    fun y hy => hy.imp_left fun hy r hr => hPQ r (hy r hr)
  rcases h with ⟨heq, hlt, hbetween⟩ | ⟨hafter, hbefore, s, hedge, hs, hpath⟩
  · exact Or.inl ⟨heq, hlt, fun r hr h1 h2 => hPQ r (hbetween r hr h1 h2)⟩
  · exact Or.inr ⟨fun r hr h1 => hPQ r (hafter r hr h1), fun r hr h1 => hPQ r (hbefore r hr h1), s, hedge, hclean s hs,
      hpath.lift id fun x y e => ⟨e.1, hclean y e.2⟩⟩

/-- From the sites a path executes to the blocks it runs through. -/
theorem runsThrough_of_run {P : Site → Prop} {cfg : Cfg} {c u : Site} {root v : BlockId} {l : List BlockId}
    {pre mid post : List Site} (hpath : PathTo cfg.Edge root l v) (hrun : executed cfg l = pre ++ c :: (mid ++ u :: post))
    (hmid : ∀ r ∈ mid, P r) :
    c ∈ blockSites (cfg.block c.block) ∧ u ∈ blockSites (cfg.block u.block) ∧
      Reached cfg.Edge root c.block ∧ Reached cfg.Edge root u.block ∧ RunsThrough P cfg c u := by
  obtain ⟨l1, b, l2, p, q, hl, hb, -, hrest⟩ := flatMap_split _ _ hrun
  have hlist : l = l2.reverse ++ b :: l1.reverse := by
    rw [← List.reverse_reverse l, hl]
    simp
  rw [hlist] at hpath
  have hc : c ∈ blockSites (cfg.block b) := by
    rw [hb]
    exact List.mem_append_right _ List.mem_cons_self
  obtain rfl : c.block = b := (mem_blockSites.mp hc).1.trans (Cfg.block_id b)
  have hreachC : Reached cfg.Edge root c.block := ⟨_, hpath.initial⟩
  have hsorted := blockSites_sorted (cfg.block c.block)
  rcases append_split hrest with ⟨q', hq⟩ | ⟨mid', hmid', hlater⟩
  · have hu : u ∈ blockSites (cfg.block c.block) := by
      rw [hb, hq]
      exact List.mem_append_right _ (List.mem_cons_of_mem _ (List.mem_append_right _ List.mem_cons_self))
    obtain hblock : u.block = c.block := (mem_blockSites.mp hu).1.trans (Cfg.block_id c.block)
    rw [hb, hq] at hsorted
    obtain ⟨-, hsorted, -⟩ := List.pairwise_append.mp hsorted
    obtain ⟨hcu, hsorted⟩ := List.pairwise_cons.mp hsorted
    obtain ⟨-, hsorted, -⟩ := List.pairwise_append.mp hsorted
    refine ⟨hc, hblock.symm ▸ hu, hreachC, hblock.symm ▸ hreachC, Or.inl ⟨hblock.symm, ?_, fun r hr hlt hlt' => ?_⟩⟩
    · exact hcu u (List.mem_append_right _ List.mem_cons_self)
    · have hrq := mem_after hb hr hlt
      rw [hq] at hrq
      rcases List.mem_append.mp hrq with hrm | hrm
      · exact hmid r hrm
      · rcases List.mem_cons.mp hrm with rfl | hrm
        · exact absurd hlt' (lt_irrefl _)
        · exact absurd ((List.pairwise_cons.mp hsorted).1 r hrm) (by omega)
  · obtain ⟨m1, b', m2, p', q', hl2, hb', hp', -⟩ := flatMap_split _ _ hlater
    have hu : u ∈ blockSites (cfg.block b') := by
      rw [hb']
      exact List.mem_append_right _ List.mem_cons_self
    obtain rfl : u.block = b' := (mem_blockSites.mp hu).1.trans (Cfg.block_id b')
    have hlist' : l2.reverse ++ c.block :: l1.reverse =
        m2.reverse ++ u.block :: (m1.reverse ++ c.block :: l1.reverse) := by
      rw [hl2]
      simp
    rw [hlist'] at hpath
    have hpathU := hpath.initial
    have hclean : ∀ y ∈ u.block :: m1.reverse, (∀ r ∈ blockSites (cfg.block y), P r) ∨ y = u.block := by
      intro y hy
      rcases List.mem_cons.mp hy with rfl | hy
      · exact Or.inr rfl
      · refine Or.inl fun r hr => hmid r ?_
        rw [hmid', hp']
        apply List.mem_append_right
        apply List.mem_append_left
        exact List.mem_flatMap.mpr ⟨y, List.mem_reverse.mp hy, hr⟩
    obtain ⟨s, ⟨hedge, hs⟩, hrest⟩ := Relation.TransGen.head'_iff.mp (hpathU.segment hclean)
    refine ⟨hc, hu, hreachC, ⟨_, hpathU⟩, Or.inr ⟨fun r hr hlt => hmid r ?_, fun r hr hlt => hmid r ?_, s, hedge, hs, hrest⟩⟩
    · rw [hmid']
      exact List.mem_append_left _ (mem_after hb hr hlt)
    · rw [hmid', hp']
      exact List.mem_append_right _ (List.mem_append_right _ (mem_before hb' hr hlt))

theorem Reused.follows {cfg : Cfg} {c u : Site} (h : Reused cfg c u) :
    c ∈ blockSites (cfg.block c.block) ∧ u ∈ blockSites (cfg.block u.block) ∧
      Reached cfg.Edge cfg.entry c.block ∧ Reached cfg.Edge cfg.entry u.block ∧ Follows cfg c u := by
  obtain ⟨l, v, pre, mid, post, hpath, hrun, -, -, -, -, hmid⟩ := h
  exact runsThrough_of_run hpath hrun hmid

/-! Buckets. -/

theorem mem_allSites {cfg : Cfg} {s : Site} : s ∈ allSites cfg ↔ s ∈ blockSites (cfg.block s.block) := by
  unfold allSites
  rw [List.mem_flatMap]
  constructor
  · rintro ⟨b, hb, hs⟩
    obtain ⟨i, hi⟩ := List.mem_iff_getElem?.mp hb
    have hblock : cfg.block s.block = b := by
      unfold Cfg.block
      rw [(mem_blockSites.mp hs).1, cfg.ids i b hi, hi]
      rfl
    rw [hblock]
    exact hs
  · intro hs
    refine ⟨cfg.block s.block, Cfg.block_mem ?_, hs⟩
    by_contra hge
    have huse := (mem_blockSites.mp hs).2
    unfold Cfg.block at huse
    rw [List.getElem?_eq_none (Nat.le_of_not_lt hge)] at huse
    exact absurd huse (by simp)

theorem collectUseSites_mem {cfg : Cfg} {s : Site} (hs : s ∈ allSites cfg) :
    ∃ uses, (s.use.binding, uses) ∈ collectUseSites cfg ∧
      ∀ t, t ∈ uses ↔ t ∈ allSites cfg ∧ t.use.binding = s.use.binding := by
  refine ⟨(allSites cfg).filter fun t => t.use.binding == s.use.binding, ?_, fun t => ?_⟩
  · exact List.mem_map.mpr ⟨s.use.binding, List.mem_dedup.mpr (List.mem_map_of_mem hs), rfl⟩
  · rw [List.mem_filter, beq_iff_eq]

theorem mem_zipIdx_of_mem {uses : List Site} {s : Site} (hs : s ∈ uses) : ∃ i, (s, i) ∈ uses.zipIdx := by
  obtain ⟨i, hi⟩ := List.mem_iff_getElem?.mp hs
  exact ⟨i, List.mk_mem_zipIdx_iff_getElem?.mpr hi⟩

/-- Two sites of one bucket have one position only when they are one. -/
theorem ne_of_mem_zipIdx {uses : List Site} {c u : Site} {i j : ℕ} (hc : (c, i) ∈ uses.zipIdx)
    (hu : (u, j) ∈ uses.zipIdx) (hne : c ≠ u) : i ≠ j := by
  rintro rfl
  have h1 := List.mk_mem_zipIdx_iff_getElem?.mp hc
  have h2 := List.mk_mem_zipIdx_iff_getElem?.mp hu
  exact hne (Option.some.inj (h1.symm.trans h2))

/-! The witnesses of a bucket. -/

theorem firstWitness_of_pair {cfg : Cfg} {dominates : BlockId → BlockId → Bool} {uses : List Site} {x : String}
    {c u : Site} (hc : c ∈ uses) (hu : u ∈ uses) (hne : c ≠ u) (hkind : c.use.kind = .consume)
    (hskip : rcSkips dominates uses cfg c u = false) :
    ∃ w, firstWitness dominates uses cfg x = some w ∧ w.binding = x := by
  obtain ⟨i, hi⟩ := mem_zipIdx_of_mem hc
  obtain ⟨j, hj⟩ := mem_zipIdx_of_mem hu
  have hij := ne_of_mem_zipIdx hi hj hne
  have hsome : (firstWitness dominates uses cfg x).isSome = true := by
    unfold firstWitness
    rw [List.findSome?_isSome_iff]
    refine ⟨(c, i), hi, ?_⟩
    rw [if_neg (by simp [hkind]), Option.isSome_map, List.find?_isSome]
    exact ⟨(u, j), hj, by simp [hij, hskip]⟩
  obtain ⟨w, hw⟩ := Option.isSome_iff_exists.mp hsome
  refine ⟨w, hw, ?_⟩
  obtain ⟨ci, -, hci⟩ := List.exists_of_findSome?_eq_some hw
  split at hci
  · exact absurd hci (by simp)
  · obtain ⟨uj, -, rfl⟩ := Option.map_eq_some_iff.mp hci
    rfl

theorem uamWitness_of_pair {dominates : BlockId → BlockId → Bool} {uses : List Site} {x : String} {c u : Site}
    (hu : u ∈ uses) (hne : c ≠ u) {i : ℕ} (hi : (c, i) ∈ uses.zipIdx) (hpartner : notPartner c u = false)
    (hprec : precedes dominates c u = true) (hkill : reassignKills dominates uses c u = false) :
    (uamWitness dominates uses x (c, i)).isSome = true := by
  obtain ⟨j, hj⟩ := mem_zipIdx_of_mem hu
  have hij := ne_of_mem_zipIdx hi hj hne
  unfold uamWitness
  rw [Option.isSome_map, List.find?_isSome]
  exact ⟨(u, j), hj, by simp [hij, hpartner, hprec, hkill]⟩

/-- The walk over the consumes keeps the witnesses it has and takes up those of the consumes ahead. -/
theorem uamWitnessesFrom_spec (dominates : BlockId → BlockId → Bool) (uses : List Site) (x : String)
    (firstOnly : Bool) (l : List (Site × ℕ)) (out : List UamWitness) (hout : ∀ w ∈ out, w.binding = x) :
    (∀ w ∈ uamWitnessesFrom dominates uses x firstOnly l out, w.binding = x) ∧
      (out ≠ [] ∨ (∃ ci ∈ l, ci.1.use.kind = .consume ∧ (uamWitness dominates uses x ci).isSome = true) →
        uamWitnessesFrom dominates uses x firstOnly l out ≠ []) := by
  induction l generalizing out with
  | nil =>
    refine ⟨hout, ?_⟩
    rintro (h | ⟨ci, hci, -⟩)
    · exact h
    · exact absurd hci List.not_mem_nil
  | cons ci rest ih =>
    rw [uamWitnessesFrom]
    by_cases hkind : ci.1.use.kind = .consume
    · rw [if_neg (by simp [hkind])]
      simp only
      have hout' : ∀ w ∈ out ++ (uamWitness dominates uses x ci).toList, w.binding = x := by
        intro w hw
        rcases List.mem_append.mp hw with hw | hw
        · exact hout w hw
        · obtain ⟨uj, -, rfl⟩ := Option.map_eq_some_iff.mp (Option.mem_toList.mp hw)
          rfl
      have hne : out ≠ [] ∨ (uamWitness dominates uses x ci).isSome = true →
          out ++ (uamWitness dominates uses x ci).toList ≠ [] := by
        rintro (h | h)
        · exact List.append_ne_nil_of_left_ne_nil h _
        · obtain ⟨w, hw⟩ := Option.isSome_iff_exists.mp h
          rw [hw]
          exact List.append_ne_nil_of_right_ne_nil _ (List.cons_ne_nil _ _)
      obtain ⟨hbind, hsome⟩ := ih _ hout'
      split
      · rename_i hstop
        refine ⟨hout', fun _ => ?_⟩
        simpa using (Bool.and_eq_true_iff.mp hstop).2
      · refine ⟨hbind, ?_⟩
        rintro (h | ⟨ci', hci', hk, hw⟩)
        · exact hsome (Or.inl (hne (Or.inl h)))
        · rcases List.mem_cons.mp hci' with rfl | hci'
          · exact hsome (Or.inl (hne (Or.inr hw)))
          · exact hsome (Or.inr ⟨ci', hci', hk, hw⟩)
    · rw [if_pos hkind]
      obtain ⟨hbind, hsome⟩ := ih out hout
      refine ⟨hbind, ?_⟩
      rintro (h | ⟨ci', hci', hk, hw⟩)
      · exact hsome (Or.inl h)
      · rcases List.mem_cons.mp hci' with rfl | hci'
        · exact absurd hk hkind
        · exact hsome (Or.inr ⟨ci', hci', hk, hw⟩)

theorem firstUamWitness_of_pair {dominates : BlockId → BlockId → Bool} {uses : List Site} {x : String} {c u : Site}
    (hc : c ∈ uses) (hu : u ∈ uses) (hne : c ≠ u) (hkind : c.use.kind = .consume)
    (hpartner : notPartner c u = false) (hprec : precedes dominates c u = true)
    (hkill : reassignKills dominates uses c u = false) :
    ∃ w, firstUamWitness dominates uses x = some w ∧ w.binding = x := by
  obtain ⟨i, hi⟩ := mem_zipIdx_of_mem hc
  obtain ⟨hbind, hsome⟩ := uamWitnessesFrom_spec dominates uses x true uses.zipIdx [] (by simp)
  have hw := uamWitness_of_pair (x := x) hu hne hi hpartner hprec hkill
  obtain ⟨w, ws, hws⟩ := List.exists_cons_of_ne_nil (hsome (Or.inr ⟨(c, i), hi, hkind, hw⟩))
  have hfirst : firstUamWitness dominates uses x = some w := by
    unfold firstUamWitness uamWitnessesForBinding
    rw [hws]
    rfl
  exact ⟨w, hfirst, hbind w (hws ▸ List.mem_cons_self)⟩

/-! Uses after the consume in the dominator order. -/

theorem Reused.notPartner_eq {cfg : Cfg} {c u : Site} (h : Reused cfg c u) : notPartner c u = false := by
  obtain ⟨-, -, -, -, -, -, -, -, -, hkind, hdisj, -⟩ := h
  unfold notPartner
  rw [hdisj, Bool.or_false]
  rcases hkind with hk | hk | ⟨-, hk⟩
  · simp [hk]
  · simp [hk]
  · simp [hk]

section Covered

variable {cfg : Cfg} {dominates : BlockId → BlockId → Bool} (hdom : CorrectTest cfg dominates) {c u : Site}
  (h : Reused cfg c u)
include hdom

/-- Precedence is a chain of dominance. -/
theorem dominates_of_precedes {a b : Site} (hb : Reached cfg.Edge cfg.entry b.block)
    (hprec : precedes dominates a b = true) : Dominates cfg.Edge cfg.entry a.block b.block := by
  unfold precedes at hprec
  split at hprec
  · rename_i heq
    rw [heq]
    exact Dominates.refl _
  · exact (hdom _ _ hb).mp hprec

/-- What comes between in the dominator order stands between on every path. -/
theorem not_runsThrough_of_precedes {r : Site} (hr : r ∈ blockSites (cfg.block r.block))
    (hreachC : Reached cfg.Edge cfg.entry c.block) (hreachU : Reached cfg.Edge cfg.entry u.block)
    (hcr : precedes dominates c r = true) (hru : precedes dominates r u = true) :
    ¬ RunsThrough (fun s => s ≠ r) cfg c u := by
  intro hruns
  have hdru := dominates_of_precedes hdom hreachU hru
  have hreachR : Reached cfg.Edge cfg.entry r.block := by
    obtain ⟨l, hl⟩ := hreachU
    obtain ⟨l', hl', -⟩ := hl.upTo (hdru l hl)
    exact ⟨l', hl'⟩
  have hdcr := dominates_of_precedes hdom hreachR hcr
  by_cases hrc : r.block = c.block
  · have hlt : c.idx < r.idx := by
      unfold precedes at hcr
      rw [if_pos hrc.symm] at hcr
      exact of_decide_eq_true hcr
    rcases hruns with ⟨hcu, hcu', hkeep⟩ | ⟨hafter, -, -⟩
    · have hlt' : r.idx < u.idx := by
        unfold precedes at hru
        rw [if_pos (hrc.trans hcu)] at hru
        exact of_decide_eq_true hru
      exact hkeep r (hrc ▸ hr) hlt hlt' rfl
    · exact hafter r (hrc ▸ hr) hlt rfl
  · have hne : c.block ≠ u.block := by
      intro heq
      rw [← heq] at hdru
      exact hrc (Dominates.antisymm hreachC hdru hdcr)
    rcases hruns with ⟨heq, -, -⟩ | ⟨-, hbefore, s, hedge, hs, hpath⟩
    · exact hne heq
    · by_cases hru' : r.block = u.block
      · have hlt : r.idx < u.idx := by
          unfold precedes at hru
          rw [if_pos hru'] at hru
          exact of_decide_eq_true hru
        exact hbefore r (hru' ▸ hr) hlt rfl
      · have havoids : ∀ y, ((∀ s ∈ blockSites (cfg.block y), s ≠ r) ∨ y = u.block) → y ≠ r.block := by
          intro y hy heq
          rw [heq] at hy
          rcases hy with hy | hy
          · exact hy r hr rfl
          · exact hru' hy
        obtain ⟨l, hl, hnot⟩ : ∃ l, PathTo cfg.Edge cfg.entry l c.block ∧ r.block ∉ l := by
          by_contra hall
          push Not at hall
          exact hrc (Dominates.antisymm hreachC hall hdcr)
        have hext : Relation.ReflTransGen (fun x y => cfg.Edge x y ∧ y ≠ r.block) c.block u.block := by
          refine Relation.ReflTransGen.head ⟨hedge, havoids s hs⟩ (hpath.lift id fun x y e => ?_)
          exact ⟨e.1, havoids y e.2⟩
        obtain ⟨l', hl', hnot'⟩ := hl.extend hnot hext
        exact hnot' (hdru l' hl')

include h

/-- A reassignment that comes between in the dominator order would stand between on the path. -/
theorem Reused.not_reassignKills {uses : List Site}
    (huses : ∀ t ∈ uses, t ∈ allSites cfg ∧ t.use.binding = c.use.binding) :
    reassignKills dominates uses c u = false := by
  obtain ⟨hc, hu, hreachC, hreachU, hfollows⟩ := h.follows
  by_contra hkill
  obtain ⟨r, hr, hkill⟩ := List.any_eq_true.mp (by simpa using hkill : reassignKills dominates uses c u = true)
  simp only [Bool.and_eq_true] at hkill
  obtain ⟨⟨⟨hkind, hcov⟩, hcr⟩, hru⟩ := hkill
  obtain ⟨hmem, hbind⟩ := huses r hr
  refine not_runsThrough_of_precedes hdom (mem_allSites.mp hmem) hreachC hreachU hcr hru
    (RunsThrough.mono (P := Keeps c) ?_ hfollows)
  rintro s hkeeps rfl
  have hfalse := hkeeps hbind
  unfold isRebind at hfalse
  rw [hkind, hcov] at hfalse
  exact absurd hfalse (by simp)

/-- A use after the consume in the dominator order is reported. -/
theorem Reused.reported_of_precedes (hprec : precedes dominates c u = true) :
    ∃ w ∈ directUamCandidates dominates cfg, w.binding = c.use.binding := by
  obtain ⟨hc, hu, -, -, -⟩ := h.follows
  obtain ⟨uses, hbucket, hmem⟩ := collectUseSites_mem (mem_allSites.mpr hc)
  have hne : c ≠ u := by
    rintro rfl
    unfold precedes at hprec
    simp at hprec
  have hpartner := h.notPartner_eq
  have hkill := h.not_reassignKills hdom fun t ht => (hmem t).mp ht
  obtain ⟨-, -, -, -, -, -, -, hkind, hbind, -⟩ := h
  obtain ⟨w, hw, hwx⟩ := firstUamWitness_of_pair (x := c.use.binding) ((hmem c).mpr ⟨mem_allSites.mpr hc, rfl⟩)
    ((hmem u).mpr ⟨mem_allSites.mpr hu, hbind⟩) hne hkind hpartner hprec hkill
  exact ⟨w, List.mem_filterMap.mpr ⟨_, hbucket, hw⟩, hwx⟩

end Covered

/-! Uses in blocks the dominator order does not relate. -/

/-- The search finds what a path reaches past the blocked blocks. -/
theorem reach_of_path {cfg : Cfg} {blocked : Finset BlockId} {start target s : BlockId} (hs : cfg.Edge start s)
    (hstart : s ∉ blocked) (hpath : Relation.ReflTransGen (fun x y => cfg.Edge x y ∧ y ∉ blocked) s target) :
    reach cfg blocked start target = true := by
  have hnext : ∀ n ∈ Finset.range cfg.numBlocks, ∀ t ∈ successorsOf cfg n, t ∈ Finset.range cfg.numBlocks :=
    fun n _ t ht => Finset.mem_range.mpr (Cfg.edge_lt ht)
  have hstack : ∀ n ∈ (successorsOf cfg start).reverse, n ∈ Finset.range cfg.numBlocks :=
    fun n hn => Finset.mem_range.mpr (Cfg.edge_lt (List.mem_reverse.mp hn))
  obtain ⟨r, hr⟩ := Lib.Worklist.search_total hnext (fun n => decide (n ∈ blocked)) target _ hstack
    (Nat.lt_succ_self _)
  have htrue : r = true := by
    refine Lib.Worklist.search_finds hr (List.mem_reverse.mpr hs) (decide_eq_false hstart) ?_
    exact hpath.lift id fun x y e => ⟨e.1, decide_eq_false e.2⟩
  unfold reach
  simp only
  rw [hr, Option.getD_some, htrue]

section Covered

variable {cfg : Cfg} {c u : Site} (h : Reused cfg c u) (hne : c.block ≠ u.block)
include h hne

theorem Reused.cfgReaches_eq : cfgReaches cfg c.block u.block = true := by
  obtain ⟨-, -, -, -, hfollows⟩ := h.follows
  rcases hfollows with ⟨heq, -, -⟩ | ⟨-, -, s, hedge, -, hpath⟩
  · exact absurd heq hne
  · exact reach_of_path hedge (Finset.notMem_empty s) (hpath.lift id fun x y e => ⟨e.1, Finset.notMem_empty y⟩)

/-- The path is not cut by removing the blocks that rebind. -/
theorem Reused.not_reassignKillsByReachability {uses : List Site}
    (huses : ∀ t ∈ uses, t ∈ allSites cfg ∧ t.use.binding = c.use.binding) :
    reassignKillsByReachability uses cfg c u = false := by
  obtain ⟨-, -, -, -, hfollows⟩ := h.follows
  rcases hfollows with ⟨heq, -, -⟩ | ⟨hafter, hbefore, s, hedge, hs, hpath⟩
  · exact absurd heq hne
  · have hrebind : ∀ r ∈ uses.filter fun r => isRebind c.use.place r.use,
        r ∈ blockSites (cfg.block r.block) ∧ ¬ Keeps c r := by
      intro r hr
      obtain ⟨hmem, hcov⟩ := List.mem_filter.mp hr
      obtain ⟨hsite, hbind⟩ := huses r hmem
      refine ⟨mem_allSites.mp hsite, fun hkeeps => ?_⟩
      rw [hkeeps hbind] at hcov
      exact absurd hcov (by simp)
    unfold reassignKillsByReachability
    simp only
    rw [if_neg, if_neg]
    · split
      · rfl
      · rw [Bool.and_eq_false_iff]
        refine Or.inr ?_
        rw [Bool.not_eq_false']
        have hpass : ∀ y, Clean cfg c y ∨ y = u.block → y ∉
            (((uses.filter fun r => isRebind c.use.place r.use).filter fun r =>
              decide (r.block ≠ c.block ∧ r.block ≠ u.block)).map Site.block).toFinset := by
          intro y hy hmem
          obtain ⟨r, hr, rfl⟩ := List.mem_map.mp (List.mem_toFinset.mp hmem)
          obtain ⟨hr, hother⟩ := List.mem_filter.mp hr
          obtain ⟨hsite, hnot⟩ := hrebind r hr
          rcases hy with hy | hy
          · exact hnot (hy r hsite)
          · exact (of_decide_eq_true hother).2 hy
        exact reach_of_path hedge (hpass s hs) (hpath.lift id fun x y e => ⟨e.1, hpass y e.2⟩)
    · rw [List.any_eq_true]
      rintro ⟨r, hr, hcond⟩
      obtain ⟨heq, hlt⟩ := of_decide_eq_true hcond
      obtain ⟨hsite, hnot⟩ := hrebind r hr
      exact hnot (hbefore r (heq ▸ hsite) hlt)
    · rw [List.any_eq_true]
      rintro ⟨r, hr, hcond⟩
      obtain ⟨heq, hlt⟩ := of_decide_eq_true hcond
      obtain ⟨hsite, hnot⟩ := hrebind r hr
      exact hnot (hafter r (heq ▸ hsite) hlt)

/-- A use in a block that the dominator order does not relate is reported, unless the consume leaves the
function. -/
theorem Reused.reported_of_incomparable {dominates : BlockId → BlockId → Bool} (hdom : CorrectTest cfg dominates)
    (hcu : dominates c.block u.block = false) (huc : dominates u.block c.block = false)
    (hterm : cTerminates cfg c = false) : ∃ w ∈ rcCandidates dominates cfg, w.binding = c.use.binding := by
  obtain ⟨hc, hu, -, -, -⟩ := h.follows
  obtain ⟨uses, hbucket, hmem⟩ := collectUseSites_mem (mem_allSites.mpr hc)
  have hmem' := fun t ht => (hmem t).mp ht
  have hskip : rcSkips dominates uses cfg c u = false := by
    unfold rcSkips
    rw [h.notPartner_eq, hcu, huc, h.not_reassignKills hdom hmem', h.not_reassignKillsByReachability hne hmem', hterm,
      h.cfgReaches_eq hne]
    simp
  obtain ⟨-, -, -, -, -, -, -, hkind, hbind, -⟩ := h
  have hsites : c ≠ u := fun heq => hne (heq ▸ rfl)
  obtain ⟨w, hw, hwx⟩ := firstWitness_of_pair (x := c.use.binding) ((hmem c).mpr ⟨mem_allSites.mpr hc, rfl⟩)
    ((hmem u).mpr ⟨mem_allSites.mpr hu, hbind⟩) hsites hkind hskip
  exact ⟨w, List.mem_filterMap.mpr ⟨_, hbucket, hw⟩, hwx⟩

end Covered

/-! Natural loops. -/

/-- The block is the header or reaches the source of the back edge without passing the header. -/
def InLoop (cfg : Cfg) (b v n : BlockId) : Prop :=
  n = v ∨ Relation.ReflTransGen (fun p q => cfg.Edge p q ∧ q ≠ v) n b

theorem mem_loopBody {cfg : Cfg} {b v : BlockId} (hb : b < cfg.numBlocks) (n : BlockId) :
    n ∈ loopBody cfg b v ↔ InLoop cfg b v n := by
  have hnext : ∀ n ∈ Finset.range cfg.numBlocks, ∀ t ∈ cfg.predecessors n, t ∈ Finset.range cfg.numBlocks :=
    fun n _ t ht => Finset.mem_range.mpr (Cfg.edge_src (Cfg.mem_predecessors.mp ht))
  have hstack : ∀ n ∈ [b], n ∈ Finset.range cfg.numBlocks := fun n hn =>
    Finset.mem_range.mpr ((List.mem_singleton.mp hn).symm ▸ hb)
  obtain ⟨r, hr⟩ := @Lib.Worklist.collect_total _ _ _ _ hnext (fun n => decide (n = v)) _ {v, b} [b] hstack
    (Nat.lt_succ_self _)
  have hbody : loopBody cfg b v = r := by
    unfold loopBody
    simp only
    rw [hr, Option.getD_some]
  have hsub : ∀ n ∈ [b], n ∈ ({v, b} : Finset BlockId) := by simp
  have hclosed : ∀ n ∈ ({v, b} : Finset BlockId), n ∉ [b] → decide (n = v) = true ∨
      ∀ s ∈ cfg.predecessors n, s ∈ ({v, b} : Finset BlockId) := by
    intro n hn hnot
    rcases Finset.mem_insert.mp hn with rfl | hn
    · exact Or.inl (decide_eq_true rfl)
    · exact absurd (List.mem_singleton.mpr (Finset.mem_singleton.mp hn)) hnot
  obtain ⟨hinit, hclose, hreach⟩ := Lib.Worklist.collect_spec (fun n => decide (n = v)) _ hsub hclosed hr
  rw [hbody]
  constructor
  · intro hn
    obtain ⟨m, hm, hpath⟩ := hreach n hn
    have hback : Relation.ReflTransGen (fun p q => cfg.Edge p q ∧ q ≠ v) n m := by
      rw [← Relation.reflTransGen_swap]
      refine hpath.lift id fun x y e => ⟨Cfg.mem_predecessors.mp e.1, ?_⟩
      exact of_decide_eq_false e.2
    rcases Finset.mem_insert.mp hm with rfl | hm
    · rcases Relation.ReflTransGen.cases_tail hback with heq | ⟨p, -, -, hne⟩
      · exact Or.inl heq.symm
      · exact absurd rfl hne
    · rw [Finset.mem_singleton.mp hm] at hback
      exact Or.inr hback
  · rintro (rfl | hpath)
    · exact hinit (Finset.mem_insert_self _ _)
    · induction hpath using Relation.ReflTransGen.head_induction_on with
      | refl => exact hinit (Finset.mem_insert_of_mem (Finset.mem_singleton_self _))
      | @head p q e _ ih =>
        rcases hclose q ih with hstop | hpred
        · exact absurd (of_decide_eq_true hstop) e.2
        · exact hpred p (Cfg.mem_predecessors.mpr e.1)

/-- Some natural loop of a reached back edge holds the consume and no covering rebind of its binding. -/
def InCleanLoop (cfg : Cfg) (c : Site) : Prop :=
  ∃ b v, Reached cfg.Edge cfg.entry b ∧ cfg.Edge b v ∧ Dominates cfg.Edge cfg.entry v b ∧ InLoop cfg b v c.block ∧
    ∀ r ∈ allSites cfg, InLoop cfg b v r.block → Keeps c r

theorem reported_of_inCleanLoop {cfg : Cfg} {dominates : BlockId → BlockId → Bool} (hdom : CorrectTest cfg dominates)
    {c : Site} (hc : c ∈ allSites cfg) (hkind : c.use.kind = .consume) (hloop : InCleanLoop cfg c) :
    ∃ w ∈ loopOfConsumeCandidates dominates cfg, w.binding = c.use.binding := by
  obtain ⟨b, v, hb, hedge, hvb, hin, hkeeps⟩ := hloop
  obtain ⟨uses, hbucket, hmem⟩ := collectUseSites_mem hc
  have hblt : b < cfg.numBlocks := Cfg.reached_lt hb
  have hloops : loopBody cfg b v ∈ naturalLoops dominates cfg := by
    refine List.mem_flatMap.mpr ⟨b, List.mem_range.mpr hblt, List.mem_filterMap.mpr ⟨v, hedge, ?_⟩⟩
    rw [if_pos ((hdom v b hb).mpr hvb)]
  have hfires : loopFires uses (naturalLoops dominates cfg) c = true := by
    refine List.any_eq_true.mpr ⟨_, hloops, ?_⟩
    rw [Bool.and_eq_true, Bool.not_eq_true', decide_eq_true ((mem_loopBody hblt _).mpr hin)]
    refine ⟨rfl, ?_⟩
    rw [Bool.eq_false_iff, Ne, List.any_eq_true]
    rintro ⟨r, hr, hcond⟩
    obtain ⟨hcov, hinr⟩ := Bool.and_eq_true_iff.mp hcond
    obtain ⟨hsite, hbind⟩ := (hmem r).mp hr
    have hfalse := hkeeps r hsite ((mem_loopBody hblt _).mp (of_decide_eq_true hinr)) hbind
    rw [hfalse] at hcov
    exact absurd hcov (by simp)
  have hfind : (uses.find? fun c => c.use.kind == .consume && loopFires uses (naturalLoops dominates cfg) c).isSome = true := by
    rw [List.find?_isSome]
    exact ⟨c, (hmem c).mpr ⟨hc, rfl⟩, by rw [hkind, hfires]; rfl⟩
  obtain ⟨c', hc'⟩ := Option.isSome_iff_exists.mp hfind
  unfold loopOfConsumeCandidates
  simp only
  rw [if_neg (List.ne_nil_of_mem hloops)]
  refine ⟨⟨c.use.binding, c'.use.span, c'.use.span, c'.block, c'.block, c'.use.consumeOrigin⟩, ?_, rfl⟩
  refine List.mem_filterMap.mpr ⟨_, hbucket, ?_⟩
  simp only
  rw [hc']
  rfl

/-! What is covered. A use that runs again at or above the consume is seen only through a loop without a
covering rebind, and nothing after a consume that leaves the function is seen. -/

/-- The use comes after the consume in its block, or in a block that does not dominate the consume's; or a
clean loop holds the consume. -/
def Seen (cfg : Cfg) (c u : Site) : Prop :=
  InCleanLoop cfg c ∨ (c.block = u.block ∧ c.idx < u.idx) ∨
    (c.block ≠ u.block ∧ ¬ Dominates cfg.Edge cfg.entry u.block c.block ∧
      (Dominates cfg.Edge cfg.entry c.block u.block ∨ cTerminates cfg c = false))

theorem Reused.reported_of_seen {cfg : Cfg} {dominates : BlockId → BlockId → Bool} (hdom : CorrectTest cfg dominates)
    {c u : Site} (h : Reused cfg c u) (hseen : Seen cfg c u) : Reported cfg dominates c.use.binding := by
  obtain ⟨hc, -, hreachC, hreachU, -⟩ := h.follows
  rcases hseen with hloop | ⟨hblock, hlt⟩ | ⟨hne, hnot, hcond⟩
  · obtain ⟨-, -, -, -, -, -, -, hkind, -⟩ := h
    exact Or.inr (Or.inr (reported_of_inCleanLoop hdom (mem_allSites.mpr hc) hkind hloop))
  · refine Or.inr (Or.inl (h.reported_of_precedes hdom ?_))
    unfold precedes
    rw [if_pos hblock]
    exact decide_eq_true hlt
  · by_cases hcu : Dominates cfg.Edge cfg.entry c.block u.block
    · refine Or.inr (Or.inl (h.reported_of_precedes hdom ?_))
      unfold precedes
      rw [if_neg hne]
      exact (hdom _ _ hreachU).mpr hcu
    · have hterm := hcond.resolve_left hcu
      have hcu' : dominates c.block u.block = false := by
        rw [Bool.eq_false_iff, Ne, hdom _ _ hreachU]
        exact hcu
      have huc' : dominates u.block c.block = false := by
        rw [Bool.eq_false_iff, Ne, hdom _ _ hreachC]
        exact hnot
      exact Or.inl (h.reported_of_incomparable hne hdom hcu' huc' hterm)

/-- A graph meets the rule when each binding reused after a consume is so by a pair that is seen. -/
theorem reuse_reported_when_seen {cfg : Cfg} {dominates : BlockId → BlockId → Bool}
    (hdom : CorrectTest cfg dominates)
    (hseen : ∀ c u, Reused cfg c u →
      ∃ c' u', Reused cfg c' u' ∧ c'.use.binding = c.use.binding ∧ Seen cfg c' u') :
    ∀ c u, Reused cfg c u → Reported cfg dominates c.use.binding := by
  intro c u h
  obtain ⟨c', u', h', hbind, hs⟩ := hseen c u h
  rw [← hbind]
  exact h'.reported_of_seen hdom hs

/-! A loop that consumes and rebinds on one branch only. -/

theorem dominatesFrom_isSome {tree : DominatorTree} (hdown : ∀ b d : ℕ, tree.idom b = some d → d < b) (a : BlockId)
    (fuel : ℕ) {cur : ℕ} (hlt : cur < fuel) : (tree.dominatesFrom a fuel cur).isSome = true := by
  induction fuel generalizing cur with
  | zero => omega
  | succ fuel ih =>
    rw [DominatorTree.dominatesFrom]
    split
    · rfl
    · rename_i d hd
      have := hdown cur d hd
      split
      · rfl
      · split
        · rfl
        · exact ih (by omega)

def useOfX (kind : UseKind) (pos : ℕ) : UseSite := ⟨"x", kind, ⟨1, pos, pos, 1⟩, .direct, []⟩

def branchRebind : Cfg where
  blocks := [⟨0, [useOfX .define 0], [1]⟩, ⟨1, [], [2, 5]⟩, ⟨2, [useOfX .consume 1], [3, 4]⟩,
    ⟨3, [useOfX .reassign 2], [4]⟩, ⟨4, [], [1]⟩, ⟨5, [], []⟩]
  entry := 0
  exit := 5
  closureBodyBlocks := ∅
  ids i b h := by
    match i, h with
    | 0, h | 1, h | 2, h | 3, h | 4, h | 5, h => exact (Option.some.inj h) ▸ rfl
  closed := by decide
  entry_lt := by decide

def branchTree : DominatorTree :=
  ⟨[none, some 0, some 1, some 2, some 2, some 1], [0, 1, 5, 2, 3, 4], [0, 1, 3, 4, 5, 2]⟩

/-- A graph with a computed tree whose parents fall has a correct test. -/
theorem correctTest_of_down {cfg : Cfg} {fuel : ℕ} {tree : DominatorTree} (h : computeDominators cfg fuel = some tree)
    (hdown : ∀ b d : ℕ, tree.idom b = some d → d < b) (hfuel : cfg.numBlocks ≤ fuel) :
    CorrectTest cfg (tree.test fuel) := by
  refine correctTest_of_computed h fun a b hb => ?_
  have hlt : b < cfg.numBlocks := Cfg.reached_lt hb
  unfold DominatorTree.dominates
  split
  · rfl
  · exact dominatesFrom_isSome hdown a fuel (hlt.trans_le hfuel)

theorem idom_down {tree : DominatorTree} (h : ∀ b < tree.idoms.length, ∀ d ∈ tree.idom b, d < b) (b d : ℕ)
    (hd : tree.idom b = some d) : d < b := by
  by_cases hb : b < tree.idoms.length
  · exact h b hb d hd
  · unfold DominatorTree.idom at hd
    rw [List.getElem?_eq_none (Nat.le_of_not_lt hb)] at hd
    exact absurd hd (by simp)

/-- The path goes round the loop by the branch without the rebind, and no predicate has a witness. -/
theorem rebind_on_one_branch_hides_reuse :
    computeDominators branchRebind 40 = some branchTree ∧
      CorrectTest branchRebind (branchTree.test 40) ∧
      branchRebind.closureBodyBlocks = ∅ ∧
      (∀ s ∈ allSites branchRebind, s.use.consumeOrigin = .direct) ∧
      Reused branchRebind ⟨2, 0, useOfX .consume 1⟩ ⟨2, 0, useOfX .consume 1⟩ ∧
      ¬ Reported branchRebind (branchTree.test 40) "x" := by
  have htree : computeDominators branchRebind 40 = some branchTree := by decide +kernel
  have hrc : rcCandidates (branchTree.test 40) branchRebind = [] := by decide +kernel
  have huam : directUamCandidates (branchTree.test 40) branchRebind = [] := by decide +kernel
  have hloop : loopOfConsumeCandidates (branchTree.test 40) branchRebind = [] := by decide +kernel
  refine ⟨htree, correctTest_of_down htree (idom_down (by decide)) (by decide), rfl, by decide, ?_, ?_⟩
  · have hstart : PathTo branchRebind.Edge branchRebind.entry [0] 0 := PathTo.start
    have h1 := hstart.step (v := 1) (by decide : (1 : ℕ) ∈ (branchRebind.block 0).successors)
    have h2 := h1.step (v := 2) (by decide : (2 : ℕ) ∈ (branchRebind.block 1).successors)
    have h4 := h2.step (v := 4) (by decide : (4 : ℕ) ∈ (branchRebind.block 2).successors)
    have h1' := h4.step (v := 1) (by decide : (1 : ℕ) ∈ (branchRebind.block 4).successors)
    have h2' := h1'.step (v := 2) (by decide : (2 : ℕ) ∈ (branchRebind.block 1).successors)
    refine ⟨_, _, [⟨0, 0, useOfX .define 0⟩], [], [], h2', by decide, rfl, rfl, Or.inr (Or.inl rfl), rfl, ?_⟩
    exact fun r hr => absurd hr List.not_mem_nil
  · unfold Reported
    rw [hrc, huam, hloop]
    simp

/-- A block that consumes and then reads. -/
def consumeThenRead : Cfg where
  blocks := [⟨0, [useOfX .consume 0, useOfX .read 1], [1]⟩, ⟨1, [], []⟩]
  entry := 0
  exit := 1
  closureBodyBlocks := ∅
  ids i b h := by
    match i, h with
    | 0, h | 1, h => exact (Option.some.inj h) ▸ rfl
  closed := by decide
  entry_lt := by decide

theorem reuse_reported_consume_then_read :
    Reported consumeThenRead ((⟨[none, some 0], [0, 1], [0, 1]⟩ : DominatorTree).test 10) "x" := by
  have htree : computeDominators consumeThenRead 10 = some ⟨[none, some 0], [0, 1], [0, 1]⟩ := by decide +kernel
  have hreused : Reused consumeThenRead ⟨0, 0, useOfX .consume 0⟩ ⟨0, 1, useOfX .read 1⟩ := by
    refine ⟨[0], 0, [], [], [], PathTo.start, by decide, rfl, rfl, Or.inl rfl, rfl, ?_⟩
    exact fun r hr => absurd hr List.not_mem_nil
  refine reuse_reported_when_seen (correctTest_of_down htree (idom_down (by decide)) (by decide)) (fun c u h => ?_)
    _ _ hreused
  have hbind : ∀ s ∈ allSites consumeThenRead, "x" = s.use.binding := by decide
  exact ⟨_, _, hreused, hbind c (mem_allSites.mpr h.follows.1), Or.inr (Or.inl ⟨rfl, by decide⟩)⟩

end Karac.Flow
