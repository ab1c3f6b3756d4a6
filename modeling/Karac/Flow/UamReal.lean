import Karac.Flow.RcCoverage

/-! Whether a reported use after a consume can happen: the kill test looks for one reassignment between the two in the
dominance order, where several rebinds may close all paths together. -/

namespace Karac.Flow

open Lib.Dominance

/-- A path executes the consume and later the use, with no covering rebind between. -/
def Live (cfg : Cfg) (c u : Site) : Prop :=
  ∃ l pre mid post, PathTo cfg.Edge c.block l u.block ∧ executed cfg l = pre ++ c :: (mid ++ u :: post) ∧
    ∀ r ∈ mid, Keeps c r

/-- Every path from the consume to the use executes one of the sites between. -/
def CutOff (cfg : Cfg) (S : Site → Prop) (c u : Site) : Prop :=
  ∀ l pre mid post, PathTo cfg.Edge c.block l u.block → executed cfg l = pre ++ c :: (mid ++ u :: post) → ∃ r ∈ mid, S r

/-- The covering rebinds cut the use off, all together. -/
def RebindsCut (cfg : Cfg) (c u : Site) : Prop := CutOff cfg (fun r => ¬ Keeps c r) c u

/-- One covering reassignment cuts the use off alone. -/
def OneReassignCuts (cfg : Cfg) (c u : Site) : Prop :=
  ∃ r ∈ allSites cfg, r.use.binding = c.use.binding ∧ r.use.kind = .reassign ∧
    placeRebindCovers r.use.place c.use.place = true ∧ CutOff cfg (fun s => s = r) c u

theorem live_iff {cfg : Cfg} {c u : Site} : Live cfg c u ↔ ¬ RebindsCut cfg c u := by
  unfold Live RebindsCut CutOff
  push Not
  rfl

/-! Executing a piece of a path. -/

theorem block_of_mem {cfg : Cfg} {b : BlockId} {r : Site} (h : r ∈ blockSites (cfg.block b)) : r.block = b :=
  (mem_blockSites.mp h).1.trans (Cfg.block_id b)

/-- A block split at a site: what stands after it and what stands before it. -/
theorem split_at {cfg : Cfg} {c : Site} (hc : c ∈ blockSites (cfg.block c.block)) :
    ∃ p q, blockSites (cfg.block c.block) = p ++ c :: q ∧ (∀ r ∈ p, r.block = c.block ∧ r.idx < c.idx) ∧
      ∀ r ∈ q, r.block = c.block ∧ c.idx < r.idx := by
  obtain ⟨p, q, hb⟩ := List.append_of_mem hc
  have hsorted := blockSites_sorted (cfg.block c.block)
  rw [hb] at hsorted
  obtain ⟨-, hq, hcross⟩ := List.pairwise_append.mp hsorted
  refine ⟨p, q, hb, fun r hr => ⟨?_, hcross r hr c List.mem_cons_self⟩, fun r hr => ⟨?_, (List.pairwise_cons.mp hq).1 r hr⟩⟩
  · exact block_of_mem (hb ▸ List.mem_append_left _ hr)
  · exact block_of_mem (hb ▸ List.mem_append_right _ (List.mem_cons_of_mem c hr))

/-- Within a block. -/
theorem exists_run_within {cfg : Cfg} {c u : Site} (hc : c ∈ blockSites (cfg.block c.block))
    (hu : u ∈ blockSites (cfg.block u.block)) (heq : c.block = u.block) (hlt : c.idx < u.idx) :
    ∃ l pre mid post, PathTo cfg.Edge c.block l u.block ∧ executed cfg l = pre ++ c :: (mid ++ u :: post) ∧
      ∀ r ∈ mid, r.block = c.block ∧ c.idx < r.idx ∧ r.idx < u.idx := by
  obtain ⟨p, q, hb, -, hq⟩ := split_at hc
  obtain ⟨mid, post, rfl⟩ := List.append_of_mem (mem_after hb (heq ▸ hu) hlt)
  refine ⟨[c.block], p, mid, post, heq ▸ PathTo.start, ?_, fun r hr => ?_⟩
  · simp [executed, hb]
  · have hsorted := blockSites_sorted (cfg.block c.block)
    rw [hb] at hsorted
    obtain ⟨-, hsorted, -⟩ := List.pairwise_append.mp hsorted
    obtain ⟨-, -, hcross⟩ := List.pairwise_append.mp (List.pairwise_cons.mp hsorted).2
    obtain ⟨hblock, hidx⟩ := hq r (List.mem_append_left _ hr)
    exact ⟨hblock, hidx, hcross r hr u List.mem_cons_self⟩

/-- From a block to another, by the blocks of a piece of a path. -/
theorem exists_run_across {cfg : Cfg} {c u : Site} (hc : c ∈ blockSites (cfg.block c.block))
    (hu : u ∈ blockSites (cfg.block u.block)) {m : List BlockId}
    (hm : PathTo cfg.Edge c.block (u.block :: (m ++ [c.block])) u.block) :
    ∃ l pre mid post, PathTo cfg.Edge c.block l u.block ∧ executed cfg l = pre ++ c :: (mid ++ u :: post) ∧
      ∀ r ∈ mid, r.block = c.block ∧ c.idx < r.idx ∨ r.block = u.block ∧ r.idx < u.idx ∨ r.block ∈ m := by
  obtain ⟨p, q, hb, -, hq⟩ := split_at hc
  obtain ⟨p', q', hb', hp', -⟩ := split_at hu
  refine ⟨_, p, q ++ (m.reverse.flatMap fun b => blockSites (cfg.block b)) ++ p', q', hm, ?_, fun r hr => ?_⟩
  · simp [executed, hb, hb', List.append_assoc]
  · rcases List.mem_append.mp hr with hr | hr
    · rcases List.mem_append.mp hr with hr | hr
      · exact Or.inl (hq r hr)
      · obtain ⟨b, hbm, hr⟩ := List.mem_flatMap.mp hr
        rw [block_of_mem hr]
        exact Or.inr (Or.inr (List.mem_reverse.mp hbm))
    · exact Or.inr (Or.inl (hp' r hr))

section Kills

variable {cfg : Cfg} {dominates : BlockId → BlockId → Bool} (hdom : CorrectTest cfg dominates) {c u r : Site}

theorem block_lt_of_mem (hc : c ∈ allSites cfg) : c.block < cfg.numBlocks := by
  by_contra hge
  have huse := (mem_blockSites.mp (mem_allSites.mp hc)).2
  unfold Cfg.block at huse
  rw [List.getElem?_eq_none (Nat.le_of_not_lt hge)] at huse
  exact absurd huse (by simp)

variable (hreach : ∀ b < cfg.numBlocks, Reached cfg.Edge cfg.entry b)
include hdom hreach

/-- Where the consume comes before the use, one site cuts it off exactly when it comes between. -/
theorem cutOff_iff_between (hc : c ∈ allSites cfg) (hu : u ∈ allSites cfg) (hr : r ∈ allSites cfg)
    (hcu : precedes dominates c u = true) :
    CutOff cfg (fun s => s = r) c u ↔ precedes dominates c r = true ∧ precedes dominates r u = true := by
  have hreachU := hreach u.block (block_lt_of_mem hu)
  have hreachR := hreach r.block (block_lt_of_mem hr)
  constructor
  · intro hcut
    by_cases heq : c.block = u.block
    · have hlt : c.idx < u.idx := by
        unfold precedes at hcu
        rw [if_pos heq] at hcu
        exact of_decide_eq_true hcu
      obtain ⟨l, pre, mid, post, hl, hrun, hmid⟩ := exists_run_within (mem_allSites.mp hc) (mem_allSites.mp hu) heq hlt
      obtain ⟨s, hs, rfl⟩ := hcut l pre mid post hl hrun
      obtain ⟨hblock, h1, h2⟩ := hmid s hs
      unfold precedes
      rw [if_pos hblock.symm, if_pos (hblock.trans heq)]
      exact ⟨decide_eq_true h1, decide_eq_true h2⟩
    · have hdcu := dominates_of_precedes hdom hreachU hcu
      by_contra hnot
      -- A way round the block of `r`, unless `r` is in one of the two blocks.
      obtain ⟨m, hm, hcm, hum, hrm⟩ : ∃ m, PathTo cfg.Edge c.block (u.block :: (m ++ [c.block])) u.block ∧
          c.block ∉ m ∧ u.block ∉ m ∧ r.block ∉ m := by
        by_cases hends : r.block = c.block ∨ r.block = u.block
        · obtain ⟨l, hl⟩ := hreachU
          obtain ⟨m, hm, hcm, hum, -⟩ := hl.between (hdcu l hl) heq
          refine ⟨m, hm, hcm, hum, ?_⟩
          rcases hends with h | h
          · rwa [h]
          · rwa [h]
        · push Not at hends
          refine exists_avoiding hreachU hdcu heq fun hbetween => hnot ?_
          unfold precedes
          rw [if_neg (Ne.symm hends.1), if_neg hends.2]
          exact ⟨(hdom _ _ hreachR).mpr hbetween.1, (hdom _ _ hreachU).mpr hbetween.2⟩
      obtain ⟨l, pre, mid, post, hl, hrun, hmid⟩ := exists_run_across (mem_allSites.mp hc) (mem_allSites.mp hu) hm
      obtain ⟨s, hs, rfl⟩ := hcut l pre mid post hl hrun
      rcases hmid s hs with ⟨hblock, hidx⟩ | ⟨hblock, hidx⟩ | hblock
      · refine hnot ⟨?_, ?_⟩
        · unfold precedes
          rw [if_pos hblock.symm]
          exact decide_eq_true hidx
        · unfold precedes at hcu ⊢
          rw [if_neg heq] at hcu
          rwa [hblock, if_neg heq]
      · refine hnot ⟨?_, ?_⟩
        · unfold precedes at hcu ⊢
          rw [if_neg heq] at hcu
          rwa [hblock, if_neg heq]
        · unfold precedes
          rw [if_pos hblock]
          exact decide_eq_true hidx
      · exact hrm hblock
  · rintro ⟨hcr, hru⟩ l pre mid post hl hrun
    by_contra hnone
    push Not at hnone
    obtain ⟨-, -, -, -, hruns⟩ := runsThrough_of_run hl hrun hnone
    exact not_runsThrough_of_precedes hdom (mem_allSites.mp hr) (hreach c.block (block_lt_of_mem hc)) hreachU hcr hru hruns

theorem reassignKills_iff {uses : List Site}
    (huses : ∀ t, t ∈ uses ↔ t ∈ allSites cfg ∧ t.use.binding = c.use.binding) (hc : c ∈ allSites cfg)
    (hu : u ∈ allSites cfg) (hcu : precedes dominates c u = true) :
    reassignKills dominates uses c u = true ↔ OneReassignCuts cfg c u := by
  unfold reassignKills OneReassignCuts
  simp only [List.any_eq_true, Bool.and_eq_true, beq_iff_eq]
  constructor
  · rintro ⟨r, hr, ⟨⟨hkind, hcov⟩, hcr⟩, hru⟩
    obtain ⟨hmem, hbind⟩ := (huses r).mp hr
    exact ⟨r, hmem, hbind, hkind, hcov, (cutOff_iff_between hdom hreach hc hu hmem hcu).mpr ⟨hcr, hru⟩⟩
  · rintro ⟨r, hmem, hbind, hkind, hcov, hcut⟩
    obtain ⟨hcr, hru⟩ := (cutOff_iff_between hdom hreach hc hu hmem hcu).mp hcut
    exact ⟨r, (huses r).mpr ⟨hmem, hbind⟩, ⟨⟨hkind, hcov⟩, hcr⟩, hru⟩

end Kills

/-! What the search for witnesses reports. -/

/-- The use is one the search pairs with the consume, the kill test aside. -/
def Partner (dominates : BlockId → BlockId → Bool) (ci uj : Site × ℕ) : Prop :=
  ci.2 ≠ uj.2 ∧ notPartner ci.1 uj.1 = false ∧ precedes dominates ci.1 uj.1 = true

def uamWitnessOf (x : String) (c u : Site) : UamWitness := ⟨x, c.use.span, u.use.span, c.block, u.block⟩

/-- The use the search stops at. -/
def usedAfter (dominates : BlockId → BlockId → Bool) (uses : List Site) (ci : Site × ℕ) : Option (Site × ℕ) :=
  uses.zipIdx.find? fun uj =>
    decide (ci.2 ≠ uj.2) && !notPartner ci.1 uj.1 && precedes dominates ci.1 uj.1 && !reassignKills dominates uses ci.1 uj.1

theorem uamWitness_eq {dominates : BlockId → BlockId → Bool} {uses : List Site} {x : String} {ci : Site × ℕ} :
    uamWitness dominates uses x ci = (usedAfter dominates uses ci).map fun uj => uamWitnessOf x ci.1 uj.1 := rfl

/-- A witness is produced for the pair. -/
def Witnessed (dominates : BlockId → BlockId → Bool) (uses : List Site) (x : String) (c u : Site) : Prop :=
  ∃ i j, (c, i) ∈ uses.zipIdx ∧ c.use.kind = .consume ∧ usedAfter dominates uses (c, i) = some (u, j) ∧
    ∃ firstOnly, uamWitnessOf x c u ∈ uamWitnessesForBinding dominates uses x firstOnly

theorem of_mem_uamWitnessesFrom {dominates : BlockId → BlockId → Bool} {uses : List Site} {x : String} {w : UamWitness}
    {firstOnly : Bool} (l : List (Site × ℕ)) (out : List UamWitness)
    (hw : w ∈ uamWitnessesFrom dominates uses x firstOnly l out) :
    w ∈ out ∨ ∃ ci ∈ l, ci.1.use.kind = .consume ∧ uamWitness dominates uses x ci = some w := by
  induction l generalizing out with
  | nil => exact Or.inl hw
  | cons ci l ih =>
    have hlater : (∃ ci ∈ l, ci.1.use.kind = .consume ∧ uamWitness dominates uses x ci = some w) →
        ∃ ci' ∈ ci :: l, ci'.1.use.kind = .consume ∧ uamWitness dominates uses x ci' = some w := by
      rintro ⟨ci', hci', h⟩
      exact ⟨ci', List.mem_cons_of_mem ci hci', h⟩
    rw [uamWitnessesFrom] at hw
    by_cases hkind : ci.1.use.kind = .consume
    · rw [if_neg (by simp [hkind])] at hw
      simp only at hw
      have hnow : w ∈ out ++ (uamWitness dominates uses x ci).toList →
          w ∈ out ∨ ∃ ci' ∈ ci :: l, ci'.1.use.kind = .consume ∧ uamWitness dominates uses x ci' = some w := by
        intro hw
        rcases List.mem_append.mp hw with hw | hw
        · exact Or.inl hw
        · exact Or.inr ⟨ci, List.mem_cons_self, hkind, Option.mem_toList.mp hw⟩
      split at hw
      · exact hnow hw
      · rcases ih _ hw with hw | hw
        · exact hnow hw
        · exact Or.inr (hlater hw)
    · rw [if_pos hkind] at hw
      exact (ih out hw).imp_right hlater

theorem mem_uamWitnessesFrom {dominates : BlockId → BlockId → Bool} {uses : List Site} {x : String} {w : UamWitness}
    (l : List (Site × ℕ)) (out : List UamWitness)
    (hw : w ∈ out ∨ ∃ ci ∈ l, ci.1.use.kind = .consume ∧ uamWitness dominates uses x ci = some w) :
    w ∈ uamWitnessesFrom dominates uses x false l out := by
  induction l generalizing out with
  | nil =>
    rw [uamWitnessesFrom]
    simpa using hw
  | cons ci l ih =>
    rw [uamWitnessesFrom]
    by_cases hkind : ci.1.use.kind = .consume
    · rw [if_neg (by simp [hkind])]
      refine ih _ ?_
      rcases hw with hw | ⟨ci', hci', hkind', hw⟩
      · exact Or.inl (List.mem_append_left _ hw)
      · rcases List.mem_cons.mp hci' with rfl | hci'
        · exact Or.inl (List.mem_append_right _ (Option.mem_toList.mpr hw))
        · exact Or.inr ⟨ci', hci', hkind', hw⟩
    · rw [if_pos hkind]
      refine ih out (hw.imp_right ?_)
      rintro ⟨ci', hci', hkind', hw⟩
      rcases List.mem_cons.mp hci' with rfl | hci'
      · exact absurd hkind' hkind
      · exact ⟨ci', hci', hkind', hw⟩

/-- Every result of the search is of a pair. -/
theorem witnessed_of_mem {dominates : BlockId → BlockId → Bool} {uses : List Site} {x : String} {w : UamWitness}
    {firstOnly : Bool} (hw : w ∈ uamWitnessesForBinding dominates uses x firstOnly) :
    ∃ c u, Witnessed dominates uses x c u ∧ w = uamWitnessOf x c u := by
  obtain ⟨ci, hci, hkind, hsome⟩ := (of_mem_uamWitnessesFrom _ _ hw).resolve_left List.not_mem_nil
  obtain ⟨uj, hused, rfl⟩ := Option.map_eq_some_iff.mp hsome
  exact ⟨ci.1, uj.1, ⟨ci.2, uj.2, hci, hkind, hused, firstOnly, hw⟩, rfl⟩

theorem bucket_mem {cfg : Cfg} {x : String} {uses : List Site} (h : (x, uses) ∈ collectUseSites cfg) (t : Site) :
    t ∈ uses ↔ t ∈ allSites cfg ∧ t.use.binding = x := by
  obtain ⟨y, -, hy⟩ := List.mem_map.mp h
  obtain ⟨rfl, rfl⟩ := Prod.mk.inj hy
  rw [List.mem_filter, beq_iff_eq]

/-- Every use after a move that is reported is of a pair for which a witness is produced. -/
theorem witnessed_of_reported {cfg : Cfg} {dominates : BlockId → BlockId → Bool} :
    (∀ w ∈ directUamCandidates dominates cfg, ∃ x uses c u, (x, uses) ∈ collectUseSites cfg ∧
      Witnessed dominates uses x c u ∧ w = uamWitnessOf x c u) ∧
    ∀ span ∈ directUamAllConsumeSites dominates cfg, ∃ x uses c u, (x, uses) ∈ collectUseSites cfg ∧
      Witnessed dominates uses x c u ∧ span = c.use.span := by
  constructor
  · intro w hw
    obtain ⟨⟨x, uses⟩, hbucket, hfirst⟩ := List.mem_filterMap.mp hw
    obtain ⟨c, u, hcu, rfl⟩ := witnessed_of_mem (List.mem_of_mem_head? (Option.mem_def.mpr hfirst))
    exact ⟨x, uses, c, u, hbucket, hcu, rfl⟩
  · intro span hspan
    obtain ⟨⟨x, uses⟩, hbucket, hspan⟩ := List.mem_flatMap.mp hspan
    obtain ⟨w, hw, rfl⟩ := List.mem_map.mp hspan
    obtain ⟨c, u, hcu, rfl⟩ := witnessed_of_mem hw
    exact ⟨x, uses, c, u, hbucket, hcu, rfl⟩

/-- The first entry of a numbered list with a property. -/
theorem find?_zipIdx_eq_some {α : Type} {l : List α} {p : α × ℕ → Bool} {a : α} {j : ℕ} :
    l.zipIdx.find? p = some (a, j) ↔
      (a, j) ∈ l.zipIdx ∧ p (a, j) = true ∧ ∀ a' j', (a', j') ∈ l.zipIdx → j' < j → p (a', j') = false := by
  rw [List.find?_eq_some_iff_getElem]
  constructor
  · rintro ⟨hp, i, hi, hget, hbefore⟩
    rw [List.getElem_zipIdx, Nat.zero_add, Prod.mk.injEq] at hget
    obtain ⟨rfl, rfl⟩ := hget
    rw [List.length_zipIdx] at hi
    refine ⟨List.mk_mem_zipIdx_iff_getElem?.mpr (List.getElem?_eq_getElem hi), hp, fun a' j' ha' hlt => ?_⟩
    obtain ⟨hj', hget'⟩ := List.getElem?_eq_some_iff.mp (List.mk_mem_zipIdx_iff_getElem?.mp ha')
    have hnot := hbefore j' hlt
    rw [List.getElem_zipIdx, Nat.zero_add, hget'] at hnot
    simpa using hnot
  · rintro ⟨hmem, hp, hbefore⟩
    obtain ⟨hj, hget⟩ := List.getElem?_eq_some_iff.mp (List.mk_mem_zipIdx_iff_getElem?.mp hmem)
    have hj' : j < l.zipIdx.length := by rwa [List.length_zipIdx]
    refine ⟨hp, j, hj', ?_, fun k hk => ?_⟩
    · rw [List.getElem_zipIdx, Nat.zero_add, hget]
    · rw [List.getElem_zipIdx, Nat.zero_add, hbefore _ k (List.mk_mem_zipIdx_iff_getElem?.mpr ?_) hk]
      · rfl
      · exact List.getElem?_eq_getElem (hk.trans hj)

theorem usedAfter_eq_some {cfg : Cfg} {dominates : BlockId → BlockId → Bool} (hdom : CorrectTest cfg dominates)
    (hreach : ∀ b < cfg.numBlocks, Reached cfg.Edge cfg.entry b) {x : String} {uses : List Site}
    (hbucket : (x, uses) ∈ collectUseSites cfg) {c u : Site} {i j : ℕ} (hc : c ∈ uses) :
    usedAfter dominates uses (c, i) = some (u, j) ↔ (u, j) ∈ uses.zipIdx ∧
      (Partner dominates (c, i) (u, j) ∧ ¬ OneReassignCuts cfg c u) ∧
        ∀ u' j', (u', j') ∈ uses.zipIdx → j' < j → ¬ (Partner dominates (c, i) (u', j') ∧ ¬ OneReassignCuts cfg c u') := by
  have huses := bucket_mem hbucket
  obtain ⟨hcmem, rfl⟩ := (huses c).mp hc
  have htest : ∀ u j, (u, j) ∈ uses.zipIdx →
      ((decide (i ≠ j) && !notPartner c u && precedes dominates c u && !reassignKills dominates uses c u) = true ↔
        Partner dominates (c, i) (u, j) ∧ ¬ OneReassignCuts cfg c u) := by
    intro u j hu
    have humem := ((huses u).mp (List.mem_of_getElem? (List.mk_mem_zipIdx_iff_getElem?.mp hu))).1
    simp only [Bool.and_eq_true, decide_eq_true_eq, Bool.not_eq_true', Partner]
    constructor
    · rintro ⟨⟨⟨hne, hpartner⟩, hprec⟩, hkill⟩
      refine ⟨⟨hne, hpartner, hprec⟩, ?_⟩
      rw [← reassignKills_iff hdom hreach huses hcmem humem hprec, hkill]
      exact Bool.false_ne_true
    · rintro ⟨⟨hne, hpartner, hprec⟩, hone⟩
      rw [← reassignKills_iff hdom hreach huses hcmem humem hprec, Bool.not_eq_true] at hone
      exact ⟨⟨⟨hne, hpartner⟩, hprec⟩, hone⟩
  unfold usedAfter
  rw [find?_zipIdx_eq_some]
  constructor
  · rintro ⟨hu, hp, hbefore⟩
    refine ⟨hu, (htest u j hu).mp hp, fun u' j' hu' hlt hpartner => ?_⟩
    exact Bool.false_ne_true ((hbefore u' j' hu' hlt).symm.trans ((htest u' j' hu').mpr hpartner))
  · rintro ⟨hu, hpartner, hbefore⟩
    refine ⟨hu, (htest u j hu).mpr hpartner, fun u' j' hu' hlt => ?_⟩
    rw [← Bool.not_eq_true]
    exact fun hp => hbefore u' j' hu' hlt ((htest u' j' hu').mp hp)

/-- Every reported pair is real exactly when rebinds that together cut a use off from a consume leave it unreported:
one reassignment cuts it off alone, or an earlier use is reported in its place. -/
theorem witness_real_iff {cfg : Cfg} {dominates : BlockId → BlockId → Bool} (hdom : CorrectTest cfg dominates)
    (hreach : ∀ b < cfg.numBlocks, Reached cfg.Edge cfg.entry b) :
    (∀ x uses, (x, uses) ∈ collectUseSites cfg → ∀ c u, Witnessed dominates uses x c u → Live cfg c u) ↔
      ∀ x uses, (x, uses) ∈ collectUseSites cfg → ∀ c i u j, (c, i) ∈ uses.zipIdx → c.use.kind = .consume →
        (u, j) ∈ uses.zipIdx → Partner dominates (c, i) (u, j) → RebindsCut cfg c u →
          OneReassignCuts cfg c u ∨ ∃ u' j', (u', j') ∈ uses.zipIdx ∧ j' < j ∧ Partner dominates (c, i) (u', j') ∧
            ¬ OneReassignCuts cfg c u' := by
  constructor
  · intro hreal x uses hbucket c i u j hc hkind hu hpartner hcut
    by_contra hnot
    push Not at hnot
    obtain ⟨hone, hearlier⟩ := hnot
    have hcmem : c ∈ uses := List.mem_of_getElem? (List.mk_mem_zipIdx_iff_getElem?.mp hc)
    have hused : usedAfter dominates uses (c, i) = some (u, j) := by
      refine (usedAfter_eq_some hdom hreach hbucket hcmem).mpr ⟨hu, ⟨hpartner, hone⟩, ?_⟩
      rintro u' j' hu' hlt ⟨hpartner', hone'⟩
      exact hone' (hearlier u' j' hu' hlt hpartner')
    refine live_iff.mp (hreal x uses hbucket c u ⟨i, j, hc, hkind, hused, false, ?_⟩) hcut
    refine mem_uamWitnessesFrom _ _ (Or.inr ⟨(c, i), hc, hkind, ?_⟩)
    rw [uamWitness_eq, hused, Option.map_some]
  · rintro hcond x uses hbucket c u ⟨i, j, hc, hkind, hused, -⟩
    have hcmem : c ∈ uses := List.mem_of_getElem? (List.mk_mem_zipIdx_iff_getElem?.mp hc)
    obtain ⟨hu, ⟨hpartner, hone⟩, hfirst⟩ := (usedAfter_eq_some hdom hreach hbucket hcmem).mp hused
    rw [live_iff]
    intro hcut
    rcases hcond x uses hbucket c i u j hc hkind hu hpartner hcut with h | ⟨u', j', hu', hlt, hpartner', hone'⟩
    · exact hone h
    · exact hfirst u' j' hu' hlt ⟨hpartner', hone'⟩

theorem witness_real_iff_consume_then_read :
    computeDominators consumeThenRead 10 = some ⟨[none, some 0], [0, 1], [0, 1]⟩ ∧
      ∀ x uses, (x, uses) ∈ collectUseSites consumeThenRead →
        ∀ c u, Witnessed ((⟨[none, some 0], [0, 1], [0, 1]⟩ : DominatorTree).test 10) uses x c u →
          Live consumeThenRead c u := by
  have htree : computeDominators consumeThenRead 10 = some ⟨[none, some 0], [0, 1], [0, 1]⟩ := by decide +kernel
  have hreach : ∀ b < consumeThenRead.numBlocks, Reached consumeThenRead.Edge consumeThenRead.entry b := by
    have h0 : Reached consumeThenRead.Edge consumeThenRead.entry 0 := reached_root
    have h1 := h0.step (v := 1) (by decide : (1 : ℕ) ∈ (consumeThenRead.block 0).successors)
    intro b hb
    have hb' : b < 2 := hb
    interval_cases b
    · exact h0
    · exact h1
  refine ⟨htree, (witness_real_iff (correctTest_of_down htree (idom_down (by decide)) (by decide)) hreach).mpr ?_⟩
  intro x uses hbucket c i u j hc hkind hu hpartner hcut
  have hsites : allSites consumeThenRead = [⟨0, 0, useOfX .consume 0⟩, ⟨0, 1, useOfX .read 1⟩] := by decide
  have hmem : ∀ s k, (s, k) ∈ uses.zipIdx → s = ⟨0, 0, useOfX .consume 0⟩ ∨ s = ⟨0, 1, useOfX .read 1⟩ := by
    intro s k hs
    have hs' := ((bucket_mem hbucket s).mp (List.mem_of_getElem? (List.mk_mem_zipIdx_iff_getElem?.mp hs))).1
    rw [hsites] at hs'
    simpa using hs'
  obtain ⟨-, -, hprec⟩ := hpartner
  rcases hmem c i hc with rfl | rfl
  · rcases hmem u j hu with rfl | rfl
    · cases hprec
    · obtain ⟨r, hr, -⟩ := hcut [0] [] [] [] PathTo.start (by decide)
      exact absurd hr List.not_mem_nil
  · cases hkind

/-- `let y = x; if c { x = a } else { x = b }; x` -/
def bothBranchesRebind : Cfg where
  blocks := [⟨0, [useOfX .define 0, useOfX .consume 1], [1, 2]⟩, ⟨1, [useOfX .reassign 2], [3]⟩,
    ⟨2, [useOfX .reassign 3], [3]⟩, ⟨3, [useOfX .read 4], [4]⟩, ⟨4, [], []⟩]
  entry := 0
  exit := 4
  closureBodyBlocks := ∅
  ids i b h := by
    match i, h with
    | 0, h | 1, h | 2, h | 3, h | 4, h => exact (Option.some.inj h) ▸ rfl
  closed := by decide
  entry_lt := by decide

def bothBranchesTree : DominatorTree := ⟨[none, some 0, some 0, some 0, some 3], [0, 2, 1, 3, 4], [0, 2, 1, 3, 4]⟩

/-- Either branch gives `x` a new value, neither is on every path, and the read after them is reported. -/
theorem rebinds_on_both_branches_reported :
    computeDominators bothBranchesRebind 40 = some bothBranchesTree ∧
      CorrectTest bothBranchesRebind (bothBranchesTree.test 40) ∧
      (∀ b < bothBranchesRebind.numBlocks, Reached bothBranchesRebind.Edge bothBranchesRebind.entry b) ∧
      directUamCandidates (bothBranchesTree.test 40) bothBranchesRebind =
        [uamWitnessOf "x" ⟨0, 1, useOfX .consume 1⟩ ⟨3, 0, useOfX .read 4⟩] ∧
      ¬ Live bothBranchesRebind ⟨0, 1, useOfX .consume 1⟩ ⟨3, 0, useOfX .read 4⟩ := by
  have htree : computeDominators bothBranchesRebind 40 = some bothBranchesTree := by decide +kernel
  refine ⟨htree, correctTest_of_down htree (idom_down (by decide)) (by decide), ?_, by decide +kernel, ?_⟩
  · have h0 : Reached bothBranchesRebind.Edge bothBranchesRebind.entry 0 := reached_root
    have h1 := h0.step (v := 1) (by decide : (1 : ℕ) ∈ (bothBranchesRebind.block 0).successors)
    have h2 := h0.step (v := 2) (by decide : (2 : ℕ) ∈ (bothBranchesRebind.block 0).successors)
    have h3 := h1.step (v := 3) (by decide : (3 : ℕ) ∈ (bothBranchesRebind.block 1).successors)
    have h4 := h3.step (v := 4) (by decide : (4 : ℕ) ∈ (bothBranchesRebind.block 3).successors)
    intro b hb
    have hb' : b < 5 := hb
    interval_cases b
    · exact h0
    · exact h1
    · exact h2
    · exact h3
    · exact h4
  · rintro ⟨l, pre, mid, post, hl, hrun, hmid⟩
    obtain ⟨-, -, -, -, hruns⟩ := runsThrough_of_run hl hrun hmid
    rcases hruns with ⟨heq, -⟩ | ⟨-, -, s, hedge, hs, -⟩
    · cases heq
    · have hs' : s = 1 ∨ s = 2 := by
        have : s ∈ [1, 2] := hedge
        simpa using this
      rcases hs' with rfl | rfl
      · rcases hs with hs | hs
        · exact absurd (hs ⟨1, 0, useOfX .reassign 2⟩ (by decide) rfl) (by decide)
        · cases hs
      · rcases hs with hs | hs
        · exact absurd (hs ⟨2, 0, useOfX .reassign 3⟩ (by decide) rfl) (by decide)
        · cases hs

end Karac.Flow
