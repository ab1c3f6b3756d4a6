import Karac.Flow.Dominator

/-! The depth-first loop ends, and its reversed postorder lists the blocks reached from the entry once,
each but the entry after some predecessor. -/

namespace Karac.Flow

open Lib.Dominance

namespace DfsState

/-- The open blocks, innermost first. -/
def opened (st : DfsState) : List BlockId := st.stack.map Prod.fst

end DfsState

/-- The visited blocks are the open and the finished ones. An open block is a successor of the one below
it, the successors before its next one are visited, and so are all those of a finished block. -/
structure Walk (cfg : Cfg) (st : DfsState) : Prop where
  nodup : (st.opened ++ st.postorder.reverse).Nodup
  len : st.visited.length = cfg.numBlocks
  visited : ∀ b, st.visited[b]? = some true ↔ b ∈ st.opened ++ st.postorder.reverse
  reached : ∀ b ∈ st.opened ++ st.postorder.reverse, Reached cfg.Edge cfg.entry b
  chain : st.opened.IsChain fun c d => cfg.Edge d c
  bottom : st.opened.getLast? = some cfg.entry ∨
    (st.opened = [] ∧ st.postorder.reverse.head? = some cfg.entry)
  passed : ∀ b i, (b, i) ∈ st.stack → ∀ j s, j < i → (cfg.block b).successors[j]? = some s →
    st.visited[s]? = some true
  finished : ∀ b ∈ st.postorder, ∀ s, cfg.Edge b s → st.visited[s]? = some true
  parent : ∀ l c l', st.postorder.reverse = l ++ c :: l' → c ≠ cfg.entry →
    ∃ p, cfg.Edge p c ∧ p ∈ st.opened ++ l

section Walk

variable {cfg : Cfg}

theorem walk_start : Walk cfg (dfsStart cfg) where
  nodup := by simp [dfsStart, DfsState.opened]
  len := by simp [dfsStart]
  visited b := by
    have hlt : cfg.entry < cfg.numBlocks := cfg.entry_lt
    by_cases hb : cfg.entry = b
    · subst hb
      simp [dfsStart, DfsState.opened, hlt]
    · simp [dfsStart, DfsState.opened, hb, Ne.symm hb, List.getElem?_replicate]
  reached b hb := by
    simp only [dfsStart, DfsState.opened, List.map_cons, List.map_nil, List.reverse_nil, List.append_nil,
      List.mem_singleton] at hb
    rw [hb]
    exact reached_root
  chain := List.isChain_singleton _
  bottom := Or.inl rfl
  passed b i hmem j s hj := by
    obtain ⟨-, rfl⟩ := Prod.mk.inj (List.mem_singleton.mp hmem)
    exact absurd hj (Nat.not_lt_zero j)
  finished b hb := absurd hb List.not_mem_nil
  parent l c l' h := by simp [dfsStart] at h

section Step

variable {b : BlockId} {idx : ℕ} {rest : List (BlockId × ℕ)} {visited : List Bool} {postorder : List BlockId}

/-- The next successor is visited already: only its index moves. -/
theorem Walk.skip {s : BlockId} (h : Walk cfg ⟨(b, idx) :: rest, visited, postorder⟩)
    (hs : (cfg.block b).successors[idx]? = some s) (hv : visited[s]? = some true) :
    Walk cfg ⟨(b, idx + 1) :: rest, visited, postorder⟩ where
  nodup := h.nodup
  len := h.len
  visited := h.visited
  reached := h.reached
  chain := h.chain
  bottom := h.bottom
  passed c i hmem j t hj ht := by
    rcases List.mem_cons.mp hmem with heq | hmem
    · obtain ⟨rfl, rfl⟩ := Prod.mk.inj heq
      rcases Nat.lt_succ_iff_lt_or_eq.mp hj with hj | rfl
      · exact h.passed c idx List.mem_cons_self j t hj ht
      · rw [hs] at ht
        rw [← Option.some.inj ht]
        exact hv
    · exact h.passed c i (List.mem_cons_of_mem _ hmem) j t hj ht
  finished := h.finished
  parent := h.parent

/-- The next successor is opened. -/
theorem Walk.push {s : BlockId} (h : Walk cfg ⟨(b, idx) :: rest, visited, postorder⟩)
    (hs : (cfg.block b).successors[idx]? = some s) (hv : visited[s]? ≠ some true) :
    Walk cfg ⟨(s, 0) :: (b, idx + 1) :: rest, visited.set s true, postorder⟩ := by
  have hedge : cfg.Edge b s := List.mem_of_getElem? hs
  have hlt : s < visited.length := by
    rw [h.len]
    exact Cfg.edge_lt hedge
  have hset : ∀ c, (visited.set s true)[c]? = some true ↔ c = s ∨ visited[c]? = some true := by
    intro c
    by_cases hc : s = c
    · subst hc
      simp [hlt]
    · simp [hc, Ne.symm hc]
  refine ⟨?_, ?_, fun c => ?_, fun c hc => ?_, ?_, ?_, fun c i hmem j t hj ht => ?_, fun c hc t e => ?_,
    fun l c l' heq hne => ?_⟩
  · exact List.nodup_cons.mpr ⟨fun hmem => hv ((h.visited s).mpr hmem), h.nodup⟩
  · exact (List.length_set ..).trans h.len
  · rw [hset, h.visited]
    exact List.mem_cons.symm
  · rcases List.mem_cons.mp hc with rfl | hc
    · exact (h.reached b List.mem_cons_self).step hedge
    · exact h.reached c hc
  · exact List.isChain_cons_cons.mpr ⟨hedge, h.chain⟩
  · rcases h.bottom with hlast | ⟨hnil, -⟩
    · refine Or.inl ?_
      have hne : DfsState.opened ⟨(b, idx) :: rest, visited, postorder⟩ ≠ [] := List.cons_ne_nil _ _
      exact (List.getLast?_cons_of_ne_nil hne).trans hlast
    · exact absurd hnil (List.cons_ne_nil _ _)
  · rw [hset]
    rcases List.mem_cons.mp hmem with heq | hmem
    · obtain ⟨-, rfl⟩ := Prod.mk.inj heq
      exact absurd hj (Nat.not_lt_zero j)
    · rcases List.mem_cons.mp hmem with heq | hmem
      · obtain ⟨rfl, rfl⟩ := Prod.mk.inj heq
        rcases Nat.lt_succ_iff_lt_or_eq.mp hj with hj | rfl
        · exact Or.inr (h.passed c idx List.mem_cons_self j t hj ht)
        · exact Or.inl (Option.some.inj (ht.symm.trans hs))
      · exact Or.inr (h.passed c i (List.mem_cons_of_mem _ hmem) j t hj ht)
  · exact (hset t).mpr (Or.inr (h.finished c hc t e))
  · obtain ⟨p, e, hp⟩ := h.parent l c l' heq hne
    exact ⟨p, e, List.mem_cons_of_mem _ hp⟩

/-- All successors are visited: the block is finished. -/
theorem Walk.pop (h : Walk cfg ⟨(b, idx) :: rest, visited, postorder⟩)
    (hs : (cfg.block b).successors[idx]? = none) : Walk cfg ⟨rest, visited, postorder ++ [b]⟩ := by
  have hrev : (postorder ++ [b]).reverse = b :: postorder.reverse := by simp
  have hperm : (rest.map Prod.fst ++ b :: postorder.reverse).Perm
      (b :: rest.map Prod.fst ++ postorder.reverse) := List.perm_middle
  refine ⟨?_, h.len, fun c => ?_, fun c hc => ?_, ?_, ?_, fun c i hmem => ?_, fun c hc t e => ?_,
    fun l c l' heq hne => ?_⟩
  · rw [hrev]
    exact hperm.nodup_iff.mpr h.nodup
  · rw [hrev]
    exact (h.visited c).trans hperm.mem_iff.symm
  · rw [hrev] at hc
    exact h.reached c (hperm.mem_iff.mp hc)
  · exact h.chain.tail
  · rw [hrev]
    rcases h.bottom with hlast | ⟨hnil, -⟩
    · cases rest with
      | nil => exact Or.inr ⟨rfl, hlast⟩
      | cons r rest => exact Or.inl ((List.getLast?_cons_of_ne_nil (List.cons_ne_nil _ _)).symm.trans hlast)
    · exact absurd hnil (List.cons_ne_nil _ _)
  · exact h.passed c i (List.mem_cons_of_mem _ hmem)
  · rcases List.mem_append.mp hc with hc | hc
    · exact h.finished c hc t e
    · obtain rfl := List.mem_singleton.mp hc
      obtain ⟨j, hj⟩ := List.mem_iff_getElem?.mp e
      refine h.passed c idx List.mem_cons_self j t ?_ hj
      by_contra hge
      have hlen := List.getElem?_eq_none_iff.mp hs
      rw [List.getElem?_eq_none (by omega)] at hj
      exact absurd hj (by simp)
  · rw [hrev] at heq
    cases l with
    | nil =>
      obtain ⟨rfl, -⟩ := List.cons.inj heq
      cases rest with
      | nil =>
        rcases h.bottom with hlast | ⟨hnil, -⟩
        · exact absurd (Option.some.inj hlast) hne
        · exact absurd hnil (List.cons_ne_nil _ _)
      | cons r rest =>
        have hedge := (List.isChain_cons_cons.mp h.chain).1
        exact ⟨r.1, hedge, by simp [DfsState.opened]⟩
    | cons x l =>
      obtain ⟨rfl, htail⟩ := List.cons.inj heq
      obtain ⟨p, e, hp⟩ := h.parent l c l' htail hne
      exact ⟨p, e, (List.perm_middle.mem_iff).mpr hp⟩

end Step

theorem Walk.step {st st' : DfsState} (h : Walk cfg st) (hstep : dfsStep cfg st = some st') : Walk cfg st' := by
  obtain ⟨stack, visited, postorder⟩ := st
  unfold dfsStep at hstep
  split at hstep
  · exact absurd hstep (by simp)
  · rename_i b idx rest hstack
    simp only at hstack
    subst hstack
    split at hstep
    · rename_i s hs
      split at hstep
      · rename_i hv
        rw [← Option.some.inj hstep]
        exact h.skip hs hv
      · rename_i hv
        rw [← Option.some.inj hstep]
        exact h.push hs hv
    · rename_i hs
      rw [← Option.some.inj hstep]
      exact h.pop hs

end Walk

/-! Each turn uses up one successor of an open block or finishes one. -/

section Cost

variable (cfg : Cfg)

def degree (b : BlockId) : ℕ := (cfg.block b).successors.length

/-- The turns left for the open blocks. -/
def openCost (stack : List (BlockId × ℕ)) : ℕ := (stack.map fun c => degree cfg c.1 - c.2 + 1).sum

/-- The turns left for a block not visited. -/
def blockCost (visited : List Bool) (b : BlockId) : ℕ := if visited[b]? = some true then 0 else degree cfg b + 2

def unvisitedCost (visited : List Bool) : ℕ := ∑ b ∈ Finset.range cfg.numBlocks, blockCost cfg visited b

variable {cfg}

theorem unvisitedCost_set {visited : List Bool} {s : BlockId} (hlen : visited.length = cfg.numBlocks)
    (hs : s < cfg.numBlocks) (hv : visited[s]? ≠ some true) :
    unvisitedCost cfg (visited.set s true) + (degree cfg s + 2) = unvisitedCost cfg visited := by
  unfold unvisitedCost
  have hmem : s ∈ Finset.range cfg.numBlocks := Finset.mem_range.mpr hs
  have hset : blockCost cfg (visited.set s true) s = 0 := if_pos (by simp [hlen, hs])
  have hunset : blockCost cfg visited s = degree cfg s + 2 := if_neg hv
  have hrest : ∑ b ∈ (Finset.range cfg.numBlocks).erase s, blockCost cfg (visited.set s true) b =
      ∑ b ∈ (Finset.range cfg.numBlocks).erase s, blockCost cfg visited b := by
    refine Finset.sum_congr rfl fun b hb => ?_
    unfold blockCost
    rw [List.getElem?_set_ne (Ne.symm (Finset.ne_of_mem_erase hb))]
  have hsum : blockCost cfg visited s + ∑ b ∈ (Finset.range cfg.numBlocks).erase s, blockCost cfg visited b =
      ∑ b ∈ Finset.range cfg.numBlocks, blockCost cfg visited b := Finset.add_sum_erase _ _ hmem
  have hsum' : blockCost cfg (visited.set s true) s +
      ∑ b ∈ (Finset.range cfg.numBlocks).erase s, blockCost cfg (visited.set s true) b =
      ∑ b ∈ Finset.range cfg.numBlocks, blockCost cfg (visited.set s true) b := Finset.add_sum_erase _ _ hmem
  omega

def dfsCost (cfg : Cfg) (st : DfsState) : ℕ := openCost cfg st.stack + unvisitedCost cfg st.visited

theorem Walk.cost_lt {st st' : DfsState} (h : Walk cfg st) (hstep : dfsStep cfg st = some st') :
    dfsCost cfg st' < dfsCost cfg st := by
  obtain ⟨stack, visited, postorder⟩ := st
  unfold dfsStep at hstep
  split at hstep
  · exact absurd hstep (by simp)
  · rename_i b idx rest hstack
    simp only at hstack
    subst hstack
    split at hstep
    · rename_i s hs
      have hidx : idx < degree cfg b := by
        by_contra hge
        rw [List.getElem?_eq_none (by unfold degree at hge; omega)] at hs
        exact absurd hs (by simp)
      split at hstep
      · rw [← Option.some.inj hstep]
        simp only [dfsCost, openCost, List.map_cons, List.sum_cons]
        omega
      · rename_i hv
        have hlt : s < cfg.numBlocks := Cfg.edge_lt (List.mem_of_getElem? hs)
        have hset := unvisitedCost_set h.len hlt hv
        rw [← Option.some.inj hstep]
        simp only [dfsCost, openCost, List.map_cons, List.sum_cons] at hset ⊢
        omega
    · rw [← Option.some.inj hstep]
      simp only [dfsCost, openCost, List.map_cons, List.sum_cons]
      omega

theorem dfsLoop_total (fuel : ℕ) {st : DfsState} (h : Walk cfg st) (hcost : dfsCost cfg st < fuel) :
    ∃ st', dfsLoop cfg fuel st = some st' ∧ Walk cfg st' ∧ st'.stack = [] := by
  induction fuel generalizing st with
  | zero => omega
  | succ fuel ih =>
    rw [dfsLoop]
    split
    · rename_i st' hstep
      have hlt := h.cost_lt hstep
      exact ih (h.step hstep) (by omega)
    · rename_i hstep
      refine ⟨st, rfl, h, ?_⟩
      unfold dfsStep at hstep
      split at hstep
      · assumption
      · split at hstep
        · split at hstep <;> exact absurd hstep (by simp)
        · exact absurd hstep (by simp)

theorem dfsLoop_mono {fuel : ℕ} {st st' : DfsState} (h : dfsLoop cfg fuel st = some st') {fuel' : ℕ}
    (hle : fuel ≤ fuel') : dfsLoop cfg fuel' st = some st' := by
  induction fuel generalizing st fuel' with
  | zero => exact absurd h (by simp [dfsLoop])
  | succ fuel ih =>
    obtain ⟨fuel', rfl⟩ : ∃ k, fuel' = k + 1 := ⟨fuel' - 1, by omega⟩
    rw [dfsLoop] at h ⊢
    split at h
    · exact ih h (by omega)
    · exact h

end Cost

/-! The listing. -/

/-- The blocks reached from the entry, once each, the entry first, the others after a predecessor. -/
structure Listed (cfg : Cfg) (rpo : List BlockId) : Prop where
  nodup : rpo.Nodup
  mem_iff : ∀ b, b ∈ rpo ↔ Reached cfg.Edge cfg.entry b
  head : rpo.head? = some cfg.entry
  parent : ∀ l c l', rpo = l ++ c :: l' → c ≠ cfg.entry → ∃ p, cfg.Edge p c ∧ p ∈ l

theorem Walk.listed {cfg : Cfg} {st : DfsState} (h : Walk cfg st) (hnil : st.stack = []) :
    Listed cfg st.postorder.reverse := by
  have hopen : st.opened = [] := by
    unfold DfsState.opened
    rw [hnil]
    rfl
  have hnodup := h.nodup
  have hreached := h.reached
  have hvisited := h.visited
  have hparent := h.parent
  rw [hopen, List.nil_append] at hnodup hreached
  simp only [hopen, List.nil_append] at hvisited hparent
  have hhead : st.postorder.reverse.head? = some cfg.entry := by
    rcases h.bottom with hlast | ⟨-, hhead⟩
    · rw [hopen] at hlast
      exact absurd hlast (by simp)
    · exact hhead
  refine ⟨hnodup, fun b => ⟨hreached b, ?_⟩, hhead, hparent⟩
  rintro ⟨l, hl⟩
  induction hl with
  | start => exact List.mem_of_mem_head? hhead
  | @step l u v _ e ih =>
    exact (hvisited v).mp (h.finished u (List.mem_reverse.mp ih) v e)

/-! Positions. -/

theorem indexFrom_of_not_mem (i : ℕ) {bs : List BlockId} (index : List ℕ) {b : BlockId} (hb : b ∉ bs) :
    (indexFrom i bs index)[b]? = index[b]? := by
  induction bs generalizing i index with
  | nil => rfl
  | cons c bs ih =>
    have hne : c ≠ b := fun heq => hb (heq ▸ List.mem_cons_self)
    rw [indexFrom, ih _ _ fun hmem => hb (List.mem_cons_of_mem _ hmem), List.getElem?_set_ne hne]

theorem indexFrom_getElem (i : ℕ) {bs : List BlockId} {index : List ℕ} (hnodup : bs.Nodup)
    (hlt : ∀ b ∈ bs, b < index.length) {j : ℕ} {b : BlockId} (hj : bs[j]? = some b) :
    (indexFrom i bs index)[b]? = some (i + j) := by
  induction bs generalizing i index j with
  | nil => exact absurd hj (by simp)
  | cons c bs ih =>
    obtain ⟨hc, hnodup⟩ := List.nodup_cons.mp hnodup
    rw [indexFrom]
    cases j with
    | zero =>
      obtain rfl := Option.some.inj hj
      rw [indexFrom_of_not_mem _ _ hc]
      exact List.getElem?_set_self (hlt c List.mem_cons_self)
    | succ j =>
      rw [ih (i + 1) hnodup (fun b hb => (List.length_set ..).symm ▸ hlt b (List.mem_cons_of_mem _ hb)) hj]
      congr 1
      omega

/-- Each listed block stands at its position. -/
structure Positions (rpo : List BlockId) (rpoIndex : List ℕ) : Prop where
  pos : ∀ j b, rpo[j]? = some b → position rpoIndex b = j

theorem Listed.positions {cfg : Cfg} {rpo : List BlockId} (h : Listed cfg rpo) :
    Positions rpo (indexFrom 0 rpo (List.replicate cfg.numBlocks UNDEFINED)) := by
  refine ⟨fun j b hj => ?_⟩
  have hlt : ∀ b ∈ rpo, b < (List.replicate cfg.numBlocks UNDEFINED).length := by
    intro b hb
    rw [List.length_replicate]
    exact Cfg.reached_lt ((h.mem_iff b).mp hb)
  unfold position
  rw [List.getD_eq_getElem?_getD, indexFrom_getElem 0 h.nodup hlt hj, Nat.zero_add]
  rfl

section Positions

variable {cfg : Cfg} {rpo : List BlockId} {rpoIndex : List ℕ} (h : Listed cfg rpo) (hp : Positions rpo rpoIndex)
include h hp

/-- The blocks after the entry are numbered along the listing. -/
theorem Listed.numbered : Numbered cfg.Edge cfg.entry (position rpoIndex) rpo.tail where
  sorted := by
    rw [List.pairwise_iff_getElem]
    intro i j hi hj hij
    rw [List.getElem_tail, List.getElem_tail]
    have hlen := List.length_tail ▸ hj
    rw [hp.pos (i + 1) _ (List.getElem?_eq_getElem (by omega)), hp.pos (j + 1) _ (List.getElem?_eq_getElem (by omega))]
    omega
  mem_iff b := by
    obtain ⟨t, ht⟩ := List.head?_eq_some_iff.mp h.head
    have hnodup := h.nodup
    rw [ht] at hnodup
    have hne := (List.nodup_cons.mp hnodup).1
    rw [← h.mem_iff, ht, List.tail_cons, List.mem_cons]
    constructor
    · intro hb
      exact ⟨Or.inr hb, fun heq => hne (heq ▸ hb)⟩
    · rintro ⟨rfl | hb, hb'⟩
      · exact absurd rfl hb'
      · exact hb
  pred b hb := by
    obtain ⟨t, ht⟩ := List.head?_eq_some_iff.mp h.head
    rw [ht, List.tail_cons] at hb
    obtain ⟨l, l', hsplit⟩ := List.append_of_mem hb
    have hnodup := h.nodup
    rw [ht] at hnodup
    have hne : b ≠ cfg.entry := fun heq => (List.nodup_cons.mp hnodup).1 (heq ▸ hb)
    have hrpo : rpo = (cfg.entry :: l) ++ b :: l' := by rw [ht, hsplit, List.cons_append]
    obtain ⟨p, e, hpl⟩ := h.parent _ b l' hrpo hne
    obtain ⟨j, hj⟩ := List.mem_iff_getElem?.mp hpl
    obtain ⟨hjlt, -⟩ := List.getElem?_eq_some_iff.mp hj
    have hposp : position rpoIndex p = j := by
      apply hp.pos
      rw [hrpo, List.getElem?_append_left hjlt]
      exact hj
    have hposb : position rpoIndex b = (cfg.entry :: l).length := by
      apply hp.pos
      rw [hrpo, List.getElem?_append_right le_rfl, Nat.sub_self]
      rfl
    refine ⟨p, e, (h.mem_iff p).mp ?_, by omega⟩
    rw [hrpo]
    exact List.mem_append_left _ hpl

theorem Listed.position_lt {b : BlockId} (hb : Reached cfg.Edge cfg.entry b) : position rpoIndex b < rpo.length := by
  obtain ⟨j, hj⟩ := List.mem_iff_getElem?.mp ((h.mem_iff b).mpr hb)
  rw [hp.pos j b hj]
  exact (List.getElem?_eq_some_iff.mp hj).1

theorem Listed.position_inj {b c : BlockId} (hb : Reached cfg.Edge cfg.entry b)
    (hc : Reached cfg.Edge cfg.entry c) (heq : position rpoIndex b = position rpoIndex c) : b = c := by
  obtain ⟨i, hi⟩ := List.mem_iff_getElem?.mp ((h.mem_iff b).mpr hb)
  obtain ⟨j, hj⟩ := List.mem_iff_getElem?.mp ((h.mem_iff c).mpr hc)
  rw [hp.pos i b hi, hp.pos j c hj] at heq
  rw [heq] at hi
  exact Option.some.inj (hi.symm.trans hj)

theorem Listed.position_entry : position rpoIndex cfg.entry = 0 :=
  hp.pos 0 cfg.entry (List.head?_eq_getElem? ▸ h.head)

end Positions

/-- The depth-first pass ends with a listing of the reached blocks and their positions. -/
theorem reverse_postorder_listed (cfg : Cfg) : ∃ N rpo rpoIndex, Listed cfg rpo ∧ Positions rpo rpoIndex ∧
    ∀ fuel, N ≤ fuel → reversePostorder cfg fuel = some (rpo, rpoIndex) := by
  obtain ⟨st, hrun, hwalk, hnil⟩ :=
    dfsLoop_total (dfsCost cfg (dfsStart cfg) + 1) walk_start (Nat.lt_succ_self (dfsCost cfg (dfsStart cfg)))
  have hlisted := hwalk.listed hnil
  refine ⟨dfsCost cfg (dfsStart cfg) + 1, _, _, hlisted, hlisted.positions, fun fuel hle => ?_⟩
  unfold reversePostorder
  rw [dfsLoop_mono hrun hle]
  rfl

end Karac.Flow
