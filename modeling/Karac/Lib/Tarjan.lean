import Mathlib

/-! Strongly connected components by depth-first search with low links, and the order of the result: an
edge leads into the same component or an earlier one. -/

namespace Karac.Lib.Tarjan

structure TarjanState (α : Type) where
  indexCounter : ℕ
  stack : List α
  index : α → Option ℕ
  lowlink : α → ℕ
  result : List (List α)

variable {α : Type}

def start : TarjanState α := ⟨0, [], fun _ => none, fun _ => 0, []⟩

section Algorithm

variable [DecidableEq α]

/-- Numbers a node and puts it on the stack. -/
def enter (v : α) (st : TarjanState α) : TarjanState α :=
  ⟨st.indexCounter + 1, v :: st.stack, Function.update st.index v (some st.indexCounter),
    Function.update st.lowlink v st.indexCounter, st.result⟩

def TarjanState.lower (st : TarjanState α) (v : α) (i : ℕ) : TarjanState α :=
  if i < st.lowlink v then { st with lowlink := Function.update st.lowlink v i } else st

/-- The edges of a node: a new target is visited first, one on the stack lowers the link by its index. -/
def edgeLoop (visit : α → TarjanState α → Option (TarjanState α)) (v : α) :
    List α → TarjanState α → Option (TarjanState α)
  | [], st => some st
  | w :: ws, st =>
    match st.index w with
    | none => (visit w st).bind fun st' => edgeLoop visit v ws (st'.lower v (st'.lowlink w))
    | some i => edgeLoop visit v ws (if w ∈ st.stack then st.lower v i else st)

/-- Pops the stack down to the node: what was popped, and the rest. -/
def popUntil (v : α) : List α → List α × List α
  | [] => ([], [])
  | w :: ws => if w = v then ([w], ws) else (w :: (popUntil v ws).1, (popUntil v ws).2)

variable (tidy : List α → List α)

/-- The root of a component pops it. -/
def finish (v : α) (st : TarjanState α) : TarjanState α :=
  if st.index v = some (st.lowlink v) then
    { st with stack := (popUntil v st.stack).2, result := st.result ++ [tidy (popUntil v st.stack).1] }
  else st

variable (graph : α → List α)

def strongconnect : ℕ → α → TarjanState α → Option (TarjanState α)
  | 0, _, _ => none
  | fuel + 1, v, st => (edgeLoop (strongconnect fuel) v (graph v) (enter v st)).map (finish tidy v)

def connectAll (fuel : ℕ) : List α → TarjanState α → Option (TarjanState α)
  | [], st => some st
  | v :: vs, st =>
    if (st.index v).isSome = true then connectAll fuel vs st
    else (strongconnect tidy graph fuel v st).bind fun st' => connectAll fuel vs st'

end Algorithm

variable (graph : α → List α)

/-- Edges lead into the same component or an earlier one. -/
def Ordered (comps : List (List α)) : Prop :=
  ∀ pre comp post, comps = pre ++ comp :: post → ∀ x ∈ comp, ∀ y ∈ graph x, y ∈ pre.flatten ∨ y ∈ comp

/-- The numbered nodes are those on the stack and those in components. -/
structure Inv (st : TarjanState α) : Prop where
  index_lt : ∀ x i, st.index x = some i → i < st.indexCounter
  visited : ∀ x, (st.index x).isSome = true ↔ x ∈ st.stack ∨ x ∈ st.result.flatten
  ordered : Ordered graph st.result

/-- A later state keeps numbers, links and components, and numbers new nodes higher. -/
structure Ext (st st' : TarjanState α) : Prop where
  index : ∀ x i, st.index x = some i → st'.index x = some i
  low : ∀ x i, st.index x = some i → st'.lowlink x = st.lowlink x
  counter : st.indexCounter ≤ st'.indexCounter
  fresh : ∀ x i, st.index x = none → st'.index x = some i → st.indexCounter ≤ i
  result : ∀ x, x ∈ st.result.flatten → x ∈ st'.result.flatten

/-- Where the edges of a node on the part `seg` of the stack lead: into a component, into the part, or to
a node below it numbered at least `low`. -/
def Leads (st st' : TarjanState α) (seg : List α) (low : ℕ) (x : α) : Prop :=
  x ∈ st'.result.flatten ∨ x ∈ seg ∨ (x ∈ st.stack ∧ ∃ i, st'.index x = some i ∧ low ≤ i)

/-- What a visit leaves: a part of new nodes on the stack, whose edges its link bounds. An empty part is a
component popped. -/
structure Visited (v : α) (st st' : TarjanState α) : Prop where
  inv : Inv graph st'
  ext : Ext st st'
  seen : (st'.index v).isSome = true
  part : ∃ seg, st'.stack = seg ++ st.stack ∧ (∀ y ∈ seg, st.index y = none) ∧
    (seg = [] ∧ st.indexCounter ≤ st'.lowlink v ∨ ∃ x ∈ st.stack, st'.index x = some (st'.lowlink v)) ∧
    ∀ y ∈ seg, ∀ x ∈ graph y, Leads st st' seg (st'.lowlink v) x

/-- The state while the edges of a node are gone through, the part `seg` above the node finished. -/
structure Open (v : α) (st : TarjanState α) (seg : List α) (cur : TarjanState α) : Prop where
  inv : Inv graph cur
  ext : Ext st cur
  stack : cur.stack = seg ++ v :: st.stack
  idx : cur.index v = some st.indexCounter
  fresh : ∀ y ∈ seg, st.index y = none
  not_mem : v ∉ seg
  low : cur.lowlink v = st.indexCounter ∨
    (cur.lowlink v < st.indexCounter ∧ ∃ x ∈ st.stack, cur.index x = some (cur.lowlink v))

/-- The edges of the part and those of the node in `done` are bounded by `low`. -/
structure Bounded (v : α) (st : TarjanState α) (done seg : List α) (cur : TarjanState α) (low : ℕ) : Prop where
  part : ∀ y ∈ seg, ∀ x ∈ graph y, Leads st cur (seg ++ [v]) low x
  edges : ∀ x ∈ done, Leads st cur (seg ++ [v]) low x

variable {graph}

theorem Ext.refl (st : TarjanState α) : Ext st st where
  index _ _ h := h
  low _ _ _ := rfl
  counter := le_rfl
  fresh x i h h' := absurd (h.symm.trans h') (by simp)
  result _ h := h

theorem Ext.trans {st st' st'' : TarjanState α} (h : Ext st st') (h' : Ext st' st'') : Ext st st'' where
  index x i hx := h'.index x i (h.index x i hx)
  low x i hx := (h'.low x i (h.index x i hx)).trans (h.low x i hx)
  counter := h.counter.trans h'.counter
  fresh x i hx hx' := by
    cases hmid : st'.index x with
    | none => exact h.counter.trans (h'.fresh x i hmid hx')
    | some j =>
      have := h.fresh x j hx hmid
      rw [h'.index x j hmid] at hx'
      rw [← Option.some.inj hx']
      exact this
  result x hx := h'.result x (h.result x hx)

theorem Inv.start : Inv graph (start : TarjanState α) where
  index_lt x i h := absurd h (by simp [Tarjan.start])
  visited x := by simp [Tarjan.start]
  ordered pre comp post h := absurd h (by simp [Tarjan.start])

theorem Inv.mem_stack {st : TarjanState α} (h : Inv graph st) {x : α} (hx : x ∈ st.stack) : ∃ i, st.index x = some i :=
  Option.isSome_iff_exists.mp ((h.visited x).mpr (Or.inl hx))

theorem Leads.mono {st st1 st2 : TarjanState α} (hext : Ext st1 st2) {seg seg' : List α} (hseg : seg ⊆ seg') {low low' : ℕ}
    (hlow : low' ≤ low) {x : α} (h : Leads st st1 seg low x) : Leads st st2 seg' low' x := by
  rcases h with h | h | ⟨h, i, hi, hle⟩
  · exact Or.inl (hext.result x h)
  · exact Or.inr (Or.inl (hseg h))
  · exact Or.inr (Or.inr ⟨h, i, hext.index x i hi, hlow.trans hle⟩)

theorem Open.low_le {v : α} {st cur : TarjanState α} {seg : List α} (h : Open graph v st seg cur) :
    cur.lowlink v ≤ st.indexCounter := by
  rcases h.low with heq | ⟨hlt, -⟩
  · exact heq.le
  · exact hlt.le

theorem Bounded.snoc {v : α} {st cur : TarjanState α} {done seg : List α} {low : ℕ} (h : Bounded graph v st done seg cur low) {w : α}
    (hw : Leads st cur (seg ++ [v]) low w) : Bounded graph v st (done ++ [w]) seg cur low := by
  refine ⟨h.part, fun x hx => ?_⟩
  rcases List.mem_append.mp hx with hx | hx
  · exact h.edges x hx
  · rw [List.mem_singleton.mp hx]
    exact hw

theorem Ordered.snoc {comps : List (List α)} (h : Ordered graph comps) {comp : List α}
    (hcomp : ∀ x ∈ comp, ∀ y ∈ graph x, y ∈ comps.flatten ∨ y ∈ comp) : Ordered graph (comps ++ [comp]) := by
  intro pre c post heq x hx y hy
  rcases List.eq_nil_or_concat post with rfl | ⟨post, last, rfl⟩
  · obtain ⟨rfl, hlast⟩ := List.append_inj' heq rfl
    obtain rfl := (List.cons.inj hlast).1
    exact hcomp x hx y hy
  · have hsplit : comps ++ [comp] = (pre ++ c :: post) ++ [last] := by
      simpa [List.concat_eq_append] using heq
    obtain ⟨hcomps, -⟩ := List.append_inj' hsplit rfl
    exact h pre c post hcomps x hx y hy

variable [DecidableEq α]

/-! Entering a node. -/

theorem enter_index_self (v : α) (st : TarjanState α) : (enter v st).index v = some st.indexCounter :=
  Function.update_self ..

theorem enter_index_of_ne {v x : α} (st : TarjanState α) (hx : x ≠ v) : (enter v st).index x = st.index x :=
  Function.update_of_ne hx ..

theorem Ext.enter {st : TarjanState α} {v : α} (hv : st.index v = none) : Ext st (enter v st) where
  index x i hx := by
    have hxv : x ≠ v := fun heq => absurd (hv.symm.trans (heq ▸ hx)) (by simp)
    rw [enter_index_of_ne st hxv]
    exact hx
  low x i hx := by
    have hxv : x ≠ v := fun heq => absurd (hv.symm.trans (heq ▸ hx)) (by simp)
    exact Function.update_of_ne hxv ..
  counter := Nat.le_succ _
  fresh x i hx hx' := by
    by_cases hxv : x = v
    · rw [hxv, enter_index_self] at hx'
      exact (Option.some.inj hx').le
    · rw [enter_index_of_ne st hxv, hx] at hx'
      exact absurd hx' (by simp)
  result x hx := hx

theorem Inv.enter {st : TarjanState α} (h : Inv graph st) {v : α} (hv : st.index v = none) :
    Open graph v st [] (Tarjan.enter v st) where
  inv := by
    refine ⟨fun x i hx => ?_, fun x => ?_, h.ordered⟩
    · by_cases hxv : x = v
      · rw [hxv, enter_index_self] at hx
        rw [← Option.some.inj hx]
        exact Nat.lt_succ_self _
      · rw [enter_index_of_ne st hxv] at hx
        exact (h.index_lt x i hx).trans (Nat.lt_succ_self _)
    · by_cases hxv : x = v
      · rw [hxv, enter_index_self]
        exact ⟨fun _ => Or.inl List.mem_cons_self, fun _ => rfl⟩
      · rw [enter_index_of_ne st hxv, h.visited x]
        exact or_congr_left (List.mem_cons.trans (or_iff_right hxv)).symm
  ext := Ext.enter hv
  stack := rfl
  idx := enter_index_self v st
  fresh y hy := absurd hy List.not_mem_nil
  not_mem := List.not_mem_nil
  low := Or.inl (Function.update_self ..)

/-! Lowering the link of the open node. -/

theorem lower_lowlink (st : TarjanState α) (v : α) (i : ℕ) : (st.lower v i).lowlink v = min (st.lowlink v) i := by
  unfold TarjanState.lower
  split
  · exact (Function.update_self ..).trans (Nat.min_eq_right (by omega)).symm
  · omega

theorem lower_lowlink_of_ne (st : TarjanState α) {v x : α} (i : ℕ) (hx : x ≠ v) :
    (st.lower v i).lowlink x = st.lowlink x := by
  unfold TarjanState.lower
  split
  · exact Function.update_of_ne hx ..
  · rfl

theorem lower_eq (st : TarjanState α) (v : α) (i : ℕ) : (st.lower v i).stack = st.stack ∧
    (st.lower v i).index = st.index ∧ (st.lower v i).result = st.result ∧
    (st.lower v i).indexCounter = st.indexCounter := by
  unfold TarjanState.lower
  split <;> exact ⟨rfl, rfl, rfl, rfl⟩

section Lower

variable {v : α} {st cur : TarjanState α} {done seg : List α}

/-- The link may be lowered to the number of a node below. -/
theorem Open.lower (h : Open graph v st seg cur) (hv : st.index v = none) {i : ℕ}
    (hi : i < cur.lowlink v → i < st.indexCounter ∧ ∃ x ∈ st.stack, cur.index x = some i) :
    Open graph v st seg (cur.lower v i) := by
  obtain ⟨hstack, hindex, hresult, hcounter⟩ := lower_eq cur v i
  have hlow := lower_lowlink cur v i
  refine ⟨⟨?_, ?_, ?_⟩, ⟨?_, ?_, ?_, ?_, ?_⟩, hstack.trans h.stack, ?_, h.fresh, h.not_mem, ?_⟩
  · rw [hindex, hcounter]
    exact h.inv.index_lt
  · rw [hindex, hstack, hresult]
    exact h.inv.visited
  · rw [hresult]
    exact h.inv.ordered
  · rw [hindex]
    exact h.ext.index
  · intro x j hx
    have hxv : x ≠ v := fun heq => absurd (hv.symm.trans (heq ▸ hx)) (by simp)
    rw [lower_lowlink_of_ne _ _ hxv]
    exact h.ext.low x j hx
  · rw [hcounter]
    exact h.ext.counter
  · rw [hindex]
    exact h.ext.fresh
  · rw [hresult]
    exact h.ext.result
  · rw [hindex]
    exact h.idx
  · rw [hlow, hindex]
    by_cases hlt : i < cur.lowlink v
    · rw [Nat.min_eq_right hlt.le]
      exact Or.inr (hi hlt)
    · rw [Nat.min_eq_left (by omega)]
      exact h.low

theorem Bounded.lower {low low' : ℕ} (h : Bounded graph v st done seg cur low) (hle : low' ≤ low) (i : ℕ) :
    Bounded graph v st done seg (cur.lower v i) low' := by
  obtain ⟨-, hindex, hresult, -⟩ := lower_eq cur v i
  have hleads : ∀ x, Leads st cur (seg ++ [v]) low x → Leads st (cur.lower v i) (seg ++ [v]) low' x := by
    rintro x (hx | hx | ⟨hx, j, hj, hlej⟩)
    · exact Or.inl (hresult ▸ hx)
    · exact Or.inr (Or.inl hx)
    · exact Or.inr (Or.inr ⟨hx, j, hindex ▸ hj, hle.trans hlej⟩)
  exact ⟨fun y hy x hx => hleads x (h.part y hy x hx), fun x hx => hleads x (h.edges x hx)⟩

/-- A target already numbered. -/
theorem Open.seen (h : Open graph v st seg cur) (hb : Bounded graph v st done seg cur (cur.lowlink v))
    (hv : st.index v = none) {w : α} {i : ℕ} (hw : cur.index w = some i) :
    ∃ cur', cur' = (if w ∈ cur.stack then cur.lower v i else cur) ∧ Open graph v st seg cur' ∧
      Bounded graph v st (done ++ [w]) seg cur' (cur'.lowlink v) := by
  by_cases hmem : w ∈ cur.stack
  · refine ⟨_, (if_pos hmem).symm, ?_, ?_⟩
    · refine h.lower hv fun hlt => ?_
      have hle := h.low_le
      refine ⟨by omega, w, ?_, hw⟩
      rw [h.stack] at hmem
      rcases List.mem_append.mp hmem with hmem | hmem
      · have := h.ext.fresh w i (h.fresh w hmem) hw
        omega
      · rcases List.mem_cons.mp hmem with rfl | hmem
        · rw [h.idx] at hw
          have := Option.some.inj hw
          omega
        · exact hmem
    · have hlow := lower_lowlink cur v i
      refine (hb.lower (by omega) i).snoc ?_
      rw [h.stack] at hmem
      rcases List.mem_append.mp hmem with hmem | hmem
      · exact Or.inr (Or.inl (List.mem_append_left _ hmem))
      · rcases List.mem_cons.mp hmem with rfl | hmem
        · exact Or.inr (Or.inl (by simp))
        · exact Or.inr (Or.inr ⟨hmem, i, (lower_eq cur v i).2.1 ▸ hw, by omega⟩)
  · refine ⟨_, (if_neg hmem).symm, h, hb.snoc (Or.inl ?_)⟩
    exact ((h.inv.visited w).mp (by rw [hw]; rfl)).resolve_left hmem

/-- A target visited from here. -/
theorem Open.visit (h : Open graph v st seg cur) (hb : Bounded graph v st done seg cur (cur.lowlink v))
    (hv : st.index v = none) {w : α} (hwn : cur.index w = none) {cur' : TarjanState α}
    (hvis : Visited graph w cur cur') :
    ∃ seg', Open graph v st seg' (cur'.lower v (cur'.lowlink w)) ∧
      Bounded graph v st (done ++ [w]) seg' (cur'.lower v (cur'.lowlink w))
        ((cur'.lower v (cur'.lowlink w)).lowlink v) := by
  obtain ⟨seg', hstack, hfresh, hlow, hedges⟩ := hvis.part
  have hlowv : cur'.lowlink v = cur.lowlink v := hvis.ext.low v _ h.idx
  have hle := h.low_le
  have hmin := lower_lowlink cur' v (cur'.lowlink w)
  have hsub : seg ++ [v] ⊆ (seg' ++ seg) ++ [v] := by
    rw [List.append_assoc]
    exact List.subset_append_right _ _
  -- What was on the stack is in the part, is the node itself, or is below.
  have hold : ∀ x ∈ cur.stack, x ∈ (seg' ++ seg) ++ [v] ∨ x ∈ st.stack := by
    intro x hx
    rw [h.stack] at hx
    rcases List.mem_append.mp hx with hx | hx
    · exact Or.inl (hsub (List.mem_append_left _ hx))
    · rcases List.mem_cons.mp hx with rfl | hx
      · exact Or.inl (by simp)
      · exact Or.inr hx
  have hopen : Open graph v st (seg' ++ seg) cur' := by
    refine ⟨hvis.inv, h.ext.trans hvis.ext, ?_, hvis.ext.index v _ h.idx, fun y hy => ?_, fun hmem => ?_, ?_⟩
    · rw [hstack, h.stack, List.append_assoc]
    · rcases List.mem_append.mp hy with hy | hy
      · by_contra hne
        obtain ⟨i, hi⟩ := Option.ne_none_iff_exists'.mp hne
        exact absurd ((h.ext.index y i hi).symm.trans (hfresh y hy)) (by simp)
      · exact h.fresh y hy
    · rcases List.mem_append.mp hmem with hmem | hmem
      · exact absurd (h.idx.symm.trans (hfresh v hmem)) (by simp)
      · exact h.not_mem hmem
    · rw [hlowv]
      refine h.low.imp_right fun hlt => ⟨hlt.1, ?_⟩
      obtain ⟨x, hx, hxi⟩ := hlt.2
      exact ⟨x, hx, hvis.ext.index x _ hxi⟩
  have hbound : Bounded graph v st (done ++ [w]) (seg' ++ seg) cur' (min (cur'.lowlink v) (cur'.lowlink w)) := by
    refine ⟨fun y hy x hx => ?_, fun x hx => ?_⟩
    · rcases List.mem_append.mp hy with hy | hy
      · rcases hedges y hy x hx with hx | hx | ⟨hx, i, hi, hlei⟩
        · exact Or.inl hx
        · exact Or.inr (Or.inl (List.mem_append_left _ (List.mem_append_left _ hx)))
        · rcases hold x hx with hx | hx
          · exact Or.inr (Or.inl hx)
          · exact Or.inr (Or.inr ⟨hx, i, hi, (Nat.min_le_right ..).trans hlei⟩)
      · exact (hb.part y hy x hx).mono hvis.ext hsub (by omega)
    · rcases List.mem_append.mp hx with hx | hx
      · exact (hb.edges x hx).mono hvis.ext hsub (by omega)
      · rw [List.mem_singleton.mp hx]
        rcases (hvis.inv.visited w).mp hvis.seen with hw | hw
        · rw [hstack] at hw
          rcases List.mem_append.mp hw with hw | hw
          · exact Or.inr (Or.inl (List.mem_append_left _ (List.mem_append_left _ hw)))
          · obtain ⟨i, hi⟩ := h.inv.mem_stack hw
            exact absurd (hwn.symm.trans hi) (by simp)
        · exact Or.inl hw
  refine ⟨seg' ++ seg, hopen.lower hv fun hlt => ?_, (hbound.lower (by omega) _)⟩
  rcases hlow with ⟨-, hge⟩ | ⟨x, hx, hxi⟩
  · have := h.inv.index_lt v _ h.idx
    omega
  · refine ⟨by omega, x, ?_, hxi⟩
    rw [h.stack] at hx
    rcases List.mem_append.mp hx with hx | hx
    · have := hopen.ext.fresh x _ (h.fresh x hx) hxi
      omega
    · rcases List.mem_cons.mp hx with rfl | hx
      · rw [hopen.idx] at hxi
        have := Option.some.inj hxi
        omega
      · exact hx

end Lower

/-! Leaving a node. -/

theorem popUntil_append (v : α) {seg : List α} (hv : v ∉ seg) (s : List α) :
    popUntil v (seg ++ v :: s) = (seg ++ [v], s) := by
  induction seg with
  | nil => rw [List.nil_append, popUntil, if_pos rfl, List.nil_append]
  | cons w seg ih =>
    have hne : w ≠ v := fun heq => hv (heq ▸ List.mem_cons_self)
    rw [List.cons_append, popUntil, if_neg hne, ih fun hmem => hv (List.mem_cons_of_mem _ hmem), List.cons_append]

theorem Open.finish {tidy : List α → List α} (htidy : ∀ l x, x ∈ tidy l ↔ x ∈ l) {v : α} {st cur : TarjanState α}
    {seg : List α} (h : Open graph v st seg cur) (hst : Inv graph st) (hv : st.index v = none)
    (hb : Bounded graph v st (graph v) seg cur (cur.lowlink v)) : Visited graph v st (finish tidy v cur) := by
  unfold Tarjan.finish
  have hedges : ∀ y ∈ seg ++ [v], ∀ x ∈ graph y, Leads st cur (seg ++ [v]) (cur.lowlink v) x := by
    intro y hy x hx
    rcases List.mem_append.mp hy with hy | hy
    · exact hb.part y hy x hx
    · rw [List.mem_singleton.mp hy] at hx
      exact hb.edges x hx
  split
  · rename_i hroot
    rw [h.idx] at hroot
    have hlow : cur.lowlink v = st.indexCounter := (Option.some.inj hroot).symm
    rw [h.stack, popUntil_append v h.not_mem]
    have hflat : ∀ x, x ∈ (cur.result ++ [tidy (seg ++ [v])]).flatten ↔ x ∈ cur.result.flatten ∨ x ∈ seg ++ [v] := by
      intro x
      rw [List.flatten_append, List.mem_append, List.flatten_singleton, htidy]
    have hleads : ∀ y ∈ tidy (seg ++ [v]), ∀ x ∈ graph y, x ∈ cur.result.flatten ∨ x ∈ tidy (seg ++ [v]) := by
      intro y hy x hx
      rcases hedges y ((htidy _ y).mp hy) x hx with hx | hx | ⟨hx, i, hi, hlei⟩
      · exact Or.inl hx
      · exact Or.inr ((htidy _ x).mpr hx)
      · obtain ⟨j, hj⟩ := hst.mem_stack hx
        have hlt := hst.index_lt x j hj
        rw [h.ext.index x j hj] at hi
        have := Option.some.inj hi
        omega
    refine ⟨⟨h.inv.index_lt, fun x => ?_, h.inv.ordered.snoc hleads⟩, ⟨h.ext.index, h.ext.low, h.ext.counter,
      h.ext.fresh, fun x hx => (hflat x).mpr (Or.inl (h.ext.result x hx))⟩, by rw [h.idx]; rfl, [], rfl,
      fun y hy => absurd hy List.not_mem_nil, Or.inl ⟨rfl, hlow.ge⟩, fun y hy => absurd hy List.not_mem_nil⟩
    rw [hflat, h.inv.visited x, h.stack]
    simp only [List.mem_append, List.mem_cons, List.not_mem_nil, or_false]
    tauto
  · rename_i hroot
    refine ⟨h.inv, h.ext, by rw [h.idx]; rfl, seg ++ [v], ?_, fun y hy => ?_, Or.inr ?_, hedges⟩
    · rw [h.stack, List.append_assoc, List.singleton_append]
    · rcases List.mem_append.mp hy with hy | hy
      · exact h.fresh y hy
      · rw [List.mem_singleton.mp hy]
        exact hv
    · rcases h.low with heq | ⟨-, hbelow⟩
      · rw [h.idx, heq] at hroot
        exact absurd rfl hroot
      · exact hbelow

end Karac.Lib.Tarjan
