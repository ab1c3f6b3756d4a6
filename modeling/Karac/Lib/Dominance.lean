import Mathlib

/-! Dominance in a directed graph with a root, and the parent functions that approximate it. A
parent function starts at the root, keeps every dominator of a node among its ancestors, and is moved
up one node at a time; where no node moves any more, the ancestors are the dominators. -/

namespace Karac.Lib.Dominance

variable {α : Type} (E : α → α → Prop) (r : α)

/-- A path from the root, the last node first. -/
inductive PathTo : List α → α → Prop
  | start : PathTo [r] r
  | step {l : List α} {u v : α} (h : PathTo l u) (e : E u v) : PathTo (v :: l) v

/-- Some path from the root ends in the node. -/
def Reached (v : α) : Prop := ∃ l, PathTo E r l v

/-- `a` lies on every path from the root to `b`. -/
def Dominates (a b : α) : Prop := ∀ l, PathTo E r l b → a ∈ l

variable {E r}

theorem PathTo.last_mem {l : List α} {v : α} (h : PathTo E r l v) : v ∈ l := by
  cases h with
  | start => exact List.mem_singleton.mpr rfl
  | step h e => exact List.mem_cons_self

theorem reached_root : Reached E r r := ⟨[r], PathTo.start⟩

theorem Reached.step {u v : α} (h : Reached E r u) (e : E u v) : Reached E r v := by
  obtain ⟨l, hl⟩ := h
  exact ⟨v :: l, hl.step e⟩

theorem Dominates.refl (a : α) : Dominates E r a a := fun _ h => h.last_mem

/-- Another node that dominates a node dominates what stands before it on a path. -/
theorem Dominates.pred {x u v : α} (h : Dominates E r x v) (hne : x ≠ v) (e : E u v) : Dominates E r x u := by
  intro l hl
  rcases List.mem_cons.mp (h _ (hl.step e)) with rfl | hx
  · exact absurd rfl hne
  · exact hx

/-- A path from the root goes on along edges that avoid a node. -/
theorem PathTo.extend {x b c : α} {l : List α} (h : PathTo E r l b) (hx : x ∉ l)
    (hbc : Relation.ReflTransGen (fun u v => E u v ∧ v ≠ x) b c) : ∃ l', PathTo E r l' c ∧ x ∉ l' := by
  induction hbc with
  | refl => exact ⟨l, h, hx⟩
  | tail _ e ih =>
    obtain ⟨l', hl', hx'⟩ := ih
    refine ⟨_ :: l', hl'.step e.1, fun hmem => ?_⟩
    rcases List.mem_cons.mp hmem with rfl | hmem
    · exact e.2 rfl
    · exact hx' hmem

/-- The beginning of a path. -/
theorem PathTo.initial {m : List α} {b v : α} {l : List α} (h : PathTo E r (m ++ b :: l) v) :
    PathTo E r (b :: l) b := by
  induction m generalizing v with
  | nil =>
    cases h with
    | start => exact PathTo.start
    | step h e => exact h.step e
  | cons y m ih =>
    rw [List.cons_append] at h
    generalize hl : m ++ b :: l = l' at h
    cases h with
    | start => exact absurd hl (by simp)
    | step h _ => exact ih (hl ▸ h)

theorem PathTo.upTo {l : List α} {b v : α} (h : PathTo E r l v) (hb : b ∈ l) : ∃ l', PathTo E r l' b ∧ l' ⊆ l := by
  obtain ⟨m, l', rfl⟩ := List.append_of_mem hb
  exact ⟨b :: l', h.initial, List.subset_append_right _ _⟩

/-- The rest of a path, through nodes with a property. -/
theorem PathTo.segment {P : α → Prop} {m : List α} {y b v : α} {l : List α} (h : PathTo E r (y :: m ++ b :: l) v)
    (hP : ∀ z ∈ y :: m, P z) : Relation.TransGen (fun u w => E u w ∧ P w) b v := by
  induction m generalizing y v with
  | nil =>
    cases h with
    | step h e =>
      cases h with
      | start => exact Relation.TransGen.single ⟨e, hP _ List.mem_cons_self⟩
      | step _ _ => exact Relation.TransGen.single ⟨e, hP _ List.mem_cons_self⟩
  | cons z m ih =>
    rw [List.cons_append] at h
    generalize hl : z :: m ++ b :: l = l' at h
    cases h with
    | start => exact absurd hl (by simp)
    | step h e => exact (ih (hl ▸ h) fun w hw => hP w (List.mem_cons_of_mem _ hw)).tail ⟨e, hP _ List.mem_cons_self⟩

theorem Dominates.antisymm {a b : α} (hr : Reached E r b) (hab : Dominates E r a b) (hba : Dominates E r b a) :
    a = b := by
  by_contra hne
  -- Neither node can be the first of the two on a path.
  have hnone : ∀ l v, PathTo E r l v → a ∉ l ∧ b ∉ l := by
    intro l v hl
    induction hl with
    | start =>
      refine ⟨fun ha => ?_, fun hb => ?_⟩
      · obtain rfl := List.mem_singleton.mp ha
        exact hne (List.mem_singleton.mp (hba [a] PathTo.start)).symm
      · obtain rfl := List.mem_singleton.mp hb
        exact hne (List.mem_singleton.mp (hab [b] PathTo.start))
    | @step l u v hl e ih =>
      refine ⟨fun ha => ?_, fun hb => ?_⟩
      · rcases List.mem_cons.mp ha with rfl | ha
        · rcases List.mem_cons.mp (hba _ (hl.step e)) with hb | hb
          · exact hne hb.symm
          · exact ih.2 hb
        · exact ih.1 ha
      · rcases List.mem_cons.mp hb with rfl | hb
        · rcases List.mem_cons.mp (hab _ (hl.step e)) with ha | ha
          · exact hne ha
          · exact ih.1 ha
        · exact ih.2 hb
  obtain ⟨l, hl⟩ := hr
  exact (hnone l b hl).2 hl.last_mem

/-- The rest of a path, from one of its nodes on. -/
theorem PathTo.final {m : List α} {b v : α} {l : List α} (h : PathTo E r (m ++ b :: l) v) : PathTo E b (m ++ [b]) v := by
  induction m generalizing v with
  | nil =>
    cases h with
    | start => exact PathTo.start
    | step _ _ => exact PathTo.start
  | cons y m ih =>
    rw [List.cons_append] at h
    generalize hl : m ++ b :: l = l' at h
    cases h with
    | start => exact absurd hl (by simp)
    | step h e => exact (ih (hl ▸ h)).step e

/-- The piece of a path from the last visit of one node to the next visit of another. -/
theorem PathTo.between {l : List α} {c u : α} (h : PathTo E r l u) (hc : c ∈ l) (hne : c ≠ u) :
    ∃ m, PathTo E c (u :: (m ++ [c])) u ∧ c ∉ m ∧ u ∉ m ∧ m ⊆ l := by
  obtain ⟨m, l', rfl, hcm⟩ := List.eq_append_cons_of_mem hc
  have hfinal := h.final
  have hu : u ∈ m := (List.mem_append.mp hfinal.last_mem).resolve_right fun hu => hne (List.mem_singleton.mp hu).symm
  obtain ⟨m2, m1, hm, hum⟩ := List.eq_append_cons_of_mem (List.mem_reverse.mpr hu)
  obtain rfl : m = m1.reverse ++ u :: m2.reverse := by
    rw [← List.reverse_reverse m, hm]
    simp
  rw [List.append_assoc, List.cons_append] at hfinal
  refine ⟨m2.reverse, hfinal.initial, fun hmem => hcm ?_, fun hmem => hum (List.mem_reverse.mp hmem), fun x hx => ?_⟩
  · exact List.mem_append_right _ (List.mem_cons_of_mem u hmem)
  · exact List.mem_append_left _ (List.mem_append_right _ (List.mem_cons_of_mem u hx))

/-- A node that does not come between in the dominance order can be avoided between. -/
theorem exists_avoiding {c u x : α} (hu : Reached E r u) (hcu : Dominates E r c u) (hne : c ≠ u)
    (hx : ¬ (Dominates E r c x ∧ Dominates E r x u)) :
    ∃ m, PathTo E c (u :: (m ++ [c])) u ∧ c ∉ m ∧ u ∉ m ∧ x ∉ m := by
  by_cases hxu : Dominates E r x u
  · obtain ⟨q, hq, hcq⟩ : ∃ q, PathTo E r q x ∧ c ∉ q := by
      by_contra hall
      push Not at hall
      exact hx ⟨hall, hxu⟩
    obtain ⟨l, hl⟩ := hu
    obtain ⟨m, hm, hcm, hum, -⟩ := hl.between (hcu l hl) hne
    refine ⟨m, hm, hcm, hum, fun hxm => ?_⟩
    -- Going on from `x` the path would reach `u` past `c`.
    obtain ⟨m1, m2, rfl⟩ := List.append_of_mem hxm
    rw [List.append_assoc, List.cons_append, ← List.cons_append] at hm
    have hrest : Relation.TransGen (fun v w => E v w ∧ w ≠ c) x u := by
      refine hm.segment fun z hz => ?_
      rcases List.mem_cons.mp hz with rfl | hz
      · exact hne.symm
      · rintro rfl
        exact hcm (List.mem_append_left _ hz)
    obtain ⟨l', hl', hcl'⟩ := hq.extend hcq hrest.to_reflTransGen
    exact hcl' (hcu l' hl')
  · obtain ⟨l, hl, hxl⟩ : ∃ l, PathTo E r l u ∧ x ∉ l := by
      by_contra hall
      push Not at hall
      exact hxu hall
    obtain ⟨m, hm, hcm, hum, hsub⟩ := hl.between (hcu l hl) hne
    exact ⟨m, hm, hcm, hum, fun hxm => hxl (hsub hxm)⟩

/-! Paths with a bounded number of edges that do not go up in the numbering. -/

section Within

variable (E r) (ρ : α → ℕ)

inductive Within : ℕ → List α → α → Prop
  | start (k : ℕ) : Within k [r] r
  | forward {k : ℕ} {l : List α} {u v : α} (h : Within k l u) (e : E u v) (hlt : ρ u < ρ v) :
      Within k (v :: l) v
  | retreat {k : ℕ} {l : List α} {u v : α} (h : Within k l u) (e : E u v) : Within (k + 1) (v :: l) v

/-- `x` lies on every path to `b` with at most `k` retreating edges. -/
def DominatesWithin (k : ℕ) (x b : α) : Prop := ∀ l, Within E r ρ k l b → x ∈ l

variable {E r ρ}

theorem Within.mono {k k' : ℕ} {l : List α} {v : α} (h : Within E r ρ k l v) (hk : k ≤ k') :
    Within E r ρ k' l v := by
  induction h generalizing k' with
  | start k => exact Within.start k'
  | forward _ e hlt ih => exact (ih hk).forward e hlt
  | retreat _ e ih =>
    obtain ⟨k', rfl⟩ : ∃ k'', k' = k'' + 1 := ⟨k' - 1, by omega⟩
    exact (ih (by omega)).retreat e

theorem DominatesWithin.mono {k k' : ℕ} {x b : α} (h : DominatesWithin E r ρ k' x b) (hk : k ≤ k') :
    DominatesWithin E r ρ k x b := fun l hl => h l (hl.mono hk)

/-- Up to any node on it, the path has no more retreating edges. -/
theorem Within.initial {k : ℕ} {l : List α} {v b : α} (h : Within E r ρ k l v) (hb : b ∈ l) :
    ∃ l', Within E r ρ k l' b ∧ l' ⊆ l := by
  induction h with
  | start k =>
    obtain rfl := List.mem_singleton.mp hb
    exact ⟨[b], Within.start k, List.Subset.refl _⟩
  | @forward k l u v h e hlt ih =>
    rcases List.mem_cons.mp hb with rfl | hb
    · exact ⟨b :: l, h.forward e hlt, List.Subset.refl _⟩
    · obtain ⟨l', hl', hsub⟩ := ih hb
      exact ⟨l', hl', fun y hy => List.mem_cons_of_mem _ (hsub hy)⟩
  | @retreat k l u v h e ih =>
    rcases List.mem_cons.mp hb with rfl | hb
    · exact ⟨b :: l, h.retreat e, List.Subset.refl _⟩
    · obtain ⟨l', hl', hsub⟩ := ih hb
      exact ⟨l', hl'.mono (by omega), fun y hy => List.mem_cons_of_mem _ (hsub hy)⟩

theorem PathTo.within {l : List α} {v : α} (h : PathTo E r l v) : Within E r ρ l.length l v := by
  induction h with
  | start => exact Within.start _
  | step _ e ih => exact ih.retreat e

/-- On finitely many nodes some number of retreating edges tells dominance. -/
theorem exists_bound (S : Finset α) :
    ∃ K, ∀ x ∈ S, ∀ b ∈ S, DominatesWithin E r ρ K x b → Dominates E r x b := by
  classical
  have hpair : ∀ x b : α, ∃ K, DominatesWithin E r ρ K x b → Dominates E r x b := by
    intro x b
    by_cases hdom : Dominates E r x b
    · exact ⟨0, fun _ => hdom⟩
    · unfold Dominates at hdom
      push Not at hdom
      obtain ⟨l, hl, hx⟩ := hdom
      exact ⟨l.length, fun h => absurd (h l hl.within) hx⟩
  choose bound hbound using hpair
  refine ⟨(S ×ˢ S).sup fun p => bound p.1 p.2, fun x hx b hb h => hbound x b (h.mono ?_)⟩
  have hmem : (x, b) ∈ S ×ˢ S := Finset.mem_product.mpr ⟨hx, hb⟩
  exact Finset.le_sup (f := fun p : α × α => bound p.1 p.2) hmem

end Within

/-! Parent functions. -/

/-- The ancestors of a node, itself included. -/
def Anc (up : α → Option α) : α → α → Prop := Relation.ReflTransGen fun c d => up c = some d

/-- Every assigned node but the root has its parent lower in the numbering and reaches from it through
higher nodes, and all dominators of an assigned node are ancestors. -/
structure Parents (E : α → α → Prop) (r : α) (ρ : α → ℕ) (up : α → Option α) : Prop where
  root : up r = some r
  reached : ∀ b d, up b = some d → Reached E r b
  assigned : ∀ b d, up b = some d → (up d).isSome = true
  rank : ∀ b d, up b = some d → b ≠ r → ρ d < ρ b
  segment : ∀ b d, up b = some d → b ≠ r → Relation.ReflTransGen (fun u v => E u v ∧ ρ d < ρ v) d b
  keeps : ∀ c x, (up c).isSome = true → Dominates E r x c → Anc up c x

/-- Between parent functions that differ at one node only, a chain is kept or passes through that node. -/
theorem anc_agree {up up' : α → Option α} {b c x : α} (hag : ∀ y, y ≠ b → up' y = up y) (hx : Anc up c x) :
    Anc up' c x ∨ (Anc up c b ∧ Anc up' c b ∧ ∃ d, up b = some d ∧ Anc up d x) := by
  induction hx with
  | refl => exact Or.inl Relation.ReflTransGen.refl
  | @tail y z hy hstep ih =>
    rcases ih with ih | ⟨h1, h2, d, hd, hdy⟩
    · by_cases hyb : y = b
      · rw [hyb] at hy ih hstep
        exact Or.inr ⟨hy, ih, z, hstep, Relation.ReflTransGen.refl⟩
      · exact Or.inl (ih.tail ((hag y hyb).trans hstep))
    · exact Or.inr ⟨h1, h2, d, hd, hdy.tail hstep⟩

section Ancestors

variable {ρ : α → ℕ} {up : α → Option α} (h : Parents E r ρ up)
include h

theorem Parents.anc_root {x : α} (hx : Anc up r x) : x = r := by
  induction hx with
  | refl => rfl
  | tail _ hstep ih =>
    rw [ih, h.root] at hstep
    exact (Option.some.inj hstep).symm

theorem Parents.anc_assigned {c x : α} (hc : (up c).isSome = true) (hx : Anc up c x) : (up x).isSome = true := by
  induction hx with
  | refl => exact hc
  | tail _ hstep _ => exact h.assigned _ _ hstep

theorem Parents.anc_rank {c x : α} (hx : Anc up c x) : ρ x ≤ ρ c := by
  induction hx with
  | refl => exact le_rfl
  | @tail y z _ hstep ih =>
    by_cases hr : y = r
    · rw [hr, h.root] at hstep
      rw [← Option.some.inj hstep, ← hr]
      exact ih
    · exact (h.rank _ _ hstep hr).le.trans ih

/-- Two ancestors of each other are one node. -/
theorem Parents.anc_antisymm {c x : α} (hx : Anc up c x) (hc : Anc up x c) : c = x := by
  rcases Relation.ReflTransGen.cases_head hx with rfl | ⟨d, hd, hdx⟩
  · rfl
  · by_cases hr : c = r
    · subst hr
      exact (h.anc_root hx).symm
    · have h1 := h.rank _ _ hd hr
      have h2 := h.anc_rank hdx
      have h3 := h.anc_rank hc
      omega

/-- From an ancestor the node is reached through higher nodes. -/
theorem Parents.anc_path {c d : α} (hd : Anc up c d) :
    Relation.ReflTransGen (fun u v => E u v ∧ ρ d < ρ v) d c := by
  induction hd using Relation.ReflTransGen.head_induction_on with
  | refl => exact Relation.ReflTransGen.refl
  | @head c c' hstep hrest ih =>
    by_cases hr : c = r
    · rw [hr, h.root] at hstep
      obtain rfl := Option.some.inj hstep
      rw [hr]
      exact ih
    · have hle := h.anc_rank hrest
      refine ih.trans ((h.segment _ _ hstep hr).lift id fun u v e => ⟨e.1, ?_⟩)
      exact hle.trans_lt e.2

end Ancestors

/-- `m` is the nearest common ancestor of the assigned predecessors of `b`. -/
structure Meets (E : α → α → Prop) (up : α → Option α) (b m : α) : Prop where
  common : ∀ p, E p b → (up p).isSome = true → Anc up p m
  nearest : ∀ x, (∀ p, E p b → (up p).isSome = true → Anc up p x) → Anc up m x

section Meets

variable {ρ : α → ℕ} {up : α → Option α} {b m : α} (h : Parents E r ρ up) (hm : Meets E up b m)
include h hm

theorem Meets.anc_of_dominates {x : α} (hne : x ≠ b) (hdom : Dominates E r x b) : Anc up m x := by
  apply hm.nearest
  intro p e hp
  exact h.keeps p x hp (hdom.pred hne e)

theorem Meets.rank_lt (hfw : ∃ p, E p b ∧ (up p).isSome = true ∧ ρ p < ρ b) : ρ m < ρ b := by
  obtain ⟨p, e, hp, hlt⟩ := hfw
  exact (h.anc_rank (hm.common p e hp)).trans_lt hlt

end Meets

section Update

variable [DecidableEq α] {ρ : α → ℕ} {up : α → Option α} {b m : α}

/-- Up from a node lower than the moved one, nothing changes. -/
theorem Parents.anc_update_of_lt (h : Parents E r ρ up) {c x : α} (hx : Anc up c x) (hlt : ρ c < ρ b) :
    Anc (Function.update up b (some m)) c x := by
  induction hx with
  | refl => exact Relation.ReflTransGen.refl
  | @tail y z hy hstep ih =>
    refine ih.tail ?_
    have hne : y ≠ b := by
      rintro rfl
      exact absurd (h.anc_rank hy) (by omega)
    rw [Function.update_of_ne hne]
    exact hstep

/-- What dominates a node and stands above another on its chain dominates that one too. -/
theorem Parents.dominates_between (h : Parents E r ρ up) {c x : α} (hcb : Anc up c b) (hlt : ρ x < ρ b)
    (hdom : Dominates E r x c) : Dominates E r x b := by
  intro l hl
  by_contra hx
  have hpath : Relation.ReflTransGen (fun u v => E u v ∧ v ≠ x) b c := by
    refine (h.anc_path hcb).lift id fun u v e => ⟨e.1, ?_⟩
    rintro rfl
    exact absurd (hlt.trans e.2) (lt_irrefl _)
  obtain ⟨l', hl', hx'⟩ := hl.extend hx hpath
  exact hx' (hdom l' hl')

variable (h : Parents E r ρ up) (hm : Meets E up b m) (hb : b ≠ r)
  (hfw : ∃ p, E p b ∧ (up p).isSome = true ∧ ρ p < ρ b)
include h hm hfw

/-- A dominator of the moved node stays on its chain. -/
theorem Meets.keeps_moved {x : α} (hdom : Dominates E r x b) : Anc (Function.update up b (some m)) b x := by
  by_cases hne : x = b
  · rw [hne]
    exact Relation.ReflTransGen.refl
  · refine Relation.ReflTransGen.head (Function.update_self b (some m) up) ?_
    exact h.anc_update_of_lt (hm.anc_of_dominates h hne hdom) (hm.rank_lt h hfw)

include hb

/-- Moving one node to the nearest common ancestor of its predecessors keeps the invariant. -/
theorem Parents.update : Parents E r ρ (Function.update up b (some m)) where
  root := by rw [Function.update_of_ne (Ne.symm hb), h.root]
  reached c d hc := by
    by_cases hcb : c = b
    · obtain ⟨p, e, hp, -⟩ := hfw
      obtain ⟨q, hq⟩ := Option.isSome_iff_exists.mp hp
      rw [hcb]
      exact (h.reached p q hq).step e
    · rw [Function.update_of_ne hcb] at hc
      exact h.reached c d hc
  assigned c d hc := by
    by_cases hdb : d = b
    · rw [hdb, Function.update_self]
      rfl
    · rw [Function.update_of_ne hdb]
      by_cases hcb : c = b
      · rw [hcb, Function.update_self] at hc
        obtain ⟨p, e, hp, -⟩ := hfw
        rw [← Option.some.inj hc]
        exact h.anc_assigned hp (hm.common p e hp)
      · rw [Function.update_of_ne hcb] at hc
        exact h.assigned c d hc
  rank c d hc hr := by
    by_cases hcb : c = b
    · rw [hcb, Function.update_self] at hc
      rw [hcb, ← Option.some.inj hc]
      exact hm.rank_lt h hfw
    · rw [Function.update_of_ne hcb] at hc
      exact h.rank c d hc hr
  segment c d hc hr := by
    by_cases hcb : c = b
    · rw [hcb, Function.update_self] at hc
      rw [hcb, ← Option.some.inj hc]
      obtain ⟨p, e, hp, -⟩ := id hfw
      exact (h.anc_path (hm.common p e hp)).tail ⟨e, hm.rank_lt h hfw⟩
    · rw [Function.update_of_ne hcb] at hc
      exact h.segment c d hc hr
  keeps c x hc hdom := by
    by_cases hcb : c = b
    · rw [hcb] at hdom ⊢
      exact hm.keeps_moved h hfw hdom
    · rw [Function.update_of_ne hcb] at hc
      have hag : ∀ y, y ≠ b → Function.update up b (some m) y = up y := fun y hy => Function.update_of_ne hy _ _
      rcases anc_agree hag (h.keeps c x hc hdom) with hx | ⟨hcb', hcb'', d, hd, hdx⟩
      · exact hx
      · have hlt : ρ x < ρ b := (h.anc_rank hdx).trans_lt (h.rank b d hd hb)
        exact hcb''.trans (hm.keeps_moved h hfw (h.dominates_between hcb' hlt hdom))

end Update

/-- Where only the root is assigned, only the root has ancestors above it. -/
theorem Parents.initial [DecidableEq α] (ρ : α → ℕ) :
    Parents E r ρ (Function.update (fun _ => none) r (some r)) where
  root := Function.update_self ..
  reached b d hb := by
    by_cases hr : b = r
    · rw [hr]
      exact reached_root
    · exact absurd hb (by rw [Function.update_of_ne hr]; simp)
  assigned b d hb := by
    by_cases hr : b = r
    · rw [hr, Function.update_self] at hb
      rw [← Option.some.inj hb, Function.update_self]
      rfl
    · exact absurd hb (by rw [Function.update_of_ne hr]; simp)
  rank b d hb hr := absurd hb (by rw [Function.update_of_ne hr]; simp)
  segment b d hb hr := absurd hb (by rw [Function.update_of_ne hr]; simp)
  keeps c x hc hdom := by
    by_cases hr : c = r
    · rw [hr] at hdom ⊢
      rw [List.mem_singleton.mp (hdom [r] PathTo.start)]
      exact Relation.ReflTransGen.refl
    · exact absurd hc (by rw [Function.update_of_ne hr]; simp)

/-! Sweeps over the nodes in ascending order. After `k + 1` sweeps every ancestor is on all paths with
at most `k` retreating edges. -/

/-- The list holds the nodes reached but the root, ascending, each after some predecessor of it. -/
structure Numbered (E : α → α → Prop) (r : α) (ρ : α → ℕ) (order : List α) : Prop where
  sorted : order.Pairwise fun b c => ρ b < ρ c
  mem_iff : ∀ b, b ∈ order ↔ Reached E r b ∧ b ≠ r
  pred : ∀ b ∈ order, ∃ p, E p b ∧ Reached E r p ∧ ρ p < ρ b

/-- Every ancestor of the node is on all paths to it with at most `k` retreating edges. -/
def Settled (E : α → α → Prop) (r : α) (ρ : α → ℕ) (k : ℕ) (up : α → Option α) (c : α) : Prop :=
  ∀ x, Anc up c x → DominatesWithin E r ρ k x c

/-- In sweep `k` the nodes before the current one are settled at `k`, the others as the last sweep left them. -/
structure Swept (E : α → α → Prop) (r : α) (ρ : α → ℕ) (k : ℕ) (done todo : List α) (up : α → Option α) : Prop where
  parents : Parents E r ρ up
  done : ∀ c ∈ done, (up c).isSome = true ∧ Settled E r ρ k up c
  todo : ∀ j, k = j + 1 → ∀ c ∈ todo, (up c).isSome = true ∧ Settled E r ρ j up c

theorem Within.path {ρ : α → ℕ} {k : ℕ} {l : List α} {v : α} (h : Within E r ρ k l v) : PathTo E r l v := by
  induction h with
  | start k => exact PathTo.start
  | forward _ e _ ih => exact ih.step e
  | retreat _ e ih => exact ih.step e

theorem PathTo.root_mem {l : List α} {v : α} (h : PathTo E r l v) : r ∈ l := by
  induction h with
  | start => exact List.mem_singleton.mpr rfl
  | step _ _ ih => exact List.mem_cons_of_mem _ ih

section Sweep

variable {ρ : α → ℕ} {k : ℕ} {up : α → Option α}

theorem Parents.settled_root (h : Parents E r ρ up) : Settled E r ρ k up r := by
  intro x hx l hl
  rw [h.anc_root hx]
  exact hl.path.root_mem

/-- A node stays settled when a node settled at least as well is moved. -/
theorem Settled.of_agree {k' : ℕ} {up' : α → Option α} {b c : α} (hc : Settled E r ρ k' up c) (hk : k' ≤ k)
    (hag : ∀ y, y ≠ b → up' y = up y) (hb : Settled E r ρ k up' b) : Settled E r ρ k' up' c := by
  intro x hx l hl
  rcases anc_agree (fun y hy => (hag y hy).symm) hx with hx | ⟨-, hcb, d, hd, hdx⟩
  · exact hc x hx l hl
  · obtain ⟨l', hl', hsub⟩ := hl.initial (hc b hcb l hl)
    exact hsub ((hb x (Relation.ReflTransGen.head hd hdx)).mono hk l' hl')

/-- Every node of a sweep has a predecessor below it that is assigned already. -/
theorem Swept.forward {done todo : List α} {b : α} (hN : Numbered E r ρ (done ++ b :: todo))
    (h : Swept E r ρ k done (b :: todo) up) {p : α} (hp : Reached E r p) (hlt : ρ p < ρ b) :
    (up p).isSome = true ∧ Settled E r ρ k up p := by
  by_cases hr : p = r
  · rw [hr]
    exact ⟨by rw [h.parents.root]; rfl, h.parents.settled_root⟩
  · apply h.done
    have hsorted := List.pairwise_append.mp hN.sorted
    rcases List.mem_append.mp ((hN.mem_iff p).mpr ⟨hp, hr⟩) with hmem | hmem
    · exact hmem
    · rcases List.mem_cons.mp hmem with rfl | hmem
      · exact absurd hlt (lt_irrefl _)
      · exact absurd ((List.pairwise_cons.mp hsorted.2.1).1 p hmem) (by omega)

theorem Swept.backward {done todo : List α} (hN : Numbered E r ρ (done ++ todo))
    {j : ℕ} (h : Swept E r ρ (j + 1) done todo up) {p : α} (hp : Reached E r p) :
    (up p).isSome = true ∧ Settled E r ρ j up p := by
  by_cases hr : p = r
  · rw [hr]
    exact ⟨by rw [h.parents.root]; rfl, h.parents.settled_root⟩
  · rcases List.mem_append.mp ((hN.mem_iff p).mpr ⟨hp, hr⟩) with hmem | hmem
    · exact ⟨(h.done p hmem).1, fun x hx => ((h.done p hmem).2 x hx).mono (Nat.le_succ j)⟩
    · exact h.todo j rfl p hmem

theorem Swept.exists_forward {done todo : List α} {b : α} (hN : Numbered E r ρ (done ++ b :: todo))
    (h : Swept E r ρ k done (b :: todo) up) : ∃ p, E p b ∧ (up p).isSome = true ∧ ρ p < ρ b := by
  obtain ⟨p, e, hp, hlt⟩ := hN.pred b (by simp)
  exact ⟨p, e, (h.forward hN hp hlt).1, hlt⟩

variable [DecidableEq α]

/-- The nearest common ancestor of the predecessors is settled where it is put. -/
theorem Swept.settled_moved {done todo : List α} {b m : α} (hN : Numbered E r ρ (done ++ b :: todo))
    (h : Swept E r ρ k done (b :: todo) up) (hm : Meets E up b m) :
    Settled E r ρ k (Function.update up b (some m)) b := by
  have hb : b ≠ r := ((hN.mem_iff b).mp (by simp)).2
  have hfw := h.exists_forward hN
  have hup := h.parents.update hm hb hfw
  intro x hx l hl
  rcases Relation.ReflTransGen.cases_head hx with rfl | ⟨d, hd, hdx⟩
  · exact hl.path.last_mem
  · rw [Function.update_self] at hd
    obtain rfl := Option.some.inj hd
    have hmx : Anc up m x := by
      have hag : ∀ y, y ≠ b → up y = Function.update up b (some m) y :=
        fun y hy => (Function.update_of_ne hy _ _).symm
      rcases anc_agree hag hdx with hmx | ⟨hmb, -, -⟩
      · exact hmx
      · exact absurd (hup.anc_rank hmb) (by have := hm.rank_lt h.parents hfw; omega)
    cases hl with
    | start => exact absurd rfl hb
    | @forward _ l u _ hl e hlt =>
      obtain ⟨hu, hset⟩ := h.forward hN ⟨l, hl.path⟩ hlt
      exact List.mem_cons_of_mem _ (hset x ((hm.common u e hu).trans hmx) l hl)
    | @retreat j l u _ hl e =>
      obtain ⟨hu, hset⟩ := h.backward hN ⟨l, hl.path⟩
      exact List.mem_cons_of_mem _ (hset x ((hm.common u e hu).trans hmx) l hl)

/-- One step of a sweep. -/
theorem Swept.visit {done todo : List α} {b m : α} (hN : Numbered E r ρ (done ++ b :: todo))
    (h : Swept E r ρ k done (b :: todo) up) (hm : Meets E up b m) :
    Swept E r ρ k (done ++ [b]) todo (Function.update up b (some m)) where
  parents := h.parents.update hm ((hN.mem_iff b).mp (by simp)).2 (h.exists_forward hN)
  done c hc := by
    have hb := h.settled_moved hN hm
    by_cases hcb : c = b
    · rw [hcb]
      exact ⟨by rw [Function.update_self]; rfl, hb⟩
    · have hmem : c ∈ done := by
        rcases List.mem_append.mp hc with hc | hc
        · exact hc
        · exact absurd (List.mem_singleton.mp hc) hcb
      obtain ⟨hsome, hset⟩ := h.done c hmem
      refine ⟨by rw [Function.update_of_ne hcb]; exact hsome, ?_⟩
      exact hset.of_agree le_rfl (fun y hy => Function.update_of_ne hy _ _) hb
  todo j hj c hc := by
    have hb := h.settled_moved hN hm
    have hcb : c ≠ b := by
      rintro rfl
      have hsorted := (List.pairwise_append.mp hN.sorted).2.1
      exact absurd ((List.pairwise_cons.mp hsorted).1 c hc) (lt_irrefl _)
    obtain ⟨hsome, hset⟩ := h.todo j hj c (List.mem_cons_of_mem _ hc)
    refine ⟨by rw [Function.update_of_ne hcb]; exact hsome, ?_⟩
    exact hset.of_agree (by omega) (fun y hy => Function.update_of_ne hy _ _) hb

end Sweep

section Exact

variable {ρ : α → ℕ} {up : α → Option α} {order : List α}

/-- After a whole sweep the next one starts. -/
theorem Swept.next {k : ℕ} (h : Swept E r ρ k order [] up) : Swept E r ρ (k + 1) [] order up where
  parents := h.parents
  done c hc := absurd hc List.not_mem_nil
  todo j hj c hc := by
    obtain rfl : k = j := by omega
    exact h.done c hc

/-- The ancestors of every reached node are its dominators. -/
def Exact (E : α → α → Prop) (r : α) (up : α → Option α) : Prop :=
  ∀ c, Reached E r c → (up c).isSome = true ∧ ∀ x, Anc up c x ↔ Dominates E r x c

/-- After enough sweeps the parent function is exact. -/
theorem exists_exact (hN : Numbered E r ρ order) : ∃ K, ∀ up, Swept E r ρ K order [] up → Exact E r up := by
  classical
  obtain ⟨K, hK⟩ := exists_bound (E := E) (r := r) (ρ := ρ) (insert r order.toFinset)
  have hmem : ∀ c, Reached E r c → c ∈ insert r order.toFinset := by
    intro c hc
    by_cases hr : c = r
    · exact Finset.mem_insert.mpr (Or.inl hr)
    · exact Finset.mem_insert_of_mem (List.mem_toFinset.mpr ((hN.mem_iff c).mpr ⟨hc, hr⟩))
  refine ⟨K, fun up h c hc => ?_⟩
  have hset : (up c).isSome = true ∧ Settled E r ρ K up c := by
    by_cases hr : c = r
    · rw [hr]
      exact ⟨by rw [h.parents.root]; rfl, h.parents.settled_root⟩
    · exact h.done c ((hN.mem_iff c).mpr ⟨hc, hr⟩)
  refine ⟨hset.1, fun x => ⟨fun hx => ?_, h.parents.keeps c x hset.1⟩⟩
  have hup : (up x).isSome = true := h.parents.anc_assigned hset.1 hx
  obtain ⟨d, hd⟩ := Option.isSome_iff_exists.mp hup
  exact hK x (hmem x (h.parents.reached x d hd)) c (hmem c hc) (hset.2 x hx)

/-- An exact parent function is not moved by a visit. -/
theorem Exact.visit_eq (h : Parents E r ρ up) (hex : Exact E r up) {b m : α} (hb : b ≠ r) (hr : Reached E r b)
    (hm : Meets E up b m) (hfw : ∃ p, E p b ∧ (up p).isSome = true ∧ ρ p < ρ b) : up b = some m := by
  obtain ⟨hsome, hanc⟩ := hex b hr
  obtain ⟨d, hd⟩ := Option.isSome_iff_exists.mp hsome
  have hdb : d ≠ b := by
    rintro rfl
    exact absurd (h.rank d d hd hb) (lt_irrefl _)
  have hmd : Anc up m d := by
    apply hm.anc_of_dominates h hdb
    exact (hanc d).mp (Relation.ReflTransGen.single hd)
  have hdom : Dominates E r m b := by
    intro l hl
    cases hl with
    | start => exact absurd rfl hb
    | @step l u _ hl e =>
      have hu := hex u ⟨l, hl⟩
      exact List.mem_cons_of_mem _ ((hu.2 m).mp (hm.common u e hu.1) l hl)
  have hdm : Anc up d m := by
    rcases Relation.ReflTransGen.cases_head ((hanc m).mpr hdom) with rfl | ⟨d', hd', hdm⟩
    · exact absurd (hm.rank_lt h hfw) (lt_irrefl _)
    · rw [hd] at hd'
      rw [Option.some.inj hd']
      exact hdm
  rw [hd, h.anc_antisymm hdm hmd]

/-- Where no visit moves a node, the parent function is exact. -/
theorem Parents.exact_of_stable (h : Parents E r ρ up)
    (hst : ∀ b, Reached E r b → b ≠ r → ∃ d, up b = some d ∧ ∀ p, E p b → (up p).isSome = true → Anc up p d) :
    Exact E r up := by
  have hsome : ∀ c, Reached E r c → (up c).isSome = true := by
    intro c hc
    by_cases hr : c = r
    · rw [hr, h.root]
      rfl
    · obtain ⟨d, hd, -⟩ := hst c hc hr
      rw [hd]
      rfl
  have hmem : ∀ l v, PathTo E r l v → ∀ x, Anc up v x → x ∈ l := by
    intro l v hl
    induction hl with
    | start =>
      intro x hx
      rw [h.anc_root hx]
      exact List.mem_singleton.mpr rfl
    | @step l u v hl e ih =>
      intro x hx
      by_cases hr : v = r
      · rw [hr] at hx
        rw [h.anc_root hx]
        exact List.mem_cons_of_mem _ hl.root_mem
      · obtain ⟨d, hd, hcommon⟩ := hst v ⟨_, hl.step e⟩ hr
        rcases Relation.ReflTransGen.cases_head hx with rfl | ⟨d', hd', hdx⟩
        · exact List.mem_cons_self
        · rw [hd] at hd'
          obtain rfl := Option.some.inj hd'
          have hu := hcommon u e (hsome u ⟨l, hl⟩)
          exact List.mem_cons_of_mem _ (ih x (hu.trans hdx))
  exact fun c hc => ⟨hsome c hc, fun x => ⟨fun hx l hl => hmem l c hl x hx, h.keeps c x (hsome c hc)⟩⟩

end Exact

end Karac.Lib.Dominance
