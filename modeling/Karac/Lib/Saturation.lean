import Mathlib

/-! Families of sets saturated in place: each step adds to one set what it gains from the family. Passes
over a list of keys close it after one pass more than there are keys. -/

namespace Karac.Lib.Saturation

variable {κ ε : Type} (gain : (κ → Set ε) → κ → Set ε)

/-- A key whose set has all it gains. -/
def Closed (S : κ → Set ε) (f : κ) : Prop := gain S f ⊆ S f

/-- What a key gains of one element depends on who has that element, and having more gains more. -/
structure Pointwise : Prop where
  mono : ∀ S T : κ → Set ε, S ≤ T → gain S ≤ gain T
  slice : ∀ (S T : κ → Set ε) (e : ε) (f : κ), (∀ g, e ∈ S g ↔ e ∈ T g) → (e ∈ gain S f ↔ e ∈ gain T f)

variable [DecidableEq κ]

def step (S : κ → Set ε) (f : κ) : κ → Set ε := Function.update S f (S f ∪ gain S f)

def pass (fs : List κ) (S : κ → Set ε) : κ → Set ε := fs.foldl (step gain) S

variable {gain}

theorem step_self (S : κ → Set ε) (f : κ) : step gain S f f = S f ∪ gain S f := Function.update_self ..

theorem step_of_ne (S : κ → Set ε) {f g : κ} (hg : g ≠ f) : step gain S f g = S g := Function.update_of_ne hg ..

theorem le_step (S : κ → Set ε) (f : κ) : S ≤ step gain S f := by
  intro g
  by_cases hg : g = f
  · rw [hg, step_self]
    exact Set.subset_union_left
  · rw [step_of_ne S hg]

theorem le_pass (fs : List κ) (S : κ → Set ε) : S ≤ pass gain fs S := by
  induction fs generalizing S with
  | nil => exact le_rfl
  | cons f fs ih => exact (le_step S f).trans (ih (step gain S f))

theorem pass_of_not_mem (fs : List κ) (S : κ → Set ε) {g : κ} (hg : g ∉ fs) : pass gain fs S g = S g := by
  induction fs generalizing S with
  | nil => rfl
  | cons f fs ih =>
    have hne : g ≠ f := fun heq => hg (heq ▸ List.mem_cons_self)
    exact (ih (step gain S f) fun hmem => hg (List.mem_cons_of_mem _ hmem)).trans (step_of_ne S hne)

theorem step_fixed {S : κ → Set ε} {f : κ} (h : Closed gain S f) : step gain S f = S := by
  unfold step
  rw [Set.union_eq_self_of_subset_right h, Function.update_eq_self]

section Pointwise

variable (hgain : Pointwise gain)
include hgain

/-- A family with all that the keys gain in it bounds every pass. -/
theorem pass_le {T : κ → Set ε} {fs : List κ} (hT : ∀ f ∈ fs, Closed gain T f) {S : κ → Set ε} (h : S ≤ T) :
    pass gain fs S ≤ T := by
  induction fs generalizing S with
  | nil => exact h
  | cons f fs ih =>
    refine ih (fun g hg => hT g (List.mem_cons_of_mem _ hg)) fun g => ?_
    by_cases hg : g = f
    · rw [hg, step_self]
      exact Set.union_subset (h f) ((hgain.mono S T h f).trans (hT f List.mem_cons_self))
    · rw [step_of_ne S hg]
      exact h g

/-- A step closes its own key. -/
theorem step_closed (S : κ → Set ε) (f : κ) : Closed gain (step gain S f) f := by
  intro e he
  by_contra hnot
  have hstep := hnot
  rw [step_self] at hstep
  have hsame : ∀ g, e ∈ step gain S f g ↔ e ∈ S g := by
    intro g
    by_cases hg : g = f
    · rw [hg]
      exact ⟨fun hmem => absurd hmem hnot, fun hmem => absurd (Or.inl hmem) hstep⟩
    · rw [step_of_ne S hg]
  exact hstep (Or.inr ((hgain.slice _ _ e f hsame).mp he))

/-- A pass that gives an element to no key leaves the keys closed for it. -/
theorem closed_at_of_pass {e : ε} {fs : List κ} {S : κ → Set ε} (h : ∀ g, e ∈ pass gain fs S g → e ∈ S g) {f : κ}
    (hf : f ∈ fs) (he : e ∈ gain (pass gain fs S) f) : e ∈ pass gain fs S f := by
  induction fs generalizing S with
  | nil => exact absurd hf List.not_mem_nil
  | cons g fs ih =>
    have hlow : S ≤ step gain S g := le_step S g
    have hhigh : step gain S g ≤ pass gain (g :: fs) S := le_pass fs (step gain S g)
    rcases List.mem_cons.mp hf with rfl | hf
    · refine hhigh f ?_
      rw [step_self]
      refine Or.inr ((hgain.slice _ S e f fun x => ⟨h x, fun hx => hhigh x (hlow x hx)⟩).mp he)
    · exact ih (fun x hx => hlow x (h x hx)) hf he

/-- A family closed at an element stays so under passes. -/
theorem pass_at_fixed {e : ε} {fs : List κ} {S : κ → Set ε} (h : ∀ f ∈ fs, e ∈ gain S f → e ∈ S f) (g : κ) :
    e ∈ pass gain fs S g ↔ e ∈ S g := by
  induction fs generalizing S with
  | nil => exact Iff.rfl
  | cons f fs ih =>
    have hstep : ∀ x, e ∈ step gain S f x ↔ e ∈ S x := by
      intro x
      by_cases hx : x = f
      · rw [hx, step_self]
        exact ⟨fun hmem => hmem.elim id (h f List.mem_cons_self), Or.inl⟩
      · rw [step_of_ne S hx]
    refine (ih fun x hx hmem => ?_).trans (hstep g)
    exact (hstep x).mpr (h x (List.mem_cons_of_mem _ hx) ((hgain.slice _ _ e x hstep).mp hmem))

/-- One pass more than there are keys without the element closes them for it. -/
theorem passes_closed_at (e : ε) {fs : List κ} (k : ℕ) (lacking : Finset κ) {S : κ → Set ε}
    (hlack : ∀ f ∈ fs, e ∉ S f → f ∈ lacking) (hk : lacking.card < k) {f : κ} (hf : f ∈ fs)
    (he : e ∈ gain ((pass gain fs)^[k] S) f) : e ∈ (pass gain fs)^[k] S f := by
  induction k generalizing S lacking with
  | zero => omega
  | succ k ih =>
    rw [Function.iterate_succ_apply] at he ⊢
    by_cases hsame : ∀ g, e ∈ pass gain fs S g → e ∈ S g
    · have hclosed : ∀ x ∈ fs, e ∈ gain (pass gain fs S) x → e ∈ pass gain fs S x :=
        fun x hx hmem => closed_at_of_pass hgain hsame hx hmem
      have hfixed : ∀ j g, e ∈ (pass gain fs)^[j] (pass gain fs S) g ↔ e ∈ pass gain fs S g := by
        intro j
        induction j with
        | zero => exact fun g => Iff.rfl
        | succ j ihj =>
          intro g
          rw [Function.iterate_succ_apply']
          refine (pass_at_fixed hgain (fun x hx hmem => ?_) g).trans (ihj g)
          exact (ihj x).mpr (hclosed x hx ((hgain.slice _ _ e x ihj).mp hmem))
      exact (hfixed k f).mpr (hclosed f hf ((hgain.slice _ _ e f (hfixed k)).mp he))
    · push Not at hsame
      obtain ⟨g, hg, hnot⟩ := hsame
      have hmem : g ∈ fs := by
        by_contra hmem
        rw [pass_of_not_mem fs S hmem] at hg
        exact hnot hg
      have hin := hlack g hmem hnot
      have hcard := Finset.card_erase_lt_of_mem hin
      refine ih (lacking.erase g) (fun x hx hxe => ?_) (by omega) he
      refine Finset.mem_erase.mpr ⟨fun heq => hxe (heq ▸ hg), hlack x hx fun hS => hxe (le_pass fs S x hS)⟩

/-- One pass more than there are keys closes the keys. -/
theorem passes_closed {fs : List κ} {k : ℕ} (hk : fs.length < k) (S : κ → Set ε) {f : κ} (hf : f ∈ fs) :
    Closed gain ((pass gain fs)^[k] S) f := by
  intro e he
  refine passes_closed_at hgain e k fs.toFinset (fun g hg _ => List.mem_toFinset.mpr hg) ?_ hf he
  exact (List.toFinset_card_le fs).trans_lt hk

end Pointwise

/-- Keys that gain from one another only, and are closed, keep their sets. -/
theorem pass_keeps {P : κ → Prop} (hP : ∀ f, P f → ∀ S T : κ → Set ε, (∀ g, P g → S g = T g) → gain S f = gain T f)
    (fs : List κ) {S : κ → Set ε} (hclosed : ∀ f ∈ fs, P f → Closed gain S f) {g : κ} (hg : P g) :
    pass gain fs S g = S g := by
  induction fs generalizing S with
  | nil => rfl
  | cons f fs ih =>
    have hstep : ∀ x, P x → step gain S f x = S x := by
      intro x hx
      by_cases hxf : x = f
      · subst hxf
        rw [step_fixed (hclosed x List.mem_cons_self hx)]
      · exact step_of_ne S hxf
    refine (ih fun x hx hPx => ?_).trans (hstep g hg)
    unfold Closed
    rw [hP x hPx _ S hstep, hstep x hPx]
    exact hclosed x (List.mem_cons_of_mem _ hx) hPx

end Karac.Lib.Saturation
