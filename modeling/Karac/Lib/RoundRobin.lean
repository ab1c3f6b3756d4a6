import Mathlib

/-! A token handed round: keys are visited in order, and one that is visited takes the token from outside or from a
key that has it. A sweep carries it along any number of steps to keys already visited, and one step more: how
many sweeps it needs is how often a chain must go on to a key that is not yet visited. -/

namespace Karac.Lib.RoundRobin

variable {α : Type} (start : α → Prop) (edge : α → α → Prop)

def Pulls (held : Set α) (x : α) : Prop := start x ∨ ∃ y, edge x y ∧ y ∈ held

def visit (held : Set α) (x : α) : Set α := {y | y ∈ held ∨ y = x ∧ Pulls start edge held x}

def sweep (xs : List α) (held : Set α) : Set α := xs.foldl (visit start edge) held

/-- A chain to a key that can start, with at most so many steps to a key that is not visited earlier. -/
inductive Within [LT α] (first : α → Prop) (edge : α → α → Prop) : ℕ → α → Prop
  | first {n : ℕ} {x : α} (h : first x) : Within first edge n x
  | back {n : ℕ} {x y : α} (h : edge x y) (hlt : y < x) (hy : Within first edge n y) : Within first edge n x
  | on {n : ℕ} {x y : α} (h : edge x y) (hy : Within first edge n y) : Within first edge (n + 1) x

variable {start edge}

theorem Within.mono [LT α] {first : α → Prop} {n m : ℕ} {x : α} (h : Within first edge n x) (hnm : n ≤ m) :
    Within first edge m x := by
  induction h generalizing m with
  | first h => exact .first h
  | back h hlt _ ih => exact .back h hlt (ih hnm)
  | on h _ ih =>
    obtain ⟨m, rfl⟩ : ∃ k, m = k + 1 := ⟨m - 1, by omega⟩
    exact .on h (ih (by omega))

theorem Within.congr [LT α] {first first' : α → Prop} {edge' : α → α → Prop} {P : α → Prop}
    (hfirst : ∀ x, P x → first x → first' x) (hedge : ∀ x y, P x → edge x y → P y ∧ edge' x y) {n : ℕ} {x : α} (hx : P x)
    (h : Within first edge n x) : Within first' edge' n x := by
  induction h with
  | first h => exact .first (hfirst _ hx h)
  | back h hlt _ ih => exact .back (hedge _ _ hx h).2 hlt (ih (hedge _ _ hx h).1)
  | on h _ ih => exact .on (hedge _ _ hx h).2 (ih (hedge _ _ hx h).1)

theorem subset_visit (held : Set α) (x : α) : held ⊆ visit start edge held x := fun _ h => Or.inl h

theorem subset_sweep (xs : List α) (held : Set α) : held ⊆ sweep start edge xs held := by
  induction xs generalizing held with
  | nil => exact subset_rfl
  | cons x xs ih => exact (subset_visit held x).trans (ih _)

/-- A sweep gives the token to keys that it visits only. -/
theorem mem_of_mem_sweep {xs : List α} {held : Set α} {y : α} (h : y ∈ sweep start edge xs held) : y ∈ held ∨ y ∈ xs := by
  induction xs generalizing held with
  | nil => exact Or.inl h
  | cons x xs ih =>
    rcases ih h with h | h
    · rcases h with h | ⟨rfl, -⟩
      · exact Or.inl h
      · exact Or.inr List.mem_cons_self
    · exact Or.inr (List.mem_cons_of_mem _ h)

theorem mem_of_mem_sweeps {xs : List α} (k : ℕ) {held : Set α} {y : α} (h : y ∈ (sweep start edge xs)^[k] held) :
    y ∈ held ∨ y ∈ xs := by
  induction k with
  | zero => exact Or.inl h
  | succ k ih =>
    rw [Function.iterate_succ_apply'] at h
    exact (mem_of_mem_sweep h).elim ih Or.inr

theorem sweeps_subset (xs : List α) (held : Set α) {k m : ℕ} (h : k ≤ m) :
    (sweep start edge xs)^[k] held ⊆ (sweep start edge xs)^[m] held := by
  induction h with
  | refl => exact subset_rfl
  | step _ ih =>
    rw [Function.iterate_succ_apply']
    exact ih.trans (subset_sweep xs _)

section Arrival

variable [LinearOrder α] (xs : List α) (held : Set α)

/-- The keys that can take the token before any other of them has it. -/
def First (start : α → Prop) (edge : α → α → Prop) (xs : List α) (held : Set α) (x : α) : Prop :=
  x ∈ xs ∧ Pulls start edge held x

def Inner (edge : α → α → Prop) (xs : List α) (x y : α) : Prop := x ∈ xs ∧ y ∈ xs ∧ edge x y

/-- What has come after so many sweeps. -/
def Arrived (start : α → Prop) (edge : α → α → Prop) (xs : List α) (held : Set α) : ℕ → α → Prop
  | 0, _ => False
  | k + 1, x => Within (First start edge xs held) (Inner edge xs) k x

variable {xs held}

theorem Within.mem {n : ℕ} {x : α} (h : Within (First start edge xs held) (Inner edge xs) n x) : x ∈ xs := by
  cases h with
  | first h => exact h.1
  | back h => exact h.1
  | on h => exact h.1

theorem Arrived.mono {k m : ℕ} {x : α} (h : Arrived start edge xs held k x) (hkm : k ≤ m) : Arrived start edge xs held m x := by
  cases k with
  | zero => exact h.elim
  | succ k =>
    obtain ⟨m, rfl⟩ : ∃ j, m = j + 1 := ⟨m - 1, by omega⟩
    exact Within.mono h (by omega)

theorem Arrived.mem {k : ℕ} {x : α} (h : Arrived start edge xs held k x) : x ∈ xs := by
  cases k with
  | zero => exact h.elim
  | succ k => exact Within.mem h

/-- Who has the token when the keys before some point of a sweep have been visited. -/
def Midway (start : α → Prop) (edge : α → α → Prop) (xs : List α) (held : Set α) (k : ℕ) (pre : List α) : Set α :=
  {y | y ∈ held ∨ Arrived start edge xs held k y ∨ y ∈ pre ∧ Arrived start edge xs held (k + 1) y}

theorem pulls_midway (hsorted : xs.Pairwise (· < ·)) {pre post : List α} {x : α} (hxs : xs = pre ++ x :: post) (k : ℕ) :
    Pulls start edge (Midway start edge xs held k pre) x → Arrived start edge xs held (k + 1) x := by
  have hx : x ∈ xs := hxs ▸ List.mem_append_right _ List.mem_cons_self
  rintro (hstart | ⟨y, hedge, hy | hy | ⟨hpre, hy⟩⟩)
  · exact .first ⟨hx, Or.inl hstart⟩
  · exact .first ⟨hx, Or.inr ⟨y, hedge, hy⟩⟩
  · cases k with
    | zero => exact hy.elim
    | succ k => exact .on ⟨hx, hy.mem, hedge⟩ hy
  · have hlt : y < x := (List.pairwise_append.mp (hxs ▸ hsorted)).2.2 y hpre x List.mem_cons_self
    exact .back ⟨hx, hy.mem, hedge⟩ hlt hy

theorem pulls_of_arrived (hsorted : xs.Pairwise (· < ·)) {pre post : List α} {x : α} (hxs : xs = pre ++ x :: post) {k : ℕ}
    (h : Arrived start edge xs held (k + 1) x) : Pulls start edge (Midway start edge xs held k pre) x := by
  cases h with
  | first h => exact h.2.imp_right fun ⟨y, hedge, hy⟩ => ⟨y, hedge, Or.inl hy⟩
  | @back _ _ y h hlt hy =>
    refine Or.inr ⟨y, h.2.2, Or.inr (Or.inr ⟨?_, hy⟩)⟩
    rcases List.mem_append.mp (hxs ▸ h.2.1) with hmem | hmem
    · exact hmem
    · -- the keys from here on are not below this one
      rcases List.mem_cons.mp hmem with rfl | hmem
      · exact absurd hlt (lt_irrefl _)
      · have hpost := (List.pairwise_append.mp (hxs ▸ hsorted)).2.1
        exact absurd hlt (lt_asymm (List.rel_of_pairwise_cons hpost hmem))
  | @on n _ y h hy => exact Or.inr ⟨y, h.2.2, Or.inr (Or.inl hy)⟩

theorem visit_midway (hsorted : xs.Pairwise (· < ·)) {pre post : List α} {x : α} (hxs : xs = pre ++ x :: post) (k : ℕ) :
    visit start edge (Midway start edge xs held k pre) x = Midway start edge xs held k (pre ++ [x]) := by
  ext y
  constructor
  · rintro ((hy | hy | ⟨hpre, hy⟩) | ⟨rfl, hpulls⟩)
    · exact Or.inl hy
    · exact Or.inr (Or.inl hy)
    · exact Or.inr (Or.inr ⟨List.mem_append_left _ hpre, hy⟩)
    · exact Or.inr (Or.inr ⟨List.mem_append_right _ (List.mem_singleton_self _), pulls_midway hsorted hxs k hpulls⟩)
  · rintro (hy | hy | ⟨hpre, hy⟩)
    · exact Or.inl (Or.inl hy)
    · exact Or.inl (Or.inr (Or.inl hy))
    · rcases List.mem_append.mp hpre with hpre | hx
      · exact Or.inl (Or.inr (Or.inr ⟨hpre, hy⟩))
      · obtain rfl := List.mem_singleton.mp hx
        exact Or.inr ⟨rfl, pulls_of_arrived hsorted hxs hy⟩

theorem sweep_midway (hsorted : xs.Pairwise (· < ·)) (k : ℕ) (pre post : List α) (hxs : xs = pre ++ post) :
    sweep start edge post (Midway start edge xs held k pre) = Midway start edge xs held k xs := by
  induction post generalizing pre with
  | nil => rw [hxs, List.append_nil]; rfl
  | cons x post ih =>
    unfold sweep
    rw [List.foldl_cons, visit_midway hsorted hxs]
    exact ih (pre ++ [x]) (by simp [hxs])

/-- After so many sweeps the token is where it was, and where it has arrived. -/
theorem mem_sweeps (hsorted : xs.Pairwise (· < ·)) (k : ℕ) (y : α) :
    y ∈ (sweep start edge xs)^[k] held ↔ y ∈ held ∨ Arrived start edge xs held k y := by
  suffices h : (sweep start edge xs)^[k] held = Midway start edge xs held k [] by
    rw [h]
    simp [Midway]
  induction k with
  | zero => simp [Midway, Arrived]
  | succ k ih =>
    rw [Function.iterate_succ_apply', ih, sweep_midway hsorted k [] xs rfl]
    ext y
    simp only [Midway, List.not_mem_nil, false_and, or_false]
    refine or_congr_right ⟨?_, fun h => Or.inr ⟨h.mem, h⟩⟩
    rintro (h | ⟨-, h⟩)
    · exact h.mono (Nat.le_succ k)
    · exact h

end Arrival

/-- As many sweeps as there are keys are enough. -/
theorem sweeps_settled [DecidableEq α] (xs : List α) (held : Set α) :
    (sweep start edge xs)^[xs.length + 1] held = (sweep start edge xs)^[xs.length] held := by
  by_contra hne
  have hnew : ∀ k : Fin (xs.length + 1), ∃ y ∈ xs.toFinset, y ∈ (sweep start edge xs)^[k + 1] held ∧
      y ∉ (sweep start edge xs)^[k] held := by
    intro k
    by_contra hnone
    push Not at hnone
    -- a sweep that gives the token to nobody is followed by such sweeps only
    have hfixed : sweep start edge xs ((sweep start edge xs)^[k] held) = (sweep start edge xs)^[k] held := by
      refine Set.Subset.antisymm (fun y hy => ?_) (subset_sweep xs _)
      rcases mem_of_mem_sweep hy with h | h
      · exact h
      · refine hnone y (List.mem_toFinset.mpr h) ?_
        rw [Function.iterate_succ_apply']
        exact hy
    have hrest : ∀ j, (sweep start edge xs)^[k + j] held = (sweep start edge xs)^[k] held := by
      intro j
      rw [Nat.add_comm, Function.iterate_add_apply]
      exact Function.iterate_fixed hfixed j
    obtain ⟨j, hj⟩ := Nat.exists_eq_add_of_le (Nat.le_of_lt_succ k.isLt)
    refine hne ?_
    rw [hj, Nat.add_assoc, hrest, hrest]
  choose y hy hin hout using hnew
  obtain ⟨i, j, hij, heq⟩ := Fintype.exists_ne_map_eq_of_card_lt (fun k => (⟨y k, hy k⟩ : xs.toFinset)) (by
    rw [Fintype.card_coe, Fintype.card_fin]
    exact Nat.lt_succ_of_le (List.toFinset_card_le xs))
  have heq : y i = y j := congrArg Subtype.val heq
  rcases lt_or_gt_of_ne hij with h | h
  · exact hout j (heq ▸ sweeps_subset xs held (Nat.succ_le_of_lt h) (hin i))
  · exact hout i (heq.symm ▸ sweeps_subset xs held (Nat.succ_le_of_lt h) (hin j))

end Karac.Lib.RoundRobin
