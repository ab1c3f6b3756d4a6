import Mathlib

/-! Binary heaps in an array: the order between a place and its children, with and without a place that breaks it. -/

namespace Karac.Lib.BinaryHeap

variable {α : Type*} (r : α → α → Prop)

def parent (i : ℕ) : ℕ := (i - 1) / 2

/-- What stands at `p` is above what stands at `c`. -/
def Above (xs : Array α) (p c : ℕ) : Prop := ∀ x ∈ xs[p]?, ∀ y ∈ xs[c]?, r x y

/-- Every place from `k` on is above its children. -/
def OrderedFrom (xs : Array α) (k : ℕ) : Prop := ∀ c, 0 < c → k ≤ parent c → Above r xs (parent c) c

abbrev Ordered (xs : Array α) : Prop := OrderedFrom r xs 0

/-- Only the place `i` may stand below one it ought to be above: its parent. -/
structure UpHole (xs : Array α) (i : ℕ) : Prop where
  off : ∀ c, 0 < c → c ≠ i → Above r xs (parent c) c
  around : 0 < i → ∀ c, 0 < c → parent c = i → Above r xs (parent i) c

/-- From `k` on, only the place `i` may fail to be above its children. -/
structure DownHole (xs : Array α) (k i : ℕ) : Prop where
  off : ∀ c, 0 < c → k ≤ parent c → parent c ≠ i → Above r xs (parent c) c
  around : 0 < i → k ≤ parent i → ∀ c, 0 < c → parent c = i → Above r xs (parent i) c

theorem parent_eq (i : ℕ) : parent i = (i - 1) / 2 := rfl

theorem parent_lt {i : ℕ} (hi : 0 < i) : parent i < i := by
  rw [parent_eq]
  omega

theorem parent_left (i : ℕ) : parent (2 * i + 1) = i := by
  rw [parent_eq]
  omega

theorem parent_right (i : ℕ) : parent (2 * i + 2) = i := by
  rw [parent_eq]
  omega

theorem child_cases {c i : ℕ} (hc : 0 < c) (h : parent c = i) : c = 2 * i + 1 ∨ c = 2 * i + 2 := by
  rw [parent_eq] at h
  omega

variable {r} {xs : Array α}

theorem Above.of_size_le {p c : ℕ} (h : xs.size ≤ c) : Above r xs p c := by
  intro x _ y hy
  rw [Array.getElem?_eq_none h] at hy
  cases hy

theorem above_iff {p c : ℕ} (hp : p < xs.size) (hc : c < xs.size) : Above r xs p c ↔ r xs[p] xs[c] := by
  simp [Above, hp, hc]

theorem Above.congr {ys : Array α} {p c p' c' : ℕ} (h : Above r xs p c) (hp : ys[p']? = xs[p]?)
    (hc : ys[c']? = xs[c]?) : Above r ys p' c' := by
  unfold Above
  rw [hp, hc]
  exact h

section

variable {i j : ℕ} (hi : i < xs.size) (hj : j < xs.size)

theorem get_swap_left : (xs.swap i j)[i]? = xs[j]? := by
  rw [Array.getElem?_swap]
  by_cases h : j = i
  · subst h
    simp [hi]
  · simp [h, hj]

theorem get_swap_right : (xs.swap i j)[j]? = xs[i]? := by
  rw [Array.getElem?_swap]
  simp [hi]

theorem get_swap_of_ne {k : ℕ} (hki : k ≠ i) (hkj : k ≠ j) : (xs.swap i j)[k]? = xs[k]? := by
  rw [Array.getElem?_swap]
  simp [hki.symm, hkj.symm]

end

/-! Sifting up. -/

theorem upHole_push (h : Ordered r xs) (x : α) : UpHole r (xs.push x) xs.size := by
  refine ⟨fun c hc hne => ?_, fun _ c hc hp => ?_⟩
  · by_cases hsize : c < xs.size
    · have hlt := parent_lt hc
      apply (h c hc (Nat.zero_le _)).congr
      · rw [Array.getElem?_push, if_neg (by omega)]
      · rw [Array.getElem?_push, if_neg hne]
    · apply Above.of_size_le
      rw [Array.size_push]
      omega
  · apply Above.of_size_le
    have hlt := parent_lt hc
    rw [Array.size_push]
    omega

theorem UpHole.done {i : ℕ} (h : UpHole r xs i) (hi : 0 < i → Above r xs (parent i) i) : Ordered r xs := by
  intro c hc _
  by_cases hci : c = i
  · subst hci
    exact hi hc
  · exact h.off c hc hci

theorem UpHole.swap {i : ℕ} (htrans : ∀ x y z, r x y → r y z → r x z) (h : UpHole r xs i) (hpos : 0 < i)
    (hi : i < xs.size) (hp : parent i < xs.size) (hr : Above r xs i (parent i)) :
    UpHole r (xs.swap i (parent i)) (parent i) := by
  have hlt := parent_lt hpos
  refine ⟨fun c hc hne => ?_, fun hpos' c hc hpc => ?_⟩
  · by_cases hci : c = i
    · subst hci
      exact hr.congr (get_swap_right hi hp) (get_swap_left hi hp)
    have hcget : (xs.swap i (parent i))[c]? = xs[c]? := get_swap_of_ne hi hp hci hne
    by_cases hpci : parent c = i
    · rw [hpci]
      exact (h.around hpos c hc hpci).congr (get_swap_left hi hp) hcget
    by_cases hpcp : parent c = parent i
    · rw [hpcp]
      have hsib := h.off c hc hci
      rw [hpcp] at hsib
      intro x hx y hy
      rw [get_swap_right hi hp] at hx
      rw [hcget] at hy
      obtain ⟨z, hz⟩ : ∃ z, xs[parent i]? = some z := ⟨_, Array.getElem?_eq_getElem hp⟩
      exact htrans _ _ _ (hr x hx z hz) (hsib z hz y hy)
    · exact (h.off c hc hci).congr (get_swap_of_ne hi hp hpci hpcp) hcget
  · have hgrand := h.off (parent i) hpos' (by omega)
    have hpget : (xs.swap i (parent i))[parent (parent i)]? = xs[parent (parent i)]? := by
      have hlt' := parent_lt hpos'
      exact get_swap_of_ne hi hp (by omega) (by omega)
    by_cases hci : c = i
    · subst hci
      exact hgrand.congr hpget (get_swap_left hi hp)
    · have hcget : (xs.swap i (parent i))[c]? = xs[c]? := by
        apply get_swap_of_ne hi hp hci
        have := parent_lt hc
        omega
      have hsib := h.off c hc hci
      rw [hpc] at hsib
      intro x hx y hy
      rw [hpget] at hx
      rw [hcget] at hy
      obtain ⟨z, hz⟩ : ∃ z, xs[parent i]? = some z := ⟨_, Array.getElem?_eq_getElem hp⟩
      exact htrans _ _ _ (hgrand x hx z hz) (hsib z hz y hy)

/-! Sifting down. -/

theorem DownHole.of_from {k : ℕ} (h : OrderedFrom r xs (k + 1)) : DownHole r xs k k := by
  refine ⟨fun c hc hk hne => h c hc (by omega), fun hk hp => ?_⟩
  have := parent_lt hk
  omega

theorem DownHole.done {k i : ℕ} (h : DownHole r xs k i) (hl : Above r xs i (2 * i + 1))
    (hr : Above r xs i (2 * i + 2)) : OrderedFrom r xs k := by
  intro c hc hk
  by_cases hp : parent c = i
  · rw [hp]
    rcases child_cases hc hp with rfl | rfl
    · exact hl
    · exact hr
  · exact h.off c hc hk hp

/-- The child `b` that is above both `i` and its sibling changes places with `i`. -/
theorem DownHole.swap {k i b : ℕ} (h : DownHole r xs k i) (hk : k ≤ i) (hb : 0 < b) (hpb : parent b = i)
    (hi : i < xs.size) (hbs : b < xs.size) (hr : Above r xs b i)
    (hsib : ∀ c, 0 < c → parent c = i → Above r xs b c) : DownHole r (xs.swap i b) k b := by
  have hlt := parent_lt hb
  refine ⟨fun c hc hkc hne => ?_, fun _ _ c hc hpc => ?_⟩
  · by_cases hpi : parent c = i
    · rw [hpi]
      by_cases hcb : c = b
      · subst hcb
        exact hr.congr (get_swap_left hi hbs) (get_swap_right hi hbs)
      · have hlt' := parent_lt hc
        exact (hsib c hc hpi).congr (get_swap_left hi hbs) (get_swap_of_ne hi hbs (by omega) hcb)
    · by_cases hci : c = i
      · subst hci
        exact (h.around hc hkc b hb hpb).congr (get_swap_of_ne hi hbs hpi hne) (get_swap_left hi hbs)
      · have hcb : c ≠ b := by
          rintro rfl
          exact hpi hpb
        exact (h.off c hc hkc hpi).congr (get_swap_of_ne hi hbs hpi hne) (get_swap_of_ne hi hbs hci hcb)
  · have hlt' := parent_lt hc
    have hold := h.off c hc (by omega) (by omega)
    rw [hpc] at hold
    rw [hpb]
    exact hold.congr (get_swap_left hi hbs) (get_swap_of_ne hi hbs (by omega) (by omega))

theorem OrderedFrom.of_size_le {k : ℕ} (hk : xs.size ≤ 2 * k + 1) : OrderedFrom r xs k := by
  intro c hc hkc
  apply Above.of_size_le
  rw [parent_eq] at hkc
  omega

/-- The root is above everything. -/
theorem Ordered.root (htrans : ∀ x y z, r x y → r y z → r x z) (hrefl : ∀ x, r x x) (h : Ordered r xs) (i : ℕ) :
    Above r xs 0 i := by
  induction i using Nat.strong_induction_on with
  | _ i ih =>
    rcases Nat.eq_zero_or_pos i with rfl | hi
    · intro x hx y hy
      rw [hx] at hy
      cases hy
      exact hrefl x
    · by_cases hsize : i < xs.size
      · intro x hx y hy
        have hlt := parent_lt hi
        obtain ⟨z, hz⟩ : ∃ z, xs[parent i]? = some z := ⟨_, Array.getElem?_eq_getElem (by omega)⟩
        exact htrans _ _ _ (ih _ hlt x hx z hz) (h i hi (Nat.zero_le _) z hz y hy)
      · exact Above.of_size_le (by omega)

end Karac.Lib.BinaryHeap
