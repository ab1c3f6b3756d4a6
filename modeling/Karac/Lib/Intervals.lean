import Mathlib

/-! Cutting an integer interval at a list of points. The pieces cover the interval, and no cut point
lies strictly inside a piece, so a piece is either inside or outside of every interval whose ends are
among the cuts. -/

namespace Karac.Lib

/-- The pieces that begin at the given starts, the last of which ends at `hi`. -/
def segmentsFrom (hi : ℤ) : List ℤ → List (ℤ × ℤ)
  | [] => []
  | [s] => [(s, hi)]
  | s :: t :: rest => (s, t - 1) :: segmentsFrom hi (t :: rest)

/-- Sorted starts without repetition. -/
def sortedCuts (cuts : List ℤ) : List ℤ := (cuts.insertionSort (· ≤ ·)).dedup

theorem mem_sortedCuts {cuts : List ℤ} {c : ℤ} : c ∈ sortedCuts cuts ↔ c ∈ cuts := by
  unfold sortedCuts
  rw [List.mem_dedup, List.mem_insertionSort]

theorem sortedCuts_pairwise (cuts : List ℤ) : (sortedCuts cuts).Pairwise (· < ·) := by
  have hle : (sortedCuts cuts).Pairwise (· ≤ ·) :=
    (List.pairwise_insertionSort (· ≤ ·) cuts).sublist (List.dedup_sublist _)
  have hne : (sortedCuts cuts).Pairwise (· ≠ ·) := List.nodup_dedup _
  exact (hle.and hne).imp fun h => lt_of_le_of_ne h.1 h.2

theorem segmentsFrom_start {hi : ℤ} {l : List ℤ} {p : ℤ × ℤ} (hp : p ∈ segmentsFrom hi l) : p.1 ∈ l := by
  induction l with
  | nil => simp [segmentsFrom] at hp
  | cons s l ih =>
    cases l with
    | nil =>
      obtain rfl := List.mem_singleton.mp hp
      exact List.mem_cons_self
    | cons t rest =>
      rcases List.mem_cons.mp hp with rfl | hp
      · exact List.mem_cons_self
      · exact List.mem_cons_of_mem _ (ih hp)

/-- A piece is not empty and lies below the bound. -/
theorem segmentsFrom_bounds {hi : ℤ} {l : List ℤ} (hl : l.Pairwise (· < ·)) (hhi : ∀ s ∈ l, s ≤ hi)
    {p : ℤ × ℤ} (hp : p ∈ segmentsFrom hi l) : p.1 ≤ p.2 ∧ p.2 ≤ hi := by
  induction l with
  | nil => simp [segmentsFrom] at hp
  | cons s l ih =>
    cases l with
    | nil =>
      obtain rfl := List.mem_singleton.mp hp
      exact ⟨hhi s List.mem_cons_self, le_rfl⟩
    | cons t rest =>
      obtain ⟨hs, hl⟩ := List.pairwise_cons.mp hl
      rcases List.mem_cons.mp hp with rfl | hp
      · have hst := hs t List.mem_cons_self
        have ht := hhi t (List.mem_cons_of_mem _ List.mem_cons_self)
        exact ⟨by simp only; omega, by simp only; omega⟩
      · exact ih hl (fun x hx => hhi x (List.mem_cons_of_mem _ hx)) hp

/-- No cut lies strictly inside a piece. -/
theorem segmentsFrom_atomic {hi : ℤ} {l : List ℤ} (hl : l.Pairwise (· < ·)) {p : ℤ × ℤ}
    (hp : p ∈ segmentsFrom hi l) {c : ℤ} (hc : c ∈ l) : c ≤ p.1 ∨ p.2 < c := by
  induction l with
  | nil => simp at hc
  | cons s l ih =>
    obtain ⟨hs, hl⟩ := List.pairwise_cons.mp hl
    cases l with
    | nil =>
      obtain rfl := List.mem_singleton.mp hp
      obtain rfl := List.mem_singleton.mp hc
      exact Or.inl le_rfl
    | cons t rest =>
      have hle : ∀ x ∈ t :: rest, t ≤ x := by
        intro x hx
        rcases List.mem_cons.mp hx with rfl | hx
        · exact le_rfl
        · exact le_of_lt ((List.pairwise_cons.mp hl).1 x hx)
      rcases List.mem_cons.mp hp with rfl | hp'
      · rcases List.mem_cons.mp hc with rfl | hc
        · exact Or.inl le_rfl
        · have := hle c hc
          exact Or.inr (by simp only; omega)
      · rcases List.mem_cons.mp hc with rfl | hc
        · -- the first cut is below every later piece
          exact Or.inl (le_of_lt (hs p.1 (segmentsFrom_start hp')))
        · exact ih hl hp' hc

/-- The pieces cover the interval from the first cut to the bound. -/
theorem segmentsFrom_cover {hi : ℤ} {l : List ℤ} {x : ℤ} (hx : ∃ s ∈ l, s ≤ x) (hxhi : x ≤ hi) :
    ∃ p ∈ segmentsFrom hi l, p.1 ≤ x ∧ x ≤ p.2 := by
  induction l with
  | nil => simp at hx
  | cons s l ih =>
    obtain ⟨c, hc, hcx⟩ := hx
    cases l with
    | nil =>
      obtain rfl := List.mem_singleton.mp hc
      exact ⟨(c, hi), List.mem_singleton_self _, hcx, hxhi⟩
    | cons t rest =>
      rcases lt_or_ge x t with hxt | hxt
      · rcases List.mem_cons.mp hc with rfl | hc
        · exact ⟨(c, t - 1), List.mem_cons_self, hcx, by simp only; omega⟩
        · obtain ⟨p, hp, h⟩ := ih ⟨c, hc, hcx⟩
          exact ⟨p, List.mem_cons_of_mem _ hp, h⟩
      · obtain ⟨p, hp, h⟩ := ih ⟨t, List.mem_cons_self, hxt⟩
        exact ⟨p, List.mem_cons_of_mem _ hp, h⟩

end Karac.Lib
