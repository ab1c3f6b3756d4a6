import Mathlib

/-! Picking the elements of a list from the front, each unless one picked before beats it. Which elements these are can
be told from the relation alone: those that only losers beat. -/

namespace Karac.Lib

section Stands

variable {α : Type*} (beats : α → α → Prop) (s : Set α)

mutual

/-- Only losers beat `x`. -/
inductive Stands : α → Prop
  | intro {x : α} : (∀ y ∈ s, beats y x → Loses y) → Stands x

/-- An element that stands beats `x`. -/
inductive Loses : α → Prop
  | intro {x y : α} : y ∈ s → beats y x → Stands y → Loses x

end

variable {beats s}

theorem Stands.not_loses {x : α} (h : Stands beats s x) : ¬ Loses beats s x := by
  refine @Stands.rec α beats s (fun x _ => ¬ Loses beats s x) (fun x _ => ¬ Stands beats s x) ?_ ?_ x h
  · intro x _ ih hx
    obtain ⟨hy, hyx, hstands⟩ := hx
    exact ih _ hy hyx hstands
  · intro x y hy hyx _ ih hx
    obtain ⟨hlose⟩ := hx
    exact ih (hlose y hy hyx)

end Stands

section Sift

variable {α : Type*} (beats : α → α → Prop) [DecidableRel beats]

/-- Goes through a list and keeps what nothing kept so far beats. -/
def sift (kept : List α) : List α → List α
  | [] => kept
  | x :: rest => if ∃ y ∈ kept, beats y x then sift kept rest else sift (kept ++ [x]) rest

variable {beats}

theorem sift_sublist (kept rest : List α) : (sift beats kept rest).Sublist (kept ++ rest) := by
  induction rest generalizing kept with
  | nil => rw [sift, List.append_nil]
  | cons x rest ih =>
    rw [sift]
    split
    · exact (ih kept).trans ((List.sublist_cons_self x rest).append_left kept)
    · have h := ih (kept ++ [x])
      rwa [List.append_assoc] at h

/-- Nothing that is kept beats what is kept after it. -/
theorem sift_pairwise {kept : List α} (rest : List α) (h : kept.Pairwise fun y x => ¬ beats y x) :
    (sift beats kept rest).Pairwise fun y x => ¬ beats y x := by
  induction rest generalizing kept with
  | nil => exact h
  | cons x rest ih =>
    rw [sift]
    split
    · exact ih h
    · rename_i hx
      refine ih (List.pairwise_append.mpr ⟨h, List.pairwise_singleton _ x, fun y hy z hz hyz => ?_⟩)
      rw [List.mem_singleton.mp hz] at hyz
      exact hx ⟨y, hy, hyz⟩

/-- What nothing before it beats is kept, every time it occurs. -/
theorem filter_sift {P : α → Bool} (kept rest : List α) (h : (kept ++ rest).Pairwise fun y x => P x → ¬ beats y x) :
    (sift beats kept rest).filter P = (kept ++ rest).filter P := by
  induction rest generalizing kept with
  | nil => rw [sift, List.append_nil]
  | cons x rest ih =>
    rw [sift]
    split
    · rename_i hx
      obtain ⟨y, hy, hyx⟩ := hx
      have hnot : ¬ P x := fun hPx => (List.pairwise_append.mp h).2.2 y hy x List.mem_cons_self hPx hyx
      rw [ih kept (h.sublist ((List.sublist_cons_self x rest).append_left kept)), List.filter_append,
        List.filter_append, List.filter_cons_of_neg hnot]
    · rw [ih (kept ++ [x]) (by simpa using h), List.append_assoc, List.singleton_append]

/-- A function that keeps who beats whom, of two elements in order, carries the picking over. -/
theorem map_sift {β : Type*} {beats' : β → β → Prop} [DecidableRel beats'] (f : α → β) (kept rest : List α)
    (h : (kept ++ rest).Pairwise fun y x => beats y x ↔ beats' (f y) (f x)) :
    (sift beats kept rest).map f = sift beats' (kept.map f) (rest.map f) := by
  induction rest generalizing kept with
  | nil => rfl
  | cons x rest ih =>
    have hiff : (∃ y ∈ kept, beats y x) ↔ ∃ y ∈ kept.map f, beats' y (f x) := by
      have hx : ∀ y ∈ kept, (beats y x ↔ beats' (f y) (f x)) := fun y hy =>
        (List.pairwise_append.mp h).2.2 y hy x List.mem_cons_self
      constructor
      · rintro ⟨y, hy, hyx⟩
        exact ⟨f y, List.mem_map_of_mem hy, (hx y hy).mp hyx⟩
      · rintro ⟨_, hfy, hyx⟩
        obtain ⟨y, hy, rfl⟩ := List.mem_map.mp hfy
        exact ⟨y, hy, (hx y hy).mpr hyx⟩
    rw [sift, List.map_cons, sift]
    by_cases hbeaten : ∃ y ∈ kept, beats y x
    · rw [if_pos hbeaten, if_pos (hiff.mp hbeaten)]
      exact ih kept (h.sublist ((List.sublist_cons_self x rest).append_left kept))
    · rw [if_neg hbeaten, if_neg (mt hiff.mpr hbeaten), ih (kept ++ [x]) (by simpa using h), List.map_append,
        List.map_singleton]

/-- Picking from a list in which nothing beats what is before it. `done` is the part that has been gone through. -/
theorem sift_stands {all : List α} (hnodup : all.Nodup) (hirrefl : ∀ x ∈ all, ¬ beats x x)
    (horder : all.Pairwise fun x y => ¬ beats y x) {done kept rest : List α} (hall : all = done ++ rest)
    (hsub : kept ⊆ done)
    (hdone : ∀ x ∈ done, (x ∈ kept → Stands beats {y | y ∈ all} x) ∧ (x ∉ kept → Loses beats {y | y ∈ all} x)) :
    ∀ x ∈ all, (x ∈ sift beats kept rest → Stands beats {y | y ∈ all} x) ∧
      (x ∉ sift beats kept rest → Loses beats {y | y ∈ all} x) := by
  induction rest generalizing done kept with
  | nil =>
    rw [List.append_nil] at hall
    subst hall
    exact hdone
  | cons x rest ih =>
    have hx : x ∈ all := by simp [hall]
    have hxkept : x ∉ kept := by
      intro hmem
      rw [hall] at hnodup
      exact (List.nodup_append.mp hnodup).2.2 x (hsub hmem) x List.mem_cons_self rfl
    have hsplit : all = (done ++ [x]) ++ rest := by simp [hall]
    rw [sift]
    split
    · rename_i hbeaten
      obtain ⟨y, hy, hyx⟩ := hbeaten
      refine ih hsplit (List.Subset.trans hsub (List.subset_append_left _ _)) fun z hz => ?_
      rcases List.mem_append.mp hz with hz | hz
      · exact hdone z hz
      · rw [List.mem_singleton.mp hz]
        have hyall : y ∈ all := by simp [hall, hsub hy]
        exact ⟨fun h => absurd h hxkept, fun _ => .intro hyall hyx ((hdone y (hsub hy)).1 hy)⟩
    · rename_i hbeaten
      have hstands : Stands beats {y | y ∈ all} x := by
        refine .intro fun y hy hyx => ?_
        -- what beats `x` comes before it, and is not among the kept
        have hy' : y ∈ done ∨ y = x ∨ y ∈ rest := by simpa [hall] using hy
        rcases hy' with hy' | rfl | hy'
        · exact (hdone y hy').2 fun hkept => hbeaten ⟨y, hkept, hyx⟩
        · exact absurd hyx (hirrefl y hx)
        · rw [hall] at horder
          exact absurd hyx ((List.pairwise_cons.mp (List.pairwise_append.mp horder).2.1).1 y hy')
      have hsub' : kept ++ [x] ⊆ done ++ [x] := List.append_subset.mpr
        ⟨List.Subset.trans hsub (List.subset_append_left _ _), List.subset_append_right _ _⟩
      refine ih hsplit hsub' fun z hz => ?_
      rcases List.mem_append.mp hz with hz | hz
      · refine ⟨fun hmem => ?_, fun hmem => (hdone z hz).2 fun hk => hmem (List.mem_append_left _ hk)⟩
        rcases List.mem_append.mp hmem with hk | hk
        · exact (hdone z hz).1 hk
        · rwa [List.mem_singleton.mp hk]
      · rw [List.mem_singleton.mp hz]
        exact ⟨fun _ => hstands, fun h => absurd (by simp) h⟩

/-- The elements that are kept are those that stand. -/
theorem mem_sift_iff_stands {all : List α} (hnodup : all.Nodup) (hirrefl : ∀ x ∈ all, ¬ beats x x)
    (horder : all.Pairwise fun x y => ¬ beats y x) {x : α} (hx : x ∈ all) :
    x ∈ sift beats [] all ↔ Stands beats {y | y ∈ all} x := by
  have h := sift_stands hnodup hirrefl horder (List.nil_append all).symm (List.Subset.refl []) (by simp) x hx
  exact ⟨h.1, fun hstands => by_contra fun hmem => hstands.not_loses (h.2 hmem)⟩

end Sift

end Karac.Lib
