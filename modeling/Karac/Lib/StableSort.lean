import Mathlib

/-! Sorting by insertions and merges whose comparisons may answer anything, and what they come to when the answers
are those of a total preorder. -/

namespace Karac.Lib

section Built

variable {α : Type} (le gt : α → α → Prop)

/-- `out` merges two lists: `le x y` is what took the left head, `gt x y` what took the right one. -/
inductive Merged : List α → List α → List α → Prop
  | leftNil (ys : List α) : Merged [] ys ys
  | rightNil (xs : List α) : Merged xs [] xs
  | takeLeft {x y : α} {xs ys out : List α} : le x y → Merged xs (y :: ys) out → Merged (x :: xs) (y :: ys) (x :: out)
  | takeRight {x y : α} {xs ys out : List α} : gt x y → Merged (x :: xs) ys out →
    Merged (x :: xs) (y :: ys) (y :: out)

/-- `out` is `xs` with `hold` put behind the last element that does not compare greater. -/
structure Inserted (hold : α) (xs out : List α) : Prop where
  split : ∃ before after, xs = before ++ after ∧ out = before ++ hold :: after ∧ (∀ p ∈ after, gt p hold) ∧
    ∀ p, before.getLast? = some p → le p hold

/-- `out` came out of `xs` by insertions from the left and merges of adjacent parts. -/
inductive Built : List α → List α → Prop
  | nil : Built [] []
  | single (x : α) : Built [x] [x]
  | insert {xs ys out : List α} {hold : α} : Built xs ys → Inserted le gt hold ys out → Built (xs ++ [hold]) out
  | merge {xs ys xs' ys' out : List α} : Built xs xs' → Built ys ys' → Merged le gt xs' ys' out → Built (xs ++ ys) out

end Built

variable {α : Type} {le gt : α → α → Prop}

theorem Merged.perm {xs ys out : List α} (h : Merged le gt xs ys out) : out.Perm (xs ++ ys) := by
  induction h with
  | leftNil ys => exact .refl _
  | rightNil xs => rw [List.append_nil]
  | takeLeft _ _ ih => exact ih.cons _
  | @takeRight x y xs ys out _ _ ih =>
    have hmid : (y :: (x :: xs ++ ys)).Perm (x :: xs ++ y :: ys) := List.perm_middle.symm
    exact (ih.cons y).trans hmid

theorem Inserted.perm {hold : α} {xs out : List α} (h : Inserted le gt hold xs out) : out.Perm (xs ++ [hold]) := by
  obtain ⟨before, after, rfl, rfl, -, -⟩ := h.split
  rw [List.append_assoc]
  exact (List.perm_append_singleton hold after).symm.append_left before

theorem Built.perm {xs out : List α} (h : Built le gt xs out) : out.Perm xs := by
  induction h with
  | nil => exact .refl _
  | single x => exact .refl _
  | insert _ hins ih => exact hins.perm.trans (ih.append_right _)
  | merge _ _ hmerge ih ih' => exact hmerge.perm.trans (ih.append ih')

theorem Built.length_eq {xs out : List α} (h : Built le gt xs out) : out.length = xs.length := h.perm.length_eq

section Map

variable {β : Type} {le' gt' : β → β → Prop} {g : α → β}

theorem Merged.map (hle : ∀ x y, le x y → le' (g x) (g y)) (hgt : ∀ x y, gt x y → gt' (g x) (g y))
    {xs ys out : List α} (h : Merged le gt xs ys out) : Merged le' gt' (xs.map g) (ys.map g) (out.map g) := by
  induction h with
  | leftNil ys => exact .leftNil _
  | rightNil xs => exact .rightNil _
  | takeLeft hxy _ ih => exact .takeLeft (hle _ _ hxy) ih
  | takeRight hxy _ ih => exact .takeRight (hgt _ _ hxy) ih

theorem Inserted.map (hle : ∀ x y, le x y → le' (g x) (g y)) (hgt : ∀ x y, gt x y → gt' (g x) (g y))
    {hold : α} {xs out : List α} (h : Inserted le gt hold xs out) :
    Inserted le' gt' (g hold) (xs.map g) (out.map g) := by
  obtain ⟨before, after, rfl, rfl, hafter, hlast⟩ := h.split
  refine ⟨before.map g, after.map g, List.map_append, by simp, fun p hp => ?_, fun p hp => ?_⟩
  · obtain ⟨q, hq, rfl⟩ := List.mem_map.mp hp
    exact hgt q hold (hafter q hq)
  · rw [List.getLast?_map] at hp
    obtain ⟨q, hq, rfl⟩ := Option.map_eq_some_iff.mp hp
    exact hle q hold (hlast q hq)

/-- A function that carries the answers over carries the whole construction over. -/
theorem Built.map (hle : ∀ x y, le x y → le' (g x) (g y)) (hgt : ∀ x y, gt x y → gt' (g x) (g y))
    {xs out : List α} (h : Built le gt xs out) : Built le' gt' (xs.map g) (out.map g) := by
  induction h with
  | nil => exact .nil
  | single x => exact .single _
  | insert _ hins ih =>
    rw [List.map_append]
    exact .insert ih (hins.map hle hgt)
  | merge _ _ hmerge ih ih' =>
    rw [List.map_append]
    exact .merge ih ih' (hmerge.map hle hgt)

end Map

/-! Answers of a total preorder. -/

section Preorder

variable {r : α → α → Prop} [DecidableRel r]

/-- Two elements that compare equal. -/
def Tied (r : α → α → Prop) (x y : α) : Prop := r x y ∧ r y x

instance (x y : α) : Decidable (Tied r x y) := inferInstanceAs (Decidable (_ ∧ _))

/-- The elements that compare equal to `x`, in order. -/
def tiedWith (r : α → α → Prop) [DecidableRel r] (x : α) (l : List α) : List α := l.filter fun y => Tied r x y

@[simp] theorem tiedWith_append (x : α) (l l' : List α) :
    tiedWith r x (l ++ l') = tiedWith r x l ++ tiedWith r x l' := List.filter_append ..

theorem tiedWith_cons (x y : α) (l : List α) : tiedWith r x (y :: l) = tiedWith r x [y] ++ tiedWith r x l :=
  tiedWith_append x [y] l

theorem tiedWith_eq_nil {x : α} {l : List α} (h : ∀ y ∈ l, ¬ Tied r x y) : tiedWith r x l = [] := by
  simpa [tiedWith, List.filter_eq_nil_iff] using h

/-- `out` is `xs` sorted, with ties in their old order. -/
structure StableSortOf (r : α → α → Prop) [DecidableRel r] (xs out : List α) : Prop where
  sorted : out.Pairwise r
  perm : out.Perm xs
  stable : ∀ x, tiedWith r x out = tiedWith r x xs

variable [IsTrans α r]

/-- An element that ties with `x` passes over elements it lies strictly below. -/
theorem tiedWith_swap {x y : α} {l : List α} (h : ∀ z ∈ l, ¬ r z y) :
    tiedWith r x [y] ++ tiedWith r x l = tiedWith r x l ++ tiedWith r x [y] := by
  by_cases hxy : Tied r x y
  · have hl : tiedWith r x l = [] := tiedWith_eq_nil fun z hz hxz => h z hz (IsTrans.trans z x y hxz.2 hxy.1)
    rw [hl, List.append_nil, List.nil_append]
  · have hy : tiedWith r x [y] = [] := tiedWith_eq_nil fun z hz => by rwa [List.mem_singleton.mp hz]
    rw [hy, List.append_nil, List.nil_append]

variable [Std.Total r] (hle : ∀ x y, le x y → r x y) (hgt : ∀ x y, gt x y → ¬ r x y)
include hle hgt

omit [DecidableRel r] in
theorem Merged.sorted {xs ys out : List α} (h : Merged le gt xs ys out) (hxs : xs.Pairwise r) (hys : ys.Pairwise r) :
    out.Pairwise r := by
  induction h with
  | leftNil ys => exact hys
  | rightNil xs => exact hxs
  | @takeLeft x y xs ys out hxy hmerge ih =>
    obtain ⟨hx, hxs'⟩ := List.pairwise_cons.mp hxs
    refine List.pairwise_cons.mpr ⟨fun z hz => ?_, ih hxs' hys⟩
    rcases List.mem_append.mp (hmerge.perm.mem_iff.mp hz) with hz | hz
    · exact hx z hz
    · rcases List.mem_cons.mp hz with rfl | hz
      · exact hle x z hxy
      · exact IsTrans.trans x y z (hle x y hxy) ((List.pairwise_cons.mp hys).1 z hz)
  | @takeRight x y xs ys out hxy hmerge ih =>
    obtain ⟨hy, hys'⟩ := List.pairwise_cons.mp hys
    have hyx : r y x := (Std.Total.total x y).resolve_left (hgt x y hxy)
    refine List.pairwise_cons.mpr ⟨fun z hz => ?_, ih hxs hys'⟩
    rcases List.mem_append.mp (hmerge.perm.mem_iff.mp hz) with hz | hz
    · rcases List.mem_cons.mp hz with rfl | hz
      · exact hyx
      · exact IsTrans.trans y x z hyx ((List.pairwise_cons.mp hxs).1 z hz)
    · exact hy z hz

omit [Std.Total r] hle in
theorem Merged.stable {xs ys out : List α} (h : Merged le gt xs ys out) (hxs : xs.Pairwise r) (c : α) :
    tiedWith r c out = tiedWith r c (xs ++ ys) := by
  induction h with
  | leftNil ys => rfl
  | rightNil xs => rw [List.append_nil]
  | @takeLeft x y xs ys out hxy hmerge ih =>
    rw [tiedWith_cons c x out, ih (List.pairwise_cons.mp hxs).2, List.cons_append, tiedWith_cons c x (xs ++ y :: ys)]
  | @takeRight x y xs ys out hxy hmerge ih =>
    -- the right head lies strictly below everything still on the left
    have hbelow : ∀ z ∈ x :: xs, ¬ r z y := by
      intro z hz hzy
      rcases List.mem_cons.mp hz with rfl | hz
      · exact hgt z y hxy hzy
      · exact hgt x y hxy (IsTrans.trans x z y ((List.pairwise_cons.mp hxs).1 z hz) hzy)
    rw [tiedWith_cons c y out, ih hxs, tiedWith_append, ← List.append_assoc, tiedWith_swap hbelow, List.append_assoc,
      ← tiedWith_cons, ← tiedWith_append]

omit [DecidableRel r] in
theorem Inserted.sorted {hold : α} {xs out : List α} (h : Inserted le gt hold xs out) (hxs : xs.Pairwise r) :
    out.Pairwise r := by
  obtain ⟨before, after, rfl, rfl, hafter, hlast⟩ := h.split
  obtain ⟨hbefore, hafter', hcross⟩ := List.pairwise_append.mp hxs
  have hb : ∀ p ∈ before, r p hold := by
    intro p hp
    obtain ⟨init, last, rfl⟩ : ∃ init last, before = init ++ [last] :=
      ⟨_, _, (List.dropLast_append_getLast (List.ne_nil_of_mem hp)).symm⟩
    have hl : r last hold := hle last hold (hlast last (by simp))
    rcases List.mem_append.mp hp with hp | hp
    · exact IsTrans.trans p last hold ((List.pairwise_append.mp hbefore).2.2 p hp last (by simp)) hl
    · rwa [List.mem_singleton.mp hp]
  refine List.pairwise_append.mpr ⟨hbefore, List.pairwise_cons.mpr ⟨fun p hp => ?_, hafter'⟩, fun p hp q hq => ?_⟩
  · exact (Std.Total.total p hold).resolve_left (hgt p hold (hafter p hp))
  · rcases List.mem_cons.mp hq with rfl | hq
    · exact hb p hp
    · exact hcross p hp q hq

omit [Std.Total r] hle in
theorem Inserted.stable {hold : α} {xs out : List α} (h : Inserted le gt hold xs out) (c : α) :
    tiedWith r c out = tiedWith r c (xs ++ [hold]) := by
  obtain ⟨before, after, rfl, rfl, hafter, -⟩ := h.split
  rw [tiedWith_append, tiedWith_cons, tiedWith_swap fun z hz => hgt z hold (hafter z hz), tiedWith_append,
    tiedWith_append, List.append_assoc]

omit [DecidableRel r] in
theorem Built.sorted {xs out : List α} (h : Built le gt xs out) : out.Pairwise r := by
  induction h with
  | nil => exact .nil
  | single x => exact List.pairwise_singleton r x
  | insert _ hins ih => exact hins.sorted hle hgt ih
  | merge _ _ hmerge ih ih' => exact hmerge.sorted hle hgt ih ih'

/-- With the answers of a total preorder, insertions and merges sort, and keep ties in order. -/
theorem Built.stableSort {xs out : List α} (h : Built le gt xs out) : StableSortOf r xs out := by
  refine ⟨h.sorted hle hgt, h.perm, fun c => ?_⟩
  induction h with
  | nil => rfl
  | single x => rfl
  | insert _ hins ih => rw [hins.stable hgt, tiedWith_append, ih, ← tiedWith_append]
  | merge hb _ hmerge ih ih' =>
    rw [hmerge.stable hgt (hb.sorted hle hgt), tiedWith_append, ih, ih', ← tiedWith_append]

end Preorder

section Unique

variable {r : α → α → Prop} [DecidableRel r] [Std.Total r]

omit [DecidableRel r] in
theorem tied_refl (x : α) : Tied r x x := ⟨(Std.Total.total x x).elim id id, (Std.Total.total x x).elim id id⟩

theorem tiedWith_head (x : α) (l : List α) : tiedWith r x (x :: l) = x :: tiedWith r x l := by
  simp [tiedWith, tied_refl x]

/-- A list has one stable sort. -/
theorem StableSortOf.unique {xs out out' : List α} (h : StableSortOf r xs out) (h' : StableSortOf r xs out') :
    out = out' := by
  have hperm : out.Perm out' := h.perm.trans h'.perm.symm
  have hstable : ∀ x, tiedWith r x out = tiedWith r x out' := fun x => (h.stable x).trans (h'.stable x).symm
  have hsorted := h.sorted
  have hsorted' := h'.sorted
  clear h h'
  induction out generalizing out' with
  | nil => exact (List.nil_perm.mp hperm).symm
  | cons x out ih =>
    cases out' with
    | nil => exact absurd hperm.symm (by simp)
    | cons y out' =>
      obtain ⟨hx, hout⟩ := List.pairwise_cons.mp hsorted
      obtain ⟨hy, hout'⟩ := List.pairwise_cons.mp hsorted'
      -- both heads are least elements of the same list, so they tie, and the class of ties starts with both
      have hxy : r x y := by
        rcases List.mem_cons.mp (hperm.mem_iff.mpr (List.mem_cons_self : y ∈ y :: out')) with heq | hmem
        · rw [heq]; exact (tied_refl x).1
        · exact hx y hmem
      have hyx : r y x := by
        rcases List.mem_cons.mp (hperm.mem_iff.mp (List.mem_cons_self : x ∈ x :: out)) with heq | hmem
        · rw [heq]; exact (tied_refl y).1
        · exact hy x hmem
      have hhead := hstable x
      rw [tiedWith_head, tiedWith_cons] at hhead
      have hyself : tiedWith r x [y] = [y] := by simp [tiedWith, Tied, hxy, hyx]
      rw [hyself] at hhead
      obtain rfl : x = y := (List.cons.inj hhead).1
      congr 1
      refine ih hperm.cons_inv (fun c => ?_) hout hout'
      have hc := hstable c
      rw [tiedWith_cons c x out, tiedWith_cons c x out'] at hc
      exact List.append_cancel_left hc

end Unique

end Karac.Lib
