import Mathlib

/-! Parts of a list by position, and a part written over. -/

namespace Karac.Lib

variable {α : Type}

/-- The elements from position `i` up to `j`. -/
def slice (l : List α) (i j : ℕ) : List α := (l.take j).drop i

/-- `l` with `out` written over it from position `k` on. -/
def splice (l : List α) (k : ℕ) (out : List α) : List α := l.take k ++ out ++ l.drop (k + out.length)

theorem slice_empty {l : List α} {i j : ℕ} (h : j ≤ i) : slice l i j = [] :=
  List.drop_eq_nil_of_le (le_trans (List.length_take_le j l) h)

theorem slice_past {l : List α} {i j : ℕ} (h : l.length ≤ i) : slice l i j = [] :=
  List.drop_eq_nil_of_le (le_trans (List.length_take_le' j l) h)

theorem slice_length {l : List α} {i j : ℕ} (h : j ≤ l.length) : (slice l i j).length = j - i := by
  rw [slice, List.length_drop, List.length_take_of_le h]

theorem slice_whole {l : List α} {j : ℕ} (h : l.length ≤ j) : slice l 0 j = l := by
  rw [slice, List.take_of_length_le h, List.drop_zero]

theorem slice_min {l : List α} {i j : ℕ} : slice l i (min j l.length) = slice l i j := by
  rw [slice, slice, ← List.take_take, List.take_length]

theorem slice_cons {l : List α} {i j : ℕ} {x : α} (hij : i < j) (hx : l[i]? = some x) :
    slice l i j = x :: slice l (i + 1) j := by
  obtain ⟨hi, hxi⟩ := List.getElem?_eq_some_iff.mp hx
  have hlen : i < (l.take j).length := by rw [List.length_take]; omega
  rw [slice, List.drop_eq_getElem_cons hlen, List.getElem_take, hxi, slice]

theorem slice_snoc {l : List α} {i j : ℕ} {x : α} (hij : i ≤ j) (hx : l[j]? = some x) :
    slice l i (j + 1) = slice l i j ++ [x] := by
  obtain ⟨hj, hxj⟩ := List.getElem?_eq_some_iff.mp hx
  rw [slice, List.take_add_one, hx, Option.toList_some, List.drop_append_of_le_length, slice]
  rw [List.length_take]
  omega

theorem slice_append {l : List α} {i j k : ℕ} (hij : i ≤ j) (hjk : j ≤ k) :
    slice l i j ++ slice l j k = slice l i k := by
  rw [slice, slice, slice]
  by_cases hj : j ≤ l.length
  · have hsplit : l.take k = l.take j ++ (l.take k).drop j := by
      have htake : (l.take k).take j = l.take j := by rw [List.take_take, min_eq_left hjk]
      rw [← htake, List.take_append_drop]
    conv_rhs => rw [hsplit]
    rw [List.drop_append_of_le_length (by rw [List.length_take_of_le hj]; exact hij)]
  · have hlen : l.length ≤ j := by omega
    rw [List.take_of_length_le hlen, List.take_of_length_le (le_trans hlen hjk), List.drop_eq_nil_of_le hlen,
      List.append_nil]

theorem mem_of_mem_slice {l : List α} {i j : ℕ} {x : α} (h : x ∈ slice l i j) : x ∈ l :=
  List.mem_of_mem_take (List.mem_of_mem_drop h)

theorem getElem_mem_slice {l : List α} {i j k : ℕ} {x : α} (hx : l[k]? = some x) (hik : i ≤ k) (hkj : k < j) :
    x ∈ slice l i j := by
  rw [← slice_append hik hkj.le, slice_cons hkj hx]
  exact List.mem_append_right _ List.mem_cons_self

theorem splice_length {l out : List α} {k : ℕ} (h : k + out.length ≤ l.length) : (splice l k out).length = l.length := by
  simp only [splice, List.length_append, List.length_take, List.length_drop]
  omega

theorem splice_nil (l : List α) (k : ℕ) : splice l k [] = l := by simp [splice]

theorem splice_whole {l out : List α} (h : out.length = l.length) : splice l 0 out = out := by
  simp [splice, h]

theorem splice_set {l out : List α} {k : ℕ} {x : α} (h : k < l.length) :
    splice (l.set k x) (k + 1) out = splice l k (x :: out) := by
  have htake : (l.set k x).take (k + 1) = l.take k ++ [x] := by
    rw [List.take_add_one, List.getElem?_set_self h, Option.toList_some, List.take_set_of_le le_rfl]
  have hdrop : (l.set k x).drop (k + 1 + out.length) = l.drop (k + (x :: out).length) := by
    rw [List.drop_set_of_lt (by omega), List.length_cons]
    congr 1
    omega
  simp only [splice, htake, hdrop, List.append_assoc, List.cons_append, List.nil_append]

theorem splice_splice {l out out' : List α} {k : ℕ} (h : k + out.length + out'.length ≤ l.length) :
    splice (splice l k out) (k + out.length) out' = splice l k (out ++ out') := by
  have hlen : (l.take k ++ out).length = k + out.length := by simp; omega
  have htake : (splice l k out).take (k + out.length) = l.take k ++ out := by
    rw [splice, ← hlen, List.take_left]
  have hdrop : (splice l k out).drop (k + out.length + out'.length) = l.drop (k + (out ++ out').length) := by
    rw [splice, ← List.drop_drop, ← hlen, List.drop_left, List.drop_drop, hlen]
    congr 1
    simp
    omega
  rw [splice, htake, hdrop, splice, List.append_assoc]
  simp

/-- What lies before a written part is as it was. -/
theorem slice_splice_of_le {l out : List α} {k i j : ℕ} (hk : k ≤ l.length) (hj : j ≤ k) :
    slice (splice l k out) i j = slice l i j := by
  rw [slice, splice, List.append_assoc, List.take_append_of_le_length (by rw [List.length_take_of_le hk]; exact hj),
    List.take_take, min_eq_left hj, slice]

/-- The written part, seen through a window that ends with it or with the list. -/
theorem slice_splice_self {l out : List α} {k j : ℕ} (hk : k ≤ l.length) (hout : k + out.length = min j l.length) :
    slice (splice l k out) k j = out := by
  have hlen : (l.take k).length = k := List.length_take_of_le hk
  by_cases hj : j ≤ l.length
  · have hj' : j = (l.take k ++ out).length := by rw [List.length_append, hlen]; omega
    rw [slice, splice, hj', List.take_left]
    exact List.drop_left' hlen
  · have hrest : l.drop (k + out.length) = [] := List.drop_eq_nil_of_le (by omega)
    rw [slice, splice, hrest, List.append_nil, List.take_of_length_le (by rw [List.length_append, hlen]; omega)]
    exact List.drop_left' hlen

theorem slice_set_of_le {l : List α} {i j k : ℕ} {x : α} (h : j ≤ k) : slice (l.set k x) i j = slice l i j := by
  rw [slice, List.take_set_of_le h, slice]

theorem getElem?_splice_of_le {l out : List α} {k i : ℕ} (hk : k ≤ l.length) (hi : k + out.length ≤ i) :
    (splice l k out)[i]? = l[i]? := by
  have hlen : (l.take k ++ out).length = k + out.length := by rw [List.length_append, List.length_take_of_le hk]
  rw [splice, List.getElem?_append_right (by omega), hlen, List.getElem?_drop, Nat.add_sub_of_le hi]

theorem splice_splice_self {l out out' : List α} {k : ℕ} (hk : k ≤ l.length) (h : out.length ≤ out'.length) :
    splice (splice l k out) k out' = splice l k out' := by
  have hlen : (l.take k ++ out).length = k + out.length := by rw [List.length_append, List.length_take_of_le hk]
  have htake : (splice l k out).take k = l.take k := by
    rw [splice, List.append_assoc, List.take_left' (List.length_take_of_le hk)]
  have hdrop : (splice l k out).drop (k + out'.length) = l.drop (k + out'.length) := by
    rw [splice, List.drop_append, hlen, List.drop_eq_nil_of_le (by omega), List.nil_append, List.drop_drop]
    congr 1
    omega
  rw [splice, htake, hdrop, splice]

theorem splice_slice_self {l : List α} {i j : ℕ} (hij : i ≤ j) (hj : j ≤ l.length) : splice l i (slice l i j) = l := by
  have htake : l.take i ++ slice l i j = l.take j := by
    have h := slice_append (l := l) (Nat.zero_le i) hij
    simp only [slice, List.drop_zero] at h ⊢
    exact h
  rw [splice, slice_length hj, htake, Nat.add_sub_of_le hij, List.take_append_drop]

/-- One element written, as a part written over from some earlier position. -/
theorem set_eq_splice {l : List α} {i j : ℕ} {x : α} (hij : i ≤ j) (hj : j < l.length) :
    l.set j x = splice l i (slice l i j ++ [x]) := by
  have hset : splice (l.set j x) (j + 1) [] = splice l j [x] := splice_set hj
  have hslice := splice_slice_self hij hj.le
  have hlen : (slice l i j).length = j - i := slice_length hj.le
  have hfits : i + (slice l i j).length + [x].length ≤ l.length := by
    rw [hlen, List.length_singleton]
    omega
  have hsplice := splice_splice hfits
  rw [hslice, hlen, Nat.add_sub_of_le hij] at hsplice
  rw [← hsplice, ← hset, splice_nil]

/-- The element right behind a written part. -/
theorem splice_set_behind {l out : List α} {k : ℕ} {x : α} (h : k + out.length < l.length) :
    splice (l.set (k + out.length) x) k out = splice l k (out ++ [x]) := by
  have htake : (l.set (k + out.length) x).take k = l.take k := List.take_set_of_le (by omega)
  have hdrop : (l.set (k + out.length) x).drop (k + out.length) = x :: l.drop (k + (out ++ [x]).length) := by
    rw [List.drop_eq_getElem_cons (by rw [List.length_set]; exact h), List.getElem_set_self,
      List.drop_set_of_lt (by omega), List.length_append, List.length_singleton, Nat.add_assoc]
  rw [splice, htake, hdrop, splice]
  simp

end Karac.Lib

/-! One element of a list that slides past its neighbours, by swaps of two that stand next to each other. -/

namespace Karac.Lib

variable {α β : Type*} {before between after : List α} {a : α}

theorem perm_slide : (before ++ a :: (between ++ after)).Perm (before ++ (between ++ a :: after)) :=
  List.perm_middle.symm.append_left before

/-- What no swap of two that may be swapped changes, a slide does not change. -/
theorem slide_eq {swappable : α → α → Prop} {f : List α → β}
    (hswap : ∀ before after a b, swappable a b → f (before ++ a :: b :: after) = f (before ++ b :: a :: after))
    (h : ∀ b ∈ between, swappable a b) : f (before ++ a :: (between ++ after)) = f (before ++ (between ++ a :: after)) := by
  induction between generalizing before with
  | nil => rfl
  | cons b between ih =>
    obtain ⟨hb, hbetween⟩ := List.forall_mem_cons.mp h
    have hnext : f ((before ++ [b]) ++ a :: (between ++ after)) = f ((before ++ [b]) ++ (between ++ a :: after)) :=
      ih hbetween
    rw [List.append_assoc, List.append_assoc, List.singleton_append, List.singleton_append] at hnext
    rw [List.cons_append, hswap _ _ _ _ hb, hnext, List.cons_append]

section

variable {r : α → α → Prop}

/-- Only the order between the element and those that it slides past is new. -/
theorem pairwise_slide_left (h : (before ++ (between ++ a :: after)).Pairwise r) (hnew : ∀ b ∈ between, r a b) :
    (before ++ a :: (between ++ after)).Pairwise r := by
  simp only [List.pairwise_append, List.pairwise_cons, List.mem_append, List.mem_cons] at h ⊢
  grind

theorem pairwise_slide_right (h : (before ++ a :: (between ++ after)).Pairwise r) (hnew : ∀ b ∈ between, r b a) :
    (before ++ (between ++ a :: after)).Pairwise r := by
  simp only [List.pairwise_append, List.pairwise_cons, List.mem_append, List.mem_cons] at h ⊢
  grind

end

/-- Where pairs that stand the other way round are not related, related ones stand in order. -/
theorem idxOf_lt_of_pairwise [DecidableEq α] {l : List α} {r : α → α → Prop} (h : l.Pairwise fun x y => ¬r y x) {a b : α}
    (ha : a ∈ l) (hb : b ∈ l) (hne : a ≠ b) (hr : r a b) : l.idxOf a < l.idxOf b := by
  have hla : l.idxOf a < l.length := List.idxOf_lt_length_of_mem ha
  have hlb : l.idxOf b < l.length := List.idxOf_lt_length_of_mem hb
  by_contra hge
  rcases Nat.lt_or_eq_of_le (not_lt.mp hge) with hlt | heq
  · have hnot := List.pairwise_iff_getElem.mp h _ _ hlb hla hlt
    rw [List.getElem_idxOf, List.getElem_idxOf] at hnot
    exact hnot hr
  · exact hne ((List.idxOf_inj ha).mp heq.symm)

end Karac.Lib
