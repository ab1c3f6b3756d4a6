import Mathlib

/-! A range of indices cut into half-open chunks: which chunks hand out each index once, and the fold of an associative
operation over the chunks' own folds. -/

namespace Karac.Lib

/-- The indices of a half-open range, none where it ends before it starts. -/
def between (start stop : ℕ) : List ℕ := List.range' start (stop - start)

theorem mem_between {start stop i : ℕ} : i ∈ between start stop ↔ start ≤ i ∧ i < stop := by
  simp only [between, List.mem_range'_1]
  omega

theorem between_zero (stop : ℕ) : between 0 stop = List.range stop := List.range_eq_range'.symm

theorem between_append {a b c : ℕ} (hab : a ≤ b) (hbc : b ≤ c) : between a b ++ between b c = between a c := by
  have hlen : c - a = (b - a) + (c - b) := by omega
  rw [between, between, between, hlen, ← List.range'_append_1, Nat.add_sub_cancel' hab]

/-- The `k`th chunk of a size below a total. -/
def chunkAt (size total k : ℕ) : ℕ × ℕ := (k * size, min ((k + 1) * size) total)

def visits (calls : List (ℕ × ℕ)) : List ℕ := calls.flatMap fun call => between call.1 call.2

theorem visits_append (calls more : List (ℕ × ℕ)) : visits (calls ++ more) = visits calls ++ visits more :=
  List.flatMap_append

/-- The first chunks hold the indices up to where they end, in order. Chunks past the total are empty. -/
theorem visits_chunks (size total n : ℕ) :
    visits ((List.range n).map (chunkAt size total)) = List.range (min (n * size) total) := by
  induction n with
  | zero => simp [visits]
  | succ n ih =>
    rw [List.range_succ, List.map_append, visits_append, ih, ← between_zero, ← between_zero]
    have hstep : (n + 1) * size = n * size + size := Nat.succ_mul n size
    have hlast : visits ([n].map (chunkAt size total)) = between (n * size) (min ((n + 1) * size) total) := by
      simp [visits, chunkAt]
    rw [hlast]
    rcases Nat.lt_or_ge total (n * size) with hpast | hin
    · have hempty : between (n * size) (min ((n + 1) * size) total) = [] := by
        rw [between, show min ((n + 1) * size) total - n * size = 0 by omega]
        rfl
      rw [hempty, List.append_nil, show min ((n + 1) * size) total = min (n * size) total by omega]
    · rw [Nat.min_eq_left hin]
      exact between_append (Nat.zero_le _) (by omega)

/-- Each index below the total is in one call, and no call has another. -/
structure Covers (total : ℕ) (calls : List (ℕ × ℕ)) : Prop where
  once : ∀ i < total, calls.countP (fun call => decide (call.1 ≤ i ∧ i < call.2)) = 1
  within : ∀ call ∈ calls, ∀ i, call.1 ≤ i → i < call.2 → i < total

theorem count_visits (calls : List (ℕ × ℕ)) (i : ℕ) :
    (visits calls).count i = calls.countP fun call => decide (call.1 ≤ i ∧ i < call.2) := by
  induction calls with
  | nil => rfl
  | cons call calls ih =>
    have hcons : visits (call :: calls) = between call.1 call.2 ++ visits calls := rfl
    rw [hcons, List.count_append, ih, List.countP_cons, Nat.add_comm]
    congr 1
    have hnodup : (between call.1 call.2).Nodup := List.nodup_range'
    rw [hnodup.count]
    simp only [mem_between, decide_eq_true_eq]

theorem Covers.of_perm {total : ℕ} {calls : List (ℕ × ℕ)} (h : (visits calls).Perm (List.range total)) : Covers total calls where
  once i hi := by
    rw [← count_visits, h.count_eq, List.nodup_range.count, if_pos (List.mem_range.mpr hi)]
  within call hcall i hle hlt := by
    have hmem : i ∈ visits calls := List.mem_flatMap.mpr ⟨call, hcall, mem_between.mpr ⟨hle, hlt⟩⟩
    exact List.mem_range.mp (h.subset hmem)

theorem Covers.perm {total : ℕ} {calls : List (ℕ × ℕ)} (h : Covers total calls) : (visits calls).Perm (List.range total) := by
  rw [List.perm_iff_count]
  intro i
  rw [count_visits, List.nodup_range.count]
  by_cases hi : i < total
  · rw [if_pos (List.mem_range.mpr hi), h.once i hi]
  · rw [if_neg (by simpa using hi), List.countP_eq_zero]
    intro call hcall hin
    obtain ⟨hle, hlt⟩ := of_decide_eq_true hin
    exact hi (h.within call hcall i hle hlt)

/-- Calls in any order that are the chunks up to the total cover it. -/
theorem Covers.of_chunks {size total n : ℕ} {calls : List (ℕ × ℕ)} (hn : total ≤ n * size)
    (h : calls.Perm ((List.range n).map (chunkAt size total))) : Covers total calls := by
  refine .of_perm ((h.flatMap_right _).trans ?_)
  have hvisits := visits_chunks size total n
  rw [Nat.min_eq_right hn] at hvisits
  exact List.Perm.of_eq hvisits

/-! Folds. -/

section

variable {α β : Type*} (op : α → α → α) (e : α) [Std.Associative op] [Std.LawfulIdentity op e]

theorem foldl_op (a : α) (l : List α) : l.foldl op a = op a (l.foldl op e) := by
  have hright : op a e = a := Std.LawfulRightIdentity.right_id a
  have hassoc : l.foldl op (op a e) = op a (l.foldl op e) := List.foldl_assoc
  rwa [hright] at hassoc

/-- The fold over all is the fold over the folds of the parts, in their order. -/
theorem foldl_flatMap_op (f : β → List α) (l : List β) :
    (l.flatMap f).foldl op e = (l.map fun b => (f b).foldl op e).foldl op e := by
  induction l with
  | nil => rfl
  | cons b l ih =>
    have hleft (a : α) : op e a = a := Std.LawfulLeftIdentity.left_id a
    rw [List.flatMap_cons, List.foldl_append, foldl_op op e, ih, List.map_cons, List.foldl_cons,
      hleft, ← foldl_op op e]

end

end Karac.Lib
