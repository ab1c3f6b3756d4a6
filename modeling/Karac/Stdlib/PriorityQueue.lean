import Karac.Lib.BinaryHeap

/-! `PriorityQueue`: a binary heap in a vector. -/

namespace Karac.Stdlib

open Lib.BinaryHeap

structure PriorityQueue (α : Type) where
  xs : Array α
  max : Bool

namespace PriorityQueue

variable {α : Type}

def new : PriorityQueue α := ⟨#[], false⟩

def maxFirst : PriorityQueue α := ⟨#[], true⟩

/-- An index out of range is `none`, here and in the other operations. -/
def swap (q : PriorityQueue α) (i j : ℕ) : Option (PriorityQueue α) :=
  if h : i < q.xs.size ∧ j < q.xs.size then some { q with xs := q.xs.swap i j h.1 h.2 } else none

theorem size_swap {q q' : PriorityQueue α} {i j : ℕ} (h : q.swap i j = some q') : q'.xs.size = q.xs.size := by
  unfold swap at h
  split_ifs at h
  cases h
  exact Array.size_swap

theorem lt_of_swap {q q' : PriorityQueue α} {i j : ℕ} (h : q.swap i j = some q') : j < q.xs.size := by
  unfold swap at h
  split_ifs at h with hij
  exact hij.2

/-- The queue holds the same elements in the same direction. -/
structure Reorders (q q' : PriorityQueue α) : Prop where
  max : q'.max = q.max
  perm : List.Perm q'.xs.toList q.xs.toList

namespace Reorders

variable {q q' q'' : PriorityQueue α}

theorem refl (q : PriorityQueue α) : Reorders q q := ⟨rfl, .refl _⟩

theorem trans (h : Reorders q q') (h' : Reorders q' q'') : Reorders q q'' :=
  ⟨h'.max.trans h.max, h'.perm.trans h.perm⟩

end Reorders

section

variable {q : PriorityQueue α} {i j : ℕ}

theorem swap_eq (hi : i < q.xs.size) (hj : j < q.xs.size) : q.swap i j = some { q with xs := q.xs.swap i j } :=
  dif_pos ⟨hi, hj⟩

theorem reorders_swap (hi : i < q.xs.size) (hj : j < q.xs.size) : Reorders q { q with xs := q.xs.swap i j } :=
  ⟨rfl, Array.perm_iff_toList_perm.mp (Array.swap_perm hi hj)⟩

end

variable [LinearOrder α]

def outranks (q : PriorityQueue α) (i j : ℕ) : Option Bool := do
  let x ← q.xs[i]?
  let y ← q.xs[j]?
  return decide (if q.max then y < x else x < y)

def siftUp (q : PriorityQueue α) (i : ℕ) : Option (PriorityQueue α) :=
  if 0 < i then do
    let parent := (i - 1) / 2
    if ← q.outranks i parent then
      let q ← q.swap i parent
      siftUp q parent
    else return q
  else some q
termination_by i
decreasing_by omega

/-- `c` where it is there and outranks `b`. -/
def higher (q : PriorityQueue α) (b c : ℕ) : Option ℕ :=
  if c < q.xs.size then (q.outranks c b).map fun outranks => if outranks then c else b else some b

/-- The one of `i` and its children that outranks the others. -/
def best (q : PriorityQueue α) (i : ℕ) : Option ℕ := do
  let best ← q.higher i (2 * i + 1)
  q.higher best (2 * i + 2)

theorem higher_cases {q : PriorityQueue α} {b c d : ℕ} (h : q.higher b c = some d) : d = b ∨ d = c := by
  unfold higher at h
  split_ifs at h
  · obtain ⟨outranks, -, rfl⟩ := Option.map_eq_some_iff.mp h
    cases outranks
    · exact Or.inl rfl
    · exact Or.inr rfl
  · exact Or.inl (Option.some.inj h).symm

theorem best_cases {q : PriorityQueue α} {i b : ℕ} (h : q.best i = some b) : b = i ∨ b = 2 * i + 1 ∨ b = 2 * i + 2 := by
  obtain ⟨l, hl, hr⟩ := Option.bind_eq_some_iff.mp h
  rcases higher_cases hr with rfl | rfl
  · exact (higher_cases hl).imp_right Or.inl
  · exact Or.inr (Or.inr rfl)

def siftDown (q : PriorityQueue α) (i : ℕ) : Option (PriorityQueue α) :=
  match _hb : q.best i with
  | none => none
  | some b =>
    if b = i then some q
    else match _hs : q.swap i b with
      | none => none
      | some q' => siftDown q' b
termination_by q.xs.size - i
decreasing_by
  have hsize := size_swap _hs
  have hlt := lt_of_swap _hs
  have hcases := best_cases _hb
  omega

/-- The loop of `heapify` from `i = k - 1` down to 0. -/
def heapifyFrom (q : PriorityQueue α) : ℕ → Option (PriorityQueue α)
  | 0 => some q
  | k + 1 => do heapifyFrom (← q.siftDown k) k

/-- The first index is `n / 2 - 1`, which is -1 for a vector with fewer than two elements. -/
def heapify (q : PriorityQueue α) : Option (PriorityQueue α) := q.heapifyFrom (q.xs.size / 2)

def fromVec (v : Array α) : Option (PriorityQueue α) := heapify ⟨v, false⟩

def maxFirstFrom (v : Array α) : Option (PriorityQueue α) := heapify ⟨v, true⟩

def clear (q : PriorityQueue α) : PriorityQueue α := { q with xs := #[] }

def push (q : PriorityQueue α) (x : α) : Option (PriorityQueue α) :=
  let q := { q with xs := q.xs.push x }
  q.siftUp (q.xs.size - 1)

def peek (q : PriorityQueue α) : Option (Option α) :=
  if q.xs.size = 0 then some none else q.xs[0]?.map some

def pop (q : PriorityQueue α) : Option (Option α × PriorityQueue α) :=
  let n := q.xs.size
  if n = 0 then some (none, q)
  else do
    let q ← q.swap 0 (n - 1)
    let top := q.xs.back?
    let q ← siftDown { q with xs := q.xs.pop } 0
    return (top, q)

theorem size_siftDown {q q' : PriorityQueue α} {i : ℕ} (h : q.siftDown i = some q') : q'.xs.size = q.xs.size := by
  fun_induction siftDown q i with
  | case1 => cases h
  | case2 =>
    cases h
    rfl
  | case3 => cases h
  | case4 q i b hb hne q₁ hs ih =>
    rw [ih h, size_swap hs]

theorem size_pop {q q' : PriorityQueue α} {top : Option α} (hn : 0 < q.xs.size) (h : q.pop = some (top, q')) :
    q'.xs.size + 1 = q.xs.size := by
  unfold pop at h
  rw [if_neg hn.ne'] at h
  obtain ⟨q₁, hq₁, h⟩ := Option.bind_eq_some_iff.mp h
  obtain ⟨q₂, hq₂, h⟩ := Option.bind_eq_some_iff.mp h
  cases h
  have hpop := size_siftDown hq₂
  have hswap := size_swap hq₁
  rw [Array.size_pop] at hpop
  omega

/-- The loop of `into_sorted_vec`. -/
def drain (h : PriorityQueue α) (out : Array α) : Option (Array α) :=
  if _hn : 0 < h.xs.size then
    match _hp : h.pop with
    | none => none
    | some (some v, h') => drain h' (out.push v)
    | some (none, h') => drain h' out
  else some out
termination_by h.xs.size
decreasing_by
  all_goals
    have hsize := size_pop _hn _hp
    omega

def intoSortedVec (q : PriorityQueue α) : Option (Array α) := q.drain #[]

/-! The order of the queue. -/

/-- `x` comes out no later than `y`. -/
def above (max : Bool) (x y : α) : Prop := if max then y ≤ x else x ≤ y

theorem above_refl (max : Bool) (x : α) : above max x x := by
  cases max <;> exact le_refl x

theorem above_trans (max : Bool) (x y z : α) (hxy : above max x y) (hyz : above max y z) : above max x z := by
  cases max with
  | false => exact le_trans (show x ≤ y from hxy) hyz
  | true => exact le_trans (show z ≤ y from hyz) hxy

/-- In the order of its direction. -/
abbrev Heap (q : PriorityQueue α) : Prop := Ordered (above q.max) q.xs

section

variable {q : PriorityQueue α} {i j : ℕ}

theorem outranks_spec (hi : i < q.xs.size) (hj : j < q.xs.size) : ∃ higher, q.outranks i j = some higher ∧
    (higher = true → Above (above q.max) q.xs i j) ∧ (higher = false → Above (above q.max) q.xs j i) := by
  refine ⟨decide (if q.max then q.xs[j] < q.xs[i] else q.xs[i] < q.xs[j]), ?_, ?_, ?_⟩
  · simp [outranks, hi, hj]
  · intro h
    rw [above_iff hi hj]
    cases hm : q.max with
    | false => exact le_of_lt (by simpa [hm] using h)
    | true => exact le_of_lt (by simpa [hm] using h)
  · intro h
    rw [above_iff hj hi]
    cases hm : q.max with
    | false => exact not_lt.mp (by simpa [hm] using h)
    | true => exact not_lt.mp (by simpa [hm] using h)

/-- In a heap nothing outranks its parent. -/
theorem Heap.outranks_parent (h : q.Heap) (hpos : 0 < i) (hi : i < q.xs.size) :
    q.outranks i ((i - 1) / 2) = some false := by
  have hp : (i - 1) / 2 < q.xs.size := by omega
  have habove := (above_iff hp hi).mp (h i hpos (Nat.zero_le _))
  cases hm : q.max with
  | false =>
    have hle : q.xs[(i - 1) / 2] ≤ q.xs[i] := by simpa [above, hm] using habove
    simp [outranks, hi, hp, hm, hle]
  | true =>
    have hle : q.xs[i] ≤ q.xs[(i - 1) / 2] := by simpa [above, hm] using habove
    simp [outranks, hi, hp, hm, hle]

theorem siftUp_spec (h : UpHole (above q.max) q.xs i) (hi : i < q.xs.size) :
    ∃ q', q.siftUp i = some q' ∧ Reorders q q' ∧ q'.Heap := by
  induction i using Nat.strong_induction_on generalizing q with
  | _ i ih =>
    unfold siftUp
    split_ifs with hpos
    · have hp : (i - 1) / 2 < q.xs.size := by omega
      obtain ⟨higher, hout, htrue, hfalse⟩ := outranks_spec hi hp
      simp only [hout, Option.bind_eq_bind, Option.bind_some]
      cases higher with
      | false => exact ⟨q, rfl, .refl q, h.done fun _ => hfalse rfl⟩
      | true =>
        simp only [if_true, swap_eq hi hp, Option.bind_some]
        have hstep := h.swap (above_trans q.max) hpos hi hp (htrue rfl)
        have hp' : parent i < (q.xs.swap i (parent i)).size := hp.trans_eq Array.size_swap.symm
        obtain ⟨q', hq', hre, hheap⟩ := ih _ (parent_lt hpos) (q := ⟨q.xs.swap i (parent i), q.max⟩) hstep hp'
        exact ⟨q', hq', (reorders_swap hi hp).trans hre, hheap⟩
    · exact ⟨q, rfl, .refl q, h.done fun hpos' => absurd hpos' hpos⟩

/-- The best of two places one of which, at most, is past the end. -/
theorem higher_spec {b c : ℕ} (hb : c < q.xs.size → b < q.xs.size) : ∃ d, q.higher b c = some d ∧
    (d = b ∧ Above (above q.max) q.xs b c ∨ d = c ∧ c < q.xs.size ∧ Above (above q.max) q.xs c b) := by
  unfold higher
  split_ifs with hc
  · obtain ⟨outranks, hout, htrue, hfalse⟩ := outranks_spec hc (hb hc)
    rw [hout]
    cases outranks with
    | false => exact ⟨b, rfl, Or.inl ⟨rfl, hfalse rfl⟩⟩
    | true => exact ⟨c, rfl, Or.inr ⟨rfl, hc, htrue rfl⟩⟩
  · exact ⟨b, rfl, Or.inl ⟨rfl, .of_size_le (not_lt.mp hc)⟩⟩

theorem best_spec (q : PriorityQueue α) (i : ℕ) : ∃ b, q.best i = some b ∧
    (b = i ∧ Above (above q.max) q.xs i (2 * i + 1) ∧ Above (above q.max) q.xs i (2 * i + 2) ∨
      b < q.xs.size ∧ 0 < b ∧ parent b = i ∧ Above (above q.max) q.xs b i ∧
        ∀ c, 0 < c → parent c = i → Above (above q.max) q.xs b c) := by
  have trans : ∀ {a b c : ℕ}, b < q.xs.size → Above (above q.max) q.xs a b → Above (above q.max) q.xs b c →
      Above (above q.max) q.xs a c := by
    intro a b c hb hab hbc x hx z hz
    exact above_trans q.max x _ z (hab x hx _ (Array.getElem?_eq_getElem hb)) (hbc _ (Array.getElem?_eq_getElem hb) z hz)
  have refl : ∀ a, Above (above q.max) q.xs a a := by
    intro a x hx y hy
    cases Option.some.inj (hx.symm.trans hy)
    exact above_refl q.max x
  obtain ⟨l, hl, hlcases⟩ := q.higher_spec (show 2 * i + 1 < q.xs.size → i < q.xs.size by omega)
  rcases hlcases with ⟨rfl, hil⟩ | ⟨rfl, hlsize, hli⟩
  · obtain ⟨b, hb, hbcases⟩ := q.higher_spec (show 2 * l + 2 < q.xs.size → l < q.xs.size by omega)
    refine ⟨b, by simp [best, hl, hb], ?_⟩
    rcases hbcases with ⟨rfl, hir⟩ | ⟨rfl, hrsize, hri⟩
    · exact Or.inl ⟨rfl, hil, hir⟩
    · refine Or.inr ⟨hrsize, by omega, parent_right l, hri, fun c hc hp => ?_⟩
      rcases child_cases hc hp with rfl | rfl
      · exact trans (by omega) hri hil
      · exact refl _
  · obtain ⟨b, hb, hbcases⟩ := q.higher_spec (show 2 * i + 2 < q.xs.size → 2 * i + 1 < q.xs.size by omega)
    refine ⟨b, by simp [best, hl, hb], Or.inr ?_⟩
    rcases hbcases with ⟨rfl, hlr⟩ | ⟨rfl, hrsize, hrl⟩
    · refine ⟨hlsize, by omega, parent_left i, hli, fun c hc hp => ?_⟩
      rcases child_cases hc hp with rfl | rfl
      · exact refl _
      · exact hlr
    · refine ⟨hrsize, by omega, parent_right i, trans hlsize hrl hli, fun c hc hp => ?_⟩
      rcases child_cases hc hp with rfl | rfl
      · exact hrl
      · exact refl _

theorem siftDown_spec {k : ℕ} (h : DownHole (above q.max) q.xs k i) (hk : k ≤ i) :
    ∃ q', q.siftDown i = some q' ∧ Reorders q q' ∧ OrderedFrom (above q'.max) q'.xs k := by
  induction hn : q.xs.size - i using Nat.strong_induction_on generalizing q i with
  | _ n ih =>
    subst hn
    obtain ⟨b, hb, hcases⟩ := q.best_spec i
    unfold siftDown
    rcases hcases with ⟨rfl, hl, hr⟩ | ⟨hsize, hpos, hparent, hbi, hsib⟩
    · refine ⟨q, ?_, .refl q, h.done hl hr⟩
      split
      · rename_i hnone
        cases hb.symm.trans hnone
      · rename_i b' hb'
        rw [if_pos (Option.some.inj (hb'.symm.trans hb))]
    · have hlt : i < b := hparent ▸ parent_lt hpos
      have hi : i < q.xs.size := hlt.trans hsize
      have hstep := h.swap hk hpos hparent hi hsize hbi hsib
      have hsame := reorders_swap (q := q) hi hsize
      obtain ⟨q', hq', hre, hord⟩ := ih (q.xs.size - b) (by omega) (q := ⟨q.xs.swap i b, q.max⟩) hstep (by omega)
        (by rw [Array.size_swap])
      refine ⟨q', ?_, hsame.trans hre, hord⟩
      split
      · rename_i hnone
        cases hb.symm.trans hnone
      · rename_i b' hb'
        obtain rfl : b = b' := Option.some.inj (hb.symm.trans hb')
        rw [if_neg (by omega)]
        split
        · rename_i hnone
          cases (swap_eq hi hsize).symm.trans hnone
        · rename_i q₁ hq₁
          cases (swap_eq hi hsize).symm.trans hq₁
          exact hq'

theorem heapifyFrom_spec {k : ℕ} (h : OrderedFrom (above q.max) q.xs k) :
    ∃ q', q.heapifyFrom k = some q' ∧ Reorders q q' ∧ q'.Heap := by
  induction k generalizing q with
  | zero => exact ⟨q, rfl, .refl q, h⟩
  | succ k ih =>
    obtain ⟨q₁, hq₁, hre₁, hord⟩ := siftDown_spec (.of_from h) le_rfl
    obtain ⟨q', hq', hre, hheap⟩ := ih hord
    exact ⟨q', by simp [heapifyFrom, hq₁, hq'], hre₁.trans hre, hheap⟩

/-- The places from the middle on have no children. -/
theorem heapify_spec (q : PriorityQueue α) : ∃ q', q.heapify = some q' ∧ Reorders q q' ∧ q'.Heap :=
  heapifyFrom_spec (.of_size_le (by omega))

theorem push_spec (h : q.Heap) (x : α) : ∃ q', q.push x = some q' ∧ Reorders ⟨q.xs.push x, q.max⟩ q' ∧ q'.Heap := by
  have hpush : q.push x = siftUp ⟨q.xs.push x, q.max⟩ q.xs.size := by simp [push]
  have hlt : q.xs.size < (q.xs.push x).size := by simp
  rw [hpush]
  exact siftUp_spec (upHole_push h x) hlt

theorem root_spec (h : q.Heap) {x y : α} (hx : q.xs[0]? = some x) (hy : y ∈ q.xs.toList) : above q.max x y := by
  obtain ⟨j, hj⟩ := List.mem_iff_getElem?.mp hy
  rw [Array.getElem?_toList] at hj
  exact h.root (above_trans q.max) (above_refl q.max) j x hx y hj

/-- The vector after the root has left it: its last element stands at the root. -/
theorem orderedFrom_popped (h : q.Heap) {zs : Array α} {x : α} (hn : 0 < q.xs.size)
    (hzs : q.xs.swap 0 (q.xs.size - 1) = zs.push x) : OrderedFrom (above q.max) zs 1 := by
  have hsize : q.xs.size = zs.size + 1 := by
    have hsizes := congrArg Array.size hzs
    rwa [Array.size_swap, Array.size_push] at hsizes
  have hget : ∀ i, 0 < i → i < zs.size → zs[i]? = q.xs[i]? := by
    intro i hpos hi
    have hpush : (zs.push x)[i]? = zs[i]? := by rw [Array.getElem?_push, if_neg (by omega)]
    rw [← hpush, ← hzs]
    exact get_swap_of_ne hn (by omega) (by omega) (by omega)
  intro c hc hp
  by_cases hcs : c < zs.size
  · have hlt := parent_lt hc
    exact (h c hc (Nat.zero_le _)).congr (hget _ hp (by omega)) (hget c hc hcs)
  · exact .of_size_le (not_lt.mp hcs)

theorem pop_empty (hn : q.xs.size = 0) : q.pop = some (none, q) := by
  unfold pop
  rw [if_pos hn]

theorem pop_spec (h : q.Heap) (hn : 0 < q.xs.size) : ∃ x q', q.pop = some (some x, q') ∧ q'.max = q.max ∧
    List.Perm (x :: q'.xs.toList) q.xs.toList ∧ (∀ y ∈ q.xs.toList, above q.max x y) ∧ q'.Heap := by
  have hlast : q.xs.size - 1 < q.xs.size := by omega
  have hback : (q.xs.swap 0 (q.xs.size - 1)).back? = some q.xs[0] := by
    rw [Array.back?_eq_getElem?, Array.size_swap, get_swap_right hn hlast, Array.getElem?_eq_getElem hn]
  obtain ⟨zs, hzs⟩ := Array.back?_eq_some_iff.mp hback
  obtain ⟨q', hq', hre, hheap⟩ := siftDown_spec (q := ⟨zs, q.max⟩) (.of_from (orderedFrom_popped h hn hzs)) le_rfl
  refine ⟨q.xs[0], q', ?_, hre.max, ?_, fun y hy => root_spec h (Array.getElem?_eq_getElem hn) hy, hheap⟩
  · simp [pop, hn.ne', swap_eq hn hlast, hzs, hq']
  · have hperm := (reorders_swap (q := q) hn hlast).perm
    rw [show (⟨q.xs.swap 0 (q.xs.size - 1), q.max⟩ : PriorityQueue α).xs.toList = zs.toList ++ [q.xs[0]] by
      rw [hzs, Array.toList_push]] at hperm
    exact ((hre.perm.cons q.xs[0]).trans (List.perm_append_singleton _ _).symm).trans hperm

end

/-- The elements come out in the order of the queue, each as often as it is there. -/
theorem drain_spec {q : PriorityQueue α} (h : q.Heap) (out : Array α) : ∃ sorted : List α,
    q.drain out = some (out ++ sorted.toArray) ∧ List.Perm sorted q.xs.toList ∧ sorted.Pairwise (above q.max) := by
  induction hn : q.xs.size generalizing q out with
  | zero =>
    refine ⟨[], ?_, ?_, .nil⟩
    · unfold drain
      rw [dif_neg (by omega)]
      simp
    · rw [Array.eq_empty_of_size_eq_zero hn]
  | succ n ih =>
    have hpos : 0 < q.xs.size := by omega
    obtain ⟨x, q', hq', hmax, hperm, habove, hheap⟩ := pop_spec h hpos
    have hsize := size_pop hpos hq'
    obtain ⟨sorted, hdrain, hsorted, hpair⟩ := ih hheap (out.push x) (by omega)
    refine ⟨x :: sorted, ?_, (hsorted.cons x).trans hperm, List.pairwise_cons.mpr ⟨fun y hy => ?_, hmax ▸ hpair⟩⟩
    · unfold drain
      rw [dif_pos hpos]
      split
      · rename_i hnone
        cases hq'.symm.trans hnone
      · rename_i v h' hsome
        cases hq'.symm.trans hsome
        rw [hdrain]
        simp
      · rename_i h' hsome
        cases hq'.symm.trans hsome
    · exact habove y (hperm.subset (List.mem_cons_of_mem x (hsorted.subset hy)))

/-! Histories. -/

inductive Op (α : Type)
  | new
  | maxFirst
  | fromVec (v : Array α)
  | maxFirstFrom (v : Array α)
  | push (x : α)
  | pop
  | peek
  | clear

/-- An operation and what it returns; a constructor's queue takes the place of the one before. -/
def step (q : PriorityQueue α) : Op α → Option (Option α × PriorityQueue α)
  | .new => some (none, new)
  | .maxFirst => some (none, maxFirst)
  | .fromVec v => (fromVec v).map (none, ·)
  | .maxFirstFrom v => (maxFirstFrom v).map (none, ·)
  | .push x => (q.push x).map (none, ·)
  | .pop => q.pop
  | .peek => q.peek.map (·, q)
  | .clear => some (none, q.clear)

def run (q : PriorityQueue α) : List (Op α) → Option (List (Option α) × PriorityQueue α)
  | [] => some ([], q)
  | op :: ops => do
    let (out, q) ← q.step op
    let (outs, q) ← q.run ops
    return (out :: outs, q)

/-- An ordered multiset: what a queue is for. -/
structure Bag (α : Type) where
  elems : Multiset α
  max : Bool

namespace Bag

/-- One of the elements that no other comes before. -/
def Next (b : Bag α) (x : α) : Prop := x ∈ b.elems ∧ ∀ y ∈ b.elems, above b.max x y

inductive Step : Bag α → Op α → Option α → Bag α → Prop
  | new (b : Bag α) : Step b .new none ⟨0, false⟩
  | maxFirst (b : Bag α) : Step b .maxFirst none ⟨0, true⟩
  | fromVec (b : Bag α) (v : Array α) : Step b (.fromVec v) none ⟨v.toList, false⟩
  | maxFirstFrom (b : Bag α) (v : Array α) : Step b (.maxFirstFrom v) none ⟨v.toList, true⟩
  | push (b : Bag α) (x : α) : Step b (.push x) none ⟨x ::ₘ b.elems, b.max⟩
  | popEmpty {b : Bag α} : b.elems = 0 → Step b .pop none b
  | pop {b : Bag α} {x : α} {rest : Multiset α} : b.Next x → b.elems = x ::ₘ rest → Step b .pop (some x) ⟨rest, b.max⟩
  | peekEmpty {b : Bag α} : b.elems = 0 → Step b .peek none b
  | peek {b : Bag α} {x : α} : b.Next x → Step b .peek (some x) b
  | clear (b : Bag α) : Step b .clear none ⟨0, b.max⟩

inductive Run : Bag α → List (Op α) → List (Option α) → Bag α → Prop
  | nil (b : Bag α) : Run b [] [] b
  | cons {b b' b'' : Bag α} {op : Op α} {out : Option α} {ops : List (Op α)} {outs : List (Option α)} :
      Step b op out b' → Run b' ops outs b'' → Run b (op :: ops) (out :: outs) b''

end Bag

/-- The queue holds the elements of the bag, as a heap. -/
structure Represents (q : PriorityQueue α) (b : Bag α) : Prop where
  elems : (q.xs.toList : Multiset α) = b.elems
  max : q.max = b.max
  heap : q.Heap

theorem represents_empty (max : Bool) : Represents (⟨#[], max⟩ : PriorityQueue α) ⟨0, max⟩ :=
  ⟨rfl, rfl, .of_size_le (Nat.zero_le _)⟩

section

variable {q : PriorityQueue α} {b : Bag α}

theorem Represents.empty_iff (h : Represents q b) : q.xs.size = 0 ↔ b.elems = 0 := by
  rw [← h.elems, Multiset.coe_eq_zero, Array.toList_eq_nil_iff, Array.size_eq_zero_iff]

theorem Represents.next (h : Represents q b) {x : α} (hx : x ∈ q.xs.toList)
    (habove : ∀ y ∈ q.xs.toList, above q.max x y) : b.Next x := by
  unfold Bag.Next
  rw [← h.elems, ← h.max]
  exact ⟨hx, habove⟩

/-- Each operation stays within the vector and does to it what it does to the bag. -/
theorem step_represents (h : Represents q b) (op : Op α) :
    ∃ out q' b', q.step op = some (out, q') ∧ Bag.Step b op out b' ∧ Represents q' b' := by
  cases op with
  | new => exact ⟨none, _, _, rfl, .new b, represents_empty false⟩
  | maxFirst => exact ⟨none, _, _, rfl, .maxFirst b, represents_empty true⟩
  | fromVec v =>
    obtain ⟨q', hq', hre, hheap⟩ := heapify_spec (⟨v, false⟩ : PriorityQueue α)
    refine ⟨none, q', _, ?_, .fromVec b v, Multiset.coe_eq_coe.mpr hre.perm, hre.max, hheap⟩
    simp [step, fromVec, hq']
  | maxFirstFrom v =>
    obtain ⟨q', hq', hre, hheap⟩ := heapify_spec (⟨v, true⟩ : PriorityQueue α)
    refine ⟨none, q', _, ?_, .maxFirstFrom b v, Multiset.coe_eq_coe.mpr hre.perm, hre.max, hheap⟩
    simp [step, maxFirstFrom, hq']
  | push x =>
    obtain ⟨q', hq', hre, hheap⟩ := push_spec h.heap x
    refine ⟨none, q', _, by simp [step, hq'], .push b x, ?_, hre.max.trans h.max, hheap⟩
    rw [Multiset.coe_eq_coe.mpr hre.perm, ← h.elems, Multiset.cons_coe, Multiset.coe_eq_coe, Array.toList_push]
    exact List.perm_append_singleton x q.xs.toList
  | pop =>
    rcases Nat.eq_zero_or_pos q.xs.size with hn | hn
    · exact ⟨none, q, b, pop_empty hn, .popEmpty (h.empty_iff.mp hn), h⟩
    · obtain ⟨x, q', hq', hmax, hperm, habove, hheap⟩ := pop_spec h.heap hn
      have hx : x ∈ q.xs.toList := hperm.subset List.mem_cons_self
      have hrest : b.elems = x ::ₘ (q'.xs.toList : Multiset α) := by
        rw [← h.elems, Multiset.cons_coe, Multiset.coe_eq_coe]
        exact hperm.symm
      exact ⟨some x, q', _, hq', .pop (h.next hx habove) hrest, rfl, hmax.trans h.max, hheap⟩
  | peek =>
    rcases Nat.eq_zero_or_pos q.xs.size with hn | hn
    · exact ⟨none, q, b, by simp [step, peek, hn], .peekEmpty (h.empty_iff.mp hn), h⟩
    · have hget : q.xs[0]? = some q.xs[0] := Array.getElem?_eq_getElem hn
      have hx : q.xs[0] ∈ q.xs.toList := by simp
      refine ⟨some q.xs[0], q, b, ?_, .peek (h.next hx fun y hy => root_spec h.heap hget hy), h⟩
      simp [step, peek, hn.ne', hget]
  | clear => exact ⟨none, _, _, rfl, .clear b, rfl, h.max, .of_size_le (Nat.zero_le _)⟩

theorem run_represents (h : Represents q b) (ops : List (Op α)) :
    ∃ outs q' b', q.run ops = some (outs, q') ∧ Bag.Run b ops outs b' ∧ Represents q' b' := by
  induction ops generalizing q b with
  | nil => exact ⟨[], q, b, rfl, .nil b, h⟩
  | cons op ops ih =>
    obtain ⟨out, q₁, b₁, hstep, hbag, h₁⟩ := step_represents h op
    obtain ⟨outs, q', b', hrun, hbags, h'⟩ := ih h₁
    exact ⟨out :: outs, q', b', by simp [run, hstep, hrun], .cons hbag hbags, h'⟩

end

/-- Every history of a queue goes through without an index out of range, and returns what an ordered multiset returns;
at its end the vector is a heap of the live elements, which `into_sorted_vec` puts in order. -/
theorem priority_queue_correct (ops : List (Op α)) : ∃ outs q b, new.run ops = some (outs, q) ∧
    Bag.Run ⟨0, false⟩ ops outs b ∧ (q.xs.toList : Multiset α) = b.elems ∧ q.max = b.max ∧
      (∀ i, 0 < i → i < q.xs.size → q.outranks i ((i - 1) / 2) = some false) ∧
        ∃ v, q.intoSortedVec = some v ∧ (v.toList : Multiset α) = b.elems ∧
          v.toList.Pairwise fun x y => if q.max then y ≤ x else x ≤ y := by
  obtain ⟨outs, q, b, hrun, hbag, h⟩ := run_represents (represents_empty (α := α) false) ops
  obtain ⟨sorted, hdrain, hperm, hpair⟩ := drain_spec h.heap #[]
  have hv : (#[] ++ sorted.toArray).toList = sorted := by simp
  refine ⟨outs, q, b, hrun, hbag, h.elems, h.max, fun i hpos hi => h.heap.outranks_parent hpos hi, _, hdrain, ?_, ?_⟩
  · rw [← h.elems, hv, Multiset.coe_eq_coe]
    exact hperm
  · rw [hv]
    exact hpair

end PriorityQueue

end Karac.Stdlib
