import Karac.Lib.Slice
import Karac.Runtime.SortBy

/-! The vector sort is a stable sort on every path, and permutes whatever the comparator answers. -/

namespace Karac.Runtime

open Lib

/-! Single buffer operations. -/

theorem usize_ok {x : ℕ} (h : x < 2 ^ 64) : usize x = some x := if_pos h

theorem store_ok {β : Type} {buf : List β} {k : ℕ} (h : k < buf.length) (x : β) : store buf k x = some (buf.set k x) :=
  if_pos h

theorem copyAll_ok {β : Type} {src dst : List β} (h : src.length = dst.length) : copyAll src dst = some src := if_pos h

section Merge

variable {β σ : Type} {compare : Compare β σ} {src : List β}

/-- The comparison may take the left cell first, or put it behind the right one. -/
def MayTake (compare : Compare β σ) (x y : β) : Prop := ∃ s tag s', compare x y s = some (tag, s') ∧ tag ≤ 0

def MayPass (compare : Compare β σ) (x y : β) : Prop := ∃ s tag s', compare x y s = some (tag, s') ∧ 0 < tag

/-- The comparison stays inside the elements on the cells of a buffer. -/
def Compares (compare : Compare β σ) (src : List β) : Prop :=
  ∀ x ∈ src, ∀ y ∈ src, ∀ s, ∃ tag s', compare x y s = some (tag, s')

theorem copyRun_spec {stop : ℕ} (a k : ℕ) (dst : List β) (hstop : stop ≤ src.length) (hdst : k + (stop - a) ≤ dst.length) :
    copyRun src a stop k dst = some (splice dst k (slice src a stop), k + (stop - a)) := by
  induction hm : stop - a generalizing a k dst with
  | zero =>
    rw [copyRun, if_neg (by omega), slice_empty (by omega), splice_nil, Nat.add_zero]
  | succ m ih =>
    have ha : a < src.length := by omega
    have hk : k < dst.length := by omega
    have hx := List.getElem?_eq_getElem ha
    have hrest := ih (a + 1) (k + 1) (dst.set k src[a]) (by rw [List.length_set]; omega) (by omega)
    rw [copyRun, if_pos (by omega), hx]
    simp only [Option.bind_eq_bind, Option.bind_some, store_ok hk, hrest]
    rw [splice_set hk, slice_cons (by omega) hx, Nat.add_right_comm, Nat.add_assoc]

/-- The three loops of one merge, from heads `a` and `b` on. -/
def finishRuns (compare : Compare β σ) (src : List β) (mid hi a b k : ℕ) (dst : List β) (s : σ) :
    Option (List β × σ) := do
  let ((dst, a, b, k), s) ← mergeHeads compare src mid hi a b k dst s
  let (dst, k) ← copyRun src a mid k dst
  let (dst, _) ← copyRun src b hi k dst
  some (dst, s)

theorem finishRuns_spec (mid hi a b k : ℕ) (dst : List β) (s : σ) (hcmp : Compares compare src) (hmid : mid ≤ src.length)
    (hhi : hi ≤ src.length) (hdst : k + ((mid - a) + (hi - b)) ≤ dst.length) :
    ∃ out s', finishRuns compare src mid hi a b k dst s = some (splice dst k out, s') ∧
      Merged (MayTake compare) (MayPass compare) (slice src a mid) (slice src b hi) out := by
  induction hm : (mid - a) + (hi - b) generalizing a b k dst s with
  | zero =>
    refine ⟨[], s, ?_, ?_⟩
    · unfold finishRuns
      rw [mergeHeads, if_neg (by omega)]
      simp only [Option.bind_eq_bind, Option.bind_some, copyRun_spec a k dst hmid (by omega)]
      rw [slice_empty (show mid ≤ a by omega), splice_nil, copyRun_spec b _ dst hhi (by omega), slice_empty (show hi ≤ b by omega),
        splice_nil]
      rfl
    · rw [slice_empty (show mid ≤ a by omega), slice_empty (show hi ≤ b by omega)]
      exact .leftNil []
  | succ m ih =>
    by_cases hheads : a < mid ∧ b < hi
    · have ha : a < src.length := by omega
      have hb : b < src.length := by omega
      have hk : k < dst.length := by omega
      have hxa := List.getElem?_eq_getElem ha
      have hyb := List.getElem?_eq_getElem hb
      obtain ⟨tag, s₁, htag⟩ := hcmp src[a] (List.getElem_mem ha) src[b] (List.getElem_mem hb) s
      rw [slice_cons hheads.1 hxa, slice_cons hheads.2 hyb]
      by_cases hle : tag ≤ 0
      · obtain ⟨out, s', hrun, hmerged⟩ := ih (a + 1) b (k + 1) (dst.set k src[a]) s₁
          (by rw [List.length_set]; omega) (by omega)
        refine ⟨src[a] :: out, s', ?_, ?_⟩
        · rw [splice_set hk] at hrun
          unfold finishRuns at hrun ⊢
          rw [mergeHeads, if_pos hheads, hxa, hyb]
          simp only [Option.bind_eq_bind, Option.bind_some, htag, if_pos hle, store_ok hk]
          exact hrun
        · rw [slice_cons hheads.2 hyb] at hmerged
          exact .takeLeft ⟨s, tag, s₁, htag, hle⟩ hmerged
      · obtain ⟨out, s', hrun, hmerged⟩ := ih a (b + 1) (k + 1) (dst.set k src[b]) s₁
          (by rw [List.length_set]; omega) (by omega)
        refine ⟨src[b] :: out, s', ?_, ?_⟩
        · rw [splice_set hk] at hrun
          unfold finishRuns at hrun ⊢
          rw [mergeHeads, if_pos hheads, hxa, hyb]
          simp only [Option.bind_eq_bind, Option.bind_some, htag, if_neg hle, store_ok hk]
          exact hrun
        · rw [slice_cons hheads.1 hxa] at hmerged
          exact .takeRight ⟨s, tag, s₁, htag, not_le.mp hle⟩ hmerged
    · -- one run is used up: the other one is copied whole
      refine ⟨slice src a mid ++ slice src b hi, s, ?_, ?_⟩
      · have hlen : (slice src a mid).length = mid - a := slice_length hmid
        have hlen' : (slice src b hi).length = hi - b := slice_length hhi
        unfold finishRuns
        rw [mergeHeads, if_neg hheads]
        simp only [Option.bind_eq_bind, Option.bind_some, copyRun_spec a k dst hmid (by omega)]
        rw [copyRun_spec b _ _ hhi (by rw [splice_length (by omega)]; omega)]
        simp only [Option.bind_some]
        rw [← hlen, splice_splice (by omega)]
      · by_cases ha : a < mid
        · rw [slice_empty (show hi ≤ b by omega), List.append_nil]
          exact .rightNil _
        · rw [slice_empty (show mid ≤ a by omega), List.nil_append]
          exact .leftNil _

/-- Every run of `w` cells of `live` was built from the same run of `orig`. -/
structure RunsBuilt (compare : Compare β σ) (w : ℕ) (orig live : List β) : Prop where
  length_eq : live.length = orig.length
  runs : ∀ j, Built (MayTake compare) (MayPass compare) (slice orig (j * w) (j * w + w)) (slice live (j * w) (j * w + w))

theorem RunsBuilt.mem {w : ℕ} {orig live : List β} (h : RunsBuilt compare w orig live) (hw : 0 < w) {x : β}
    (hx : x ∈ live) : x ∈ orig := by
  obtain ⟨i, hi⟩ := List.mem_iff_getElem?.mp hx
  have hle : i / w * w ≤ i := Nat.div_mul_le_self i w
  have hlt : i < i / w * w + w := Nat.lt_div_mul_add hw
  exact mem_of_mem_slice ((h.runs (i / w)).perm.mem_iff.mp (getElem_mem_slice hi hle hlt))

/-- A buffer whose one run covers it was built from the whole. -/
theorem RunsBuilt.whole {w : ℕ} {orig live : List β} (h : RunsBuilt compare w orig live) (hw : orig.length ≤ w) :
    Built (MayTake compare) (MayPass compare) orig live := by
  have h0 := h.runs 0
  rwa [Nat.zero_mul, Nat.zero_add, slice_whole hw, slice_whole (by rw [h.length_eq]; exact hw)] at h0

/-- Single cells are runs. -/
theorem runsBuilt_one (orig : List β) : RunsBuilt compare 1 orig orig where
  length_eq := rfl
  runs j := by
    rw [Nat.mul_one]
    cases hx : orig[j]? with
    | none => rw [slice_past (List.getElem?_eq_none_iff.mp hx)]; exact .nil
    | some x => rw [slice_cons (by omega) hx, slice_empty le_rfl]; exact .single x

/-- Two adjacent runs and their merge. -/
theorem built_merge {w j : ℕ} {orig out : List β} (h : RunsBuilt compare w orig src)
    (hmerged : Merged (MayTake compare) (MayPass compare) (slice src (j * (2 * w)) (j * (2 * w) + w))
      (slice src (j * (2 * w) + w) (j * (2 * w) + 2 * w)) out) :
    Built (MayTake compare) (MayPass compare) (slice orig (j * (2 * w)) (j * (2 * w) + 2 * w)) out := by
  have hleft := h.runs (2 * j)
  have hright := h.runs (2 * j + 1)
  rw [show 2 * j * w = j * (2 * w) by ring] at hleft
  rw [show (2 * j + 1) * w = j * (2 * w) + w by ring, show j * (2 * w) + w + w = j * (2 * w) + 2 * w by ring] at hright
  rw [← slice_append (show j * (2 * w) ≤ j * (2 * w) + w by omega)
    (show j * (2 * w) + w ≤ j * (2 * w) + 2 * w by omega)]
  exact .merge hleft hright hmerged

/-- The runs behind position `j * w` are built, and none is left. -/
theorem runsBuilt_of_done {w j : ℕ} {orig live : List β} (hlen : live.length = orig.length)
    (hend : orig.length ≤ j * w)
    (hdone : ∀ i < j, Built (MayTake compare) (MayPass compare) (slice orig (i * w) (i * w + w))
      (slice live (i * w) (i * w + w))) : RunsBuilt compare w orig live where
  length_eq := hlen
  runs i := by
    by_cases hi : i < j
    · exact hdone i hi
    · have hpast : orig.length ≤ i * w := le_trans hend (Nat.mul_le_mul_right _ (not_lt.mp hi))
      rw [slice_past (by omega), slice_past (by omega)]
      exact .nil

theorem mergePass_spec {n w : ℕ} {orig : List β} (hcmp : Compares compare src) (hsrc : RunsBuilt compare w orig src)
    (hlen : src.length = n) (hn : 8 * n ≤ isizeMax) (hwn : w < n) (hw : 0 < w) (fuel j : ℕ) (dst : List β) (s : σ)
    (hdst : dst.length = n) (hfuel : n ≤ j * (2 * w) + fuel)
    (hdone : ∀ i < j, Built (MayTake compare) (MayPass compare) (slice orig (i * (2 * w)) (i * (2 * w) + 2 * w))
      (slice dst (i * (2 * w)) (i * (2 * w) + 2 * w))) :
    ∃ dst' s', mergePass compare n w src fuel (j * (2 * w)) dst s = some (dst', s') ∧
      RunsBuilt compare (2 * w) orig dst' := by
  have horig : orig.length = n := by rw [← hsrc.length_eq, hlen]
  induction fuel generalizing j dst s with
  | zero =>
    rw [mergePass, if_neg (by omega)]
    exact ⟨dst, s, rfl, runsBuilt_of_done (by omega) (by omega) hdone⟩
  | succ fuel ih =>
    rw [mergePass]
    by_cases hlo : j * (2 * w) < n
    · have hbig : isizeMax = 2 ^ 63 - 1 := rfl
      obtain ⟨out, s₁, hrun, hmerged⟩ := finishRuns_spec (min (j * (2 * w) + w) n) (min (j * (2 * w) + 2 * w) n)
        (j * (2 * w)) (min (j * (2 * w) + w) n) (j * (2 * w)) dst s hcmp (by omega) (by omega) (by omega)
      have hout : j * (2 * w) + out.length = min (j * (2 * w) + 2 * w) dst.length := by
        have hperm := hmerged.perm.length_eq
        rw [List.length_append, slice_length (by omega), slice_length (by omega)] at hperm
        omega
      have hleft : slice src (j * (2 * w)) (min (j * (2 * w) + w) n) = slice src (j * (2 * w)) (j * (2 * w) + w) := by
        rw [← hlen, slice_min]
      have hright : slice src (min (j * (2 * w) + w) n) (min (j * (2 * w) + 2 * w) n) =
          slice src (j * (2 * w) + w) (j * (2 * w) + 2 * w) := by
        by_cases hmid : j * (2 * w) + w ≤ n
        · rw [min_eq_left hmid, ← hlen, slice_min]
        · rw [slice_past (by omega), slice_past (by omega)]
      rw [hleft, hright] at hmerged
      have hnext : (j + 1) * (2 * w) = j * (2 * w) + 2 * w := by ring
      have hdone' : ∀ i < j + 1, Built (MayTake compare) (MayPass compare)
          (slice orig (i * (2 * w)) (i * (2 * w) + 2 * w))
          (slice (splice dst (j * (2 * w)) out) (i * (2 * w)) (i * (2 * w) + 2 * w)) := by
        intro i hi
        rcases Nat.lt_succ_iff_lt_or_eq.mp hi with hi | rfl
        · have hle : (i + 1) * (2 * w) ≤ j * (2 * w) := Nat.mul_le_mul_right _ hi
          rw [slice_splice_of_le (by omega) (by rw [Nat.succ_mul] at hle; exact hle)]
          exact hdone i hi
        · rw [slice_splice_self (by omega) hout]
          exact built_merge hsrc hmerged
      obtain ⟨dst', s', hpass, hbuilt⟩ := ih (j + 1) (splice dst (j * (2 * w)) out) s₁
        (by rw [splice_length (by omega), hdst]) (by omega) hdone'
      refine ⟨dst', s', ?_, hbuilt⟩
      have hruns : mergeRuns compare src (j * (2 * w)) (min (j * (2 * w) + w) n) (min (j * (2 * w) + 2 * w) n) dst s =
          some (splice dst (j * (2 * w)) out, s₁) := hrun
      rw [hnext] at hpass
      rw [if_pos hlo, usize_ok (by omega), usize_ok (by omega)]
      simp only [Option.bind_eq_bind, Option.bind_some]
      rw [usize_ok (by omega)]
      simp only [Option.bind_some, hruns]
      exact hpass
    · rw [if_neg hlo]
      exact ⟨dst, s, rfl, runsBuilt_of_done (by omega) (by omega) hdone⟩

/-- The passes come to an end, with a live buffer built from the whole. -/
theorem mergePasses_spec {n : ℕ} {orig : List β} (hcmp : Compares compare orig) (horig : orig.length = n)
    (hn : 8 * n ≤ isizeMax) (fuel w : ℕ) (live other : List β) (home : Bool) (s : σ) (hw : 0 < w)
    (hlive : RunsBuilt compare w orig live) (hother : other.length = n) (hfuel : n ≤ w + fuel) :
    ∃ live' other' home' s', mergePasses compare n fuel w live other home s = some ((live', other', home'), s') ∧
      Built (MayTake compare) (MayPass compare) orig live' ∧ other'.length = n := by
  induction fuel generalizing w live other home s with
  | zero =>
    rw [mergePasses, if_neg (by omega)]
    exact ⟨live, other, home, s, rfl, hlive.whole (by omega), hother⟩
  | succ fuel ih =>
    rw [mergePasses]
    by_cases hwn : w < n
    · have hbig : isizeMax = 2 ^ 63 - 1 := rfl
      have hlen : live.length = n := by rw [hlive.length_eq, horig]
      have hcmp' : Compares compare live := fun x hx y hy => hcmp x (hlive.mem hw hx) y (hlive.mem hw hy)
      obtain ⟨dst', s₁, hpass, hbuilt⟩ := mergePass_spec hcmp' hlive hlen hn hwn hw n 0 other s hother (by omega)
        fun i hi => absurd hi (Nat.not_lt_zero i)
      rw [Nat.zero_mul] at hpass
      rw [Nat.mul_comm] at hbuilt
      obtain ⟨live', other', home', s', hrest, hdone⟩ := ih (w * 2) dst' live (!home) s₁ (by omega) hbuilt hlen (by omega)
      refine ⟨live', other', home', s', ?_, hdone⟩
      rw [if_pos hwn, hpass]
      simp only [Option.bind_eq_bind, Option.bind_some]
      rw [usize_ok (by omega)]
      exact hrest
    · rw [if_neg hwn]
      exact ⟨live, other, home, s, rfl, hlive.whole (by omega), hother⟩

end Merge

/-! The fixed widths. -/

section Fixed

variable {α σ : Type} {cmp : α → α → σ → ℤ × σ}

theorem compares_elems (cmp : α → α → σ → ℤ × σ) (data : List α) : Compares (cmpElems cmp) data := fun x _ y _ s =>
  ⟨(cmp x y s).1, (cmp x y s).2, rfl⟩

/-- The insertion of the element at `j` into the run that starts at `start`. -/
theorem insertHold_spec (cmp : α → α → σ → ℤ × σ) (start : ℕ) (hold : α) (j : ℕ) (buf : List α) (s : σ) (hstart : start ≤ j)
    (hj : j < buf.length) : ∃ out s', insertHold cmp start hold j buf s = some (splice buf start out, s') ∧
      out.length = j + 1 - start ∧
      Inserted (MayTake (cmpElems cmp)) (MayPass (cmpElems cmp)) hold (slice buf start j) out := by
  have hdrop {before : List α} (hlast : ∀ p, before.getLast? = some p → MayTake (cmpElems cmp) p hold) :
      Inserted (MayTake (cmpElems cmp)) (MayPass (cmpElems cmp)) hold before (before ++ [hold]) :=
    ⟨before, [], (List.append_nil _).symm, rfl, fun p hp => absurd hp List.not_mem_nil, hlast⟩
  induction j generalizing buf s with
  | zero =>
    obtain rfl : start = 0 := by omega
    refine ⟨slice buf 0 0 ++ [hold], s, ?_, by simp [slice], hdrop fun p hp => by simp [slice] at hp⟩
    rw [insertHold, store_ok hj, ← set_eq_splice le_rfl hj]
    rfl
  | succ j ih =>
    have hsliceLen : (slice buf start (j + 1)).length = j + 1 - start := slice_length hj.le
    rw [insertHold]
    by_cases hmore : start < j + 1
    · have hprev := List.getElem?_eq_getElem (show j < buf.length by omega)
      have hsnoc := slice_snoc (show start ≤ j by omega) hprev
      rw [if_pos hmore, hprev]
      simp only [Option.bind_eq_bind, Option.bind_some]
      by_cases htag : (cmp buf[j] hold s).1 > 0
      · obtain ⟨out, s', hrun, hlen, hins⟩ := ih (buf.set (j + 1) buf[j]) (cmp buf[j] hold s).2 (by omega)
          (by rw [List.length_set]; omega)
        have hend : start + out.length = j + 1 := by omega
        refine ⟨out ++ [buf[j]], s', ?_, by simp [hlen]; omega, ?_⟩
        · rw [if_pos htag, store_ok hj, Option.bind_some, hrun, ← hend, splice_set_behind (by omega)]
        · rw [slice_set_of_le (by omega)] at hins
          obtain ⟨before, after, hxs, rfl, hafter, hlast⟩ := hins.split
          refine ⟨before, after ++ [buf[j]], by rw [hsnoc, hxs, List.append_assoc], by simp, fun p hp => ?_, hlast⟩
          rcases List.mem_append.mp hp with hp | hp
          · exact hafter p hp
          · rw [List.mem_singleton.mp hp]
            exact ⟨s, _, _, rfl, htag⟩
      · refine ⟨slice buf start (j + 1) ++ [hold], (cmp buf[j] hold s).2, ?_, by simp [hsliceLen]; omega,
          hdrop fun p hp => ?_⟩
        · rw [if_neg htag, store_ok hj, ← set_eq_splice hstart hj]
          rfl
        · rw [hsnoc, List.getLast?_concat] at hp
          obtain rfl := Option.some.inj hp
          exact ⟨s, _, _, rfl, not_lt.mp htag⟩
    · refine ⟨slice buf start (j + 1) ++ [hold], s, ?_, by simp [hsliceLen]; omega, hdrop fun p hp => ?_⟩
      · rw [if_neg hmore, store_ok hj, ← set_eq_splice hstart hj]
        rfl
      · rw [slice_empty (by omega)] at hp
        cases hp

/-- The insertion sort of a run whose part up to `i` is built. -/
theorem insertRun_spec {orig : List α} (start stop i : ℕ) (buf : List α) (s : σ) (hstart : start ≤ i)
    (hi : i ≤ stop) (hstop : stop ≤ buf.length)
    (hbuilt : Built (MayTake (cmpElems cmp)) (MayPass (cmpElems cmp)) (slice orig start i) (slice buf start i))
    (hrest : ∀ k, i ≤ k → buf[k]? = orig[k]?) :
    ∃ out s', insertRun cmp start stop i buf s = some (splice buf start out, s') ∧ out.length = stop - start ∧
      Built (MayTake (cmpElems cmp)) (MayPass (cmpElems cmp)) (slice orig start stop) out := by
  induction hm : stop - i generalizing i buf s with
  | zero =>
    obtain rfl : i = stop := by omega
    refine ⟨slice buf start i, s, ?_, slice_length hstop, hbuilt⟩
    rw [insertRun, if_neg (lt_irrefl i), splice_slice_self hstart hstop]
  | succ m ih =>
    have hlt : i < buf.length := by omega
    have hhold := List.getElem?_eq_getElem hlt
    obtain ⟨out, s₁, hrun, hlen, hins⟩ := insertHold_spec cmp start buf[i] i buf s hstart hlt
    have hout : start + out.length = min (i + 1) buf.length := by omega
    have hbuilt' : Built (MayTake (cmpElems cmp)) (MayPass (cmpElems cmp)) (slice orig start (i + 1))
        (slice (splice buf start out) start (i + 1)) := by
      rw [slice_splice_self (by omega) hout, slice_snoc hstart ((hrest i le_rfl).symm.trans hhold)]
      exact .insert hbuilt hins
    have hrest' : ∀ k, i + 1 ≤ k → (splice buf start out)[k]? = orig[k]? := fun k hk => by
      rw [getElem?_splice_of_le (by omega) (by omega)]
      exact hrest k (by omega)
    obtain ⟨out', s', hrun', hlen', hdone⟩ := ih (i + 1) (splice buf start out) s₁ (by omega) (by omega)
      (by rw [splice_length (by omega)]; exact hstop) hbuilt' hrest' (by omega)
    refine ⟨out', s', ?_, hlen', hdone⟩
    rw [insertRun, if_pos (by omega), hhold]
    simp only [Option.bind_eq_bind, Option.bind_some, hrun, hrun']
    rw [splice_splice_self (by omega) (by omega)]

/-- Phase 1 leaves runs of 32 elements built. -/
theorem sortRuns_spec (cmp : α → α → σ → ℤ × σ) {n : ℕ} {orig : List α} (horig : orig.length = n) (hn : 8 * n ≤ isizeMax) (fuel j : ℕ)
    (buf : List α) (s : σ) (hbuf : buf.length = n) (hfuel : n ≤ min (j * runLength) n + fuel)
    (hrest : ∀ k, j * runLength ≤ k → buf[k]? = orig[k]?)
    (hdone : ∀ i < j, Built (MayTake (cmpElems cmp)) (MayPass (cmpElems cmp))
      (slice orig (i * runLength) (i * runLength + runLength)) (slice buf (i * runLength) (i * runLength + runLength))) :
    ∃ buf' s', sortRuns cmp n fuel (min (j * runLength) n) buf s = some (buf', s') ∧
      RunsBuilt (cmpElems cmp) runLength orig buf' := by
  have hbig : isizeMax = 2 ^ 63 - 1 := rfl
  have hrun32 : runLength = 32 := rfl
  induction fuel generalizing j buf s with
  | zero =>
    rw [sortRuns, if_neg (by omega)]
    exact ⟨buf, s, rfl, runsBuilt_of_done (by omega) (by omega) hdone⟩
  | succ fuel ih =>
    rw [sortRuns]
    by_cases hlo : min (j * runLength) n < n
    · have hmin : min (j * runLength) n = j * runLength := by omega
      rw [if_pos hlo, hmin]
      have hstart : j * runLength < orig.length := by omega
      have hfirst := List.getElem?_eq_getElem hstart
      have hsingle : Built (MayTake (cmpElems cmp)) (MayPass (cmpElems cmp))
          (slice orig (j * runLength) (j * runLength + 1)) (slice buf (j * runLength) (j * runLength + 1)) := by
        rw [slice_cons (by omega) hfirst, slice_cons (by omega) ((hrest _ le_rfl).trans hfirst), slice_empty le_rfl,
          slice_empty le_rfl]
        exact .single _
      obtain ⟨out, s₁, hrun, hlen, hbuilt⟩ := insertRun_spec (j * runLength)
        (min (j * runLength + runLength) n) (j * runLength + 1) buf s (by omega) (by omega) (by omega) hsingle
        fun k hk => hrest k (by omega)
      have hout : j * runLength + out.length = min (j * runLength + runLength) buf.length := by omega
      have hnext : (j + 1) * runLength = j * runLength + runLength := Nat.succ_mul j runLength
      have hdone' : ∀ i < j + 1, Built (MayTake (cmpElems cmp)) (MayPass (cmpElems cmp))
          (slice orig (i * runLength) (i * runLength + runLength))
          (slice (splice buf (j * runLength) out) (i * runLength) (i * runLength + runLength)) := by
        intro i hi
        rcases Nat.lt_succ_iff_lt_or_eq.mp hi with hi | rfl
        · have hle : (i + 1) * runLength ≤ j * runLength := Nat.mul_le_mul_right _ hi
          rw [slice_splice_of_le (by omega) (by rw [Nat.succ_mul] at hle; exact hle)]
          exact hdone i hi
        · rw [slice_splice_self (by omega) hout]
          rw [← horig, slice_min] at hbuilt
          exact hbuilt
      obtain ⟨buf', s', hrest', hbuilt'⟩ := ih (j + 1) (splice buf (j * runLength) out) s₁
        (by rw [splice_length (by omega), hbuf]) (by omega) (fun k hk => by
          rw [getElem?_splice_of_le (by omega) (by omega)]
          exact hrest k (by omega)) hdone'
      refine ⟨buf', s', ?_, hbuilt'⟩
      rw [hnext] at hrest'
      rw [usize_ok (by omega)]
      simp only [Option.bind_eq_bind, Option.bind_some, hrun]
      exact hrest'
    · rw [if_neg hlo]
      exact ⟨buf, s, rfl, runsBuilt_of_done (by omega) (by omega) hdone⟩

theorem sortFixedWidth_spec (cmp : α → α → σ → ℤ × σ) {width : ℕ} (hwidth : 8 ≤ width) (data : List α)
    (scratch : Scratch α data.length width) (s : σ) : ∃ out s', sortFixedWidth cmp data (some scratch) s = some (out, s') ∧
      Built (MayTake (cmpElems cmp)) (MayPass (cmpElems cmp)) data out := by
  have hn : 8 * data.length ≤ isizeMax := by
    have hle : data.length * 8 ≤ data.length * width := Nat.mul_le_mul_left _ hwidth
    have hfits := scratch.fits
    omega
  obtain ⟨base, s₁, hruns, hbase⟩ := sortRuns_spec cmp rfl hn data.length 0 data s rfl (by omega)
    (fun k _ => rfl) fun i hi => absurd hi (Nat.not_lt_zero i)
  rw [Nat.zero_mul, Nat.zero_min] at hruns
  obtain ⟨live, other, home, s', hpasses, hbuilt, hother⟩ := mergePasses_spec (compares_elems cmp data) rfl hn
    data.length runLength base scratch.cells true s₁ (by decide) hbase scratch.length_eq (by omega)
  refine ⟨live, s', ?_, hbuilt⟩
  simp only [sortFixedWidth, hruns, hpasses, Option.bind_eq_bind, Option.bind_some]
  cases home with
  | true => rfl
  | false =>
    rw [copyAll_ok (by rw [hbuilt.length_eq, hother])]
    rfl

end Fixed

/-! The index permutation. -/

section Indices

variable {α σ : Type} {cmp : α → α → σ → ℤ × σ}

theorem fillIndices_spec {n : ℕ} (i : ℕ) (idx : List ℕ) (hi : i ≤ n) (hlen : idx.length = n)
    (hfilled : idx.take i = List.range i) : fillIndices n i idx = some (List.range n) := by
  induction hm : n - i generalizing i idx with
  | zero =>
    obtain rfl : i = n := by omega
    rw [fillIndices, if_neg (lt_irrefl i), ← hfilled, List.take_of_length_le hlen.le]
  | succ m ih =>
    rw [fillIndices, if_pos (by omega), store_ok (by omega)]
    simp only [Option.bind_eq_bind, Option.bind_some]
    refine ih (i + 1) (idx.set i i) (by omega) (by rw [List.length_set, hlen]) ?_ (by omega)
    rw [List.take_add_one, List.getElem?_set_self (by omega), List.take_set_of_le le_rfl, hfilled, List.range_succ]
    rfl

/-- Gathering writes the elements of the indices from `k` on. -/
theorem gather_spec {data : List α} {size n : ℕ} {g : ℕ → α} (hfits : n * size ≤ isizeMax)
    (hg : ∀ i < n, data[i]? = some (g i)) {indices : List ℕ} (hlen : indices.length = n) (hindices : ∀ i ∈ indices, i < n)
    (k : ℕ) (tmp : List α) (htmp : tmp.length = n) (hk : k ≤ n) :
    gather data size indices n k tmp = some (splice tmp k ((indices.drop k).map g)) := by
  have hbig : isizeMax = 2 ^ 63 - 1 := rfl
  have haddr : ∀ i < n, i * size < 2 ^ 64 := fun i hi => by
    have := Nat.mul_le_mul_right size hi.le
    omega
  induction hm : n - k generalizing k tmp with
  | zero =>
    rw [gather, if_neg (by omega), List.drop_eq_nil_of_le (by omega), List.map_nil, splice_nil]
  | succ m ih =>
    have hlt : k < indices.length := by omega
    have hold : indices[k] < n := hindices _ (List.getElem_mem hlt)
    rw [gather, if_pos (by omega), List.getElem?_eq_getElem hlt]
    simp only [Option.bind_eq_bind, Option.bind_some, usize_ok (haddr _ hold), usize_ok (haddr k (by omega)), hg _ hold,
      store_ok (show k < tmp.length by omega)]
    rw [ih (k + 1) (tmp.set k (g indices[k])) (by rw [List.length_set, htmp]) (by omega) (by omega),
      splice_set (by omega), List.drop_eq_getElem_cons hlt, List.map_cons]

theorem cmpAt_eq_some {data : List α} {size x y : ℕ} {s s' : σ} {tag : ℤ}
    (h : cmpAt cmp data size x y s = some (tag, s')) (first : α) :
    cmpElems cmp (data.getD x first) (data.getD y first) s = some (tag, s') := by
  simp only [cmpAt, Option.bind_eq_bind, Option.bind_eq_some_iff] at h
  obtain ⟨-, -, -, -, a, ha, b, hb, htag⟩ := h
  rw [List.getD_eq_getElem?_getD, List.getD_eq_getElem?_getD, ha, hb]
  exact htag

theorem mayTake_at {data : List α} {size x y : ℕ} (h : MayTake (cmpAt cmp data size) x y) (first : α) :
    MayTake (cmpElems cmp) (data.getD x first) (data.getD y first) := by
  obtain ⟨s, tag, s', htag, hle⟩ := h
  exact ⟨s, tag, s', cmpAt_eq_some htag first, hle⟩

theorem mayPass_at {data : List α} {size x y : ℕ} (h : MayPass (cmpAt cmp data size) x y) (first : α) :
    MayPass (cmpElems cmp) (data.getD x first) (data.getD y first) := by
  obtain ⟨s, tag, s', htag, hlt⟩ := h
  exact ⟨s, tag, s', cmpAt_eq_some htag first, hlt⟩

theorem sortIndices_spec (cmp : α → α → σ → ℤ × σ) {size : ℕ} (data : List α) (hne : data ≠ []) (idx buf : Scratch ℕ data.length 8)
    (tmp : Scratch α data.length size) (s : σ) :
    ∃ out s', sortIndices cmp data size ⟨some idx, some buf, some tmp⟩ s = some (out, s') ∧
      Built (MayTake (cmpElems cmp)) (MayPass (cmpElems cmp)) data out := by
  obtain ⟨first, hfirst⟩ := List.exists_mem_of_ne_nil data hne
  have hg : ∀ i < data.length, data[i]? = some (data.getD i first) := fun i hi => by
    rw [List.getD_eq_getElem?_getD, List.getElem?_eq_getElem hi, Option.getD_some]
  have haddr : ∀ i < data.length, i * size < 2 ^ 64 := fun i hi => by
    have hle := Nat.mul_le_mul_right size hi.le
    have hfits := tmp.fits
    have hbig : isizeMax = 2 ^ 63 - 1 := rfl
    omega
  have hfill := fillIndices_spec 0 idx.cells (Nat.zero_le _) idx.length_eq rfl
  have hcmp : Compares (cmpAt cmp data size) (List.range data.length) := by
    intro x hx y hy s
    have hx' := List.mem_range.mp hx
    have hy' := List.mem_range.mp hy
    refine ⟨(cmp (data.getD x first) (data.getD y first) s).1, (cmp (data.getD x first) (data.getD y first) s).2, ?_⟩
    simp only [cmpAt, usize_ok (haddr x hx'), usize_ok (haddr y hy'), hg x hx', hg y hy', Option.bind_eq_bind,
      Option.bind_some]
  obtain ⟨live, other, home, s', hpasses, hbuilt, -⟩ := mergePasses_spec hcmp List.length_range
    (by have := idx.fits; omega) data.length 1 (List.range data.length) buf.cells true s one_pos (runsBuilt_one _)
    buf.length_eq (by omega)
  have hlen : live.length = data.length := by rw [hbuilt.length_eq, List.length_range]
  have hgather := gather_spec tmp.fits hg hlen (fun i hi => List.mem_range.mp (hbuilt.perm.mem_iff.mp hi)) 0 tmp.cells
    tmp.length_eq (Nat.zero_le _)
  rw [List.drop_zero, splice_whole (by rw [List.length_map, hlen, tmp.length_eq])] at hgather
  refine ⟨live.map fun i => data.getD i first, s', ?_, ?_⟩
  · simp only [sortIndices, hfill, hpasses, hgather, Option.bind_eq_bind, Option.bind_some]
    rw [copyAll_ok (by rw [List.length_map, hlen])]
    rfl
  · have hdata : (List.range data.length).map (fun i => data.getD i first) = data := by
      refine List.ext_getElem (by simp) fun i hi hi' => ?_
      have hi'' : data[i]? = some (data.getD i first) := hg i hi'
      rw [List.getElem?_eq_getElem hi'] at hi''
      rw [List.getElem_map, List.getElem_range]
      exact (Option.some.inj hi'').symm
    have hmap := hbuilt.map (g := fun i => data.getD i first) (fun x y h => mayTake_at h first)
      (fun x y h => mayPass_at h first)
    rwa [hdata] at hmap

end Indices

/-! The entry point. -/

section Entry

variable {α σ : Type}

/-- Every allocation of the call is granted. -/
structure Grants.All {n size : ℕ} (grants : Grants α n size) : Prop where
  scratch : grants.scratch.isSome
  idx : grants.buffers.idx.isSome
  buf : grants.buffers.buf.isSome
  tmp : grants.buffers.tmp.isSome

/-- The tags of a total preorder: negative below, zero on a tie, positive above. -/
structure TagsOf (r : α → α → Prop) (cmp : α → α → σ → ℤ × σ) : Prop where
  below : ∀ x y s, (cmp x y s).1 < 0 ↔ r x y ∧ ¬ r y x
  tie : ∀ x y s, (cmp x y s).1 = 0 ↔ r x y ∧ r y x

theorem TagsOf.mayTake {r : α → α → Prop} {cmp : α → α → σ → ℤ × σ} (h : TagsOf r cmp) {x y : α}
    (hxy : MayTake (cmpElems cmp) x y) : r x y := by
  obtain ⟨s, tag, s', htag, hle⟩ := hxy
  obtain ⟨rfl, rfl⟩ := Prod.mk.inj (Option.some.inj htag)
  rcases lt_or_eq_of_le hle with hlt | heq
  · exact ((h.below x y s).mp hlt).1
  · exact ((h.tie x y s).mp heq).1

theorem TagsOf.mayPass {r : α → α → Prop} {cmp : α → α → σ → ℤ × σ} (h : TagsOf r cmp) {x y : α}
    (hxy : MayPass (cmpElems cmp) x y) : ¬ r x y := by
  obtain ⟨s, tag, s', htag, hlt⟩ := hxy
  obtain ⟨rfl, rfl⟩ := Prod.mk.inj (Option.some.inj htag)
  intro hr
  by_cases hyx : r y x
  · exact absurd ((h.tie x y s).mpr ⟨hr, hyx⟩) (ne_of_gt hlt)
  · exact absurd ((h.below x y s).mpr ⟨hr, hyx⟩) (not_lt.mpr hlt.le)

/-- Whatever the comparator answers, the call stays inside its buffers and builds its result by insertions and
merges of the elements. -/
theorem karacVecSortBy_built (cmp : α → α → σ → ℤ × σ) (data : List α) (elemSize : ℤ) (hsize : 0 < elemSize)
    (grants : Grants α data.length elemSize.toNat) (hgrants : grants.All) (s : σ) :
    ∃ out s', karacVecSortBy cmp data elemSize grants s = some (out, s') ∧
      Built (MayTake (cmpElems cmp)) (MayPass (cmpElems cmp)) data out := by
  obtain ⟨scratch, ⟨idx, buf, tmp⟩⟩ := grants
  obtain ⟨hscratch, hidx, hbuf, htmp⟩ := hgrants
  obtain ⟨scratch, rfl⟩ := Option.isSome_iff_exists.mp hscratch
  obtain ⟨idx, rfl⟩ := Option.isSome_iff_exists.mp hidx
  obtain ⟨buf, rfl⟩ := Option.isSome_iff_exists.mp hbuf
  obtain ⟨tmp, rfl⟩ := Option.isSome_iff_exists.mp htmp
  have hbig : isizeMax = 2 ^ 63 - 1 := rfl
  have htotal : usize (data.length * elemSize.toNat) = some (data.length * elemSize.toNat) :=
    usize_ok (by have := tmp.fits; omega)
  unfold karacVecSortBy
  by_cases hshort : data.length < 2
  · rw [if_pos (Or.inl hshort)]
    refine ⟨data, s, rfl, ?_⟩
    match data, hshort with
    | [], _ => exact .nil
    | [x], _ => exact .single x
  · rw [if_neg (by omega)]
    simp only [htotal]
    by_cases h8 : elemSize.toNat = 8
    · rw [if_pos h8]
      exact sortFixedWidth_spec cmp (by omega) data scratch s
    · by_cases h16 : elemSize.toNat = 16
      · rw [if_neg h8, if_pos h16]
        exact sortFixedWidth_spec cmp (by omega) data scratch s
      · rw [if_neg h8, if_neg h16]
        exact sortIndices_spec cmp data (by rintro rfl; simp at hshort) idx buf tmp s

/-- The call permutes the elements whatever the comparator answers; with the tags of a total preorder it is a
stable sort, and the path of the fixed widths and the path of the indices leave the same elements. -/
theorem karac_vec_sort_by_stable (cmp : α → α → σ → ℤ × σ) (data : List α) (elemSize : ℤ) (hsize : 0 < elemSize)
    (grants : Grants α data.length elemSize.toNat) (hgrants : grants.All) (s : σ) :
    ∃ out s', karacVecSortBy cmp data elemSize grants s = some (out, s') ∧ out.Perm data ∧
      ∀ (r : α → α → Prop) [DecidableRel r] [IsTrans α r] [Std.Total r], TagsOf r cmp →
        StableSortOf r data out ∧
          (∀ (width : ℕ) (scratch : Scratch α data.length width) (s : σ), width = 8 ∨ width = 16 →
            ∃ s', sortFixedWidth cmp data (some scratch) s = some (out, s')) ∧
          ∀ (size : ℕ) (idx buf : Scratch ℕ data.length 8) (tmp : Scratch α data.length size) (s : σ),
            2 ≤ data.length → ∃ s', sortIndices cmp data size ⟨some idx, some buf, some tmp⟩ s = some (out, s') := by
  obtain ⟨out, s', hrun, hbuilt⟩ := karacVecSortBy_built cmp data elemSize hsize grants hgrants s
  refine ⟨out, s', hrun, hbuilt.perm, fun r _ _ _ htags => ?_⟩
  have hstable : ∀ {out : List α}, Built (MayTake (cmpElems cmp)) (MayPass (cmpElems cmp)) data out →
      StableSortOf r data out :=
    fun hb => hb.stableSort (fun x y => htags.mayTake) fun x y => htags.mayPass
  refine ⟨hstable hbuilt, fun width scratch s hwidth => ?_, fun size idx buf tmp s hlen => ?_⟩
  · obtain ⟨out', s'', hrun', hbuilt'⟩ := sortFixedWidth_spec cmp (by omega) data scratch s
    obtain rfl := (hstable hbuilt').unique (hstable hbuilt)
    exact ⟨s'', hrun'⟩
  · obtain ⟨out', s'', hrun', hbuilt'⟩ := sortIndices_spec cmp data (by rintro rfl; simp at hlen) idx buf tmp s
    obtain rfl := (hstable hbuilt').unique (hstable hbuilt)
    exact ⟨s'', hrun'⟩

end Entry

/-! Pairs by their first component. -/

section Keys

def byKey (x y : ℕ × ℕ) : Prop := x.1 ≤ y.1

instance : DecidableRel byKey := fun x y => inferInstanceAs (Decidable (x.1 ≤ y.1))

instance : IsTrans (ℕ × ℕ) byKey := ⟨fun _ _ _ hxy hyz => le_trans hxy hyz⟩

instance : Std.Total byKey := ⟨fun x y => le_total x.1 y.1⟩

def cmpKey (x y : ℕ × ℕ) (_ : Unit) : ℤ × Unit := (if x.1 < y.1 then -1 else if x.1 = y.1 then 0 else 1, ())

theorem tagsOf_byKey : TagsOf byKey cmpKey where
  below x y s := by
    simp only [cmpKey, byKey]
    split_ifs with h1 h2
    all_goals norm_num
    all_goals omega
  tie x y s := by
    simp only [cmpKey, byKey]
    split_ifs with h1 h2
    all_goals norm_num
    all_goals omega

def keyData : List (ℕ × ℕ) := [(2, 0), (1, 1), (2, 2)]

def keyGrants : Grants (ℕ × ℕ) keyData.length (24 : ℤ).toNat where
  scratch := some ⟨keyData, rfl, by decide⟩
  buffers := ⟨some ⟨[7, 7, 7], rfl, by decide⟩, some ⟨[7, 7, 7], rfl, by decide⟩, some ⟨keyData, rfl, by decide⟩⟩

theorem karac_vec_sort_by_stable_keys : ∃ out s', karacVecSortBy cmpKey keyData 24 keyGrants () = some (out, s') ∧
    StableSortOf byKey keyData out := by
  obtain ⟨out, s', hrun, -, hstable⟩ := karac_vec_sort_by_stable cmpKey keyData 24 (by decide) keyGrants
    ⟨rfl, rfl, rfl, rfl⟩ ()
  exact ⟨out, s', hrun, (hstable byKey tagsOf_byKey).1⟩

end Keys

end Karac.Runtime
