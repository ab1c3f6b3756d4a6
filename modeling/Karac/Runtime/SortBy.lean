import Mathlib
import Karac.Lib.StableSort

/-! `karac_vec_sort_by`: the in-place merge sort of the 8- and 16-byte widths and the index permutation of the
others. A read or a write outside a buffer, or an index computation that leaves `usize`, ends a run with `none`. -/

namespace Karac.Runtime

open Lib

/-- The largest size of an allocation, `isize::MAX`. -/
def isizeMax : ℕ := 2 ^ 63 - 1

/-- An index computation of `usize`. -/
def usize (x : ℕ) : Option ℕ := if x < 2 ^ 64 then some x else none

/-- `*buf.add(k) = x`. -/
def store {β : Type} (buf : List β) (k : ℕ) (x : β) : Option (List β) :=
  if k < buf.length then some (buf.set k x) else none

/-- `ptr::copy_nonoverlapping` of a whole buffer of as many elements. -/
def copyAll {β : Type} (src dst : List β) : Option (List β) := if src.length = dst.length then some src else none

/-- A granted allocation of `n` elements of `size` bytes; what is in it is arbitrary. -/
structure Scratch (β : Type) (n size : ℕ) where
  cells : List β
  length_eq : cells.length = n
  fits : n * size ≤ isizeMax

section Merge

variable {β σ : Type}

/-- The comparison of two buffer cells; `none` when it reads outside the elements. The comparator may keep a
state behind `ctx`. -/
abbrev Compare (β σ : Type) := β → β → σ → Option (ℤ × σ)

/-- `while a < stop { dst[k] = src[a]; a += 1; k += 1 }`. -/
def copyRun (src : List β) (a stop k : ℕ) (dst : List β) : Option (List β × ℕ) :=
  if a < stop then do
    let x ← src[a]?
    let dst ← store dst k x
    copyRun src (a + 1) stop (k + 1) dst
  else some (dst, k)
termination_by stop - a

/-- The loop that takes the smaller head, the left one on a tie: the buffer, the two heads and the write index. -/
def mergeHeads (compare : Compare β σ) (src : List β) (mid hi : ℕ) (a b k : ℕ) (dst : List β) (s : σ) :
    Option ((List β × ℕ × ℕ × ℕ) × σ) :=
  if a < mid ∧ b < hi then do
    let x ← src[a]?
    let y ← src[b]?
    let (tag, s) ← compare x y s
    if tag ≤ 0 then
      let dst ← store dst k x
      mergeHeads compare src mid hi (a + 1) b (k + 1) dst s
    else
      let dst ← store dst k y
      mergeHeads compare src mid hi a (b + 1) (k + 1) dst s
  else some ((dst, a, b, k), s)
termination_by (mid - a) + (hi - b)

/-- The runs at `lo`, merged from `src` into `dst`. -/
def mergeRuns (compare : Compare β σ) (src : List β) (lo mid hi : ℕ) (dst : List β) (s : σ) :
    Option (List β × σ) := do
  let ((dst, a, b, k), s) ← mergeHeads compare src mid hi lo mid lo dst s
  let (dst, k) ← copyRun src a mid k dst
  let (dst, _) ← copyRun src b hi k dst
  some (dst, s)

/-- One pass: adjacent runs of `width` cells merged from `lo` on. `fuel` bounds the rounds. -/
def mergePass (compare : Compare β σ) (n width : ℕ) (src : List β) : ℕ → ℕ → List β → σ → Option (List β × σ)
  | 0, lo, dst, s => if lo < n then none else some (dst, s)
  | fuel + 1, lo, dst, s =>
    if lo < n then do
      let left ← usize (lo + width)
      let twice ← usize (2 * width)
      let right ← usize (lo + twice)
      let (dst, s) ← mergeRuns compare src lo (min left n) (min right n) dst s
      mergePass compare n width src fuel right dst s
    else some (dst, s)

/-- The passes, ping-ponging between the buffers: the live buffer, the other one, and whether the live one is the
buffer that was live at first. -/
def mergePasses (compare : Compare β σ) (n : ℕ) : ℕ → ℕ → List β → List β → Bool → σ →
    Option ((List β × List β × Bool) × σ)
  | 0, width, src, dst, home, s => if width < n then none else some ((src, dst, home), s)
  | fuel + 1, width, src, dst, home, s =>
    if width < n then do
      let (dst, s) ← mergePass compare n width src n 0 dst s
      let width ← usize (width * 2)
      mergePasses compare n fuel width dst src (!home) s
    else some ((src, dst, home), s)

end Merge

section Fixed

variable {α σ : Type} (cmp : α → α → σ → ℤ × σ)

def cmpElems : Compare α σ := fun x y s => some (cmp x y s)

/-- `while j > start && cmp(base[j - 1], hold) > 0`: elements greater than `hold` shift up, then `hold` drops in. -/
def insertHold (start : ℕ) (hold : α) : ℕ → List α → σ → Option (List α × σ)
  | 0, buf, s => do
    let buf ← store buf 0 hold
    some (buf, s)
  | j + 1, buf, s =>
    if start < j + 1 then do
      let prev ← buf[j]?
      let (tag, s) := cmp prev hold s
      if tag > 0 then
        let buf ← store buf (j + 1) prev
        insertHold start hold j buf s
      else
        let buf ← store buf (j + 1) hold
        some (buf, s)
    else do
      let buf ← store buf (j + 1) hold
      some (buf, s)

/-- The insertion sort of the run that ends at `stop`. -/
def insertRun (start stop i : ℕ) (buf : List α) (s : σ) : Option (List α × σ) :=
  if i < stop then do
    let hold ← buf[i]?
    let (buf, s) ← insertHold cmp start hold i buf s
    insertRun start stop (i + 1) buf s
  else some (buf, s)
termination_by stop - i

def runLength : ℕ := 32

/-- Phase 1: every run of `runLength` elements sorted in place. -/
def sortRuns (n : ℕ) : ℕ → ℕ → List α → σ → Option (List α × σ)
  | 0, start, buf, s => if start < n then none else some (buf, s)
  | fuel + 1, start, buf, s =>
    if start < n then do
      let stop ← usize (start + runLength)
      let (buf, s) ← insertRun cmp start (min stop n) (start + 1) buf s
      sortRuns n fuel (min stop n) buf s
    else some (buf, s)

/-- `sort_fixed_width`. No scratch: its layout or its allocation failed, and nothing is done. -/
def sortFixedWidth {width : ℕ} (data : List α) (scratch : Option (Scratch α data.length width)) (s : σ) :
    Option (List α × σ) :=
  match scratch with
  | none => some (data, s)
  | some scratch => do
    let n := data.length
    let (base, s) ← sortRuns cmp n n 0 data s
    let ((src, dst, home), s) ← mergePasses (cmpElems cmp) n n runLength base scratch.cells true s
    -- the other buffer is the caller's when the live one is not
    if home then some (src, s)
    else do
      let data ← copyAll src dst
      some (data, s)

end Fixed

section Indices

variable {α σ : Type} (cmp : α → α → σ → ℤ × σ)

/-- The elements at two indices, compared where they lie. -/
def cmpAt (data : List α) (size : ℕ) : Compare ℕ σ := fun ia ib s => do
  let _ ← usize (ia * size)
  let _ ← usize (ib * size)
  let x ← data[ia]?
  let y ← data[ib]?
  some (cmp x y s)

/-- The identity permutation, from index `i` on. -/
def fillIndices (n i : ℕ) (idx : List ℕ) : Option (List ℕ) :=
  if i < n then do
    let idx ← store idx i i
    fillIndices n (i + 1) idx
  else some idx
termination_by n - i

/-- The elements gathered into `tmp` in the order of the indices. -/
def gather (data : List α) (size : ℕ) (indices : List ℕ) (n k : ℕ) (tmp : List α) : Option (List α) :=
  if k < n then do
    let old ← indices[k]?
    let _ ← usize (old * size)
    let _ ← usize (k * size)
    let x ← data[old]?
    let tmp ← store tmp k x
    gather data size indices n (k + 1) tmp
  else some tmp
termination_by n - k

/-- The buffers of the generic path. -/
structure IndexBuffers (α : Type) (n size : ℕ) where
  idx : Option (Scratch ℕ n 8)
  buf : Option (Scratch ℕ n 8)
  tmp : Option (Scratch α n size)

/-- The generic path of `karac_vec_sort_by`: a permutation of indices is sorted and applied once. -/
def sortIndices (data : List α) (size : ℕ) (bufs : IndexBuffers α data.length size) (s : σ) :
    Option (List α × σ) :=
  match bufs.idx, bufs.buf, bufs.tmp with
  | some idx, some buf, some tmp => do
    let n := data.length
    let indices ← fillIndices n 0 idx.cells
    let ((src, _, _), s) ← mergePasses (cmpAt cmp data size) n n 1 indices buf.cells true s
    let sorted ← gather data size src n 0 tmp.cells
    let data ← copyAll sorted data
    some (data, s)
  | _, _, _ => some (data, s)

/-- What the allocator grants to a call. -/
structure Grants (α : Type) (n size : ℕ) where
  scratch : Option (Scratch α n size)
  buffers : IndexBuffers α n size

/-- `karac_vec_sort_by` on elements of `elemSize` bytes. -/
def karacVecSortBy (data : List α) (elemSize : ℤ) (grants : Grants α data.length elemSize.toNat) (s : σ) :
    Option (List α × σ) :=
  if data.length < 2 ∨ elemSize ≤ 0 then some (data, s)
  else
    let size := elemSize.toNat
    match usize (data.length * size) with
    | none => some (data, s)
    | some _ =>
      if size = 8 then sortFixedWidth cmp data grants.scratch s
      else if size = 16 then sortFixedWidth cmp data grants.scratch s
      else sortIndices cmp data size grants.buffers s

end Indices

end Karac.Runtime
