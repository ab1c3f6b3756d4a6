import Mathlib

/-! Sums over a list of what each element contributes at its position, and how they change with one element. -/

namespace Karac.Lib

variable {α : Type*}

def sumIdx (f : ℕ → α → ℕ) (l : List α) : ℕ := (l.mapIdx f).sum

variable {f g : ℕ → α → ℕ} {l : List α}

@[simp] theorem sumIdx_nil : sumIdx f [] = 0 := rfl

@[simp] theorem sumIdx_cons (x : α) : sumIdx f (x :: l) = f 0 x + sumIdx (fun i => f (i + 1)) l := by
  simp [sumIdx, List.mapIdx_cons]

theorem sumIdx_append_one (x : α) : sumIdx f (l ++ [x]) = sumIdx f l + f l.length x := by
  simp [sumIdx, List.mapIdx_append]

theorem sumIdx_congr (h : ∀ i x, l[i]? = some x → f i x = g i x) : sumIdx f l = sumIdx g l := by
  induction l generalizing f g with
  | nil => rfl
  | cons x rest ih =>
    rw [sumIdx_cons, sumIdx_cons, h 0 x rfl, ih fun i y hy => h (i + 1) y hy]

/-- One element changes, and what the element at its position contributes. -/
theorem sumIdx_set {i : ℕ} {x : α} (hx : l[i]? = some x) (h : ∀ j, j ≠ i → ∀ y, g j y = f j y) (x' : α) :
    sumIdx g (l.set i x') + f i x = sumIdx f l + g i x' := by
  induction l generalizing f g i with
  | nil => cases hx
  | cons y rest ih =>
    cases i with
    | zero =>
      obtain rfl : y = x := by simpa using hx
      have hrest : sumIdx (fun i => g (i + 1)) rest = sumIdx (fun i => f (i + 1)) rest :=
        sumIdx_congr fun i z _ => h (i + 1) i.succ_ne_zero z
      rw [List.set_cons_zero, sumIdx_cons, sumIdx_cons, hrest]
      omega
    | succ i =>
      have hrest := ih (f := fun i => f (i + 1)) (g := fun i => g (i + 1)) hx fun j hj => h (j + 1) (by omega)
      rw [List.set_cons_succ, sumIdx_cons, sumIdx_cons, h 0 (by omega)]
      omega

theorem sumIdx_set_one {i : ℕ} {x : α} (hx : l[i]? = some x) (x' : α) :
    sumIdx f (l.set i x') + f i x = sumIdx f l + f i x' :=
  sumIdx_set hx (fun _ _ _ => rfl) x'

theorem sumIdx_zero (h : ∀ i x, l[i]? = some x → f i x = 0) : sumIdx f l = 0 := by
  have hzero : ∀ l : List α, sumIdx (fun _ _ => 0) l = 0 := by
    intro l
    induction l with
    | nil => rfl
    | cons x rest ih => simp [ih]
  rw [sumIdx_congr h, hzero]

theorem sumIdx_eq_zero_iff : sumIdx f l = 0 ↔ ∀ i x, l[i]? = some x → f i x = 0 := by
  refine ⟨fun h => ?_, sumIdx_zero⟩
  induction l generalizing f with
  | nil => exact fun i x hx => by cases hx
  | cons y rest ih =>
    rw [sumIdx_cons, Nat.add_eq_zero_iff] at h
    intro i x hx
    cases i with
    | zero =>
      obtain rfl : y = x := by simpa using hx
      exact h.1
    | succ i => exact ih h.2 i x hx

theorem sumIdx_add : sumIdx (fun i x => f i x + g i x) l = sumIdx f l + sumIdx g l := by
  induction l generalizing f g with
  | nil => rfl
  | cons x rest ih =>
    rw [sumIdx_cons, sumIdx_cons, sumIdx_cons, ih]
    omega

/-- A change of one element that the predicate does not see. -/
theorem any_set {test : α → Bool} {i : ℕ} {x x' : α} (hx : l[i]? = some x) (h : test x' = test x) :
    (l.set i x').any test = l.any test := by
  induction l generalizing i with
  | nil => cases hx
  | cons y rest ih =>
    cases i with
    | zero =>
      obtain rfl : y = x := by simpa using hx
      simp [h]
    | succ i => simpa using congrArg (test y || ·) (ih hx)

end Karac.Lib
