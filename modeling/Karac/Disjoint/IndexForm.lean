import Karac.Disjoint.SymPoly

/-! Index expressions as linear forms in the induction variables, with loop-invariant coefficients. The forms and their
coefficients compute with the values. -/

namespace Karac.Disjoint

open Karac.Lib

abbrev Coeffs := SortedMap String SymPoly

structure IndexForm where
  iv : Coeffs
  base : SymPoly

namespace IndexForm

def constant (c : I64) : IndexForm := ⟨SortedMap.empty, SymPoly.constant c⟩

def invariant (p : SymPoly) : IndexForm := ⟨SortedMap.empty, p⟩

def induction (name : String) : IndexForm :=
  ⟨SortedMap.empty.insert name (SymPoly.constant I64.one), SymPoly.zero⟩

/-- Nothing when the form mentions an induction variable. -/
def asInvariant (f : IndexForm) : Option SymPoly := if f.iv.entries.isEmpty then some f.base else none

def mergedCoeff (iv : Coeffs) (e : String × SymPoly) : Option SymPoly :=
  match iv.get e.1 with
  | some existing => existing.add e.2
  | none => some e.2

def merge (iv : Coeffs) (e : String × SymPoly) : Option Coeffs := do
  let merged ← mergedCoeff iv e
  return if merged.isZero then iv.erase e.1 else iv.insert e.1 merged

def add (f other : IndexForm) : Option IndexForm := do
  let iv ← other.iv.entries.foldlM merge f.iv
  let base ← f.base.add other.base
  return ⟨iv, base⟩

def neg (f : IndexForm) : Option IndexForm := do
  let iv ← f.iv.entries.foldlM (fun (iv : Coeffs) e => do
    let coeff ← e.2.neg
    return iv.insert e.1 coeff) SortedMap.empty
  let base ← f.base.neg
  return ⟨iv, base⟩

def sub (f other : IndexForm) : Option IndexForm := do
  let negated ← other.neg
  f.add negated

def scale (f : IndexForm) (scalar : SymPoly) : Option IndexForm := do
  let iv ← f.iv.entries.foldlM (fun (iv : Coeffs) e => do
    let scaled ← e.2.mul scalar
    return if scaled.isZero then iv else iv.insert e.1 scaled) SortedMap.empty
  let base ← f.base.mul scalar
  return ⟨iv, base⟩

/-- One side is loop-invariant. -/
def mul (f other : IndexForm) : Option IndexForm :=
  match f.asInvariant, other.asInvariant with
  | some s, _ => other.scale s
  | none, some s => f.scale s
  | none, none => none

/-! Values. -/

def ivEval (ρ σ : String → ℤ) (name : String) (coeff : SymPoly) : ℤ := coeff.eval ρ * σ name

/-- The value of the form where `ρ` gives the atoms and `σ` the induction variables. -/
def eval (ρ σ : String → ℤ) (f : IndexForm) : ℤ := f.iv.total (ivEval ρ σ) + f.base.eval ρ

section

variable (ρ σ : String → ℤ) {f g r : IndexForm}

theorem eval_constant (c : I64) : (constant c).eval ρ σ = c.val := by
  simp [eval, constant]

theorem eval_invariant (p : SymPoly) : (invariant p).eval ρ σ = p.eval ρ := by
  simp [eval, invariant]

theorem eval_induction (name : String) : (induction name).eval ρ σ = σ name := by
  have htotal := SortedMap.total_insert_of_none (ivEval ρ σ) (m := SortedMap.empty) (k := name) rfl
    (SymPoly.constant I64.one)
  unfold eval induction
  rw [htotal]
  simp [ivEval, I64.one]

theorem eval_of_asInvariant {p : SymPoly} (h : f.asInvariant = some p) : f.eval ρ σ = p.eval ρ := by
  unfold asInvariant at h
  split_ifs at h with hempty
  cases h
  unfold eval SortedMap.total
  rw [List.isEmpty_iff.mp hempty]
  exact zero_add _

theorem total_merge {iv iv' : Coeffs} {e : String × SymPoly} (h : merge iv e = some iv') :
    iv'.total (ivEval ρ σ) = iv.total (ivEval ρ σ) + ivEval ρ σ e.1 e.2 := by
  obtain ⟨merged, hmerged, h⟩ := Option.bind_eq_some_iff.mp h
  cases h
  unfold mergedCoeff at hmerged
  cases hget : iv.get e.1 with
  | none =>
    rw [hget] at hmerged
    cases hmerged
    split_ifs with hzero
    · rw [SortedMap.erase_of_none hget]
      simp [ivEval, SymPoly.eval_of_isZero ρ hzero]
    · rw [SortedMap.total_insert_of_none _ hget]
      exact add_comm _ _
  | some existing =>
    rw [hget] at hmerged
    have hsum : merged.eval ρ = existing.eval ρ + e.2.eval ρ := SymPoly.eval_add ρ hmerged
    split_ifs with hzero
    · have herase := SortedMap.total_erase_of_some (ivEval ρ σ) hget
      have hcancel : existing.eval ρ = -e.2.eval ρ := by
        have hvalue := SymPoly.eval_of_isZero ρ hzero
        omega
      simp only [ivEval, hcancel] at herase ⊢
      linarith
    · have hreplace := SortedMap.total_insert_of_some (ivEval ρ σ) hget merged
      simp only [ivEval, hsum] at hreplace ⊢
      linarith

theorem eval_add (h : f.add g = some r) : r.eval ρ σ = f.eval ρ σ + g.eval ρ σ := by
  obtain ⟨iv, hiv, h⟩ := Option.bind_eq_some_iff.mp h
  obtain ⟨base, hbase, h⟩ := Option.bind_eq_some_iff.mp h
  cases h
  have hfold : ∀ (l : List (String × SymPoly)) (acc : Coeffs), l.foldlM merge acc = some iv →
      iv.total (ivEval ρ σ) = acc.total (ivEval ρ σ) + SortedMap.sumEntries (ivEval ρ σ) l := by
    intro l
    induction l with
    | nil =>
      intro acc hacc
      cases hacc
      exact (add_zero _).symm
    | cons e rest ih =>
      intro acc hacc
      obtain ⟨next, hnext, hacc⟩ := Option.bind_eq_some_iff.mp hacc
      rw [ih next hacc, total_merge ρ σ hnext, SortedMap.sumEntries_cons]
      exact add_assoc ..
  have htotal := hfold _ _ hiv
  simp only [eval, htotal, SymPoly.eval_add ρ hbase]
  unfold SortedMap.total
  ring

/-- The entries of a map, gathered in a new map: every step adds the value of its entry under a new key. -/
theorem total_gather {step : Coeffs → String × SymPoly → Option Coeffs} {value : String × SymPoly → ℤ}
    (hstep : ∀ acc e next, acc.get e.1 = none → step acc e = some next →
      next.total (ivEval ρ σ) = acc.total (ivEval ρ σ) + value e ∧ ∀ k, k ≠ e.1 → next.get k = acc.get k)
    {l : List (String × SymPoly)} (hsorted : (l.map Prod.fst).Pairwise (· < ·)) {acc last : Coeffs}
    (hacc : ∀ e ∈ l, acc.get e.1 = none) (h : l.foldlM step acc = some last) :
    last.total (ivEval ρ σ) = acc.total (ivEval ρ σ) + (l.map value).sum := by
  induction l generalizing acc with
  | nil =>
    cases h
    simp
  | cons e rest ih =>
    obtain ⟨next, hnext, h⟩ := Option.bind_eq_some_iff.mp h
    rw [List.map_cons, List.pairwise_cons] at hsorted
    obtain ⟨hhead, hrest⟩ := hsorted
    obtain ⟨htotal, hget⟩ := hstep acc e next (hacc e List.mem_cons_self) hnext
    have hfresh : ∀ e' ∈ rest, next.get e'.1 = none := by
      intro e' he'
      have hlt := hhead e'.1 (List.mem_map.mpr ⟨e', he', rfl⟩)
      rw [hget e'.1 hlt.ne']
      exact hacc e' (List.mem_cons_of_mem _ he')
    rw [ih hrest hfresh h, htotal, List.map_cons, List.sum_cons]
    exact add_assoc ..

theorem eval_neg (h : f.neg = some r) : r.eval ρ σ = -f.eval ρ σ := by
  obtain ⟨iv, hiv, h⟩ := Option.bind_eq_some_iff.mp h
  obtain ⟨base, hbase, h⟩ := Option.bind_eq_some_iff.mp h
  cases h
  have htotal : iv.total (ivEval ρ σ) =
      (SortedMap.empty : Coeffs).total (ivEval ρ σ) + (f.iv.entries.map fun e => -1 * ivEval ρ σ e.1 e.2).sum := by
    apply total_gather ρ σ _ f.iv.sorted (fun _ _ => rfl) hiv
    intro acc e next hget hnext
    obtain ⟨coeff, hcoeff, hnext⟩ := Option.bind_eq_some_iff.mp hnext
    cases hnext
    refine ⟨?_, fun k hk => SortedMap.get_insert_of_ne acc hk coeff⟩
    rw [SortedMap.total_insert_of_none _ hget]
    simp only [ivEval, SymPoly.eval_neg ρ hcoeff]
    ring
  simp only [eval, htotal, SymPoly.eval_neg ρ hbase, List.sum_map_mul_left, SortedMap.total_empty]
  unfold SortedMap.total SortedMap.sumEntries
  ring

theorem eval_sub (h : f.sub g = some r) : r.eval ρ σ = f.eval ρ σ - g.eval ρ σ := by
  obtain ⟨negated, hneg, h⟩ := Option.bind_eq_some_iff.mp h
  rw [eval_add ρ σ h, eval_neg ρ σ hneg]
  exact (sub_eq_add_neg ..).symm

theorem eval_scale {s : SymPoly} (h : f.scale s = some r) : r.eval ρ σ = f.eval ρ σ * s.eval ρ := by
  obtain ⟨iv, hiv, h⟩ := Option.bind_eq_some_iff.mp h
  obtain ⟨base, hbase, h⟩ := Option.bind_eq_some_iff.mp h
  cases h
  have htotal : iv.total (ivEval ρ σ) =
      (SortedMap.empty : Coeffs).total (ivEval ρ σ) +
        (f.iv.entries.map fun e => ivEval ρ σ e.1 e.2 * s.eval ρ).sum := by
    apply total_gather ρ σ _ f.iv.sorted (fun _ _ => rfl) hiv
    intro acc e next hget hnext
    obtain ⟨scaled, hscaled, hnext⟩ := Option.bind_eq_some_iff.mp hnext
    cases hnext
    have hvalue := SymPoly.eval_mul ρ hscaled
    split_ifs with hzero
    · refine ⟨?_, fun k _ => rfl⟩
      rw [SymPoly.eval_of_isZero ρ hzero] at hvalue
      have hterm : ivEval ρ σ e.1 e.2 * s.eval ρ = e.2.eval ρ * s.eval ρ * σ e.1 := by
        unfold ivEval
        ring
      rw [hterm, ← hvalue]
      simp
    · refine ⟨?_, fun k hk => SortedMap.get_insert_of_ne acc hk scaled⟩
      rw [SortedMap.total_insert_of_none _ hget]
      simp only [ivEval, hvalue]
      ring
  simp only [eval, htotal, SymPoly.eval_mul ρ hbase, List.sum_map_mul_right, SortedMap.total_empty]
  unfold SortedMap.total SortedMap.sumEntries
  ring

theorem eval_mul (h : f.mul g = some r) : r.eval ρ σ = f.eval ρ σ * g.eval ρ σ := by
  unfold mul at h
  split at h
  · rename_i s hf
    rw [eval_scale ρ σ h, eval_of_asInvariant ρ σ hf]
    exact mul_comm _ _
  · rename_i s hg
    rw [eval_scale ρ σ h, eval_of_asInvariant ρ σ hg]
  · cases h

end

end IndexForm

/-- Every operation that returns computes the integer operation on the values, and what is accepted as non-negative is
non-negative wherever the symbols have their signs. -/
def EvaluatesExactly (Signs : Finset String → Finset String → (String → ℤ) → Prop) : Prop :=
  (∀ (ρ : String → ℤ) (p q r : SymPoly),
    (∀ mono coeff, p.insert mono coeff = some r → r.eval ρ = p.eval ρ + coeff.val * (mono.map ρ).prod) ∧
    (p.add q = some r → r.eval ρ = p.eval ρ + q.eval ρ) ∧
    (p.neg = some r → r.eval ρ = -p.eval ρ) ∧
    (p.sub q = some r → r.eval ρ = p.eval ρ - q.eval ρ) ∧
    (p.mul q = some r → r.eval ρ = p.eval ρ * q.eval ρ)) ∧
  (∀ (ρ σ : String → ℤ) (f g r : IndexForm),
    (f.add g = some r → r.eval ρ σ = f.eval ρ σ + g.eval ρ σ) ∧
    (f.neg = some r → r.eval ρ σ = -f.eval ρ σ) ∧
    (f.sub g = some r → r.eval ρ σ = f.eval ρ σ - g.eval ρ σ) ∧
    (∀ s, f.scale s = some r → r.eval ρ σ = f.eval ρ σ * s.eval ρ) ∧
    (f.mul g = some r → r.eval ρ σ = f.eval ρ σ * g.eval ρ σ)) ∧
  ∀ nonneg positive ρ, Signs nonneg positive ρ →
    ∀ p : SymPoly, p.provablyNonneg nonneg positive = true → 0 ≤ p.eval ρ

theorem forms_evaluate_exactly :
    EvaluatesExactly fun nonneg positive ρ => (∀ x ∈ nonneg, 0 ≤ ρ x) ∧ ∀ x ∈ positive, 1 ≤ ρ x := by
  refine ⟨?_, ?_, ?_⟩
  · intro ρ p q r
    exact ⟨fun _ _ => SymPoly.eval_insert ρ, SymPoly.eval_add ρ, SymPoly.eval_neg ρ, SymPoly.eval_sub ρ,
      SymPoly.eval_mul ρ⟩
  · intro ρ σ f g r
    exact ⟨IndexForm.eval_add ρ σ, IndexForm.eval_neg ρ σ, IndexForm.eval_sub ρ σ, fun _ => IndexForm.eval_scale ρ σ,
      IndexForm.eval_mul ρ σ⟩
  · intro nonneg positive ρ hsigns p haccepted
    exact SymPoly.eval_nonneg ρ haccepted hsigns.1 hsigns.2

/-- `dw - 1` is accepted where `dw` is known to be at least 1. -/
theorem positive_credit_needs_one :
    ¬EvaluatesExactly fun nonneg positive ρ => ∀ x ∈ nonneg ∪ positive, 0 ≤ ρ x := by
  intro h
  have hrun : ((SymPoly.atom "dw").sub (SymPoly.constant I64.one)).map
      (fun p => p.provablyNonneg {"dw"} {"dw"}) = some true := by decide
  obtain ⟨p, hp, haccepted⟩ := Option.map_eq_some_iff.mp hrun
  have hvalue : p.eval (fun _ => 0) = -1 := by
    rw [SymPoly.eval_sub _ hp]
    simp [I64.one]
  have hnonneg := h.2.2 {"dw"} {"dw"} (fun _ => 0) (fun _ _ => le_rfl) p haccepted
  rw [hvalue] at hnonneg
  exact absurd hnonneg (by decide)

end Karac.Disjoint
