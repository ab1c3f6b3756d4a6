import Karac.Lib.SortedMap

/-! Polynomials in loop-invariant symbols, with `i64` coefficients and checked arithmetic. An operation that returns a
polynomial computes the integer operation on the values; the others return nothing. -/

namespace Karac.Disjoint

open Karac.Lib

/-- An `i64`. -/
structure I64 where
  val : ℤ
  inRange : -2 ^ 63 ≤ val ∧ val < 2 ^ 63
  deriving DecidableEq

namespace I64

def checked (v : ℤ) : Option I64 := if h : -2 ^ 63 ≤ v ∧ v < 2 ^ 63 then some ⟨v, h⟩ else none

def checkedAdd (a b : I64) : Option I64 := checked (a.val + b.val)

def checkedNeg (a : I64) : Option I64 := checked (-a.val)

def checkedMul (a b : I64) : Option I64 := checked (a.val * b.val)

def zero : I64 := ⟨0, by decide⟩

def one : I64 := ⟨1, by decide⟩

theorem val_of_checked {v : ℤ} {a : I64} (h : checked v = some a) : a.val = v := by
  unfold checked at h
  split_ifs at h
  cases h
  rfl

end I64

/-- The sorted multiset of the atoms of a product; the constant monomial has none. -/
abbrev Monomial := List String

def maxTerms : ℕ := 32

def maxDegree : ℕ := 6

/-- A polynomial without zero coefficients and within the caps. -/
structure SymPoly where
  terms : SortedMap Monomial I64
  nonzero : ∀ e ∈ terms.entries, e.2.val ≠ 0
  degree : ∀ e ∈ terms.entries, e.1.length ≤ maxDegree
  few : terms.entries.length ≤ maxTerms

namespace SymPoly

/-- The room that a store needs: the monomial is there already, or there are fewer terms than the cap. -/
abbrev Room (p : SymPoly) (mono : Monomial) : Prop := (p.terms.get mono).isSome ∨ p.terms.entries.length < maxTerms

def store (p : SymPoly) (mono : Monomial) (coeff : I64) (hcoeff : coeff.val ≠ 0) (hmono : mono.length ≤ maxDegree)
    (hroom : p.Room mono) : SymPoly where
  terms := p.terms.insert mono coeff
  nonzero := by
    intro e he
    rcases SortedMap.mem_insert he with rfl | he
    · exact hcoeff
    · exact p.nonzero e he
  degree := by
    intro e he
    rcases SortedMap.mem_insert he with rfl | he
    · exact hmono
    · exact p.degree e he
  few := by
    rcases hroom with hsome | hroom
    · obtain ⟨w, hw⟩ := Option.isSome_iff_exists.mp hsome
      rw [SortedMap.length_insert_of_get hw]
      exact p.few
    · exact (SortedMap.length_insert ..).trans hroom

def remove (p : SymPoly) (mono : Monomial) : SymPoly where
  terms := p.terms.erase mono
  nonzero := fun e he => p.nonzero e (SortedMap.mem_erase he)
  degree := fun e he => p.degree e (SortedMap.mem_erase he)
  few := (SortedMap.length_erase ..).trans p.few

def zero : SymPoly where
  terms := SortedMap.empty
  nonzero := fun _ he => absurd he List.not_mem_nil
  degree := fun _ he => absurd he List.not_mem_nil
  few := Nat.zero_le _

theorem room_zero (mono : Monomial) : zero.Room mono := Or.inr (by decide)

def constant (c : I64) : SymPoly :=
  if hc : c.val = 0 then zero else zero.store [] c hc (Nat.zero_le _) (room_zero _)

def atom (name : String) : SymPoly :=
  zero.store [name] I64.one (by decide) (show 1 ≤ maxDegree by decide) (room_zero _)

def isZero (p : SymPoly) : Bool := p.terms.entries.isEmpty

/-- The polynomial as a plain integer, when it has no symbolic term. -/
def asConst (p : SymPoly) : Option I64 :=
  match p.terms.entries.length with
  | 0 => some I64.zero
  | 1 => p.terms.get []
  | _ => none

/-- The atom that the polynomial is. -/
def asBareAtom (p : SymPoly) : Option String :=
  match p.terms.entries with
  | [([name], coeff)] => if coeff.val = 1 then some name else none
  | _ => none

def insert (p : SymPoly) (mono : Monomial) (coeff : I64) : Option SymPoly :=
  if hcoeff : coeff.val = 0 then some p
  else if hmono : mono.length > maxDegree then none
  else match hget : p.terms.get mono with
    | some existing => do
      let sum ← existing.checkedAdd coeff
      if hsum : sum.val = 0 then some (p.remove mono)
      else some (p.store mono sum hsum (not_lt.mp hmono) (Or.inl (by rw [hget]; rfl)))
    | none =>
      if hfew : p.terms.entries.length ≥ maxTerms then none
      else some (p.store mono coeff hcoeff (not_lt.mp hmono) (Or.inr (not_le.mp hfew)))

def add (p other : SymPoly) : Option SymPoly := other.terms.entries.foldlM (fun out e => out.insert e.1 e.2) p

def neg (p : SymPoly) : Option SymPoly :=
  p.terms.entries.foldlM (fun out e => do
    let coeff ← e.2.checkedNeg
    out.insert e.1 coeff) zero

def sub (p other : SymPoly) : Option SymPoly := do
  let negated ← other.neg
  p.add negated

def product (a b : Monomial) : Monomial := (a ++ b).insertionSort (· ≤ ·)

def mul (p other : SymPoly) : Option SymPoly :=
  p.terms.entries.foldlM (fun out a =>
    other.terms.entries.foldlM (fun out b => do
      let coeff ← a.2.checkedMul b.2
      out.insert (product a.1 b.1) coeff) out) zero

/-- The floor after the terms: the constant, and the coefficients of the monomials whose atoms are all known to be
at least 1. Nothing when a term is not known to be non-negative, or on overflow. -/
def floorAfter (nonneg positive : Finset String) : I64 → List (Monomial × I64) → Option I64
  | floor, [] => some floor
  | floor, (mono, coeff) :: rest =>
    if mono.isEmpty then (floor.checkedAdd coeff).bind fun next => floorAfter nonneg positive next rest
    else if coeff.val < 0 ∨ ¬mono.all (· ∈ nonneg) then none
    else if mono.all (· ∈ positive) then
      (floor.checkedAdd coeff).bind fun next => floorAfter nonneg positive next rest
    else floorAfter nonneg positive floor rest

def provablyNonneg (p : SymPoly) (nonneg positive : Finset String) : Bool :=
  match floorAfter nonneg positive I64.zero p.terms.entries with
  | some floor => decide (0 ≤ floor.val)
  | none => false

/-! Values. -/

def monoEval (ρ : String → ℤ) (mono : Monomial) : ℤ := (mono.map ρ).prod

def termEval (ρ : String → ℤ) (mono : Monomial) (coeff : I64) : ℤ := coeff.val * monoEval ρ mono

def eval (ρ : String → ℤ) (p : SymPoly) : ℤ := p.terms.total (termEval ρ)

section

variable (ρ : String → ℤ) {p q r : SymPoly}

@[simp] theorem eval_zero : zero.eval ρ = 0 := rfl

theorem eval_store {mono : Monomial} {coeff : I64} (hcoeff : coeff.val ≠ 0) (hmono : mono.length ≤ maxDegree)
    (hroom : p.Room mono) (h : p.terms.get mono = none) :
    (p.store mono coeff hcoeff hmono hroom).eval ρ = termEval ρ mono coeff + p.eval ρ :=
  SortedMap.total_insert_of_none _ h coeff

theorem eval_replace {mono : Monomial} {coeff existing : I64} (hcoeff : coeff.val ≠ 0)
    (hmono : mono.length ≤ maxDegree) (hroom : p.Room mono) (h : p.terms.get mono = some existing) :
    termEval ρ mono existing + (p.store mono coeff hcoeff hmono hroom).eval ρ = termEval ρ mono coeff + p.eval ρ :=
  SortedMap.total_insert_of_some _ h coeff

theorem eval_remove {mono : Monomial} {existing : I64} (h : p.terms.get mono = some existing) :
    termEval ρ mono existing + (p.remove mono).eval ρ = p.eval ρ :=
  SortedMap.total_erase_of_some _ h

@[simp] theorem eval_constant (c : I64) : (constant c).eval ρ = c.val := by
  unfold constant
  split_ifs with hc
  · rw [hc]
    rfl
  · rw [eval_store ρ hc _ _ rfl]
    simp [termEval, monoEval]

@[simp] theorem eval_atom (name : String) : (atom name).eval ρ = ρ name := by
  unfold atom
  rw [eval_store ρ _ _ _ rfl]
  simp [termEval, monoEval, I64.one]

theorem eval_of_isZero (h : p.isZero = true) : p.eval ρ = 0 := by
  unfold eval SortedMap.total
  rw [List.isEmpty_iff.mp h]
  rfl

theorem eval_insert {mono : Monomial} {coeff : I64} (h : p.insert mono coeff = some r) :
    r.eval ρ = p.eval ρ + termEval ρ mono coeff := by
  by_cases hcoeff : coeff.val = 0
  · rw [insert, dif_pos hcoeff] at h
    cases h
    simp [termEval, hcoeff]
  rw [insert, dif_neg hcoeff] at h
  by_cases hmono : mono.length > maxDegree
  · rw [dif_pos hmono] at h
    cases h
  rw [dif_neg hmono] at h
  split at h
  · rename_i existing hget
    obtain ⟨sum, hsum, h⟩ := Option.bind_eq_some_iff.mp h
    have hval : sum.val = existing.val + coeff.val := I64.val_of_checked hsum
    split_ifs at h with hzero
    · cases h
      have hremove := eval_remove ρ hget
      have hcancel : existing.val = -coeff.val := by omega
      simp only [termEval, hcancel] at hremove ⊢
      linarith
    · cases h
      have hreplace := eval_replace ρ hzero (not_lt.mp hmono) (Or.inl (by rw [hget]; rfl)) hget
      simp only [termEval, hval] at hreplace ⊢
      linarith
  · rename_i hget
    split_ifs at h with hfew
    cases h
    rw [eval_store ρ _ _ _ hget]
    exact add_comm _ _

/-- A loop that adds the values of its elements. -/
theorem eval_foldlM {α : Type} {f : SymPoly → α → Option SymPoly} {value : α → ℤ} {l : List α}
    (hf : ∀ out x r, f out x = some r → r.eval ρ = out.eval ρ + value x) (h : l.foldlM f p = some r) :
    r.eval ρ = p.eval ρ + (l.map value).sum := by
  induction l generalizing p with
  | nil =>
    cases h
    simp
  | cons x rest ih =>
    obtain ⟨out, hout, h⟩ := Option.bind_eq_some_iff.mp h
    rw [ih h, hf p x out hout, List.map_cons, List.sum_cons]
    exact add_assoc ..

theorem eval_add (h : p.add q = some r) : r.eval ρ = p.eval ρ + q.eval ρ :=
  eval_foldlM ρ (fun _ _ _ hstep => eval_insert ρ hstep) h

theorem eval_neg (h : p.neg = some r) : r.eval ρ = -p.eval ρ := by
  have hsum : r.eval ρ = zero.eval ρ + (p.terms.entries.map fun e => -1 * termEval ρ e.1 e.2).sum := by
    apply eval_foldlM ρ _ h
    intro out e r hstep
    obtain ⟨coeff, hcoeff, hstep⟩ := Option.bind_eq_some_iff.mp hstep
    have hval : coeff.val = -e.2.val := I64.val_of_checked hcoeff
    rw [eval_insert ρ hstep]
    simp [termEval, hval]
  rw [hsum, eval_zero, zero_add, List.sum_map_mul_left]
  exact neg_one_mul _

theorem eval_sub (h : p.sub q = some r) : r.eval ρ = p.eval ρ - q.eval ρ := by
  obtain ⟨negated, hneg, h⟩ := Option.bind_eq_some_iff.mp h
  rw [eval_add ρ h, eval_neg ρ hneg]
  exact (sub_eq_add_neg ..).symm

theorem monoEval_product (a b : Monomial) : monoEval ρ (product a b) = monoEval ρ a * monoEval ρ b := by
  have hperm : (product a b).Perm (a ++ b) := List.perm_insertionSort (· ≤ ·) (a ++ b)
  unfold monoEval
  rw [(hperm.map ρ).prod_eq, List.map_append, List.prod_append]

theorem eval_mul (h : p.mul q = some r) : r.eval ρ = p.eval ρ * q.eval ρ := by
  have hrow : ∀ (out : SymPoly) (a : Monomial × I64) (r : SymPoly),
      q.terms.entries.foldlM (fun out b => do
        let coeff ← a.2.checkedMul b.2
        out.insert (product a.1 b.1) coeff) out = some r →
      r.eval ρ = out.eval ρ + termEval ρ a.1 a.2 * q.eval ρ := by
    intro out a r hfold
    have hsum : r.eval ρ = out.eval ρ +
        (q.terms.entries.map fun b => termEval ρ a.1 a.2 * termEval ρ b.1 b.2).sum := by
      apply eval_foldlM ρ _ hfold
      intro out b r hstep
      obtain ⟨coeff, hcoeff, hstep⟩ := Option.bind_eq_some_iff.mp hstep
      have hval : coeff.val = a.2.val * b.2.val := I64.val_of_checked hcoeff
      rw [eval_insert ρ hstep]
      simp only [termEval, hval, monoEval_product]
      ring
    rw [hsum, List.sum_map_mul_left]
    rfl
  have hsum := eval_foldlM ρ hrow h
  rw [hsum, eval_zero, zero_add, List.sum_map_mul_right]
  rfl

/-! The sign. -/

theorem monoEval_nonneg {mono : Monomial} (h : ∀ x ∈ mono, 0 ≤ ρ x) : 0 ≤ monoEval ρ mono := by
  apply List.prod_nonneg
  intro v hv
  obtain ⟨x, hx, rfl⟩ := List.mem_map.mp hv
  exact h x hx

theorem one_le_monoEval {mono : Monomial} (h : ∀ x ∈ mono, 1 ≤ ρ x) : 1 ≤ monoEval ρ mono := by
  induction mono with
  | nil => exact le_rfl
  | cons x rest ih =>
    have hhead := h x List.mem_cons_self
    have hrest := ih fun y hy => h y (List.mem_cons_of_mem _ hy)
    exact one_le_mul_of_one_le_of_one_le hhead hrest

/-- The floor never passes the value. -/
theorem floorAfter_le {nonneg positive : Finset String} (hnonneg : ∀ x ∈ nonneg, 0 ≤ ρ x)
    (hpositive : ∀ x ∈ positive, 1 ≤ ρ x) {l : List (Monomial × I64)} {floor last : I64}
    (h : floorAfter nonneg positive floor l = some last) :
    last.val ≤ floor.val + SortedMap.sumEntries (termEval ρ) l := by
  induction l generalizing floor with
  | nil =>
    cases h
    simp [SortedMap.sumEntries]
  | cons e rest ih =>
    obtain ⟨mono, coeff⟩ := e
    simp only [SortedMap.sumEntries_cons]
    rw [floorAfter] at h
    -- a credited term is worth its coefficient at least
    have hcredit : coeff.val ≤ termEval ρ mono coeff →
        ((floor.checkedAdd coeff).bind fun next => floorAfter nonneg positive next rest) = some last →
        last.val ≤ floor.val + (termEval ρ mono coeff + SortedMap.sumEntries (termEval ρ) rest) := by
      intro hterm hnext
      obtain ⟨next, hadd, hnext⟩ := Option.bind_eq_some_iff.mp hnext
      have hval : next.val = floor.val + coeff.val := I64.val_of_checked hadd
      have hrest := ih hnext
      omega
    split_ifs at h with hempty hsign hall
    · apply hcredit _ h
      rw [List.isEmpty_iff.mp hempty]
      simp [termEval, monoEval]
    · push Not at hsign
      apply hcredit _ h
      have hone := one_le_monoEval ρ fun x hx => hpositive x (by simpa using List.all_eq_true.mp hall x hx)
      exact le_mul_of_one_le_right hsign.1 hone
    · push Not at hsign
      have hmono := monoEval_nonneg ρ fun x hx => hnonneg x (by simpa using List.all_eq_true.mp hsign.2 x hx)
      have hterm : 0 ≤ termEval ρ mono coeff := mul_nonneg hsign.1 hmono
      have hrest := ih h
      omega

theorem eval_nonneg {nonneg positive : Finset String} (h : p.provablyNonneg nonneg positive = true)
    (hnonneg : ∀ x ∈ nonneg, 0 ≤ ρ x) (hpositive : ∀ x ∈ positive, 1 ≤ ρ x) : 0 ≤ p.eval ρ := by
  unfold provablyNonneg at h
  split at h
  · rename_i floor hfloor
    have hle := floorAfter_le ρ hnonneg hpositive hfloor
    have hpos := of_decide_eq_true h
    have hzero : I64.zero.val = 0 := rfl
    rw [hzero, zero_add] at hle
    exact hpos.trans hle
  · cases h

end

end SymPoly

end Karac.Disjoint
