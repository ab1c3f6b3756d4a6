import Karac.Codegen.MachineInt

/-! The assumption that the midpoint of a binary search lies between its ends. The comparisons are signed,
whatever the type of the ends. -/

namespace Karac.Codegen

open Ast

def simpleIdent : Expr → Option String
  | .identifier name => some name
  | _ => none

def asBinop (op : BinOp) (method : String) : Expr → Option (Expr × Expr)
  | .binary o left right => if o = op then some (left, right) else none
  | .call (.path [_, m]) [a, b] => if m = method then some (a.value, b.value) else none
  | _ => none

def asAdd (e : Expr) : Option (Expr × Expr) := asBinop .add "add" e

def asSub (e : Expr) : Option (Expr × Expr) := asBinop .sub "sub" e

/-- How a halving rounds: `x / 2` truncates and `x >> 1` floors. -/
inductive Halving
  | trunc | floor
  deriving DecidableEq

def isInteger (k : ℤ) : Expr → Bool
  | .integer c => decide (c = k)
  | _ => false

def asDivBy2 : Expr → Option (Expr × Halving)
  | .binary op left right =>
    if op = .div ∧ isInteger 2 right then some (left, .trunc)
    else if op = .shr ∧ isInteger 1 right then some (left, .floor)
    else none
  | .call (.path [_, method]) [a, b] =>
    if method = "div" ∧ isInteger 2 b.value then some (a.value, .trunc)
    else if method = "shr" ∧ isInteger 1 b.value then some (a.value, .floor)
    else none
  | _ => none

def isPair (e : Option (Expr × Expr)) (x y : String) : Bool :=
  match e with
  | some (a, b) => decide (simpleIdent a = some x) && decide (simpleIdent b = some y)
  | none => false

/-- `(lo + hi) >> 1` in either order. The sum needs the flooring half. -/
def isFlooredSum (value : Expr) (lo hi : String) : Bool :=
  match asDivBy2 value with
  | some (dividend, .floor) => isPair (asAdd dividend) lo hi || isPair (asAdd dividend) hi lo
  | _ => false

def isOffset (x y : Expr) (lo hi : String) : Bool :=
  decide (simpleIdent x = some lo) && match asDivBy2 y with
    | some (dividend, _) => isPair (asSub dividend) hi lo
    | none => false

/-- `lo + (hi - lo) / 2` in either order and with either half. -/
def isOffsetHalf (value : Expr) (lo hi : String) : Bool :=
  match asAdd value with
  | some (a, b) => isOffset a b lo hi || isOffset b a lo hi
  | none => false

def exprIsMidpoint (value : Expr) (lo hi : String) : Bool := isFlooredSum value lo hi || isOffsetHalf value lo hi

/-- `lo` and `hi` when the guard is `lo < hi` between two names. -/
def binsearchGuardPair (cond : Expr) : Option (String × String) :=
  match asBinop .lt "lt" cond with
  | some (l, r) =>
    match simpleIdent l, simpleIdent r with
    | some lo, some hi => if lo ≠ hi then some (lo, hi) else none
    | _, _ => none
  | none => none

/-- The guard pair of the innermost such loop, the pattern and the value of the `let`, and the widths of the
integer slots: the names `mid`, `lo` and `hi` of the emitted assumptions. -/
def tryEmitBinsearchMidpointAssumes (binsearchGuardStack : List (String × String)) (width : String → Option ℕ)
    (pattern : Pattern) (value : Expr) : Option (String × String × String) :=
  match binsearchGuardStack.getLast?, pattern with
  | some (lo, hi), .binding mid =>
    if mid = lo ∨ mid = hi then none
    else if exprIsMidpoint value lo hi = false then none
    else match width mid, width lo, width hi with
      | some m, some l, some h => if m = l ∧ m = h then some (mid, lo, hi) else none
      | _, _, _ => none
  | _, _ => none

def Halving.op : Halving → ArithOp
  | .trunc => .div
  | .floor => .shr

def Halving.divisor : Halving → ℤ
  | .trunc => 2
  | .floor => 1

def halfOf (how : Halving) (a : Arith) : Arith := .op how.op a (.lit how.divisor)

/-- The arithmetic forms of a midpoint. -/
inductive Midpoint (lo hi : String) : Arith → Prop
  | sum : Midpoint lo hi (halfOf .floor (.op .add (.var lo) (.var hi)))
  | sumSwapped : Midpoint lo hi (halfOf .floor (.op .add (.var hi) (.var lo)))
  | offset (how : Halving) : Midpoint lo hi (.op .add (.var lo) (halfOf how (.op .sub (.var hi) (.var lo))))
  | offsetSwapped (how : Halving) : Midpoint lo hi (.op .add (halfOf how (.op .sub (.var hi) (.var lo))) (.var lo))

theorem arith_of_simpleIdent {e : Expr} {x : String} (h : simpleIdent e = some x) : toArith e = some (.var x) := by
  unfold simpleIdent at h
  split at h
  · cases h
    rfl
  · cases h

theorem arith_of_isInteger {e : Expr} {k : ℤ} (h : isInteger k e = true) : toArith e = some (.lit k) := by
  unfold isInteger at h
  split at h
  · rw [of_decide_eq_true h]
    rfl
  · cases h

theorem arith_of_asBinop {op : BinOp} {method : String} {aop : ArithOp} (hop : binArith op = some aop)
    (hmethod : methodArith method = some aop) {e l r : Expr} (h : asBinop op method e = some (l, r))
    (hown : ownOperator e = false) :
    ownOperator l = false ∧ ownOperator r = false ∧
      ∀ a b, toArith l = some a → toArith r = some b → toArith e = some (.op aop a b) := by
  unfold asBinop at h
  split at h
  · split_ifs at h with heq
    cases h
    subst heq
    refine ⟨?_, ?_, ?_⟩
    · exact (Bool.or_eq_false_iff.mp hown).1
    · exact (Bool.or_eq_false_iff.mp hown).2
    · intro a b ha hb
      simp only [toArith, hop, ha, hb]
  · next typeName m a b =>
    split_ifs at h with heq
    cases h
    subst heq
    cases a with
    | mk al am ae =>
      cases b with
      | mk bl bm be =>
        obtain ⟨hprim, hl, hr⟩ := primitive_of_ownOperator hown
        exact ⟨hl, hr, fun a b ha hb => toArith_call hprim hmethod ha hb⟩
  · cases h

theorem arith_of_asDivBy2 {e d : Expr} {how : Halving} (h : asDivBy2 e = some (d, how))
    (hown : ownOperator e = false) :
    ownOperator d = false ∧ ∀ a, toArith d = some a → toArith e = some (halfOf how a) := by
  unfold asDivBy2 at h
  split at h
  · have hd := (Bool.or_eq_false_iff.mp hown).1
    split_ifs at h with hdiv hshr
    · cases h
      obtain ⟨rfl, htwo⟩ := hdiv
      refine ⟨hd, ?_⟩
      intro a ha
      simp only [toArith, binArith, ha, arith_of_isInteger htwo]
      rfl
    · cases h
      obtain ⟨rfl, hone⟩ := hshr
      refine ⟨hd, ?_⟩
      intro a ha
      simp only [toArith, binArith, ha, arith_of_isInteger hone]
      rfl
  · next typeName m a b =>
    cases a with
    | mk al am ae =>
      cases b with
      | mk bl bm be =>
        obtain ⟨hprim, hd, _⟩ := primitive_of_ownOperator hown
        split_ifs at h with hdiv hshr
        · cases h
          obtain ⟨rfl, htwo⟩ := hdiv
          exact ⟨hd, fun a ha => toArith_call hprim rfl ha (arith_of_isInteger htwo)⟩
        · cases h
          obtain ⟨rfl, hone⟩ := hshr
          exact ⟨hd, fun a ha => toArith_call hprim rfl ha (arith_of_isInteger hone)⟩
  · cases h

theorem arith_of_isPair {op : BinOp} {method : String} {aop : ArithOp} (hop : binArith op = some aop)
    (hmethod : methodArith method = some aop) {e : Expr} {x y : String}
    (h : isPair (asBinop op method e) x y = true) (hown : ownOperator e = false) :
    toArith e = some (.op aop (.var x) (.var y)) := by
  unfold isPair at h
  split at h
  · next l r heq =>
    obtain ⟨hx, hy⟩ := Bool.and_eq_true_iff.mp h
    have harith := (arith_of_asBinop hop hmethod heq hown).2.2
    exact harith _ _ (arith_of_simpleIdent (of_decide_eq_true hx)) (arith_of_simpleIdent (of_decide_eq_true hy))
  · cases h

theorem midpoint_of_flooredSum {value : Expr} {lo hi : String} (h : isFlooredSum value lo hi = true)
    (hown : ownOperator value = false) : ∃ a, toArith value = some a ∧ Midpoint lo hi a := by
  unfold isFlooredSum at h
  split at h
  · next dividend heq =>
    obtain ⟨hd, harith⟩ := arith_of_asDivBy2 heq hown
    rcases Bool.or_eq_true_iff.mp h with hpair | hpair
    · exact ⟨_, harith _ (arith_of_isPair rfl rfl hpair hd), .sum⟩
    · exact ⟨_, harith _ (arith_of_isPair rfl rfl hpair hd), .sumSwapped⟩
  · cases h

theorem arith_of_isOffset {x y : Expr} {lo hi : String} (h : isOffset x y lo hi = true)
    (hown : ownOperator y = false) :
    toArith x = some (.var lo) ∧ ∃ how, toArith y = some (halfOf how (.op .sub (.var hi) (.var lo))) := by
  unfold isOffset at h
  obtain ⟨hx, hy⟩ := Bool.and_eq_true_iff.mp h
  refine ⟨arith_of_simpleIdent (of_decide_eq_true hx), ?_⟩
  split at hy
  · next dividend how heq =>
    obtain ⟨hd, harith⟩ := arith_of_asDivBy2 heq hown
    exact ⟨how, harith _ (arith_of_isPair rfl rfl hy hd)⟩
  · cases hy

theorem midpoint_of_offsetHalf {value : Expr} {lo hi : String} (h : isOffsetHalf value lo hi = true)
    (hown : ownOperator value = false) : ∃ a, toArith value = some a ∧ Midpoint lo hi a := by
  unfold isOffsetHalf at h
  split at h
  · next a b heq =>
    obtain ⟨ha, hb, harith⟩ := arith_of_asBinop rfl rfl heq hown
    rcases Bool.or_eq_true_iff.mp h with hoff | hoff
    · obtain ⟨hlo, how, hhalf⟩ := arith_of_isOffset hoff hb
      exact ⟨_, harith _ _ hlo hhalf, .offset how⟩
    · obtain ⟨hlo, how, hhalf⟩ := arith_of_isOffset hoff ha
      exact ⟨_, harith _ _ hhalf hlo, .offsetSwapped how⟩
  · cases h

theorem midpoint_of_exprIsMidpoint {value : Expr} {lo hi : String} (h : exprIsMidpoint value lo hi = true)
    (hown : ownOperator value = false) : ∃ a, toArith value = some a ∧ Midpoint lo hi a := by
  rcases Bool.or_eq_true_iff.mp h with hsum | hoff
  · exact midpoint_of_flooredSum hsum hown
  · exact midpoint_of_offsetHalf hoff hown

theorem val_of_half {σ : Slots} {how : Halving} {a : Arith} {v : IntVal} (h : (halfOf how a).Evals σ v) :
    ∃ d, a.Evals σ d ∧ v.ty = d.ty ∧ (0 ≤ d.val ∨ how = .floor → v.val = d.val / 2) := by
  cases h with
  | @op _ _ _ d two _ hd htwo hrun =>
    have hlit := eval_lit htwo
    refine ⟨d, hd, ?_⟩
    cases how with
    | trunc =>
      simp only [Halving.op, ArithOp.run, Halving.divisor] at hrun hlit
      split_ifs at hrun
      obtain ⟨hty, hval⟩ := val_of_checkedInt hrun
      refine ⟨hty, ?_⟩
      intro hcase
      have hnonneg : 0 ≤ d.val := by simpa using hcase
      rw [hval, hlit, Int.tdiv_eq_ediv_of_nonneg hnonneg]
    | floor =>
      simp only [Halving.op, ArithOp.run, Halving.divisor] at hrun hlit
      split_ifs at hrun
      obtain ⟨hty, hval⟩ := val_of_checkedInt hrun
      refine ⟨hty, ?_⟩
      intro _
      rw [hval, hlit]
      rfl

/-- Both orders of the ends: of the values, and of the bits read as signed numbers. -/
def Ordered (l h : IntVal) : Prop := l.val < h.val ∧ l.asSigned < h.asSigned

theorem between_iff_of_sum {l m h : IntVal} (hh : h.ty = l.ty) (hm : m.ty = l.ty)
    (hrange : l.ty.InRange (l.val + h.val)) (hmid : m.val = (l.val + h.val) / 2) :
    (l.asSigned ≤ m.asSigned ∧ m.asSigned < h.asSigned) ↔ Ordered l h := by
  have hpos := l.ty.half_pos
  have hl := l.inRange
  have hhr := h.inRange
  rw [hh] at hhr
  unfold Ordered IntVal.asSigned
  rw [hh, hm]
  unfold IntTy.InRange at hrange hl hhr
  cases hs : l.ty.signed <;> simp only [hs, Bool.false_eq_true, if_false, if_true] at hrange hl hhr <;> split_ifs <;>
    omega

theorem between_iff_of_offset {l m h : IntVal} (hh : h.ty = l.ty) (hm : m.ty = l.ty)
    (hrange : l.ty.InRange (h.val - l.val)) (hmid : 0 ≤ h.val - l.val → m.val = l.val + (h.val - l.val) / 2) :
    (l.asSigned ≤ m.asSigned ∧ m.asSigned < h.asSigned) ↔ Ordered l h := by
  have hpos := l.ty.half_pos
  have hl := l.inRange
  have hhr := h.inRange
  rw [hh] at hhr
  unfold Ordered IntVal.asSigned
  rw [hh, hm]
  unfold IntTy.InRange at hrange hl hhr
  cases hs : l.ty.signed <;> simp only [hs, Bool.false_eq_true, if_false, if_true] at hrange hl hhr <;> split_ifs <;>
    omega

theorem evals_add {σ : Slots} {x y : Arith} {v : IntVal} (h : (Arith.op .add x y).Evals σ v) :
    ∃ a b, x.Evals σ a ∧ y.Evals σ b ∧ b.ty = a.ty ∧ v.ty = a.ty ∧ v.val = a.val + b.val ∧
      a.ty.InRange (a.val + b.val) := by
  cases h with
  | @op _ _ _ a b _ ha hb hrun =>
    obtain ⟨hty, hval⟩ := val_of_add hrun
    have hrange := v.inRange
    rw [hty, hval] at hrange
    exact ⟨a, b, ha, hb, ty_of_add hrun, hty, hval, hrange⟩

theorem evals_sub {σ : Slots} {x y : String} {v a b : IntVal} (h : (Arith.op .sub (.var x) (.var y)).Evals σ v)
    (hx : σ x = some a) (hy : σ y = some b) :
    b.ty = a.ty ∧ v.ty = a.ty ∧ v.val = a.val - b.val ∧ a.ty.InRange (a.val - b.val) := by
  cases h with
  | op ha hb hrun =>
    have hxa := eval_var ha
    have hyb := eval_var hb
    rw [hx] at hxa
    rw [hy] at hyb
    cases hxa
    cases hyb
    obtain ⟨hty, hb, hval⟩ := val_of_sub hrun
    have hrange := v.inRange
    rw [hty, hval] at hrange
    exact ⟨hb, hty, hval, hrange⟩

theorem between_iff_of_midpoint {σ : Slots} {lo hi : String} {a : Arith} {l h m : IntVal} (ha : Midpoint lo hi a)
    (hl : σ lo = some l) (hh : σ hi = some h) (hm : a.Evals σ m) :
    (l.asSigned ≤ m.asSigned ∧ m.asSigned < h.asSigned) ↔ Ordered l h := by
  cases ha with
  | sum =>
    obtain ⟨d, hd, hmty, hmval⟩ := val_of_half hm
    obtain ⟨x, y, hx, hy, hty, hdty, hdval, hrange⟩ := evals_add hd
    obtain rfl := eval_var_eq hl hx
    obtain rfl := eval_var_eq hh hy
    apply between_iff_of_sum hty (hmty.trans hdty) hrange
    rw [hmval (Or.inr rfl), hdval]
  | sumSwapped =>
    obtain ⟨d, hd, hmty, hmval⟩ := val_of_half hm
    obtain ⟨y, x, hy, hx, hty, hdty, hdval, hrange⟩ := evals_add hd
    obtain rfl := eval_var_eq hl hx
    obtain rfl := eval_var_eq hh hy
    rw [← hty, add_comm] at hrange
    apply between_iff_of_sum hty.symm ((hmty.trans hdty).trans hty.symm) hrange
    rw [hmval (Or.inr rfl), hdval, add_comm]
  | offset how =>
    obtain ⟨x, y, hx, hy, hty, hmty, hmval, _⟩ := evals_add hm
    obtain rfl := eval_var_eq hl hx
    obtain ⟨d, hd, hyty, hyval⟩ := val_of_half hy
    obtain ⟨hxh, hdty, hdval, hrange⟩ := evals_sub hd hh hl
    rw [← hxh] at hrange
    apply between_iff_of_offset hxh.symm hmty hrange
    intro hnonneg
    rw [hmval, hyval (Or.inl (hdval ▸ hnonneg)), hdval]
  | offsetSwapped how =>
    obtain ⟨y, x, hy, hx, hty, hmty, hmval, _⟩ := evals_add hm
    obtain rfl := eval_var_eq hl hx
    obtain ⟨d, hd, hyty, hyval⟩ := val_of_half hy
    obtain ⟨hxh, hdty, hdval, hrange⟩ := evals_sub hd hh hl
    rw [← hxh] at hrange
    apply between_iff_of_offset hxh.symm (hmty.trans hty.symm) hrange
    intro hnonneg
    rw [hmval, hyval (Or.inl (hdval ▸ hnonneg)), hdval, add_comm]

/-- A `let` of a name whose slot gets the value, and for which the assumptions are emitted. -/
structure LetStep (guards : List (String × String)) (pattern : Pattern) (value : Expr) (mid lo hi : String)
    (σ σ' : Slots) : Prop where
  evaluates : ∃ v, Evaluates σ value v ∧ σ' = Function.update σ mid (some v)
  emitted : tryEmitBinsearchMidpointAssumes guards (fun x => (σ' x).map fun v => v.ty.bits) pattern value =
    some (mid, lo, hi)

/-- The emitted comparisons right after the `let`. -/
def MidpointAssumes (mid lo hi : String) (σ : Slots) : Prop :=
  ∀ m l h, σ mid = some m → σ lo = some l → σ hi = some h → l.asSigned ≤ m.asSigned ∧ m.asSigned < h.asSigned

/-- The guard still holds, in the order of the type and in the signed order. -/
def MidpointCond (lo hi : String) (σ : Slots) : Prop := ∀ l h, σ lo = some l → σ hi = some h → Ordered l h

theorem emitted_eq {guards : List (String × String)} {width : String → Option ℕ} {pattern : Pattern} {value : Expr}
    {mid lo hi : String} (h : tryEmitBinsearchMidpointAssumes guards width pattern value = some (mid, lo, hi)) :
    mid ≠ lo ∧ mid ≠ hi ∧ exprIsMidpoint value lo hi = true ∧ ∃ l h, width lo = some l ∧ width hi = some h := by
  unfold tryEmitBinsearchMidpointAssumes at h
  split at h
  · split_ifs at h with hshadow hmid
    split at h
    · next hl hh =>
      split_ifs at h
      cases h
      rw [not_or] at hshadow
      exact ⟨hshadow.1, hshadow.2, by simpa using hmid, _, _, hl, hh⟩
    · cases h
  · cases h

theorem midpoint_assumes_iff {guards : List (String × String)} {pattern : Pattern} {value : Expr}
    {mid lo hi : String} {σ σ' : Slots} (hstep : LetStep guards pattern value mid lo hi σ σ')
    (hown : ownOperator value = false) : MidpointAssumes mid lo hi σ' ↔ MidpointCond lo hi σ := by
  obtain ⟨v, hval, rfl⟩ := hstep.evaluates
  obtain ⟨hlo, hhi, hmid, wl, wh, hwl, hwh⟩ := emitted_eq hstep.emitted
  obtain ⟨a, harith, ha⟩ := midpoint_of_exprIsMidpoint hmid hown
  obtain ⟨l, hl, -⟩ := Option.map_eq_some_iff.mp hwl
  obtain ⟨h, hh, -⟩ := Option.map_eq_some_iff.mp hwh
  have hl' := hl
  have hh' := hh
  rw [Function.update_of_ne hlo.symm] at hl'
  rw [Function.update_of_ne hhi.symm] at hh'
  have hiff := between_iff_of_midpoint ha hl' hh' (hval a harith)
  constructor
  · intro hassume l₁ h₁ hl₁ hh₁
    rw [hl'] at hl₁
    rw [hh'] at hh₁
    cases hl₁
    cases hh₁
    exact hiff.mp (hassume v l h (Function.update_self ..) hl hh)
  · intro hcond m₁ l₁ h₁ hm₁ hl₁ hh₁
    rw [Function.update_self] at hm₁
    rw [hl] at hl₁
    rw [hh] at hh₁
    cases hm₁
    cases hl₁
    cases hh₁
    exact hiff.mpr (hcond l h hl' hh')

end Karac.Codegen
