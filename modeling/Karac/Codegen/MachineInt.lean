import Karac.Ast.Nodes

/-! Machine integers that trap on overflow, and the values of the expressions that the loop scans recognize. -/

namespace Karac.Codegen

open Ast

structure IntTy where
  signed : Bool
  bits : ℕ
  pos : 0 < bits
  deriving DecidableEq

/-- One more than the largest signed value. -/
def IntTy.half (ty : IntTy) : ℤ := 2 ^ (ty.bits - 1)

def IntTy.InRange (ty : IntTy) (v : ℤ) : Prop :=
  if ty.signed then -ty.half ≤ v ∧ v < ty.half else 0 ≤ v ∧ v < 2 * ty.half

instance (ty : IntTy) (v : ℤ) : Decidable (ty.InRange v) := by
  unfold IntTy.InRange
  infer_instance

structure IntVal where
  ty : IntTy
  val : ℤ
  inRange : ty.InRange val

/-- The bits of the value read as a signed number. -/
def IntVal.asSigned (v : IntVal) : ℤ := if v.val < v.ty.half then v.val else v.val - 2 * v.ty.half

/-- A result that does not fit traps. -/
def checkedInt (ty : IntTy) (v : ℤ) : Option IntVal := if h : ty.InRange v then some ⟨ty, v, h⟩ else none

/-- The operators of the recognized forms. Division truncates, and the right shift floors. -/
inductive ArithOp
  | add | sub | div | shr

def ArithOp.run (op : ArithOp) (a b : IntVal) : Option IntVal :=
  match op with
  | .add => if a.ty = b.ty then checkedInt a.ty (a.val + b.val) else none
  | .sub => if a.ty = b.ty then checkedInt a.ty (a.val - b.val) else none
  | .div => if a.ty = b.ty ∧ b.val ≠ 0 then checkedInt a.ty (a.val.tdiv b.val) else none
  | .shr => if 0 ≤ b.val ∧ b.val < a.ty.bits then checkedInt a.ty (a.val / 2 ^ b.val.toNat) else none

/-! Values of expressions. An expression that is not arithmetic on locals and literals may have any value. -/

inductive Arith
  | var (name : String)
  | lit (value : ℤ)
  | op (op : ArithOp) (left right : Arith)

/-- The integer slots in scope at the loop. -/
abbrev Slots := String → Option IntVal

inductive Arith.Evals (σ : Slots) : Arith → IntVal → Prop
  | var {name : String} {v : IntVal} (h : σ name = some v) : Evals σ (.var name) v
  | lit {c : ℤ} {v : IntVal} (h : v.val = c) : Evals σ (.lit c) v
  | op {op : ArithOp} {l r : Arith} {a b v : IntVal} (hl : Evals σ l a) (hr : Evals σ r b) (h : op.run a b = some v) :
    Evals σ (.op op l r) v

def preludePrimitives : List String :=
  ["i8", "i16", "i32", "i64", "i128", "isize", "u8", "u16", "u32", "u64", "u128", "usize", "f16",
    "bf16", "f32", "f64", "bool", "char", "String"]

def binArith : BinOp → Option ArithOp
  | .add => some .add
  | .sub => some .sub
  | .div => some .div
  | .shr => some .shr
  | _ => none

def methodArith (method : String) : Option ArithOp :=
  if method = "add" then some .add
  else if method = "sub" then some .sub
  else if method = "div" then some .div
  else if method = "shr" then some .shr
  else none

/-- A call `T.add(a, b)` is the operator when `T` is a primitive type, and a function of the program otherwise. -/
def toArith : Expr → Option Arith
  | .identifier name => some (.var name)
  | .integer c => some (.lit c)
  | .binary op l r =>
    match binArith op, toArith l, toArith r with
    | some op, some a, some b => some (.op op a b)
    | _, _, _ => none
  | .call (.path [typeName, method]) [.mk _ _ l, .mk _ _ r] =>
    match methodArith method, toArith l, toArith r with
    | some op, some a, some b => if typeName ∈ preludePrimitives then some (.op op a b) else none
    | _, _, _ => none
  | _ => none

def Evaluates (σ : Slots) (e : Expr) (v : IntVal) : Prop := ∀ a, toArith e = some a → a.Evals σ v

/-- The expression calls an operator of a type of the program. -/
def ownOperator : Expr → Bool
  | .binary _ l r => ownOperator l || ownOperator r
  | .call (.path [typeName, _]) [.mk _ _ l, .mk _ _ r] =>
    decide (typeName ∉ preludePrimitives) || ownOperator l || ownOperator r
  | _ => false

theorem IntTy.half_pos (ty : IntTy) : 0 < ty.half := pow_pos (by norm_num) _

theorem val_of_checkedInt {ty : IntTy} {k : ℤ} {v : IntVal} (h : checkedInt ty k = some v) :
    v.ty = ty ∧ v.val = k := by
  unfold checkedInt at h
  split_ifs at h
  cases h
  exact ⟨rfl, rfl⟩

theorem val_of_add {a b v : IntVal} (h : ArithOp.add.run a b = some v) : v.ty = a.ty ∧ v.val = a.val + b.val := by
  simp only [ArithOp.run] at h
  split_ifs at h
  exact val_of_checkedInt h

theorem ty_of_add {a b v : IntVal} (h : ArithOp.add.run a b = some v) : b.ty = a.ty := by
  simp only [ArithOp.run] at h
  split_ifs at h with hty
  exact hty.symm

theorem val_of_sub {a b v : IntVal} (h : ArithOp.sub.run a b = some v) :
    v.ty = a.ty ∧ b.ty = a.ty ∧ v.val = a.val - b.val := by
  simp only [ArithOp.run] at h
  split_ifs at h with hty
  exact ⟨(val_of_checkedInt h).1, hty.symm, (val_of_checkedInt h).2⟩

theorem eval_var {σ : Slots} {x : String} {v : IntVal} (h : (Arith.var x).Evals σ v) : σ x = some v := by
  cases h with
  | var h => exact h

theorem eval_lit {σ : Slots} {c : ℤ} {v : IntVal} (h : (Arith.lit c).Evals σ v) : v.val = c := by
  cases h with
  | lit h => exact h

theorem eval_var_eq {σ : Slots} {x : String} {v w : IntVal} (hx : σ x = some v) (h : (Arith.var x).Evals σ w) :
    w = v := by
  have hw := eval_var h
  rw [hx] at hw
  exact (Option.some.inj hw).symm

theorem primitive_of_ownOperator {typeName method : String} {l r : Option String} {lm rm : Bool} {le re : Expr}
    (h : ownOperator (.call (.path [typeName, method]) [.mk l lm le, .mk r rm re]) = false) :
    typeName ∈ preludePrimitives ∧ ownOperator le = false ∧ ownOperator re = false := by
  simpa [ownOperator, and_assoc] using h

theorem toArith_call {typeName method : String} {l r : Option String} {lm rm : Bool} {le re : Expr} {op : ArithOp}
    {a b : Arith} (ht : typeName ∈ preludePrimitives) (hm : methodArith method = some op) (hl : toArith le = some a)
    (hr : toArith re = some b) :
    toArith (.call (.path [typeName, method]) [.mk l lm le, .mk r rm re]) = some (.op op a b) := by
  simp only [toArith, hm, hl, hr, ht, if_true]

theorem evaluates_of_evals {σ : Slots} {e : Expr} {a : Arith} {v : IntVal} (ha : toArith e = some a)
    (h : a.Evals σ v) : Evaluates σ e v := by
  intro b hb
  rw [ha] at hb
  cases hb
  exact h

end Karac.Codegen
