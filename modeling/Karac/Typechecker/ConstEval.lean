import Karac.Ast
import Karac.Typechecker.Compatible

/-! `eval_const_expr`: the compile-time value of an expression at a target type. -/

namespace Karac.Typechecker

open Ast (BinOp UnaryOp)

/-- The integer types. A literal's suffix names one of them. -/
inductive IntKind
  | int (size : IntSize)
  | uint (size : UIntSize)
  deriving DecidableEq

def IntKind.signed : IntKind → Bool
  | .int _ => true
  | .uint _ => false

def IntKind.bits : IntKind → ℕ
  | .int .i8 => 8
  | .int .i16 => 16
  | .int .i32 => 32
  | .int .i64 => 64
  | .int .i128 => 128
  | .int .isize => 64
  | .uint .u8 => 8
  | .uint .u16 => 16
  | .uint .u32 => 32
  | .uint .u64 => 64
  | .uint .u128 => 128
  | .uint .usize => 64

def IntKind.toTy : IntKind → Ty
  | .int s => .int s
  | .uint s => .uint s

def Ty.intKind? : Ty → Option IntKind
  | .int s => some (.int s)
  | .uint s => some (.uint s)
  | _ => none

def IntKind.min (t : IntKind) : ℤ := if t.signed then -2 ^ (t.bits - 1) else 0

def IntKind.max (t : IntKind) : ℤ := if t.signed then 2 ^ (t.bits - 1) - 1 else 2 ^ t.bits - 1

def IntKind.checked (t : IntKind) (v : ℤ) : Option ℤ := if t.min ≤ v ∧ v ≤ t.max then some v else none

/-- The low bits of a number, read at the type. -/
def IntKind.wrap (t : IntKind) (v : ℤ) : ℤ := if t.signed then v.bmod (2 ^ t.bits) else v % 2 ^ t.bits

/-- The `checked_*` operators of the type. A shift drops the bits it moves out and fails on an amount that is not
below the width. -/
def IntKind.checkedOp (t : IntKind) (op : BinOp) (a b : ℤ) : Option ℤ :=
  match op with
  | .add => t.checked (a + b)
  | .sub => t.checked (a - b)
  | .mul => t.checked (a * b)
  | .div => if b = 0 then none else t.checked (a.tdiv b)
  | .mod => if b = 0 then none else (t.checked (a.tdiv b)).map fun _ => a.tmod b
  | .shl => if 0 ≤ b ∧ b < t.bits then some (t.wrap (a * 2 ^ b.toNat)) else none
  | .shr => if 0 ≤ b ∧ b < t.bits then some (a / 2 ^ b.toNat) else none
  | .bitAnd => some (a.land b)
  | .bitOr => some (a.lor b)
  | .bitXor => some (a.xor b)
  | _ => none

inductive ConstValue
  | int (kind : IntKind) (value : ℤ)
  | f32 (value : Float32)
  | f64 (value : Float)
  | bool (value : Bool)
  | char (value : Char)
  | enumVariant (enumName variantName : String) (discriminant : ℕ)

/-- The expressions the evaluator tells apart. The run looks up the types of operators and of float literals by
their span. -/
inductive ConstExpr
  | integer (n : ℤ) (sfx : Option IntKind)
  | float (span : ℕ) (f : Float) (sfx : Option FloatSize)
  | bool (b : Bool)
  | charLit (c : Char)
  | byteLit (b : UInt8)
  | byteStringLit (bytes : List UInt8)
  | identifier (name : String)
  | path (segments : List String)
  | selfValue
  | unary (span : ℕ) (op : UnaryOp) (operand : ConstExpr)
  | binary (span : ℕ) (op : BinOp) (left right : ConstExpr)
  | fieldAccess (object : ConstExpr) (field : String)
  | methodCall (object : ConstExpr) (method : String) (args : List ConstExpr)
  | call (callee : ConstExpr) (args : List ConstExpr)
  | other (id : ℕ)

inductive ConstEvalError
  | nonConstShape
  | overflow (op : BinOp) (lhs rhs : ConstValue)
  | unaryOverflow (op : UnaryOp) (operand : ConstValue)
  | divByZero
  | outOfRange (value : ℤ) (targetTy : Ty)
  | undefinedConst (name : String)
  | arithOnNonInt (ty : Ty) (op : BinOp)
  | logicalOnNonBool (ty : Ty) (op : BinOp)
  | compareIncomparable (lhsTy rhsTy : Ty)
  | cyclicConstDef (chain : List String)

/-- What ends an evaluation without a value: an error, or the panic of a literal too wide for `i64`. -/
inductive Stop
  | error (e : ConstEvalError)
  | panic (literal : ℤ)

def fail {α : Type} (e : ConstEvalError) : Except Stop α := .error (.error e)

structure ConstDecl where
  name : String
  value : ConstExpr

/-- What the evaluator reads of the program: its constants in order, the variants of its enums, each with whether it
is a unit variant, and the predicates of its refinements. -/
structure ConstEnv where
  consts : List ConstDecl
  enums : String → Option (List (String × Bool))
  refinementPredicates : String → Option ConstExpr

def constValueType : ConstValue → Ty
  | .int t _ => t.toTy
  | .f32 _ => .float .f32
  | .f64 _ => .float .f64
  | .bool _ => .bool
  | .char _ => .char
  | .enumVariant name _ _ => .named name []

def narrowLiteralToI64 (n : ℤ) : Except Stop ℤ :=
  match (IntKind.int .i64).checked n with
  | some v => .ok v
  | none => .error (.panic n)

def integerToConstValue (n : ℤ) (target : Ty) : Except Stop ConstValue :=
  match target.intKind? with
  | some t =>
    match t.checked n with
    | some v => .ok (.int t v)
    | none => fail (.outOfRange n target)
  | none => .ok (.int (.int .i64) n)

/-- The type of an integer literal: its suffix, else the target when that is an integer type, else `i64`. -/
def literalKind (sfx : Option IntKind) (target : Ty) : IntKind := sfx.getD (target.intKind?.getD (.int .i64))

def floatToConstValue (f : Float) (sfx : Option FloatSize) (target : Ty) : Except Stop ConstValue :=
  match sfx with
  | some .f32 => .ok (.f32 f.toFloat32)
  | some .f64 => .ok (.f64 f)
  | some _ => fail .nonConstShape
  | none =>
    match target with
    | .float .f32 => .ok (.f32 f.toFloat32)
    | .float .f16 => fail .nonConstShape
    | .float .bf16 => fail .nonConstShape
    | _ => .ok (.f64 f)

def literalTargetTy : ConstExpr → Option Ty
  | .integer _ (some (.int .isize)) => none
  | .integer _ (some t) => some t.toTy
  | .bool _ => some .bool
  | .charLit _ => some .char
  | .byteLit _ => some (.uint .u8)
  | .byteStringLit _ => some (.uint .u8)
  | .float _ _ (some .f32) => some (.float .f32)
  | .float _ _ (some .f64) => some (.float .f64)
  | .unary _ .neg operand => literalTargetTy operand
  | _ => none

def inferOperandTargetTy (left right : ConstExpr) : Option Ty := literalTargetTy left <|> literalTargetTy right

/-- `isize` has no arm of its own in the operators. -/
def IntKind.folds (t : IntKind) : Bool := t ≠ .int .isize

def applyUnary (op : UnaryOp) (val : ConstValue) : Except Stop ConstValue :=
  match op with
  | .neg =>
    match val with
    | .int t v =>
      if t.signed ∧ t.folds then
        match t.checked (-v) with
        | some w => .ok (.int t w)
        | none => fail (.unaryOverflow .neg val)
      else fail (.unaryOverflow .neg val)
    | .f32 v => .ok (.f32 (-v))
    | .f64 v => .ok (.f64 (-v))
    | _ => fail (.unaryOverflow .neg val)
  | .not =>
    match val with
    | .bool b => .ok (.bool !b)
    | .int t v => if t.folds then .ok (.int t (t.wrap (-v - 1))) else fail (.logicalOnNonBool (constValueType val) .and)
    | _ => fail (.logicalOnNonBool (constValueType val) .and)
  | _ => fail .nonConstShape

def cmp (op : BinOp) (o : Ordering) : Bool :=
  match op with
  | .eq => o = .eq
  | .notEq => o ≠ .eq
  | .lt => o = .lt
  | .ltEq => o ≠ .gt
  | .gt => o = .gt
  | .gtEq => o ≠ .lt
  | _ => false

def isComparison : BinOp → Bool
  | .eq => true
  | .notEq => true
  | .lt => true
  | .ltEq => true
  | .gt => true
  | .gtEq => true
  | _ => false

def isLogical : BinOp → Bool
  | .and => true
  | .or => true
  | _ => false

def partialCmp32 (a b : Float32) : Option Ordering :=
  if a < b then some .lt else if b < a then some .gt else if a == b then some .eq else none

def partialCmp64 (a b : Float) : Option Ordering :=
  if a < b then some .lt else if b < a then some .gt else if a == b then some .eq else none

def compareConst (lhs rhs : ConstValue) : Option Ordering :=
  match lhs, rhs with
  | .int t a, .int t' b => if t = t' ∧ t.folds then some (compare a b) else none
  | .bool a, .bool b => some (compare a b)
  | .char a, .char b => some (compare a b)
  | .f32 a, .f32 b => partialCmp32 a b
  | .f64 a, .f64 b => partialCmp64 a b
  | .enumVariant e _ a, .enumVariant e' _ b => if e = e' then some (compare a b) else none
  | _, _ => none

def applyComparison (op : BinOp) (lhs rhs : ConstValue) : Except Stop ConstValue :=
  match compareConst lhs rhs with
  | some o => .ok (.bool (cmp op o))
  | none => fail (.compareIncomparable (constValueType lhs) (constValueType rhs))

def isArithmetic : BinOp → Bool
  | .add => true
  | .sub => true
  | .mul => true
  | .div => true
  | .mod => true
  | .shl => true
  | .shr => true
  | .bitAnd => true
  | .bitOr => true
  | .bitXor => true
  | _ => false

def applyArithmetic (op : BinOp) (lhs rhs : ConstValue) : Except Stop ConstValue :=
  match lhs, rhs with
  | .int t a, .int t' b =>
    if t = t' ∧ t.folds then
      if isArithmetic op = false then fail .nonConstShape
      else if (op = .div ∨ op = .mod) ∧ b = 0 then fail .divByZero
      else match t.checkedOp op a b with
        | some v => .ok (.int t v)
        | none => fail (.overflow op lhs rhs)
    else fail (.arithOnNonInt (constValueType lhs) op)
  | _, _ => fail (.arithOnNonInt (constValueType lhs) op)

def applyBinary (op : BinOp) (lhs rhs : ConstValue) : Except Stop ConstValue :=
  match op with
  | .and =>
    match lhs, rhs with
    | .bool a, .bool b => .ok (.bool (a && b))
    | _, _ => fail (.logicalOnNonBool (constValueType lhs) op)
  | .or =>
    match lhs, rhs with
    | .bool a, .bool b => .ok (.bool (a || b))
    | _, _ => fail (.logicalOnNonBool (constValueType lhs) op)
  | _ => if isComparison op then applyComparison op lhs rhs else applyArithmetic op lhs rhs

def operandTarget (op : BinOp) (left right : ConstExpr) (target : Ty) : Ty :=
  if isLogical op then .bool
  else if isComparison op then (inferOperandTargetTy left right).getD (.int .i64)
  else target

def ConstEnv.constDecl? (env : ConstEnv) (name : String) : Option ConstDecl :=
  env.consts.find? fun c => c.name = name

/-- The unit variant a path names, with its place among the variants. -/
def ConstEnv.variant (env : ConstEnv) (enumName variantName : String) : Except Stop ConstValue :=
  match env.enums enumName with
  | some variants =>
    match variants.findIdx? fun v => v.1 = variantName with
    | some discriminant =>
      if (variants.find? fun v => v.1 = variantName).any fun v => v.2 then
        .ok (.enumVariant enumName variantName discriminant)
      else fail .nonConstShape
    | none => fail (.undefinedConst (enumName ++ "." ++ variantName))
  | none => fail (.undefinedConst (enumName ++ "." ++ variantName))

/-- The names of constants that are not on the chain yet. -/
def ConstEnv.unvisited (env : ConstEnv) (chain : List String) : Finset String :=
  (env.consts.map ConstDecl.name).toFinset \ chain.toFinset

theorem ConstEnv.unvisited_lt {env : ConstEnv} {chain : List String} {name : String} {c : ConstDecl}
    (hn : name ∉ chain) (hc : env.constDecl? name = some c) :
    (env.unvisited (chain ++ [name])).card < (env.unvisited chain).card := by
  have hmem : c ∈ env.consts := List.mem_of_find?_eq_some hc
  have hname : c.name = name := by simpa using List.find?_some hc
  apply Finset.card_lt_card
  refine ⟨fun x hx => ?_, fun hsub => ?_⟩
  · simp only [ConstEnv.unvisited, List.toFinset_append, Finset.mem_sdiff, Finset.mem_union] at hx ⊢
    exact ⟨hx.1, fun hxc => hx.2 (Or.inl hxc)⟩
  · have hin : name ∈ env.unvisited chain := by
      simp only [ConstEnv.unvisited, Finset.mem_sdiff, List.mem_toFinset, List.mem_map]
      exact ⟨⟨c, hmem, hname⟩, hn⟩
    have hout := hsub hin
    simp [ConstEnv.unvisited] at hout

/-- A constant is evaluated anew at the target of each use. The chain holds the constants being evaluated. -/
def ConstEnv.evalConstExprWithChain (env : ConstEnv) (chain : List String) (target : Ty) :
    ConstExpr → Except Stop ConstValue
  | .integer n sfx => do
    let v ← narrowLiteralToI64 n
    integerToConstValue v (literalKind sfx target).toTy
  | .float _ f sfx => floatToConstValue f sfx target
  | .bool b => .ok (.bool b)
  | .charLit c => .ok (.char c)
  | .byteLit b => .ok (.int (.uint .u8) b.toNat)
  | .identifier name =>
    if _hn : name ∈ chain then fail (.cyclicConstDef (chain ++ [name]))
    else match _hc : env.constDecl? name with
      | some c => env.evalConstExprWithChain (chain ++ [name]) target c.value
      | none => fail (.undefinedConst name)
  | .path [enumName, variantName] => env.variant enumName variantName
  | .unary _ op operand => do
    let val ← env.evalConstExprWithChain chain target operand
    applyUnary op val
  | .binary _ op left right =>
    let operandTarget := operandTarget op left right target
    if isLogical op then do
      let lhs ← env.evalConstExprWithChain chain operandTarget left
      match lhs with
      | .bool a =>
        -- `and` stops at a false left side, `or` at a true one
        if a = decide (op = .or) then return .bool a
        let rhs ← env.evalConstExprWithChain chain operandTarget right
        applyBinary op lhs rhs
      | _ => fail (.logicalOnNonBool (constValueType lhs) op)
    else do
      let lhs ← env.evalConstExprWithChain chain operandTarget left
      let rhs ← env.evalConstExprWithChain chain operandTarget right
      applyBinary op lhs rhs
  | _ => fail .nonConstShape
termination_by e => ((env.unvisited chain).card, sizeOf e)
decreasing_by
  all_goals first
    | exact Prod.Lex.left _ _ (ConstEnv.unvisited_lt _hn _hc)
    | (apply Prod.Lex.right; simp +arith)

def ConstEnv.evalConstExpr (env : ConstEnv) (target : Ty) (e : ConstExpr) : Except Stop ConstValue :=
  env.evalConstExprWithChain [] target e

end Karac.Typechecker
