import Karac.Typechecker.ConstEval

/-! Narrowing into a refinement at compile time, and what the same expressions are worth when the program runs. -/

namespace Karac.Typechecker

open Ast (BinOp UnaryOp)

mutual

/-- `subst_self_with_expr`. The initializer that takes the place of `self` is not searched again. -/
def ConstExpr.substSelf : ConstExpr → ConstExpr → ConstExpr
  | .selfValue, replacement => replacement
  | .binary span op left right, replacement =>
    .binary span op (left.substSelf replacement) (right.substSelf replacement)
  | .unary span op operand, replacement => .unary span op (operand.substSelf replacement)
  | .fieldAccess object field, replacement => .fieldAccess (object.substSelf replacement) field
  | .methodCall object method args, replacement =>
    .methodCall (object.substSelf replacement) method (substSelfArgs args replacement)
  | .call callee args, replacement => .call (callee.substSelf replacement) (substSelfArgs args replacement)
  | e, _ => e

def substSelfArgs : List ConstExpr → ConstExpr → List ConstExpr
  | [], _ => []
  | a :: as, replacement => a.substSelf replacement :: substSelfArgs as replacement

end

def ConstEnv.evalRefinementPredicateConst (env : ConstEnv) (rname : String) (init : ConstExpr) :
    Except ℤ (Option Bool) :=
  match env.refinementPredicates rname with
  | some pred =>
    match env.evalConstExpr .bool (pred.substSelf init) with
    | .ok (.bool b) => .ok (some b)
    | .ok _ => .ok none
    | .error (.error _) => .ok none
    | .error (.panic n) => .error n
  | none => .ok none

/-- How `try_refinement_narrowing` ends. `notANarrowing` leaves the mismatch to its caller. -/
inductive Narrowing
  | notANarrowing
  | sameRefinement
  | crossRefinementRejection (name actualName : String) (base : Ty)
  | admitted
  | predicateViolation (name : String) (value : ConstValue)
  | implicitNarrowingRejection (name : String) (actual : Ty) (valueIsConst : Bool)
  | panic (literal : ℤ)

def ConstEnv.tryRefinementNarrowing (env : ConstEnv) (table : StdlibVariance) (init : ConstExpr)
    (expected actual : Ty) : Narrowing :=
  match expected with
  | .refinement name base =>
    match actual with
    | .refinement actualName _ =>
      if actualName = name then .sameRefinement
      else if typesCompatible table base actual.stripRefinement then .crossRefinementRejection name actualName base
      else .notANarrowing
    | _ =>
      if typesCompatible table base actual = false then .notANarrowing
      else match env.evalConstExpr base init with
        | .ok value =>
          match env.evalRefinementPredicateConst name init with
          | .ok (some true) => .admitted
          | .ok (some false) => .predicateViolation name value
          | .ok none => .implicitNarrowingRejection name actual true
          | .error n => .panic n
        | .error (.error _) => .implicitNarrowingRejection name actual false
        | .error (.panic n) => .panic n
  | _ => .notANarrowing

/-! The run. -/

inductive RunValue
  | int (value : ℤ)
  | f32 (value : Float32)
  | f64 (value : Float)
  | bool (value : Bool)
  | char (value : Char)
  | enumVariant (enumName : String) (discriminant : ℕ)
  | other (id : ℕ)

def ConstValue.toRun : ConstValue → RunValue
  | .int _ v => .int v
  | .f32 v => .f32 v
  | .f64 v => .f64 v
  | .bool b => .bool b
  | .char c => .char c
  | .enumVariant e _ d => .enumVariant e d

/-- Where an expression is evaluated. The body has the initializer, and its locals hide constants. A predicate sees the
constants and the refined value, and the value of a constant sees the constants. -/
inductive Scope
  | body
  | predicate (self : RunValue)
  | constant

/-- The number an integer literal stands for. Above the signed range, an unsigned literal is kept as the signed number
with its bits. -/
def literalValue (n : ℤ) (sfx : Option IntKind) : ℤ :=
  match sfx with
  | some (.uint .u128) => n % 2 ^ 128
  | some (.uint _) => n % 2 ^ 64
  | _ => n

/-- What a run supplies: its local and constant bindings, the types recorded at the spans of operators and of float
literals, and the values of the expressions that are not constant shapes. -/
structure RunState where
  locals : String → Option RunValue
  consts : String → Option RunValue
  intKindAt : ℕ → IntKind
  floatSizeAt : ℕ → FloatSize
  other : Scope → ConstExpr → Option RunValue

def RunState.lookup (st : RunState) (s : Scope) (name : String) : Option RunValue :=
  match s with
  | .body => st.locals name <|> st.consts name
  | _ => st.consts name

def compareRun (a b : RunValue) : Option (Option Ordering) :=
  match a, b with
  | .int a, .int b => some (some (compare a b))
  | .bool a, .bool b => some (some (compare a b))
  | .char a, .char b => some (some (compare a b))
  | .f32 a, .f32 b => some (partialCmp32 a b)
  | .f64 a, .f64 b => some (partialCmp64 a b)
  | .enumVariant e a, .enumVariant e' b => if e = e' then some (some (compare a b)) else none
  | _, _ => none

/-- Unordered floats are only different. -/
def cmpPartial (op : BinOp) (o : Option Ordering) : Bool :=
  match o with
  | some o => cmp op o
  | none => op = .notEq

def runUnary (t : IntKind) (op : UnaryOp) (v : RunValue) : Option RunValue :=
  match op, v with
  | .neg, .int a => (t.checked (-a)).map .int
  | .neg, .f32 a => some (.f32 (-a))
  | .neg, .f64 a => some (.f64 (-a))
  | .not, .bool b => some (.bool !b)
  | .bitNot, .int a => some (.int (t.wrap (-a - 1)))
  | _, _ => none

/-- The operators other than `and` and `or`. Integers are checked against the type of the operation. -/
def runBinary (t : IntKind) (op : BinOp) (a b : RunValue) : Option RunValue :=
  if isComparison op then (compareRun a b).map fun o => .bool (cmpPartial op o)
  else match a, b with
    | .int a, .int b => (t.checkedOp op a b).map .int
    | .f32 a, .f32 b =>
      match op with
      | .add => some (.f32 (a + b))
      | .sub => some (.f32 (a - b))
      | .mul => some (.f32 (a * b))
      | .div => some (.f32 (a / b))
      | _ => none
    | .f64 a, .f64 b =>
      match op with
      | .add => some (.f64 (a + b))
      | .sub => some (.f64 (a - b))
      | .mul => some (.f64 (a * b))
      | .div => some (.f64 (a / b))
      | _ => none
    | _, _ => none

def RunState.float (st : RunState) (span : ℕ) (f : Float) : Option RunValue :=
  match st.floatSizeAt span with
  | .f32 => some (.f32 f.toFloat32)
  | .f64 => some (.f64 f)
  | _ => none

/-- The value of an expression in a scope; none where the run traps. -/
def RunState.run (env : ConstEnv) (st : RunState) (s : Scope) : ConstExpr → Option RunValue
  | .integer n sfx => some (.int (literalValue n sfx))
  | .float span f _ => st.float span f
  | .bool b => some (.bool b)
  | .charLit c => some (.char c)
  | .byteLit b => some (.int b.toNat)
  | .identifier name => st.lookup s name
  | .path [enumName, variantName] =>
    match env.variant enumName variantName with
    | .ok v => some v.toRun
    | .error _ => st.other s (.path [enumName, variantName])
  | .selfValue =>
    match s with
    | .predicate v => some v
    | _ => st.other s .selfValue
  | .unary span op operand => do runUnary (st.intKindAt span) op (← st.run env s operand)
  | .binary span op left right => do
    let a ← st.run env s left
    if isLogical op then
      match a with
      | .bool a =>
        if a = decide (op = .or) then return .bool a
        match ← st.run env s right with
        | .bool b => return .bool b
        | _ => none
      | _ => none
    else
      let b ← st.run env s right
      runBinary (st.intKindAt span) op a b
  | e => st.other s e

/-- A run of the program: a constant holds the value its initializer has. -/
structure Run (env : ConstEnv) extends RunState where
  const_value : ∀ name c, env.constDecl? name = some c → consts name = toRunState.run env .constant c.value

/-- A value satisfies the refinement when its predicate runs to true with the value for `self`. -/
def Run.Satisfies {env : ConstEnv} (r : Run env) (name : String) (v : RunValue) : Prop :=
  ∃ pred, env.refinementPredicates name = some pred ∧ r.run env (.predicate v) pred = some (.bool true)

/-- What the compiler settles about the initializer, with no check left for the run, holds of the value it has there. -/
def Run.NarrowingSound {env : ConstEnv} (r : Run env) (table : StdlibVariance) (name : String) (base actual : Ty)
    (init : ConstExpr) : Prop :=
  ∀ v, r.run env .body init = some v →
    match env.tryRefinementNarrowing table init (.refinement name base) actual with
    | .admitted => r.Satisfies name v
    | .predicateViolation _ _ => ¬ r.Satisfies name v
    | _ => True

end Karac.Typechecker
