import Mathlib

/-! Expressions of a lazy plan and their evaluation on a row. -/

namespace Karac.Runtime.Lazy

/-- The operations of `f64` that the engine uses. Nothing is assumed of them. -/
class F64 (F : Type) where
  ofInt : Int64 → F
  zero : F
  nan : F
  infinity : F
  negInfinity : F
  add : F → F → F
  sub : F → F → F
  mul : F → F → F
  div : F → F → F
  min : F → F → F
  max : F → F → F
  sum : List F → F
  beq : F → F → Bool
  partialCmp : F → F → Option Ordering
  isNan : F → Bool

/-- The smaller or larger of two, the other one where one is a NaN. -/
def floatPick (le : Bool) (x y : Float) : Float := if x.isNaN then y else if y.isNaN then x else if le then x else y

def floatPartialCmp (x y : Float) : Option Ordering :=
  if x < y then some .lt else if x == y then some .eq else if y < x then some .gt else none

instance : F64 Float where
  ofInt v := .ofInt v.toInt
  zero := 0
  nan := 0 / 0
  infinity := 1 / 0
  negInfinity := -1 / 0
  add := (· + ·)
  sub := (· - ·)
  mul := (· * ·)
  div := (· / ·)
  min x y := floatPick (x ≤ y) x y
  max x y := floatPick (y ≤ x) x y
  sum := List.foldl (· + ·) (-0)
  beq := (· == ·)
  partialCmp := floatPartialCmp
  isNan := Float.isNaN

inductive CmpOp
  | gt | ge | lt | le | eq | ne
  deriving DecidableEq

inductive ArithOp
  | add | sub | mul | div
  deriving DecidableEq

inductive AggOp
  | count | sum | mean | min | max
  deriving DecidableEq

def AggOp.name : AggOp → String
  | .count => "count"
  | .sum => "sum"
  | .mean => "mean"
  | .min => "min"
  | .max => "max"

inductive ExprNode (F : Type)
  | col (name : String)
  | litInt (v : Int64)
  | litFloat (v : F)
  | litStr (s : String)
  | litBool (b : Bool)
  | cmp (op : CmpOp) (lhs rhs : ExprNode F)
  | and (a b : ExprNode F)
  | or (a b : ExprNode F)
  | not (x : ExprNode F)
  | arith (op : ArithOp) (lhs rhs : ExprNode F)
  /-- Only for the keys of a sort. -/
  | desc (x : ExprNode F)
  /-- Only for the entries of an aggregation. -/
  | agg (op : AggOp) (arg : ExprNode F)
  /-- Only for the entries of an aggregation and for computed columns. -/
  | aliased (name : String) (expr : ExprNode F)

inductive LazyError
  | noSuchColumn (step name : String)
  | unknownColumn (step name : String)
  | unknownLeftKey (name : String)
  | unknownRightKey (name : String)
  | keyNotColumn
  | notAggregate
  | argumentNotColumn
  | noOutputName
  | duplicateOutput (name : String)
  | misplacedDesc
  | misplacedAgg (op : AggOp)
  | misplacedAlias
  | divisionByZero
  | integerOverflow
  | arithmeticOnNonNumeric
  | orderedBool
  | differentTypes
  | predicateColumnNotBool
  | predicateNotBool
  | mixedAggregate
  | aggregateNeedsNumeric (op : AggOp)
  | keyTypes (name : String)
  deriving DecidableEq

def LazyError.message : LazyError → String
  | .noSuchColumn step name => step ++ ": no column named '" ++ name ++ "'"
  | .unknownColumn step name => step ++ ": no column named '" ++ name ++ "' at this plan step"
  | .unknownLeftKey name => "LazyFrame.join: no column named '" ++ name ++ "' on the LEFT side at this plan step"
  | .unknownRightKey name => "LazyFrame.join: no column named '" ++ name ++ "' on the RIGHT side"
  | .keyNotColumn => "LazyFrame.group_by: each key must be a bare col(..) in v1"
  | .notAggregate => "LazyGroupBy.agg: each entry must be an aggregate (col(..).count() / sum / mean / min / max), " ++
      "optionally aliased"
  | .argumentNotColumn => "LazyGroupBy.agg: the aggregate argument must be a bare col(..) in v1"
  | .noOutputName => "LazyFrame.with_columns: each entry needs an output name — a bare col(..) keeps its own, " ++
      "anything computed must be .alias_(..)ed"
  | .duplicateOutput name => "LazyFrame.with_columns: duplicate output name '" ++ name ++ "'"
  | .misplacedDesc => "LazyExpr.desc() is only meaningful as a LazyFrame.sort key"
  | .misplacedAgg op => "LazyExpr." ++ op.name ++ "() is only meaningful inside LazyGroupBy.agg(..)"
  | .misplacedAlias => "LazyExpr.alias() is only meaningful inside LazyGroupBy.agg(..)"
  | .divisionByZero => "LazyExpr: integer division by zero in expression"
  | .integerOverflow => "LazyExpr: integer overflow in expression"
  | .arithmeticOnNonNumeric => "LazyExpr: arithmetic on non-numeric values (String / bool)"
  | .orderedBool => "LazyFrame.filter: ordered comparison on bool values"
  | .differentTypes => "LazyFrame.filter: cannot compare values of different types (String vs number / bool vs non-bool)"
  | .predicateColumnNotBool => "LazyFrame.filter: predicate must be boolean (a bare column reference must name a " ++
      "bool column)"
  | .predicateNotBool => "LazyFrame.filter: predicate must be boolean"
  | .mixedAggregate => "LazyGroupBy.agg: mixed String and numeric values"
  | .aggregateNeedsNumeric op => "LazyGroupBy.agg: " ++ op.name ++ "() needs numeric values"
  | .keyTypes name => "LazyFrame.join: key '" ++ name ++ "' has incompatible types on the two sides"

inductive Scalar (F : Type)
  | i (v : Int64)
  | f (v : F)
  | s (v : String)
  | b (v : Bool)

inductive ColData (F : Type)
  | i64 (v : List Int64)
  | f64 (v : List F)
  | bool (v : List Bool)
  | str (v : List String)

namespace ColData

variable {F : Type}

def length : ColData F → ℕ
  | i64 v => v.length
  | f64 v => v.length
  | bool v => v.length
  | str v => v.length

def scalar? (row : ℕ) : ColData F → Option (Scalar F)
  | i64 v => v[row]?.map .i
  | f64 v => v[row]?.map .f
  | bool v => v[row]?.map .b
  | str v => v[row]?.map .s

end ColData

/-- A column, with a flag for each row: no value where it is `false`. -/
structure FrameCol (F : Type) where
  name : String
  data : ColData F
  valid : List Bool
  kind : ℤ
  elemSize : ℤ
  length_eq : data.length = valid.length

/-- The value of a row, none where the column has none. -/
def FrameCol.cell {F : Type} (c : FrameCol F) (row : ℕ) : Option (Scalar F) :=
  if c.valid[row]?.getD false then c.data.scalar? row else none

def checkedInt (v : ℤ) : Option Int64 :=
  if Int64.minValue.toInt ≤ v ∧ v ≤ Int64.maxValue.toInt then some (.ofInt v) else none

/-- `None` is an overflow; the divisor is not zero. -/
def checkedArith (op : ArithOp) (x y : Int64) : Option Int64 :=
  match op with
  | .add => checkedInt (x.toInt + y.toInt)
  | .sub => checkedInt (x.toInt - y.toInt)
  | .mul => checkedInt (x.toInt * y.toInt)
  | .div => checkedInt (x.toInt.tdiv y.toInt)

def CmpOp.holds : CmpOp → Ordering → Bool
  | .gt, o => o.isGT
  | .ge, o => o.isGE
  | .lt, o => o.isLT
  | .le, o => o.isLE
  | .eq, o => o.isEq
  | .ne, o => o.isNe

/-- Equality and inequality are the comparisons of booleans. -/
def CmpOp.isEquality : CmpOp → Bool
  | .eq => true
  | .ne => true
  | _ => false

section

variable {F : Type} [F64 F]

def floatArith (op : ArithOp) (x y : F) : F :=
  match op with
  | .add => F64.add x y
  | .sub => F64.sub x y
  | .mul => F64.mul x y
  | .div => F64.div x y

def arithScalars (op : ArithOp) : Scalar F → Scalar F → Except LazyError (Scalar F)
  | .i x, .i y =>
    if op = .div ∧ y = 0 then .error .divisionByZero
    else match checkedArith op x y with
      | some v => .ok (.i v)
      | none => .error .integerOverflow
  | .i x, .f y => .ok (.f (floatArith op (F64.ofInt x) y))
  | .f x, .i y => .ok (.f (floatArith op x (F64.ofInt y)))
  | .f x, .f y => .ok (.f (floatArith op x y))
  | _, _ => .error .arithmeticOnNonNumeric

/-- Without a value on either side there is none. -/
def arithCells (op : ArithOp) : Option (Scalar F) → Option (Scalar F) → Except LazyError (Option (Scalar F))
  | some a, some b => (arithScalars op a b).map some
  | _, _ => .ok none

/-- No order is a comparison with a NaN. -/
def compareScalars (op : CmpOp) : Scalar F → Scalar F → Except LazyError (Option Ordering)
  | .i x, .i y => .ok (some (compare x y))
  | .f x, .f y => .ok (F64.partialCmp x y)
  | .i x, .f y => .ok (F64.partialCmp (F64.ofInt x) y)
  | .f x, .i y => .ok (F64.partialCmp x (F64.ofInt y))
  | .s x, .s y => .ok (some (compare x y))
  | .b x, .b y => if op.isEquality then .ok (some (compare x y)) else .error .orderedBool
  | _, _ => .error .differentTypes

def comparisonHolds (op : CmpOp) (ord : Option Ordering) : Bool := ord.any op.holds

/-- A comparison without a value on either side is false. -/
def compareCells (op : CmpOp) : Option (Scalar F) → Option (Scalar F) → Except LazyError Bool
  | some a, some b => (compareScalars op a b).map (comparisonHolds op)
  | _, _ => .ok false

def predicateCell : Option (Scalar F) → Except LazyError Bool
  | some (.b v) => .ok v
  | some _ => .error .predicateColumnNotBool
  | none => .ok false

def readColumn (cols : List (FrameCol F)) (row : ℕ) (name : String) : Except LazyError (Option (Scalar F)) :=
  match cols.find? fun c => c.name = name with
  | some c => .ok (c.cell row)
  | none => .error (.noSuchColumn "LazyFrame.filter" name)

def boolCell (v : Bool) : Option (Scalar F) := some (.b v)

variable (cols : List (FrameCol F)) (row : ℕ)

mutual

def evalScalar : ExprNode F → Except LazyError (Option (Scalar F))
  | .col name => readColumn cols row name
  | .litInt v => .ok (some (.i v))
  | .litFloat v => .ok (some (.f v))
  | .litStr s => .ok (some (.s s))
  | .litBool b => .ok (boolCell b)
  | .desc _ => .error .misplacedDesc
  | .agg op _ => .error (.misplacedAgg op)
  | .aliased _ _ => .error .misplacedAlias
  | .arith op lhs rhs => do
    let a ← evalScalar lhs
    let b ← evalScalar rhs
    arithCells op a b
  -- a comparison or a connective has the value of its predicate
  | .cmp op lhs rhs => do
    let a ← evalScalar lhs
    let b ← evalScalar rhs
    return boolCell (← compareCells op a b)
  | .and a b => do
    let x ← evalPred a
    return boolCell (← if x then evalPred b else pure false)
  | .or a b => do
    let x ← evalPred a
    return boolCell (← if x then pure true else evalPred b)
  | .not x => do
    let v ← evalPred x
    return boolCell !v

def evalPred : ExprNode F → Except LazyError Bool
  | .cmp op lhs rhs => do
    let a ← evalScalar lhs
    let b ← evalScalar rhs
    compareCells op a b
  | .and a b => do
    let x ← evalPred a
    if x then evalPred b else pure false
  | .or a b => do
    let x ← evalPred a
    if x then pure true else evalPred b
  | .not x => do
    let v ← evalPred x
    return !v
  | .litBool b => .ok b
  | .col name => do
    let cell ← readColumn cols row name
    predicateCell cell
  | _ => .error .predicateNotBool

end

omit [F64 F] in
/-- A comparison, a connective or a boolean. -/
def ExprNode.IsTest : ExprNode F → Bool
  | .litBool _ => true
  | .cmp _ _ _ => true
  | .and _ _ => true
  | .or _ _ => true
  | .not _ => true
  | _ => false

theorem evalScalar_of_isTest {e : ExprNode F} (h : e.IsTest = true) :
    evalScalar cols row e = boolCell <$> evalPred cols row e := by
  cases e with
  | litBool b => rfl
  | cmp op l r => simp [evalScalar, evalPred]
  | and a b =>
    simp only [evalScalar, evalPred, map_bind, bind_pure_comp]
    congr
    funext x
    cases x <;> rfl
  | or a b =>
    simp only [evalScalar, evalPred, map_bind, bind_pure_comp]
    congr
    funext x
    cases x <;> rfl
  | not x => simp [evalScalar, evalPred]
  | _ => cases h

end

/-- `expr_cols`: the columns of an expression, each once. -/
def pushCol (n : String) (out : List String) : List String := if n ∈ out then out else out ++ [n]

def exprColsInto {F : Type} : ExprNode F → List String → List String
  | .col n, out => pushCol n out
  | .cmp _ lhs rhs, out => exprColsInto rhs (exprColsInto lhs out)
  | .arith _ lhs rhs, out => exprColsInto rhs (exprColsInto lhs out)
  | .and a b, out => exprColsInto b (exprColsInto a out)
  | .or a b, out => exprColsInto b (exprColsInto a out)
  | .not x, out => exprColsInto x out
  | .desc x, out => exprColsInto x out
  | .agg _ arg, out => exprColsInto arg out
  | .aliased _ expr, out => exprColsInto expr out
  | _, out => out

def exprCols {F : Type} (e : ExprNode F) : List String := exprColsInto e []

end Karac.Runtime.Lazy
