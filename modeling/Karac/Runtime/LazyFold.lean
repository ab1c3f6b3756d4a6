import Karac.Runtime.LazyExpr

/-! Constant folding of expressions, with duplicates of a chain taken out. Folding folds the links of a chain again,
so the recursion is on a fuel that its size covers. -/

namespace Karac.Runtime.Lazy

variable {F : Type} [F64 F]

namespace ExprNode

/-- The derived equality: floats are compared as floats. -/
def beq : ExprNode F → ExprNode F → Bool
  | col n, col m => n == m
  | litInt x, litInt y => x == y
  | litFloat x, litFloat y => F64.beq x y
  | litStr s, litStr t => s == t
  | litBool a, litBool b => a == b
  | cmp op l r, cmp op' l' r' => decide (op = op') && l.beq l' && r.beq r'
  | and a b, and a' b' => a.beq a' && b.beq b'
  | or a b, or a' b' => a.beq a' && b.beq b'
  | not x, not y => x.beq y
  | arith op l r, arith op' l' r' => decide (op = op') && l.beq l' && r.beq r'
  | desc x, desc y => x.beq y
  | agg op x, agg op' y => decide (op = op') && x.beq y
  | aliased n x, aliased m y => n == m && x.beq y
  | _, _ => false

omit [F64 F] in
def size : ExprNode F → ℕ
  | cmp _ l r => l.size + r.size + 1
  | and a b => a.size + b.size + 1
  | or a b => a.size + b.size + 1
  | not x => x.size + 1
  | arith _ l r => l.size + r.size + 1
  | desc x => x.size + 1
  | agg _ x => x.size + 1
  | aliased _ x => x.size + 1
  | _ => 1

end ExprNode

/-- How two literals compare, where they are comparable. -/
def literalOrder (op : CmpOp) : ExprNode F → ExprNode F → Option (Option Ordering)
  | .litInt x, .litInt y => some (some (compare x y))
  | .litFloat x, .litFloat y => some (F64.partialCmp x y)
  | .litInt x, .litFloat y => some (F64.partialCmp (F64.ofInt x) y)
  | .litFloat x, .litInt y => some (F64.partialCmp x (F64.ofInt y))
  | .litStr x, .litStr y => some (some (compare x y))
  | .litBool x, .litBool y => if op.isEquality then some (some (compare x y)) else none
  | _, _ => none

def foldCmp (op : CmpOp) (l r : ExprNode F) : ExprNode F :=
  match literalOrder op l r with
  | some ord => .litBool (comparisonHolds op ord)
  | none => .cmp op l r

/-- A division by zero or an overflow is left to the evaluation. -/
def literalArith (op : ArithOp) : ExprNode F → ExprNode F → Option (ExprNode F)
  | .litInt x, .litInt y => if op = .div ∧ y = 0 then none else (checkedArith op x y).map .litInt
  | .litInt x, .litFloat y => some (.litFloat (floatArith op (F64.ofInt x) y))
  | .litFloat x, .litInt y => some (.litFloat (floatArith op x (F64.ofInt y)))
  | .litFloat x, .litFloat y => some (.litFloat (floatArith op x y))
  | _, _ => none

def foldArith (op : ArithOp) (l r : ExprNode F) : ExprNode F := (literalArith op l r).getD (.arith op l r)

omit [F64 F] in
def foldNot (inner : ExprNode F) : ExprNode F :=
  match inner with
  | .litBool b => .litBool !b
  | .not y => y
  | _ => .not inner

omit [F64 F] in
def connect (isAnd : Bool) (a b : ExprNode F) : ExprNode F := if isAnd then .and a b else .or a b

/-- The leaves of a chain without its neutral element and without duplicates; none if one of them decides it. -/
def keptLeaves (isAnd : Bool) : List (ExprNode F) → List (ExprNode F) → Option (List (ExprNode F))
  | [], out => some out
  | leaf :: leaves, out =>
    match leaf with
    | .litBool b => if b = isAnd then keptLeaves isAnd leaves out else none
    | _ => keptLeaves isAnd leaves (if out.any fun x => x.beq leaf then out else out ++ [leaf])

omit [F64 F] in
def chainOf (isAnd : Bool) : List (ExprNode F) → ExprNode F
  | [] => .litBool isAnd
  | first :: rest => rest.foldl (connect isAnd) first

def rebuildChain (isAnd : Bool) (leaves : List (ExprNode F)) : ExprNode F :=
  match keptLeaves isAnd leaves [] with
  | some out => chainOf isAnd out
  | none => .litBool !isAnd

mutual

def foldFuel : ℕ → ExprNode F → ExprNode F
  | n + 1, .cmp op lhs rhs => foldCmp op (foldFuel n lhs) (foldFuel n rhs)
  | n + 1, .and a b => rebuildChain true (flattenFuel n true (.and a b))
  | n + 1, .or a b => rebuildChain false (flattenFuel n false (.or a b))
  | n + 1, .arith op lhs rhs => foldArith op (foldFuel n lhs) (foldFuel n rhs)
  | n + 1, .not x => foldNot (foldFuel n x)
  | n + 1, .desc x => .desc (foldFuel n x)
  | n + 1, .agg op arg => .agg op (foldFuel n arg)
  | n + 1, .aliased name expr => .aliased name (foldFuel n expr)
  | _, e => e

def flattenFuel : ℕ → Bool → ExprNode F → List (ExprNode F)
  | n + 1, true, .and a b => flattenFuel n true (foldFuel n a) ++ flattenFuel n true (foldFuel n b)
  | n + 1, false, .or a b => flattenFuel n false (foldFuel n a) ++ flattenFuel n false (foldFuel n b)
  | _, _, e => [e]

end

def foldExpr (e : ExprNode F) : ExprNode F := foldFuel (2 * e.size + 1) e

def flattenBoolChain (isAnd : Bool) (e : ExprNode F) : List (ExprNode F) := flattenFuel (2 * e.size) isAnd e

end Karac.Runtime.Lazy
