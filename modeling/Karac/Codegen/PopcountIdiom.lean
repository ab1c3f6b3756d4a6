import Karac.Codegen.MachineInt

/-! The bit-count loop `while x != 0 { x = x & (x - 1); c = c + 1; }`: the match, what the loop does on signed integers
that trap on overflow, and what is emitted in its place. -/

namespace Karac.Codegen

open Ast

structure KernighanPopcount where
  source : String
  counter : String
  deriving DecidableEq

def identifierName : Expr → Option String
  | .identifier n => some n
  | _ => none

def intLiteralIs (e : Expr) (want : ℤ) : Bool :=
  match e with
  | .integer v => decide (v = want)
  | _ => false

/-- The operands of an operator, or of the two-argument trait-method call that it is lowered to. -/
def binaryOperands (e : Expr) (op : BinOp) (method : String) : Option (Expr × Expr) :=
  match e with
  | .binary got left right => if got = op then some (left, right) else none
  | .call (.path [_, name]) [.mk _ _ a, .mk _ _ b] => if name = method then some (a, b) else none
  | _ => none

def pairVarAndInt (a b : Expr) (want : ℤ) : Option String :=
  if (identifierName a).isSome ∧ intLiteralIs b want then identifierName a
  else if (identifierName b).isSome ∧ intLiteralIs a want then identifierName b
  else none

def neZeroOperand (cond : Expr) : Option String :=
  (binaryOperands cond .notEq "ne").bind fun (a, b) => pairVarAndInt a b 0

def isSubOneOf (e : Expr) (var : String) : Bool :=
  match binaryOperands e .sub "sub" with
  | some (lhs, rhs) => decide (identifierName lhs = some var) && intLiteralIs rhs 1
  | none => false

def isClearLowestSetBit (stmt : Stmt) (var : String) : Bool :=
  match stmt with
  | .assign target value =>
    if identifierName target = some var then
      match binaryOperands value .bitAnd "bitand" with
      | some (lhs, rhs) =>
        if identifierName lhs = some var then isSubOneOf rhs var
        else if identifierName rhs = some var then isSubOneOf lhs var
        else false
      | none => false
    else false
  | _ => false

def incrementByOneTarget (stmt : Stmt) : Option String :=
  match stmt with
  | .assign target value =>
    match identifierName target, binaryOperands value .add "add" with
    | some name, some (lhs, rhs) =>
      if identifierName lhs = some name ∧ intLiteralIs rhs 1 then some name
      else if identifierName rhs = some name ∧ intLiteralIs lhs 1 then some name
      else none
    | _, _ => none
  | _ => none

mutual

/-- Expressions of other forms may hide a jump. -/
def exprHasJump : Expr → Bool
  | .binary _ left right => exprHasJump left || exprHasJump right
  | .unary _ operand => exprHasJump operand
  | .call callee args => exprHasJump callee || argsHaveJump args
  | .identifier _ => false
  | .integer _ => false
  | .path _ => false
  | _ => true

def argsHaveJump : List CallArg → Bool
  | [] => false
  | .mk _ _ value :: args => exprHasJump value || argsHaveJump args

end

def stmtHasJump : Stmt → Bool
  | .letStmt _ _ value => exprHasJump value
  | .assign _ value => exprHasJump value
  | .compoundAssign _ _ value => exprHasJump value
  | .expr value => exprHasJump value
  | _ => true

def matchKernighanPopcount (condition : Expr) (body : Block) : Option KernighanPopcount :=
  (neZeroOperand condition).bind fun source =>
    match body with
    | .mk [first, second] none =>
      if stmtHasJump first || stmtHasJump second then none
      else if isClearLowestSetBit first source then
        (incrementByOneTarget second).bind fun counter => if counter = source then none else some ⟨source, counter⟩
      else none
    | _ => none

/-! What the loop does. -/

/-- How a step of the program ends: with a value, in the trap for integer overflow, or not at all. -/
inductive Outcome (α : Type)
  | value (a : α)
  | overflow
  | stuck
  deriving DecidableEq

def Outcome.bind {α β : Type} (r : Outcome α) (f : α → Outcome β) : Outcome β :=
  match r with
  | .value a => f a
  | .overflow => .overflow
  | .stuck => .stuck

@[simp] theorem Outcome.value_bind {α β : Type} (a : α) (f : α → Outcome β) : (Outcome.value a).bind f = f a := rfl

@[simp] theorem Outcome.overflow_bind {α β : Type} (f : α → Outcome β) : Outcome.overflow.bind f = .overflow := rfl

@[simp] theorem Outcome.stuck_bind {α β : Type} (f : α → Outcome β) : Outcome.stuck.bind f = .stuck := rfl

inductive IntOp
  | add | sub | bitAnd

def binIntOp : BinOp → Option IntOp
  | .add => some .add
  | .sub => some .sub
  | .bitAnd => some .bitAnd
  | _ => none

def methodIntOp (method : String) : Option IntOp :=
  if method = "add" then some .add
  else if method = "sub" then some .sub
  else if method = "bitand" then some .bitAnd
  else none

section

variable {w : ℕ}

def checkedAdd (a b : BitVec w) : Outcome (BitVec w) := if BitVec.saddOverflow a b then .overflow else .value (a + b)

def checkedSub (a b : BitVec w) : Outcome (BitVec w) := if BitVec.ssubOverflow a b then .overflow else .value (a - b)

def IntOp.run (op : IntOp) (a b : BitVec w) : Outcome (BitVec w) :=
  match op with
  | .add => checkedAdd a b
  | .sub => checkedSub a b
  | .bitAnd => .value (a &&& b)

/-- The variables of the signed type of this width. -/
abbrev Vars (w : ℕ) := String → BitVec w

/-- What the types of the program define under the names of operators: by type, method and arguments. -/
structure OwnOps (w : ℕ) where
  int : String → String → BitVec w → BitVec w → Outcome (BitVec w)
  ne : String → BitVec w → BitVec w → Outcome Bool

variable (own : OwnOps w) (σ : Vars w)

def evalInt : Expr → Outcome (BitVec w)
  | .identifier name => .value (σ name)
  | .integer v => .value (BitVec.ofInt w v)
  | .binary op l r =>
    (evalInt l).bind fun a => (evalInt r).bind fun b =>
      match binIntOp op with
      | some op => op.run a b
      | none => .stuck
  | .call (.path [typeName, method]) [.mk _ _ l, .mk _ _ r] =>
    (evalInt l).bind fun a => (evalInt r).bind fun b =>
      if typeName ∈ preludePrimitives then
        match methodIntOp method with
        | some op => op.run a b
        | none => .stuck
      else own.int typeName method a b
  | _ => .stuck

def evalCond : Expr → Outcome Bool
  | .binary .notEq l r => (evalInt own σ l).bind fun a => (evalInt own σ r).bind fun b => .value (decide (a ≠ b))
  | .call (.path [typeName, "ne"]) [.mk _ _ l, .mk _ _ r] =>
    (evalInt own σ l).bind fun a => (evalInt own σ r).bind fun b =>
      if typeName ∈ preludePrimitives then .value (decide (a ≠ b)) else own.ne typeName a b
  | _ => .stuck

end

def runStmt {w : ℕ} (own : OwnOps w) (σ : Vars w) : Stmt → Outcome (Vars w)
  | .assign (.identifier name) value => (evalInt own σ value).bind fun v => .value (Function.update σ name v)
  | _ => .stuck

def runStmts {w : ℕ} (own : OwnOps w) : List Stmt → Vars w → Outcome (Vars w)
  | [], σ => .value σ
  | stmt :: stmts, σ => (runStmt own σ stmt).bind (runStmts own stmts)

/-- A run of the loop to its end. -/
inductive LoopRuns {w : ℕ} (own : OwnOps w) (condition : Expr) (body : Block) : Vars w → Outcome (Vars w) → Prop
  | exit {σ : Vars w} (h : evalCond own σ condition = .value false) : LoopRuns own condition body σ (.value σ)
  | turn {σ σ' : Vars w} {r : Outcome (Vars w)} (h : evalCond own σ condition = .value true)
      (hbody : runStmts own body.stmts σ = .value σ') (hrest : LoopRuns own condition body σ' r) :
      LoopRuns own condition body σ r
  | trapCond {σ : Vars w} (h : evalCond own σ condition = .overflow) : LoopRuns own condition body σ .overflow
  | trapBody {σ : Vars w} (h : evalCond own σ condition = .value true) (hbody : runStmts own body.stmts σ = .overflow) :
      LoopRuns own condition body σ .overflow

/-- What `try_emit_kernighan_popcount` emits. -/
def emitKernighanPopcount {w : ℕ} (m : KernighanPopcount) (σ : Vars w) : Outcome (Vars w) :=
  if σ m.source = BitVec.intMin w then .overflow
  else (checkedAdd (σ m.counter) (σ m.source).cpop).bind fun total =>
    .value (Function.update (Function.update σ m.counter total) m.source 0)

end Karac.Codegen
