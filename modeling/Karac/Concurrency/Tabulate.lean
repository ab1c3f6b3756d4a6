import Karac.Ast.Nodes

/-! Loop bodies that push one element in every iteration: `acc.push(e)` once at the top level, and no other mention of
`acc`. The lowering writes the elements straight into a buffer of the right length. -/

namespace Karac.Concurrency

open Ast

/-! The names that an expression reads. -/

mutual

def exprReads : Expr → Finset String
  | .identifier name => {name}
  | .selfValue => {"self"}
  | .binary _ left right => exprReads left ∪ exprReads right
  | .pipe left right => exprReads left ∪ exprReads right
  | .nilCoalesce left right => exprReads left ∪ exprReads right
  | .unary _ operand => exprReads operand
  | .question operand => exprReads operand
  | .call callee args => exprReads callee ∪ argReads args
  | .methodCall object _ args => exprReads object ∪ argReads args
  | .fieldAccess object _ => exprReads object
  | .tupleIndex object _ => exprReads object
  | .index object index => exprReads object ∪ exprReads index
  | .optionalChain object _ args => exprReads object ∪ chainArgReads args
  | .block b => blockReads b
  | .comptime b => blockReads b
  | .unsafeBlock b => blockReads b
  | .tryBlock b => blockReads b
  | .seq b => blockReads b
  | .par b => blockReads b
  -- the mutex is not among the reads
  | .lock _ _ body => blockReads body
  | .ifThen condition thenBlock elseBranch => exprReads condition ∪ blockReads thenBlock ∪ optionReads elseBranch
  | .ifLet _ value thenBlock elseBranch => exprReads value ∪ blockReads thenBlock ∪ optionReads elseBranch
  | .matchOn scrutinee arms => exprReads scrutinee ∪ armReads arms
  | .whileLoop _ condition body => exprReads condition ∪ blockReads body
  | .forLoop _ _ iterable body => exprReads iterable ∪ blockReads body
  | .whileLet _ _ value body => exprReads value ∪ blockReads body
  | .loop _ body => blockReads body
  | .labeledBlock _ body => blockReads body
  | .closure _ _ body => exprReads body
  | .returnExpr value => optionReads value
  | .breakExpr _ value => optionReads value
  | .tuple elems => listReads elems
  | .arrayLiteral elems => listReads elems
  | .repeatLiteral _ value count => exprReads value ∪ exprReads count
  | .prefixCollectionLiteral _ items => listReads items
  | .mapLiteral pairs => pairReads pairs
  | .structLiteral _ fields spread => fieldReads fields ∪ optionReads spread
  | .cast inner => exprReads inner
  | .range start stop _ => optionReads start ∪ optionReads stop
  -- the first segment could be a variable
  | .path segments => segments.head?.elim ∅ fun name => {name}
  | .providers bindings body => bindingReads bindings ∪ blockReads body
  | .interpolatedStringLit parts => partReads parts
  | _ => ∅

def blockReads : Block → Finset String
  | .mk stmts finalExpr => stmtListReads stmts ∪ optionReads finalExpr

def stmtListReads : List Stmt → Finset String
  | [] => ∅
  | s :: rest => stmtReads s ∪ stmtListReads rest

def stmtReads : Stmt → Finset String
  | .letStmt _ _ value => exprReads value
  | .letUninit _ _ => ∅
  | .letElse _ value elseBlock => exprReads value ∪ blockReads elseBlock
  | .assign target value => exprReads target ∪ exprReads value
  | .compoundAssign target _ value => exprReads target ∪ exprReads value
  | .expr e => exprReads e
  | .defer body => blockReads body
  | .errDefer _ body => blockReads body

def optionReads : Option Expr → Finset String
  | none => ∅
  | some e => exprReads e

def listReads : List Expr → Finset String
  | [] => ∅
  | e :: rest => exprReads e ∪ listReads rest

def argReads : List CallArg → Finset String
  | [] => ∅
  | .mk _ _ value :: rest => exprReads value ∪ argReads rest

def chainArgReads : Option (List CallArg) → Finset String
  | none => ∅
  | some args => argReads args

def armReads : List MatchArm → Finset String
  | [] => ∅
  | .mk _ guard body :: rest => optionReads guard ∪ exprReads body ∪ armReads rest

def partReads : List InterpolationPart → Finset String
  | [] => ∅
  | .text _ :: rest => partReads rest
  | .expr e :: rest => exprReads e ∪ partReads rest

def pairReads : List (Expr × Expr) → Finset String
  | [] => ∅
  | (k, v) :: rest => exprReads k ∪ exprReads v ∪ pairReads rest

def fieldReads : List FieldInit → Finset String
  | [] => ∅
  | .mk _ value :: rest => exprReads value ∪ fieldReads rest

def bindingReads : List ProviderBinding → Finset String
  | [] => ∅
  | .mk _ value :: rest => exprReads value ∪ bindingReads rest

end

mutual

def patternBindings : Pattern → Finset String
  | .wildcard => ∅
  | .binding name => {name}
  | .literal => ∅
  | .rangePattern => ∅
  | .atBinding name pattern => insert name (patternBindings pattern)
  | .struct _ fields => fieldBindings fields
  | .tupleVariant _ patterns => listBindings patterns
  | .tuple patterns => listBindings patterns
  | .or alternatives => listBindings alternatives
  | .slice front rest back =>
    listBindings front ∪ listBindings back ∪ (match rest with
      | some (.bound name) => {name}
      | _ => ∅)

def listBindings : List Pattern → Finset String
  | [] => ∅
  | p :: rest => patternBindings p ∪ listBindings rest

def fieldBindings : List (String × Option Pattern) → Finset String
  | [] => ∅
  | (_, some p) :: rest => patternBindings p ∪ fieldBindings rest
  | (name, none) :: rest => insert name (fieldBindings rest)

end

def letBindings : Stmt → Finset String
  | .letStmt _ pattern _ => patternBindings pattern
  | .letElse pattern _ _ => patternBindings pattern
  | .letUninit _ name => {name}
  | _ => ∅

def letIntroduced (stmts : List Stmt) : Finset String := stmts.foldr (fun s names => letBindings s ∪ names) ∅

/-! The shape. -/

/-- `acc.push(e)` -/
def collectPushShape : Expr → Option String
  | .methodCall (.identifier name) method [_] => if method = "push" then some name else none
  | _ => none

def isEmptyBlock : Option Expr → Bool
  | none => true
  | some (.block (.mk [] none)) => true
  | _ => false

/-- `if c { acc.push(e); }`, also with an empty `else`. -/
def conditionalCollectShape : Expr → Option String
  | .ifThen _ (.mk [.expr inner] none) elseBranch => if isEmptyBlock elseBranch then collectPushShape inner else none
  | _ => none

section

variable (innerWrites : Expr → Finset String) (acc : String)

/-- `innerWrites` are the names that a second walk finds written. -/
def mentionsAcc (e : Expr) : Bool := decide (acc ∈ exprReads e ∪ innerWrites e)

def pushedArgs : Expr → List CallArg
  | .methodCall _ _ args => args
  | _ => []

/-- How often the expression pushes, or `none` for a body that is declined. -/
def exprPushes (e : Expr) : Option ℕ :=
  if collectPushShape e = some acc then
    match pushedArgs e with
    | a :: _ => if mentionsAcc innerWrites acc a.value then none else some 1
    | [] => none
  else if conditionalCollectShape e = some acc then none
  else if mentionsAcc innerWrites acc e then none
  else some 0

def stmtPushes : Stmt → Option ℕ
  | .expr e => exprPushes innerWrites acc e
  | .letStmt _ _ value => if mentionsAcc innerWrites acc value then none else some 0
  | .assign target value =>
    if mentionsAcc innerWrites acc target || mentionsAcc innerWrites acc value then none else some 0
  | .compoundAssign target _ value =>
    if mentionsAcc innerWrites acc target || mentionsAcc innerWrites acc value then none else some 0
  | _ => none

def pushesFrom : List Stmt → Option Expr → Option ℕ
  | [], none => some 0
  | [], some e => exprPushes innerWrites acc e
  | s :: rest, finalExpr => do
    let n ← stmtPushes innerWrites acc s
    let m ← pushesFrom rest finalExpr
    return n + m

def collectIsTabulateShape (body : Block) : Bool :=
  if acc ∈ letIntroduced body.stmts then false
  else decide (pushesFrom innerWrites acc body.stmts body.finalExpr = some 1)

end

/-! Every name in the tree of an expression is among its reads. -/

def nodeReads : Node → Finset String
  | .expr e => exprReads e
  | .stmt s => stmtReads s
  | .block b => blockReads b
  | .arg a => exprReads a.value
  | .arm a => optionReads a.guard ∪ exprReads a.body

section

variable {name : String}

@[simp] theorem mem_optionReads {o : Option Expr} : name ∈ optionReads o ↔ ∃ e ∈ o, name ∈ exprReads e := by
  cases o <;> simp [optionReads]

@[simp] theorem mem_listReads {l : List Expr} : name ∈ listReads l ↔ ∃ e ∈ l, name ∈ exprReads e :=
  mem_walk rfl fun _ _ => rfl

@[simp] theorem mem_stmtListReads {l : List Stmt} : name ∈ stmtListReads l ↔ ∃ s ∈ l, name ∈ stmtReads s :=
  mem_walk rfl fun _ _ => rfl

@[simp] theorem mem_argReads {l : List CallArg} : name ∈ argReads l ↔ ∃ a ∈ l, name ∈ exprReads a.value :=
  mem_walk rfl fun a _ => by cases a; rfl

@[simp] theorem mem_chainArgReads {o : Option (List CallArg)} :
    name ∈ chainArgReads o ↔ ∃ a ∈ o.getD [], name ∈ exprReads a.value := by
  cases o <;> simp [chainArgReads]

@[simp] theorem mem_armReads {l : List MatchArm} : name ∈ armReads l ↔ ∃ a ∈ l, name ∈ nodeReads (.arm a) :=
  mem_walk rfl fun a _ => by cases a; rfl

@[simp] theorem mem_partReads {l : List InterpolationPart} :
    name ∈ partReads l ↔ ∃ part ∈ l, ∃ n ∈ interpolatedNodes part, name ∈ nodeReads n := by
  induction l with
  | nil => simp [partReads]
  | cons part rest ih => cases part <;> simp [partReads, ih, interpolatedNodes, nodeReads]

@[simp] theorem mem_pairReads {l : List (Expr × Expr)} :
    name ∈ pairReads l ↔ ∃ p ∈ l, name ∈ exprReads p.1 ∪ exprReads p.2 :=
  mem_walk rfl fun _ _ => rfl

@[simp] theorem mem_fieldReads {l : List FieldInit} : name ∈ fieldReads l ↔ ∃ f ∈ l, name ∈ exprReads f.value :=
  mem_walk rfl fun f _ => by cases f; rfl

@[simp] theorem mem_bindingReads {l : List ProviderBinding} :
    name ∈ bindingReads l ↔ ∃ b ∈ l, name ∈ exprReads b.value :=
  mem_walk rfl fun b _ => by cases b; rfl

theorem mem_exprReads_of_child {e : Expr} (h : ∃ c ∈ exprChildren e, name ∈ nodeReads c) : name ∈ exprReads e := by
  revert h
  cases e <;> simp [exprChildren, exprReads, nodeReads] <;> grind

theorem mem_nodeReads_of_child {n : Node} (h : ∃ c ∈ n.children, name ∈ nodeReads c) : name ∈ nodeReads n := by
  cases n with
  | expr e => exact mem_exprReads_of_child h
  | stmt s =>
    revert h
    cases s <;> simp [Node.children, stmtChildren, nodeReads, stmtReads]
  | block b =>
    cases b with
    | mk stmts finalExpr =>
      revert h
      simp [Node.children, Block.stmts, Block.finalExpr, nodeReads, blockReads]
      grind
  | arg a => simpa [Node.children, nodeReads] using h
  | arm a =>
    revert h
    simp [Node.children, nodeReads]

theorem mem_nodeReads_of_within {n : Node} (h : Node.Within (.expr (.identifier name)) n) : name ∈ nodeReads n := by
  induction h with
  | refl => exact Finset.mem_singleton_self name
  | child hc _ ih => exact mem_nodeReads_of_child ⟨_, hc, ih⟩

end

end Karac.Concurrency
