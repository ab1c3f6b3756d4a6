import Mathlib

/-! The syntax tree of a function body, after the desugaring of parallel assignment. Spans, attributes and
type annotations are left out. -/

namespace Karac.Ast

inductive BinOp
  | add | sub | mul | div | mod
  | eq | notEq | lt | ltEq | gt | gtEq
  | and | or
  | bitAnd | bitOr | bitXor | shl | shr
  | range | rangeInclusive
  deriving DecidableEq

inductive UnaryOp
  | neg | not | bitNot | deref | ref
  deriving DecidableEq

inductive CompoundOp
  | add | sub | mul | div | mod | bitAnd | bitOr | bitXor | shl | shr
  deriving DecidableEq

inductive CaptureMode
  | own | ref | mutRef
  deriving DecidableEq

inductive RestPattern
  | ignored
  | bound (name : String)

inductive Pattern
  | wildcard
  | binding (name : String)
  | literal
  | rangePattern
  | atBinding (name : String) (pattern : Pattern)
  | struct (path : List String) (fields : List (String × Option Pattern))
  | tupleVariant (path : List String) (patterns : List Pattern)
  | tuple (patterns : List Pattern)
  | or (alternatives : List Pattern)
  | slice (front : List Pattern) (rest : Option RestPattern) (back : List Pattern)

/-- The mutex of a `lock`: `self` (no root) or a name, with the fields read from it. -/
structure LockPlace where
  root : Option String
  fields : List String

mutual

inductive Expr
  | integer (value : ℤ)
  | float
  | charLit (value : Char)
  | byteLit (value : UInt8)
  | stringLit (value : String)
  | multiStringLit (value : String)
  | interpolatedStringLit (parts : List InterpolationPart)
  | cStringLit (bytes : List UInt8)
  | bool (value : Bool)
  | identifier (name : String)
  | path (segments : List String)
  | selfValue
  | selfType
  | binary (op : BinOp) (left right : Expr)
  | unary (op : UnaryOp) (operand : Expr)
  | question (inner : Expr)
  | optionalChain (object : Expr) (fieldOrMethod : String) (args : Option (List CallArg))
  | nilCoalesce (left right : Expr)
  | call (callee : Expr) (args : List CallArg)
  | methodCall (object : Expr) (method : String) (args : List CallArg)
  | fieldAccess (object : Expr) (field : String)
  | tupleIndex (object : Expr) (index : ℕ)
  | index (object index : Expr)
  | block (body : Block)
  | comptime (body : Block)
  | ifThen (condition : Expr) (thenBlock : Block) (elseBranch : Option Expr)
  | ifLet (pattern : Pattern) (value : Expr) (thenBlock : Block) (elseBranch : Option Expr)
  | matchOn (scrutinee : Expr) (arms : List MatchArm)
  | whileLoop (label : Option String) (condition : Expr) (body : Block)
  | whileLet (label : Option String) (pattern : Pattern) (value : Expr) (body : Block)
  | forLoop (label : Option String) (pattern : Pattern) (iterable : Expr) (body : Block)
  | loop (label : Option String) (body : Block)
  | labeledBlock (label : String) (body : Block)
  | closure (params : List Pattern) (captureMode : Option CaptureMode) (body : Expr)
  | returnExpr (value : Option Expr)
  | breakExpr (label : Option String) (value : Option Expr)
  | continueExpr (label : Option String)
  | tuple (elems : List Expr)
  | arrayLiteral (elems : List Expr)
  | byteStringLit (bytes : List UInt8)
  | prefixCollectionLiteral (typeName : String) (items : List Expr)
  | repeatLiteral (typeName : Option String) (value count : Expr)
  | mapLiteral (pairs : List (Expr × Expr))
  | structLiteral (path : List String) (fields : List FieldInit) (spread : Option Expr)
  | pipe (left right : Expr)
  | pipePlaceholder
  | cast (expr : Expr)
  | offsetOf (fieldPath : List String)
  | range (start stop : Option Expr) (inclusive : Bool)
  | unsafeBlock (body : Block)
  | tryBlock (body : Block)
  | seq (body : Block)
  | par (body : Block)
  | lock (mutex : LockPlace) (innerName : Option String) (body : Block)
  | providers (bindings : List ProviderBinding) (body : Block)
  | error

inductive InterpolationPart
  | text (text : String)
  | expr (expr : Expr)

inductive CallArg
  | mk (label : Option String) (mutMarker : Bool) (value : Expr)

inductive MatchArm
  | mk (pattern : Pattern) (guard : Option Expr) (body : Expr)

inductive FieldInit
  | mk (name : String) (value : Expr)

inductive ProviderBinding
  | mk (resource : String) (value : Expr)

inductive Stmt
  | letStmt (isMut : Bool) (pattern : Pattern) (value : Expr)
  | letUninit (isMut : Bool) (name : String)
  | letElse (pattern : Pattern) (value : Expr) (elseBlock : Block)
  | defer (body : Block)
  | errDefer (binding : Option String) (body : Block)
  | assign (target value : Expr)
  | compoundAssign (target : Expr) (op : CompoundOp) (value : Expr)
  | expr (expr : Expr)

inductive Block
  | mk (stmts : List Stmt) (finalExpr : Option Expr)

end

mutual

def Pattern.bindingNames : Pattern → List String
  | .wildcard => []
  | .binding name => [name]
  | .literal => []
  | .rangePattern => []
  | .atBinding name pattern => name :: pattern.bindingNames
  | .struct _ fields => fieldBindingNames fields
  | .tupleVariant _ patterns => patternsBindingNames patterns
  | .tuple patterns => patternsBindingNames patterns
  | .or alternatives => firstBindingNames alternatives
  | .slice front rest back =>
    patternsBindingNames front ++ (match rest with
      | some (.bound name) => [name]
      | _ => []) ++ patternsBindingNames back

def patternsBindingNames : List Pattern → List String
  | [] => []
  | p :: rest => p.bindingNames ++ patternsBindingNames rest

/-- Every alternative binds the names of the first. -/
def firstBindingNames : List Pattern → List String
  | [] => []
  | p :: _ => p.bindingNames

def fieldBindingNames : List (String × Option Pattern) → List String
  | [] => []
  | (_, some p) :: rest => p.bindingNames ++ fieldBindingNames rest
  | (name, none) :: rest => name :: fieldBindingNames rest

end

namespace CallArg

def label : CallArg → Option String
  | mk label _ _ => label

def mutMarker : CallArg → Bool
  | mk _ mutMarker _ => mutMarker

def value : CallArg → Expr
  | mk _ _ value => value

end CallArg

namespace MatchArm

def pattern : MatchArm → Pattern
  | mk pattern _ _ => pattern

def guard : MatchArm → Option Expr
  | mk _ guard _ => guard

def body : MatchArm → Expr
  | mk _ _ body => body

end MatchArm

def FieldInit.value : FieldInit → Expr
  | mk _ value => value

def ProviderBinding.value : ProviderBinding → Expr
  | mk _ value => value

namespace Block

def stmts : Block → List Stmt
  | mk stmts _ => stmts

def finalExpr : Block → Option Expr
  | mk _ finalExpr => finalExpr

end Block

end Karac.Ast
