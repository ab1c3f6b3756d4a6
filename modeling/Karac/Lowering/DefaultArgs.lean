import Karac.Ast

/-! Calls that leave out arguments with defaults: the pass before name resolution that completes the argument list with
copies of the default expressions, and what a copy is worth where it is put. -/

namespace Karac.Lowering

open Karac.Ast

/-- A parameter: its name, unless it is a destructuring pattern, and its default. -/
structure ParamDefault where
  name : Option String
  default : Option Expr

abbrev FnDefaultInfo := List ParamDefault

def synthesizeArg (default : Expr) (name : Option String) : CallArg := .mk name false default

/-- The arguments so far, the indices of those that were spliced in, and the next parameter. -/
structure FillState where
  out : List CallArg
  spliced : List ℕ
  cursor : ℕ
  seenLabel : Bool

section

variable (info : FnDefaultInfo)

/-- Splices in so many parameters from the cursor on. -/
def splice : ℕ → FillState → Option FillState
  | 0, st => some st
  | count + 1, st =>
    match info[st.cursor]? with
    | some param =>
      match param.default with
      | some default =>
        splice count { st with
          out := st.out ++ [synthesizeArg default param.name]
          spliced := st.spliced ++ [st.out.length]
          cursor := st.cursor + 1 }
      | none => none
    | none => none

/-- How far ahead of the cursor a parameter has this name. -/
def stepsTo (label : String) : List ParamDefault → Option ℕ
  | [] => none
  | param :: params => if param.name = some label then some 0 else (stepsTo label params).map (· + 1)

def fillArg (arg : CallArg) (st : FillState) : Option FillState :=
  match arg.label with
  | none =>
    if st.seenLabel = true ∨ info.length ≤ st.cursor then none
    else some { st with out := st.out ++ [arg], cursor := st.cursor + 1 }
  | some label =>
    (stepsTo label (info.drop st.cursor)).bind fun count =>
      (splice info count { st with seenLabel := true }).map fun st =>
        { st with out := st.out ++ [arg], cursor := st.cursor + 1 }

def fillArgs : List CallArg → FillState → Option FillState
  | [], st => some st
  | arg :: args, st => (fillArg info arg st).bind (fillArgs args)

def anyLabeled (out : List CallArg) : Bool := out.any fun arg => arg.label.isSome

def splicedUnlabeled (out : List CallArg) (spliced : List ℕ) : Bool :=
  spliced.any fun i => out[i]?.any fun arg => arg.label.isNone

def tryFill (args : List CallArg) : Option (List CallArg) :=
  if info.length ≤ args.length then none
  else
    (fillArgs info args ⟨[], [], 0, false⟩).bind fun st =>
      (splice info (info.length - st.cursor) st).bind fun st =>
        if st.spliced = [] then none
        else if anyLabeled st.out && splicedUnlabeled st.out st.spliced then none
        else some st.out

end

/-! Which calls are filled. -/

/-- The tables by function and by type and associated function, and the names bound around the call. -/
structure Filler where
  table : String → Option FnDefaultInfo
  assoc : String × String → Option FnDefaultInfo
  scopes : List (List String)

def Filler.isShadowed (filler : Filler) (name : String) : Bool := filler.scopes.any fun scope => decide (name ∈ scope)

def Filler.calleeInfo (filler : Filler) : Expr → Option FnDefaultInfo
  | .identifier name => if filler.isShadowed name then none else filler.table name
  | .path [typeName, method] => filler.assoc (typeName, method)
  | _ => none

/-- The `Call` arm of `walk_expr`, with the arguments walked already. -/
def Filler.fillCall (filler : Filler) (callee : Expr) (args : List CallArg) : List CallArg :=
  match filler.calleeInfo callee with
  | some info => (tryFill info args).getD args
  | none => args

/-! What a constant expression is worth. The values and the operators are a parameter. -/

structure Meaning (V : Type*) where
  /-- Literals. -/
  literal : Expr → V
  /-- Types, variants and constructors by path: locals do not change them. -/
  item : List String → Option V
  unary : UnaryOp → V → Option V
  binary : BinOp → V → V → Option V
  tuple : List V → V
  array : List V → V
  struct : V → List (String × V) → Option V
  construct : V → List V → Option V

variable {V : Type*} (meaning : Meaning V)

section

variable (scope : String → Option V)

mutual

/-- The value in a scope. All parts must have one: what is not reached at run time is still checked. -/
def constValue : Expr → Option V
  | .integer value => some (meaning.literal (.integer value))
  | .float => some (meaning.literal .float)
  | .charLit value => some (meaning.literal (.charLit value))
  | .byteLit value => some (meaning.literal (.byteLit value))
  | .bool value => some (meaning.literal (.bool value))
  | .stringLit value => some (meaning.literal (.stringLit value))
  | .multiStringLit value => some (meaning.literal (.multiStringLit value))
  | .identifier name => scope name
  | .path segments => meaning.item segments
  | .unary op operand => (constValue operand).bind (meaning.unary op)
  | .binary op left right => (constValue left).bind fun a => (constValue right).bind (meaning.binary op a)
  | .tuple elems => (constValues elems).map meaning.tuple
  | .arrayLiteral elems => (constValues elems).map meaning.array
  | .structLiteral path fields none =>
    (meaning.item path).bind fun tag => (constFields fields).bind (meaning.struct tag)
  | .call callee args => (constValue callee).bind fun ctor => (constArgs args).bind (meaning.construct ctor)
  | _ => none

def constValues : List Expr → Option (List V)
  | [] => some []
  | e :: es => (constValue e).bind fun v => (constValues es).map (v :: ·)

def constFields : List FieldInit → Option (List (String × V))
  | [] => some []
  | .mk name e :: fields => (constValue e).bind fun v => (constFields fields).map ((name, v) :: ·)

def constArgs : List CallArg → Option (List V)
  | [] => some []
  | .mk _ _ e :: args => (constValue e).bind fun v => (constArgs args).map (v :: ·)

end

end

mutual

/-- The names that a constant expression looks up in its scope. -/
def constNames : Expr → List String
  | .identifier name => [name]
  | .unary _ operand => constNames operand
  | .binary _ left right => constNames left ++ constNames right
  | .tuple elems => namesOfElems elems
  | .arrayLiteral elems => namesOfElems elems
  | .structLiteral _ fields none => namesOfFields fields
  | .call callee args => constNames callee ++ namesOfArgs args
  | _ => []

def namesOfElems : List Expr → List String
  | [] => []
  | e :: es => constNames e ++ namesOfElems es

def namesOfFields : List FieldInit → List String
  | [] => []
  | .mk _ e :: fields => constNames e ++ namesOfFields fields

def namesOfArgs : List CallArg → List String
  | [] => []
  | .mk _ _ e :: args => constNames e ++ namesOfArgs args

end

/-- The scope at a call: locals hide the names of the module. -/
def callScope (locals : List String) (values : String → Option V) (scope : String → Option V) (name : String) : Option V :=
  if name ∈ locals then values name else scope name

end Karac.Lowering
