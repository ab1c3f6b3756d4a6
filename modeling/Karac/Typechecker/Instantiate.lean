import Karac.Typechecker.ConstEval
import Karac.Typechecker.UnifyRuns

/-! The two ways to put arguments for a signature's parameters: `substitute_type_params`, and metavariables that are
bound and resolved. -/

namespace Karac.Typechecker

def IntSize.display : IntSize → String
  | .i8 => "i8"
  | .i16 => "i16"
  | .i32 => "i32"
  | .i64 => "i64"
  | .i128 => "i128"
  | .isize => "isize"

def UIntSize.display : UIntSize → String
  | .u8 => "u8"
  | .u16 => "u16"
  | .u32 => "u32"
  | .u64 => "u64"
  | .u128 => "u128"
  | .usize => "usize"

def FloatSize.display : FloatSize → String
  | .f16 => "f16"
  | .bf16 => "bf16"
  | .f32 => "f32"
  | .f64 => "f64"

def constArgDisplay : ConstArg → String
  | .literal n => toString n
  | .constParam name => name
  | .constVar id => "?C" ++ toString id
  | .dynamicDim => "?"

def dimDisplay : DimArg → String
  | .const (.literal n) => toString n
  | .const (.constParam name) => name
  | .const (.constVar _) => "_"
  | .const .dynamicDim => "?"
  | .dynamic => "?"
  | .splice name => "..." ++ name
  | .spliceVar _ => "..._"

def joined (parts : List String) : String := ", ".intercalate parts

/-- A head with its arguments in brackets, where it has any. -/
def applied (head : String) (args : List String) : String := if args = [] then head else head ++ "[" ++ joined args ++ "]"

def arrow (head : String) (params : List String) (ret : Ty) (retDisplay : String) : String :=
  if ret = .unit then head ++ "(" ++ joined params ++ ")" else head ++ "(" ++ joined params ++ ") -> " ++ retDisplay

mutual

def typeDisplay : Ty → String
  | .shape dims => "[" ++ joined (dims.map dimDisplay) ++ "]"
  | .int s => s.display
  | .uint s => s.display
  | .float s => s.display
  | .bool => "bool"
  | .char => "char"
  | .str => "String"
  | .unit => "()"
  | .never => "!"
  | .tuple types => "(" ++ joined (displayAll types) ++ ")"
  | .array element size => "Array[" ++ typeDisplay element ++ ", " ++ constArgDisplay size ++ "]"
  | .vector element lanes => "Vector[" ++ typeDisplay element ++ ", " ++ constArgDisplay lanes ++ "]"
  | .slice element mutable =>
    if mutable = true then "mut Slice[" ++ typeDisplay element ++ "]" else "Slice[" ++ typeDisplay element ++ "]"
  | .named name args => applied name (displayAll args)
  | .shared name => name
  | .rc inner => "Rc[" ++ typeDisplay inner ++ "]"
  | .arc inner => "Arc[" ++ typeDisplay inner ++ "]"
  | .function params ret => arrow "Fn" (displayAll params) ret (typeDisplay ret)
  | .onceFunction params ret => arrow "OnceFn" (displayAll params) ret (typeDisplay ret)
  | .ref inner => "ref " ++ typeDisplay inner
  | .mutRef inner => "mut ref " ++ typeDisplay inner
  | .weak inner => "weak " ++ typeDisplay inner
  | .pointer isMut inner => (if isMut = true then "*mut " else "*const ") ++ typeDisplay inner
  | .typeParam name => name
  | .typeVar id => "?T" ++ toString id
  | .assocProjection param assoc args receiverArgs =>
    applied (applied param (displayAll receiverArgs) ++ "." ++ assoc) (displayAll args)
  | .existential traitName traitArgs assocBindings _ _ =>
    applied ("impl " ++ traitName) (displayAll traitArgs ++ displayBindings assocBindings)
  | .refinement name _ => name
  | .error => "<error>"

def displayAll : List Ty → List String
  | [] => []
  | t :: ts => typeDisplay t :: displayAll ts

def displayBindings : List (String × Ty) → List String
  | [] => []
  | (name, t) :: bs => (name ++ " = " ++ typeDisplay t) :: displayBindings bs

end

/-! Direct substitution. -/

inductive SubstValue
  | type (t : Ty)
  | const (v : ConstValue)

abbrev TypeArgs := String → Option SubstValue

def SubstValue.asType : SubstValue → Option Ty
  | .type t => some t
  | .const _ => none

/-- The integers of the narrow kinds are all in range. -/
def constValueToI64 : ConstValue → Option ℤ
  | .int _ v => if -2 ^ 63 ≤ v ∧ v < 2 ^ 63 then some v else none
  | .bool b => some (if b = true then 1 else 0)
  | .char c => some c.toNat
  | .enumVariant _ _ discriminant => some discriminant
  | .f32 _ => none
  | .f64 _ => none

section

variable (subs : TypeArgs)

def TypeArgs.type (n : String) : Option Ty := (subs n).bind SubstValue.asType

def TypeArgs.literal (n : String) : Option ConstArg :=
  match subs n with
  | some (.const v) => (constValueToI64 v).map .literal
  | _ => none

def substituteConstArg : ConstArg → ConstArg
  | .constParam name => (subs.literal name).getD (.constParam name)
  | c => c

def substituteDim : DimArg → List DimArg
  | .const c => [.const (substituteConstArg subs c)]
  | .splice n =>
    match subs.type n with
    | some (.shape inner) => inner
    | _ => [.splice n]
  | d => [d]

/-- The name and the arguments by which a projection's solved receiver is looked up. -/
def receiverHead : Ty → String × List Ty
  | .named name args => (name, args)
  | .shared name => (name, [])
  | .rc inner => ("Rc", [inner])
  | .arc inner => ("Arc", [inner])
  | other => (typeDisplay other, [])

mutual

def substituteTypeParams : Ty → Ty
  | .typeParam name => (subs.type name).getD (.typeParam name)
  | .tuple elems => .tuple (substituteAll elems)
  | .array element size => .array (substituteTypeParams element) (substituteConstArg subs size)
  | .shape dims => .shape (dims.flatMap (substituteDim subs))
  | .slice element mutable => .slice (substituteTypeParams element) mutable
  | .ref inner => .ref (substituteTypeParams inner)
  | .mutRef inner => .mutRef (substituteTypeParams inner)
  | .weak inner => .weak (substituteTypeParams inner)
  | .pointer isMut inner => .pointer isMut (substituteTypeParams inner)
  | .named name args => .named name (substituteAll args)
  | .function params ret => .function (substituteAll params) (substituteTypeParams ret)
  | .onceFunction params ret => .onceFunction (substituteAll params) (substituteTypeParams ret)
  | .assocProjection param assoc args receiverArgs =>
    match subs.type param with
    | some concrete =>
      .assocProjection (receiverHead concrete).1 assoc (substituteAll args) (receiverHead concrete).2
    | none => .assocProjection param assoc (substituteAll args) (substituteAll receiverArgs)
  | .refinement name base => .refinement name (substituteTypeParams base)
  | t => t

def substituteAll : List Ty → List Ty
  | [] => []
  | t :: ts => substituteTypeParams t :: substituteAll ts

end

end

/-! Instantiation. -/

/-- The parameters found so far, in the order in which they were met. -/
structure ParamNames where
  types : List String
  consts : List String

def ParamNames.addType (n : String) (names : ParamNames) : ParamNames :=
  if n ∈ names.types then names else { names with types := names.types ++ [n] }

def ParamNames.addConst (n : String) (names : ParamNames) : ParamNames :=
  if n ∈ names.consts then names else { names with consts := names.consts ++ [n] }

def collectConst : ConstArg → ParamNames → ParamNames
  | .constParam n, names => names.addConst n
  | _, names => names

def collectDim : DimArg → ParamNames → ParamNames
  | .const c, names => collectConst c names
  | .splice n, names => names.addType n
  | _, names => names

mutual

def collect : Ty → ParamNames → ParamNames
  | .typeParam n, names => names.addType n
  | .tuple es, names => collectParams es names
  | .array element size, names => collectConst size (collect element names)
  | .slice element _, names => collect element names
  | .ref i, names => collect i names
  | .mutRef i, names => collect i names
  | .weak i, names => collect i names
  | .pointer _ i, names => collect i names
  | .named _ args, names => collectParams args names
  | .shape dims, names => dims.foldl (fun names d => collectDim d names) names
  | .function params ret, names => collect ret (collectParams params names)
  | .onceFunction params ret, names => collect ret (collectParams params names)
  | .assocProjection _ _ args receiverArgs, names => collectParams receiverArgs (collectParams args names)
  | _, names => names

def collectParams : List Ty → ParamNames → ParamNames
  | [], names => names
  | t :: ts, names => collectParams ts (collect t names)

end

/-- Both directions between names and fresh ids. -/
structure FreshVars where
  nameToId : String → Option ℕ
  idToName : ℕ → Option String
  nameToConstId : String → Option ℕ
  constIdToName : ℕ → Option String

/-- The names get consecutive ids. -/
def FreshVars.of (names : ParamNames) (nextTypeVar nextConstVar : ℕ) : FreshVars where
  nameToId n := (names.types.idxOf? n).map (nextTypeVar + ·)
  idToName id := if nextTypeVar ≤ id then names.types[id - nextTypeVar]? else none
  nameToConstId n := (names.consts.idxOf? n).map (nextConstVar + ·)
  constIdToName id := if nextConstVar ≤ id then names.consts[id - nextConstVar]? else none

section

variable (vars : FreshVars)

def substituteConstParamToVar : ConstArg → ConstArg
  | .constParam name => (vars.nameToConstId name).elim (.constParam name) .constVar
  | c => c

def instantiateDim : DimArg → DimArg
  | .const c => .const (substituteConstParamToVar vars c)
  | .splice n => (vars.nameToId n).elim (.splice n) .spliceVar
  | d => d

mutual

/-- The inner `substitute`. -/
def instantiateTy : Ty → Ty
  | .typeParam n => (vars.nameToId n).elim (.typeParam n) .typeVar
  | .tuple es => .tuple (instantiateAll es)
  | .array element size => .array (instantiateTy element) (substituteConstParamToVar vars size)
  | .shape dims => .shape (dims.map (instantiateDim vars))
  | .slice element mutable => .slice (instantiateTy element) mutable
  | .ref inner => .ref (instantiateTy inner)
  | .mutRef inner => .mutRef (instantiateTy inner)
  | .weak inner => .weak (instantiateTy inner)
  | .pointer isMut inner => .pointer isMut (instantiateTy inner)
  | .named name args => .named name (instantiateAll args)
  | .function params ret => .function (instantiateAll params) (instantiateTy ret)
  | .onceFunction params ret => .onceFunction (instantiateAll params) (instantiateTy ret)
  | .assocProjection param assoc args receiverArgs =>
    .assocProjection param assoc (instantiateAll args) (instantiateAll receiverArgs)
  | t => t

def instantiateAll : List Ty → List Ty
  | [] => []
  | t :: ts => instantiateTy t :: instantiateAll ts

end

end

structure InstantiatedSignature where
  params : List Ty
  returnType : Ty
  vars : FreshVars
  nextTypeVar : ℕ
  nextConstVar : ℕ

def instantiateSignatureWithFreshVars (params : List Ty) (returnType : Ty) (nextTypeVar nextConstVar : ℕ) :
    InstantiatedSignature :=
  let names := collect returnType (collectParams params ⟨[], []⟩)
  let vars := FreshVars.of names nextTypeVar nextConstVar
  { params := instantiateAll vars params
    returnType := instantiateTy vars returnType
    vars
    nextTypeVar := nextTypeVar + names.types.length
    nextConstVar := nextConstVar + names.consts.length }

def FreshVars.names (vars : FreshVars) : MetavarNames := ⟨vars.idToName, vars.constIdToName⟩

/-- Every metavariable bound to the argument of its parameter. -/
def FreshVars.bindings (vars : FreshVars) (subs : TypeArgs) : Subst where
  types id := (vars.idToName id).bind subs.type
  consts id := (vars.constIdToName id).bind subs.literal

end Karac.Typechecker
