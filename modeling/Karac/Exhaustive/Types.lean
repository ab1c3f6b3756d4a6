import Mathlib

/-! The types the exhaustiveness checker works on, the declarations it reads from the type
environment, substitution of generic parameters, and the finite integer domains of primitive and
refined types. -/

namespace Karac.Exhaustive

inductive IntSize where
  | i8 | i16 | i32 | i64 | i128 | isize
deriving DecidableEq, Repr

inductive UIntSize where
  | u8 | u16 | u32 | u64 | u128 | usize
deriving DecidableEq, Repr

inductive FloatSize where
  | f16 | bf16 | f32 | f64
deriving DecidableEq, Repr

inductive ConstArg where
  | literal (n : ℤ)
  | constParam (name : String)
  | constVar (id : ℕ)
  | dynamicDim
deriving DecidableEq, Repr

def ConstArg.asUsize : ConstArg → Option ℕ
  | .literal n => if 0 ≤ n then some n.toNat else none
  | _ => none

inductive Ty where
  | int (size : IntSize)
  | uint (size : UIntSize)
  | float (size : FloatSize)
  | bool
  | char
  | str
  | unit
  | never
  | tuple (elems : List Ty)
  | array (element : Ty) (size : ConstArg)
  | vector (element : Ty) (lanes : ConstArg)
  | slice (element : Ty) (isMutable : Bool)
  | named (name : String) (args : List Ty)
  | shared (name : String)
  | rc (inner : Ty)
  | arc (inner : Ty)
  | function (params : List Ty) (returnType : Ty)
  | onceFunction (params : List Ty) (returnType : Ty)
  | ref (inner : Ty)
  | mutRef (inner : Ty)
  | weak (inner : Ty)
  | pointer (isMut : Bool) (inner : Ty)
  | typeParam (name : String)
  | typeVar (id : ℕ)
  | shape
  | assocProjection (param assoc : String)
  | existential (traitName : String)
  | refinement (name : String) (base : Ty)
  | error

inductive VariantTypeInfo where
  | unit
  | tuple (types : List Ty)
  | struct (fields : List (String × Ty))

def VariantTypeInfo.types : VariantTypeInfo → List Ty
  | .unit => []
  | .tuple types => types
  | .struct fields => fields.map (·.2)

structure EnumInfo where
  genericParams : List String
  variants : List (String × VariantTypeInfo)

def EnumInfo.variant (info : EnumInfo) (name : String) : Option VariantTypeInfo :=
  (info.variants.find? fun v => v.1 = name).map (·.2)

structure StructInfo where
  genericParams : List String
  fields : List (String × Ty)

inductive BinOp where
  | and | lt | ltEq | gt | gtEq | other
deriving DecidableEq, Repr

/-- The shapes of expression a refinement predicate is read for; everything else is `other`. -/
inductive PredExpr where
  | selfValue
  | integer (n : ℤ)
  | neg (operand : PredExpr)
  | identifier (name : String)
  | path (segments : List String)
  | binary (op : BinOp) (left right : PredExpr)
  | other

/-- The tables of the type environment that the checker reads. A name declares one kind of type, so
a distinct type is not at the same time an enum, a struct or the built-in `Vec`. -/
structure TypeEnv where
  enums : String → Option EnumInfo
  structs : String → Option StructInfo
  distinctBases : String → Option Ty
  refinementPredicates : String → Option PredExpr
  constValues : String → Option ℤ
  distinct_only : ∀ name, (distinctBases name).isSome →
    enums name = none ∧ structs name = none ∧ name ≠ "Vec"

def isOpenCollection (name : String) : Bool := name == "Vec"

/-! Substitution of generic parameters. -/

/-- Collecting the pairs into a map keeps the last entry of a name. -/
def lookupSubst (subs : List (String × Ty)) (name : String) : Option Ty := subs.reverse.lookup name

mutual

/-- `subst_type_params`: replaces parameters in the type forms that can carry them. -/
def substTypeParams (subs : List (String × Ty)) : Ty → Ty
  | .typeParam name => (lookupSubst subs name).getD (.typeParam name)
  | .named name args => .named name (substAll subs args)
  | .tuple elems => .tuple (substAll subs elems)
  | .rc inner => .rc (substTypeParams subs inner)
  | .arc inner => .arc (substTypeParams subs inner)
  | .ref inner => .ref (substTypeParams subs inner)
  | .mutRef inner => .mutRef (substTypeParams subs inner)
  | .slice element m => .slice (substTypeParams subs element) m
  | .array element size => .array (substTypeParams subs element) size
  | .vector element lanes => .vector (substTypeParams subs element) lanes
  | ty => ty

def substAll (subs : List (String × Ty)) : List Ty → List Ty
  | [] => []
  | ty :: tys => substTypeParams subs ty :: substAll subs tys

end

/-- The payload of a variant, with the enum's parameters replaced by the arguments. -/
def variantPayloadTypes (env : TypeEnv) (parentTy : Ty) (variantName : String) : List Ty :=
  match parentTy with
  | .named enumName args =>
    match env.enums enumName with
    | some info =>
      match info.variant variantName with
      | some vinfo =>
        if info.genericParams.isEmpty || args.isEmpty then vinfo.types
        else vinfo.types.map (substTypeParams (info.genericParams.zip args))
      | none => []
    | none => []
  | _ => []

/-! Integer domains. -/

def i128Min : ℤ := -2 ^ 127
def i128Max : ℤ := 2 ^ 127 - 1

def intSizeDomain : IntSize → Option (ℤ × ℤ)
  | .i8 => some (-2 ^ 7, 2 ^ 7 - 1)
  | .i16 => some (-2 ^ 15, 2 ^ 15 - 1)
  | .i32 => some (-2 ^ 31, 2 ^ 31 - 1)
  | .i64 => some (-2 ^ 63, 2 ^ 63 - 1)
  | .isize => some (-2 ^ 63, 2 ^ 63 - 1)
  | .i128 => none

def uintSizeDomain : UIntSize → Option (ℤ × ℤ)
  | .u8 => some (0, 2 ^ 8 - 1)
  | .u16 => some (0, 2 ^ 16 - 1)
  | .u32 => some (0, 2 ^ 32 - 1)
  | .u64 => some (0, 2 ^ 64 - 1)
  | .usize => some (0, 2 ^ 64 - 1)
  | .u128 => none

/-- The interval of an integer or `char` type, unless it does not fit `i128`. -/
def intDomain : Ty → Option (ℤ × ℤ)
  | .int size => intSizeDomain size
  | .uint size => uintSizeDomain size
  -- one contiguous interval, surrogates included
  | .char => some (0, 0x10FFFF)
  | _ => none

def maxRefinementFiniteDomain : ℤ := 1024

def isSelf : PredExpr → Bool
  | .selfValue => true
  | _ => false

def refinementConstInt (env : TypeEnv) : PredExpr → Option ℤ
  | .integer n => some n
  | .neg (.integer n) => if n = i128Min then none else some (-n)
  | .identifier name => env.constValues name
  | .path [name] => env.constValues name
  | _ => none

def flipComparison : BinOp → Option BinOp
  | .lt => some .gt
  | .ltEq => some .gtEq
  | .gt => some .lt
  | .gtEq => some .ltEq
  | _ => none

/-- `self op k` as an inclusive bound; the flag says that it is a lower one. -/
def orientedBound (op : BinOp) (k : ℤ) : Option (ℤ × Bool) :=
  match op with
  | .gtEq => some (k, true)
  | .gt => if k = i128Max then none else some (k + 1, true)
  | .ltEq => some (k, false)
  | .lt => if k = i128Min then none else some (k - 1, false)
  | _ => none

def comparisonBound (env : TypeEnv) (op : BinOp) (left right : PredExpr) : Option (ℤ × Bool) :=
  if isSelf left then (refinementConstInt env right).bind (orientedBound op)
  else if isSelf right then
    (flipComparison op).bind fun op => (refinementConstInt env left).bind (orientedBound op)
  else none

/-- Tighten the running bounds `(lo, hi)` by a conjunction of comparisons. -/
def collectRefinementBounds (env : TypeEnv) :
    PredExpr → Option ℤ × Option ℤ → Option (Option ℤ × Option ℤ)
  | .binary .and left right, b =>
    (collectRefinementBounds env left b).bind (collectRefinementBounds env right)
  | .binary op left right, (lo, hi) =>
    (comparisonBound env op left right).map fun p =>
      if p.2 then (some (lo.elim p.1 (max · p.1)), hi) else (lo, some (hi.elim p.1 (min · p.1)))
  | _, _ => none

def refinementPredBounds (env : TypeEnv) (expr : PredExpr) : Option (ℤ × ℤ) :=
  match collectRefinementBounds env expr (none, none) with
  | some (some lo, some hi) => some (lo, hi)
  | _ => none

/-- The name and base under which a type may carry a refinement predicate. -/
def refinementBase (env : TypeEnv) : Ty → Option (String × Ty)
  | .refinement name base => some (name, base)
  | .named name _ => (env.distinctBases name).map fun base => (name, base)
  | _ => none

def refinementFiniteDomain (env : TypeEnv) (ty : Ty) : Option (ℤ × ℤ) := do
  let (name, base) ← refinementBase env ty
  let (dmin, dmax) ← intDomain base
  let pred ← env.refinementPredicates name
  let (lo, hi) ← refinementPredBounds env pred
  let lo := max lo dmin
  let hi := min hi dmax
  if lo > hi ∨ hi - lo > maxRefinementFiniteDomain then none else some (lo, hi)

def effectiveIntDomain (env : TypeEnv) (ty : Ty) : Option (ℤ × ℤ) :=
  (refinementFiniteDomain env ty).or (intDomain ty)

end Karac.Exhaustive
