import Karac.Typechecker.Types

/-! When a value of one type flows into a slot of another: `types_compatible` and `is_subtype`. -/

namespace Karac.Typechecker

def Ty.stripRefinement : Ty → Ty
  | .refinement _ base => base.stripRefinement
  | t => t

/-- The storage of a numeric type: whether it is a float, and its width; the pointer-width integers and `bf16`
have keys of their own. -/
@[simp]
def numericLayoutKey : Ty → Option (Bool × ℕ)
  | .int .i8 => some (false, 8)
  | .int .i16 => some (false, 16)
  | .int .i32 => some (false, 32)
  | .int .i64 => some (false, 64)
  | .int .i128 => some (false, 128)
  | .int .isize => some (false, 1)
  | .uint .u8 => some (false, 8)
  | .uint .u16 => some (false, 16)
  | .uint .u32 => some (false, 32)
  | .uint .u64 => some (false, 64)
  | .uint .u128 => some (false, 128)
  | .uint .usize => some (false, 1)
  | .float .f16 => some (true, 16)
  | .float .bf16 => some (true, 17)
  | .float .f32 => some (true, 32)
  | .float .f64 => some (true, 64)
  | _ => none

namespace Ty

@[simp]
def isNumeric (t : Ty) : Bool := (numericLayoutKey t).isSome

@[simp]
def isTypeParam : Ty → Bool
  | .typeParam _ => true
  | _ => false

/-- `ref` or `mut ref` of a type parameter. -/
@[simp]
def isParamBorrow : Ty → Bool
  | .ref inner => inner.isTypeParam
  | .mutRef inner => inner.isTypeParam
  | _ => false

@[simp]
def isExistential : Ty → Bool
  | .existential .. => true
  | _ => false

@[simp]
def origin : Ty → Option ℕ
  | .existential _ _ _ origin _ => some origin
  | _ => none

@[simp]
def isProjection : Ty → Bool
  | .assocProjection .. => true
  | _ => false

@[simp]
def isBorrow : Ty → Bool
  | .ref _ => true
  | .mutRef _ => true
  | _ => false

theorem sizeOf_stripRefinement_le (t : Ty) : sizeOf t.stripRefinement ≤ sizeOf t := by
  fun_induction stripRefinement t with
  | case1 name base ih =>
    have h : sizeOf (refinement name base) = 1 + sizeOf name + sizeOf base := rfl
    omega
  | case2 t ht => exact le_rfl

end Ty

/-- A lone dim against another: `?` and anything unresolved match every dim. -/
def dimsMatch : DimArg → DimArg → Bool
  | .const (.literal a), .const (.literal b) => a = b
  | _, _ => true

def hasSplice (dims : List DimArg) : Bool := dims.any fun
  | .splice _ => true
  | .spliceVar _ => true
  | _ => false

def shapesCompatible (xd yd : List DimArg) : Bool :=
  if hasSplice xd || hasSplice yd then true
  else xd.length = yd.length && (xd.zip yd).all fun p => dimsMatch p.1 p.2

/-- The declared variance of a parameter of a named type; every other one is invariant. -/
abbrev StdlibVariance := String → Option (List Variance)

def slotVariance (table : StdlibVariance) (name : String) (i : ℕ) : Variance :=
  ((table name).bind fun v => v[i]?).getD .invariant

/-- Two numeric types of different layout: never interchangeable as generic arguments. -/
def layoutsDiffer (a b : Ty) : Bool :=
  match numericLayoutKey a, numericLayoutKey b with
  | some ka, some kb => ka ≠ kb
  | _, _ => false

section

variable (table : StdlibVariance)

mutual

/-- `types_compatible(a, b)`: `a` is the slot. -/
def typesCompatible (a b : Ty) : Bool :=
  if a = b then true
  else if a = .error || b = .error then true
  else if a = .never || b = .never then true
  else if a.isExistential || b.isExistential then a.isExistential && b.isExistential && a.origin = b.origin
  else if (a.isParamBorrow && b.isTypeParam) || (a.isTypeParam && b.isParamBorrow) then false
  else if a.isTypeParam || b.isTypeParam then true
  else if a.isNumeric && b.isNumeric then true
  else match a, b with
    | .shape xd, .shape yd => shapesCompatible xd yd
    | .assocProjection ap aa aas ar, .assocProjection bp ba bas br =>
      ap = bp && aa = ba && allCompatible aas bas && allCompatible ar br
    | .assocProjection .., _ => false
    | _, .assocProjection .. => false
    | .tuple xs, .tuple ys => allCompatible xs ys
    | .named n xs, .named m ys => n = m && argsCompatible n 0 xs ys
    | .ref x, .ref y => typesCompatible x y
    | .mutRef x, .mutRef y => genericArgCompatible .invariant x y
    | .mutRef _, .ref _ => false
    | .mutRef x, sub => genericArgCompatible .invariant x sub
    | .pointer true x, .pointer true y => genericArgCompatible .invariant x y
    | .pointer false x, .pointer false y => typesCompatible x y
    | .array x n, .array y m => n = m && genericArgCompatible .invariant x y
    | .slice x m, .slice y m' => (!m || m') && genericArgCompatible .invariant x y
    | .slice x _, .array y _ => genericArgCompatible .invariant x y
    | .slice x _, .named n [y] => n = "Vec" && genericArgCompatible .invariant x y
    | .slice x false, .ref (.named n [y]) => n = "Vec" && genericArgCompatible .invariant x y
    | .slice x false, .ref (.array y _) => genericArgCompatible .invariant x y
    | .slice x false, .ref (.slice y _) => genericArgCompatible .invariant x y
    | .slice x true, .mutRef (.named n [y]) => n = "Vec" && genericArgCompatible .invariant x y
    | .slice x true, .mutRef (.array y _) => genericArgCompatible .invariant x y
    | .slice x true, .mutRef (.slice y true) => genericArgCompatible .invariant x y
    | .function ps r, .function qs r' => allCompatible qs ps && typesCompatible r r'
    | .onceFunction ps r, .onceFunction qs r' => allCompatible qs ps && typesCompatible r r'
    | .refinement _ _, _ => false
    | a, .refinement _ base => typesCompatible a base.stripRefinement
    | .shared n, .shared m => n = m
    | .rc x, .rc y => genericArgCompatible .invariant x y
    | .arc x, .arc y => genericArgCompatible .invariant x y
    | _, _ => false
termination_by (sizeOf a + sizeOf b, 0)
decreasing_by
  all_goals first
    | (apply Prod.Lex.left; simp +arith; done)
    | (have h := Ty.sizeOf_stripRefinement_le base; apply Prod.Lex.left; simp +arith; omega)

def genericArgCompatible (variance : Variance) (a b : Ty) : Bool :=
  if layoutsDiffer a b then false
  else match variance with
    | .covariant => typesCompatible a b
    | .contravariant => typesCompatible b a
    | .invariant => typesCompatible a b && typesCompatible b a
termination_by (sizeOf a + sizeOf b, 1)
decreasing_by all_goals omega

/-- Lists of the same length, compatible one by one. -/
def allCompatible (as bs : List Ty) : Bool :=
  match as, bs with
  | [], [] => true
  | a :: as, b :: bs => typesCompatible a b && allCompatible as bs
  | _, _ => false
termination_by (sizeOf as + sizeOf bs, 0)
decreasing_by all_goals (simp_wf; omega)

/-- The arguments of a named type from parameter `i` on, each under the variance of its parameter. -/
def argsCompatible (name : String) (i : ℕ) (as bs : List Ty) : Bool :=
  match as, bs with
  | [], [] => true
  | a :: as, b :: bs =>
    genericArgCompatible (slotVariance table name i) a b && argsCompatible name (i + 1) as bs
  | _, _ => false
termination_by (sizeOf as + sizeOf bs, 0)
decreasing_by all_goals (simp_wf; omega)

end

mutual

/-- `is_subtype(super_ty, sub_ty)`. -/
def isSubtype (superTy subTy : Ty) : Bool :=
  if superTy = subTy then true
  else match superTy, subTy with
    | .function sp sr, .function bp br => allSubtypes bp sp && isSubtype sr br
    | .onceFunction sp sr, .onceFunction bp br => allSubtypes bp sp && isSubtype sr br
    | .onceFunction sp sr, .function bp br => allSubtypes bp sp && isSubtype sr br
    | .ref s, .ref b => isSubtype s b
    | .ref s, .mutRef b => isSubtype s b
    | .mutRef s, .mutRef b => isSubtype s b && isSubtype b s
    | .ref inner, sub => isSubtype inner sub
    | .mutRef inner, .ref b => typesCompatible table (.mutRef inner) (.ref b)
    | .mutRef inner, sub => isSubtype inner sub && isSubtype sub inner
    | superTy, subTy => typesCompatible table superTy subTy
termination_by sizeOf superTy + sizeOf subTy
decreasing_by all_goals (simp_wf; try omega)

def allSubtypes (as bs : List Ty) : Bool :=
  match as, bs with
  | [], [] => true
  | a :: as, b :: bs => isSubtype a b && allSubtypes as bs
  | _, _ => false
termination_by sizeOf as + sizeOf bs
decreasing_by all_goals (simp_wf; try omega)

end

end

end Karac.Typechecker
