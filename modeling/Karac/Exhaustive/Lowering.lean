import Karac.Exhaustive.Soundness

/-! Surface patterns, their lowering, the matcher of the interpreter, and `check_match_exhaustive`.
The lowering carries a type along with the pattern and reads a bare name as a variant, and a slice
pattern as refutable, only when that type shows it. Declared field types of structs and struct
variants are not substituted on the way, so this can fail below a generic struct. -/

namespace Karac.Exhaustive

inductive IntSuffix where
  | i8 | i16 | i32 | i64 | i128 | u8 | u16 | u32 | u64 | u128 | usize
deriving DecidableEq, Repr

inductive LiteralPattern where
  | integer (n : ℤ) (sfx : Option IntSuffix)
  | float (bits : ℕ)
  | char (code : ℤ)
  | string (s : String)
  | bool (b : Bool)

inductive RangeBound where
  | literal (l : LiteralPattern)
  | path (segments : List String)

inductive Pattern where
  | wildcard
  | binding (name : String)
  | literal (lit : LiteralPattern)
  | rangePattern (start stop : Option RangeBound) (inclusive : Bool)
  | atBinding (name : String) (pattern : Pattern)
  | struct (path : List String) (fields : List (String × Option Pattern))
  | tupleVariant (path : List String) (patterns : List Pattern)
  | tuple (patterns : List Pattern)
  | or (alts : List Pattern)
  | slice (front : List Pattern) (hasRest : Bool) (back : List Pattern)

structure MatchArm where
  pattern : Pattern
  hasGuard : Bool

/-- The value a pattern literal denotes: the top half of an unsigned type is written wrapped. -/
def unwrappedLiteralValue (n : ℤ) (sfx : Option IntSuffix) : ℤ :=
  match sfx with
  | some .u8 => if n < 0 then n % 2 ^ 64 else n
  | some .u16 => if n < 0 then n % 2 ^ 64 else n
  | some .u32 => if n < 0 then n % 2 ^ 64 else n
  | some .u64 => if n < 0 then n % 2 ^ 64 else n
  | some .usize => if n < 0 then n % 2 ^ 64 else n
  | _ => n

def litToI128 : LiteralPattern → Option ℤ
  | .integer n sfx => some (unwrappedLiteralValue n sfx)
  | .char code => some code
  | _ => none

def rangeBoundToI128 (env : TypeEnv) : RangeBound → Option ℤ
  | .literal l => litToI128 l
  | .path [name] => env.constValues name
  | .path _ => none

/-- The part of a name after its last dot. -/
def lastSegment (name : String) : String :=
  String.ofList (name.toList.reverse.takeWhile (· ≠ '.')).reverse

/-- Is `name` a variant of the enum `ty`? -/
def isVariantOf (env : TypeEnv) (ty : Ty) (name : String) : Bool :=
  match ty with
  | .named typeName _ =>
    match env.enums typeName with
    | some info => info.variants.any fun v => v.1 = name
    | none => false
  | _ => false

/-- The fields a struct pattern is lowered against: those of a struct variant of the enum `ty`, or
else of the struct of that name. -/
def structPatternDecls (env : TypeEnv) (ty : Ty) (name : String) : PatCtor × List (String × Ty) :=
  let plain : PatCtor × List (String × Ty) :=
    (.struct name, ((env.structs name).map (·.fields)).getD [])
  match ty with
  | .named typeName _ =>
    match (env.enums typeName).bind fun info => info.variant name with
    | some (.struct decls) => (.variant name, decls)
    | some _ => (.variant name, [])
    | none => plain
  | _ => plain

/-- The column types a tuple pattern is lowered against. -/
def tupleElems : Ty → List Ty
  | .tuple elems => elems
  | _ => []

/-- What a slice pattern is lowered to: an array of known size, an open collection, or nothing. -/
inductive SliceShape where
  | array (element : Ty) (n : ℕ)
  | openEnded (element : Ty)
  | rejected

/-- The one borrow a slice pattern is lowered through. -/
def stripBorrow : Ty → Ty
  | .ref inner => inner
  | .mutRef inner => inner
  | other => other

def sliceShape (ty : Ty) (front : ℕ) (hasRest : Bool) (back : ℕ) : SliceShape :=
  match stripBorrow ty with
  | .array element size =>
    match size.asUsize with
    | some n =>
      if front + back > n then .rejected
      else if !hasRest && decide (front + back ≠ n) then .rejected
      else .array element n
    | none => .rejected
  | .slice element _ => .openEnded element
  | .named name args => if isOpenCollection name then .openEnded (args.headD .unit) else .rejected
  | _ => .rejected

mutual

def lowerPattern (env : TypeEnv) : Pattern → Ty → Pat
  | .wildcard, _ => .wildcard
  | .binding name, ty =>
    if isVariantOf env ty (lastSegment name) then .ctor (.variant (lastSegment name)) [] else .wildcard
  | .literal (.bool b), _ => .ctor (.bool b) []
  | .literal (.integer n sfx), _ =>
    .ctor (.intRange (unwrappedLiteralValue n sfx) (unwrappedLiteralValue n sfx)) []
  | .literal (.char code), _ => .ctor (.intRange code code) []
  | .literal (.string s), _ => .ctor (.lit (.string s)) []
  | .literal (.float bits), _ => .ctor (.lit (.float bits)) []
  | .rangePattern start stop inclusive, ty =>
    let d := (effectiveIntDomain env ty).getD (i128Min, i128Max)
    let lo := (start.bind (rangeBoundToI128 env)).getD d.1
    let hi := ((stop.bind (rangeBoundToI128 env)).map fun v => if inclusive then v else v - 1).getD d.2
    .ctor (.intRange lo hi) []
  | .tupleVariant path patterns, ty =>
    let name := path.getLastD ""
    .ctor (.variant name) (lowerPatterns env patterns (variantPayloadTypes env ty name))
  | .struct path fields, ty =>
    let target := structPatternDecls env ty (path.getLastD "")
    .ctor target.1 (target.2.map fun d => lowerField env fields d.1 d.2)
  | .tuple patterns, ty =>
    .ctor .tuple (lowerPatterns env patterns (tupleElems ty))
  | .atBinding _ pattern, ty => lowerPattern env pattern ty
  | .or alts, ty => .or (lowerEach env alts ty)
  | .slice front hasRest back, ty =>
    match sliceShape ty front.length hasRest back.length with
    | .array element n =>
      .ctor (.array n) (lowerEach env front element ++
        List.replicate (n - front.length - back.length) .wildcard ++ lowerEach env back element)
    | .openEnded element =>
      .ctor (.sliceLen (front.length + back.length) hasRest)
        (lowerEach env front element ++ lowerEach env back element)
    | .rejected => .wildcard

/-- Patterns against a list of types, which is extended by `Unit` when it is too short. -/
def lowerPatterns (env : TypeEnv) : List Pattern → List Ty → List Pat
  | [], _ => []
  | p :: ps, tys => lowerPattern env p (tys.headD .unit) :: lowerPatterns env ps tys.tail

def lowerEach (env : TypeEnv) : List Pattern → Ty → List Pat
  | [], _ => []
  | p :: ps, ty => lowerPattern env p ty :: lowerEach env ps ty

/-- The pattern of the first field of that name; a missing or shorthand field is a wildcard. -/
def lowerField (env : TypeEnv) : List (String × Option Pattern) → String → Ty → Pat
  | [], _, _ => .wildcard
  | (n, some p) :: rest, fname, fty =>
    if n = fname then lowerPattern env p fty else lowerField env rest fname fty
  | (n, none) :: rest, fname, fty => if n = fname then .wildcard else lowerField env rest fname fty

end

/-! The checker. -/

inductive ExhaustiveResult where
  | exhaustive
  /-- The missing pattern, from which the message is rendered. -/
  | nonExhaustive (witness : Pat)
  | skipped

def isHandledScrutinee : Ty → Bool
  | .function _ _ => false
  | .onceFunction _ _ => false
  | .typeParam _ => false
  | .typeVar _ => false
  | .assocProjection _ _ => false
  | .error => false
  | .unit => false
  | .ref _ => false
  | .mutRef _ => false
  | .weak _ => false
  | .pointer _ _ => false
  | _ => true

def isOpenSliceScrutinee : Ty → Bool
  | .slice _ _ => true
  | .named name _ => isOpenCollection name
  | _ => false

def buildMatrix (env : TypeEnv) (arms : List MatchArm) (scrutType : Ty) : Matrix :=
  (arms.filter fun arm => !arm.hasGuard).map fun arm => [lowerPattern env arm.pattern scrutType]

/-- The length classes the irrefutable slice patterns of a matrix contribute: the rows that are
catch-alls, the least open one and the closed ones. -/
structure LengthClasses where
  catchAll : Bool := false
  openMin : Option ℕ := none
  closedLens : List ℕ := []

def addLengthClass (acc : LengthClasses) (row : Row) : LengthClasses :=
  match row with
  | .wildcard :: _ => { acc with catchAll := true }
  | .ctor (.sliceLen fixed hasRest) args :: _ =>
    if args.all isWildcard then
      if hasRest then { acc with openMin := some (acc.openMin.elim fixed (min · fixed)) }
      else { acc with closedLens := fixed :: acc.closedLens }
    else acc
  | _ => acc

/-- The source returns at the first catch-all; what is collected before it does not matter then. -/
def slicePatternsCoverAllLengths (m : Matrix) : Bool :=
  let classes := m.foldl addLengthClass {}
  classes.catchAll || match classes.openMin with
    | some n => (List.range n).all fun l => classes.closedLens.contains l
    | none => false

def checkMatchExhaustive (env : TypeEnv) (scrutineeType : Ty) (arms : List MatchArm) : ExhaustiveResult :=
  if !isHandledScrutinee scrutineeType then .skipped
  else
    let matrix := buildMatrix env arms scrutineeType
    if isOpenSliceScrutinee scrutineeType && slicePatternsCoverAllLengths matrix then .exhaustive
    else match usefulness env matrix [.wildcard] [scrutineeType] with
      | none => .exhaustive
      | some witness => .nonExhaustive (witness.headD .wildcard)

/-! The matcher of the interpreter. -/

/-- What the matcher reads besides the declarations: the names bound to a payload-free variant in
scope, and the character classification. -/
structure Scope where
  unitVariant : String → Bool
  isUppercase : Char → Bool

def isDotted (name : String) : Bool := name.toList.any fun c => c = '.'

def startsUppercase (scope : Scope) (name : String) : Bool :=
  match name.toList with
  | c :: _ => scope.isUppercase c
  | [] => false

/-- The variant carries no payload according to its declaration. -/
def declaredUnit (env : TypeEnv) (enumName variant : String) : Bool :=
  match (env.enums enumName).bind fun info => info.variant variant with
  | some vinfo => vinfo.types.isEmpty
  | none => false

/-- Whether a name pattern is a unit-variant test rather than a binding. -/
def bindingIsUnitVariant (env : TypeEnv) (scope : Scope) (name : String) (v : Value) : Bool :=
  if isDotted name then true
  else if !startsUppercase scope (lastSegment name) then false
  else if scope.unitVariant (lastSegment name) then true
  else match v with
    | .variant enumName _ _ _ => declaredUnit env enumName (lastSegment name)
    | _ => false

def literalMatches : LiteralPattern → Value → Bool
  | .integer n sfx, .int x => decide (unwrappedLiteralValue n sfx = x)
  | .float bits, .float b => floatEq bits b
  | .char code, .char c => decide (code = c)
  | .string s, .str t => decide (s = t)
  | .bool b, .bool c => decide (b = c)
  | _, _ => false

def valueInRangePattern (env : TypeEnv) (v : Value) (start stop : Option RangeBound) (inclusive : Bool) : Bool :=
  match scalarKey v with
  | none => false
  | some key =>
    (match start with
      | none => true
      | some b => match rangeBoundToI128 env b with
        | none => false
        | some lo => decide (lo ≤ key)) &&
    (match stop with
      | none => true
      | some b => match rangeBoundToI128 env b with
        | none => false
        | some hi => if inclusive then decide (key ≤ hi) else decide (key < hi))

def fieldValue (names : List String) (fields : List Value) (name : String) : Option Value :=
  (names.zip fields).lookup name

mutual

def tryMatchPattern (env : TypeEnv) (scope : Scope) : Pattern → Value → Bool
  | .wildcard, _ => true
  | .binding name, v =>
    if bindingIsUnitVariant env scope name v then
      match v with
      | .variant _ variant _ _ => decide (lastSegment name = variant)
      | _ => false
    else true
  | .literal lit, v => literalMatches lit v
  | .rangePattern start stop inclusive, v => valueInRangePattern env v start stop inclusive
  | .tupleVariant path patterns, v =>
    match v with
    | .variant _ variant .tuple vals =>
      decide (variant = path.getLastD "") && decide (patterns.length = vals.length) &&
        matchAll env scope patterns vals
    | _ => false
  | .struct path fields, v =>
    match v with
    | .struct name names vals => decide (name = path.getLastD "") && matchFields env scope fields names vals
    | .variant _ variant (.struct names) vals =>
      decide (variant = path.getLastD "") && matchFields env scope fields names vals
    | _ => false
  | .tuple patterns, v =>
    match v with
    | .tuple vals => decide (patterns.length = vals.length) && matchAll env scope patterns vals
    | _ => false
  | .or alts, v => matchAny env scope alts v
  | .atBinding _ pattern, v => tryMatchPattern env scope pattern v
  | .slice front hasRest back, v =>
    match v with
    | .seq vals =>
      (if hasRest then decide (front.length + back.length ≤ vals.length)
        else decide (vals.length = front.length + back.length)) &&
      matchAll env scope front vals && matchAll env scope back (vals.drop (vals.length - back.length))
    | _ => false

/-- Patterns against the values they are zipped with. -/
def matchAll (env : TypeEnv) (scope : Scope) : List Pattern → List Value → Bool
  | p :: ps, v :: vs => tryMatchPattern env scope p v && matchAll env scope ps vs
  | _, _ => true

def matchAny (env : TypeEnv) (scope : Scope) : List Pattern → Value → Bool
  | [], _ => false
  | p :: ps, v => tryMatchPattern env scope p v || matchAny env scope ps v

def matchFields (env : TypeEnv) (scope : Scope) :
    List (String × Option Pattern) → List String → List Value → Bool
  | [], _, _ => true
  | (n, some p) :: rest, names, vals =>
    (match fieldValue names vals n with
      | some v => tryMatchPattern env scope p v
      | none => false) && matchFields env scope rest names vals
  | (n, none) :: rest, names, vals =>
    (fieldValue names vals n).isSome && matchFields env scope rest names vals

end

end Karac.Exhaustive
