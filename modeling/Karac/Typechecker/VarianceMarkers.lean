import Karac.Typechecker.Compatible

/-! The check of the variance markers on a type declaration: each parameter marked `+` or `-` stands, in the
types of the fields and payloads, only where its marker allows. -/

namespace Karac.Typechecker

/-- What a type holds beside types, a constant, a shape or effects: its text and the names in it. -/
structure Embedded where
  text : String
  names : List String

mutual

inductive TypeExpr
  | path (segments : List String) (genericArgs : Option (List GenericArg))
  | tuple (elems : List TypeExpr)
  | array (element : TypeExpr) (size : Embedded)
  | pointer (isMut : Bool) (inner : TypeExpr)
  | fnType (params : List TypeExpr) (returnType : Option TypeExpr) (effectSpec : Option Embedded) (isOnce : Bool)
  | ref (inner : TypeExpr)
  | mutRef (inner : TypeExpr)
  | frozen (inner : TypeExpr)
  | mutSlice (inner : TypeExpr)
  | weak (inner : TypeExpr)
  | implTrait (traitPath : List String) (args : List GenericArg) (assocBindings : List AssocBinding)
    (useEffects : Option Embedded)
  | dyn (traitPath : List String) (args : List GenericArg) (assocBindings : List AssocBinding)
  | unit
  | error

inductive GenericArg
  | type (ty : TypeExpr)
  | const (value : Embedded)
  | shape (lit : Embedded)

inductive AssocBinding
  | mk (name : String) (ty : TypeExpr)

end

/-- A generic parameter; `marked` if a marker is written on it. -/
structure GenericParam where
  name : String
  isConst : Bool
  isVariadicShape : Bool
  variance : Variance
  marked : Bool

def GenericParam.isType (p : GenericParam) : Bool := !p.isConst && !p.isVariadicShape

structure StructField where
  name : String
  isMut : Bool
  ty : TypeExpr

inductive VariantKind
  | unit
  | tuple (payloads : List TypeExpr)
  | struct (fields : List StructField)

structure EnumVariant where
  name : String
  kind : VariantKind

structure StructDef where
  name : String
  genericParams : Option (List GenericParam)
  fields : List StructField

structure EnumDef where
  name : String
  genericParams : Option (List GenericParam)
  variants : List EnumVariant

def compose : Variance → Variance → Variance
  | .invariant, _ => .invariant
  | _, .invariant => .invariant
  | .covariant, .covariant => .covariant
  | .contravariant, .contravariant => .covariant
  | _, _ => .contravariant

def markerStr : Variance → String
  | .covariant => "+"
  | .contravariant => "-"
  | .invariant => "="

def varianceWord : Variance → String
  | .covariant => "covariant"
  | .contravariant => "contravariant"
  | .invariant => "invariant"

structure Occurrence where
  param : String
  polarity : Variance
  position : String

section

variable (table : StdlibVariance) (tracked : String → Option Variance) (position : String)

mutual

/-- The occurrences of the tracked parameters in a field or payload type, in the context it stands in. -/
def collectOccurrences (ctx : Variance) : TypeExpr → List Occurrence
  | .path segments none => match segments with
    | [name] => if (tracked name).isSome then [⟨name, ctx, position⟩] else []
    | _ => []
  | .path segments (some args) => collectArgs ctx (segments.getLast?.getD "") 0 args
  | .tuple elems => collectAll ctx elems
  | .array element _ => collectOccurrences .invariant element
  | .pointer isMut inner => collectOccurrences (if isMut then .invariant else ctx) inner
  | .fnType params returnType _ _ =>
    collectAll (compose ctx .contravariant) params ++ match returnType with
      | some rt => collectOccurrences ctx rt
      | none => []
  | .ref inner => collectOccurrences ctx inner
  | .frozen inner => collectOccurrences ctx inner
  | .mutRef inner => collectOccurrences .invariant inner
  | .mutSlice inner => collectOccurrences .invariant inner
  | .weak inner => collectOccurrences .invariant inner
  | .implTrait _ args assocBindings _ => collectTraitArgs args ++ collectBindings assocBindings
  | .dyn _ args assocBindings => collectTraitArgs args ++ collectBindings assocBindings
  | .unit => []
  | .error => []

/-- The type arguments of a named type, from slot `typeArgIdx` on. -/
def collectArgs (ctx : Variance) (name : String) (typeArgIdx : ℕ) : List GenericArg → List Occurrence
  | [] => []
  | .type ty :: args =>
    collectOccurrences (compose ctx (slotVariance table name typeArgIdx)) ty ++ collectArgs ctx name (typeArgIdx + 1) args
  | .const _ :: args => collectArgs ctx name typeArgIdx args
  | .shape _ :: args => collectArgs ctx name typeArgIdx args

def collectAll (ctx : Variance) : List TypeExpr → List Occurrence
  | [] => []
  | ty :: tys => collectOccurrences ctx ty ++ collectAll ctx tys

def collectTraitArgs : List GenericArg → List Occurrence
  | [] => []
  | .type ty :: args => collectOccurrences .invariant ty ++ collectTraitArgs args
  | .const _ :: args => collectTraitArgs args
  | .shape _ :: args => collectTraitArgs args

def collectBindings : List AssocBinding → List Occurrence
  | [] => []
  | .mk _ ty :: bindings => collectOccurrences .invariant ty ++ collectBindings bindings

end

end

/-- A type to walk: where it stands, the polarity of that place, and the type. -/
structure WalkEntry where
  position : String
  base : Variance
  ty : TypeExpr

def fieldPolarity (f : StructField) : Variance := if f.isMut then .invariant else .covariant

def structWalk (s : StructDef) : List WalkEntry := s.fields.map fun f => ⟨"field '" ++ f.name ++ "'", fieldPolarity f, f.ty⟩

def enumWalk (e : EnumDef) : List WalkEntry := e.variants.flatMap fun v => match v.kind with
  | .unit => []
  | .tuple payloads => payloads.map fun ty => ⟨"variant '" ++ v.name ++ "' payload", .covariant, ty⟩
  | .struct fields => fields.map fun f => ⟨"variant '" ++ v.name ++ "' field '" ++ f.name ++ "'", fieldPolarity f, f.ty⟩

inductive VarianceError
  | implicit (typeName param : String)
  | inconsistent (param : String) (declared occurs : Variance) (position typeName : String)

def VarianceError.message : VarianceError → String
  | .implicit typeName n =>
    "error[E_STDLIB_VARIANCE_IMPLICIT]: stdlib parametric type '" ++ typeName ++
      "' must declare explicit variance on parameter '" ++ n ++ "' — write '=" ++ n ++ "' for invariant, '+" ++ n ++
      "' for covariant, or '-" ++ n ++ "' for contravariant (design.md § Variance)"
  | .inconsistent p declared occurs position typeName =>
    "error[E_VARIANCE_DECLARATION_INCONSISTENT]: parameter '" ++ p ++ "' declared '" ++ markerStr declared ++ p ++ "' (" ++
      varianceWord declared ++ ") appears in " ++ varianceWord occurs ++ " position '" ++ position ++ "' inside type '" ++
      typeName ++ "'; declare the next-most-conservative variance instead: '=" ++ p ++ "'"

/-- The parameters that the check follows. -/
def trackedParams (params : List GenericParam) : List GenericParam :=
  params.filter fun p => p.isType && p.variance ≠ .invariant

/-- Of two parameters of one name the later one counts. -/
def trackedVariance (params : List GenericParam) (name : String) : Option Variance :=
  ((trackedParams params).reverse.find? fun p => p.name = name).map fun p => p.variance

def implicitErrors (typeName : String) (params : List GenericParam) : List VarianceError :=
  (params.filter fun p => p.isType && !p.marked).map fun p => .implicit typeName p.name

def inconsistentErrors (table : StdlibVariance) (typeName : String) (params : List GenericParam) (walk : List WalkEntry) :
    List VarianceError :=
  let occurrences := walk.flatMap fun w => collectOccurrences table (trackedVariance params) w.position w.base w.ty
  occurrences.filterMap fun occ => (trackedVariance params occ.param).bind fun declared =>
    if occ.polarity = declared then none else some (.inconsistent occ.param declared occ.polarity occ.position typeName)

def stdlibVarianceDeclErrors (table : StdlibVariance) (generics : Option (List GenericParam)) (typeName : String)
    (walk : List WalkEntry) : List VarianceError :=
  match generics with
  | none => []
  | some params =>
    let errors := implicitErrors typeName params
    if (trackedParams params).isEmpty then errors else errors ++ inconsistentErrors table typeName params walk

end Karac.Typechecker
