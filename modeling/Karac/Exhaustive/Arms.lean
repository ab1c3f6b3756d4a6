import Karac.Exhaustive.Lowering

/-! Well-formed match arms, and what the lowering has to see of them: a name that tests for a
payload-free variant, and a slice pattern, must stand where the lowering's own type shows the enum or
the collection. -/

namespace Karac.Exhaustive

variable {env : TypeEnv} {scope : Scope}

/-! Well-formed arms. -/

def peelRef : Ty → Ty
  | .ref inner => peelRef inner
  | .mutRef inner => peelRef inner
  | ty => ty

/-- `P` holds of the type below refinements and distinct wrappers. -/
inductive BaseIs (env : TypeEnv) (P : Ty → Prop) : Ty → Prop
  | base {ty : Ty} (h : P ty) : BaseIs env P ty
  | refinement {name : String} {base : Ty} (h : BaseIs env P base) : BaseIs env P (.refinement name base)
  | distinct {name : String} {args : List Ty} {base : Ty} (hbase : env.distinctBases name = some base)
      (h : BaseIs env P base) : BaseIs env P (.named name args)

def IntTyped (env : TypeEnv) : Ty → Prop := BaseIs env fun ty => (∃ s, ty = .int s) ∨ ∃ s, ty = .uint s

def CharTyped (env : TypeEnv) : Ty → Prop := BaseIs env fun ty => ty = .char

/-- The payload of a tuple variant at the type. -/
def actualPayload (env : TypeEnv) (ty : Ty) (name : String) : Option (List Ty) :=
  match peelRef ty with
  | .named n args =>
    match (env.enums n).bind fun info => info.variant name with
    | some (.tuple _) => some (variantPayloadTypes env (.named n args) name)
    | _ => none
  | _ => none

/-- The fields, with their substituted types, that a struct pattern of that name reads. -/
def actualDecls (env : TypeEnv) (ty : Ty) (name : String) : Option (List (String × Ty)) :=
  match peelRef ty with
  | .named n args =>
    match env.enums n with
    | some info =>
      match info.variant name with
      | some (.struct decls) => some ((decls.map (·.1)).zip (variantPayloadTypes env (.named n args) name))
      | _ => none
    | none =>
      if isOpenCollection n then none
      else if n = name then
        (env.structs n).map fun info => (info.fields.map (·.1)).zip (structFieldTypes info args)
      else none
  | .shared n => if n = name then (env.structs n).map (·.fields) else none
  | _ => none

def actualElems (ty : Ty) : Option (List Ty) :=
  match peelRef ty with
  | .tuple elems => some elems
  | .unit => some []
  | _ => none

def actualElement (env : TypeEnv) (ty : Ty) : Option Ty :=
  match peelRef ty with
  | .array element _ => some element
  | .slice element _ => some element
  | .named n args => if isOpenCollection n && (env.enums n).isNone then some (args.headD .unit) else none
  | _ => none

def boundResolves (env : TypeEnv) (b : Option RangeBound) : Prop :=
  ∀ r, b = some r → (rangeBoundToI128 env r).isSome = true

mutual

/-- The arm is well formed for the type: literals of the type's kind, range bounds that resolve,
variants, structs and tuples with their own arity and field names. -/
def Checked (env : TypeEnv) : Pattern → Ty → Prop
  | .wildcard, _ => True
  | .binding _, _ => True
  | .literal (.integer _ _), ty => IntTyped env ty
  | .literal (.char _), ty => CharTyped env ty
  | .literal _, _ => True
  | .rangePattern start stop _, _ => boundResolves env start ∧ boundResolves env stop
  | .atBinding _ pattern, ty => Checked env pattern ty
  | .struct path fields, ty => (fields.map (·.1)).Nodup ∧
      ∃ decls, actualDecls env ty (path.getLastD "") = some decls ∧ CheckedFields env fields decls
  | .tupleVariant path patterns, ty =>
      ∃ tys, actualPayload env ty (path.getLastD "") = some tys ∧ CheckedAll env patterns tys
  | .tuple patterns, ty => ∃ tys, actualElems ty = some tys ∧ CheckedAll env patterns tys
  | .or alts, ty => CheckedEach env alts ty
  | .slice front _ back, ty =>
      ∃ element, actualElement env ty = some element ∧ CheckedEach env front element ∧
        CheckedEach env back element

def CheckedAll (env : TypeEnv) : List Pattern → List Ty → Prop
  | [], tys => tys = []
  | p :: ps, tys => ∃ ty rest, tys = ty :: rest ∧ Checked env p ty ∧ CheckedAll env ps rest

def CheckedEach (env : TypeEnv) : List Pattern → Ty → Prop
  | [], _ => True
  | p :: ps, ty => Checked env p ty ∧ CheckedEach env ps ty

def CheckedFields (env : TypeEnv) : List (String × Option Pattern) → List (String × Ty) → Prop
  | [], _ => True
  | (n, some p) :: rest, decls =>
      (n ∈ decls.map (·.1) ∧ ∀ d ∈ decls, d.1 = n → Checked env p d.2) ∧ CheckedFields env rest decls
  | (n, none) :: rest, decls => n ∈ decls.map (·.1) ∧ CheckedFields env rest decls

end

/-! What the lowering has to see. -/

/-- The name is a binding for every value. -/
def PlainName (env : TypeEnv) (scope : Scope) (name : String) : Prop :=
  isDotted name = false ∧ (startsUppercase scope (lastSegment name) = false ∨
    (scope.unitVariant (lastSegment name) = false ∧ ∀ e, declaredUnit env e (lastSegment name) = false))

mutual

/-- Every name that the lowering does not resolve to a variant is a plain binding, a resolved one has
no payload, and every slice pattern meets a type it can be lowered against. -/
def LoweringSees (env : TypeEnv) (scope : Scope) : Pattern → Ty → Prop
  | .wildcard, _ => True
  | .binding name, ty =>
      (isVariantOf env ty (lastSegment name) = true ∧ variantPayloadTypes env ty (lastSegment name) = []) ∨
      (isVariantOf env ty (lastSegment name) = false ∧ PlainName env scope name)
  | .literal _, _ => True
  | .rangePattern _ _ _, _ => True
  | .atBinding _ pattern, ty => LoweringSees env scope pattern ty
  | .struct path fields, ty => SeesFields env scope fields (structPatternDecls env ty (path.getLastD "")).2
  | .tupleVariant path patterns, ty =>
      SeesAll env scope patterns (variantPayloadTypes env ty (path.getLastD ""))
  | .tuple patterns, ty => SeesAll env scope patterns (tupleElems ty)
  | .or alts, ty => SeesEach env scope alts ty
  | .slice front hasRest back, ty =>
      match sliceShape ty front.length hasRest back.length with
      | .array element _ => SeesEach env scope front element ∧ SeesEach env scope back element
      | .openEnded element => SeesEach env scope front element ∧ SeesEach env scope back element
      | .rejected => False

def SeesAll (env : TypeEnv) (scope : Scope) : List Pattern → List Ty → Prop
  | [], _ => True
  | p :: ps, tys => LoweringSees env scope p (tys.headD .unit) ∧ SeesAll env scope ps tys.tail

def SeesEach (env : TypeEnv) (scope : Scope) : List Pattern → Ty → Prop
  | [], _ => True
  | p :: ps, ty => LoweringSees env scope p ty ∧ SeesEach env scope ps ty

def SeesFields (env : TypeEnv) (scope : Scope) : List (String × Option Pattern) → List (String × Ty) → Prop
  | [], _ => True
  | (n, some p) :: rest, decls => (∀ d ∈ decls, d.1 = n → LoweringSees env scope p d.2) ∧
      SeesFields env scope rest decls
  | (_, none) :: rest, decls => SeesFields env scope rest decls

end

/-! Where the rest of a slice pattern stands. -/

mutual

/-- A slice pattern with a rest that is lowered to the number of its fixed elements has as many of them before the
rest as `split` says, where it says anything. -/
def SplitSees (env : TypeEnv) (split : ℕ → Option ℕ) : Pattern → Ty → Prop
  | .wildcard, _ => True
  | .binding _, _ => True
  | .literal _, _ => True
  | .rangePattern _ _ _, _ => True
  | .atBinding _ pattern, ty => SplitSees env split pattern ty
  | .struct path fields, ty => SplitFields env split fields (structPatternDecls env ty (path.getLastD "")).2
  | .tupleVariant path patterns, ty =>
      SplitAll env split patterns (variantPayloadTypes env ty (path.getLastD ""))
  | .tuple patterns, ty => SplitAll env split patterns (tupleElems ty)
  | .or alts, ty => SplitEach env split alts ty
  | .slice front hasRest back, ty =>
      match sliceShape ty front.length hasRest back.length with
      | .array element _ => SplitEach env split front element ∧ SplitEach env split back element
      | .openEnded element =>
          (hasRest = true → (split (front.length + back.length)).getD front.length = front.length) ∧
            SplitEach env split front element ∧ SplitEach env split back element
      | .rejected => True

def SplitAll (env : TypeEnv) (split : ℕ → Option ℕ) : List Pattern → List Ty → Prop
  | [], _ => True
  | p :: ps, tys => SplitSees env split p (tys.headD .unit) ∧ SplitAll env split ps tys.tail

def SplitEach (env : TypeEnv) (split : ℕ → Option ℕ) : List Pattern → Ty → Prop
  | [], _ => True
  | p :: ps, ty => SplitSees env split p ty ∧ SplitEach env split ps ty

def SplitFields (env : TypeEnv) (split : ℕ → Option ℕ) :
    List (String × Option Pattern) → List (String × Ty) → Prop
  | [], _ => True
  | (n, some p) :: rest, decls =>
      (∀ d ∈ decls, d.1 = n → SplitSees env split p d.2) ∧ SplitFields env split rest decls
  | (_, none) :: rest, decls => SplitFields env split rest decls

end

/-! Values below a borrow. -/

theorem HasType.peel {v : Value} : ∀ {ty : Ty}, HasType env v ty → HasType env v (peelRef ty) := by
  intro ty h
  induction ty using peelRef.induct with
  | case1 inner ih =>
    cases h with
    | ref h => exact ih h
    | int hty => exact absurd hty (by simp [intRangeOf])
    | opaqueTyped h => simp [opaqueTy] at h
  | case2 inner ih =>
    cases h with
    | mutRef h => exact ih h
    | int hty => exact absurd hty (by simp [intRangeOf])
    | opaqueTyped h => simp [opaqueTy] at h
  | case3 ty h1 h2 =>
    rw [peelRef]
    · exact h
    · exact h1
    · exact h2

theorem BaseIs.value {P : Ty → Prop} {v : Value} {ty : Ty} (ht : BaseIs env P ty) (h : HasType env v ty) :
    ∃ base, P base ∧ HasType env v base := by
  induction ht with
  | base hbase => exact ⟨_, hbase, h⟩
  | refinement _ ih => exact ih h.of_refinement.1
  | distinct hbase _ ih => exact ih (h.of_distinct hbase).1

theorem IntTyped.value {v : Value} {ty : Ty} {x : ℤ} (ht : IntTyped env ty) (h : HasType env v ty)
    (hx : scalarKey v = some x) : v = .int x := by
  obtain ⟨base, hbase, h⟩ := BaseIs.value ht h
  rcases hbase with ⟨s, rfl⟩ | ⟨s, rfl⟩
  · cases h with
    | int => rw [Option.some.inj hx]
    | opaqueTyped h => simp [opaqueTy] at h
  · cases h with
    | int => rw [Option.some.inj hx]
    | opaqueTyped h => simp [opaqueTy] at h

theorem CharTyped.value {v : Value} {ty : Ty} {x : ℤ} (ht : CharTyped env ty) (h : HasType env v ty)
    (hx : scalarKey v = some x) : v = .char x := by
  obtain ⟨base, rfl, h⟩ := BaseIs.value ht h
  cases h with
  | int hty => exact absurd hty (by simp [intRangeOf])
  | char => rw [Option.some.inj hx]
  | opaqueTyped h => simp [opaqueTy] at h

end Karac.Exhaustive
