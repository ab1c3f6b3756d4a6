import Karac.Lib.Polarity
import Karac.Typechecker.VarianceMarkers

/-! What the variance markers promise: to put a larger type for a `+` parameter, or a smaller one for a `-`
parameter, makes the types of the fields larger, and leaves those of the mutable fields as they were. Types are
terms over their constructors; a preorder of types is any model of them. -/

namespace Karac.Typechecker

open Lib.Places

/-- The constructors of types. A list of arguments has `none` for each that is a type. -/
inductive TypeNode
  | named (path : List String) (args : List (Option Embedded))
  | projection (assoc : String) (args : List (Option Embedded))
  | tuple
  | array (size : Embedded)
  | pointer (isMut : Bool)
  | fnType (arity : ℕ) (hasReturn : Bool) (effectSpec : Option Embedded) (isOnce : Bool)
  | ref | mutRef | frozen | mutSlice | weak
  | implTrait (traitPath : List String) (args : List (Option Embedded)) (bindings : List String) (useEffects : Option Embedded)
  | dyn (traitPath : List String) (args : List (Option Embedded)) (bindings : List String)
  | unit | error

def typeArgCount (args : List (Option Embedded)) : ℕ := (args.filter Option.isNone).length

/-- How a constructor moves with each of its arguments: as the table says for the type arguments of a named type. -/
def TypeNode.slot (table : StdlibVariance) : TypeNode → ℕ → Variance
  | .named path args, i => if i < typeArgCount args then slotVariance table (path.getLast?.getD "") i else .invariant
  | .tuple, _ => .covariant
  | .pointer false, _ => .covariant
  | .fnType arity hasReturn _ _, i =>
    if i < arity then .contravariant else if i = arity ∧ hasReturn then .covariant else .invariant
  | .ref, _ => .covariant
  | .frozen, _ => .covariant
  | _, _ => .invariant

def Variance.polarity : Variance → Polarity
  | .covariant => .positive
  | .contravariant => .negative
  | .invariant => .mixed

theorem polarity_compose (ctx slot : Variance) : (compose ctx slot).polarity = ctx.polarity.comp slot.polarity := by
  cases ctx <;> cases slot <;> rfl

abbrev slotPolarity (table : StdlibVariance) (node : TypeNode) (i : ℕ) : Polarity := (node.slot table i).polarity

/-! A type expression as a term whose variables are the generic parameters in scope. A parameter with arguments is
read as the parameter; a path of two names, of which the first is a parameter, is a projection. -/

section

variable (generics : List String)

/-- The parameters among the names in something that is not a type. -/
def mentioned (e : List Embedded) : List (Term TypeNode String) :=
  ((e.flatMap fun x => x.names).filter (· ∈ generics)).map .var

def pathTerm (segments : List String) (args : List (Option Embedded)) (children : List (Term TypeNode String)) :
    Term TypeNode String :=
  match segments with
  | [name] => if name ∈ generics then .var name else .app (.named [name] args) children
  | [name, assoc] =>
    if name ∈ generics then .app (.projection assoc args) (.var name :: children)
    else .app (.named [name, assoc] args) children
  | _ => .app (.named segments args) children

/-- Which arguments are types, and what the others hold. -/
def argKinds (args : List GenericArg) : List (Option Embedded) := args.map fun
  | .type _ => none
  | .const value => some value
  | .shape lit => some lit

def argEmbedded (args : List GenericArg) : List Embedded := (argKinds args).filterMap id

def bindingNames (bindings : List AssocBinding) : List String := bindings.map fun | .mk name _ => name

mutual

def TypeExpr.term : TypeExpr → Term TypeNode String
  | .path segments none => pathTerm generics segments [] []
  | .path segments (some args) => pathTerm generics segments (argKinds args) (argTerms args ++ mentioned generics (argEmbedded args))
  | .tuple elems => .app .tuple (TypeExpr.terms elems)
  | .array element size => .app (.array size) (element.term :: mentioned generics [size])
  | .pointer isMut inner => .app (.pointer isMut) [inner.term]
  | .fnType params returnType effectSpec isOnce =>
    .app (.fnType params.length returnType.isSome effectSpec isOnce) (TypeExpr.terms params ++ ((match returnType with
      | some rt => [rt.term]
      | none => []) ++ mentioned generics effectSpec.toList))
  | .ref inner => .app .ref [inner.term]
  | .frozen inner => .app .frozen [inner.term]
  | .mutRef inner => .app .mutRef [inner.term]
  | .mutSlice inner => .app .mutSlice [inner.term]
  | .weak inner => .app .weak [inner.term]
  | .implTrait traitPath args bindings useEffects =>
    .app (.implTrait traitPath (argKinds args) (bindingNames bindings) useEffects)
      (argTerms args ++ bindingTerms bindings ++ mentioned generics (argEmbedded args ++ useEffects.toList))
  | .dyn traitPath args bindings =>
    .app (.dyn traitPath (argKinds args) (bindingNames bindings))
      (argTerms args ++ bindingTerms bindings ++ mentioned generics (argEmbedded args))
  | .unit => .app .unit []
  | .error => .app .error []

def TypeExpr.terms : List TypeExpr → List (Term TypeNode String)
  | [] => []
  | ty :: tys => ty.term :: TypeExpr.terms tys

def argTerms : List GenericArg → List (Term TypeNode String)
  | [] => []
  | .type ty :: args => ty.term :: argTerms args
  | .const _ :: args => argTerms args
  | .shape _ :: args => argTerms args

def bindingTerms : List AssocBinding → List (Term TypeNode String)
  | [] => []
  | .mk _ ty :: bindings => ty.term :: bindingTerms bindings

end

end

/-! The declarations. -/

inductive Declaration
  | struct (s : StructDef)
  | enum (e : EnumDef)

namespace Declaration

def name : Declaration → String
  | .struct s => s.name
  | .enum e => e.name

def genericParams : Declaration → Option (List GenericParam)
  | .struct s => s.genericParams
  | .enum e => e.genericParams

def walk : Declaration → List WalkEntry
  | .struct s => structWalk s
  | .enum e => enumWalk e

def params (d : Declaration) : List GenericParam := d.genericParams.getD []

def scope (d : Declaration) : List String := d.params.map fun p => p.name

/-- The types that a value of the declared type holds, with whether each can be written. -/
def slots : Declaration → List (Bool × TypeExpr)
  | .struct s => s.fields.map fun f => (f.isMut, f.ty)
  | .enum e => e.variants.flatMap fun v => match v.kind with
    | .unit => []
    | .tuple payloads => payloads.map fun ty => (false, ty)
    | .struct fields => fields.map fun f => (f.isMut, f.ty)

def errors (table : StdlibVariance) (d : Declaration) : List VarianceError :=
  stdlibVarianceDeclErrors table d.genericParams d.name d.walk

def ReportsInconsistency (table : StdlibVariance) (d : Declaration) : Prop :=
  ∃ param declared occurs position typeName, VarianceError.inconsistent param declared occurs position typeName ∈ d.errors table

end Declaration

/-- How a parameter may move: as its marker says; constants and shapes stay. -/
def GenericParam.moves (p : GenericParam) : Polarity := if p.isType then p.variance.polarity else .mixed

/-- The arguments of the parameters, replaced: a larger one for `+`, a smaller one for `-`, an equivalent one otherwise. -/
structure Substituted {Ty : Type} [Preorder Ty] (params : List GenericParam) (env env' : String → Ty) : Prop where
  moved : ∀ p ∈ params, Rel p.moves (env p.name) (env' p.name)
  rest : ∀ name, (∀ p ∈ params, p.name ≠ name) → Rel .mixed (env name) (env' name)

/-- The markers of a declaration promise right, for every preorder of types in which the constructors move as the
table and the type forms say. -/
def Declaration.Sound (table : StdlibVariance) (d : Declaration) : Prop :=
  ∀ (Ty : Type) [Preorder Ty] (types : Model (slotPolarity table) Ty) (env env' : String → Ty),
    Substituted d.params env env' → ∀ slot ∈ d.slots,
      let before := (slot.2.term d.scope).eval types.app env
      let after := (slot.2.term d.scope).eval types.app env'
      before ≤ after ∧ (slot.1 = true → after ≤ before)

/-! The places that the check walks past: of a parameter that has arguments, of one that is projected from or
stands in the arguments of a projection, and of those named in what is not a type. -/

section

variable (table : StdlibVariance) (generics : List String)

/-- The parameters named in what is not a type: these places are invariant. -/
def mentionedPlaces (e : List Embedded) : List (String × Polarity) :=
  ((e.flatMap fun x => x.names).filter (· ∈ generics)).map fun name => (name, .mixed)

/-- Every place in the arguments of a projection. -/
def projectionPlaces (args : List GenericArg) : List (String × Polarity) :=
  (argTerms generics args).flatMap (Term.places (slotPolarity table) .mixed) ++ mentionedPlaces generics (argEmbedded args)

mutual

def skippedPlaces (ctx : Variance) : TypeExpr → List (String × Polarity)
  | .path segments none => match segments with
    | [name, _] => if name ∈ generics then [(name, .mixed)] else []
    | _ => []
  | .path segments (some args) => match segments with
    | [name] =>
      if name ∈ generics then [(name, ctx.polarity)]
      else skippedArgs ctx name 0 args ++ mentionedPlaces generics (argEmbedded args)
    | [name, assoc] =>
      if name ∈ generics then (name, .mixed) :: projectionPlaces table generics args
      else skippedArgs ctx assoc 0 args ++ mentionedPlaces generics (argEmbedded args)
    | path => skippedArgs ctx (path.getLast?.getD "") 0 args ++ mentionedPlaces generics (argEmbedded args)
  | .tuple elems => skippedAll ctx elems
  | .array element size => skippedPlaces .invariant element ++ mentionedPlaces generics [size]
  | .pointer isMut inner => skippedPlaces (if isMut then .invariant else ctx) inner
  | .fnType params returnType effectSpec _ =>
    skippedAll (compose ctx .contravariant) params ++ ((match returnType with
      | some rt => skippedPlaces ctx rt
      | none => []) ++ mentionedPlaces generics effectSpec.toList)
  | .ref inner => skippedPlaces ctx inner
  | .frozen inner => skippedPlaces ctx inner
  | .mutRef inner => skippedPlaces .invariant inner
  | .mutSlice inner => skippedPlaces .invariant inner
  | .weak inner => skippedPlaces .invariant inner
  | .implTrait _ args bindings useEffects =>
    skippedTraitArgs args ++ skippedBindings bindings ++ mentionedPlaces generics (argEmbedded args ++ useEffects.toList)
  | .dyn _ args bindings => skippedTraitArgs args ++ skippedBindings bindings ++ mentionedPlaces generics (argEmbedded args)
  | .unit => []
  | .error => []

def skippedArgs (ctx : Variance) (name : String) (typeArgIdx : ℕ) : List GenericArg → List (String × Polarity)
  | [] => []
  | .type ty :: args =>
    skippedPlaces (compose ctx (slotVariance table name typeArgIdx)) ty ++ skippedArgs ctx name (typeArgIdx + 1) args
  | .const _ :: args => skippedArgs ctx name typeArgIdx args
  | .shape _ :: args => skippedArgs ctx name typeArgIdx args

def skippedAll (ctx : Variance) : List TypeExpr → List (String × Polarity)
  | [] => []
  | ty :: tys => skippedPlaces ctx ty ++ skippedAll ctx tys

def skippedTraitArgs : List GenericArg → List (String × Polarity)
  | [] => []
  | .type ty :: args => skippedPlaces .invariant ty ++ skippedTraitArgs args
  | .const _ :: args => skippedTraitArgs args
  | .shape _ :: args => skippedTraitArgs args

def skippedBindings : List AssocBinding → List (String × Polarity)
  | [] => []
  | .mk _ ty :: bindings => skippedPlaces .invariant ty ++ skippedBindings bindings

end

end

section

variable {table : StdlibVariance} {generics : List String} {tracked : String → Option Variance} {position : String}

/-- The places are those walked past, and others that are recorded or of parameters that are not tracked. -/
structure Accounts (tracked : String → Option Variance) (places skipped : List (String × Polarity)) (recorded : List Occurrence) :
    Prop where
  skips : ∀ place ∈ skipped, place ∈ places
  covers : ∀ place ∈ places, place ∈ skipped ∨ (∃ occ ∈ recorded, (occ.param, occ.polarity.polarity) = place) ∨
    tracked place.1 = none

theorem Accounts.append {p q s s' : List (String × Polarity)} {r r' : List Occurrence} (h : Accounts tracked p s r)
    (h' : Accounts tracked q s' r') : Accounts tracked (p ++ q) (s ++ s') (r ++ r') where
  skips place hplace := by
    rcases List.mem_append.mp hplace with hs | hs'
    · exact List.mem_append_left _ (h.skips place hs)
    · exact List.mem_append_right _ (h'.skips place hs')
  covers place hplace := by
    rcases List.mem_append.mp hplace with hp | hq
    · rcases h.covers place hp with hs | ⟨occ, hocc, heq⟩ | hnone
      · exact Or.inl (List.mem_append_left _ hs)
      · exact Or.inr (Or.inl ⟨occ, List.mem_append_left _ hocc, heq⟩)
      · exact Or.inr (Or.inr hnone)
    · rcases h'.covers place hq with hs | ⟨occ, hocc, heq⟩ | hnone
      · exact Or.inl (List.mem_append_right _ hs)
      · exact Or.inr (Or.inl ⟨occ, List.mem_append_right _ hocc, heq⟩)
      · exact Or.inr (Or.inr hnone)

theorem Accounts.of_eq {p s : List (String × Polarity)} (h : p = s) (r : List Occurrence) : Accounts tracked p s r :=
  ⟨fun _ hplace => h ▸ hplace, fun _ hplace => Or.inl (h ▸ hplace)⟩

theorem Accounts.skip {p s : List (String × Polarity)} {r : List Occurrence} (h : Accounts tracked p s r)
    (q : List (String × Polarity)) : Accounts tracked (p ++ q) (s ++ q) r := by
  have := h.append (Accounts.of_eq (rfl : q = q) [])
  rwa [List.append_nil] at this

theorem placesAll_mentioned (ctx : Polarity) (e : List Embedded) {at_ : ℕ → Polarity}
    (hat : ∀ i < (mentioned generics e).length, at_ i = .mixed) :
    Term.placesAll (slotPolarity table) ctx at_ (mentioned generics e) = mentionedPlaces generics e := by
  rw [Term.placesAll_of_eq _ hat, mentioned, mentionedPlaces, Polarity.comp_mixed, List.flatMap_map, List.map_eq_flatMap]
  simp only [Term.places]

theorem length_argTerms (args : List GenericArg) : (argTerms generics args).length = typeArgCount (argKinds args) := by
  induction args with
  | nil => rfl
  | cons arg args ih =>
    cases arg with
    | type ty => simpa [argTerms, argKinds, typeArgCount] using ih
    | const value => simpa [argTerms, argKinds, typeArgCount] using ih
    | shape lit => simpa [argTerms, argKinds, typeArgCount] using ih

theorem length_terms (tys : List TypeExpr) : (TypeExpr.terms generics tys).length = tys.length := by
  induction tys with
  | nil => rfl
  | cons ty tys ih => simp [TypeExpr.terms, ih]

/-- The places in a named type: those in its type arguments, under the slots of the table. -/
theorem places_named (ctx : Polarity) (path : List String) (args : List GenericArg) :
    (Term.app (.named path (argKinds args)) (argTerms generics args ++ mentioned generics (argEmbedded args))).places
        (slotPolarity table) ctx =
      Term.placesAll (slotPolarity table) ctx (fun i => (slotVariance table (path.getLast?.getD "") (i + 0)).polarity)
        (argTerms generics args) ++ mentionedPlaces generics (argEmbedded args) := by
  rw [Term.places, Term.placesAll_append, placesAll_mentioned]
  · refine congrArg (· ++ _) (Term.placesAll_congr _ fun i hi => ?_)
    rw [length_argTerms] at hi
    simp [slotPolarity, TypeNode.slot, hi]
  · intro i _
    rw [length_argTerms]
    simp [slotPolarity, TypeNode.slot, Variance.polarity]

theorem places_fnType (table : StdlibVariance) (generics : List String) (ctx : Polarity) (params : List TypeExpr) (ret : List (Term TypeNode String)) {hasReturn : Bool}
    (hret : ret.length = hasReturn.toNat) (effectSpec : Option Embedded) (isOnce : Bool) :
    (Term.app (.fnType params.length hasReturn effectSpec isOnce)
        (TypeExpr.terms generics params ++ (ret ++ mentioned generics effectSpec.toList))).places (slotPolarity table) ctx =
      Term.placesAll (slotPolarity table) ctx (fun _ => .negative) (TypeExpr.terms generics params) ++
        (Term.placesAll (slotPolarity table) ctx (fun _ => .positive) ret ++ mentionedPlaces generics effectSpec.toList) := by
  rw [Term.places, Term.placesAll_append, Term.placesAll_append, placesAll_mentioned, length_terms]
  · refine congrArg₂ _ (Term.placesAll_congr _ fun i hi => ?_) (congrArg (· ++ _) (Term.placesAll_congr _ fun i hi => ?_))
    · rw [length_terms] at hi
      simp [slotPolarity, TypeNode.slot, hi, Variance.polarity]
    · cases hasReturn with
      | false => simp [hret] at hi
      | true =>
        obtain rfl : i = 0 := by simpa [hret] using hi
        simp [slotPolarity, TypeNode.slot, Variance.polarity]
  · intro i _
    rw [length_terms, hret]
    cases hasReturn <;> simp [slotPolarity, TypeNode.slot, Variance.polarity]

/-- The places in a constructor that demands equivalent arguments. -/
theorem places_invariant (table : StdlibVariance) (generics : List String) (ctx : Polarity) {node : TypeNode} (hslot : ∀ i, node.slot table i = .invariant)
    (children : List (Term TypeNode String)) (e : List Embedded) :
    (Term.app node (children ++ mentioned generics e)).places (slotPolarity table) ctx =
      Term.placesAll (slotPolarity table) ctx (fun _ => .mixed) children ++ mentionedPlaces generics e := by
  have hmixed : ∀ i, slotPolarity table node i = .mixed := fun i => by
    rw [slotPolarity, hslot]
    rfl
  rw [Term.places, Term.placesAll_append, placesAll_mentioned _ _ fun i _ => hmixed _]
  exact congrArg (· ++ _) (Term.placesAll_congr _ fun i _ => hmixed i)

theorem accounted_path (ctx : Variance) (segments : List String) :
    Accounts tracked ((TypeExpr.path segments none).term generics |>.places (slotPolarity table) ctx.polarity)
      (skippedPlaces table generics ctx (.path segments none))
      (collectOccurrences table tracked position ctx (.path segments none)) := by
  match segments with
  | [] => exact Accounts.of_eq (by simp [TypeExpr.term, pathTerm, skippedPlaces, Term.places, Term.placesAll]) _
  | [name] =>
    simp only [TypeExpr.term, pathTerm, collectOccurrences]
    split_ifs with hscope htracked htracked
    · refine ⟨fun _ h => absurd h List.not_mem_nil, fun place hplace => ?_⟩
      obtain rfl := List.mem_singleton.mp hplace
      exact Or.inr (Or.inl ⟨⟨name, ctx, position⟩, List.mem_singleton_self _, rfl⟩)
    · refine ⟨fun _ h => absurd h List.not_mem_nil, fun place hplace => ?_⟩
      obtain rfl := List.mem_singleton.mp hplace
      exact Or.inr (Or.inr (Option.not_isSome_iff_eq_none.mp htracked))
    · exact Accounts.of_eq (by simp [skippedPlaces, Term.places, Term.placesAll]) _
    · exact Accounts.of_eq (by simp [skippedPlaces, Term.places, Term.placesAll]) _
  | [name, assoc] =>
    simp only [TypeExpr.term, pathTerm, skippedPlaces]
    split_ifs with hscope
    · exact Accounts.of_eq (by simp [Term.places, Term.placesAll, slotPolarity, TypeNode.slot, Variance.polarity]) _
    · exact Accounts.of_eq (by simp [Term.places, Term.placesAll]) _
  | _ :: _ :: _ :: _ => exact Accounts.of_eq (by simp [TypeExpr.term, pathTerm, skippedPlaces, Term.places, Term.placesAll]) _

theorem places_projection (ctx : Polarity) (name assoc : String) (args : List GenericArg) :
    (Term.app (.projection assoc (argKinds args)) (.var name :: (argTerms generics args ++ mentioned generics (argEmbedded args)))).places
        (slotPolarity table) ctx = (name, .mixed) :: projectionPlaces table generics args := by
  have hnode : ∀ i, (TypeNode.projection assoc (argKinds args)).slot table i = .invariant := fun _ => rfl
  rw [← List.cons_append, places_invariant table generics ctx hnode, Term.placesAll, projectionPlaces, Term.placesAll_of_eq _ fun i _ => rfl, Polarity.comp_mixed, Term.places]
  rfl

/-- A path with arguments, given what holds of the type arguments of a named type. -/
theorem accounted_pathArgs (ctx : Variance) (segments : List String) (args : List GenericArg)
    (hargs : ∀ name, Accounts tracked
      (Term.placesAll (slotPolarity table) ctx.polarity (fun i => (slotVariance table name (i + 0)).polarity) (argTerms generics args))
      (skippedArgs table generics ctx name 0 args) (collectArgs table tracked position ctx name 0 args)) :
    Accounts tracked ((TypeExpr.path segments (some args)).term generics |>.places (slotPolarity table) ctx.polarity)
      (skippedPlaces table generics ctx (.path segments (some args)))
      (collectOccurrences table tracked position ctx (.path segments (some args))) := by
  have hnamed : Accounts tracked
      ((Term.app (.named segments (argKinds args)) (argTerms generics args ++ mentioned generics (argEmbedded args))).places
        (slotPolarity table) ctx.polarity)
      (skippedArgs table generics ctx (segments.getLast?.getD "") 0 args ++ mentionedPlaces generics (argEmbedded args))
      (collectArgs table tracked position ctx (segments.getLast?.getD "") 0 args) := by
    rw [places_named]
    exact (hargs _).skip _
  match segments with
  | [] => exact hnamed
  | [name] =>
    simp only [TypeExpr.term, pathTerm, skippedPlaces]
    split_ifs with hscope
    · exact Accounts.of_eq rfl _
    · exact hnamed
  | [name, assoc] =>
    simp only [TypeExpr.term, pathTerm, skippedPlaces]
    split_ifs with hscope
    · rw [places_projection]
      exact Accounts.of_eq rfl _
    · exact hnamed
  | _ :: _ :: _ :: _ => exact hnamed

/-- A single argument, at the place that the walk takes it to stand. -/
theorem Accounts.single {outer : Polarity} {ctx : Variance} {node : TypeNode} {t : Term TypeNode String}
    {skipped : List (String × Polarity)} {recorded : List Occurrence}
    (h : Accounts tracked (t.places (slotPolarity table) ctx.polarity) skipped recorded)
    (hctx : outer.comp (slotPolarity table node 0) = ctx.polarity) :
    Accounts tracked ((Term.app node [t]).places (slotPolarity table) outer) skipped recorded := by
  rw [Term.places, Term.placesAll, Term.placesAll, List.append_nil, hctx]
  exact h

mutual

theorem accounted (ctx : Variance) : ∀ ty : TypeExpr,
    Accounts tracked ((ty.term generics).places (slotPolarity table) ctx.polarity) (skippedPlaces table generics ctx ty)
      (collectOccurrences table tracked position ctx ty)
  | .path segments none => accounted_path ctx segments
  | .path segments (some args) => accounted_pathArgs ctx segments args fun name => accountedArgs ctx name 0 args
  | .tuple elems => accountedAll ctx ctx.polarity .positive (Polarity.comp_positive _) elems
  | .array element size => by
    have hnode : ∀ i, (TypeNode.array size).slot table i = .invariant := fun _ => rfl
    rw [TypeExpr.term, skippedPlaces, collectOccurrences, ← List.singleton_append, places_invariant table generics _ hnode, Term.placesAll, Polarity.comp_mixed, Term.placesAll, List.append_nil]
    exact (accounted .invariant element).skip _
  | .pointer isMut inner => by
    rw [TypeExpr.term, skippedPlaces, collectOccurrences]
    refine (accounted _ inner).single ?_
    cases isMut with
    | false => exact Polarity.comp_positive _
    | true => exact Polarity.comp_mixed _
  | .fnType params none effectSpec isOnce => by
    have hplaces := places_fnType table generics ctx.polarity params [] (show _ = Bool.toNat false from rfl) effectSpec isOnce
    rw [TypeExpr.term, skippedPlaces, collectOccurrences]
    refine Eq.subst (motive := fun l => Accounts tracked l _ _) hplaces.symm ?_
    exact (accountedAll (compose ctx .contravariant) ctx.polarity .negative (polarity_compose ctx .contravariant).symm
      params).append (Accounts.of_eq rfl [])
  | .fnType params (some rt) effectSpec isOnce => by
    have hplaces := places_fnType table generics ctx.polarity params [rt.term generics] (show _ = Bool.toNat true from rfl)
      effectSpec isOnce
    rw [TypeExpr.term, skippedPlaces, collectOccurrences]
    refine Eq.subst (motive := fun l => Accounts tracked l _ _) hplaces.symm ?_
    refine (accountedAll (compose ctx .contravariant) ctx.polarity .negative (polarity_compose ctx .contravariant).symm
      params).append ?_
    rw [Term.placesAll, Polarity.comp_positive, Term.placesAll, List.append_nil]
    exact (accounted ctx rt).skip _
  | .ref inner => (accounted ctx inner).single (Polarity.comp_positive _)
  | .frozen inner => (accounted ctx inner).single (Polarity.comp_positive _)
  | .mutRef inner => (accounted .invariant inner).single (Polarity.comp_mixed _)
  | .mutSlice inner => (accounted .invariant inner).single (Polarity.comp_mixed _)
  | .weak inner => (accounted .invariant inner).single (Polarity.comp_mixed _)
  | .implTrait traitPath args bindings useEffects => by
    rw [TypeExpr.term, skippedPlaces, collectOccurrences, places_invariant _ _ _ fun _ => rfl, Term.placesAll_append]
    exact ((accountedTraitArgs ctx.polarity args).append (accountedBindings ctx.polarity bindings)).skip _
  | .dyn traitPath args bindings => by
    rw [TypeExpr.term, skippedPlaces, collectOccurrences, places_invariant _ _ _ fun _ => rfl, Term.placesAll_append]
    exact ((accountedTraitArgs ctx.polarity args).append (accountedBindings ctx.polarity bindings)).skip _
  | .unit => Accounts.of_eq rfl _
  | .error => Accounts.of_eq rfl _

theorem accountedArgs (ctx : Variance) (name : String) (typeArgIdx : ℕ) : ∀ args : List GenericArg,
    Accounts tracked
      (Term.placesAll (slotPolarity table) ctx.polarity (fun i => (slotVariance table name (i + typeArgIdx)).polarity)
        (argTerms generics args))
      (skippedArgs table generics ctx name typeArgIdx args) (collectArgs table tracked position ctx name typeArgIdx args)
  | [] => Accounts.of_eq rfl _
  | .type ty :: args => by
    have hrest := accountedArgs ctx name (typeArgIdx + 1) args
    rw [argTerms, Term.placesAll, skippedArgs, collectArgs]
    refine Accounts.append ?_ ?_
    · rw [Nat.zero_add, ← polarity_compose]
      exact accounted (compose ctx (slotVariance table name typeArgIdx)) ty
    · simpa only [Nat.add_assoc, Nat.add_comm 1] using hrest
  | .const _ :: args => accountedArgs ctx name typeArgIdx args
  | .shape _ :: args => accountedArgs ctx name typeArgIdx args

theorem accountedAll (ctx : Variance) (outer p : Polarity) (hctx : outer.comp p = ctx.polarity) : ∀ tys : List TypeExpr,
    Accounts tracked (Term.placesAll (slotPolarity table) outer (fun _ => p) (TypeExpr.terms generics tys))
      (skippedAll table generics ctx tys) (collectAll table tracked position ctx tys)
  | [] => Accounts.of_eq rfl _
  | ty :: tys => by
    rw [TypeExpr.terms, Term.placesAll, skippedAll, collectAll, hctx]
    exact (accounted ctx ty).append (accountedAll ctx outer p hctx tys)

theorem accountedTraitArgs (outer : Polarity) : ∀ args : List GenericArg,
    Accounts tracked (Term.placesAll (slotPolarity table) outer (fun _ => .mixed) (argTerms generics args))
      (skippedTraitArgs table generics args) (collectTraitArgs table tracked position args)
  | [] => Accounts.of_eq rfl _
  | .type ty :: args => by
    rw [argTerms, Term.placesAll, skippedTraitArgs, collectTraitArgs, Polarity.comp_mixed]
    exact (accounted .invariant ty).append (accountedTraitArgs outer args)
  | .const _ :: args => accountedTraitArgs outer args
  | .shape _ :: args => accountedTraitArgs outer args

theorem accountedBindings (outer : Polarity) : ∀ bindings : List AssocBinding,
    Accounts tracked (Term.placesAll (slotPolarity table) outer (fun _ => .mixed) (bindingTerms generics bindings))
      (skippedBindings table generics bindings) (collectBindings table tracked position bindings)
  | [] => Accounts.of_eq rfl _
  | .mk _ ty :: bindings => by
    rw [bindingTerms, Term.placesAll, skippedBindings, collectBindings, Polarity.comp_mixed]
    exact (accounted .invariant ty).append (accountedBindings outer bindings)

end

end

/-! The declaration as a whole. -/

/-- How the argument of a name may move: as all the parameters of that name do. -/
def moveOf (params : List GenericParam) (name : String) : Polarity :=
  match params.filter fun p => p.name = name with
  | [] => .mixed
  | p :: ps => if ps.all fun q => q.moves = p.moves then p.moves else .mixed

theorem rel_of_moves {Ty : Type} [Preorder Ty] {ps : List GenericParam} {p : GenericParam} {x y : Ty}
    (hp : Rel p.moves x y) (hps : ∀ q ∈ ps, Rel q.moves x y) (hne : ¬ps.all fun q => q.moves = p.moves) : Rel .mixed x y := by
  obtain ⟨q, hq, hdiff⟩ := List.all_eq_false.mp (Bool.eq_false_iff.mpr hne)
  have hq' := hps q hq
  have hmoves : q.moves ≠ p.moves := of_decide_eq_false (Bool.eq_false_iff.mpr hdiff)
  cases hpm : p.moves <;> cases hqm : q.moves <;> rw [hpm] at hp <;> rw [hqm] at hq' <;>
    first | exact absurd (hqm.trans hpm.symm) hmoves | exact hp | exact hq' | exact ⟨hp, hq'⟩ | exact ⟨hq', hp⟩

theorem substituted_iff {Ty : Type} [Preorder Ty] {params : List GenericParam} {env env' : String → Ty} :
    Substituted params env env' ↔ ∀ name, Rel (moveOf params name) (env name) (env' name) := by
  constructor
  · intro h name
    unfold moveOf
    split
    · next hnone =>
      exact h.rest name fun p hp heq => absurd (decide_eq_true heq) (List.filter_eq_nil_iff.mp hnone p hp)
    · next p ps hsome =>
      have hof : ∀ q ∈ p :: ps, Rel q.moves (env name) (env' name) := by
        intro q hq
        rw [← hsome] at hq
        obtain ⟨hmem, heq⟩ := List.mem_filter.mp hq
        exact of_decide_eq_true heq ▸ h.moved q hmem
      have hp := hof p List.mem_cons_self
      split_ifs with hall
      · exact hp
      · exact rel_of_moves hp (fun q hq => hof q (List.mem_cons_of_mem _ hq)) hall
  · intro h
    refine ⟨fun p hp => ?_, fun name hnone => ?_⟩
    · have hrel := h p.name
      have hmem : p ∈ params.filter fun q => q.name = p.name := List.mem_filter.mpr ⟨hp, decide_eq_true rfl⟩
      unfold moveOf at hrel
      split at hrel
      · exact hrel.of_mixed _
      · next q qs hsome =>
        rw [hsome] at hmem
        split_ifs at hrel with hall
        · rcases List.mem_cons.mp hmem with rfl | hin
          · exact hrel
          · rw [of_decide_eq_true (List.all_eq_true.mp hall p hin)]
            exact hrel
        · exact hrel.of_mixed _
    · have hrel := h name
      unfold moveOf at hrel
      split at hrel
      · exact hrel
      · next q qs hsome =>
        have hmem : q ∈ params.filter fun p => p.name = name := hsome ▸ List.mem_cons_self
        obtain ⟨hq, heq⟩ := List.mem_filter.mp hmem
        exact absurd (of_decide_eq_true heq) (hnone q hq)

theorem mem_trackedParams_of_some {params : List GenericParam} {name : String} {v : Variance}
    (h : trackedVariance params name = some v) : ∃ p ∈ trackedParams params, p.name = name ∧ p.variance = v := by
  unfold trackedVariance at h
  obtain ⟨p, hfind, rfl⟩ := Option.map_eq_some_iff.mp h
  exact ⟨p, List.mem_reverse.mp (List.mem_of_find?_eq_some hfind),
    by simpa using List.find?_some hfind, rfl⟩

theorem moves_eq {p : GenericParam} (h : p.isType) : p.moves = p.variance.polarity := if_pos h

/-- A name that is not tracked stays; one that is moves as its marker says, or stays. -/
theorem moveOf_of_tracked (params : List GenericParam) (name : String) :
    moveOf params name = .mixed ∨ ∃ v, trackedVariance params name = some v ∧ moveOf params name = v.polarity := by
  unfold moveOf
  split
  · exact Or.inl rfl
  · next p ps hsome =>
    split_ifs with hall
    · have hsame : ∀ q ∈ params, q.name = name → q.moves = p.moves := by
        intro q hq heq
        have hmem : q ∈ p :: ps := hsome ▸ List.mem_filter.mpr ⟨hq, decide_eq_true heq⟩
        rcases List.mem_cons.mp hmem with rfl | hin
        · rfl
        · exact of_decide_eq_true (List.all_eq_true.mp hall q hin)
      cases htracked : trackedVariance params name with
      | some v =>
        obtain ⟨q, hq, hname, rfl⟩ := mem_trackedParams_of_some htracked
        obtain ⟨hmem, hkind⟩ := List.mem_filter.mp hq
        refine Or.inr ⟨_, rfl, ?_⟩
        rw [← hsame q hmem hname]
        exact moves_eq (Bool.and_eq_true_iff.mp hkind).1
      | none =>
        left
        have hp : p ∈ params ∧ p.name = name := by
          have := List.mem_filter.mp (hsome ▸ List.mem_cons_self : p ∈ params.filter fun p => p.name = name)
          exact ⟨this.1, of_decide_eq_true this.2⟩
        by_contra hmoves
        have htype : p.isType := by
          by_contra hnot
          exact hmoves (if_neg hnot)
        have hvar : p.variance ≠ .invariant := by
          intro hinv
          rw [moves_eq htype, hinv] at hmoves
          exact hmoves rfl
        unfold trackedVariance at htracked
        have hnone := List.find?_eq_none.mp (Option.map_eq_none_iff.mp htracked) p
          (List.mem_reverse.mpr (List.mem_filter.mpr ⟨hp.1, by simp [htype, hvar]⟩))
        exact hnone (decide_eq_true hp.2)
    · exact Or.inl rfl

namespace Declaration

variable {table : StdlibVariance} {d : Declaration}

theorem slots_eq (d : Declaration) : d.slots = d.walk.map fun w => (decide (w.base = .invariant), w.ty) := by
  have hfield : ∀ f : StructField, decide (fieldPolarity f = .invariant) = f.isMut := fun f => by
    unfold fieldPolarity
    cases f.isMut <;> rfl
  cases d with
  | struct s => simp [slots, walk, structWalk, hfield]
  | enum e =>
    simp only [slots, walk, enumWalk, List.map_flatMap]
    refine List.flatMap_congr fun v _ => ?_
    cases v.kind with
    | unit => rfl
    | tuple payloads => simp
    | struct fields => simp [hfield]

theorem base_cases {w : WalkEntry} (h : w ∈ d.walk) : w.base = .covariant ∨ w.base = .invariant := by
  have hfield : ∀ f : StructField, fieldPolarity f = .covariant ∨ fieldPolarity f = .invariant := fun f => by
    unfold fieldPolarity
    cases f.isMut <;> simp
  cases d with
  | struct s =>
    obtain ⟨f, -, rfl⟩ := List.mem_map.mp h
    exact hfield f
  | enum e =>
    obtain ⟨v, -, hv⟩ := List.mem_flatMap.mp h
    cases hkind : v.kind with
    | unit => simp [hkind] at hv
    | tuple payloads =>
      rw [hkind] at hv
      obtain ⟨ty, -, rfl⟩ := List.mem_map.mp hv
      exact Or.inl rfl
    | struct fields =>
      rw [hkind] at hv
      obtain ⟨f, -, rfl⟩ := List.mem_map.mp hv
      exact hfield f

/-- The markers promise right exactly if every place of a parameter agrees with how its argument may move. -/
theorem sound_iff_places : d.Sound table ↔ ∀ w ∈ d.walk,
    ∀ place ∈ (w.ty.term d.scope).places (slotPolarity table) w.base.polarity, Lib.Places.Agrees (moveOf d.params) place := by
  constructor
  · intro h w hw
    refine moves_iff.mp fun Ty _ types env env' hrel => ?_
    have hslot := h Ty types env env' (substituted_iff.mpr hrel) (decide (w.base = .invariant), w.ty)
      (by rw [slots_eq]; exact List.mem_map_of_mem hw)
    rcases base_cases hw with hbase | hbase
    · rw [hbase]
      exact hslot.1
    · rw [hbase]
      exact ⟨hslot.1, hslot.2 (decide_eq_true hbase)⟩
  · intro h Ty _ types env env' hsub slot hslot
    rw [slots_eq] at hslot
    obtain ⟨w, hw, rfl⟩ := List.mem_map.mp hslot
    have hrel := moves_iff.mpr (h w hw) Ty types env env' (substituted_iff.mp hsub)
    rcases base_cases hw with hbase | hbase
    · rw [hbase] at hrel
      exact ⟨hrel, fun hinv => absurd (of_decide_eq_true hinv) (by rw [hbase]; decide)⟩
    · rw [hbase] at hrel
      exact ⟨hrel.1, fun _ => hrel.2⟩

/-- What is recorded has the declared polarity, where no inconsistency is reported. -/
theorem polarity_of_recorded (h : ¬d.ReportsInconsistency table) {w : WalkEntry} (hw : w ∈ d.walk) {occ : Occurrence}
    (hocc : occ ∈ collectOccurrences table (trackedVariance d.params) w.position w.base w.ty) {declared : Variance}
    (hdeclared : trackedVariance d.params occ.param = some declared) : occ.polarity = declared := by
  by_contra hne
  apply h
  refine ⟨occ.param, declared, occ.polarity, occ.position, d.name, ?_⟩
  have hmem : .inconsistent occ.param declared occ.polarity occ.position d.name ∈
      inconsistentErrors table d.name d.params d.walk :=
    List.mem_filterMap.mpr ⟨occ, List.mem_flatMap.mpr ⟨w, hw, hocc⟩, by rw [hdeclared]; exact if_neg hne⟩
  obtain ⟨p, hp, -⟩ := mem_trackedParams_of_some hdeclared
  unfold errors stdlibVarianceDeclErrors
  cases hgenerics : d.genericParams with
  | none => simp [Declaration.params, hgenerics, trackedParams] at hp
  | some params =>
    have hparams : d.params = params := by simp [Declaration.params, hgenerics]
    rw [hparams] at hmem hp
    have hnonempty : (trackedParams params).isEmpty = false := by
      rw [List.isEmpty_eq_false_iff_exists_mem]
      exact ⟨p, hp⟩
    simp only [hnonempty, Bool.false_eq_true, if_false]
    exact List.mem_append_right _ hmem

/-- The places that the check walks past agree with the markers: no marked parameter is projected from, stands in the
arguments of a projection or is named in what is not a type, and one with arguments stands where its marker allows. -/
def SkippedAgree (table : StdlibVariance) (d : Declaration) : Prop :=
  ∀ w ∈ d.walk, ∀ place ∈ skippedPlaces table d.scope w.base w.ty, Lib.Places.Agrees (moveOf d.params) place

theorem accountsOf (table : StdlibVariance) (d : Declaration) (w : WalkEntry) :
    Accounts (trackedVariance d.params) ((w.ty.term d.scope).places (slotPolarity table) w.base.polarity)
      (skippedPlaces table d.scope w.base w.ty)
      (collectOccurrences table (trackedVariance d.params) w.position w.base w.ty) :=
  accounted w.base w.ty

/-- A declaration without a report promises right if and only if what the check walks past agrees with the markers. -/
theorem sound_iff_skippedAgree (table : StdlibVariance) (d : Declaration) (h : ¬d.ReportsInconsistency table) :
    d.Sound table ↔ d.SkippedAgree table := by
  rw [sound_iff_places]
  constructor
  · intro hall w hw place hplace
    exact hall w hw place ((accountsOf table d w).skips place hplace)
  · intro hskipped w hw place hplace
    rcases (accountsOf table d w).covers place hplace with hs | ⟨occ, hocc, rfl⟩ | hnone
    · exact hskipped w hw place hs
    · rcases moveOf_of_tracked d.params occ.param with hmixed | ⟨v, hv, hmove⟩
      · exact Or.inl hmixed
      · refine Or.inr ?_
        rw [hmove, polarity_of_recorded h hw hocc hv]
    · rcases moveOf_of_tracked d.params place.1 with hmixed | ⟨v, hv, -⟩
      · exact Or.inl hmixed
      · rw [hnone] at hv
        cases hv

/-! A wrapper of an option; a field of an associated type, and a mutable field of a parameter with an argument. -/

def optionTable : StdlibVariance := fun name => if name = "Option" then some [.covariant] else none

def covariantOne (fields : List StructField) : Declaration := .struct ⟨"W", some [⟨"T", false, false, .covariant, true⟩], fields⟩

def wrapper : Declaration := covariantOne [⟨"inner", false, .path ["Option"] (some [.type (.path ["T"] none)])⟩]

def projected : Declaration := covariantOne [⟨"item", false, .path ["T", "Item"] none⟩]

def applied : Declaration := covariantOne [⟨"value", true, .path ["T"] (some [.type (.path ["i64"] none)])⟩]

theorem not_reports_of_nil (h : d.errors table = []) : ¬d.ReportsInconsistency table := by
  rintro ⟨param, declared, occurs, position, typeName, hmem⟩
  rw [h] at hmem
  cases hmem

theorem sound_iff_skippedAgree_wrapper : ¬wrapper.ReportsInconsistency optionTable ∧ wrapper.Sound optionTable := by
  have hreport : ¬wrapper.ReportsInconsistency optionTable := not_reports_of_nil (by decide)
  refine ⟨hreport, (sound_iff_skippedAgree optionTable wrapper hreport).mpr fun w hw place hplace => ?_⟩
  obtain rfl := List.mem_singleton.mp hw
  cases hplace

theorem not_sound_of_place {w : WalkEntry} {place : String × Polarity} (hw : w ∈ d.walk)
    (hplace : place ∈ (w.ty.term d.scope).places (slotPolarity table) w.base.polarity) (h : ¬Lib.Places.Agrees (moveOf d.params) place) :
    ¬d.Sound table :=
  fun hsound => h (sound_iff_places.mp hsound w hw place hplace)

/-- Neither is reported, and neither promises right. -/
theorem accepted_not_sound :
    (¬projected.ReportsInconsistency optionTable ∧ ¬projected.Sound optionTable) ∧
      ¬applied.ReportsInconsistency optionTable ∧ ¬applied.Sound optionTable := by
  refine ⟨⟨not_reports_of_nil (by decide), ?_⟩, not_reports_of_nil (by decide), ?_⟩
  · refine not_sound_of_place (List.mem_singleton_self _) (List.mem_singleton_self ("T", Polarity.mixed)) ?_
    rintro (hmixed | hsame)
    · cases hmixed
    · cases hsame
  · refine not_sound_of_place (List.mem_singleton_self _) (List.mem_singleton_self ("T", Polarity.mixed)) ?_
    rintro (hmixed | hsame)
    · cases hmixed
    · cases hsame

end Declaration

end Karac.Typechecker
