import Karac.Exhaustive.Usefulness

/-! Values of the checked types and what it means for a lowered pattern to match one. A column type
may have forgotten the arguments of a generic struct, so a value is compared with a column through
an instance of the column's type. -/

namespace Karac.Exhaustive

inductive VariantData where
  | unit
  | tuple
  | struct (names : List String)
deriving DecidableEq, Repr

def VariantTypeInfo.data : VariantTypeInfo → VariantData
  | .unit => .unit
  | .tuple _ => .tuple
  | .struct fields => .struct (fields.map (·.1))

/-- Run-time values. The unit value is the empty tuple; arrays, slices and vectors are sequences, and
a borrow is the value it borrows. Integers are the numbers they denote, not their carriers. -/
inductive Value where
  | bool (b : Bool)
  | int (x : ℤ)
  | char (code : ℤ)
  | str (s : String)
  | float (bits : ℕ)
  | tuple (elems : List Value)
  | variant (enumName variant : String) (data : VariantData) (fields : List Value)
  | struct (name : String) (names : List String) (fields : List Value)
  | seq (elems : List Value)
  | opaqueValue (id : ℕ)

/-- The integer by which ranges and literals compare a value. -/
def scalarKey : Value → Option ℤ
  | .int x => some x
  | .char code => some code
  | _ => none

def floatIsNaN (bits : ℕ) : Bool := decide (2047 * 2 ^ 52 < bits % 2 ^ 63)

/-- Equality of two doubles given by their bits: the two zeros are equal, a NaN equals nothing. -/
def floatEq (a b : ℕ) : Bool :=
  !floatIsNaN a && !floatIsNaN b && (decide (a = b) || (decide (a % 2 ^ 63 = 0) && decide (b % 2 ^ 63 = 0)))

/-! Refinement predicates. -/

def evalConst (env : TypeEnv) (x : ℤ) : PredExpr → Option ℤ
  | .selfValue => some x
  | .integer n => some n
  | .neg e => (evalConst env x e).map (- ·)
  | .identifier name => env.constValues name
  | .path [name] => env.constValues name
  | _ => none

def evalComparison (op : BinOp) (a b : ℤ) : Option Bool :=
  match op with
  | .lt => some (decide (a < b))
  | .ltEq => some (decide (a ≤ b))
  | .gt => some (decide (a > b))
  | .gtEq => some (decide (a ≥ b))
  | _ => none

/-- The truth value of a predicate at `self = x`; `none` where it uses an operation outside of
comparisons and conjunctions. -/
def evalPred (env : TypeEnv) (x : ℤ) : PredExpr → Option Bool
  | .binary .and left right =>
    match evalPred env x left, evalPred env x right with
    | some a, some b => some (a && b)
    | some false, none => some false
    | none, some false => some false
    | _, _ => none
  | .binary op left right =>
    match evalConst env x left, evalConst env x right with
    | some a, some b => evalComparison op a b
    | _, _ => none
  | _ => none

/-- A scalar value respects the predicate declared under `name`. -/
def RespectsPred (env : TypeEnv) (name : String) (v : Value) : Prop :=
  ∀ x, scalarKey v = some x → ∀ pred, env.refinementPredicates name = some pred →
    evalPred env x pred ≠ some false

/-- Integer types by their full range, which the 128-bit ones have beyond `intDomain`. -/
def intRangeOf : Ty → Option (ℤ × ℤ)
  | .int size => (intSizeDomain size).or (some (i128Min, i128Max))
  | .uint size => (uintSizeDomain size).or (some (0, 2 ^ 128 - 1))
  | _ => none

/-- Types whose values no pattern of the checker looks into. -/
def opaqueTy (env : TypeEnv) : Ty → Bool
  | .named name _ => (env.enums name).isNone && (env.structs name).isNone && !isOpenCollection name &&
      (env.distinctBases name).isNone
  | .shared name => (env.structs name).isNone
  | .vector _ _ | .rc _ | .arc _ | .function _ _ | .onceFunction _ _ | .weak _ | .pointer _ _ | .typeParam _
  | .typeVar _ | .shape | .assocProjection _ _ | .existential _ | .error => true
  | .int _ | .uint _ | .float _ | .bool | .char | .str | .unit | .never | .tuple _ | .array _ _ | .slice _ _
  | .ref _ | .mutRef _ | .refinement _ _ => false

/-- The field types of a struct applied to arguments. -/
def structFieldTypes (info : StructInfo) (args : List Ty) : List Ty :=
  info.fields.map fun f => substTypeParams (info.genericParams.zip args) f.2

inductive HasType (env : TypeEnv) : Value → Ty → Prop
  | bool (b : Bool) : HasType env (.bool b) .bool
  | int {x lo hi : ℤ} {ty : Ty} (hty : intRangeOf ty = some (lo, hi)) (hlo : lo ≤ x) (hhi : x ≤ hi) :
      HasType env (.int x) ty
  | char {code : ℤ} (hlo : 0 ≤ code) (hhi : code ≤ 0x10FFFF) : HasType env (.char code) .char
  | str (s : String) : HasType env (.str s) .str
  | float (bits : ℕ) (size : FloatSize) : HasType env (.float bits) (.float size)
  | unit : HasType env (.tuple []) .unit
  | tuple {vs : List Value} {tys : List Ty} (h : List.Forall₂ (HasType env) vs tys) :
      HasType env (.tuple vs) (.tuple tys)
  | array {vs : List Value} {element : Ty} {size : ConstArg}
      (hlen : ∀ n, size.asUsize = some n → vs.length = n) (h : ∀ v ∈ vs, HasType env v element) :
      HasType env (.seq vs) (.array element size)
  | slice {vs : List Value} {element : Ty} {m : Bool} (h : ∀ v ∈ vs, HasType env v element) :
      HasType env (.seq vs) (.slice element m)
  | vec {vs : List Value} {name : String} {args : List Ty} (hname : isOpenCollection name = true)
      (henum : env.enums name = none) (h : ∀ v ∈ vs, HasType env v (args.headD .unit)) :
      HasType env (.seq vs) (.named name args)
  | enum {vs : List Value} {name variant : String} {args : List Ty} {info : EnumInfo}
      {vinfo : VariantTypeInfo} (hinfo : env.enums name = some info)
      (hvariant : info.variant variant = some vinfo)
      (h : List.Forall₂ (HasType env) vs (variantPayloadTypes env (.named name args) variant)) :
      HasType env (.variant name variant vinfo.data vs) (.named name args)
  | struct {vs : List Value} {name : String} {args : List Ty} {info : StructInfo}
      (henum : env.enums name = none) (hvec : isOpenCollection name = false)
      (hinfo : env.structs name = some info)
      (h : List.Forall₂ (HasType env) vs (structFieldTypes info args)) :
      HasType env (.struct name (info.fields.map (·.1)) vs) (.named name args)
  | distinct {v : Value} {name : String} {args : List Ty} {base : Ty}
      (hbase : env.distinctBases name = some base) (h : HasType env v base)
      (hpred : RespectsPred env name v) : HasType env v (.named name args)
  | shared {vs : List Value} {name : String} {info : StructInfo} (hinfo : env.structs name = some info)
      (h : List.Forall₂ (HasType env) vs (info.fields.map (·.2))) :
      HasType env (.struct name (info.fields.map (·.1)) vs) (.shared name)
  | ref {v : Value} {inner : Ty} (h : HasType env v inner) : HasType env v (.ref inner)
  | mutRef {v : Value} {inner : Ty} (h : HasType env v inner) : HasType env v (.mutRef inner)
  | refinement {v : Value} {name : String} {base : Ty} (h : HasType env v base)
      (hpred : RespectsPred env name v) : HasType env v (.refinement name base)
  | opaqueTyped {v : Value} {ty : Ty} (h : opaqueTy env ty = true) : HasType env v ty

/-! Types that have forgotten parts of another one. -/

/-- `ty` is `t` with some parts replaced by type parameters. -/
inductive Forgets : Ty → Ty → Prop
  | param (t : Ty) (name : String) : Forgets t (.typeParam name)
  | refl (t : Ty) : Forgets t t
  | tuple {ts us : List Ty} (h : List.Forall₂ Forgets ts us) : Forgets (.tuple ts) (.tuple us)
  | named {name : String} {ts us : List Ty} (h : List.Forall₂ Forgets ts us) :
      Forgets (.named name ts) (.named name us)
  | rc {t u : Ty} (h : Forgets t u) : Forgets (.rc t) (.rc u)
  | arc {t u : Ty} (h : Forgets t u) : Forgets (.arc t) (.arc u)
  | ref {t u : Ty} (h : Forgets t u) : Forgets (.ref t) (.ref u)
  | mutRef {t u : Ty} (h : Forgets t u) : Forgets (.mutRef t) (.mutRef u)
  | slice {t u : Ty} {m : Bool} (h : Forgets t u) : Forgets (.slice t m) (.slice u m)
  | array {t u : Ty} {size : ConstArg} (h : Forgets t u) : Forgets (.array t size) (.array u size)
  | vector {t u : Ty} {lanes : ConstArg} (h : Forgets t u) : Forgets (.vector t lanes) (.vector u lanes)

theorem forall₂_forgets_refl (ts : List Ty) : List.Forall₂ Forgets ts ts :=
  List.forall₂_same.mpr fun t _ => Forgets.refl t

/-- `subs'` replaces no more than `subs`, by types that have forgotten parts. -/
def SubstForgets (subs subs' : List (String × Ty)) : Prop :=
  ∀ name, lookupSubst subs' name = none ∨ ∃ t u, lookupSubst subs name = some t ∧
    lookupSubst subs' name = some u ∧ Forgets t u

mutual

/-- Related substitutions give related types. -/
theorem forgets_subst {subs subs' : List (String × Ty)}
    (h : SubstForgets subs subs') :
    ∀ ty : Ty, Forgets (substTypeParams subs ty) (substTypeParams subs' ty)
  | .typeParam name => by
    rcases h name with h | ⟨t, u, ht, hu, htu⟩
    · simp only [substTypeParams, h, Option.getD_none]
      exact Forgets.param _ _
    · simp only [substTypeParams, ht, hu, Option.getD_some]
      exact htu
  | .named name args => Forgets.named (forgets_substAll h args)
  | .tuple elems => Forgets.tuple (forgets_substAll h elems)
  | .rc inner => Forgets.rc (forgets_subst h inner)
  | .arc inner => Forgets.arc (forgets_subst h inner)
  | .ref inner => Forgets.ref (forgets_subst h inner)
  | .mutRef inner => Forgets.mutRef (forgets_subst h inner)
  | .slice element _ => Forgets.slice (forgets_subst h element)
  | .array element _ => Forgets.array (forgets_subst h element)
  | .vector element _ => Forgets.vector (forgets_subst h element)
  | .int _ | .uint _ | .float _ | .bool | .char | .str | .unit | .never | .shared _ | .function _ _
  | .onceFunction _ _ | .weak _ | .pointer _ _ | .typeVar _ | .shape | .assocProjection _ _
  | .existential _ | .refinement _ _ | .error => Forgets.refl _

theorem forgets_substAll {subs subs' : List (String × Ty)}
    (h : SubstForgets subs subs') :
    ∀ tys : List Ty, List.Forall₂ Forgets (substAll subs tys) (substAll subs' tys)
  | [] => List.Forall₂.nil
  | ty :: tys => List.Forall₂.cons (forgets_subst h ty) (forgets_substAll h tys)

end

mutual

theorem substTypeParams_nil : ∀ ty : Ty, substTypeParams [] ty = ty
  | .typeParam _ => rfl
  | .named _ args => by rw [substTypeParams, substAll_nil]
  | .tuple elems => by rw [substTypeParams, substAll_nil]
  | .rc inner => by rw [substTypeParams, substTypeParams_nil inner]
  | .arc inner => by rw [substTypeParams, substTypeParams_nil inner]
  | .ref inner => by rw [substTypeParams, substTypeParams_nil inner]
  | .mutRef inner => by rw [substTypeParams, substTypeParams_nil inner]
  | .slice element _ => by rw [substTypeParams, substTypeParams_nil element]
  | .array element _ => by rw [substTypeParams, substTypeParams_nil element]
  | .vector element _ => by rw [substTypeParams, substTypeParams_nil element]
  | .int _ | .uint _ | .float _ | .bool | .char | .str | .unit | .never | .shared _ | .function _ _
  | .onceFunction _ _ | .weak _ | .pointer _ _ | .typeVar _ | .shape | .assocProjection _ _
  | .existential _ | .refinement _ _ | .error => rfl

theorem substAll_nil : ∀ tys : List Ty, substAll [] tys = tys
  | [] => rfl
  | ty :: tys => by rw [substAll, substTypeParams_nil ty, substAll_nil tys]

end

theorem substForgets_nil (subs : List (String × Ty)) : SubstForgets subs [] := fun _ => Or.inl rfl

theorem lookup_forgets {subs subs' : List (String × Ty)}
    (h : List.Forall₂ (fun p p' => p.1 = p'.1 ∧ Forgets p.2 p'.2) subs subs') (name : String) :
    subs'.lookup name = none ∨ ∃ t u, subs.lookup name = some t ∧ subs'.lookup name = some u ∧
      Forgets t u := by
  induction h with
  | nil => exact Or.inl rfl
  | @cons p p' _ _ hp _ ih =>
    obtain ⟨k, t⟩ := p
    obtain ⟨k', u⟩ := p'
    obtain ⟨rfl, hp⟩ := hp
    cases hk : name == k with
    | true => exact Or.inr ⟨t, u, by simp [List.lookup_cons, hk], by simp [List.lookup_cons, hk], hp⟩
    | false => simpa [List.lookup_cons, hk] using ih

theorem substForgets_zip (params : List String) {args args' : List Ty}
    (h : List.Forall₂ Forgets args args') : SubstForgets (params.zip args) (params.zip args') := by
  have hzip : List.Forall₂ (fun p p' => p.1 = p'.1 ∧ Forgets p.2 p'.2) (params.zip args)
      (params.zip args') := by
    induction h generalizing params with
    | nil => simp
    | cons hab _ ih =>
      cases params with
      | nil => simp
      | cons k params => exact List.Forall₂.cons ⟨rfl, hab⟩ (ih params)
  exact lookup_forgets (List.forall₂_reverse_iff.mpr hzip)

/-- The declared types of the fields have forgotten the arguments. -/
theorem structFieldTypes_forgets (info : StructInfo) (args : List Ty) :
    List.Forall₂ Forgets (structFieldTypes info args) (info.fields.map (·.2)) := by
  unfold structFieldTypes
  rw [List.forall₂_map_left_iff, List.forall₂_map_right_iff]
  refine List.forall₂_same.mpr fun f _ => ?_
  have h := forgets_subst (substForgets_nil (info.genericParams.zip args)) f.2
  rwa [substTypeParams_nil] at h

theorem variantPayloadTypes_forgets (env : TypeEnv) (name variant : String) {args args' : List Ty}
    (h : List.Forall₂ Forgets args args') :
    List.Forall₂ Forgets (variantPayloadTypes env (.named name args) variant)
      (variantPayloadTypes env (.named name args') variant) := by
  unfold variantPayloadTypes
  cases henum : env.enums name with
  | none => simp only [henum, List.forall₂_nil_right_iff]
  | some info =>
    cases hv : info.variant variant with
    | none => simp only [henum, hv, List.forall₂_nil_right_iff]
    | some vinfo =>
      have hempty : args.isEmpty = args'.isEmpty := by
        cases h <;> rfl
      simp only [henum, hv, hempty]
      split_ifs
      · exact forall₂_forgets_refl _
      · rw [List.forall₂_map_left_iff, List.forall₂_map_right_iff]
        exact List.forall₂_same.mpr fun t _ => forgets_subst (substForgets_zip _ h) t

/-! Lowered patterns. -/

/-- The fields of `v` under the constructor. A slice pattern with a rest lowers to the number of its
fixed elements; `split n` says how many of `n` stand before the rest, and such a pattern matches
nothing where that is unknown. -/
def HeadOf (split : ℕ → Option ℕ) (c : PatCtor) (v : Value) (fields : List Value) : Prop :=
  match c with
  | .bool b => v = .bool b ∧ fields = []
  | .variant name => ∃ e d, v = .variant e name d fields
  | .lit (.string s) => v = .str s ∧ fields = []
  | .lit (.float bits) => (∃ b, v = .float b ∧ floatEq bits b = true) ∧ fields = []
  | .intRange lo hi => (∃ x, scalarKey v = some x ∧ lo ≤ x ∧ x ≤ hi) ∧ fields = []
  | .tuple => v = .tuple fields
  | .struct name => ∃ names, v = .struct name names fields
  | .array n => v = .seq fields ∧ fields.length = n
  | .sliceLen n false => v = .seq fields ∧ fields.length = n
  | .sliceLen n true => ∃ k vs, split n = some k ∧ k ≤ n ∧ v = .seq vs ∧ n ≤ vs.length ∧
      fields = vs.take k ++ vs.drop (vs.length - (n - k))

theorem HeadOf.unique {split : ℕ → Option ℕ} {c : PatCtor} {v : Value} {fields fields' : List Value}
    (h : HeadOf split c v fields) (h' : HeadOf split c v fields') : fields = fields' := by
  cases c with
  | lit l => cases l <;> exact h.2.trans h'.2.symm
  | bool b => exact h.2.trans h'.2.symm
  | intRange lo hi => exact h.2.trans h'.2.symm
  | variant name =>
    obtain ⟨e, d, rfl⟩ := h
    obtain ⟨e', d', heq⟩ := h'
    exact (Value.variant.inj heq).2.2.2
  | tuple => exact Value.tuple.inj (h.symm.trans h')
  | struct name =>
    obtain ⟨names, rfl⟩ := h
    obtain ⟨names', heq⟩ := h'
    exact (Value.struct.inj heq).2.2
  | array n => exact Value.seq.inj (h.1.symm.trans h'.1)
  | sliceLen n rest =>
    cases rest with
    | false => exact Value.seq.inj (h.1.symm.trans h'.1)
    | true =>
      obtain ⟨k, vs, hk, -, rfl, -, rfl⟩ := h
      obtain ⟨k', vs', hk', -, heq, -, rfl⟩ := h'
      obtain rfl := Value.seq.inj heq
      obtain rfl := Option.some.inj (hk.symm.trans hk')
      rfl

inductive PatMatches (split : ℕ → Option ℕ) : Pat → Value → Prop
  | wildcard (v : Value) : PatMatches split .wildcard v
  | or {alts : List Pat} {alt : Pat} {v : Value} (hmem : alt ∈ alts) (h : PatMatches split alt v) :
      PatMatches split (.or alts) v
  | ctor {c : PatCtor} {args : List Pat} {v : Value} {fields : List Value}
      (hhead : HeadOf split c v fields) (h : List.Forall₂ (PatMatches split) args fields) :
      PatMatches split (.ctor c args) v

abbrev RowMatches (split : ℕ → Option ℕ) (row : Row) (vs : List Value) : Prop :=
  List.Forall₂ (PatMatches split) row vs

/-- Some row of the matrix matches the values. -/
def Covers (split : ℕ → Option ℕ) (m : Matrix) (vs : List Value) : Prop :=
  ∃ row ∈ m, RowMatches split row vs

section Alternatives

variable {split : ℕ → Option ℕ}

mutual

/-- A pattern matches what its alternatives match. -/
theorem matches_alternatives (v : Value) :
    ∀ p : Pat, PatMatches split p v ↔ ∃ alt ∈ p.alternatives, PatMatches split alt v
  | .wildcard => by simp
  | .ctor c args => by simp
  | .or alts => by
    rw [Pat.alternatives_or, ← matches_alternativesAll v alts]
    refine ⟨fun h => ?_, fun ⟨alt, hmem, h⟩ => PatMatches.or hmem h⟩
    cases h with
    | or hmem h => exact ⟨_, hmem, h⟩

theorem matches_alternativesAll (v : Value) :
    ∀ ps : List Pat, (∃ p ∈ ps, PatMatches split p v) ↔
      ∃ alt ∈ alternativesAll ps, PatMatches split alt v
  | [] => by simp [alternativesAll]
  | p :: ps => by
    simp only [alternativesAll, List.mem_cons, List.mem_append, or_and_right, exists_or,
      ← matches_alternativesAll v ps, ← matches_alternatives v p, exists_eq_left]

end

mutual

theorem alternatives_not_or : ∀ p : Pat, ∀ alt ∈ p.alternatives, ∀ alts, alt ≠ .or alts
  | .wildcard => by simp
  | .ctor c args => by simp
  | .or alts => alternativesAll_not_or alts

theorem alternativesAll_not_or : ∀ ps : List Pat, ∀ alt ∈ alternativesAll ps, ∀ alts, alt ≠ .or alts
  | [] => by simp [alternativesAll]
  | p :: ps => by
    intro alt h
    rcases List.mem_append.mp h with h | h
    · exact alternatives_not_or p alt h
    · exact alternativesAll_not_or ps alt h

end

theorem mem_mapHeads {α : Type} {f : Pat → Row → Option α} {m : Matrix} {a : α} :
    a ∈ mapHeads f m ↔ ∃ head tail, head :: tail ∈ m ∧ ∃ alt ∈ head.alternatives, f alt tail = some a := by
  unfold mapHeads
  rw [List.mem_flatMap]
  refine ⟨fun ⟨row, hrow, ha⟩ => ?_, fun ⟨head, tail, hrow, ha⟩ => ?_⟩
  · cases row with
    | nil => simp at ha
    | cons head tail => exact ⟨head, tail, hrow, List.mem_filterMap.mp ha⟩
  · exact ⟨head :: tail, hrow, List.mem_filterMap.mpr ha⟩

theorem mem_specialize {m : Matrix} {c : PatCtor} {arity : ℕ} {row : Row} :
    row ∈ specialize m c arity ↔ ∃ head tail, head :: tail ∈ m ∧
      ((.wildcard ∈ head.alternatives ∧ row = List.replicate arity .wildcard ++ tail) ∨
        ∃ args, .ctor c args ∈ head.alternatives ∧ row = args ++ tail) := by
  unfold specialize
  rw [mem_mapHeads]
  refine ⟨fun ⟨head, tail, hmem, alt, halt, hf⟩ => ⟨head, tail, hmem, ?_⟩,
    fun ⟨head, tail, hmem, h⟩ => ⟨head, tail, hmem, ?_⟩⟩
  · cases alt with
    | wildcard => exact Or.inl ⟨halt, (Option.some.inj hf).symm⟩
    | ctor c' args =>
      obtain ⟨hc, hrow⟩ := Option.ite_none_right_eq_some.mp hf
      exact Or.inr ⟨args, hc ▸ halt, (Option.some.inj hrow).symm⟩
    | or alts => exact absurd hf (by simp)
  · rcases h with ⟨halt, rfl⟩ | ⟨args, halt, rfl⟩
    · exact ⟨_, halt, rfl⟩
    · exact ⟨_, halt, if_pos rfl⟩

theorem mem_defaultMatrix {m : Matrix} {row : Row} :
    row ∈ defaultMatrix m ↔ ∃ head, head :: row ∈ m ∧ .wildcard ∈ head.alternatives := by
  unfold defaultMatrix
  rw [mem_mapHeads]
  refine ⟨fun ⟨head, tail, hmem, alt, halt, hf⟩ => ?_,
    fun ⟨head, hmem, halt⟩ => ⟨head, row, hmem, .wildcard, halt, rfl⟩⟩
  cases alt with
  | wildcard =>
    obtain rfl := Option.some.inj hf
    exact ⟨head, hmem, halt⟩
  | ctor _ _ => exact absurd hf (by simp)
  | or _ => exact absurd hf (by simp)

theorem mem_keepRows {m : Matrix} {seg : ℤ × ℤ} {row : Row} :
    row ∈ keepRows (intRows m) seg ↔ ∃ head, head :: row ∈ m ∧ (.wildcard ∈ head.alternatives ∨
      ∃ lo hi args, .ctor (.intRange lo hi) args ∈ head.alternatives ∧ lo ≤ seg.1 ∧ seg.2 ≤ hi) := by
  rw [keepRows_intRows, mem_mapHeads]
  refine ⟨fun ⟨head, tail, hmem, alt, halt, hf⟩ => ?_, fun ⟨head, hmem, h⟩ => ⟨head, row, hmem, ?_⟩⟩
  · cases alt with
    | wildcard =>
      obtain rfl := Option.some.inj hf
      exact ⟨head, hmem, Or.inl halt⟩
    | ctor c args =>
      cases c with
      | intRange lo hi =>
        obtain ⟨hkeep, hrow⟩ := Option.ite_none_right_eq_some.mp hf
        obtain rfl := Option.some.inj hrow
        exact ⟨head, hmem, Or.inr ⟨lo, hi, args, halt, hkeep⟩⟩
      | _ => exact absurd hf (by simp [keepHead])
    | or _ => exact absurd hf (by simp [keepHead])
  · rcases h with halt | ⟨lo, hi, args, halt, hkeep⟩
    · exact ⟨_, halt, rfl⟩
    · exact ⟨_, halt, if_pos hkeep⟩

/-- A matrix covers a vector through an alternative of a head and a tail. -/
theorem covers_cons {m : Matrix} {v : Value} {vs : List Value} :
    Covers split m (v :: vs) ↔ ∃ head tail, head :: tail ∈ m ∧
      (∃ alt ∈ head.alternatives, PatMatches split alt v) ∧ RowMatches split tail vs := by
  refine ⟨fun ⟨row, hrow, h⟩ => ?_, fun ⟨head, tail, hrow, halt, htail⟩ => ?_⟩
  · cases h with
    | cons hhead htail => exact ⟨_, _, hrow, (matches_alternatives v _).mp hhead, htail⟩
  · exact ⟨head :: tail, hrow, List.Forall₂.cons ((matches_alternatives v head).mpr halt) htail⟩

end Alternatives

end Karac.Exhaustive
