import Karac.Exhaustive.Arms

/-! The lowering narrows: a value that the lowered pattern matches is matched by the pattern, and the
lowered pattern fits the column that the algorithm opens for it. The actual type of the value, the
type the lowering carries and the type of the column may all differ by forgotten parts. -/

namespace Karac.Exhaustive

variable {env : TypeEnv} {scope : Scope} {split : ℕ → Option ℕ}

/-- No slice pattern with a rest is relied on. -/
def noSplit : ℕ → Option ℕ := fun _ => none

mutual

theorem splitSees_noSplit : ∀ (p : Pattern) (ty : Ty), SplitSees env noSplit p ty
  | .wildcard, _ => trivial
  | .binding _, _ => trivial
  | .literal _, _ => trivial
  | .rangePattern _ _ _, _ => trivial
  | .atBinding _ pattern, ty => splitSees_noSplit pattern ty
  | .struct _ fields, _ => splitFields_noSplit fields _
  | .tupleVariant _ patterns, _ => splitAll_noSplit patterns _
  | .tuple patterns, _ => splitAll_noSplit patterns _
  | .or alts, ty => splitEach_noSplit alts ty
  | .slice front hasRest back, ty => by
    rw [SplitSees]
    cases sliceShape ty front.length hasRest back.length with
    | array L n => exact ⟨splitEach_noSplit front L, splitEach_noSplit back L⟩
    | openEnded L => exact ⟨fun _ => rfl, splitEach_noSplit front L, splitEach_noSplit back L⟩
    | rejected => trivial

theorem splitAll_noSplit : ∀ (ps : List Pattern) (tys : List Ty), SplitAll env noSplit ps tys
  | [], _ => trivial
  | p :: ps, _ => ⟨splitSees_noSplit p _, splitAll_noSplit ps _⟩

theorem splitEach_noSplit : ∀ (ps : List Pattern) (ty : Ty), SplitEach env noSplit ps ty
  | [], _ => trivial
  | p :: ps, ty => ⟨splitSees_noSplit p ty, splitEach_noSplit ps ty⟩

theorem splitFields_noSplit :
    ∀ (fields : List (String × Option Pattern)) (decls : List (String × Ty)), SplitFields env noSplit fields decls
  | [], _ => trivial
  | (_, some p) :: rest, decls => ⟨fun d _ _ => splitSees_noSplit p d.2, splitFields_noSplit rest decls⟩
  | (_, none) :: rest, decls => splitFields_noSplit rest decls

end

/-- The type the lowering carries, against the actual one: parts may be forgotten, and below a
forgotten constructor the lowering goes on with `Unit`. -/
def Tracks (ty lowered : Ty) : Prop := Forgets ty lowered ∨ lowered = .unit

def TracksAll (tys lowered : List Ty) : Prop := List.Forall₂ Forgets tys lowered ∨ lowered = []

theorem TracksAll.head {ty : Ty} {tys lowered : List Ty} (h : TracksAll (ty :: tys) lowered) :
    Tracks ty (lowered.headD .unit) ∧ TracksAll tys lowered.tail := by
  rcases h with h | rfl
  · cases h with
    | cons h hrest => exact ⟨Or.inl h, Or.inl hrest⟩
  · exact ⟨Or.inr rfl, Or.inr rfl⟩

theorem bindingIsUnitVariant_plain {name : String} (h : PlainName env scope name) (v : Value) :
    bindingIsUnitVariant env scope name v = false := by
  obtain ⟨hdot, hup | ⟨hscope, hdecl⟩⟩ := h
  · simp [bindingIsUnitVariant, hdot, hup]
  · cases v <;> simp [bindingIsUnitVariant, hdot, hscope, hdecl]

theorem binding_sound {name : String} {lowered : Ty} {v : Value}
    (hsees : LoweringSees env scope (.binding name) lowered)
    (h : PatMatches split (lowerPattern env (.binding name) lowered) v) :
    tryMatchPattern env scope (.binding name) v = true := by
  rw [lowerPattern] at h
  rcases hsees with ⟨hvar, -⟩ | ⟨-, hplain⟩
  · rw [if_pos hvar] at h
    cases h with
    | ctor hhead _ =>
      obtain ⟨e, d, rfl⟩ := hhead
      simp [tryMatchPattern]
  · simp [tryMatchPattern, bindingIsUnitVariant_plain hplain]

theorem literal_sound {lit : LiteralPattern} {ty lowered : Ty} {v : Value}
    (hc : Checked env (.literal lit) ty) (hv : HasType env v ty)
    (h : PatMatches split (lowerPattern env (.literal lit) lowered) v) :
    tryMatchPattern env scope (.literal lit) v = true := by
  cases lit <;> rw [lowerPattern] at h <;> cases h with
  | ctor hhead _ => ?_
  · obtain ⟨⟨x, hx, h1, h2⟩, -⟩ := hhead
    rw [IntTyped.value hc hv hx]
    simp only [tryMatchPattern, literalMatches, decide_eq_true_eq]
    omega
  · obtain ⟨⟨b, rfl, hb⟩, -⟩ := hhead
    exact hb
  · obtain ⟨⟨x, hx, h1, h2⟩, -⟩ := hhead
    rw [CharTyped.value hc hv hx]
    simp only [tryMatchPattern, literalMatches, decide_eq_true_eq]
    omega
  · rw [hhead.1]
    simp [tryMatchPattern, literalMatches]
  · rw [hhead.1]
    simp [tryMatchPattern, literalMatches]

theorem range_sound {start stop : Option RangeBound} {inclusive : Bool} {ty lowered : Ty} {v : Value}
    (hc : Checked env (.rangePattern start stop inclusive) ty)
    (h : PatMatches split (lowerPattern env (.rangePattern start stop inclusive) lowered) v) :
    tryMatchPattern env scope (.rangePattern start stop inclusive) v = true := by
  obtain ⟨hstart, hstop⟩ := hc
  rw [lowerPattern] at h
  cases h with
  | ctor hhead _ =>
    obtain ⟨⟨x, hx, h1, h2⟩, -⟩ := hhead
    simp only [tryMatchPattern, valueInRangePattern, hx, Bool.and_eq_true]
    constructor
    · cases start with
      | none => rfl
      | some b =>
        obtain ⟨lo, hlo⟩ := Option.isSome_iff_exists.mp (hstart b rfl)
        simp only [Option.bind_some, hlo, Option.getD_some] at h1
        simp [hlo, h1]
    · cases stop with
      | none => rfl
      | some b =>
        obtain ⟨hi, hhi⟩ := Option.isSome_iff_exists.mp (hstop b rfl)
        simp only [Option.bind_some, hhi, Option.map_some, Option.getD_some] at h2
        cases inclusive with
        | true => simpa [hhi] using h2
        | false =>
          simp only [hhi, Bool.false_eq_true, if_false, decide_eq_true_eq] at h2 ⊢
          omega

theorem matchAll_append {ps : List Pattern} {vs ws : List Value} (hlen : ps.length = vs.length) :
    matchAll env scope ps (vs ++ ws) = matchAll env scope ps vs := by
  induction ps generalizing vs with
  | nil => simp [matchAll]
  | cons p ps ih =>
    cases vs with
    | nil => simp at hlen
    | cons v vs => simp only [List.cons_append, matchAll, ih (Nat.succ.inj hlen)]

theorem lowerEach_length (ps : List Pattern) (ty : Ty) : (lowerEach env ps ty).length = ps.length := by
  induction ps with
  | nil => rfl
  | cons p ps ih => simp [lowerEach, ih]

theorem lowerPatterns_length (ps : List Pattern) (tys : List Ty) :
    (lowerPatterns env ps tys).length = ps.length := by
  induction ps generalizing tys with
  | nil => rfl
  | cons p ps ih => simp [lowerPatterns, ih]

theorem Forgets.strip {ty lowered : Ty} (h : Forgets ty lowered) :
    (∃ t, Forgets t (stripBorrow lowered) ∧ peelRef ty = peelRef t) ∨ ∃ name, lowered = .typeParam name := by
  cases h with
  | param name => exact Or.inr ⟨_, rfl⟩
  | refl =>
    refine Or.inl ⟨stripBorrow ty, Forgets.refl _, ?_⟩
    cases ty <;> rfl
  | ref h => exact Or.inl ⟨_, h, rfl⟩
  | mutRef h => exact Or.inl ⟨_, h, rfl⟩
  | tuple h => exact Or.inl ⟨_, Forgets.tuple h, rfl⟩
  | named h => exact Or.inl ⟨_, Forgets.named h, rfl⟩
  | rc h => exact Or.inl ⟨_, Forgets.rc h, rfl⟩
  | arc h => exact Or.inl ⟨_, Forgets.arc h, rfl⟩
  | slice h => exact Or.inl ⟨_, Forgets.slice h, rfl⟩
  | array h => exact Or.inl ⟨_, Forgets.array h, rfl⟩
  | vector h => exact Or.inl ⟨_, Forgets.vector h, rfl⟩

/-- The shape a slice pattern is lowered to says what stands below the borrow. -/
theorem sliceShape_array {lowered element : Ty} {f b n : ℕ} {r : Bool}
    (h : sliceShape lowered f r b = .array element n) :
    (∃ size, stripBorrow lowered = .array element size) ∧ f + b ≤ n ∧ (r = false → f + b = n) := by
  unfold sliceShape at h
  cases hstrip : stripBorrow lowered with
  | array e size =>
    simp only [hstrip] at h
    cases hsize : size.asUsize with
    | none => simp [hsize] at h
    | some k =>
      simp only [hsize] at h
      split_ifs at h with h1 h2
      obtain ⟨rfl, rfl⟩ := SliceShape.array.inj h
      refine ⟨⟨size, rfl⟩, by omega, fun hr => ?_⟩
      simpa [hr] using h2
  | named name args =>
    simp only [hstrip] at h
    split_ifs at h
  | _ => simp [hstrip] at h

theorem sliceShape_openEnded {lowered element : Ty} {f b : ℕ} {r : Bool}
    (h : sliceShape lowered f r b = .openEnded element) :
    (∃ m, stripBorrow lowered = .slice element m) ∨
      ∃ name args, stripBorrow lowered = .named name args ∧ element = args.headD .unit := by
  unfold sliceShape at h
  cases hstrip : stripBorrow lowered with
  | array e size =>
    simp only [hstrip] at h
    cases hsize : size.asUsize with
    | none => simp [hsize] at h
    | some k =>
      simp only [hsize] at h
      split_ifs at h
  | slice e m =>
    simp only [hstrip] at h
    obtain rfl := SliceShape.openEnded.inj h
    exact Or.inl ⟨m, rfl⟩
  | named name args =>
    simp only [hstrip] at h
    split_ifs at h
    exact Or.inr ⟨name, args, rfl, (SliceShape.openEnded.inj h).symm⟩
  | _ => simp [hstrip] at h

theorem array_element {ty lowered element element' : Ty} {f b n : ℕ} {r : Bool} (ht : Tracks ty lowered)
    (hactual : actualElement env ty = some element)
    (hshape : sliceShape lowered f r b = .array element' n) : Forgets element element' := by
  obtain ⟨⟨size, heq⟩, -⟩ := sliceShape_array hshape
  rcases ht with ht | rfl
  · rcases ht.strip with ⟨t, ht, hpeel⟩ | ⟨name, rfl⟩
    · unfold actualElement at hactual
      rw [hpeel] at hactual
      rw [heq] at ht
      cases ht with
      | refl => rw [Option.some.inj hactual]; exact Forgets.refl _
      | array h => rw [← Option.some.inj hactual]; exact h
    · exact absurd heq (by simp [stripBorrow])
  · exact absurd heq (by simp [stripBorrow])

theorem openEnded_element {ty lowered element element' : Ty} {f b : ℕ} {r : Bool} (ht : Tracks ty lowered)
    (hactual : actualElement env ty = some element)
    (hshape : sliceShape lowered f r b = .openEnded element') : Forgets element element' := by
  have heq := sliceShape_openEnded hshape
  rcases ht with ht | rfl
  · rcases ht.strip with ⟨t, ht, hpeel⟩ | ⟨name, rfl⟩
    · unfold actualElement at hactual
      rw [hpeel] at hactual
      rcases heq with ⟨m, heq⟩ | ⟨name, args, heq, rfl⟩
      · rw [heq] at ht
        cases ht with
        | refl => rw [Option.some.inj hactual]; exact Forgets.refl _
        | slice h => rw [← Option.some.inj hactual]; exact h
      · rw [heq] at ht
        cases ht with
        | refl =>
          obtain ⟨-, h⟩ := Option.ite_none_right_eq_some.mp hactual
          rw [Option.some.inj h]
          exact Forgets.refl _
        | named hargs =>
          obtain ⟨-, h⟩ := Option.ite_none_right_eq_some.mp hactual
          rw [← Option.some.inj h]
          exact forgets_headD hargs
    · exact absurd heq (by simp [stripBorrow])
  · exact absurd heq (by simp [stripBorrow])

/-- A value a slice pattern looks at is a sequence of elements of the element type. -/
theorem actualElement_value {ty element : Ty} {v : Value} (h : actualElement env ty = some element)
    (hv : HasType env v ty) : ∃ vs, v = .seq vs ∧ ∀ w ∈ vs, HasType env w element := by
  have hp := hv.peel
  unfold actualElement at h
  cases hpeel : peelRef ty with
  | array e size =>
    rw [hpeel] at h hp
    obtain rfl := Option.some.inj h
    cases hp with
    | array _ h => exact ⟨_, rfl, h⟩
    | int hty => exact absurd hty (by simp [intRangeOf])
    | opaqueTyped h => simp [opaqueTy] at h
  | slice e m =>
    rw [hpeel] at h hp
    obtain rfl := Option.some.inj h
    cases hp with
    | slice h => exact ⟨_, rfl, h⟩
    | int hty => exact absurd hty (by simp [intRangeOf])
    | opaqueTyped h => simp [opaqueTy] at h
  | named n args =>
    rw [hpeel] at h hp
    obtain ⟨hcond, h⟩ := Option.ite_none_right_eq_some.mp h
    obtain rfl := Option.some.inj h
    obtain ⟨hopen, henum⟩ := Bool.and_eq_true_iff.mp hcond
    cases hp with
    | vec _ _ h => exact ⟨_, rfl, h⟩
    | int hty => exact absurd hty (by simp [intRangeOf])
    | enum hinfo => simp [hinfo] at henum
    | struct _ hvec => simp [hvec] at hopen
    | distinct hbase =>
      exact absurd (beq_iff_eq.mp hopen) (env.distinct_only n (by rw [hbase]; rfl)).2.2
    | opaqueTyped h => simp [opaqueTy, hopen] at h
  | _ => rw [hpeel] at h; exact absurd h (by simp)

theorem actualElems_typed {ty : Ty} {tys : List Ty} {fields : List Value} (h : actualElems ty = some tys)
    (hv : HasType env (.tuple fields) ty) : List.Forall₂ (HasType env) fields tys := by
  have hp := hv.peel
  unfold actualElems at h
  cases hpeel : peelRef ty with
  | tuple elems =>
    rw [hpeel] at h hp
    obtain rfl := Option.some.inj h
    cases hp with
    | tuple h => exact h
    | opaqueTyped h => simp [opaqueTy] at h
  | unit =>
    rw [hpeel] at h hp
    obtain rfl := Option.some.inj h
    cases hp with
    | unit => exact List.Forall₂.nil
    | opaqueTyped h => simp [opaqueTy] at h
  | _ => rw [hpeel] at h; exact absurd h (by simp)

theorem actualElems_forgets {ty lowered : Ty} {tys elems : List Ty} (h : actualElems ty = some tys)
    (ht : Forgets ty lowered) (hlow : lowered = .tuple elems) : List.Forall₂ Forgets tys elems := by
  subst hlow
  cases ht with
  | refl => rw [← Option.some.inj h]; exact forall₂_forgets_refl _
  | tuple hs => rw [← Option.some.inj h]; exact hs

theorem actualElems_tracks {ty lowered : Ty} {tys : List Ty} (h : actualElems ty = some tys)
    (ht : Tracks ty lowered) : TracksAll tys (tupleElems lowered) := by
  rcases ht with ht | rfl
  · cases lowered with
    | tuple elems => exact Or.inl (actualElems_forgets h ht rfl)
    | _ => exact Or.inr rfl
  · exact Or.inr rfl

/-- A value of an enum type. -/
theorem HasType.enum_inv {v : Value} {n : String} {args : List Ty} {info : EnumInfo}
    (h : HasType env v (.named n args)) (henum : env.enums n = some info) :
    ∃ variant vinfo vs, v = .variant n variant vinfo.data vs ∧ info.variant variant = some vinfo ∧
      List.Forall₂ (HasType env) vs (variantPayloadTypes env (.named n args) variant) := by
  cases h with
  | int hty => exact absurd hty (by simp [intRangeOf])
  | vec _ hnone => rw [hnone] at henum; exact absurd henum (by simp)
  | struct hnone => rw [hnone] at henum; exact absurd henum (by simp)
  | distinct hbase =>
    rw [(env.distinct_only n (by rw [hbase]; rfl)).1] at henum
    exact absurd henum (by simp)
  | opaqueTyped h => simp [opaqueTy, henum] at h
  | enum hinfo hvariant hvs =>
    obtain rfl := Option.some.inj (henum.symm.trans hinfo)
    exact ⟨_, _, _, rfl, hvariant, hvs⟩

/-- A named type that the lowering carries is the actual one up to its arguments. -/
theorem Forgets.of_named {ty : Ty} {n : String} {us : List Ty} (h : Forgets ty (.named n us)) :
    ∃ ts, ty = .named n ts ∧ List.Forall₂ Forgets ts us := by
  cases h with
  | refl => exact ⟨us, rfl, forall₂_forgets_refl us⟩
  | named h => exact ⟨_, rfl, h⟩

theorem actualPayload_typed {ty : Ty} {name e : String} {d : VariantData} {tys : List Ty}
    {fields : List Value} (h : actualPayload env ty name = some tys)
    (hv : HasType env (.variant e name d fields) ty) :
    d = .tuple ∧ List.Forall₂ (HasType env) fields tys := by
  have hp := hv.peel
  unfold actualPayload at h
  cases hpeel : peelRef ty with
  | named n args =>
    rw [hpeel] at h hp
    cases henum : env.enums n with
    | none => simp [henum] at h
    | some info =>
      obtain ⟨variant, vinfo, vs, heq, hvar, hvs⟩ := hp.enum_inv henum
      obtain ⟨rfl, rfl, rfl, rfl⟩ := Value.variant.inj heq
      cases vinfo with
      | tuple types =>
        simp only [henum, Option.bind_some, hvar, Option.some.injEq] at h
        subst h
        exact ⟨rfl, hvs⟩
      | unit => simp [henum, hvar] at h
      | struct decls => simp [henum, hvar] at h
  | _ => rw [hpeel] at h; exact absurd h (by simp)

theorem actualPayload_forgets {ty : Ty} {n name : String} {us tys : List Ty}
    (h : actualPayload env ty name = some tys) (ht : Forgets ty (.named n us)) :
    List.Forall₂ Forgets tys (variantPayloadTypes env (.named n us) name) := by
  obtain ⟨ts, rfl, hts⟩ := ht.of_named
  simp only [actualPayload, peelRef] at h
  split at h
  · obtain rfl := Option.some.inj h
    exact variantPayloadTypes_forgets env n name hts
  · exact absurd h (by simp)

theorem actualPayload_tracks {ty lowered : Ty} {name : String} {tys : List Ty}
    (h : actualPayload env ty name = some tys) (ht : Tracks ty lowered) :
    TracksAll tys (variantPayloadTypes env lowered name) := by
  rcases ht with ht | rfl
  · cases lowered with
    | named n us => exact Or.inl (actualPayload_forgets h ht)
    | _ => exact Or.inr rfl
  · exact Or.inr rfl

/-! Struct patterns. -/

/-- The declared fields against those the lowering goes on with. -/
def FieldTracks (d d' : String × Ty) : Prop := d.1 = d'.1 ∧ Tracks d.2 d'.2

theorem fieldTracks_zip {ds : List (String × Ty)} {tys : List Ty}
    (h : List.Forall₂ Forgets tys (ds.map (·.2))) :
    List.Forall₂ FieldTracks ((ds.map (·.1)).zip tys) ds := by
  induction ds generalizing tys with
  | nil => simp
  | cons d ds ih =>
    cases h with
    | cons hd h => exact List.Forall₂.cons ⟨rfl, Or.inl hd⟩ (ih h)

theorem forall₂_zip_snd {vs : List Value} {names : List String} {tys : List Ty}
    (hlen : names.length = tys.length) (h : List.Forall₂ (HasType env) vs tys) :
    List.Forall₂ (fun v (d : String × Ty) => HasType env v d.2) vs (names.zip tys) := by
  induction h generalizing names with
  | nil => simp
  | cons hv _ ih =>
    cases names with
    | nil => simp at hlen
    | cons n names => exact List.Forall₂.cons hv (ih (Nat.succ.inj hlen))

/-- The payload of a variant has forgotten nothing that its declaration has. -/
theorem variantPayloadTypes_declared {n name : String} {args : List Ty} {info : EnumInfo}
    {vinfo : VariantTypeInfo} (henum : env.enums n = some info) (hvar : info.variant name = some vinfo) :
    List.Forall₂ Forgets (variantPayloadTypes env (.named n args) name) vinfo.types := by
  simp only [variantPayloadTypes, henum, hvar]
  split_ifs
  · exact forall₂_forgets_refl _
  · rw [List.forall₂_map_left_iff]
    refine List.forall₂_same.mpr fun t _ => ?_
    have h := forgets_subst (substForgets_nil (info.genericParams.zip args)) t
    rwa [substTypeParams_nil] at h

/-- What a struct pattern of that name reads from a value. -/
structure StructRead (env : TypeEnv) (name : String) (decls decls' : List (String × Ty)) (v : Value)
    (fields : List Value) : Prop where
  value : v = .struct name (decls.map (·.1)) fields ∨
    ∃ e, v = .variant e name (.struct (decls.map (·.1))) fields
  typed : List.Forall₂ (fun w (d : String × Ty) => HasType env w d.2) fields decls
  tracks : List.Forall₂ FieldTracks decls decls'

theorem structPatternDecls_plain {lowered : Ty} {name : String}
    (h : ∀ n args, lowered = .named n args → ((env.enums n).bind fun info => info.variant name) = none) :
    structPatternDecls env lowered name = (.struct name, ((env.structs name).map (·.fields)).getD []) := by
  unfold structPatternDecls
  cases lowered with
  | named n args => simp only [h n args rfl]
  | _ => rfl

theorem zip_map_fst {ds : List (String × Ty)} {tys : List Ty} (hlen : tys.length = ds.length) :
    ((ds.map (·.1)).zip tys).map (·.1) = ds.map (·.1) :=
  List.map_fst_zip (by simp [hlen])

theorem structRead_variant {ty lowered : Ty} {n name : String} {args : List Ty} {info : EnumInfo}
    {ds : List (String × Ty)} {v : Value} {fields : List Value} (hpeel : peelRef ty = .named n args)
    (henum : env.enums n = some info) (hvar : info.variant name = some (.struct ds)) (ht : Tracks ty lowered)
    (hv : HasType env v ty) (hhead : HeadOf split (structPatternDecls env lowered name).1 v fields) :
    StructRead env name ((ds.map (·.1)).zip (variantPayloadTypes env (.named n args) name))
      (structPatternDecls env lowered name).2 v fields := by
  have hp := hv.peel
  rw [hpeel] at hp
  obtain ⟨variant, vinfo, vs, rfl, hvar', hvs⟩ := hp.enum_inv henum
  have hdecl := @variantPayloadTypes_declared env n name args info _ henum hvar
  have hlen : (variantPayloadTypes env (.named n args) name).length = ds.length := by
    simpa [VariantTypeInfo.types] using hdecl.length_eq
  by_cases hlow : ∃ us, lowered = .named n us
  · obtain ⟨us, rfl⟩ := hlow
    have hdecls : structPatternDecls env (.named n us) name = (.variant name, ds) := by
      simp [structPatternDecls, henum, hvar]
    rw [hdecls] at hhead ⊢
    obtain ⟨e, d, heq⟩ := hhead
    obtain ⟨rfl, rfl, rfl, rfl⟩ := Value.variant.inj heq
    obtain rfl := Option.some.inj (hvar.symm.trans hvar')
    exact ⟨Or.inr ⟨_, by rw [zip_map_fst hlen]; rfl⟩, forall₂_zip_snd (by simp [hlen]) hvs, fieldTracks_zip hdecl⟩
  · -- the lowering took the pattern for one of a plain struct, which no value of the enum matches
    have hplain := @structPatternDecls_plain env lowered name fun n' us heq => by
      subst heq
      rcases ht with ht | ht
      · obtain ⟨ts, rfl, -⟩ := ht.of_named
        obtain ⟨rfl, -⟩ := Ty.named.inj hpeel
        exact absurd ⟨us, rfl⟩ hlow
      · exact absurd ht (by simp)
    rw [hplain] at hhead
    obtain ⟨names, heq⟩ := hhead
    exact absurd heq (by simp)

theorem structRead_struct {ty lowered : Ty} {n : String} {args : List Ty} {info : StructInfo}
    {v : Value} {fields : List Value} (hpeel : peelRef ty = .named n args) (henum : env.enums n = none)
    (hvec : isOpenCollection n = false) (hinfo : env.structs n = some info) (ht : Tracks ty lowered)
    (hv : HasType env v ty) (hhead : HeadOf split (structPatternDecls env lowered n).1 v fields) :
    StructRead env n ((info.fields.map (·.1)).zip (structFieldTypes info args))
      (structPatternDecls env lowered n).2 v fields := by
  have hplain := @structPatternDecls_plain env lowered n fun n' us heq => by
    subst heq
    rcases ht with ht | ht
    · obtain ⟨ts, rfl, -⟩ := ht.of_named
      obtain ⟨rfl, -⟩ := Ty.named.inj hpeel
      simp [henum]
    · exact absurd ht (by simp)
  rw [hplain] at hhead ⊢
  obtain ⟨names, rfl⟩ := hhead
  have hp := hv.peel
  rw [hpeel] at hp
  have hlen : (structFieldTypes info args).length = info.fields.length := by simp [structFieldTypes]
  generalize hw : Value.struct n names fields = w at hp
  cases hp with
  | struct _ _ hinfo' hvs =>
    obtain rfl := Option.some.inj (hinfo.symm.trans hinfo')
    obtain ⟨-, rfl, rfl⟩ := Value.struct.inj hw
    refine ⟨Or.inl (by rw [zip_map_fst hlen]), forall₂_zip_snd (by simp [hlen]) hvs, ?_⟩
    simpa [hinfo] using fieldTracks_zip (structFieldTypes_forgets info args)
  | distinct hbase =>
    rw [(env.distinct_only n (by rw [hbase]; rfl)).2.1] at hinfo
    exact absurd hinfo (by simp)
  | opaqueTyped h => simp [opaqueTy, hinfo] at h
  | _ => exact absurd hw (by simp)

theorem structRead_shared {ty lowered : Ty} {n : String} {info : StructInfo} {v : Value}
    {fields : List Value} (hpeel : peelRef ty = .shared n) (hinfo : env.structs n = some info)
    (ht : Tracks ty lowered) (hv : HasType env v ty)
    (hhead : HeadOf split (structPatternDecls env lowered n).1 v fields) :
    StructRead env n info.fields (structPatternDecls env lowered n).2 v fields := by
  have hplain := @structPatternDecls_plain env lowered n fun n' us heq => by
    subst heq
    rcases ht with ht | ht
    · obtain ⟨ts, rfl, -⟩ := ht.of_named
      exact absurd hpeel (by simp [peelRef])
    · exact absurd ht (by simp)
  rw [hplain] at hhead ⊢
  obtain ⟨names, rfl⟩ := hhead
  have hp := hv.peel
  rw [hpeel] at hp
  generalize hw : Value.struct n names fields = w at hp
  cases hp with
  | shared hinfo' hvs =>
    obtain rfl := Option.some.inj (hinfo.symm.trans hinfo')
    obtain ⟨-, rfl, rfl⟩ := Value.struct.inj hw
    refine ⟨Or.inl rfl, List.forall₂_map_right_iff.mp hvs, ?_⟩
    rw [hinfo]
    exact List.forall₂_same.mpr fun d _ => ⟨rfl, Or.inl (Forgets.refl d.2)⟩
  | opaqueTyped h => simp [opaqueTy, hinfo] at h
  | _ => exact absurd hw (by simp)

theorem actualDecls_spec {ty lowered : Ty} {name : String} {decls : List (String × Ty)} {v : Value}
    {fields : List Value} (h : actualDecls env ty name = some decls) (ht : Tracks ty lowered)
    (hv : HasType env v ty) (hhead : HeadOf split (structPatternDecls env lowered name).1 v fields) :
    StructRead env name decls (structPatternDecls env lowered name).2 v fields := by
  unfold actualDecls at h
  cases hpeel : peelRef ty with
  | named n args =>
    simp only [hpeel] at h
    cases henum : env.enums n with
    | some info =>
      simp only [henum] at h
      cases hvar : info.variant name with
      | none => simp [hvar] at h
      | some vinfo =>
        cases vinfo with
        | struct ds =>
          simp only [hvar, Option.some.injEq] at h
          subst h
          exact structRead_variant hpeel henum hvar ht hv hhead
        | unit => simp [hvar] at h
        | tuple types => simp [hvar] at h
    | none =>
      simp only [henum] at h
      split_ifs at h with hvec hname
      subst hname
      obtain ⟨info, hinfo, rfl⟩ := Option.map_eq_some_iff.mp h
      exact structRead_struct hpeel henum (by simpa using hvec) hinfo ht hv hhead
  | shared n =>
    simp only [hpeel] at h
    split_ifs at h with hname
    subst hname
    obtain ⟨info, hinfo, rfl⟩ := Option.map_eq_some_iff.mp h
    exact structRead_shared hpeel hinfo ht hv hhead
  | _ => rw [hpeel] at h; exact absurd h (by simp)

/-- A field found by name stands under one declaration, with the pattern lowered for it. -/
theorem field_lookup {decls decls' : List (String × Ty)} {fields : List Value} {f : String × Ty → Pat}
    {n : String} {v : Value} (hdd : List.Forall₂ FieldTracks decls decls')
    (hvs : List.Forall₂ (fun w (d : String × Ty) => HasType env w d.2) fields decls)
    (hm : List.Forall₂ (PatMatches split) (decls'.map f) fields)
    (h : fieldValue (decls.map (·.1)) fields n = some v) :
    ∃ T L, (n, T) ∈ decls ∧ (n, L) ∈ decls' ∧ HasType env v T ∧ Tracks T L ∧
      PatMatches split (f (n, L)) v := by
  induction hdd generalizing fields with
  | nil => simp [fieldValue] at h
  | @cons d d' decls decls' hd _ ih =>
    obtain ⟨k, T⟩ := d
    obtain ⟨k', L⟩ := d'
    obtain ⟨rfl, htr⟩ := hd
    cases hvs with
    | cons hv hvs =>
      cases hm with
      | cons hmv hm =>
        simp only [fieldValue, List.map_cons, List.zip_cons_cons, List.lookup_cons] at h
        split at h
        · rename_i heq
          obtain rfl := Option.some.inj h
          obtain rfl := beq_iff_eq.mp heq
          exact ⟨T, L, List.mem_cons_self, List.mem_cons_self, hv, htr, hmv⟩
        · obtain ⟨T', L', h1, h2, h3⟩ := ih hvs hm h
          exact ⟨T', L', List.mem_cons_of_mem _ h1, List.mem_cons_of_mem _ h2, h3⟩

theorem fieldValue_isSome {names : List String} {fields : List Value} {n : String}
    (hlen : names.length = fields.length) (h : n ∈ names) : (fieldValue names fields n).isSome = true := by
  induction names generalizing fields with
  | nil => simp at h
  | cons k names ih =>
    cases fields with
    | nil => simp at hlen
    | cons v fields =>
      simp only [fieldValue, List.zip_cons_cons, List.lookup_cons]
      split
      · rfl
      · rename_i hne
        have hne : ¬ n = k := by simpa using hne
        exact ih (Nat.succ.inj hlen) ((List.mem_cons.mp h).resolve_left hne)

theorem lowerField_absent {fields : List (String × Option Pattern)} {n : String} (h : n ∉ fields.map (·.1))
    (ty : Ty) : lowerField env fields n ty = .wildcard := by
  induction fields with
  | nil => rfl
  | cons d fields ih =>
    obtain ⟨k, p⟩ := d
    simp only [List.map_cons, List.mem_cons, not_or] at h
    cases p with
    | none => simp [lowerField, Ne.symm h.1, ih h.2]
    | some p => simp [lowerField, Ne.symm h.1, ih h.2]

/-- What the lowering of the fields promises about a value that matched. -/
def FieldsMatched (split : ℕ → Option ℕ) (env : TypeEnv) (fields : List (String × Option Pattern))
    (decls decls' : List (String × Ty)) (names : List String) (vals : List Value) : Prop :=
  ∀ n v, fieldValue names vals n = some v → ∃ T L, (n, T) ∈ decls ∧ (n, L) ∈ decls' ∧ HasType env v T ∧
    Tracks T L ∧ PatMatches split (lowerField env fields n L) v

theorem FieldsMatched.tail {d : String × Option Pattern} {fields : List (String × Option Pattern)}
    {decls decls' : List (String × Ty)} {names : List String} {vals : List Value}
    (h : FieldsMatched split env (d :: fields) decls decls' names vals) (hd : d.1 ∉ fields.map (·.1)) :
    FieldsMatched split env fields decls decls' names vals := by
  intro n v hv
  obtain ⟨T, L, hT, hL, hvT, ht, hm⟩ := h n v hv
  refine ⟨T, L, hT, hL, hvT, ht, ?_⟩
  obtain ⟨k, p⟩ := d
  by_cases hk : k = n
  · rw [lowerField_absent (hk ▸ hd)]
    exact PatMatches.wildcard v
  · cases p <;> simpa [lowerField, hk] using hm

theorem matchAll_take {ps : List Pattern} {vs : List Value} (hlen : ps.length ≤ vs.length) :
    matchAll env scope ps vs = matchAll env scope ps (vs.take ps.length) := by
  conv_lhs => rw [← List.take_append_drop ps.length vs]
  exact matchAll_append (by simp [hlen])

/-- The fixed ends of a slice pattern against those of the sequence. -/
theorem slice_ends {as bs : List Pat} {k : ℕ} {vs : List Value}
    (h : List.Forall₂ (PatMatches split) (as ++ List.replicate k .wildcard ++ bs) vs) :
    RowMatches split as (vs.take as.length) ∧ RowMatches split bs (vs.drop (vs.length - bs.length)) := by
  have hlen := h.length_eq
  simp only [List.length_append, List.length_replicate] at hlen
  constructor
  · have htake := List.forall₂_take as.length h
    rwa [List.append_assoc, List.take_left] at htake
  · have hdrop := List.forall₂_drop (as.length + k) h
    rwa [List.drop_left' (by simp), show as.length + k = vs.length - bs.length by omega] at hdrop

theorem mem_take_typed {vs : List Value} {ty : Ty} (h : ∀ w ∈ vs, HasType env w ty) (n : ℕ) :
    (∀ w ∈ vs.take n, HasType env w ty) ∧ ∀ w ∈ vs.drop n, HasType env w ty :=
  ⟨fun w hw => h w (List.mem_of_mem_take hw), fun w hw => h w (List.mem_of_mem_drop hw)⟩

mutual

/-- A value that the lowered pattern matches is matched by the pattern. -/
theorem lower_sound : ∀ (p : Pattern) {ty lowered : Ty} {v : Value}, Checked env p ty →
    LoweringSees env scope p lowered → SplitSees env split p lowered → Tracks ty lowered → HasType env v ty →
    PatMatches split (lowerPattern env p lowered) v → tryMatchPattern env scope p v = true
  | .wildcard => by
    intro _ _ _ _ _ _
    simp [tryMatchPattern]
  | .binding name => by
    intro _ hsees _ _ _ h
    exact binding_sound hsees h
  | .literal lit => by
    intro hc _ _ _ hv h
    exact literal_sound hc hv h
  | .rangePattern start stop inclusive => by
    intro hc _ _ _ _ h
    exact range_sound hc h
  | .atBinding name pattern => by
    intro hc hsees hsplit ht hv h
    rw [tryMatchPattern]
    exact lower_sound pattern hc hsees hsplit ht hv h
  | .or alts => by
    intro hc hsees hsplit ht hv h
    rw [lowerPattern] at h
    cases h with
    | or hmem h =>
      rw [tryMatchPattern]
      exact lowerAny_sound alts hc hsees hsplit ht hv ⟨_, hmem, h⟩
  | .tuple patterns => by
    intro hc hsees hsplit ht hv h
    obtain ⟨tys, htys, hc⟩ := hc
    rw [lowerPattern] at h
    cases h with
    | ctor hhead h =>
      obtain rfl := hhead
      have hvs := actualElems_typed htys hv
      have htr := actualElems_tracks htys ht
      have hlen := h.length_eq
      rw [lowerPatterns_length] at hlen
      simp only [tryMatchPattern, hlen, decide_true, Bool.true_and]
      exact lowerPatterns_sound patterns hc hsees hsplit htr hvs h
  | .tupleVariant path patterns => by
    intro hc hsees hsplit ht hv h
    obtain ⟨tys, htys, hc⟩ := hc
    rw [lowerPattern] at h
    cases h with
    | ctor hhead h =>
      obtain ⟨e, d, rfl⟩ := hhead
      obtain ⟨rfl, hvs⟩ := actualPayload_typed htys hv
      have htr := actualPayload_tracks htys ht
      have hlen := h.length_eq
      rw [lowerPatterns_length] at hlen
      simp only [tryMatchPattern, hlen, decide_true, Bool.true_and]
      exact lowerPatterns_sound patterns hc hsees hsplit htr hvs h
  | .struct path fields => by
    intro hc hsees hsplit ht hv h
    obtain ⟨hnodup, decls, hdecls, hc⟩ := hc
    rw [lowerPattern] at h
    cases h with
    | @ctor _ _ _ vals hhead h =>
      obtain ⟨hval, htyped, htracks⟩ := actualDecls_spec hdecls ht hv hhead
      have hmatched : FieldsMatched split env fields decls _ (decls.map (·.1)) vals :=
        fun n v hn => field_lookup htracks htyped h hn
      have hfields := lowerFields_sound fields hnodup hc hsees hsplit
        (by simpa using htyped.length_eq.symm) hmatched
      rcases hval with rfl | ⟨e, rfl⟩
      · simp [tryMatchPattern, hfields]
      · simp [tryMatchPattern, hfields]
  | .slice front hasRest back => by
    intro hc hsees hsplit ht hv h
    obtain ⟨element, helem, hcf, hcb⟩ := hc
    obtain ⟨vs, rfl, hvs⟩ := actualElement_value helem hv
    rw [lowerPattern] at h
    rw [LoweringSees] at hsees
    rw [SplitSees] at hsplit
    have hends : ∀ {L : Ty}, Tracks element L → SeesEach env scope front L ∧ SeesEach env scope back L →
        SplitEach env split front L ∧ SplitEach env split back L →
        front.length + back.length ≤ vs.length →
        RowMatches split (lowerEach env front L) (vs.take front.length) →
        RowMatches split (lowerEach env back L) (vs.drop (vs.length - back.length)) →
        matchAll env scope front vs = true ∧
          matchAll env scope back (vs.drop (vs.length - back.length)) = true := by
      intro L htr hsees hsplit hlen hf hb
      rw [matchAll_take (by omega)]
      exact ⟨lowerEach_sound front hcf hsees.1 hsplit.1 htr (mem_take_typed hvs _).1 hf,
        lowerEach_sound back hcb hsees.2 hsplit.2 htr (mem_take_typed hvs _).2 hb⟩
    cases hshape : sliceShape _ front.length hasRest back.length with
    | rejected => rw [hshape] at hsees; exact hsees.elim
    | array L n =>
      rw [hshape] at h hsees hsplit
      obtain ⟨-, hle, hclosed⟩ := sliceShape_array hshape
      cases h with
      | ctor hhead h =>
        obtain ⟨heq, hlen⟩ := hhead
        obtain rfl := Value.seq.inj heq
        obtain ⟨hf, hb⟩ := slice_ends h
        rw [lowerEach_length] at hf hb
        obtain ⟨hf, hb⟩ := hends (Or.inl (array_element ht helem hshape)) hsees hsplit (by omega) hf hb
        cases hasRest with
        | true =>
          simp only [tryMatchPattern, hf, hb, Bool.and_true, if_true, decide_eq_true_eq]
          omega
        | false =>
          simp only [tryMatchPattern, hf, hb, Bool.and_true, Bool.false_eq_true, if_false, decide_eq_true_eq]
          rw [hlen, hclosed rfl]
    | openEnded L =>
      rw [hshape] at h hsees hsplit
      have htr : Tracks element L := Or.inl (openEnded_element ht helem hshape)
      cases h with
      | ctor hhead h =>
        cases hasRest with
        | true =>
          obtain ⟨k, ws, hk, hkn, heq, hlen, rfl⟩ := hhead
          obtain rfl := Value.seq.inj heq
          obtain rfl : k = front.length := by simpa [hk] using hsplit.1 rfl
          rw [Nat.add_sub_cancel_left] at h
          obtain ⟨hf, hb⟩ := (rowMatches_append (by simp [lowerEach_length]; omega)).mp h
          obtain ⟨hf, hb⟩ := hends htr hsees hsplit.2 hlen hf hb
          simp only [tryMatchPattern, hf, hb, Bool.and_true, if_true, decide_eq_true_eq]
          exact hlen
        | false =>
          obtain ⟨heq, hlen⟩ := hhead
          obtain rfl := Value.seq.inj heq
          obtain ⟨hf, hb⟩ := @slice_ends split _ _ 0 _ (by simpa using h)
          rw [lowerEach_length] at hf hb
          obtain ⟨hf, hb⟩ := hends htr hsees hsplit.2 (by omega) hf hb
          simp only [tryMatchPattern, hf, hb, Bool.and_true, Bool.false_eq_true, if_false, decide_eq_true_eq]
          exact hlen

theorem lowerPatterns_sound : ∀ (ps : List Pattern) {tys lowered : List Ty} {vs : List Value},
    CheckedAll env ps tys → SeesAll env scope ps lowered → SplitAll env split ps lowered →
    TracksAll tys lowered → List.Forall₂ (HasType env) vs tys →
    RowMatches split (lowerPatterns env ps lowered) vs → matchAll env scope ps vs = true
  | [] => by
    intro _ _ _ _ _ _
    simp [matchAll]
  | p :: ps => by
    intro hc hsees hsplit ht hvs h
    obtain ⟨ty, rest, rfl, hcp, hcs⟩ := hc
    rw [lowerPatterns] at h
    cases h with
    | cons hp hps =>
      cases hvs with
      | cons hv hvs =>
        obtain ⟨htp, hts⟩ := ht.head
        simp only [matchAll, Bool.and_eq_true]
        exact ⟨lower_sound p hcp hsees.1 hsplit.1 htp hv hp, lowerPatterns_sound ps hcs hsees.2 hsplit.2 hts hvs hps⟩

theorem lowerEach_sound : ∀ (ps : List Pattern) {ty lowered : Ty} {vs : List Value},
    CheckedEach env ps ty → SeesEach env scope ps lowered → SplitEach env split ps lowered →
    Tracks ty lowered → (∀ v ∈ vs, HasType env v ty) → RowMatches split (lowerEach env ps lowered) vs →
    matchAll env scope ps vs = true
  | [] => by
    intro _ _ _ _ _ _
    simp [matchAll]
  | p :: ps => by
    intro hc hsees hsplit ht hvs h
    rw [lowerEach] at h
    cases h with
    | @cons _ v _ vs hp hps =>
      simp only [matchAll, Bool.and_eq_true]
      exact ⟨lower_sound p hc.1 hsees.1 hsplit.1 ht (hvs v List.mem_cons_self) hp,
        lowerEach_sound ps hc.2 hsees.2 hsplit.2 ht (fun w hw => hvs w (List.mem_cons_of_mem _ hw)) hps⟩

theorem lowerAny_sound : ∀ (ps : List Pattern) {ty lowered : Ty} {v : Value},
    CheckedEach env ps ty → SeesEach env scope ps lowered → SplitEach env split ps lowered →
    Tracks ty lowered → HasType env v ty →
    (∃ alt ∈ lowerEach env ps lowered, PatMatches split alt v) → matchAny env scope ps v = true
  | [] => by
    rintro _ _ _ _ _ ⟨alt, hmem, -⟩
    exact absurd hmem (by simp [lowerEach])
  | p :: ps => by
    rintro hc hsees hsplit ht hv ⟨alt, hmem, h⟩
    simp only [matchAny, Bool.or_eq_true]
    rcases List.mem_cons.mp hmem with rfl | hmem
    · exact Or.inl (lower_sound p hc.1 hsees.1 hsplit.1 ht hv h)
    · exact Or.inr (lowerAny_sound ps hc.2 hsees.2 hsplit.2 ht hv ⟨alt, hmem, h⟩)

theorem lowerFields_sound : ∀ (fields : List (String × Option Pattern)) {decls decls' : List (String × Ty)}
    {vals : List Value}, (fields.map (·.1)).Nodup → CheckedFields env fields decls →
    SeesFields env scope fields decls' → SplitFields env split fields decls' →
    (decls.map (·.1)).length = vals.length →
    FieldsMatched split env fields decls decls' (decls.map (·.1)) vals →
    matchFields env scope fields (decls.map (·.1)) vals = true
  | [] => by
    intro _ _ _ _ _ _
    simp [matchFields]
  | (n, none) :: rest => by
    intro hnodup hc hsees hsplit hlen h
    obtain ⟨hn, hrest⟩ := List.nodup_cons.mp hnodup
    simp only [matchFields, Bool.and_eq_true]
    exact ⟨fieldValue_isSome hlen hc.1, lowerFields_sound rest hrest hc.2 hsees hsplit hlen (h.tail hn)⟩
  | (n, some p) :: rest => by
    intro hnodup hc hsees hsplit hlen h
    obtain ⟨hn, hrest⟩ := List.nodup_cons.mp hnodup
    obtain ⟨v, hv⟩ := Option.isSome_iff_exists.mp (fieldValue_isSome hlen hc.1.1)
    obtain ⟨T, L, hT, hL, hvT, ht, hm⟩ := h n v hv
    rw [lowerField, if_pos rfl] at hm
    simp only [matchFields, Bool.and_eq_true, hv]
    exact ⟨lower_sound p (hc.1.2 _ hT rfl) (hsees.1 _ hL rfl) (hsplit.1 _ hL rfl) ht hvT hm,
      lowerFields_sound rest hrest hc.2 hsees.2 hsplit.2 hlen (h.tail hn)⟩

end

/-! The lowered arms fit the columns the algorithm opens for them. -/

theorem variantPayloadTypes_length (n name : String) (args args' : List Ty) :
    (variantPayloadTypes env (.named n args) name).length =
      (variantPayloadTypes env (.named n args') name).length := by
  cases henum : env.enums n with
  | none => simp only [variantPayloadTypes, henum]
  | some info =>
    cases hvar : info.variant name with
    | none => simp only [variantPayloadTypes, henum, hvar]
    | some vinfo =>
      have h := (@variantPayloadTypes_declared env n name args info vinfo henum hvar).length_eq
      have h' := (@variantPayloadTypes_declared env n name args' info vinfo henum hvar).length_eq
      exact h.trans h'.symm

/-- A named column and a named type of the lowering are about one declaration. -/
theorem Forgets.named_pair {ty : Ty} {n n' : String} {us us' : List Ty} (h : Forgets ty (.named n us))
    (h' : Forgets ty (.named n' us')) : n = n' := by
  obtain ⟨ts, rfl, -⟩ := h.of_named
  obtain ⟨ts', heq, -⟩ := h'.of_named
  exact (Ty.named.inj heq).1

theorem fits_replicate {ty : Ty} {n : ℕ} {row : Row} (hlen : row.length = n)
    (h : ∀ p ∈ row, Fits env false ty p) : RowFits env false (List.replicate n ty) row := by
  induction row generalizing n with
  | nil => subst hlen; exact List.Forall₂.nil
  | cons p row ih =>
    subst hlen
    exact List.Forall₂.cons (h p List.mem_cons_self) (ih rfl fun q hq => h q (List.mem_cons_of_mem _ hq))

/-- A lowered constructor has to fit only where it belongs to the column. -/
theorem fits_ctor {column : Ty} {c : PatCtor} {args : List Pat}
    (h : CtorOf env column c → RowFits env false (ctorFieldTypes env c column) args) :
    Fits env false column (.ctor c args) := by
  by_cases hc : CtorOf env column c
  · exact Fits.ctor hc (h hc)
  · exact Fits.foreign rfl hc

theorem binding_fits {name : String} {ty lowered column : Ty}
    (hsees : LoweringSees env scope (.binding name) lowered) (ht : Tracks ty lowered)
    (hcol : Forgets ty column) : Fits env false column (lowerPattern env (.binding name) lowered) := by
  rw [lowerPattern]
  rcases hsees with ⟨hvar, hpayload⟩ | ⟨hvar, -⟩
  · rw [if_pos hvar]
    refine fits_ctor fun hc => ?_
    obtain ⟨n, args, info, rfl, -⟩ := hc
    cases lowered with
    | named n' us =>
      rcases ht with ht | ht
      · obtain rfl := hcol.named_pair ht
        have hlen := @variantPayloadTypes_length env n (lastSegment name) args us
        rw [hpayload] at hlen
        rw [ctorFieldTypes, List.length_eq_zero_iff.mp hlen]
        exact List.Forall₂.nil
      · exact absurd ht (by simp)
    | _ => simp [isVariantOf] at hvar
  · rw [hvar]
    exact Fits.wildcard _

/-- The element columns of an array or collection column. -/
theorem column_element {ty column element : Ty} (hcol : Forgets ty column)
    (hactual : actualElement env ty = some element)
    (hc : (∃ e size, column = .array e size) ∨ CtorOf env column (.sliceLen 0 true)) :
    Forgets element (arrayOrCollectionElement column) := by
  unfold actualElement at hactual
  rcases hc with ⟨e, size, rfl⟩ | ⟨e, m, rfl⟩ | ⟨n, args, rfl, -, -⟩
  · cases hcol with
    | refl => rw [Option.some.inj hactual]; exact Forgets.refl _
    | array h => rw [← Option.some.inj hactual]; exact h
  · cases hcol with
    | refl => rw [Option.some.inj hactual]; exact Forgets.refl _
    | slice h => rw [← Option.some.inj hactual]; exact h
  · obtain ⟨ts, rfl, hts⟩ := hcol.of_named
    obtain ⟨-, h⟩ := Option.ite_none_right_eq_some.mp hactual
    rw [← Option.some.inj h]
    exact forgets_headD hts

/-- The declared fields against the columns and against what the lowering goes on with. -/
structure FieldColumns (decls decls' : List (String × Ty)) (columns : List Ty) : Prop where
  columns : List.Forall₂ Forgets (decls.map (·.2)) columns
  tracks : List.Forall₂ FieldTracks decls decls'

theorem actualDecls_columns {ty lowered column : Ty} {name : String} {decls : List (String × Ty)}
    (h : actualDecls env ty name = some decls) (ht : Tracks ty lowered) (hcol : Forgets ty column)
    (hc : CtorOf env column (structPatternDecls env lowered name).1) :
    FieldColumns decls (structPatternDecls env lowered name).2
      (ctorFieldTypes env (structPatternDecls env lowered name).1 column) := by
  by_cases hvariant : (structPatternDecls env lowered name).1 = .variant name
  · rw [hvariant] at hc ⊢
    obtain ⟨n, us, info, rfl, henum, hsome⟩ := hc
    obtain ⟨ts, rfl, hts⟩ := hcol.of_named
    simp only [actualDecls, peelRef, henum] at h
    cases hvar : info.variant name with
    | none => simp [hvar] at hsome
    | some vinfo =>
      cases vinfo with
      | struct ds =>
        simp only [hvar, Option.some.injEq] at h
        subst h
        have hdecl := @variantPayloadTypes_declared env n name ts info _ henum hvar
        have hdecls : (structPatternDecls env lowered name).2 = ds := by
          by_cases hlow : ∃ us, lowered = .named n us
          · obtain ⟨us, rfl⟩ := hlow
            simp [structPatternDecls, henum, hvar]
          · rw [structPatternDecls_plain fun n' us heq => ?_] at hvariant
            · exact absurd hvariant (by simp)
            · subst heq
              rcases ht with ht | ht
              · obtain ⟨ts', heq, -⟩ := ht.of_named
                obtain ⟨rfl, -⟩ := Ty.named.inj heq
                exact absurd ⟨us, rfl⟩ hlow
              · exact absurd ht (by simp)
        rw [hdecls]
        refine ⟨?_, fieldTracks_zip hdecl⟩
        rw [List.map_snd_zip (by simpa [VariantTypeInfo.types] using hdecl.length_eq.le)]
        exact variantPayloadTypes_forgets env n name hts
      | unit => simp [hvar] at h
      | tuple types => simp [hvar] at h
  · have hstruct : structPatternDecls env lowered name =
        (.struct name, ((env.structs name).map (·.fields)).getD []) := by
      refine structPatternDecls_plain fun n us heq => ?_
      subst heq
      cases hv : (env.enums n).bind fun info => info.variant name with
      | none => rfl
      | some vinfo => cases vinfo <;> simp [structPatternDecls, hv] at hvariant
    rw [hstruct] at hc ⊢
    obtain ⟨us, info, rfl, henum, hvec, hinfo⟩ := hc
    obtain ⟨ts, rfl, -⟩ := hcol.of_named
    simp only [actualDecls, peelRef, henum, hvec, hinfo, Bool.false_eq_true, if_false, if_true,
      Option.map_some, Option.some.injEq] at h
    subst h
    simp only [ctorFieldTypes, hinfo, Option.map_some, Option.getD_some]
    refine ⟨?_, fieldTracks_zip (structFieldTypes_forgets info ts)⟩
    rw [List.map_snd_zip (by simp [structFieldTypes])]
    exact structFieldTypes_forgets info ts

theorem fits_fields {fields : List (String × Option Pattern)} {decls decls' : List (String × Ty)}
    {columns : List Ty} (h : FieldColumns decls decls' columns)
    (hfit : ∀ n T L column, (n, T) ∈ decls → (n, L) ∈ decls' → Tracks T L → Forgets T column →
      Fits env false column (lowerField env fields n L)) :
    List.Forall₂ (Fits env false) columns (decls'.map fun d => lowerField env fields d.1 d.2) := by
  obtain ⟨hcols, htracks⟩ := h
  induction htracks generalizing columns with
  | nil => cases hcols; exact List.Forall₂.nil
  | @cons d d' decls decls' hd _ ih =>
    obtain ⟨n, T⟩ := d
    obtain ⟨n', L⟩ := d'
    obtain ⟨rfl, htr⟩ := hd
    cases hcols with
    | cons hcol hcols =>
      refine List.Forall₂.cons (hfit n T L _ List.mem_cons_self List.mem_cons_self htr hcol) ?_
      exact ih (fun n T L column hT hL => hfit n T L column (List.mem_cons_of_mem _ hT)
        (List.mem_cons_of_mem _ hL)) hcols

mutual

theorem lower_fits : ∀ (p : Pattern) {ty lowered column : Ty}, Checked env p ty →
    LoweringSees env scope p lowered → Tracks ty lowered → Forgets ty column →
    Fits env false column (lowerPattern env p lowered)
  | .wildcard => by
    intro _ _ _ _
    rw [lowerPattern]
    exact Fits.wildcard _
  | .binding name => by
    intro _ hsees ht hcol
    exact binding_fits hsees ht hcol
  | .literal lit => by
    intro _ _ _ _
    cases lit <;> rw [lowerPattern] <;> exact fits_ctor fun _ => List.Forall₂.nil
  | .rangePattern start stop inclusive => by
    intro _ _ _ _
    rw [lowerPattern]
    exact fits_ctor fun _ => List.Forall₂.nil
  | .atBinding name pattern => by
    intro hc hsees ht hcol
    exact lower_fits pattern hc hsees ht hcol
  | .or alts => by
    intro hc hsees ht hcol
    rw [lowerPattern]
    exact Fits.or (lowerEach_fits alts hc hsees ht hcol)
  | .tuple patterns => by
    intro hc hsees ht hcol
    obtain ⟨tys, htys, hc⟩ := hc
    rw [lowerPattern]
    refine fits_ctor fun hctor => lowerPatterns_fits patterns hc hsees (actualElems_tracks htys ht) ?_
    rcases hctor with ⟨elems, rfl⟩ | rfl
    · exact actualElems_forgets htys hcol rfl
    · cases hcol
      rw [← Option.some.inj htys]
      exact List.Forall₂.nil
  | .tupleVariant path patterns => by
    intro hc hsees ht hcol
    obtain ⟨tys, htys, hc⟩ := hc
    rw [lowerPattern]
    refine fits_ctor fun hctor => lowerPatterns_fits patterns hc hsees (actualPayload_tracks htys ht) ?_
    obtain ⟨n, us, info, rfl, -⟩ := hctor
    exact actualPayload_forgets htys hcol
  | .struct path fields => by
    intro hc hsees ht hcol
    obtain ⟨-, decls, hdecls, hc⟩ := hc
    rw [lowerPattern]
    refine fits_ctor fun hctor => fits_fields (actualDecls_columns hdecls ht hcol hctor) ?_
    exact fun n T L column hT hL htr hcol => lowerField_fits fields hc hsees hT hL htr hcol
  | .slice front hasRest back => by
    intro hc hsees ht hcol
    obtain ⟨element, helem, hcf, hcb⟩ := hc
    rw [lowerPattern]
    rw [LoweringSees] at hsees
    have hends : ∀ {L e : Ty} {n k : ℕ}, Tracks element L → Forgets element e →
        SeesEach env scope front L ∧ SeesEach env scope back L → front.length + k + back.length = n →
        RowFits env false (List.replicate n e)
          (lowerEach env front L ++ List.replicate k .wildcard ++ lowerEach env back L) := by
      intro L e n k htr hcol hsees hn
      refine fits_replicate (by simpa [lowerEach_length, Nat.add_assoc] using hn) fun q hq => ?_
      rw [List.mem_append, List.mem_append] at hq
      rcases hq with (hq | hq) | hq
      · exact lowerEach_fits front hcf hsees.1 htr hcol q hq
      · rw [List.eq_of_mem_replicate hq]
        exact Fits.wildcard _
      · exact lowerEach_fits back hcb hsees.2 htr hcol q hq
    cases hshape : sliceShape _ front.length hasRest back.length with
    | rejected => exact Fits.wildcard _
    | array L n =>
      rw [hshape] at hsees
      obtain ⟨-, hle, -⟩ := sliceShape_array hshape
      refine fits_ctor fun hctor => ?_
      obtain ⟨e, size, rfl, -⟩ := hctor
      exact hends (Or.inl (array_element ht helem hshape))
        (column_element hcol helem (Or.inl ⟨e, size, rfl⟩)) hsees (by omega)
    | openEnded L =>
      rw [hshape] at hsees
      refine fits_ctor fun hctor => ?_
      have h := @hends L _ (front.length + back.length) 0 (Or.inl (openEnded_element ht helem hshape))
        (column_element hcol helem (Or.inr hctor)) hsees (by omega)
      simpa [ctorFieldTypes] using h

theorem lowerPatterns_fits : ∀ (ps : List Pattern) {tys lowered columns : List Ty},
    CheckedAll env ps tys → SeesAll env scope ps lowered → TracksAll tys lowered →
    List.Forall₂ Forgets tys columns → List.Forall₂ (Fits env false) columns (lowerPatterns env ps lowered)
  | [] => by
    intro hc _ _ hcols
    obtain rfl : _ = [] := hc
    cases hcols
    exact List.Forall₂.nil
  | p :: ps => by
    intro hc hsees ht hcols
    obtain ⟨ty, rest, rfl, hcp, hcs⟩ := hc
    cases hcols with
    | cons hcol hcols =>
      exact List.Forall₂.cons (lower_fits p hcp hsees.1 ht.head.1 hcol)
        (lowerPatterns_fits ps hcs hsees.2 ht.head.2 hcols)

theorem lowerEach_fits : ∀ (ps : List Pattern) {ty lowered column : Ty}, CheckedEach env ps ty →
    SeesEach env scope ps lowered → Tracks ty lowered → Forgets ty column →
    ∀ alt ∈ lowerEach env ps lowered, Fits env false column alt
  | [] => by
    intro _ _ _ _ alt hmem
    exact absurd hmem (by simp [lowerEach])
  | p :: ps => by
    intro hc hsees ht hcol alt hmem
    rcases List.mem_cons.mp hmem with rfl | hmem
    · exact lower_fits p hc.1 hsees.1 ht hcol
    · exact lowerEach_fits ps hc.2 hsees.2 ht hcol alt hmem

theorem lowerField_fits : ∀ (fields : List (String × Option Pattern)) {decls decls' : List (String × Ty)}
    {n : String} {T L column : Ty}, CheckedFields env fields decls → SeesFields env scope fields decls' →
    (n, T) ∈ decls → (n, L) ∈ decls' → Tracks T L → Forgets T column →
    Fits env false column (lowerField env fields n L)
  | [] => by
    intro _ _ _ _ _ _
    rw [lowerField]
    exact Fits.wildcard _
  | (k, none) :: rest => by
    intro hc hsees hT hL htr hcol
    rw [lowerField]
    split_ifs
    · exact Fits.wildcard _
    · exact lowerField_fits rest hc.2 hsees hT hL htr hcol
  | (k, some p) :: rest => by
    intro hc hsees hT hL htr hcol
    rw [lowerField]
    split_ifs with hk
    · exact lower_fits p (hc.1.2 _ hT hk.symm) (hsees.1 _ hL hk.symm) htr hcol
    · exact lowerField_fits rest hc.2 hsees.2 hT hL htr hcol

end

end Karac.Exhaustive
