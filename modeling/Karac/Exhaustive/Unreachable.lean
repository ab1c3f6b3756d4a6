import Karac.Exhaustive.MatchSound

/-! `unreachable_arms`, and when its reports can be trusted. A reported arm is lowered as the query, so here the
lowering must not narrow: what the pattern matches, the lowered pattern has to match. -/

namespace Karac.Exhaustive

variable {env : TypeEnv} {scope : Scope}

/-! The reports. -/

/-- The walk over the arms from the `i`-th on, with the rows of the unguarded ones before it. -/
def unreachableFrom (env : TypeEnv) (scrutineeType : Ty) : ℕ → Matrix → List MatchArm → List ℕ
  | _, _, [] => []
  | i, covering, arm :: arms =>
    let pat := lowerPattern env arm.pattern scrutineeType
    let later := unreachableFrom env scrutineeType (i + 1)
      (if arm.hasGuard then covering else covering ++ [[pat]]) arms
    if (usefulness env covering [pat] [scrutineeType]).isNone then i :: later else later

def unreachableArms (env : TypeEnv) (scrutineeType : Ty) (arms : List MatchArm) : List ℕ :=
  if !isHandledScrutinee scrutineeType then [] else unreachableFrom env scrutineeType 0 [] arms

theorem buildMatrix_append (arms : List MatchArm) (arm : MatchArm) (ty : Ty) :
    buildMatrix env (arms ++ [arm]) ty =
      if arm.hasGuard then buildMatrix env arms ty
      else buildMatrix env arms ty ++ [[lowerPattern env arm.pattern ty]] := by
  unfold buildMatrix
  cases h : arm.hasGuard <;> simp [h]

/-- A reported arm is not useful after the arms before it. -/
theorem mem_unreachableFrom {ty : Ty} {i : ℕ} (arms : List MatchArm) : ∀ {done : List MatchArm},
    i ∈ unreachableFrom env ty done.length (buildMatrix env done ty) arms →
    ∃ arm, (done ++ arms)[i]? = some arm ∧
      usefulness env (buildMatrix env ((done ++ arms).take i) ty) [lowerPattern env arm.pattern ty] [ty] = none := by
  induction arms with
  | nil =>
    intro done h
    simp [unreachableFrom] at h
  | cons arm arms ih =>
    intro done h
    rw [unreachableFrom, ← buildMatrix_append] at h
    have hstep : i ∈ unreachableFrom env ty (done.length + 1) (buildMatrix env (done ++ [arm]) ty) arms →
        ∃ a, (done ++ arm :: arms)[i]? = some a ∧ usefulness env
          (buildMatrix env ((done ++ arm :: arms).take i) ty) [lowerPattern env a.pattern ty] [ty] = none := by
      intro hi
      have hlen : done.length + 1 = (done ++ [arm]).length := by simp
      rw [hlen] at hi
      have hrest := ih hi
      rwa [List.append_assoc, List.singleton_append] at hrest
    split_ifs at h with huse
    · rcases List.mem_cons.mp h with rfl | h
      · refine ⟨arm, by simp, ?_⟩
        rw [List.take_left]
        exact Option.isNone_iff_eq_none.mp huse
      · exact hstep h
    · exact hstep h

/-! What the lowering has to keep of a reported arm. -/

/-- The scalars of the type lie between the ends an open range is lowered to. -/
def WithinI128 (env : TypeEnv) (ty : Ty) : Prop :=
  ∀ v x, HasType env v ty → scalarKey v = some x → i128Min ≤ x ∧ x ≤ i128Max

mutual

/-- The lowering and the matcher read the pattern alike: a name lowered to a variant is tested for one, the open end
of a range is that of the type, and every constructor stands at a type that shows it, not behind a borrow and not in
a field whose type is a parameter of its struct. -/
def Reads (env : TypeEnv) (scope : Scope) : Pattern → Ty → Prop
  | .wildcard, _ => True
  | .binding name, ty => isVariantOf env ty (lastSegment name) = true →
      variantPayloadTypes env ty (lastSegment name) = [] ∧
        (isDotted name = true ∨ startsUppercase scope (lastSegment name) = true)
  | .literal (.bool _), ty => ty = .bool
  | .literal _, _ => True
  | .rangePattern start stop _, ty => start = none ∨ stop = none →
      (effectiveIntDomain env ty).isSome = true ∨ WithinI128 env ty
  | .atBinding _ pattern, ty => Reads env scope pattern ty
  | .struct path fields, ty =>
      CtorOf env ty (structPatternDecls env ty (path.getLastD "")).1 ∧
      actualDecls env ty (path.getLastD "") = some (structPatternDecls env ty (path.getLastD "")).2 ∧
      ctorFieldTypes env (structPatternDecls env ty (path.getLastD "")).1 ty =
        (structPatternDecls env ty (path.getLastD "")).2.map (·.2) ∧
      ((structPatternDecls env ty (path.getLastD "")).2.map (·.1)).Nodup ∧
      ReadsFields env scope fields (structPatternDecls env ty (path.getLastD "")).2
  | .tupleVariant path patterns, ty =>
      CtorOf env ty (.variant (path.getLastD "")) ∧
      actualPayload env ty (path.getLastD "") = some (variantPayloadTypes env ty (path.getLastD "")) ∧
      ReadsAll env scope patterns (variantPayloadTypes env ty (path.getLastD ""))
  | .tuple patterns, ty =>
      CtorOf env ty .tuple ∧ ReadsAll env scope patterns (tupleElems ty)
  | .or alts, ty => ReadsEach env scope alts ty
  | .slice front hasRest back, ty =>
      match sliceShape ty front.length hasRest back.length with
      | .array element n =>
          CtorOf env ty (.array n) ∧ actualElement env ty = some element ∧ arrayOrCollectionElement ty = element ∧
            ReadsEach env scope front element ∧ ReadsEach env scope back element
      | .openEnded element =>
          CtorOf env ty (.sliceLen 0 true) ∧ actualElement env ty = some element ∧
            arrayOrCollectionElement ty = element ∧
            ReadsEach env scope front element ∧ ReadsEach env scope back element
      | .rejected => True

def ReadsAll (env : TypeEnv) (scope : Scope) : List Pattern → List Ty → Prop
  | [], tys => tys = []
  | p :: ps, tys => ∃ ty rest, tys = ty :: rest ∧ Reads env scope p ty ∧ ReadsAll env scope ps rest

def ReadsEach (env : TypeEnv) (scope : Scope) : List Pattern → Ty → Prop
  | [], _ => True
  | p :: ps, ty => Reads env scope p ty ∧ ReadsEach env scope ps ty

def ReadsFields (env : TypeEnv) (scope : Scope) : List (String × Option Pattern) → List (String × Ty) → Prop
  | [], _ => True
  | (n, some p) :: rest, decls =>
      (∀ d ∈ decls, d.1 = n → Reads env scope p d.2) ∧ ReadsFields env scope rest decls
  | (_, none) :: rest, decls => ReadsFields env scope rest decls

end

/-! The lowered arm fits the column exactly. -/

theorem fits_strict_binding {name : String} {ty : Ty} (h : Reads env scope (.binding name) ty) :
    Fits env true ty (lowerPattern env (.binding name) ty) := by
  rw [lowerPattern]
  split_ifs with hvar
  · have hpayload := (h hvar).1
    cases ty with
    | named n args =>
      cases henum : env.enums n with
      | none => simp [isVariantOf, henum] at hvar
      | some info =>
        refine Fits.ctor ⟨n, args, info, rfl, henum, ?_⟩ ?_
        · simp only [isVariantOf, henum, List.any_eq_true, decide_eq_true_eq] at hvar
          obtain ⟨d, hd, hname⟩ := hvar
          unfold EnumInfo.variant
          rw [Option.isSome_map, List.find?_isSome]
          exact ⟨d, hd, by simpa using hname⟩
        · rw [ctorFieldTypes, hpayload]
          exact List.Forall₂.nil
    | _ => simp [isVariantOf] at hvar
  · exact Fits.wildcard _

theorem fits_strict_replicate {ty : Ty} {n : ℕ} {row : Row} (hlen : row.length = n)
    (h : ∀ p ∈ row, Fits env true ty p) : RowFits env true (List.replicate n ty) row := by
  induction row generalizing n with
  | nil => subst hlen; exact List.Forall₂.nil
  | cons p row ih =>
    subst hlen
    exact List.Forall₂.cons (h p List.mem_cons_self) (ih rfl fun q hq => h q (List.mem_cons_of_mem _ hq))

mutual

theorem reads_fits : ∀ (p : Pattern) {ty : Ty}, Reads env scope p ty → Fits env true ty (lowerPattern env p ty)
  | .wildcard => by
    intro _
    rw [lowerPattern]
    exact Fits.wildcard _
  | .binding name => fits_strict_binding
  | .literal lit => by
    intro h
    cases lit with
    | bool b =>
      rw [lowerPattern]
      exact Fits.ctor h List.Forall₂.nil
    | _ =>
      rw [lowerPattern]
      exact Fits.ctor trivial List.Forall₂.nil
  | .rangePattern start stop inclusive => by
    intro _
    rw [lowerPattern]
    exact Fits.ctor trivial List.Forall₂.nil
  | .atBinding name pattern => by
    intro h
    rw [lowerPattern]
    exact reads_fits pattern h
  | .or alts => by
    intro h
    rw [lowerPattern]
    exact Fits.or (readsEach_fits alts h)
  | .tuple patterns => by
    intro h
    obtain ⟨hctor, h⟩ := h
    rw [lowerPattern]
    refine Fits.ctor hctor ?_
    have hfits := readsAll_fits patterns h
    rcases hctor with ⟨tys, rfl⟩ | rfl
    · exact hfits
    · exact hfits
  | .tupleVariant path patterns => by
    intro h
    obtain ⟨hctor, -, h⟩ := h
    rw [lowerPattern]
    exact Fits.ctor hctor (readsAll_fits patterns h)
  | .struct path fields => by
    intro h
    obtain ⟨hctor, -, hcols, -, h⟩ := h
    rw [lowerPattern]
    refine Fits.ctor hctor ?_
    rw [hcols, List.forall₂_map_left_iff, List.forall₂_map_right_iff]
    exact List.forall₂_same.mpr fun d hd => readsField_fits fields h hd
  | .slice front hasRest back => by
    intro h
    rw [lowerPattern]
    rw [Reads] at h
    have hends : ∀ {e : Ty} {n k : ℕ}, ReadsEach env scope front e → ReadsEach env scope back e →
        front.length + k + back.length = n → RowFits env true (List.replicate n e)
          (lowerEach env front e ++ List.replicate k .wildcard ++ lowerEach env back e) := by
      intro e n k hf hb hn
      refine fits_strict_replicate (by simpa [lowerEach_length, Nat.add_assoc] using hn) fun q hq => ?_
      rw [List.mem_append, List.mem_append] at hq
      rcases hq with (hq | hq) | hq
      · exact readsEach_fits front hf q hq
      · rw [List.eq_of_mem_replicate hq]
        exact Fits.wildcard _
      · exact readsEach_fits back hb q hq
    cases hshape : sliceShape _ front.length hasRest back.length with
    | rejected => exact Fits.wildcard _
    | array e n =>
      rw [hshape] at h
      obtain ⟨hctor, -, helem, hf, hb⟩ := h
      obtain ⟨-, hle, -⟩ := sliceShape_array hshape
      refine Fits.ctor hctor ?_
      rw [ctorFieldTypes, helem]
      exact hends hf hb (by omega)
    | openEnded e =>
      rw [hshape] at h
      obtain ⟨hctor, -, helem, hf, hb⟩ := h
      refine Fits.ctor hctor ?_
      rw [ctorFieldTypes, helem]
      simpa using @hends e (front.length + back.length) 0 hf hb (by omega)

theorem readsAll_fits : ∀ (ps : List Pattern) {tys : List Ty}, ReadsAll env scope ps tys →
    RowFits env true tys (lowerPatterns env ps tys)
  | [] => by
    intro h
    obtain rfl : _ = [] := h
    exact List.Forall₂.nil
  | p :: ps => by
    intro h
    obtain ⟨ty, rest, rfl, hp, hps⟩ := h
    exact List.Forall₂.cons (reads_fits p hp) (readsAll_fits ps hps)

theorem readsEach_fits : ∀ (ps : List Pattern) {ty : Ty}, ReadsEach env scope ps ty →
    ∀ alt ∈ lowerEach env ps ty, Fits env true ty alt
  | [] => by
    intro _ alt hmem
    exact absurd hmem (by simp [lowerEach])
  | p :: ps => by
    intro h alt hmem
    rcases List.mem_cons.mp hmem with rfl | hmem
    · exact reads_fits p h.1
    · exact readsEach_fits ps h.2 alt hmem

theorem readsField_fits : ∀ (fields : List (String × Option Pattern)) {decls : List (String × Ty)}
    {d : String × Ty}, ReadsFields env scope fields decls → d ∈ decls →
    Fits env true d.2 (lowerField env fields d.1 d.2)
  | [] => by
    intro _ _
    rw [lowerField]
    exact Fits.wildcard _
  | (k, none) :: rest => by
    intro h hd
    rw [lowerField]
    split_ifs
    · exact Fits.wildcard _
    · exact readsField_fits rest h hd
  | (k, some p) :: rest => by
    intro h hd
    rw [lowerField]
    split_ifs with hk
    · exact reads_fits p (h.1 _ hd hk.symm)
    · exact readsField_fits rest h.2 hd

end

/-! What the pattern matches, the lowered arm matches. -/

section

variable {split : ℕ → ℕ}

theorem reads_binding {name : String} {ty : Ty} {v : Value} (h : Reads env scope (.binding name) ty)
    (hv : HasType env v ty) (hm : tryMatchPattern env scope (.binding name) v = true)
    (s : ℕ → Option ℕ) : PatMatches s (lowerPattern env (.binding name) ty) v := by
  rw [lowerPattern]
  split_ifs with hvar
  · obtain ⟨hpayload, htests⟩ := h hvar
    cases ty with
    | named n args =>
      cases henum : env.enums n with
      | none => simp [isVariantOf, henum] at hvar
      | some info =>
        obtain ⟨variant, vinfo, vs, rfl, hvinfo, hvs⟩ := hv.enum_inv henum
        -- the name is a variant without payload, so the matcher takes it for a test
        have htested : bindingIsUnitVariant env scope name (.variant n variant vinfo.data vs) = true := by
          unfold bindingIsUnitVariant
          by_cases hdot : isDotted name = true
          · simp [hdot]
          · have hup := htests.resolve_left hdot
            have hunit : declaredUnit env n (lastSegment name) = true := by
              unfold declaredUnit
              cases hseg : info.variant (lastSegment name) with
              | none =>
                simp only [isVariantOf, henum, List.any_eq_true, decide_eq_true_eq] at hvar
                obtain ⟨d, hd, hname⟩ := hvar
                unfold EnumInfo.variant at hseg
                rw [Option.map_eq_none_iff, List.find?_eq_none] at hseg
                exact absurd (by simpa using hname) (hseg d hd)
              | some uinfo =>
                have htypes := (@variantPayloadTypes_declared env n _ args _ _ henum hseg).length_eq
                rw [hpayload] at htypes
                simp [henum, hseg, List.length_eq_zero_iff.mp htypes.symm]
            simp [hdot, hup, hunit]
        rw [tryMatchPattern, if_pos htested] at hm
        obtain rfl := of_decide_eq_true hm
        rw [hpayload] at hvs
        cases hvs
        exact PatMatches.ctor ⟨n, vinfo.data, rfl⟩ List.Forall₂.nil
    | _ => simp [isVariantOf] at hvar
  · exact PatMatches.wildcard v

theorem literal_complete {lit : LiteralPattern} {ty : Ty} {v : Value}
    (hm : tryMatchPattern env scope (.literal lit) v = true) (s : ℕ → Option ℕ) :
    PatMatches s (lowerPattern env (.literal lit) ty) v := by
  rw [tryMatchPattern] at hm
  cases lit with
  | integer n sfx =>
    cases v with
    | int x =>
      obtain rfl := of_decide_eq_true hm
      rw [lowerPattern]
      exact PatMatches.ctor ⟨⟨_, rfl, le_rfl, le_rfl⟩, rfl⟩ List.Forall₂.nil
    | _ => simp [literalMatches] at hm
  | float bits =>
    cases v with
    | float b =>
      rw [lowerPattern]
      exact PatMatches.ctor ⟨⟨b, rfl, hm⟩, rfl⟩ List.Forall₂.nil
    | _ => simp [literalMatches] at hm
  | char code =>
    cases v with
    | char c =>
      obtain rfl := of_decide_eq_true hm
      rw [lowerPattern]
      exact PatMatches.ctor ⟨⟨_, rfl, le_rfl, le_rfl⟩, rfl⟩ List.Forall₂.nil
    | _ => simp [literalMatches] at hm
  | string t =>
    cases v with
    | str u =>
      obtain rfl := of_decide_eq_true hm
      rw [lowerPattern]
      exact PatMatches.ctor ⟨rfl, rfl⟩ List.Forall₂.nil
    | _ => simp [literalMatches] at hm
  | bool b =>
    cases v with
    | bool c =>
      obtain rfl := of_decide_eq_true hm
      rw [lowerPattern]
      exact PatMatches.ctor ⟨rfl, rfl⟩ List.Forall₂.nil
    | _ => simp [literalMatches] at hm

/-- The ends an open range is lowered to are met by every scalar of the type. -/
theorem open_ends {ty : Ty} {v : Value} {x : ℤ}
    (h : (effectiveIntDomain env ty).isSome = true ∨ WithinI128 env ty) (hv : HasType env v ty)
    (hx : scalarKey v = some x) :
    ((effectiveIntDomain env ty).getD (i128Min, i128Max)).1 ≤ x ∧
      x ≤ ((effectiveIntDomain env ty).getD (i128Min, i128Max)).2 := by
  cases hdom : effectiveIntDomain env ty with
  | some d =>
    obtain ⟨y, hy, hlo, hhi⟩ := approx_domain hv.approx hdom
    obtain rfl := Option.some.inj (hx.symm.trans hy)
    exact ⟨hlo, hhi⟩
  | none =>
    rw [hdom] at h
    exact (h.resolve_left (by simp)) v x hv hx

theorem reads_range {start stop : Option RangeBound} {inclusive : Bool} {ty : Ty} {v : Value}
    (h : Reads env scope (.rangePattern start stop inclusive) ty) (hv : HasType env v ty)
    (hm : tryMatchPattern env scope (.rangePattern start stop inclusive) v = true) (s : ℕ → Option ℕ) :
    PatMatches s (lowerPattern env (.rangePattern start stop inclusive) ty) v := by
  rw [tryMatchPattern, valueInRangePattern] at hm
  cases hx : scalarKey v with
  | none => simp [hx] at hm
  | some x =>
    simp only [hx, Bool.and_eq_true] at hm
    obtain ⟨hstart, hstop⟩ := hm
    rw [lowerPattern]
    refine PatMatches.ctor ⟨⟨x, hx, ?_, ?_⟩, rfl⟩ List.Forall₂.nil
    · cases start with
      | none => exact (open_ends (h (Or.inl rfl)) hv hx).1
      | some b =>
        cases hb : rangeBoundToI128 env b with
        | none => simp [hb] at hstart
        | some lo =>
          simp only [hb, decide_eq_true_eq] at hstart
          simpa [hb] using hstart
    · cases stop with
      | none => exact (open_ends (h (Or.inr rfl)) hv hx).2
      | some b =>
        cases hb : rangeBoundToI128 env b with
        | none => simp [hb] at hstop
        | some hi =>
          cases inclusive with
          | true => simpa [hb] using hstop
          | false =>
            simp only [hb, Bool.false_eq_true, if_false, decide_eq_true_eq] at hstop
            simp only [Option.bind_some, hb, Option.map_some, Bool.false_eq_true, if_false, Option.getD_some]
            omega

/-- The value a struct pattern matched has the fields of the constructor it is lowered to. -/
theorem struct_head {path : List String} {fields : List (String × Option Pattern)} {ty : Ty} {v : Value}
    (hctor : CtorOf env ty (structPatternDecls env ty (path.getLastD "")).1) (hv : HasType env v ty)
    (hm : tryMatchPattern env scope (.struct path fields) v = true) (s : ℕ → Option ℕ) :
    ∃ names vals, HeadOf s (structPatternDecls env ty (path.getLastD "")).1 v vals ∧
      matchFields env scope fields names vals = true ∧
      (v = .struct (path.getLastD "") names vals ∨
        ∃ e, v = .variant e (path.getLastD "") (.struct names) vals) := by
  have hname : (structPatternDecls env ty (path.getLastD "")).1 = .variant (path.getLastD "") ∨
      (structPatternDecls env ty (path.getLastD "")).1 = .struct (path.getLastD "") := by
    unfold structPatternDecls
    split
    · split
      · exact Or.inl rfl
      · exact Or.inl rfl
      · exact Or.inr rfl
    · exact Or.inr rfl
  rcases hname with hname | hname
  · rw [hname] at hctor ⊢
    obtain ⟨n, args, info, rfl, henum, -⟩ := hctor
    obtain ⟨variant, vinfo, vs, rfl, -, -⟩ := hv.enum_inv henum
    cases hdata : vinfo.data with
    | struct names =>
      rw [hdata, tryMatchPattern, Bool.and_eq_true, decide_eq_true_eq] at hm
      obtain ⟨rfl, hm⟩ := hm
      exact ⟨names, vs, ⟨n, _, rfl⟩, hm, Or.inr ⟨n, rfl⟩⟩
    | unit =>
      rw [hdata] at hm
      simp [tryMatchPattern] at hm
    | tuple =>
      rw [hdata] at hm
      simp [tryMatchPattern] at hm
  · rw [hname] at hctor ⊢
    obtain ⟨args, info, rfl, henum, hvec, hinfo⟩ := hctor
    obtain ⟨vs, rfl, -⟩ := approx_struct hv.approx henum hvec hinfo
    rw [tryMatchPattern] at hm
    simp only [decide_true, Bool.true_and] at hm
    exact ⟨_, vs, ⟨_, rfl⟩, hm, Or.inl rfl⟩

/-- Under distinct names a field is found where it is declared. -/
theorem fieldValue_zip {decls : List (String × Ty)} {vals : List Value} (hnodup : (decls.map (·.1)).Nodup)
    (h : List.Forall₂ (fun w (d : String × Ty) => HasType env w d.2) vals decls) :
    List.Forall₂ (fun (d : String × Ty) w => fieldValue (decls.map (·.1)) vals d.1 = some w ∧ HasType env w d.2)
      decls vals := by
  induction h with
  | nil => exact List.Forall₂.nil
  | @cons w d vals decls hwd _ ih =>
    rw [List.map_cons, List.nodup_cons] at hnodup
    have hhead : fieldValue ((d :: decls).map (·.1)) (w :: vals) d.1 = some w := by
      simp [fieldValue]
    refine List.Forall₂.cons ⟨hhead, hwd⟩ ?_
    have hrest : List.Forall₂ (fun (d' : String × Ty) w' => d' ∈ decls ∧
        fieldValue (decls.map (·.1)) vals d'.1 = some w' ∧ HasType env w' d'.2) decls vals :=
      (List.forall₂_and_left _ _).mpr ⟨fun d' hd' => hd', ih hnodup.2⟩
    refine hrest.imp ?_
    rintro d' w' ⟨hd', hfield, htyped⟩
    refine ⟨?_, htyped⟩
    have hne : (d'.1 == d.1) = false := by
      refine beq_eq_false_iff_ne.mpr fun heq => ?_
      exact hnodup.1 (heq ▸ List.mem_map_of_mem hd')
    simpa [fieldValue, List.lookup_cons, hne] using hfield

mutual

/-- A value that the pattern matches is matched by the lowered pattern. -/
theorem reads_matches : ∀ (p : Pattern) {ty : Ty} {v : Value}, Reads env scope p ty →
    SplitSees env (fun n => some (split n)) p ty → HasType env v ty → tryMatchPattern env scope p v = true →
    PatMatches (fun n => some (split n)) (lowerPattern env p ty) v
  | .wildcard => by
    intro _ _ _ _
    rw [lowerPattern]
    exact PatMatches.wildcard _
  | .binding name => by
    intro h _ hv hm
    exact reads_binding h hv hm _
  | .literal lit => by
    intro _ _ _ hm
    exact literal_complete hm _
  | .rangePattern start stop inclusive => by
    intro h _ hv hm
    exact reads_range h hv hm _
  | .atBinding name pattern => by
    intro h hsplit hv hm
    rw [tryMatchPattern] at hm
    exact reads_matches pattern h hsplit hv hm
  | .or alts => by
    intro h hsplit hv hm
    rw [tryMatchPattern] at hm
    obtain ⟨alt, hmem, halt⟩ := readsAny_matches alts h hsplit hv hm
    rw [lowerPattern]
    exact PatMatches.or hmem halt
  | .tuple patterns => by
    intro h hsplit hv hm
    obtain ⟨hctor, h⟩ := h
    rename_i ty v
    cases v with
    | tuple vals =>
      simp only [tryMatchPattern, Bool.and_eq_true, decide_eq_true_eq] at hm
      have htys : actualElems ty = some (tupleElems ty) := by
        rcases hctor with ⟨tys, rfl⟩ | rfl <;> rfl
      rw [lowerPattern]
      exact PatMatches.ctor rfl (readsAll_matches patterns h hsplit (actualElems_typed htys hv) hm.2)
    | _ => simp [tryMatchPattern] at hm
  | .tupleVariant path patterns => by
    intro h hsplit hv hm
    obtain ⟨hctor, hpayload, h⟩ := h
    obtain ⟨n, args, info, rfl, henum, -⟩ := hctor
    obtain ⟨variant, vinfo, vs, rfl, hvinfo, hvs⟩ := hv.enum_inv henum
    cases hdata : vinfo.data with
    | tuple =>
      rw [hdata] at hm
      simp only [tryMatchPattern, Bool.and_eq_true, decide_eq_true_eq] at hm
      obtain ⟨⟨rfl, -⟩, hm⟩ := hm
      rw [lowerPattern]
      exact PatMatches.ctor ⟨n, _, rfl⟩ (readsAll_matches patterns h hsplit hvs hm)
    | unit =>
      rw [hdata] at hm
      simp [tryMatchPattern] at hm
    | struct names =>
      rw [hdata] at hm
      simp [tryMatchPattern] at hm
  | .struct path fields => by
    intro h hsplit hv hm
    obtain ⟨hctor, hdecls, -, hnodup, h⟩ := h
    obtain ⟨names, vals, hhead, hfields, hval⟩ := struct_head hctor hv hm (fun n => some (split n))
    obtain ⟨hvalue, htyped, -⟩ := actualDecls_spec hdecls (Or.inl (Forgets.refl _)) hv hhead
    -- the matcher reads the fields under the declared names
    rename_i ty v
    have hnames : names = (structPatternDecls env ty (path.getLastD "")).2.map (·.1) := by
      rcases hval with rfl | ⟨e, rfl⟩
      · rcases hvalue with heq | ⟨e', heq⟩
        · exact (Value.struct.inj heq).2.1
        · exact absurd heq (by simp)
      · rcases hvalue with heq | ⟨e', heq⟩
        · exact absurd heq (by simp)
        · exact VariantData.struct.inj (Value.variant.inj heq).2.2.1
    rw [hnames] at hfields
    rw [lowerPattern]
    refine PatMatches.ctor hhead ?_
    rw [List.forall₂_map_left_iff]
    have hzip := fieldValue_zip hnodup htyped
    have hmem := (List.forall₂_and_left _ _).mpr ⟨fun d hd => hd, hzip⟩
    refine hmem.imp ?_
    rintro d w ⟨hd, hfield, hw⟩
    exact readsField_matches fields h hsplit hfields hd hfield hw
  | .slice front hasRest back => by
    intro h hsplit hv hm
    rw [lowerPattern]
    rw [Reads] at h
    rw [SplitSees] at hsplit
    cases hshape : sliceShape _ front.length hasRest back.length with
    | rejected => exact PatMatches.wildcard _
    | array e n =>
      rw [hshape] at h hsplit
      obtain ⟨hctor, helem, -, hf, hb⟩ := h
      obtain ⟨-, hle, -⟩ := sliceShape_array hshape
      obtain ⟨vs, rfl, hvs⟩ := actualElement_value helem hv
      obtain ⟨element, size, rfl, hsize⟩ := hctor
      obtain ⟨ws, heq, hlen, -⟩ := approx_array hv.approx
      obtain rfl := Value.seq.inj heq
      have hn := hlen n hsize
      simp only [tryMatchPattern, Bool.and_eq_true] at hm
      obtain ⟨⟨-, hmf⟩, hmb⟩ := hm
      rw [matchAll_take (by omega)] at hmf
      refine PatMatches.ctor ⟨rfl, hn⟩ ?_
      have hfront := readsEach_matches front hf hsplit.1 (mem_take_typed hvs front.length).1
        (by rw [List.length_take]; omega) hmf
      have hback := readsEach_matches back hb hsplit.2 (mem_take_typed hvs (vs.length - back.length)).2
        (by rw [List.length_drop]; omega) hmb
      have hmid := @rowMatches_wildcards (fun n => some (split n))
        ((vs.drop front.length).take (n - front.length - back.length))
      have hcut : vs = vs.take front.length ++ (vs.drop front.length).take (n - front.length - back.length) ++
          vs.drop (vs.length - back.length) := by
        have hdrop : vs.drop (vs.length - back.length) =
            (vs.drop front.length).drop (n - front.length - back.length) := by
          rw [List.drop_drop]
          congr 1
          omega
        rw [hdrop, List.append_assoc, List.take_append_drop, List.take_append_drop]
      have hmidlen : ((vs.drop front.length).take (n - front.length - back.length)).length =
          n - front.length - back.length := by
        rw [List.length_take, List.length_drop]
        omega
      rw [hmidlen] at hmid
      rw [hcut]
      exact forall₂_append (forall₂_append hfront hmid) hback
    | openEnded e =>
      rw [hshape] at h hsplit
      obtain ⟨-, helem, -, hf, hb⟩ := h
      obtain ⟨vs, rfl, hvs⟩ := actualElement_value helem hv
      simp only [tryMatchPattern, Bool.and_eq_true] at hm
      obtain ⟨⟨hlen, hmf⟩, hmb⟩ := hm
      have hle : front.length + back.length ≤ vs.length := by
        cases hasRest with
        | true => exact of_decide_eq_true hlen
        | false => exact (of_decide_eq_true hlen).ge
      rw [matchAll_take (by omega)] at hmf
      have hfront := readsEach_matches front hf hsplit.2.1 (mem_take_typed hvs front.length).1
        (by rw [List.length_take]; omega) hmf
      have hback := readsEach_matches back hb hsplit.2.2 (mem_take_typed hvs (vs.length - back.length)).2
        (by rw [List.length_drop]; omega) hmb
      refine PatMatches.ctor ?_ (forall₂_append hfront hback)
      cases hasRest with
      | true =>
        have hk : split (front.length + back.length) = front.length := by simpa using hsplit.1 rfl
        refine ⟨front.length, vs, congrArg some hk, by omega, rfl, hle, ?_⟩
        rw [Nat.add_sub_cancel_left]
      | false =>
        have hn : vs.length = front.length + back.length := of_decide_eq_true hlen
        have hcut : vs.length - back.length = front.length := by omega
        rw [hcut, List.take_append_drop]
        exact ⟨rfl, hn⟩

theorem readsAll_matches : ∀ (ps : List Pattern) {tys : List Ty} {vs : List Value}, ReadsAll env scope ps tys →
    SplitAll env (fun n => some (split n)) ps tys → List.Forall₂ (HasType env) vs tys →
    matchAll env scope ps vs = true → RowMatches (fun n => some (split n)) (lowerPatterns env ps tys) vs
  | [] => by
    intro h _ hvs _
    obtain rfl : _ = [] := h
    cases hvs
    exact List.Forall₂.nil
  | p :: ps => by
    intro h hsplit hvs hm
    obtain ⟨ty, rest, rfl, hp, hps⟩ := h
    cases hvs with
    | cons hv hvs =>
      rw [matchAll, Bool.and_eq_true] at hm
      exact List.Forall₂.cons (reads_matches p hp hsplit.1 hv hm.1)
        (readsAll_matches ps hps hsplit.2 hvs hm.2)

theorem readsEach_matches : ∀ (ps : List Pattern) {ty : Ty} {vs : List Value}, ReadsEach env scope ps ty →
    SplitEach env (fun n => some (split n)) ps ty → (∀ v ∈ vs, HasType env v ty) → ps.length = vs.length →
    matchAll env scope ps vs = true → RowMatches (fun n => some (split n)) (lowerEach env ps ty) vs
  | [] => by
    intro _ _ _ hlen _
    obtain rfl := List.length_eq_zero_iff.mp hlen.symm
    exact List.Forall₂.nil
  | p :: ps => by
    intro h hsplit hvs hlen hm
    rename_i ty vs
    cases vs with
    | nil => simp at hlen
    | cons v vs =>
      rw [matchAll, Bool.and_eq_true] at hm
      exact List.Forall₂.cons (reads_matches p h.1 hsplit.1 (hvs v List.mem_cons_self) hm.1)
        (readsEach_matches ps h.2 hsplit.2 (fun w hw => hvs w (List.mem_cons_of_mem _ hw))
          (Nat.succ.inj hlen) hm.2)

theorem readsAny_matches : ∀ (ps : List Pattern) {ty : Ty} {v : Value}, ReadsEach env scope ps ty →
    SplitEach env (fun n => some (split n)) ps ty → HasType env v ty → matchAny env scope ps v = true →
    ∃ alt ∈ lowerEach env ps ty, PatMatches (fun n => some (split n)) alt v
  | [] => by
    intro _ _ _ hm
    simp [matchAny] at hm
  | p :: ps => by
    intro h hsplit hv hm
    rw [matchAny, Bool.or_eq_true] at hm
    rcases hm with hm | hm
    · exact ⟨_, List.mem_cons_self, reads_matches p h.1 hsplit.1 hv hm⟩
    · obtain ⟨alt, hmem, halt⟩ := readsAny_matches ps h.2 hsplit.2 hv hm
      exact ⟨alt, List.mem_cons_of_mem _ hmem, halt⟩

theorem readsField_matches : ∀ (fields : List (String × Option Pattern)) {decls : List (String × Ty)}
    {names : List String} {vals : List Value} {d : String × Ty} {w : Value}, ReadsFields env scope fields decls →
    SplitFields env (fun n => some (split n)) fields decls → matchFields env scope fields names vals = true →
    d ∈ decls → fieldValue names vals d.1 = some w → HasType env w d.2 →
    PatMatches (fun n => some (split n)) (lowerField env fields d.1 d.2) w
  | [] => by
    intro _ _ _ _ _ _
    rw [lowerField]
    exact PatMatches.wildcard _
  | (k, none) :: rest => by
    intro h hsplit hm hd hw htyped
    rw [matchFields, Bool.and_eq_true] at hm
    rw [lowerField]
    split_ifs
    · exact PatMatches.wildcard _
    · exact readsField_matches rest h hsplit hm.2 hd hw htyped
  | (k, some p) :: rest => by
    intro h hsplit hm hd hw htyped
    rw [matchFields, Bool.and_eq_true] at hm
    rw [lowerField]
    split_ifs with hk
    · have hp := hm.1
      rw [hk, hw] at hp
      exact reads_matches p (h.1 _ hd hk.symm) (hsplit.1 _ hd hk.symm) htyped hp
    · exact readsField_matches rest h.2 hsplit.2 hm.2 hd hw htyped

end

end

/-! The reports are right. -/

/-- `[true, ..]` and `[.., true]`, which are lowered alike. -/
def trueFirst : MatchArm := ⟨.slice [.literal (.bool true)] true [], false⟩

def trueLast : MatchArm := ⟨.slice [] true [.literal (.bool true)], false⟩

theorem second_reported {arm : MatchArm}
    (h : lowerPattern wrapEnv arm.pattern (.slice .bool false) =
      .ctor (.sliceLen 1 true) [.ctor (.bool true) []]) :
    1 ∈ unreachableArms wrapEnv (.slice .bool false) [trueFirst, arm] := by
  have hfirst : lowerPattern wrapEnv trueFirst.pattern (.slice .bool false) =
      .ctor (.sliceLen 1 true) [.ctor (.bool true) []] := rfl
  have huse : usefulness wrapEnv [[.ctor (.sliceLen 1 true) [.ctor (.bool true) []]]]
      [.ctor (.sliceLen 1 true) [.ctor (.bool true) []]] [.slice .bool false] = none := by
    rw [usefulness_eq]
    simp [usefulnessStep, ctorUseful, specialize, mapHeads, ctorFieldTypes, arrayOrCollectionElement, resizeTypes]
    rw [usefulness_eq]
    simp [usefulnessStep, ctorUseful, specialize, mapHeads, ctorFieldTypes, resizeTypes, usefulness_nil_cons]
  have hguard : trueFirst.hasGuard = false := rfl
  have hsecond : unreachableFrom wrapEnv (.slice .bool false) 1
      [[.ctor (.sliceLen 1 true) [.ctor (.bool true) []]]] [arm] = [1] := by
    simp [unreachableFrom, h, huse]
  simp only [unreachableArms, isHandledScrutinee, Bool.not_true, Bool.false_eq_true, if_false]
  rw [unreachableFrom, hfirst, hguard]
  simp only [Bool.false_eq_true, if_false, List.nil_append, Nat.zero_add, hsecond]
  split_ifs <;> simp

end Karac.Exhaustive
