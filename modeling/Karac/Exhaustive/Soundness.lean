import Karac.Exhaustive.Domains

/-! Usefulness is sound: if it answers `none`, every vector of values that matches the query is
matched by a row. The columns only approximate the types of the values (a generic struct opens its
columns at the declared types), which is enough for this direction. -/

namespace Karac.Exhaustive

open Karac.Lib

variable {env : TypeEnv} {split : ℕ → Option ℕ}

/-- `v` has a type of which the column type may have forgotten parts. -/
def Approx (env : TypeEnv) (v : Value) (ty : Ty) : Prop := ∃ t, HasType env v t ∧ Forgets t ty

theorem HasType.approx {v : Value} {ty : Ty} (h : HasType env v ty) : Approx env v ty :=
  ⟨ty, h, Forgets.refl ty⟩

theorem approx_of_forall₂ {vs : List Value} {ts us : List Ty} (h : List.Forall₂ (HasType env) vs ts)
    (hf : List.Forall₂ Forgets ts us) : List.Forall₂ (Approx env) vs us := by
  induction h generalizing us with
  | nil => cases hf; exact List.Forall₂.nil
  | cons hv _ ih =>
    cases hf with
    | cons htu hf => exact List.Forall₂.cons ⟨_, hv, htu⟩ (ih hf)

theorem approx_replicate {vs : List Value} {ty : Ty} {n : ℕ} (hlen : vs.length = n)
    (h : ∀ v ∈ vs, Approx env v ty) : List.Forall₂ (Approx env) vs (List.replicate n ty) := by
  induction vs generalizing n with
  | nil => subst hlen; exact List.Forall₂.nil
  | cons v vs ih =>
    subst hlen
    exact List.Forall₂.cons (h v List.mem_cons_self) (ih rfl fun w hw => h w (List.mem_cons_of_mem _ hw))

theorem forgets_headD {ts us : List Ty} (h : List.Forall₂ Forgets ts us) :
    Forgets (ts.headD .unit) (us.headD .unit) := by
  cases h with
  | nil => exact Forgets.refl _
  | cons h _ => exact h

/-- The constructor belongs to the type of the column. -/
def CtorOf (env : TypeEnv) (ty : Ty) (c : PatCtor) : Prop :=
  match c with
  | .bool _ => ty = .bool
  | .variant name => ∃ n args info, ty = .named n args ∧ env.enums n = some info ∧
      (info.variant name).isSome = true
  | .lit _ => True
  | .intRange _ _ => True
  | .tuple => (∃ tys, ty = .tuple tys) ∨ ty = .unit
  | .struct name => ∃ args info, ty = .named name args ∧ env.enums name = none ∧
      isOpenCollection name = false ∧ env.structs name = some info
  | .array n => ∃ element size, ty = .array element size ∧ size.asUsize = some n
  | .sliceLen _ _ => (∃ element m, ty = .slice element m) ∨
      ∃ name args, ty = .named name args ∧ isOpenCollection name = true ∧ env.enums name = none

/-! Reading a value at a column type. -/

theorem approx_named {v : Value} {name : String} {us : List Ty} (h : Approx env v (.named name us)) :
    ∃ ts, HasType env v (.named name ts) ∧ List.Forall₂ Forgets ts us := by
  obtain ⟨t, hv, hf⟩ := h
  cases hf with
  | refl => exact ⟨us, hv, forall₂_forgets_refl us⟩
  | named hf => exact ⟨_, hv, hf⟩

theorem approx_enum {v : Value} {name : String} {us : List Ty} {info : EnumInfo}
    (h : Approx env v (.named name us)) (hinfo : env.enums name = some info) :
    ∃ variant vinfo vs, v = .variant name variant vinfo.data vs ∧ info.variant variant = some vinfo ∧
      List.Forall₂ (Approx env) vs (variantPayloadTypes env (.named name us) variant) := by
  obtain ⟨ts, hv, hf⟩ := approx_named h
  cases hv with
  | int hty => exact absurd hty (by simp [intRangeOf])
  | vec _ henum => rw [henum] at hinfo; exact absurd hinfo (by simp)
  | struct henum => rw [henum] at hinfo; exact absurd hinfo (by simp)
  | distinct hbase =>
    rw [(env.distinct_only name (by rw [hbase]; rfl)).1] at hinfo
    exact absurd hinfo (by simp)
  | opaqueTyped h => simp [opaqueTy, hinfo] at h
  | enum hinfo' hvariant hvs =>
    obtain rfl := Option.some.inj (hinfo.symm.trans hinfo')
    exact ⟨_, _, _, rfl, hvariant, approx_of_forall₂ hvs (variantPayloadTypes_forgets env name _ hf)⟩

theorem approx_struct {v : Value} {name : String} {us : List Ty} {info : StructInfo}
    (h : Approx env v (.named name us)) (henum : env.enums name = none)
    (hvec : isOpenCollection name = false) (hinfo : env.structs name = some info) :
    ∃ vs, v = .struct name (info.fields.map (·.1)) vs ∧
      List.Forall₂ (Approx env) vs (info.fields.map (·.2)) := by
  obtain ⟨ts, hv, -⟩ := approx_named h
  cases hv with
  | int hty => exact absurd hty (by simp [intRangeOf])
  | vec hname => rw [hvec] at hname; exact absurd hname (by simp)
  | enum hinfo' => rw [henum] at hinfo'; exact absurd hinfo' (by simp)
  | distinct hbase =>
    rw [(env.distinct_only name (by rw [hbase]; rfl)).2.1] at hinfo
    exact absurd hinfo (by simp)
  | opaqueTyped h => simp [opaqueTy, hinfo] at h
  | struct _ _ hinfo' hvs =>
    obtain rfl := Option.some.inj (hinfo.symm.trans hinfo')
    exact ⟨_, rfl, approx_of_forall₂ hvs (structFieldTypes_forgets info ts)⟩

theorem approx_tuple {v : Value} {us : List Ty} (h : Approx env v (.tuple us)) :
    ∃ vs, v = .tuple vs ∧ List.Forall₂ (Approx env) vs us := by
  obtain ⟨t, hv, hf⟩ := h
  have hts : ∃ ts, t = .tuple ts ∧ List.Forall₂ Forgets ts us := by
    cases hf with
    | refl => exact ⟨us, rfl, forall₂_forgets_refl us⟩
    | tuple hf => exact ⟨_, rfl, hf⟩
  obtain ⟨ts, rfl, hfs⟩ := hts
  cases hv with
  | int hty => exact absurd hty (by simp [intRangeOf])
  | opaqueTyped h => simp [opaqueTy] at h
  | tuple hvs => exact ⟨_, rfl, approx_of_forall₂ hvs hfs⟩

theorem approx_array {v : Value} {element : Ty} {size : ConstArg}
    (h : Approx env v (.array element size)) :
    ∃ vs, v = .seq vs ∧ (∀ n, size.asUsize = some n → vs.length = n) ∧
      ∀ w ∈ vs, Approx env w element := by
  obtain ⟨t, hv, hf⟩ := h
  have hts : ∃ e, t = .array e size ∧ Forgets e element := by
    cases hf with
    | refl => exact ⟨element, rfl, Forgets.refl _⟩
    | array hf => exact ⟨_, rfl, hf⟩
  obtain ⟨e, rfl, hfe⟩ := hts
  cases hv with
  | int hty => exact absurd hty (by simp [intRangeOf])
  | opaqueTyped h => simp [opaqueTy] at h
  | array hlen hvs => exact ⟨_, rfl, hlen, fun w hw => ⟨e, hvs w hw, hfe⟩⟩

/-- The elements of a slice or vector. -/
theorem approx_seq {v : Value} {ty : Ty} {vs : List Value} (h : Approx env v ty)
    (hty : CtorOf env ty (.sliceLen 0 true)) (hv : v = .seq vs) :
    ∀ w ∈ vs, Approx env w (arrayOrCollectionElement ty) := by
  subst hv
  rcases hty with ⟨element, m, rfl⟩ | ⟨name, args, rfl, hname, henum⟩
  · obtain ⟨t, hv, hf⟩ := h
    have hts : ∃ e, t = .slice e m ∧ Forgets e element := by
      cases hf with
      | refl => exact ⟨element, rfl, Forgets.refl _⟩
      | slice hf => exact ⟨_, rfl, hf⟩
    obtain ⟨e, rfl, hfe⟩ := hts
    cases hv with
    | opaqueTyped h => simp [opaqueTy] at h
    | slice hvs => exact fun w hw => ⟨e, hvs w hw, hfe⟩
  · obtain ⟨ts, hv, hf⟩ := approx_named h
    cases hv with
    | vec _ _ hvs => exact fun w hw => ⟨_, hvs w hw, forgets_headD hf⟩
    | distinct hbase =>
      have := (env.distinct_only name (by rw [hbase]; rfl)).2.2
      exact absurd (beq_iff_eq.mp hname) this
    | opaqueTyped h => simp [opaqueTy, hname] at h

/-- The fields under a constructor of the type fit the columns the constructor opens. -/
theorem fields_approx {v : Value} {ty : Ty} {c : PatCtor} {fields : List Value} (h : Approx env v ty)
    (hc : CtorOf env ty c) (hhead : HeadOf split c v fields) :
    List.Forall₂ (Approx env) fields (ctorFieldTypes env c ty) := by
  cases c with
  | bool b => rw [hhead.2]; exact List.Forall₂.nil
  | lit l => cases l <;> (rw [hhead.2]; exact List.Forall₂.nil)
  | intRange lo hi => rw [hhead.2]; exact List.Forall₂.nil
  | variant name =>
    obtain ⟨n, args, info, rfl, hinfo, -⟩ := hc
    obtain ⟨e, d, rfl⟩ := hhead
    obtain ⟨variant, vinfo, vs, heq, -, hvs⟩ := approx_enum h hinfo
    obtain ⟨rfl, rfl, rfl, rfl⟩ := Value.variant.inj heq
    exact hvs
  | tuple =>
    obtain rfl := hhead
    rcases hc with ⟨tys, rfl⟩ | rfl
    · obtain ⟨vs, heq, hvs⟩ := approx_tuple h
      obtain rfl := Value.tuple.inj heq
      exact hvs
    · obtain ⟨t, hv, hf⟩ := h
      cases hf
      cases hv with
      | unit => exact List.Forall₂.nil
      | opaqueTyped h => simp [opaqueTy] at h
  | struct name =>
    obtain ⟨args, info, rfl, henum, hvec, hinfo⟩ := hc
    obtain ⟨names, rfl⟩ := hhead
    obtain ⟨vs, heq, hvs⟩ := approx_struct h henum hvec hinfo
    obtain ⟨-, -, rfl⟩ := Value.struct.inj heq
    simpa [ctorFieldTypes, hinfo] using hvs
  | array n =>
    obtain ⟨element, size, rfl, hsize⟩ := hc
    obtain ⟨vs, heq, hlen, hvs⟩ := approx_array h
    obtain rfl := Value.seq.inj (hhead.1.symm.trans heq)
    exact approx_replicate hhead.2 hvs
  | sliceLen n rest =>
    cases rest with
    | false => exact approx_replicate hhead.2 (approx_seq h hc hhead.1)
    | true =>
      obtain ⟨k, vs, -, hk, hv, hn, rfl⟩ := hhead
      refine approx_replicate ?_ fun w hw => approx_seq h hc hv w ?_
      · simp only [List.length_append, List.length_take, List.length_drop]
        omega
      · rcases List.mem_append.mp hw with hw | hw
        · exact List.mem_of_mem_take hw
        · exact List.mem_of_mem_drop hw

/-- A value of a type with a finite constructor set has one of the constructors. -/
theorem enumerate_head {v : Value} {ty : Ty} {all : List PatCtor} (h : Approx env v ty)
    (hall : enumerateCtors env ty = some all) :
    ∃ c ∈ all, CtorOf env ty c ∧ ∃ fields, HeadOf split c v fields := by
  cases ty with
  | bool =>
    obtain rfl := Option.some.inj hall
    obtain ⟨t, hv, hf⟩ := h
    cases hf
    cases hv with
    | bool b => exact ⟨.bool b, by cases b <;> simp, rfl, [], rfl, rfl⟩
    | int hty => exact absurd hty (by simp [intRangeOf])
    | opaqueTyped h => simp [opaqueTy] at h
  | tuple tys =>
    obtain rfl := Option.some.inj hall
    obtain ⟨vs, rfl, -⟩ := approx_tuple h
    exact ⟨.tuple, by simp, Or.inl ⟨tys, rfl⟩, vs, rfl⟩
  | unit =>
    obtain rfl := Option.some.inj hall
    obtain ⟨t, hv, hf⟩ := h
    cases hf
    cases hv with
    | unit => exact ⟨.tuple, by simp, Or.inr rfl, [], rfl⟩
    | int hty => exact absurd hty (by simp [intRangeOf])
    | opaqueTyped h => simp [opaqueTy] at h
  | never =>
    obtain ⟨t, hv, hf⟩ := h
    cases hf
    cases hv with
    | int hty => exact absurd hty (by simp [intRangeOf])
    | opaqueTyped h => simp [opaqueTy] at h
  | array element size =>
    obtain ⟨n, hn, rfl⟩ := Option.map_eq_some_iff.mp hall
    obtain ⟨vs, rfl, hlen, -⟩ := approx_array h
    exact ⟨.array n, by simp, ⟨element, size, rfl, hn⟩, vs, rfl, hlen n hn⟩
  | named name args =>
    cases henum : env.enums name with
    | some info =>
      obtain rfl : (info.variants.map fun v => PatCtor.variant v.1) = all := by
        simpa [enumerateCtors, henum] using hall
      obtain ⟨variant, vinfo, vs, rfl, hvariant, -⟩ := approx_enum h henum
      refine ⟨.variant variant, ?_, ⟨name, args, info, rfl, henum, by rw [hvariant]; rfl⟩, vs, _, _, rfl⟩
      obtain ⟨p, hp, -⟩ := Option.map_eq_some_iff.mp hvariant
      have hname := List.find?_some hp
      exact List.mem_map.mpr ⟨p, List.mem_of_find?_eq_some hp, by rw [of_decide_eq_true hname]⟩
    | none =>
      cases hvec : isOpenCollection name with
      | true => simp [enumerateCtors, henum, hvec] at hall
      | false =>
        cases hstruct : env.structs name with
        | none => simp [enumerateCtors, henum, hvec, hstruct] at hall
        | some info =>
          obtain rfl : [PatCtor.struct name] = all := by
            simpa [enumerateCtors, henum, hvec, hstruct] using hall
          obtain ⟨vs, rfl, -⟩ := approx_struct h henum hvec hstruct
          exact ⟨.struct name, by simp, ⟨args, info, rfl, henum, hvec, hstruct⟩, vs, _, rfl⟩
  | _ => exact absurd hall (by simp [enumerateCtors])

/-- A value of a column with an integer domain is a scalar of that domain. -/
theorem approx_domain {v : Value} {ty : Ty} {lo hi : ℤ} (h : Approx env v ty)
    (hd : effectiveIntDomain env ty = some (lo, hi)) : ∃ x, scalarKey v = some x ∧ lo ≤ x ∧ x ≤ hi := by
  unfold effectiveIntDomain at hd
  cases href : refinementFiniteDomain env ty with
  | none =>
    rw [href, Option.none_or] at hd
    obtain ⟨t, hv, hf⟩ := h
    have ht : t = ty := by
      cases hf <;> first | rfl | exact absurd hd (by simp [intDomain])
    rw [ht] at hv
    exact hv.scalar hd
  | some d =>
    rw [href, Option.some_or] at hd
    obtain rfl := Option.some.inj hd
    obtain ⟨name, base, pred, dmin, dmax, a, b, hbase, hdom, hpred, hab, rfl, rfl, -⟩ :=
      refinementFiniteDomain_spec href
    have hty : HasType env v base ∧ RespectsPred env name v := by
      cases ty with
      | refinement n bs =>
        obtain ⟨rfl, rfl⟩ := Prod.mk.inj (Option.some.inj hbase)
        obtain ⟨t, hv, hf⟩ := h
        cases hf
        exact hv.of_refinement
      | named n us =>
        obtain ⟨bs, hbs, heq⟩ := Option.map_eq_some_iff.mp hbase
        obtain ⟨rfl, rfl⟩ := Prod.mk.inj heq
        obtain ⟨ts, hv, -⟩ := approx_named h
        exact hv.of_distinct hbs
      | _ => exact absurd hbase (by simp [refinementBase])
    obtain ⟨x, hx, h1, h2⟩ := hty.1.scalar hdom
    have hholds := hty.2 x hx pred hpred
    rw [refinementPredBounds_spec hab x] at hholds
    have hin : a ≤ x ∧ x ≤ b := by
      by_contra hno
      exact hholds (by rw [decide_eq_false hno])
    exact ⟨x, hx, max_le hin.1 h1, le_min hin.2 h2⟩

/-! Patterns that fit a column. -/

/-- Constructors of the column's type have as many arguments as columns they open. A constructor
that is foreign to the type is harmless in a row, but not in a query. -/
inductive Fits (env : TypeEnv) (strict : Bool) : Ty → Pat → Prop
  | wildcard (ty : Ty) : Fits env strict ty .wildcard
  | or {ty : Ty} {alts : List Pat} (h : ∀ alt ∈ alts, Fits env strict ty alt) :
      Fits env strict ty (.or alts)
  | foreign {ty : Ty} {c : PatCtor} {args : List Pat} (hstrict : strict = false)
      (h : ¬ CtorOf env ty c) : Fits env strict ty (.ctor c args)
  | ctor {ty : Ty} {c : PatCtor} {args : List Pat} (hc : CtorOf env ty c)
      (h : List.Forall₂ (Fits env strict) (ctorFieldTypes env c ty) args) :
      Fits env strict ty (.ctor c args)

abbrev RowFits (env : TypeEnv) (strict : Bool) (tys : List Ty) (row : Row) : Prop :=
  List.Forall₂ (Fits env strict) tys row

def MatrixFits (env : TypeEnv) (tys : List Ty) (m : Matrix) : Prop := ∀ row ∈ m, RowFits env false tys row

mutual

theorem Fits.alternatives {strict : Bool} {ty : Ty} :
    ∀ {p : Pat}, Fits env strict ty p → ∀ alt ∈ p.alternatives, Fits env strict ty alt
  | .wildcard, h => by simpa using h
  | .ctor c args, h => by simpa using h
  | .or alts, h => by
    cases h with
    | or h => exact fits_alternativesAll h

theorem fits_alternativesAll {strict : Bool} {ty : Ty} :
    ∀ {ps : List Pat}, (∀ p ∈ ps, Fits env strict ty p) →
      ∀ alt ∈ alternativesAll ps, Fits env strict ty alt
  | [], _ => by simp [alternativesAll]
  | p :: ps, h => by
    intro alt hmem
    rcases List.mem_append.mp hmem with hmem | hmem
    · exact (h p List.mem_cons_self).alternatives alt hmem
    · exact fits_alternativesAll (fun p' hp' => h p' (List.mem_cons_of_mem _ hp')) alt hmem

end

/-- The arguments of a constructor of the type fit the columns it opens. -/
theorem Fits.args {strict : Bool} {ty : Ty} {c : PatCtor} {args : List Pat}
    (h : Fits env strict ty (.ctor c args)) (hc : CtorOf env ty c) :
    RowFits env strict (ctorFieldTypes env c ty) args := by
  cases h with
  | foreign _ hno => exact absurd hc hno
  | ctor _ h => exact h

theorem rowMatches_append {a b : Row} {xs ys : List Value} (hlen : a.length = xs.length) :
    RowMatches split (a ++ b) (xs ++ ys) ↔ RowMatches split a xs ∧ RowMatches split b ys := by
  induction a generalizing xs with
  | nil =>
    obtain rfl := List.length_eq_zero_iff.mp hlen.symm
    simp
  | cons p a ih =>
    cases xs with
    | nil => simp at hlen
    | cons x xs =>
      simp only [List.cons_append, List.forall₂_cons, ih (Nat.succ.inj hlen), and_assoc]

theorem rowMatches_wildcards (vs : List Value) :
    RowMatches split (List.replicate vs.length .wildcard) vs := by
  induction vs with
  | nil => exact List.Forall₂.nil
  | cons v vs ih => exact List.Forall₂.cons (PatMatches.wildcard v) ih

theorem forall₂_append {α β : Type} {R : α → β → Prop} {as as' : List α} {bs bs' : List β}
    (h : List.Forall₂ R as bs) (h' : List.Forall₂ R as' bs') : List.Forall₂ R (as ++ as') (bs ++ bs') := by
  induction h with
  | nil => exact h'
  | cons hab _ ih => exact List.Forall₂.cons hab ih

section Matrices

variable {m : Matrix} {ty : Ty} {tys : List Ty} (hm : MatrixFits env (ty :: tys) m)
include hm

/-- The heads and tails of the rows fit. -/
theorem matrix_heads {head : Pat} {tail : Row} (h : head :: tail ∈ m) :
    (∀ alt ∈ head.alternatives, Fits env false ty alt) ∧ RowFits env false tys tail := by
  cases hm _ h with
  | cons hhead htail => exact ⟨hhead.alternatives, htail⟩

theorem specialize_fits {c : PatCtor} (hc : CtorOf env ty c) :
    MatrixFits env (ctorFieldTypes env c ty ++ tys) (specialize m c (ctorFieldTypes env c ty).length) := by
  intro row hrow
  obtain ⟨head, tail, hmem, h⟩ := mem_specialize.mp hrow
  obtain ⟨hhead, htail⟩ := matrix_heads hm hmem
  rcases h with ⟨-, rfl⟩ | ⟨args, halt, rfl⟩
  · refine forall₂_append ?_ htail
    exact List.forall₂_iff_get.mpr ⟨by simp, fun i h1 h2 => by simpa using Fits.wildcard _⟩
  · exact forall₂_append ((hhead _ halt).args hc) htail

theorem defaultMatrix_fits : MatrixFits env tys (defaultMatrix m) := by
  intro row hrow
  obtain ⟨head, hmem, -⟩ := mem_defaultMatrix.mp hrow
  exact (matrix_heads hm hmem).2

theorem keepRows_fits (seg : ℤ × ℤ) : MatrixFits env tys (keepRows (intRows m) seg) := by
  intro row hrow
  obtain ⟨head, hmem, -⟩ := mem_keepRows.mp hrow
  exact (matrix_heads hm hmem).2

/-- What the specialized matrix covers, the matrix covers under the constructor. -/
theorem covers_of_specialize {c : PatCtor} (hc : CtorOf env ty c) {v : Value}
    {fields vs : List Value} (hhead : HeadOf split c v fields)
    (hlen : fields.length = (ctorFieldTypes env c ty).length)
    (h : Covers split (specialize m c (ctorFieldTypes env c ty).length) (fields ++ vs)) :
    Covers split m (v :: vs) := by
  obtain ⟨row, hrow, hmatch⟩ := h
  obtain ⟨head, tail, hmem, h⟩ := mem_specialize.mp hrow
  refine covers_cons.mpr ⟨head, tail, hmem, ?_⟩
  rcases h with ⟨halt, rfl⟩ | ⟨args, halt, rfl⟩
  · rw [rowMatches_append (by simp [hlen])] at hmatch
    exact ⟨⟨_, halt, PatMatches.wildcard v⟩, hmatch.2⟩
  · have hargs := (((matrix_heads hm hmem).1 _ halt).args hc).length_eq
    rw [rowMatches_append (by omega)] at hmatch
    exact ⟨⟨_, halt, PatMatches.ctor hhead hmatch.1⟩, hmatch.2⟩

omit hm in
theorem covers_of_default {v : Value} {vs : List Value} (h : Covers split (defaultMatrix m) vs) :
    Covers split m (v :: vs) := by
  obtain ⟨row, hrow, hmatch⟩ := h
  obtain ⟨head, hmem, halt⟩ := mem_defaultMatrix.mp hrow
  exact covers_cons.mpr ⟨head, row, hmem, ⟨_, halt, PatMatches.wildcard v⟩, hmatch⟩

theorem covers_of_keepRows {seg : ℤ × ℤ} {v : Value} {x : ℤ} {vs : List Value}
    (hx : scalarKey v = some x) (hlo : seg.1 ≤ x) (hhi : x ≤ seg.2)
    (h : Covers split (keepRows (intRows m) seg) vs) : Covers split m (v :: vs) := by
  obtain ⟨row, hrow, hmatch⟩ := h
  obtain ⟨head, hmem, h⟩ := mem_keepRows.mp hrow
  refine covers_cons.mpr ⟨head, row, hmem, ?_, hmatch⟩
  rcases h with halt | ⟨lo, hi, args, halt, hkeep⟩
  · exact ⟨_, halt, PatMatches.wildcard v⟩
  · have hargs := ((matrix_heads hm hmem).1 _ halt).args trivial
    have hnil : args = [] := List.length_eq_zero_iff.mp hargs.length_eq.symm
    refine ⟨_, halt, ?_⟩
    rw [hnil]
    exact PatMatches.ctor ⟨⟨x, hx, by omega, by omega⟩, rfl⟩ List.Forall₂.nil

end Matrices

/-! The recursion. -/

theorem resizeTypes_length (tys : List Ty) : resizeTypes tys tys.length = tys := by
  simp [resizeTypes]

theorem intCuts_spec (rows : List (IntHead × Row)) (qlo qhi : ℤ) :
    (intCuts rows qlo qhi).Pairwise (· < ·) ∧ qlo ∈ intCuts rows qlo qhi :=
  ⟨sortedCuts_pairwise _, mem_sortedCuts.mpr List.mem_cons_self⟩

/-- The induction hypothesis of soundness for one problem. -/
def SoundAt (env : TypeEnv) (split : ℕ → Option ℕ) (m : Matrix) (q : Row) : Prop :=
  ∀ tys, MatrixFits env tys m → RowFits env true tys q → usefulness env m q tys = none →
    ∀ vs, List.Forall₂ (Approx env) vs tys → RowMatches split q vs → Covers split m vs

section Columns

variable {m : Matrix} {ty : Ty} {tys : List Ty} {qRest : Row} {v : Value} {vs : List Value}
  (hm : MatrixFits env (ty :: tys) m) (hq : RowFits env true tys qRest)
  (hv : Approx env v ty) (hvs : List.Forall₂ (Approx env) vs tys) (hmatch : RowMatches split qRest vs)
include hm hq hvs hmatch

theorem intColumnUseful_sound {qlo qhi x : ℤ}
    (ih : ∀ seg, SoundAt env split (keepRows (intRows m) seg) qRest)
    (hx : scalarKey v = some x) (hlo : qlo ≤ x) (hhi : x ≤ qhi)
    (hnone : intColumnUseful (usefulness env) m qlo qhi qRest tys = none) : Covers split m (v :: vs) := by
  unfold intColumnUseful at hnone
  rw [if_neg (by omega), List.findSome?_eq_none_iff] at hnone
  obtain ⟨seg, hseg, h1, h2⟩ := segmentsFrom_cover
    ⟨qlo, (intCuts_spec (intRows m) qlo qhi).2, hlo⟩ hhi
  have hrec := Option.map_eq_none_iff.mp (hnone seg hseg)
  exact covers_of_keepRows hm hx h1 h2 (ih seg tys (keepRows_fits hm seg) hq hrec vs hvs hmatch)

include hv

theorem ctor_sound {c : PatCtor} {args : Row} {fields : List Value} (hc : CtorOf env ty c)
    (ih : SoundAt env split (specialize m c (ctorFieldTypes env c ty).length) (args ++ qRest))
    (hargs : RowFits env true (ctorFieldTypes env c ty) args) (hhead : HeadOf split c v fields)
    (hfields : RowMatches split args fields)
    (hnone : usefulness env (specialize m c (ctorFieldTypes env c ty).length) (args ++ qRest)
      (ctorFieldTypes env c ty ++ tys) = none) : Covers split m (v :: vs) := by
  have happrox := fields_approx hv hc hhead
  refine covers_of_specialize hm hc hhead happrox.length_eq ?_
  refine ih _ (specialize_fits hm hc) (forall₂_append hargs hq) hnone _ (forall₂_append happrox hvs) ?_
  exact (rowMatches_append hfields.length_eq).mpr ⟨hfields, hmatch⟩

theorem wildcardUseful_sound
    (ihd : SoundAt env split (defaultMatrix m) qRest)
    (ihs : m.all rowStartsWild = false → ∀ c arity, SoundAt env split (specialize m c arity)
      (List.replicate arity .wildcard ++ qRest))
    (hnone : wildcardUseful env (usefulness env) m qRest ty tys = none) : Covers split m (v :: vs) := by
  have hdefault : (usefulness env (defaultMatrix m) qRest tys).map (fun w => Pat.wildcard :: w) = none →
      Covers split m (v :: vs) := by
    intro h
    exact covers_of_default (ihd tys (defaultMatrix_fits hm) hq (Option.map_eq_none_iff.mp h) vs hvs hmatch)
  unfold wildcardUseful at hnone
  split_ifs at hnone with hall
  · exact hdefault hnone
  · cases henum : enumerateCtors env ty with
    | none =>
      rw [henum] at hnone
      exact hdefault hnone
    | some all =>
      rw [henum] at hnone
      obtain ⟨c, hmem, hc, fields, hhead⟩ := @enumerate_head env split v ty all hv henum
      have hrec := Option.map_eq_none_iff.mp (List.findSome?_eq_none_iff.mp hnone c hmem)
      have hlen := (fields_approx hv hc hhead).length_eq
      refine ctor_sound hm hq hv hvs hmatch hc (ihs (by simpa using hall) c _) ?_ hhead ?_ hrec
      · exact List.forall₂_iff_get.mpr ⟨by simp, fun i h1 h2 => by simpa using Fits.wildcard _⟩
      · rw [← hlen]
        exact rowMatches_wildcards fields

end Columns

/-- If the query is not useful, every vector it matches is matched by a row. -/
theorem usefulness_sound (m : Matrix) (q : Row) : SoundAt env split m q := by
  refine usefulness_induction (P := SoundAt env split) (fun m q ih => ?_) m q
  intro tys hm hq hnone vs hvs hmatch
  rw [usefulness_eq] at hnone
  unfold usefulnessStep at hnone
  cases hq with
  | nil =>
    cases hvs
    cases m with
    | nil => simp at hnone
    | cons row m =>
      cases hm row List.mem_cons_self
      exact ⟨[], List.mem_cons_self, List.Forall₂.nil⟩
  | @cons ty qHead tys qRest hhead hrest =>
    obtain ⟨v, vs, hv, hvals, rfl⟩ := List.forall₂_cons_right_iff.mp hvs
    obtain ⟨hvmatch, htail⟩ := List.forall₂_cons.mp hmatch
    cases hempty : m.isEmpty with
    | true => simp [hempty] at hnone
    | false =>
      simp only [hempty, Bool.false_eq_true, if_false, List.headD_cons, List.tail_cons] at hnone
      cases qHead with
      | or alts =>
        cases hvmatch with
        | or hmem halt =>
          cases hhead with
          | or hfits =>
            exact ih _ _ (smaller_alternative hmem) _ hm (List.Forall₂.cons (hfits _ hmem) hrest)
              (List.findSome?_eq_none_iff.mp hnone _ hmem) _ (List.Forall₂.cons hv hvals)
              (List.Forall₂.cons halt htail)
      | ctor c args =>
        cases hvmatch with
        | ctor hval hfields =>
          cases hhead with
          | foreign hstrict => exact absurd hstrict (by simp)
          | ctor hc hargs =>
            have hctor : ctorUseful env (usefulness env) m c args qRest ty tys = none →
                Covers split m (v :: vs) := by
              intro h
              have hrec := Option.map_eq_none_iff.mp h
              rw [← hargs.length_eq, resizeTypes_length] at hrec
              exact ctor_sound hm hrest hv hvals htail hc (ih _ _ (smaller_specialize_ctor _ c args))
                hargs hval hfields hrec
            cases c with
            | intRange lo hi =>
              cases hdom : effectiveIntDomain env ty with
              | none =>
                rw [hdom] at hnone
                exact hctor hnone
              | some d =>
                rw [hdom] at hnone
                obtain ⟨⟨x, hx, hlo, hhi⟩, -⟩ := hval
                exact intColumnUseful_sound hm hrest hvals htail
                  (fun seg => ih _ _ (smaller_keepRows seg (Or.inl (by simp)))) hx hlo hhi hnone
            | _ => exact hctor hnone
      | wildcard =>
        have hwild : wildcardUseful env (usefulness env) m qRest ty tys = none → Covers split m (v :: vs) :=
          wildcardUseful_sound hm hrest hv hvals htail (ih _ _ smaller_default)
            fun hall c arity => ih _ _ (smaller_specialize_wildcard arity c hall)
        cases hdom : effectiveIntDomain env ty with
        | none =>
          rw [hdom] at hnone
          exact hwild hnone
        | some d =>
          simp only [hdom] at hnone
          split_ifs at hnone with hint
          · obtain ⟨x, hx, hlo, hhi⟩ := approx_domain hv hdom
            exact intColumnUseful_sound hm hrest hvals htail
              (fun seg => ih _ _ (smaller_keepRows seg (Or.inr hint))) hx hlo hhi hnone
          · exact hwild hnone

end Karac.Exhaustive
