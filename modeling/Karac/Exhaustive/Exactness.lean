import Karac.Exhaustive.Soundness

/-! Usefulness is exact on well-typed matrices over inhabited types: a witness stands for a value
that the query matches and no row matches. Four kinds of constructor are left out on purpose by the
checker and are left out here: slice patterns with a rest, integer ranges in a column without a
finite domain, float literals, and generic structs. -/

namespace Karac.Exhaustive

open Karac.Lib

variable {env : TypeEnv} {split : ℕ → Option ℕ}

/-- The constructors the checker tells apart exactly. -/
def Exact (env : TypeEnv) (ty : Ty) (c : PatCtor) : Prop :=
  match c with
  | .lit (.string _) => ty = .str
  | .lit (.float _) => False
  | .intRange _ _ => (effectiveIntDomain env ty).isSome = true
  | .sliceLen _ hasRest => hasRest = false
  | _ => True

/-- A range of a query is not empty and stays inside the domain of its column. -/
def RangeInside (env : TypeEnv) (ty : Ty) (c : PatCtor) : Prop :=
  ∀ lo hi, c = .intRange lo hi → lo ≤ hi ∧
    ∀ d, effectiveIntDomain env ty = some d → d.1 ≤ lo ∧ hi ≤ d.2

/-- Patterns of a column type; those of a query stand for at least one value. -/
inductive WellTyped (env : TypeEnv) (query : Bool) : Ty → Pat → Prop
  | wildcard (ty : Ty) : WellTyped env query ty .wildcard
  | or {ty : Ty} {alts : List Pat} (hne : query = true → alts ≠ [])
      (h : ∀ alt ∈ alts, WellTyped env query ty alt) : WellTyped env query ty (.or alts)
  | ctor {ty : Ty} {c : PatCtor} {args : List Pat} (hc : CtorOf env ty c) (hexact : Exact env ty c)
      (hrange : query = true → RangeInside env ty c)
      (h : List.Forall₂ (WellTyped env query) (ctorFieldTypes env c ty) args) :
      WellTyped env query ty (.ctor c args)

abbrev RowWellTyped (env : TypeEnv) (query : Bool) (tys : List Ty) (row : Row) : Prop :=
  List.Forall₂ (WellTyped env query) tys row

def MatrixWellTyped (env : TypeEnv) (tys : List Ty) (m : Matrix) : Prop :=
  ∀ row ∈ m, RowWellTyped env false tys row

mutual

theorem WellTyped.fits {query strict : Bool} :
    ∀ {ty : Ty} {p : Pat}, WellTyped env query ty p → Fits env strict ty p
  | _, .wildcard, _ => Fits.wildcard _
  | _, .or alts, h => by
    cases h with
    | or _ h => exact Fits.or (fits_of_all h)
  | _, .ctor c args, h => by
    cases h with
    | ctor hc _ _ h => exact Fits.ctor hc (fits_of_row h)

theorem fits_of_all {query strict : Bool} {ty : Ty} :
    ∀ {ps : List Pat}, (∀ p ∈ ps, WellTyped env query ty p) → ∀ p ∈ ps, Fits env strict ty p
  | [], _ => by simp
  | p :: ps, h => by
    intro p' hp'
    rcases List.mem_cons.mp hp' with heq | hp'
    · rw [heq]
      exact (h p List.mem_cons_self).fits
    · exact fits_of_all (fun q hq => h q (List.mem_cons_of_mem _ hq)) p' hp'

theorem fits_of_row {query strict : Bool} :
    ∀ {tys : List Ty} {row : List Pat}, List.Forall₂ (WellTyped env query) tys row →
      List.Forall₂ (Fits env strict) tys row
  | _, [], h => by cases h; exact List.Forall₂.nil
  | _, p :: ps, h => by
    cases h with
    | cons hp h => exact List.Forall₂.cons hp.fits (fits_of_row h)

end

mutual

theorem WellTyped.alternatives {query : Bool} {ty : Ty} :
    ∀ {p : Pat}, WellTyped env query ty p → ∀ alt ∈ p.alternatives, WellTyped env query ty alt
  | .wildcard, h => by simpa using h
  | .ctor c args, h => by simpa using h
  | .or alts, h => by
    cases h with
    | or _ h => exact wellTyped_alternativesAll h

theorem wellTyped_alternativesAll {query : Bool} {ty : Ty} :
    ∀ {ps : List Pat}, (∀ p ∈ ps, WellTyped env query ty p) →
      ∀ alt ∈ alternativesAll ps, WellTyped env query ty alt
  | [], _ => by simp [alternativesAll]
  | p :: ps, h => by
    intro alt hmem
    rcases List.mem_append.mp hmem with hmem | hmem
    · exact (h p List.mem_cons_self).alternatives alt hmem
    · exact wellTyped_alternativesAll (fun p' hp' => h p' (List.mem_cons_of_mem _ hp')) alt hmem

end

/-- A set of inhabited types that contains every column its constructors open, so that every
constructor of its types is inhabited. Its structs are not generic. -/
structure InhabitedTypes (env : TypeEnv) (S : Set Ty) : Prop where
  inhabited : ∀ ty ∈ S, ∃ v, HasType env v ty
  closed : ∀ ty ∈ S, ∀ c, CtorOf env ty c → ∀ f ∈ ctorFieldTypes env c ty, f ∈ S
  concrete : ∀ name args info, .named name args ∈ S → env.enums name = none →
    env.structs name = some info → info.genericParams = []

/-! Building values. -/

theorem hasType_of_domain {ty : Ty} {lo hi x : ℤ} (hd : effectiveIntDomain env ty = some (lo, hi))
    (hlo : lo ≤ x) (hhi : x ≤ hi) : ∃ v, scalarKey v = some x ∧ HasType env v ty := by
  unfold effectiveIntDomain at hd
  cases href : refinementFiniteDomain env ty with
  | none =>
    rw [href, Option.none_or] at hd
    exact hasType_of_intDomain hd hlo hhi
  | some d =>
    rw [href, Option.some_or] at hd
    obtain rfl := Option.some.inj hd
    obtain ⟨name, base, pred, dmin, dmax, a, b, hbase, hdom, hpred, hab, rfl, rfl, -⟩ :=
      refinementFiniteDomain_spec href
    obtain ⟨ha, hdmin⟩ := max_le_iff.mp hlo
    obtain ⟨hb, hdmax⟩ := le_min_iff.mp hhi
    obtain ⟨v, hv, htype⟩ := @hasType_of_intDomain env _ _ _ _ hdom hdmin hdmax
    have hresp : RespectsPred env name v := by
      intro y hy pred' hpred'
      obtain rfl := Option.some.inj (hv.symm.trans hy)
      obtain rfl := Option.some.inj (hpred.symm.trans hpred')
      rw [refinementPredBounds_spec hab x, decide_eq_true ⟨ha, hb⟩]
      simp
    refine ⟨v, hv, ?_⟩
    cases ty with
    | refinement n bs =>
      obtain ⟨rfl, rfl⟩ := Prod.mk.inj (Option.some.inj hbase)
      exact HasType.refinement htype hresp
    | named n us =>
      obtain ⟨bs, hbs, heq⟩ := Option.map_eq_some_iff.mp hbase
      obtain ⟨rfl, rfl⟩ := Prod.mk.inj heq
      exact HasType.distinct hbs htype hresp
    | _ => exact absurd hbase (by simp [refinementBase])

theorem forall₂_replicate_mem {vs : List Value} {ty : Ty} {n : ℕ}
    (h : List.Forall₂ (HasType env) vs (List.replicate n ty)) :
    vs.length = n ∧ ∀ v ∈ vs, HasType env v ty := by
  induction n generalizing vs with
  | zero => cases h; simp
  | succ n ih =>
    cases h with
    | cons hv h =>
      obtain ⟨hlen, hall⟩ := ih h
      exact ⟨by rw [List.length_cons, hlen], List.forall_mem_cons.mpr ⟨hv, hall⟩⟩

/-- Typed fields make a typed value under every exact constructor of a column. -/
theorem build_ctor {S : Set Ty} (hS : InhabitedTypes env S) {ty : Ty} (hty : ty ∈ S) {c : PatCtor}
    (hc : CtorOf env ty c) (hexact : Exact env ty c) (hrange : RangeInside env ty c)
    {fields : List Value} (h : List.Forall₂ (HasType env) fields (ctorFieldTypes env c ty)) :
    ∃ v, HasType env v ty ∧ HeadOf split c v fields := by
  cases c with
  | bool b =>
    cases h
    obtain rfl := hc
    exact ⟨.bool b, HasType.bool b, rfl, rfl⟩
  | variant name =>
    obtain ⟨n, args, info, rfl, hinfo, hsome⟩ := hc
    obtain ⟨vinfo, hvinfo⟩ := Option.isSome_iff_exists.mp hsome
    exact ⟨_, HasType.enum hinfo hvinfo h, _, _, rfl⟩
  | lit l =>
    cases h
    cases l with
    | string s =>
      obtain rfl := hexact
      exact ⟨.str s, HasType.str s, rfl, rfl⟩
    | float bits => exact hexact.elim
  | intRange lo hi =>
    cases h
    obtain ⟨d, hd⟩ := Option.isSome_iff_exists.mp hexact
    obtain ⟨hle, hin⟩ := hrange lo hi rfl
    obtain ⟨h1, h2⟩ := hin d hd
    obtain ⟨v, hv, htype⟩ := hasType_of_domain hd h1 (le_trans hle h2)
    exact ⟨v, htype, ⟨lo, hv, le_rfl, hle⟩, rfl⟩
  | tuple =>
    rcases hc with ⟨tys, rfl⟩ | rfl
    · exact ⟨.tuple fields, HasType.tuple h, rfl⟩
    · cases h
      exact ⟨.tuple [], HasType.unit, rfl⟩
  | struct name =>
    obtain ⟨args, info, rfl, henum, hvec, hinfo⟩ := hc
    have hfields : structFieldTypes info args = info.fields.map (·.2) := by
      simp [structFieldTypes, hS.concrete name args info hty henum hinfo, substTypeParams_nil]
    refine ⟨_, HasType.struct henum hvec hinfo ?_, _, rfl⟩
    rw [hfields]
    simpa [ctorFieldTypes, hinfo] using h
  | array n =>
    obtain ⟨element, size, rfl, hsize⟩ := hc
    obtain ⟨hlen, hall⟩ := forall₂_replicate_mem h
    refine ⟨.seq fields, HasType.array (fun k hk => ?_) hall, rfl, hlen⟩
    exact hlen.trans (Option.some.inj (hsize.symm.trans hk))
  | sliceLen n rest =>
    obtain rfl := hexact
    obtain ⟨hlen, hall⟩ := forall₂_replicate_mem h
    refine ⟨.seq fields, ?_, rfl, hlen⟩
    rcases hc with ⟨element, m, rfl⟩ | ⟨name, args, rfl, hname, henum⟩
    · exact HasType.slice hall
    · exact HasType.vec hname henum hall

mutual

/-- A pattern of a query matches a value of its type. -/
theorem realize {S : Set Ty} (hS : InhabitedTypes env S) :
    ∀ {ty : Ty} {p : Pat}, ty ∈ S → WellTyped env true ty p → ∃ v, HasType env v ty ∧ PatMatches split p v
  | ty, .wildcard, hty, _ => by
    obtain ⟨v, hv⟩ := hS.inhabited ty hty
    exact ⟨v, hv, PatMatches.wildcard v⟩
  | ty, .or [], hty, h => by
    cases h with
    | or hne _ => exact absurd rfl (hne rfl)
  | ty, .or (p :: ps), hty, h => by
    cases h with
    | or _ h =>
      obtain ⟨v, hv, hp⟩ := realize hS hty (h p List.mem_cons_self)
      exact ⟨v, hv, PatMatches.or List.mem_cons_self hp⟩
  | ty, .ctor c args, hty, h => by
    cases h with
    | ctor hc hexact hrange h =>
      obtain ⟨fields, hfields, hargs⟩ := realizeRow hS (fun f hf => hS.closed ty hty c hc f hf) h
      obtain ⟨v, hv, hhead⟩ := build_ctor hS hty hc hexact (hrange rfl) hfields
      exact ⟨v, hv, PatMatches.ctor hhead hargs⟩

theorem realizeRow {S : Set Ty} (hS : InhabitedTypes env S) :
    ∀ {tys : List Ty} {row : List Pat}, (∀ ty ∈ tys, ty ∈ S) →
    List.Forall₂ (WellTyped env true) tys row →
    ∃ vs, List.Forall₂ (HasType env) vs tys ∧ List.Forall₂ (PatMatches split) row vs
  | tys, [], _, h => by
    cases h
    exact ⟨[], List.Forall₂.nil, List.Forall₂.nil⟩
  | tys, p :: ps, htys, h => by
    cases h with
    | cons hp h =>
      obtain ⟨v, hv, hmatch⟩ := realize hS (htys _ List.mem_cons_self) hp
      obtain ⟨vs, hvs, hmatches⟩ := realizeRow hS (fun ty hty => htys ty (List.mem_cons_of_mem _ hty)) h
      exact ⟨v :: vs, List.Forall₂.cons hv hvs, List.Forall₂.cons hmatch hmatches⟩

end

/-! Columns of one kind. -/

/-- A constructor that is not a range does not belong to a column with an integer domain. -/
theorem domain_none {ty : Ty} {c : PatCtor} (hc : CtorOf env ty c) (hexact : Exact env ty c)
    (hne : ∀ lo hi, c ≠ .intRange lo hi) : effectiveIntDomain env ty = none := by
  have hnamed : ∀ name args, ((env.enums name).isSome = true ∨ (env.structs name).isSome = true ∨
      isOpenCollection name = true) → effectiveIntDomain env (.named name args) = none := by
    intro name args h
    have hbase : env.distinctBases name = none := by
      cases hb : env.distinctBases name with
      | none => rfl
      | some base =>
        have honly := env.distinct_only name (by rw [hb]; rfl)
        rcases h with h | h | h
        · rw [honly.1] at h; exact absurd h (by simp)
        · rw [honly.2.1] at h; exact absurd h (by simp)
        · exact absurd (beq_iff_eq.mp h) honly.2.2
    simp [effectiveIntDomain, refinementFiniteDomain, refinementBase, hbase, intDomain]
  cases c with
  | bool b =>
    obtain rfl := hc
    rfl
  | variant name =>
    obtain ⟨n, args, info, rfl, hinfo, -⟩ := hc
    exact hnamed n args (Or.inl (by rw [hinfo]; rfl))
  | lit l =>
    cases l with
    | string s =>
      obtain rfl := hexact
      rfl
    | float bits => exact hexact.elim
  | intRange lo hi => exact absurd rfl (hne lo hi)
  | tuple => rcases hc with ⟨tys, rfl⟩ | rfl <;> rfl
  | struct name =>
    obtain ⟨args, info, rfl, -, -, hinfo⟩ := hc
    exact hnamed name args (Or.inr (Or.inl (by rw [hinfo]; rfl)))
  | array n =>
    obtain ⟨element, size, rfl, -⟩ := hc
    rfl
  | sliceLen n rest =>
    rcases hc with ⟨element, m, rfl⟩ | ⟨name, args, rfl, hname, -⟩
    · rfl
    · exact hnamed name args (Or.inr (Or.inr hname))

/-- The one exact constructor of a value in a column without integer domain. -/
def valueCtor (ty : Ty) : Value → PatCtor
  | .bool b => .bool b
  | .variant _ name _ _ => .variant name
  | .str s => .lit (.string s)
  | .struct name _ _ => .struct name
  | .seq vs => match ty with
    | .array _ _ => .array vs.length
    | _ => .sliceLen vs.length false
  | _ => .tuple

theorem valueCtor_of_head {ty : Ty} {c : PatCtor} {v : Value} {fields : List Value}
    (hc : CtorOf env ty c) (hexact : Exact env ty c) (hdom : effectiveIntDomain env ty = none)
    (h : HeadOf split c v fields) : c = valueCtor ty v := by
  cases c with
  | bool b => rw [h.1]; rfl
  | variant name =>
    obtain ⟨e, d, rfl⟩ := h
    rfl
  | lit l =>
    cases l with
    | string s => rw [h.1]; rfl
    | float bits => exact hexact.elim
  | intRange lo hi =>
    rw [Exact, hdom] at hexact
    exact absurd hexact (by simp)
  | tuple =>
    obtain rfl := h
    rfl
  | struct name =>
    obtain ⟨names, rfl⟩ := h
    rfl
  | array n =>
    obtain ⟨element, size, rfl, -⟩ := hc
    rw [h.1, ← h.2]
    rfl
  | sliceLen n rest =>
    obtain rfl := hexact
    rw [h.1, ← h.2]
    rcases hc with ⟨element, m, rfl⟩ | ⟨name, args, rfl, -⟩ <;> rfl

section Matrices

variable {m : Matrix} {ty : Ty} {tys : List Ty} (hm : MatrixWellTyped env (ty :: tys) m)
include hm

theorem matrix_heads_wellTyped {head : Pat} {tail : Row} (h : head :: tail ∈ m) :
    (∀ alt ∈ head.alternatives, WellTyped env false ty alt) ∧ RowWellTyped env false tys tail := by
  cases hm _ h with
  | cons hhead htail => exact ⟨hhead.alternatives, htail⟩

theorem head_ctor {head : Pat} {tail : Row} {c : PatCtor} {args : Row} (h : head :: tail ∈ m)
    (halt : .ctor c args ∈ head.alternatives) : CtorOf env ty c ∧ Exact env ty c ∧
      RowWellTyped env false (ctorFieldTypes env c ty) args := by
  cases (matrix_heads_wellTyped hm h).1 _ halt with
  | ctor hc hexact _ h => exact ⟨hc, hexact, h⟩

theorem specialize_wellTyped (c : PatCtor) :
    MatrixWellTyped env (ctorFieldTypes env c ty ++ tys)
      (specialize m c (ctorFieldTypes env c ty).length) := by
  intro row hrow
  obtain ⟨head, tail, hmem, h⟩ := mem_specialize.mp hrow
  have htail := (matrix_heads_wellTyped hm hmem).2
  rcases h with ⟨-, rfl⟩ | ⟨args, halt, rfl⟩
  · refine forall₂_append ?_ htail
    exact List.forall₂_iff_get.mpr ⟨by simp, fun i h1 h2 => by simpa using WellTyped.wildcard _⟩
  · exact forall₂_append (head_ctor hm hmem halt).2.2 htail

theorem defaultMatrix_wellTyped : MatrixWellTyped env tys (defaultMatrix m) := by
  intro row hrow
  obtain ⟨head, hmem, -⟩ := mem_defaultMatrix.mp hrow
  exact (matrix_heads_wellTyped hm hmem).2

theorem keepRows_wellTyped (seg : ℤ × ℤ) : MatrixWellTyped env tys (keepRows (intRows m) seg) := by
  intro row hrow
  obtain ⟨head, hmem, -⟩ := mem_keepRows.mp hrow
  exact (matrix_heads_wellTyped hm hmem).2

/-- What the matrix covers under a constructor, the specialized matrix covers. -/
theorem covers_specialize {c : PatCtor} (hc : CtorOf env ty c) (hexact : Exact env ty c)
    (hdom : effectiveIntDomain env ty = none) {v : Value} {fields vs : List Value}
    (hhead : HeadOf split c v fields) (h : Covers split m (v :: vs)) :
    Covers split (specialize m c fields.length) (fields ++ vs) := by
  obtain ⟨head, tail, hmem, ⟨alt, halt, hmatch⟩, htail⟩ := covers_cons.mp h
  cases hmatch with
  | wildcard =>
    refine ⟨_, mem_specialize.mpr ⟨head, tail, hmem, Or.inl ⟨halt, rfl⟩⟩, ?_⟩
    exact (rowMatches_append (by simp)).mpr ⟨rowMatches_wildcards fields, htail⟩
  | or => exact absurd rfl (alternatives_not_or head _ halt _)
  | @ctor c' args _ fields' hhead' hargs =>
    obtain ⟨hc', hexact', -⟩ := head_ctor hm hmem halt
    have hcc : c' = c :=
      (valueCtor_of_head hc' hexact' hdom hhead').trans (valueCtor_of_head hc hexact hdom hhead).symm
    subst hcc
    obtain rfl := hhead.unique hhead'
    refine ⟨_, mem_specialize.mpr ⟨head, tail, hmem, Or.inr ⟨args, halt, rfl⟩⟩, ?_⟩
    exact (rowMatches_append hargs.length_eq).mpr ⟨hargs, htail⟩

omit hm in
/-- A value that no head constructor matches is covered through a wildcard only. -/
theorem covers_default {v : Value} {vs : List Value}
    (hfresh : ∀ head tail, head :: tail ∈ m → ∀ c args, .ctor c args ∈ head.alternatives →
      ∀ fields, ¬ HeadOf split c v fields)
    (h : Covers split m (v :: vs)) : Covers split (defaultMatrix m) vs := by
  obtain ⟨head, tail, hmem, ⟨alt, halt, hmatch⟩, htail⟩ := covers_cons.mp h
  cases hmatch with
  | wildcard => exact ⟨tail, mem_defaultMatrix.mpr ⟨head, hmem, halt⟩, htail⟩
  | or => exact absurd rfl (alternatives_not_or head _ halt _)
  | ctor hhead _ => exact absurd hhead (hfresh head tail hmem _ _ halt _)

omit hm in
theorem mem_intCuts {qlo qhi lo hi c : ℤ} {head : Pat} {tail : Row} {args : Row} (hmem : head :: tail ∈ m)
    (halt : .ctor (.intRange lo hi) args ∈ head.alternatives) (hc : c = lo ∨ c = hi + 1) (h1 : qlo < c)
    (h2 : c ≤ qhi) : c ∈ intCuts (intRows m) qlo qhi := by
  have hrow : (some (lo, hi), tail) ∈ intRows m :=
    mem_mapHeads.mpr ⟨head, tail, hmem, _, halt, rfl⟩
  refine mem_sortedCuts.mpr (List.mem_cons_of_mem _ (List.mem_flatMap.mpr ⟨_, hrow, ?_⟩))
  refine List.mem_filter.mpr ⟨?_, by simp [h1, h2]⟩
  rcases hc with rfl | rfl <;> simp

/-- The ranges of the column do not cut a sub-interval. -/
theorem covers_keepRows {qlo qhi : ℤ} {seg : ℤ × ℤ}
    (hseg : seg ∈ segmentsFrom qhi (intCuts (intRows m) qlo qhi)) (hq : qlo ≤ seg.1) (hle : seg.2 ≤ qhi)
    {v : Value} {x : ℤ} {vs : List Value} (hdom : (effectiveIntDomain env ty).isSome = true)
    (hx : scalarKey v = some x) (hlo : seg.1 ≤ x) (hhi : x ≤ seg.2)
    (h : Covers split m (v :: vs)) : Covers split (keepRows (intRows m) seg) vs := by
  obtain ⟨head, tail, hmem, ⟨alt, halt, hmatch⟩, htail⟩ := covers_cons.mp h
  refine ⟨tail, mem_keepRows.mpr ⟨head, hmem, ?_⟩, htail⟩
  have hsorted := (intCuts_spec (intRows m) qlo qhi).1
  cases hmatch with
  | wildcard => exact Or.inl halt
  | or => exact absurd rfl (alternatives_not_or head _ halt _)
  | @ctor c args _ fields hhead hargs =>
    obtain ⟨hc, hexact, -⟩ := head_ctor hm hmem halt
    cases c with
    | intRange lo hi =>
      obtain ⟨⟨y, hy, h1, h2⟩, -⟩ := hhead
      obtain rfl := Option.some.inj (hx.symm.trans hy)
      refine Or.inr ⟨lo, hi, args, halt, ?_, ?_⟩
      · rcases lt_or_ge qlo lo with hlt | hge
        · rcases segmentsFrom_atomic hsorted hseg
            (mem_intCuts hmem halt (Or.inl rfl) hlt (by omega)) with h | h
          · exact h
          · omega
        · omega
      · rcases lt_or_ge hi qhi with hlt | hge
        · rcases segmentsFrom_atomic hsorted hseg
            (mem_intCuts hmem halt (Or.inr rfl) (by omega) (by omega)) with h | h
          · omega
          · omega
        · omega
    | _ =>
      rw [domain_none hc hexact (by simp)] at hdom
      exact absurd hdom (by simp)

end Matrices

/-! Columns without a finite constructor set. -/

/-- An exact constructor of an open column is a string or a slice of fixed length. -/
theorem open_ctor {ty : Ty} {c : PatCtor} (hc : CtorOf env ty c) (hexact : Exact env ty c)
    (hopen : enumerateCtors env ty = none) (hne : ∀ lo hi, c ≠ .intRange lo hi) :
    (∃ s, c = .lit (.string s) ∧ ty = .str) ∨ ∃ n, c = .sliceLen n false := by
  cases c with
  | lit l =>
    cases l with
    | string s => exact Or.inl ⟨s, rfl, hexact⟩
    | float bits => exact hexact.elim
  | sliceLen n rest =>
    obtain rfl := hexact
    exact Or.inr ⟨n, rfl⟩
  | intRange lo hi => exact absurd rfl (hne lo hi)
  | bool b =>
    obtain rfl := hc
    exact absurd hopen (by simp [enumerateCtors])
  | variant name =>
    obtain ⟨n, args, info, rfl, hinfo, -⟩ := hc
    exact absurd hopen (by simp [enumerateCtors, hinfo])
  | tuple => rcases hc with ⟨tys, rfl⟩ | rfl <;> exact absurd hopen (by simp [enumerateCtors])
  | struct name =>
    obtain ⟨args, info, rfl, henum, hvec, hinfo⟩ := hc
    exact absurd hopen (by simp [enumerateCtors, henum, hvec, hinfo])
  | array n =>
    obtain ⟨element, size, rfl, hsize⟩ := hc
    exact absurd hopen (by simp [enumerateCtors, hsize])

/-- The constructors at the heads of a matrix. -/
def headCtors (m : Matrix) : List PatCtor :=
  mapHeads (fun head _ => match head with
    | .ctor c _ => some c
    | _ => none) m

theorem mem_headCtors {m : Matrix} {c : PatCtor} : c ∈ headCtors m ↔
    ∃ head tail, head :: tail ∈ m ∧ ∃ args, .ctor c args ∈ head.alternatives := by
  unfold headCtors
  rw [mem_mapHeads]
  refine ⟨fun ⟨head, tail, hmem, alt, halt, hf⟩ => ?_, fun ⟨head, tail, hmem, args, halt⟩ =>
    ⟨head, tail, hmem, _, halt, rfl⟩⟩
  cases alt with
  | ctor c' args =>
    obtain rfl := Option.some.inj hf
    exact ⟨head, tail, hmem, args, halt⟩
  | wildcard => exact absurd hf (by simp)
  | or _ => exact absurd hf (by simp)

theorem hasIntHead_of_mem {m : Matrix} {lo hi : ℤ} (h : .intRange lo hi ∈ headCtors m) :
    matrixHasIntHead m = true := by
  obtain ⟨head, tail, hmem, args, halt⟩ := mem_headCtors.mp h
  exact List.any_eq_true.mpr ⟨(some (lo, hi), tail), mem_mapHeads.mpr ⟨head, tail, hmem, _, halt, rfl⟩, rfl⟩

def sliceLength : PatCtor → Option ℕ
  | .sliceLen n _ => some n
  | _ => none

def stringLit : PatCtor → Option String
  | .lit (.string s) => some s
  | _ => none

instance infinite_string : Infinite String :=
  Infinite.of_injective (fun n => String.ofList (List.replicate n 'a')) fun a b h => by
    have := congrArg (fun s => s.toList.length) h
    simpa using this

/-- An open column has a value that no head constructor matches. -/
theorem fresh_value {S : Set Ty} (hS : InhabitedTypes env S) {m : Matrix} {ty : Ty} {tys : List Ty}
    (hty : ty ∈ S) (hm : MatrixWellTyped env (ty :: tys) m) (hopen : enumerateCtors env ty = none)
    (hint : effectiveIntDomain env ty = none ∨ matrixHasIntHead m = false) :
    ∃ v, HasType env v ty ∧ ∀ c ∈ headCtors m, ∀ fields, ¬ HeadOf split c v fields := by
  have hkind : ∀ c ∈ headCtors m, CtorOf env ty c ∧
      ((∃ s, c = .lit (.string s) ∧ ty = .str) ∨ ∃ n, c = .sliceLen n false) := by
    intro c hcm
    obtain ⟨head, tail, hmem, args, halt⟩ := mem_headCtors.mp hcm
    obtain ⟨hc, hexact, -⟩ := head_ctor hm hmem halt
    refine ⟨hc, open_ctor hc hexact hopen fun lo hi heq => ?_⟩
    rw [heq] at hexact hcm
    rcases hint with h | h
    · rw [Exact, h] at hexact
      exact absurd hexact (by simp)
    · rw [hasIntHead_of_mem hcm] at h
      exact absurd h (by simp)
  by_cases hslice : CtorOf env ty (.sliceLen 1 false)
  · -- a sequence of a length no row mentions
    have helem : arrayOrCollectionElement ty ∈ S :=
      hS.closed ty hty _ hslice _ (by simp [ctorFieldTypes])
    obtain ⟨w, hw⟩ := hS.inhabited _ helem
    obtain ⟨n, hn⟩ := Infinite.exists_notMem_finset
      ((headCtors m).filterMap sliceLength).toFinset
    have hfields : List.Forall₂ (HasType env) (List.replicate n w)
        (ctorFieldTypes env (.sliceLen n false) ty) := by
      refine List.forall₂_iff_get.mpr ⟨by simp [ctorFieldTypes], fun i h1 h2 => ?_⟩
      simpa [ctorFieldTypes] using hw
    have hinside : RangeInside env ty (.sliceLen n false) := fun lo hi h => absurd h (by simp)
    obtain ⟨v, hv, hhead⟩ :=
      @build_ctor env split S hS ty hty (.sliceLen n false) hslice rfl hinside _ hfields
    refine ⟨v, hv, fun c hcm fields hf => ?_⟩
    rcases (hkind c hcm).2 with ⟨s, rfl, -⟩ | ⟨k, rfl⟩
    · rw [hhead.1] at hf
      exact absurd hf.1 (by simp)
    · have heq : fields = List.replicate n w := Value.seq.inj (hf.1.symm.trans hhead.1)
      have hk : k = n := by rw [← hf.2, heq, List.length_replicate]
      refine hn (List.mem_toFinset.mpr (List.mem_filterMap.mpr ⟨_, hcm, congrArg some hk⟩))
  · by_cases hstr : ty = .str
    · subst hstr
      obtain ⟨s, hs⟩ := Infinite.exists_notMem_finset
        ((headCtors m).filterMap stringLit).toFinset
      refine ⟨.str s, HasType.str s, fun c hcm fields hf => ?_⟩
      rcases (hkind c hcm).2 with ⟨s', rfl, -⟩ | ⟨k, rfl⟩
      · obtain rfl := Value.str.inj hf.1
        exact hs (List.mem_toFinset.mpr (List.mem_filterMap.mpr ⟨_, hcm, rfl⟩))
      · exact absurd hf.1 (by simp)
    · obtain ⟨v, hv⟩ := hS.inhabited ty hty
      refine ⟨v, hv, fun c hcm => ?_⟩
      obtain ⟨hc, ⟨s, -, hty'⟩ | ⟨k, rfl⟩⟩ := hkind c hcm
      · exact absurd hty' hstr
      · exact absurd hc hslice

/-! The recursion. -/

/-- The induction hypothesis of completeness for one problem: a witness has an instance that the
query matches and no row matches. -/
def WitnessedAt (env : TypeEnv) (split : ℕ → Option ℕ) (S : Set Ty) (m : Matrix) (q : Row) : Prop :=
  ∀ tys, (∀ ty ∈ tys, ty ∈ S) → MatrixWellTyped env tys m → RowWellTyped env true tys q →
    ∀ w, usefulness env m q tys = some w →
      ∃ vs, List.Forall₂ (HasType env) vs tys ∧ RowMatches split w vs ∧ RowMatches split q vs ∧
        ¬ Covers split m vs

theorem enumerate_ctorOf {ty : Ty} {all : List PatCtor} (h : enumerateCtors env ty = some all) :
    ∀ c ∈ all, CtorOf env ty c ∧ Exact env ty c ∧ ∀ lo hi, c ≠ .intRange lo hi := by
  intro c hmem
  cases ty with
  | bool =>
    obtain rfl := Option.some.inj h
    rcases List.mem_cons.mp hmem with rfl | hmem
    · exact ⟨rfl, trivial, by simp⟩
    · obtain rfl := List.mem_singleton.mp hmem
      exact ⟨rfl, trivial, by simp⟩
  | tuple tys =>
    obtain rfl := Option.some.inj h
    obtain rfl := List.mem_singleton.mp hmem
    exact ⟨Or.inl ⟨tys, rfl⟩, trivial, by simp⟩
  | unit =>
    obtain rfl := Option.some.inj h
    obtain rfl := List.mem_singleton.mp hmem
    exact ⟨Or.inr rfl, trivial, by simp⟩
  | never =>
    obtain rfl := Option.some.inj h
    exact absurd hmem (by simp)
  | array element size =>
    obtain ⟨n, hn, rfl⟩ := Option.map_eq_some_iff.mp h
    obtain rfl := List.mem_singleton.mp hmem
    exact ⟨⟨element, size, rfl, hn⟩, trivial, by simp⟩
  | named name args =>
    cases henum : env.enums name with
    | some info =>
      obtain rfl : (info.variants.map fun v => PatCtor.variant v.1) = all := by
        simpa [enumerateCtors, henum] using h
      obtain ⟨v, hv, rfl⟩ := List.mem_map.mp hmem
      refine ⟨⟨name, args, info, rfl, henum, ?_⟩, trivial, by simp⟩
      simp only [EnumInfo.variant, Option.isSome_map, List.find?_isSome, decide_eq_true_eq]
      exact ⟨v, hv, rfl⟩
    | none =>
      cases hvec : isOpenCollection name with
      | true => simp [enumerateCtors, henum, hvec] at h
      | false =>
        cases hstruct : env.structs name with
        | none => simp [enumerateCtors, henum, hvec, hstruct] at h
        | some info =>
          obtain rfl : [PatCtor.struct name] = all := by
            simpa [enumerateCtors, henum, hvec, hstruct] using h
          obtain rfl := List.mem_singleton.mp hmem
          exact ⟨⟨args, info, rfl, henum, hvec, hstruct⟩, trivial, by simp⟩
  | _ => exact absurd h (by simp [enumerateCtors])

/-- Cut a vector of values and a witness at the columns of a constructor. -/
theorem repackage_matches {c : PatCtor} {w : Row} {us : List Value} {v : Value} {n : ℕ}
    (hw : RowMatches split w us) (hhead : HeadOf split c v (us.take n)) :
    RowMatches split (repackageWitness c n w) (v :: us.drop n) :=
  List.Forall₂.cons (PatMatches.ctor hhead (List.forall₂_take n hw)) (List.forall₂_drop n hw)

section Columns

variable {S : Set Ty} (hS : InhabitedTypes env S) {m : Matrix} {ty : Ty} {tys : List Ty} {qRest : Row}
  (hty : ty ∈ S) (htys : ∀ t ∈ tys, t ∈ S) (hm : MatrixWellTyped env (ty :: tys) m)
  (hq : RowWellTyped env true tys qRest)
include hS hty htys hm hq

omit hS hty in
theorem intColumnUseful_witness {qlo qhi : ℤ} {d : ℤ × ℤ}
    (ih : ∀ seg, WitnessedAt env split S (keepRows (intRows m) seg) qRest)
    (hdom : effectiveIntDomain env ty = some d) (hlo : d.1 ≤ qlo) (hhi : qhi ≤ d.2) {w : Row}
    (hw : intColumnUseful (usefulness env) m qlo qhi qRest tys = some w) :
    ∃ x v vs, qlo ≤ x ∧ x ≤ qhi ∧ scalarKey v = some x ∧ List.Forall₂ (HasType env) (v :: vs) (ty :: tys) ∧
      RowMatches split w (v :: vs) ∧ RowMatches split qRest vs ∧ ¬ Covers split m (v :: vs) := by
  unfold intColumnUseful at hw
  obtain ⟨hle, hw⟩ := Option.ite_none_left_eq_some.mp hw
  obtain ⟨seg, hseg, hw⟩ := List.exists_of_findSome?_eq_some hw
  obtain ⟨w', hw', rfl⟩ := Option.map_eq_some_iff.mp hw
  obtain ⟨vs, hvs, hwm, hqm, hnot⟩ := ih seg tys htys (keepRows_wellTyped hm seg) hq w' hw'
  have hsorted := (intCuts_spec (intRows m) qlo qhi).1
  have hcuts : ∀ s ∈ intCuts (intRows m) qlo qhi, qlo ≤ s ∧ s ≤ qhi := by
    intro s hs
    rcases List.mem_cons.mp (mem_sortedCuts.mp hs) with rfl | hs
    · exact ⟨le_rfl, by omega⟩
    · obtain ⟨r, -, hs⟩ := List.mem_flatMap.mp hs
      cases hr : r.1 with
      | none => simp [hr] at hs
      | some p =>
        simp only [hr] at hs
        have := of_decide_eq_true (List.mem_filter.mp hs).2
        omega
  have hstart := hcuts seg.1 (segmentsFrom_start hseg)
  have hbounds := segmentsFrom_bounds hsorted (fun s hs => (hcuts s hs).2) hseg
  have hpoint : d.1 ≤ seg.1 ∧ seg.1 ≤ d.2 := by omega
  obtain ⟨v, hv, htype⟩ := hasType_of_domain hdom hpoint.1 hpoint.2
  refine ⟨seg.1, v, vs, hstart.1, hstart.2, hv, List.Forall₂.cons htype hvs, ?_, hqm, fun hcov => hnot ?_⟩
  · exact List.Forall₂.cons (PatMatches.ctor ⟨⟨seg.1, hv, le_rfl, hbounds.1⟩, rfl⟩ List.Forall₂.nil) hwm
  · exact covers_keepRows hm hseg hstart.1 hbounds.2 (by rw [hdom]; rfl) hv le_rfl hbounds.1 hcov

theorem ctor_witness {c : PatCtor} {args : Row} (hc : CtorOf env ty c) (hexact : Exact env ty c)
    (hne : ∀ lo hi, c ≠ .intRange lo hi)
    (hargs : RowWellTyped env true (ctorFieldTypes env c ty) args)
    (ih : WitnessedAt env split S (specialize m c (ctorFieldTypes env c ty).length) (args ++ qRest))
    {w : Row} (hw : usefulness env (specialize m c (ctorFieldTypes env c ty).length) (args ++ qRest)
      (ctorFieldTypes env c ty ++ tys) = some w) :
    ∃ v vs fields, List.Forall₂ (HasType env) (v :: vs) (ty :: tys) ∧
      RowMatches split (repackageWitness c (ctorFieldTypes env c ty).length w) (v :: vs) ∧
      HeadOf split c v fields ∧ RowMatches split args fields ∧ RowMatches split qRest vs ∧
      ¬ Covers split m (v :: vs) := by
  have hcols : ∀ t ∈ ctorFieldTypes env c ty ++ tys, t ∈ S := by
    intro t ht
    rcases List.mem_append.mp ht with ht | ht
    · exact hS.closed ty hty c hc t ht
    · exact htys t ht
  obtain ⟨us, hus, hwm, hqm, hnot⟩ := ih _ hcols (specialize_wellTyped hm c) (forall₂_append hargs hq) w hw
  have hfields := List.forall₂_take_append us _ tys hus
  have hrest := List.forall₂_drop_append us _ tys hus
  obtain ⟨v, hv, hhead⟩ :=
    @build_ctor env split S hS ty hty c hc hexact (fun lo hi h => absurd h (hne lo hi)) _ hfields
  have hcut := List.take_append_drop (ctorFieldTypes env c ty).length us
  have hlen : args.length = (us.take (ctorFieldTypes env c ty).length).length :=
    hargs.length_eq.symm.trans hfields.length_eq.symm
  rw [← hcut, rowMatches_append hlen] at hqm
  refine ⟨v, _, _, List.Forall₂.cons hv hrest, repackage_matches hwm hhead, hhead, hqm.1, hqm.2, ?_⟩
  intro hcov
  have hspec := covers_specialize hm hc hexact (domain_none hc hexact hne) hhead hcov
  rw [hfields.length_eq, hcut] at hspec
  exact hnot hspec

theorem wildcardUseful_witness
    (hint : effectiveIntDomain env ty = none ∨ matrixHasIntHead m = false)
    (ihd : WitnessedAt env split S (defaultMatrix m) qRest)
    (ihs : m.all rowStartsWild = false → ∀ c arity, WitnessedAt env split S (specialize m c arity)
      (List.replicate arity .wildcard ++ qRest)) {w : Row}
    (hw : wildcardUseful env (usefulness env) m qRest ty tys = some w) :
    ∃ v vs, List.Forall₂ (HasType env) (v :: vs) (ty :: tys) ∧ RowMatches split w (v :: vs) ∧
      RowMatches split qRest vs ∧ ¬ Covers split m (v :: vs) := by
  -- the default matrix is exact at a value that no head constructor matches
  have hdefault : (usefulness env (defaultMatrix m) qRest tys).map (fun w => Pat.wildcard :: w) = some w →
      (∃ v, HasType env v ty ∧ ∀ c ∈ headCtors m, ∀ fields, ¬ HeadOf split c v fields) →
      ∃ v vs, List.Forall₂ (HasType env) (v :: vs) (ty :: tys) ∧ RowMatches split w (v :: vs) ∧
        RowMatches split qRest vs ∧ ¬ Covers split m (v :: vs) := by
    intro h hfresh
    obtain ⟨w', hw', rfl⟩ := Option.map_eq_some_iff.mp h
    obtain ⟨vs, hvs, hwm, hqm, hnot⟩ := ihd tys htys (defaultMatrix_wellTyped hm) hq w' hw'
    obtain ⟨v, hv, hno⟩ := hfresh
    refine ⟨v, vs, List.Forall₂.cons hv hvs, List.Forall₂.cons (PatMatches.wildcard v) hwm, hqm, ?_⟩
    intro hcov
    refine hnot (covers_default (fun head tail hmem c args halt => ?_) hcov)
    exact hno c (mem_headCtors.mpr ⟨head, tail, hmem, args, halt⟩)
  unfold wildcardUseful at hw
  split_ifs at hw with hall
  · refine hdefault hw ?_
    obtain ⟨v, hv⟩ := hS.inhabited ty hty
    refine ⟨v, hv, fun c hcm => ?_⟩
    obtain ⟨head, tail, hmem, args, halt⟩ := mem_headCtors.mp hcm
    have hwild : isWildcard head = true := List.all_eq_true.mp hall _ hmem
    cases head <;> simp_all [isWildcard]
  · cases henum : enumerateCtors env ty with
    | none =>
      rw [henum] at hw
      exact hdefault hw (fresh_value hS hty hm henum hint)
    | some all =>
      rw [henum] at hw
      obtain ⟨c, hmem, hw⟩ := List.exists_of_findSome?_eq_some hw
      obtain ⟨w', hw', rfl⟩ := Option.map_eq_some_iff.mp hw
      obtain ⟨hc, hexact, hne⟩ := enumerate_ctorOf henum c hmem
      have hargs : RowWellTyped env true (ctorFieldTypes env c ty)
          (List.replicate (ctorArity env c ty) .wildcard) :=
        List.forall₂_iff_get.mpr ⟨by simp [ctorArity], fun i h1 h2 => by simpa using WellTyped.wildcard _⟩
      obtain ⟨v, vs, fields, h1, h2, -, -, h3, h4⟩ := ctor_witness hS hty htys hm hq hc hexact hne hargs
        (ihs (by simpa using hall) c _) hw'
      exact ⟨v, vs, h1, h2, h3, h4⟩

end Columns

/-- A witness stands for a value that the query matches and no row matches. -/
theorem usefulness_witness {S : Set Ty} (hS : InhabitedTypes env S) (m : Matrix) (q : Row) :
    WitnessedAt env split S m q := by
  refine usefulness_induction (P := WitnessedAt env split S) (fun m q ih => ?_) m q
  intro tys htys hm hq w hw
  rw [usefulness_eq] at hw
  unfold usefulnessStep at hw
  cases hq with
  | nil =>
    cases m with
    | nil =>
      obtain rfl := Option.some.inj hw
      exact ⟨[], List.Forall₂.nil, List.Forall₂.nil, List.Forall₂.nil, fun ⟨_, h, _⟩ => by simp at h⟩
    | cons row m => simp at hw
  | @cons ty qHead tys qRest hhead hrest =>
    have hty := htys ty List.mem_cons_self
    have htail : ∀ t ∈ tys, t ∈ S := fun t ht => htys t (List.mem_cons_of_mem _ ht)
    cases hempty : m.isEmpty with
    | true =>
      -- nothing is covered yet: any value of the query is missed
      rw [hempty, if_pos rfl] at hw
      obtain rfl := Option.some.inj hw
      obtain rfl := List.isEmpty_iff.mp hempty
      obtain ⟨vs, hvs, hqm⟩ := @realizeRow env split S hS _ _ htys (List.Forall₂.cons hhead hrest)
      refine ⟨vs, hvs, ?_, hqm, fun ⟨_, h, _⟩ => by simp at h⟩
      rw [hqm.length_eq]
      exact rowMatches_wildcards vs
    | false =>
      simp only [hempty, Bool.false_eq_true, if_false, List.headD_cons, List.tail_cons] at hw
      cases qHead with
      | or alts =>
        obtain ⟨alt, hmem, hw⟩ := List.exists_of_findSome?_eq_some hw
        cases hhead with
        | or _ halts =>
          obtain ⟨vs, hvs, hwm, hqm, hnot⟩ := ih _ _ (smaller_alternative hmem) _ htys hm
            (List.Forall₂.cons (halts alt hmem) hrest) w hw
          cases hqm with
          | cons hv hqm => exact ⟨_, hvs, hwm, List.Forall₂.cons (PatMatches.or hmem hv) hqm, hnot⟩
      | ctor c args =>
        cases hhead with
        | ctor hc hexact hrange hargs =>
          have hctor : (∀ lo hi, c ≠ .intRange lo hi) →
              ctorUseful env (usefulness env) m c args qRest ty tys = some w →
              ∃ vs, List.Forall₂ (HasType env) vs (ty :: tys) ∧ RowMatches split w vs ∧
                RowMatches split (.ctor c args :: qRest) vs ∧ ¬ Covers split m vs := by
            intro hne h
            obtain ⟨w', hw', rfl⟩ := Option.map_eq_some_iff.mp h
            rw [← hargs.length_eq, resizeTypes_length] at hw'
            obtain ⟨v, vs, fields, h1, h2, h3, h4, h5, h6⟩ := ctor_witness hS hty htail hm hrest hc
              hexact hne hargs (ih _ _ (smaller_specialize_ctor _ c args)) hw'
            rw [hargs.length_eq] at h2
            exact ⟨_, h1, h2, List.Forall₂.cons (PatMatches.ctor h3 h4) h5, h6⟩
          cases c with
          | intRange lo hi =>
            obtain ⟨d, hdom⟩ := Option.isSome_iff_exists.mp hexact
            simp only [hdom] at hw
            obtain ⟨-, hin⟩ := hrange rfl lo hi rfl
            obtain ⟨h1, h2⟩ := hin d hdom
            obtain ⟨x, v, vs, hlo, hhi, hx, hvs, hwm, hqm, hnot⟩ := intColumnUseful_witness htail hm
              hrest (fun seg => ih _ _ (smaller_keepRows seg (Or.inl (by simp)))) hdom h1 h2 hw
            have hnil : args = [] := List.length_eq_zero_iff.mp hargs.length_eq.symm
            refine ⟨_, hvs, hwm, List.Forall₂.cons ?_ hqm, hnot⟩
            rw [hnil]
            exact PatMatches.ctor ⟨⟨x, hx, hlo, hhi⟩, rfl⟩ List.Forall₂.nil
          | _ => exact hctor (by simp) hw
      | wildcard =>
        have hwild : (effectiveIntDomain env ty = none ∨ matrixHasIntHead m = false) →
            wildcardUseful env (usefulness env) m qRest ty tys = some w →
            ∃ vs, List.Forall₂ (HasType env) vs (ty :: tys) ∧ RowMatches split w vs ∧
              RowMatches split (.wildcard :: qRest) vs ∧ ¬ Covers split m vs := by
          intro hint h
          obtain ⟨v, vs, h1, h2, h3, h4⟩ := wildcardUseful_witness hS hty htail hm hrest hint
            (ih _ _ smaller_default) (fun hall c arity => ih _ _ (smaller_specialize_wildcard arity c hall)) h
          exact ⟨_, h1, h2, List.Forall₂.cons (PatMatches.wildcard v) h3, h4⟩
        cases hdom : effectiveIntDomain env ty with
        | none =>
          rw [hdom] at hw
          exact hwild (Or.inl hdom) hw
        | some d =>
          simp only [hdom] at hw
          split_ifs at hw with hint
          · obtain ⟨x, v, vs, -, -, hx, hvs, hwm, hqm, hnot⟩ := intColumnUseful_witness htail hm
              hrest (fun seg => ih _ _ (smaller_keepRows seg (Or.inr hint))) hdom le_rfl le_rfl hw
            exact ⟨_, hvs, hwm, List.Forall₂.cons (PatMatches.wildcard v) hqm, hnot⟩
          · exact hwild (Or.inr (by simpa using hint)) hw

/-- On well-typed problems over inhabited types the answer is exact: `none` means that every vector
the query matches is covered, and a witness has an instance that the query matches and no row
matches. -/
theorem usefulness_exact {S : Set Ty} (hS : InhabitedTypes env S) {m : Matrix} {q : Row} {tys : List Ty}
    (htys : ∀ ty ∈ tys, ty ∈ S) (hm : MatrixWellTyped env tys m) (hq : RowWellTyped env true tys q) :
    (usefulness env m q tys = none ↔ ∀ vs, List.Forall₂ (HasType env) vs tys → RowMatches split q vs →
      Covers split m vs) ∧
    ∀ w, usefulness env m q tys = some w → ∃ vs, List.Forall₂ (HasType env) vs tys ∧
      RowMatches split w vs ∧ RowMatches split q vs ∧ ¬ Covers split m vs := by
  have hwit := @usefulness_witness env split S hS m q tys htys hm hq
  refine ⟨⟨fun hnone vs hvs hmatch => ?_, fun hall => ?_⟩, hwit⟩
  · have hfits : MatrixFits env tys m := fun row hrow => fits_of_row (hm row hrow)
    exact usefulness_sound m q tys hfits (fits_of_row hq) hnone vs (hvs.imp fun _ _ h => h.approx) hmatch
  · cases hres : usefulness env m q tys with
    | none => rfl
    | some w =>
      obtain ⟨vs, hvs, -, hmatch, hnot⟩ := hwit w hres
      exact absurd (hall vs hvs hmatch) hnot

/-- No declarations. -/
def emptyEnv : TypeEnv where
  enums := fun _ => none
  structs := fun _ => none
  distinctBases := fun _ => none
  refinementPredicates := fun _ => none
  constValues := fun _ => none
  distinct_only := fun _ h => absurd h (by simp)

/-- Every fixed element stands before the rest. -/
def splitAtEnd : ℕ → Option ℕ := some

theorem bool_inhabited : InhabitedTypes emptyEnv {.bool} := by
  refine ⟨fun ty hty => ?_, fun ty hty c hc f hf => ?_, fun name args info h => by simp at h⟩
  · obtain rfl := hty
    exact ⟨.bool true, HasType.bool true⟩
  · obtain rfl := hty
    cases c <;> simp_all [CtorOf, ctorFieldTypes]

theorem usefulness_nil (env : TypeEnv) (m : Matrix) (tys : List Ty) :
    usefulness env m [] tys = if m.isEmpty then some [] else none := by
  rw [usefulness_eq]
  rfl

/-- A match on `true` alone misses `false`, and the witness stands for a value that is missed. -/
theorem usefulness_exact_true :
    usefulness emptyEnv [[.ctor (.bool true) []]] [.wildcard] [.bool] = some [.ctor (.bool false) []] ∧
    ∃ vs, List.Forall₂ (HasType emptyEnv) vs [.bool] ∧
      RowMatches splitAtEnd [.ctor (.bool false) []] vs ∧ RowMatches splitAtEnd [.wildcard] vs ∧
      ¬ Covers splitAtEnd [[.ctor (.bool true) []]] vs := by
  have hres : usefulness emptyEnv [[.ctor (.bool true) []]] [.wildcard] [.bool] =
      some [.ctor (.bool false) []] := by
    rw [usefulness_eq]
    simp [usefulnessStep, effectiveIntDomain, refinementFiniteDomain, refinementBase, intDomain,
      wildcardUseful, rowStartsWild, isWildcard, enumerateCtors, ctorArity, ctorFieldTypes, specialize,
      mapHeads, usefulness_nil, repackageWitness]
  refine ⟨hres, ?_⟩
  refine (usefulness_exact bool_inhabited (by simp) ?_ ?_).2 _ hres
  · intro row hrow
    obtain rfl := List.mem_singleton.mp hrow
    exact List.Forall₂.cons (WellTyped.ctor rfl trivial (by simp) List.Forall₂.nil) List.Forall₂.nil
  · exact List.Forall₂.cons (WellTyped.wildcard _) List.Forall₂.nil

/-- In an open column only a wildcard row counts. -/
theorem usefulness_open {c : PatCtor} {ty : Ty} (hdom : effectiveIntDomain emptyEnv ty = none)
    (hopen : enumerateCtors emptyEnv ty = none) :
    usefulness emptyEnv [[.ctor c []]] [.wildcard] [ty] = some [.wildcard] := by
  rw [usefulness_eq]
  simp [usefulnessStep, hdom, wildcardUseful, rowStartsWild, isWildcard, hopen, defaultMatrix, mapHeads,
    usefulness_nil]

/-- Where the checker is not exact: an instance of the witness need not match the query; a slice
pattern that is all rest, and the full range of `i128`, cover every value and are not counted; and
`-0.0` is not recognized as covered by `0.0`. -/
theorem usefulness_inexact :
    (usefulness emptyEnv [] [.ctor (.bool true) []] [.bool] = some [.wildcard] ∧
      RowMatches splitAtEnd [.wildcard] [.bool false] ∧
      ¬ RowMatches splitAtEnd [.ctor (.bool true) []] [.bool false]) ∧
    (usefulness emptyEnv [[.ctor (.sliceLen 0 true) []]] [.wildcard] [.slice .bool false] = some [.wildcard] ∧
      ∀ vs, List.Forall₂ (HasType emptyEnv) vs [.slice .bool false] →
        Covers splitAtEnd [[.ctor (.sliceLen 0 true) []]] vs) ∧
    (usefulness emptyEnv [[.ctor (.intRange i128Min i128Max) []]] [.wildcard] [.int .i128] = some [.wildcard] ∧
      ∀ vs, List.Forall₂ (HasType emptyEnv) vs [.int .i128] →
        Covers splitAtEnd [[.ctor (.intRange i128Min i128Max) []]] vs) ∧
    ((usefulness emptyEnv [[.ctor (.lit (.float 0)) []]] [.ctor (.lit (.float (2 ^ 63))) []]
        [.float .f64]).isSome = true ∧
      ∀ vs, RowMatches splitAtEnd [.ctor (.lit (.float (2 ^ 63))) []] vs →
        Covers splitAtEnd [[.ctor (.lit (.float 0)) []]] vs) := by
  refine ⟨⟨?_, ?_, ?_⟩, ⟨usefulness_open rfl rfl, ?_⟩, ⟨usefulness_open rfl rfl, ?_⟩, ⟨?_, ?_⟩⟩
  · rw [usefulness_eq]
    rfl
  · exact rowMatches_wildcards [.bool false]
  · intro h
    cases h with
    | cons h _ =>
      cases h with
      | ctor hhead _ => exact absurd hhead.1 (by simp)
  · intro vs hvs
    obtain ⟨v, _, hv, hnil, rfl⟩ := List.forall₂_cons_right_iff.mp hvs
    cases hnil
    cases hv with
    | slice _ =>
      refine ⟨_, List.mem_singleton_self _, List.Forall₂.cons (PatMatches.ctor ?_ List.Forall₂.nil) List.Forall₂.nil⟩
      exact ⟨0, _, rfl, le_rfl, rfl, Nat.zero_le _, by simp⟩
    | int hty => exact absurd hty (by simp [intRangeOf])
    | opaqueTyped h => simp [opaqueTy] at h
  · intro vs hvs
    obtain ⟨v, _, hv, hnil, rfl⟩ := List.forall₂_cons_right_iff.mp hvs
    cases hnil
    cases hv with
    | int hty hlo hhi =>
      obtain ⟨rfl, rfl⟩ := Prod.mk.inj (Option.some.inj hty)
      exact ⟨_, List.mem_singleton_self _,
        List.Forall₂.cons (PatMatches.ctor ⟨⟨_, rfl, hlo, hhi⟩, rfl⟩ List.Forall₂.nil) List.Forall₂.nil⟩
    | opaqueTyped h => simp [opaqueTy] at h
  · rw [usefulness_eq]
    simp [usefulnessStep, ctorUseful, specialize, mapHeads, usefulness_nil, resizeTypes, ctorFieldTypes]
  · intro vs hvs
    cases hvs with
    | cons h hnil =>
      cases hnil
      cases h with
      | ctor hhead hargs =>
        obtain ⟨⟨b, rfl, heq⟩, rfl⟩ := hhead
        refine ⟨_, List.mem_singleton_self _,
          List.Forall₂.cons (PatMatches.ctor ⟨⟨b, rfl, ?_⟩, rfl⟩ List.Forall₂.nil) List.Forall₂.nil⟩
        simp [floatEq, floatIsNaN] at heq ⊢
        omega

end Karac.Exhaustive
