import Karac.Exhaustive.Exactness
import Karac.Exhaustive.MatchSound

/-! Uninhabited values. An empty matrix is taken for a missed value before the empty constructor list
of `Never` is looked at, so an arm is asked for where no value can arrive. -/

namespace Karac.Exhaustive

variable {env : TypeEnv}

theorem usefulness_empty (env : TypeEnv) (p : Pat) (q : Row) (tys : List Ty) :
    usefulness env [] (p :: q) tys = some (List.replicate (p :: q).length .wildcard) := by
  rw [usefulness_eq]
  rfl

/-- The step for a wildcard query over a matrix with rows, in a column without integer patterns. -/
theorem usefulness_wildcard_cons {m : Matrix} (hm : m ≠ []) {q : Row} {ty : Ty} {tys : List Ty}
    (hdom : effectiveIntDomain env ty = none) :
    usefulness env m (.wildcard :: q) (ty :: tys) = wildcardUseful env (usefulness env) m q ty tys := by
  have hne : m.isEmpty = false := by simpa using hm
  rw [usefulness_eq, usefulnessStep]
  simp [hne, hdom]

theorem wildcards_mem_specialize {m : Matrix} {n : ℕ} (c : PatCtor) (arity : ℕ)
    (h : List.replicate (n + 1) .wildcard ∈ m) :
    List.replicate (arity + n) .wildcard ∈ specialize m c arity := by
  refine mem_specialize.mpr ⟨.wildcard, _, h, Or.inl ⟨by simp, ?_⟩⟩
  rw [List.replicate_append_replicate]

theorem wildcards_mem_default {m : Matrix} {n : ℕ} (h : List.replicate (n + 1) .wildcard ∈ m) :
    List.replicate n .wildcard ∈ defaultMatrix m :=
  mem_defaultMatrix.mpr ⟨.wildcard, h, by simp⟩

theorem wildcards_mem_keepRows {m : Matrix} {n : ℕ} (seg : ℤ × ℤ)
    (h : List.replicate (n + 1) .wildcard ∈ m) : List.replicate n .wildcard ∈ keepRows (intRows m) seg :=
  mem_keepRows.mpr ⟨.wildcard, h, Or.inl (by simp)⟩

/-- A row of wildcards leaves nothing to miss. -/
theorem usefulness_wildcards (m : Matrix) (n : ℕ) (h : List.replicate n .wildcard ∈ m) (tys : List Ty) :
    usefulness env m (List.replicate n .wildcard) tys = none := by
  suffices hall : ∀ m q, ∀ n tys, q = List.replicate n .wildcard → q ∈ m → usefulness env m q tys = none from
    hall m _ n tys rfl h
  apply usefulness_induction
  rintro m q ih n tys rfl h
  have hm : m.isEmpty = false := List.isEmpty_eq_false_iff.mpr (List.ne_nil_of_mem h)
  rw [usefulness_eq]
  cases n with
  | zero => simp [usefulnessStep, hm]
  | succ n =>
    have hwild : wildcardUseful env (usefulness env) m (List.replicate n .wildcard) (tys.headD .unit)
        tys.tail = none := by
      have hdefault := ih _ _ smaller_default n tys.tail rfl (wildcards_mem_default h)
      unfold wildcardUseful
      rw [hdefault]
      cases hall : m.all rowStartsWild with
      | true => rfl
      | false =>
        cases enumerateCtors env (tys.headD .unit) with
        | none => rfl
        | some all =>
          refine List.findSome?_eq_none_iff.mpr fun c _ => ?_
          have hspec := ih _ _ (smaller_specialize_wildcard (ctorArity env c (tys.headD .unit)) c hall)
            (ctorArity env c (tys.headD .unit) + n)
            (ctorFieldTypes env c (tys.headD .unit) ++ tys.tail) List.replicate_append_replicate (by
              rw [List.replicate_append_replicate]
              exact wildcards_mem_specialize c _ h)
          rw [hspec]
          rfl
    simp only [List.replicate_succ, usefulnessStep, hm, Bool.false_eq_true, if_false]
    cases effectiveIntDomain env (tys.headD .unit) with
    | none => exact hwild
    | some d =>
      simp only
      split_ifs with hint
      · unfold intColumnUseful
        split_ifs
        · rfl
        · refine List.findSome?_eq_none_iff.mpr fun seg _ => ?_
          rw [ih _ _ (smaller_keepRows seg (Or.inr hint)) n tys.tail rfl (wildcards_mem_keepRows seg h)]
          rfl
      · exact hwild

/-! The scrutinee. -/

theorem buildMatrix_ne_nil {arms : List MatchArm} {ty : Ty} :
    buildMatrix env arms ty ≠ [] ↔ ∃ arm ∈ arms, arm.hasGuard = false := by
  simp [buildMatrix]

theorem checkMatchExhaustive_of_closed {ty : Ty} (hhandled : isHandledScrutinee ty = true)
    (hslice : isOpenSliceScrutinee ty = false) (arms : List MatchArm) :
    checkMatchExhaustive env ty arms = .exhaustive ↔
      usefulness env (buildMatrix env arms ty) [.wildcard] [ty] = none := by
  unfold checkMatchExhaustive
  cases huse : usefulness env (buildMatrix env arms ty) [.wildcard] [ty] with
  | none => simp [hhandled, hslice, huse]
  | some w => simp [hhandled, hslice, huse]

theorem effectiveIntDomain_enum {name : String} {args : List Ty} {info : EnumInfo}
    (h : env.enums name = some info) : effectiveIntDomain env (.named name args) = none := by
  cases hdist : env.distinctBases name with
  | none => simp [effectiveIntDomain, refinementFiniteDomain, refinementBase, intDomain, hdist]
  | some base =>
    have := (env.distinct_only name (by simp [hdist])).1
    rw [h] at this
    exact absurd this (by simp)

theorem exists_of_rowStartsWild {row : Row} (h : rowStartsWild row = true) : ∃ tail, row = .wildcard :: tail := by
  cases row with
  | nil => simp [rowStartsWild] at h
  | cons head tail =>
    cases head with
    | wildcard => exact ⟨tail, rfl⟩
    | ctor _ _ => simp [rowStartsWild, isWildcard] at h
    | or _ => simp [rowStartsWild, isWildcard] at h

/-- A matrix of one column whose heads are all wildcards has the wildcard row. -/
theorem wildcard_mem_of_all_wild {m : Matrix} (hm : m ≠ []) (hrows : ∀ row ∈ m, row.length = 1)
    (hall : m.all rowStartsWild = true) : [.wildcard] ∈ m := by
  obtain ⟨row, hrow⟩ := List.exists_mem_of_ne_nil m hm
  have hwild := List.all_eq_true.mp hall row hrow
  have hlen := hrows row hrow
  obtain ⟨tail, rfl⟩ := exists_of_rowStartsWild hwild
  have htail : tail = [] := List.length_eq_zero_iff.mp (by simpa using hlen)
  rwa [htail] at hrow

/-- The checker finds the values of a variant covered by the rows. -/
def variantCovered (env : TypeEnv) (m : Matrix) (ty : Ty) (variantName : String) : Prop :=
  usefulness env (specialize m (.variant variantName) (variantPayloadTypes env ty variantName).length)
    (List.replicate (variantPayloadTypes env ty variantName).length .wildcard)
    (variantPayloadTypes env ty variantName) = none

/-- A payload that no value has. -/
def impossiblePayload (env : TypeEnv) (ty : Ty) (variantName : String) : Prop :=
  Ty.never ∈ variantPayloadTypes env ty variantName

theorem buildMatrix_length {arms : List MatchArm} {ty : Ty} {row : Row} (h : row ∈ buildMatrix env arms ty) :
    row.length = 1 := by
  obtain ⟨arm, -, -, rfl⟩ := mem_buildMatrix h
  rfl

/-- A match on an enum is exhaustive when it has an unguarded arm and every variant is covered,
whatever its payload. -/
theorem enum_exhaustive_iff {name : String} {args : List Ty} {info : EnumInfo}
    (henum : env.enums name = some info) (hopen : isOpenCollection name = false) (arms : List MatchArm) :
    checkMatchExhaustive env (.named name args) arms = .exhaustive ↔
      (∃ arm ∈ arms, arm.hasGuard = false) ∧ ∀ v ∈ info.variants,
        variantCovered env (buildMatrix env arms (.named name args)) (.named name args) v.1 := by
  rw [@checkMatchExhaustive_of_closed env (.named name args) rfl hopen, ← @buildMatrix_ne_nil env arms (.named name args)]
  have hrows : ∀ row ∈ buildMatrix env arms (.named name args), row.length = 1 := fun row => buildMatrix_length
  generalize buildMatrix env arms (.named name args) = m at hrows
  by_cases hm : m = []
  · rw [hm, usefulness_empty]
    simp
  have hdom := @effectiveIntDomain_enum env name args info henum
  by_cases hall : m.all rowStartsWild = true
  · have hwild := wildcard_mem_of_all_wild hm hrows hall
    refine ⟨fun _ => ⟨hm, fun v _ => ?_⟩, fun _ => usefulness_wildcards m 1 hwild _⟩
    exact usefulness_wildcards _ _ (wildcards_mem_specialize (n := 0) _ _ hwild) _
  · have hall : m.all rowStartsWild = false := by simpa using hall
    rw [usefulness_wildcard_cons hm hdom, wildcardUseful, hall]
    have hctors : enumerateCtors env (.named name args) = some (info.variants.map fun v => .variant v.1) := by
      rw [enumerateCtors, henum]
    simp only [Bool.false_eq_true, if_false, hctors, List.findSome?_eq_none_iff, List.mem_map,
      Option.map_eq_none_iff]
    constructor
    · intro h
      refine ⟨hm, fun v hv => ?_⟩
      have hv := h (.variant v.1) ⟨v, hv, rfl⟩
      simpa [variantCovered, ctorArity, ctorFieldTypes] using hv
    · rintro ⟨-, h⟩ c ⟨v, hv, rfl⟩
      have hv := h v hv
      simpa [variantCovered, ctorArity, ctorFieldTypes] using hv

theorem usefulness_never {m : Matrix} (hm : m ≠ []) : usefulness env m [.wildcard] [.never] = none := by
  rw [usefulness_wildcard_cons hm (by rfl), wildcardUseful]
  by_cases hall : m.all rowStartsWild = true
  · obtain ⟨row, hrow⟩ := List.exists_mem_of_ne_nil m hm
    have hwild := List.all_eq_true.mp hall row hrow
    obtain ⟨tail, rfl⟩ := exists_of_rowStartsWild hwild
    have hmem : tail ∈ defaultMatrix m := mem_defaultMatrix.mpr ⟨.wildcard, hrow, by simp⟩
    have hne : (defaultMatrix m).isEmpty = false := List.isEmpty_eq_false_iff.mpr (List.ne_nil_of_mem hmem)
    rw [if_pos hall, usefulness_nil, hne]
    rfl
  · rw [if_neg hall]
    rfl

theorem never_exhaustive_iff (arms : List MatchArm) :
    checkMatchExhaustive env .never arms = .exhaustive ↔ ∃ arm ∈ arms, arm.hasGuard = false := by
  rw [checkMatchExhaustive_of_closed rfl rfl, ← @buildMatrix_ne_nil env arms .never]
  generalize buildMatrix env arms .never = m
  by_cases hm : m = []
  · rw [hm, usefulness_empty]
    simp
  · exact ⟨fun _ => hm, fun _ => usefulness_never hm⟩

/-- An unguarded arm has a catch-all, or the variant, among its alternatives. -/
def Admitted (env : TypeEnv) (arms : List MatchArm) (ty : Ty) (variantName : String) : Prop :=
  ∃ arm ∈ arms, arm.hasGuard = false ∧ ∃ alt ∈ (lowerPattern env arm.pattern ty).alternatives,
    alt = .wildcard ∨ ∃ args, alt = .ctor (.variant variantName) args

theorem admitted_iff {arms : List MatchArm} {ty : Ty} {variantName : String} {arity : ℕ} :
    Admitted env arms ty variantName ↔
      specialize (buildMatrix env arms ty) (.variant variantName) arity ≠ [] := by
  constructor
  · rintro ⟨arm, harm, hguard, alt, halt, hkind⟩
    have hrow : [lowerPattern env arm.pattern ty] ∈ buildMatrix env arms ty :=
      List.mem_map.mpr ⟨arm, List.mem_filter.mpr ⟨harm, by simp [hguard]⟩, rfl⟩
    rcases hkind with rfl | ⟨args, rfl⟩
    · exact List.ne_nil_of_mem (mem_specialize.mpr ⟨_, _, hrow, Or.inl ⟨halt, rfl⟩⟩)
    · exact List.ne_nil_of_mem (mem_specialize.mpr ⟨_, _, hrow, Or.inr ⟨args, halt, rfl⟩⟩)
  · intro hne
    obtain ⟨row, hrow⟩ := List.exists_mem_of_ne_nil _ hne
    obtain ⟨head, tail, hmem, hkind⟩ := mem_specialize.mp hrow
    obtain ⟨arm, harm, hguard, heq⟩ := mem_buildMatrix hmem
    obtain ⟨rfl, -⟩ := List.cons.inj heq
    rcases hkind with ⟨hwild, -⟩ | ⟨args, hctor, -⟩
    · exact ⟨arm, harm, hguard, _, hwild, Or.inl rfl⟩
    · exact ⟨arm, harm, hguard, _, hctor, Or.inr ⟨args, rfl⟩⟩

/-- No arm for a variant means that it is not covered, whatever its payload. -/
theorem not_variantCovered {m : Matrix} {ty : Ty} {variantName : String}
    (himp : impossiblePayload env ty variantName)
    (h : specialize m (.variant variantName) (variantPayloadTypes env ty variantName).length = []) :
    ¬ variantCovered env m ty variantName := by
  unfold variantCovered
  rw [h]
  obtain ⟨n, hn⟩ : ∃ n, (variantPayloadTypes env ty variantName).length = n + 1 :=
    ⟨_, (Nat.succ_pred_eq_of_pos (List.length_pos_of_mem himp)).symm⟩
  rw [hn, List.replicate_succ, usefulness_empty]
  simp

/-- A payload that is the `Never` alone is covered by any arm that admits the variant. -/
theorem variantCovered_single {m : Matrix} {ty : Ty} {variantName : String}
    (hpayload : variantPayloadTypes env ty variantName = [.never])
    (h : specialize m (.variant variantName) (variantPayloadTypes env ty variantName).length ≠ []) :
    variantCovered env m ty variantName := by
  unfold variantCovered
  generalize specialize m (.variant variantName) (variantPayloadTypes env ty variantName).length = rows at h
  rw [hpayload]
  exact usefulness_never h

/-- `enum Result[T, E] { Ok(T), Err(E) }`. -/
def resultEnv : TypeEnv where
  enums := fun name => if name = "Result" then
    some ⟨["T", "E"], [("Ok", .tuple [.typeParam "T"]), ("Err", .tuple [.typeParam "E"])]⟩ else none
  structs := fun _ => none
  distinctBases := fun _ => none
  refinementPredicates := fun _ => none
  constValues := fun _ => none
  distinct_only := fun _ h => absurd h (by simp)

def resultNever : Ty := .named "Result" [.bool, .never]

/-- `match r { Ok(x) => .. }`. -/
def okArm : List MatchArm := [⟨.tupleVariant ["Ok"] [.binding "x"], false⟩]

theorem okArm_covers : variantCovered resultEnv (buildMatrix resultEnv okArm resultNever) resultNever "Ok" :=
  usefulness_wildcards _ 1 (List.mem_singleton.mpr rfl) _

end Karac.Exhaustive
