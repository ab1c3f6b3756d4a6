import Karac.Exhaustive.Usefulness

/-! The recursion of the checker. The calls that `usefulness`, `specialize`, `default_matrix` and `int_column_useful`
make, whatever the calls before them returned, form a well-founded relation. -/

namespace Karac.Exhaustive

open Karac.Lib

/-! The recursion on or-patterns: an alternative is a matrix of one row. -/

section

variable {α : Type} (f : Pat → Row → Option α) (tail : Row) (m : Matrix)

theorem alternativesAll_eq (alts : List Pat) : alternativesAll alts = alts.flatMap Pat.alternatives := by
  induction alts with
  | nil => rfl
  | cons p ps ih => rw [alternativesAll, ih, List.flatMap_cons]

theorem mapHeads_or (alts : List Pat) :
    mapHeads f ((.or alts :: tail) :: m) = (alts.flatMap fun alt => mapHeads f [alt :: tail]) ++ mapHeads f m := by
  have hrow : (alternativesAll alts).filterMap (fun alt => f alt tail) =
      alts.flatMap fun alt => mapHeads f [alt :: tail] := by
    rw [alternativesAll_eq, List.filterMap_flatMap]
    simp [mapHeads]
  rw [← hrow]
  rfl

end

/-- `specialize` on a row that begins with an or-pattern. -/
theorem specialize_or (alts : List Pat) (tail : Row) (m : Matrix) (c : PatCtor) (arity : ℕ) :
    specialize ((.or alts :: tail) :: m) c arity =
      (alts.flatMap fun alt => specialize [alt :: tail] c arity) ++ specialize m c arity :=
  mapHeads_or _ tail m alts

theorem defaultMatrix_or (alts : List Pat) (tail : Row) (m : Matrix) :
    defaultMatrix ((.or alts :: tail) :: m) =
      (alts.flatMap fun alt => defaultMatrix [alt :: tail]) ++ defaultMatrix m :=
  mapHeads_or _ tail m alts

/-- `push_int_head` on an or-pattern. -/
theorem intRows_or (alts : List Pat) (tail : Row) (m : Matrix) :
    intRows ((.or alts :: tail) :: m) = (alts.flatMap fun alt => intRows [alt :: tail]) ++ intRows m :=
  mapHeads_or _ tail m alts

/-! The calls. -/

inductive Call
  | usefulness (m : Matrix) (q : Row) (tys : List Ty)
  | intColumnUseful (m : Matrix) (qlo qhi : ℤ) (qRest : Row) (restTys : List Ty)
  | specialize (m : Matrix) (c : PatCtor) (arity : ℕ)
  | defaultMatrix (m : Matrix)
  | intRows (m : Matrix)
  | pushIntHead (head : Pat) (tail : Row)

section

variable (env : TypeEnv)

/-- The query is split by intervals. -/
def SplitsCtor (c : PatCtor) (tys : List Ty) : Prop :=
  (∃ lo hi, c = .intRange lo hi) ∧ (effectiveIntDomain env (tys.headD .unit)).isSome

def SplitsWildcard (m : Matrix) (tys : List Ty) : Prop :=
  (effectiveIntDomain env (tys.headD .unit)).isSome ∧ matrixHasIntHead m = true

/-- A wildcard query skips its column. -/
def SkipsColumn (m : Matrix) (tys : List Ty) : Prop :=
  m.all rowStartsWild = true ∨ enumerateCtors env (tys.headD .unit) = none

/-- The first call makes the second. -/
inductive Call.Makes : Call → Call → Prop
  | alternative {m : Matrix} {alts : List Pat} {alt : Pat} {qRest : Row} {tys : List Ty} (hm : m.isEmpty = false)
    (halt : alt ∈ alts) : Makes (.usefulness m (.or alts :: qRest) tys) (.usefulness m (alt :: qRest) tys)
  | splitCtor {m : Matrix} {lo hi : ℤ} {args qRest : Row} {tys : List Ty} (hm : m.isEmpty = false)
    (hsplit : SplitsCtor env (.intRange lo hi) tys) :
    Makes (.usefulness m (.ctor (.intRange lo hi) args :: qRest) tys) (.intColumnUseful m lo hi qRest tys.tail)
  | hasIntHead {m : Matrix} {qRest : Row} {tys : List Ty} (hm : m.isEmpty = false)
    (hty : (effectiveIntDomain env (tys.headD .unit)).isSome) :
    Makes (.usefulness m (.wildcard :: qRest) tys) (.intRows m)
  | splitWildcard {m : Matrix} {lo hi : ℤ} {qRest : Row} {tys : List Ty} (hm : m.isEmpty = false)
    (hty : effectiveIntDomain env (tys.headD .unit) = some (lo, hi)) (hint : matrixHasIntHead m = true) :
    Makes (.usefulness m (.wildcard :: qRest) tys) (.intColumnUseful m lo hi qRest tys.tail)
  | specializeCtor {m : Matrix} {c : PatCtor} {args qRest : Row} {tys : List Ty} (hm : m.isEmpty = false)
    (hsplit : ¬SplitsCtor env c tys) :
    Makes (.usefulness m (.ctor c args :: qRest) tys) (.specialize m c args.length)
  | ctor {m : Matrix} {c : PatCtor} {args qRest : Row} {tys : List Ty} (hm : m.isEmpty = false)
    (hsplit : ¬SplitsCtor env c tys) :
    Makes (.usefulness m (.ctor c args :: qRest) tys) (.usefulness (Exhaustive.specialize m c args.length)
      (args ++ qRest) (resizeTypes (ctorFieldTypes env c (tys.headD .unit)) args.length ++ tys.tail))
  | skipMatrix {m : Matrix} {qRest : Row} {tys : List Ty} (hm : m.isEmpty = false)
    (hsplit : ¬SplitsWildcard env m tys) (hskip : SkipsColumn env m tys) :
    Makes (.usefulness m (.wildcard :: qRest) tys) (.defaultMatrix m)
  | skip {m : Matrix} {qRest : Row} {tys : List Ty} (hm : m.isEmpty = false)
    (hsplit : ¬SplitsWildcard env m tys) (hskip : SkipsColumn env m tys) :
    Makes (.usefulness m (.wildcard :: qRest) tys) (.usefulness (Exhaustive.defaultMatrix m) qRest tys.tail)
  | specializeEach {m : Matrix} {qRest : Row} {tys : List Ty} {all : List PatCtor} {c : PatCtor}
    (hm : m.isEmpty = false) (hsplit : ¬SplitsWildcard env m tys) (hwild : m.all rowStartsWild = false)
    (hall : enumerateCtors env (tys.headD .unit) = some all) (hc : c ∈ all) :
    Makes (.usefulness m (.wildcard :: qRest) tys) (.specialize m c (ctorArity env c (tys.headD .unit)))
  | each {m : Matrix} {qRest : Row} {tys : List Ty} {all : List PatCtor} {c : PatCtor} (hm : m.isEmpty = false)
    (hsplit : ¬SplitsWildcard env m tys) (hwild : m.all rowStartsWild = false)
    (hall : enumerateCtors env (tys.headD .unit) = some all) (hc : c ∈ all) :
    Makes (.usefulness m (.wildcard :: qRest) tys)
      (.usefulness (Exhaustive.specialize m c (ctorArity env c (tys.headD .unit)))
        (List.replicate (ctorArity env c (tys.headD .unit)) .wildcard ++ qRest)
        (ctorFieldTypes env c (tys.headD .unit) ++ tys.tail))
  | columnRows {m : Matrix} {qlo qhi : ℤ} {qRest : Row} {restTys : List Ty} (hq : qlo ≤ qhi) :
    Makes (.intColumnUseful m qlo qhi qRest restTys) (.intRows m)
  | segment {m : Matrix} {qlo qhi : ℤ} {qRest : Row} {restTys : List Ty} {seg : ℤ × ℤ} (hq : qlo ≤ qhi)
    (hseg : seg ∈ segmentsFrom qhi (intCuts (Exhaustive.intRows m) qlo qhi)) :
    Makes (.intColumnUseful m qlo qhi qRest restTys)
      (.usefulness (keepRows (Exhaustive.intRows m) seg) qRest restTys)
  | specializeOr {m : Matrix} {c : PatCtor} {arity : ℕ} {alts : List Pat} {alt : Pat} {tail : Row}
    (hrow : Pat.or alts :: tail ∈ m) (halt : alt ∈ alts) :
    Makes (.specialize m c arity) (.specialize [alt :: tail] c arity)
  | defaultOr {m : Matrix} {alts : List Pat} {alt : Pat} {tail : Row} (hrow : Pat.or alts :: tail ∈ m)
    (halt : alt ∈ alts) : Makes (.defaultMatrix m) (.defaultMatrix [alt :: tail])
  | pushRow {m : Matrix} {head : Pat} {tail : Row} (hrow : head :: tail ∈ m) :
    Makes (.intRows m) (.pushIntHead head tail)
  | pushOr {alts : List Pat} {alt : Pat} {tail : Row} (halt : alt ∈ alts) :
    Makes (.pushIntHead (.or alts) tail) (.pushIntHead alt tail)

end

/-! The order of the calls. A helper never calls back; a column that is split by intervals is used up, so that it
stands between the query with the column and the query without it. -/

def headsWeight (m : Matrix) : ℕ := (m.map fun row => (row.head?.map Pat.weight).getD 0).sum

def Call.rank : Call → ℕ ×ₗ ℕ ×ₗ ℕ ×ₗ ℕ
  | .usefulness m q _ => toLex (1, toLex (problemWeight m q, toLex (q.length, 0)))
  | .intColumnUseful m _ _ qRest _ => toLex (1, toLex (problemWeight m qRest, toLex (qRest.length, 1)))
  | .specialize m _ _ => toLex (0, toLex (headsWeight m, toLex (0, 1)))
  | .defaultMatrix m => toLex (0, toLex (headsWeight m, toLex (0, 1)))
  | .intRows m => toLex (0, toLex (headsWeight m, toLex (0, 1)))
  | .pushIntHead head _ => toLex (0, toLex (head.weight, toLex (0, 0)))

theorem headsWeight_of_mem {m : Matrix} {head : Pat} {tail : Row} (h : head :: tail ∈ m) :
    head.weight ≤ headsWeight m :=
  List.single_le_sum (by simp) _ (List.mem_map.mpr ⟨head :: tail, h, rfl⟩)

theorem weight_alternative {alts : List Pat} {alt : Pat} (h : alt ∈ alts) : alt.weight < (Pat.or alts).weight := by
  have hle := altsWeight_mem h
  rw [Pat.weight]
  omega

theorem headsWeight_alternative {m : Matrix} {alts : List Pat} {alt : Pat} {tail : Row} (hrow : Pat.or alts :: tail ∈ m)
    (halt : alt ∈ alts) : headsWeight [alt :: tail] < headsWeight m := by
  have hhead : headsWeight [alt :: tail] = alt.weight := by simp [headsWeight]
  rw [hhead]
  exact (weight_alternative halt).trans_le (headsWeight_of_mem hrow)

theorem rank_lt_of_smaller {m m' : Matrix} {q q' : Row} (h : Smaller m' q' m q) (tys tys' : List Ty) :
    (Call.usefulness m' q' tys').rank < (Call.usefulness m q tys).rank := by
  simp only [Call.rank, Prod.Lex.toLex_lt_toLex, true_and]
  unfold Smaller at h
  omega

theorem rank_intColumn_lt (m : Matrix) (qlo qhi : ℤ) (qHead : Pat) (qRest : Row) (restTys tys : List Ty) :
    (Call.intColumnUseful m qlo qhi qRest restTys).rank < (Call.usefulness m (qHead :: qRest) tys).rank := by
  have hhead := Nat.mul_le_mul_right (rowWeight qRest) qHead.weight_pos
  simp only [Call.rank, Prod.Lex.toLex_lt_toLex, true_and, problemWeight, rowWeight, List.length_cons] at hhead ⊢
  omega

theorem rank_segment_lt (m : Matrix) (qlo qhi : ℤ) (seg : ℤ × ℤ) (qRest : Row) (restTys : List Ty) :
    (Call.usefulness (keepRows (intRows m) seg) qRest restTys).rank <
      (Call.intColumnUseful m qlo qhi qRest restTys).rank := by
  have hkeep := (keepHead_shrinks seg).le m
  rw [← keepRows_intRows] at hkeep
  simp only [Call.rank, Prod.Lex.toLex_lt_toLex, true_and, problemWeight]
  omega

theorem Call.Makes.rank_lt {env : TypeEnv} {a b : Call} (h : a.Makes env b) : b.rank < a.rank := by
  induction h with
  | alternative hm halt => exact rank_lt_of_smaller (smaller_alternative halt) _ _
  | splitCtor hm hsplit => exact rank_intColumn_lt ..
  | splitWildcard hm hty hint => exact rank_intColumn_lt ..
  | ctor hm hsplit => exact rank_lt_of_smaller (smaller_specialize_ctor ..) _ _
  | skip hm hsplit hskip => exact rank_lt_of_smaller smaller_default _ _
  | each hm hsplit hwild hall hc => exact rank_lt_of_smaller (smaller_specialize_wildcard _ _ hwild) _ _
  | segment hq hseg => exact rank_segment_lt ..
  | specializeOr hrow halt =>
    have hlt := headsWeight_alternative hrow halt
    simp only [rank, Prod.Lex.toLex_lt_toLex, true_and]
    omega
  | defaultOr hrow halt =>
    have hlt := headsWeight_alternative hrow halt
    simp only [rank, Prod.Lex.toLex_lt_toLex, true_and]
    omega
  | pushRow hrow =>
    have hle := headsWeight_of_mem hrow
    simp only [rank, Prod.Lex.toLex_lt_toLex, true_and]
    omega
  | pushOr halt =>
    have hlt := weight_alternative halt
    simp only [rank, Prod.Lex.toLex_lt_toLex, true_and]
    omega
  | _ =>
    -- a helper is called
    simp only [rank, Prod.Lex.toLex_lt_toLex]
    omega

/-! The relation leaves out no call: the body of `usefulness` looks at the results of its calls only. -/

/-- The first problem needs the result of the second, perhaps for a column that is split by intervals. -/
def Needs (env : TypeEnv) (m : Matrix) (q : Row) (tys : List Ty) (m' : Matrix) (q' : Row) (tys' : List Ty) : Prop :=
  Relation.TransGen (Call.Makes env) (.usefulness m q tys) (.usefulness m' q' tys')

section

variable {env : TypeEnv} {r r' : Useful} {m : Matrix} {q qRest : Row} {tys : List Ty}

theorem not_splitsCtor {c : PatCtor} (hd : effectiveIntDomain env (tys.headD .unit) = none) :
    ¬SplitsCtor env c tys := by
  intro hs
  have hsome := hs.2
  rw [hd] at hsome
  cases hsome

theorem not_splitsWildcard (hd : effectiveIntDomain env (tys.headD .unit) = none) : ¬SplitsWildcard env m tys := by
  intro hs
  have hsome := hs.1
  rw [hd] at hsome
  cases hsome

theorem intColumnUseful_needs {lo hi : ℤ}
    (hcall : Call.Makes env (.usefulness m q tys) (.intColumnUseful m lo hi qRest tys.tail))
    (h : ∀ m' q' tys', Needs env m q tys m' q' tys' → r m' q' tys' = r' m' q' tys') :
    intColumnUseful r m lo hi qRest tys.tail = intColumnUseful r' m lo hi qRest tys.tail := by
  unfold intColumnUseful
  split_ifs with hlo
  · rfl
  · refine findSome?_congr_mem fun seg hseg => ?_
    rw [h _ _ _ (.tail (.single hcall) (.segment (not_lt.mp hlo) hseg))]

theorem ctorUseful_needs {c : PatCtor} {args : Row} (hm : m.isEmpty = false) (hsplit : ¬SplitsCtor env c tys)
    (h : ∀ m' q' tys', Needs env m (.ctor c args :: qRest) tys m' q' tys' → r m' q' tys' = r' m' q' tys') :
    ctorUseful env r m c args qRest (tys.headD .unit) tys.tail =
      ctorUseful env r' m c args qRest (tys.headD .unit) tys.tail := by
  unfold ctorUseful
  rw [h _ _ _ (.single (.ctor hm hsplit))]

theorem wildcardUseful_needs (hm : m.isEmpty = false) (hsplit : ¬SplitsWildcard env m tys)
    (h : ∀ m' q' tys', Needs env m (.wildcard :: qRest) tys m' q' tys' → r m' q' tys' = r' m' q' tys') :
    wildcardUseful env r m qRest (tys.headD .unit) tys.tail =
      wildcardUseful env r' m qRest (tys.headD .unit) tys.tail := by
  have hskip : SkipsColumn env m tys →
      r (defaultMatrix m) qRest tys.tail = r' (defaultMatrix m) qRest tys.tail :=
    fun hs => h _ _ _ (.single (.skip hm hsplit hs))
  unfold wildcardUseful
  cases hwild : m.all rowStartsWild with
  | true => simp only [if_true, hskip (Or.inl hwild)]
  | false =>
    cases hall : enumerateCtors env (tys.headD .unit) with
    | none => simp only [hskip (Or.inr hall)]
    | some all =>
      refine findSome?_congr_mem fun c hc => ?_
      rw [h _ _ _ (.single (.each hm hsplit hwild hall hc))]

theorem usefulnessStep_needs (h : ∀ m' q' tys', Needs env m q tys m' q' tys' → r m' q' tys' = r' m' q' tys') :
    usefulnessStep env r m q tys = usefulnessStep env r' m q tys := by
  cases q with
  | nil => rfl
  | cons qHead qRest =>
    unfold usefulnessStep
    cases hm : m.isEmpty with
    | true => rfl
    | false =>
      simp only [Bool.false_eq_true, if_false]
      cases qHead with
      | or alts => exact findSome?_congr_mem fun alt halt => h _ _ _ (.single (.alternative hm halt))
      | ctor c args =>
        cases hd : effectiveIntDomain env (tys.headD .unit) with
        | none =>
          have hsplit : ¬SplitsCtor env c tys := not_splitsCtor hd
          cases c <;> exact ctorUseful_needs hm hsplit h
        | some d =>
          cases c with
          | intRange lo hi =>
            have hsplit : SplitsCtor env (.intRange lo hi) tys := ⟨⟨lo, hi, rfl⟩, by rw [hd]; rfl⟩
            exact intColumnUseful_needs (.splitCtor hm hsplit) h
          | _ => exact ctorUseful_needs hm (fun hs => by simp [SplitsCtor] at hs) h
      | wildcard =>
        cases hd : effectiveIntDomain env (tys.headD .unit) with
        | none => exact wildcardUseful_needs hm (not_splitsWildcard hd) h
        | some d =>
          simp only
          split_ifs with hint
          · exact intColumnUseful_needs (.splitWildcard hm hd hint) h
          · exact wildcardUseful_needs hm (fun hs => hint hs.2) h

end

theorem calls_wellFounded (env : TypeEnv) : WellFounded fun callee caller : Call => caller.Makes env callee :=
  Subrelation.wf (r := InvImage (· < ·) Call.rank) Call.Makes.rank_lt (InvImage.wf _ wellFounded_lt)

/-- No call starts an endless descent, and the equation of the source has one solution. -/
theorem usefulness_terminates (env : TypeEnv) :
    WellFounded (fun callee caller : Call => caller.Makes env callee) ∧
      ∃! f : Useful, ∀ m q tys, f m q tys = usefulnessStep env f m q tys := by
  refine ⟨calls_wellFounded env, usefulness env, usefulness_eq env, ?_⟩
  intro f hf
  funext m q
  apply usefulness_induction (P := fun m q => f m q = usefulness env m q)
  intro m q ih
  funext tys
  rw [hf, usefulness_eq]
  exact usefulnessStep_congr env tys fun m' q' tys' hsmaller => congrFun (ih m' q' hsmaller) tys'

end Karac.Exhaustive
