import Karac.Lib.Intervals
import Karac.Exhaustive.Types

/-! Lowered patterns and Maranget's `U(P, q)` with witnesses, as the checker computes it. The body of
the recursion is `usefulnessStep`, a function of the recursive call; it only ever calls on a smaller
matrix and query, in an order that counts or-alternatives multiplicatively, so that the duplication
of a row's tail by an or-pattern still makes progress. -/

namespace Karac.Exhaustive

open Karac.Lib

/-- Literals that stay point constructors; a float by its bit pattern. -/
inductive PatLit where
  | string (s : String)
  | float (bits : ℕ)
deriving DecidableEq, Repr

inductive PatCtor where
  | bool (b : Bool)
  | variant (name : String)
  | lit (l : PatLit)
  | intRange (lo hi : ℤ)
  | tuple
  | struct (name : String)
  | array (n : ℕ)
  | sliceLen (fixed : ℕ) (hasRest : Bool)
deriving DecidableEq, Repr

inductive Pat where
  | wildcard
  | ctor (c : PatCtor) (args : List Pat)
  | or (alts : List Pat)

abbrev Row := List Pat
abbrev Matrix := List Row

mutual

/-- The alternatives of a pattern, nested or-patterns included. -/
def Pat.alternatives : Pat → List Pat
  | .or alts => alternativesAll alts
  | p => [p]

def alternativesAll : List Pat → List Pat
  | [] => []
  | p :: ps => p.alternatives ++ alternativesAll ps

end

@[simp] theorem Pat.alternatives_wildcard : Pat.wildcard.alternatives = [.wildcard] := rfl

@[simp] theorem Pat.alternatives_ctor (c : PatCtor) (args : List Pat) :
    (Pat.ctor c args).alternatives = [.ctor c args] := rfl

@[simp] theorem Pat.alternatives_or (alts : List Pat) : (Pat.or alts).alternatives = alternativesAll alts :=
  rfl

/-- Apply `f` to the head and tail of every row, one call for each alternative of the head. Rows
without a head are skipped. -/
def mapHeads {α : Type} (f : Pat → Row → Option α) (m : Matrix) : List α :=
  m.flatMap fun
    | [] => []
    | head :: tail => head.alternatives.filterMap fun alt => f alt tail

/-- `S(c, P)`: rows that begin with `c` or a wildcard, the head replaced by `c`'s arguments. -/
def specialize (m : Matrix) (c : PatCtor) (arity : ℕ) : Matrix :=
  mapHeads (fun head tail => match head with
    | .wildcard => some (List.replicate arity .wildcard ++ tail)
    | .ctor c' args => if c' = c then some (args ++ tail) else none
    | .or _ => none) m

/-- `D(P)`: rows that begin with a wildcard, the head dropped. -/
def defaultMatrix (m : Matrix) : Matrix :=
  mapHeads (fun head tail => match head with
    | .wildcard => some tail
    | _ => none) m

/-- The head of an integer column: a wildcard is `none`, a range its ends. -/
abbrev IntHead := Option (ℤ × ℤ)

def intRows (m : Matrix) : List (IntHead × Row) :=
  mapHeads (fun head tail => match head with
    | .wildcard => some (none, tail)
    | .ctor (.intRange lo hi) _ => some (some (lo, hi), tail)
    -- a constructor that is not an integer is ill-typed here
    | _ => none) m

def matrixHasIntHead (m : Matrix) : Bool := (intRows m).any fun r => r.1.isSome

def enumerateCtors (env : TypeEnv) : Ty → Option (List PatCtor)
  | .bool => some [.bool true, .bool false]
  | .tuple _ => some [.tuple]
  | .unit => some [.tuple]
  | .never => some []
  | .array _ size => size.asUsize.map fun n => [.array n]
  | .named name _ =>
    match env.enums name with
    | some info => some (info.variants.map fun v => .variant v.1)
    | none =>
      if isOpenCollection name then none
      else if (env.structs name).isSome then some [.struct name]
      else none
  | _ => none

def arrayOrCollectionElement (ty : Ty) : Ty :=
  let underlying := match ty with
    | .ref inner => inner
    | .mutRef inner => inner
    | other => other
  match underlying with
  | .array element _ => element
  | .slice element _ => element
  | .named _ args => args.headD .unit
  | _ => .unit

/-- The columns a constructor opens. The fields of a struct keep their declared types. -/
def ctorFieldTypes (env : TypeEnv) (c : PatCtor) (parentTy : Ty) : List Ty :=
  match c with
  | .bool _ => []
  | .lit _ => []
  | .intRange _ _ => []
  | .variant name => variantPayloadTypes env parentTy name
  | .tuple => match parentTy with
    | .tuple elems => elems
    | _ => []
  | .struct name => ((env.structs name).map fun info => info.fields.map (·.2)).getD []
  | .array n => List.replicate n (arrayOrCollectionElement parentTy)
  | .sliceLen fixed _ => List.replicate fixed (arrayOrCollectionElement parentTy)

def ctorArity (env : TypeEnv) (c : PatCtor) (parentTy : Ty) : ℕ := (ctorFieldTypes env c parentTy).length

/-- Fold the first `arity` patterns of a witness back under the constructor. -/
def repackageWitness (c : PatCtor) (arity : ℕ) (inner : Row) : Row :=
  .ctor c (inner.take arity) :: inner.drop arity

/-- `resize`: pad or cut the column types to `arity`. -/
def resizeTypes (tys : List Ty) (arity : ℕ) : List Ty :=
  tys.take arity ++ List.replicate (arity - tys.length) .unit

/-- The type of the recursive call. -/
abbrev Useful := Matrix → Row → List Ty → Option Row

/-- The starts of the atomic sub-intervals of the query interval. An end at the last `i128` has no
successor in the source; its successor here is above `qhi` and is not a cut either. -/
def intCuts (rows : List (IntHead × Row)) (qlo qhi : ℤ) : List ℤ :=
  sortedCuts (qlo :: rows.flatMap fun r => match r.1 with
    | some (lo, hi) => [lo, hi + 1].filter fun c => decide (qlo < c ∧ c ≤ qhi)
    | none => [])

/-- The tails of the rows that contain the sub-interval. -/
def keepRows (rows : List (IntHead × Row)) (seg : ℤ × ℤ) : Matrix :=
  rows.filterMap fun r => match r.1 with
    | some (lo, hi) => if lo ≤ seg.1 ∧ seg.2 ≤ hi then some r.2 else none
    | none => some r.2

/-- Interval splitting for an integer or `char` column. -/
def intColumnUseful (recur : Useful) (m : Matrix) (qlo qhi : ℤ) (qRest : Row) (restTys : List Ty) :
    Option Row :=
  if qlo > qhi then none
  else (segmentsFrom qhi (intCuts (intRows m) qlo qhi)).findSome? fun seg =>
    (recur (keepRows (intRows m) seg) qRest restTys).map fun w => .ctor (.intRange seg.1 seg.2) [] :: w

def isWildcard : Pat → Bool
  | .wildcard => true
  | _ => false

def rowStartsWild (row : Row) : Bool :=
  match row with
  | p :: _ => isWildcard p
  | [] => false

/-- A wildcard query over a column that is not split by intervals. -/
def wildcardUseful (env : TypeEnv) (recur : Useful) (m : Matrix) (qRest : Row) (headTy : Ty)
    (restTys : List Ty) : Option Row :=
  let default := (recur (defaultMatrix m) qRest restTys).map fun w => Pat.wildcard :: w
  if m.all rowStartsWild then default
  else match enumerateCtors env headTy with
    | some all => all.findSome? fun c =>
        (recur (specialize m c (ctorArity env c headTy))
          (List.replicate (ctorArity env c headTy) .wildcard ++ qRest)
          (ctorFieldTypes env c headTy ++ restTys)).map (repackageWitness c (ctorArity env c headTy))
    | none => default

/-- A constructor query that is not split by intervals. -/
def ctorUseful (env : TypeEnv) (recur : Useful) (m : Matrix) (c : PatCtor) (args qRest : Row)
    (headTy : Ty) (restTys : List Ty) : Option Row :=
  (recur (specialize m c args.length) (args ++ qRest)
    (resizeTypes (ctorFieldTypes env c headTy) args.length ++ restTys)).map
      (repackageWitness c args.length)

/-- The body of `usefulness`. -/
def usefulnessStep (env : TypeEnv) (recur : Useful) : Useful := fun m q tys =>
  match q with
  | [] => if m.isEmpty then some [] else none
  | qHead :: qRest =>
    if m.isEmpty then some (List.replicate (qHead :: qRest).length .wildcard)
    else
      let headTy := tys.headD .unit
      let restTys := tys.tail
      match qHead with
      | .or alts => alts.findSome? fun alt => recur m (alt :: qRest) tys
      | .ctor c args =>
        match c, effectiveIntDomain env headTy with
        | .intRange lo hi, some _ => intColumnUseful recur m lo hi qRest restTys
        | c, _ => ctorUseful env recur m c args qRest headTy restTys
      | .wildcard =>
        match effectiveIntDomain env headTy with
        | some (lo, hi) =>
          if matrixHasIntHead m then intColumnUseful recur m lo hi qRest restTys
          else wildcardUseful env recur m qRest headTy restTys
        | none => wildcardUseful env recur m qRest headTy restTys

/-! Every recursive call is on a smaller matrix and query. -/

mutual

/-- An or-pattern weighs more than the sum of its alternatives, a constructor more than the product
of its arguments. -/
def Pat.weight : Pat → ℕ
  | .wildcard => 1
  | .ctor _ args => 1 + rowWeight args
  | .or alts => 1 + altsWeight alts

def rowWeight : List Pat → ℕ
  | [] => 1
  | p :: ps => p.weight * rowWeight ps

def altsWeight : List Pat → ℕ
  | [] => 0
  | p :: ps => p.weight + altsWeight ps

end

def matrixWeight (m : Matrix) : ℕ := (m.map rowWeight).sum

def problemWeight (m : Matrix) (q : Row) : ℕ := matrixWeight m + rowWeight q

/-- The order of the recursion: less weight, or no more weight and fewer columns. -/
def Smaller (m' : Matrix) (q' : Row) (m : Matrix) (q : Row) : Prop :=
  problemWeight m' q' < problemWeight m q ∨
    (problemWeight m' q' ≤ problemWeight m q ∧ q'.length < q.length)

instance (m' : Matrix) (q' : Row) (m : Matrix) (q : Row) : Decidable (Smaller m' q' m q) :=
  inferInstanceAs (Decidable (_ ∨ _))

theorem Pat.weight_pos (p : Pat) : 1 ≤ p.weight := by
  cases p with
  | wildcard => exact le_rfl
  | ctor c args => exact Nat.le_add_right 1 _
  | or alts => exact Nat.le_add_right 1 _

theorem rowWeight_pos (row : Row) : 1 ≤ rowWeight row := by
  induction row with
  | nil => exact le_rfl
  | cons p ps ih => exact Nat.mul_le_mul p.weight_pos ih

theorem rowWeight_append (a b : Row) : rowWeight (a ++ b) = rowWeight a * rowWeight b := by
  induction a with
  | nil => simp [rowWeight]
  | cons p ps ih => simp only [List.cons_append, rowWeight, ih, Nat.mul_assoc]

@[simp] theorem rowWeight_wildcards (n : ℕ) : rowWeight (List.replicate n .wildcard) = 1 := by
  induction n with
  | zero => rfl
  | succ n ih => simp [List.replicate_succ, rowWeight, Pat.weight, ih]

theorem altsWeight_append (a b : List Pat) : altsWeight (a ++ b) = altsWeight a + altsWeight b := by
  induction a with
  | nil => simp [altsWeight]
  | cons p ps ih => simp only [List.cons_append, altsWeight, ih, Nat.add_assoc]

mutual

theorem alternatives_weight_le : ∀ p : Pat, altsWeight p.alternatives ≤ p.weight
  | .wildcard => by simp [Pat.alternatives, altsWeight]
  | .ctor _ _ => by simp [Pat.alternatives, altsWeight]
  | .or alts => by
    have := alternativesAll_weight_le alts
    simp only [Pat.alternatives, Pat.weight]
    omega

theorem alternativesAll_weight_le : ∀ ps : List Pat, altsWeight (alternativesAll ps) ≤ altsWeight ps
  | [] => le_rfl
  | p :: ps => by
    have h1 := alternatives_weight_le p
    have h2 := alternativesAll_weight_le ps
    rw [alternativesAll, altsWeight_append, altsWeight]
    omega

end

theorem altsWeight_mem {p : Pat} {ps : List Pat} (h : p ∈ ps) : p.weight ≤ altsWeight ps := by
  induction ps with
  | nil => simp at h
  | cons a ps ih =>
    rw [altsWeight]
    rcases List.mem_cons.mp h with rfl | h
    · omega
    · have := ih h
      omega

/-- A row function that keeps no more than the tail under a wildcard and strictly less than the
row under a constructor. -/
structure Shrinks (f : Pat → Row → Option Row) : Prop where
  wildcard : ∀ tail row, f .wildcard tail = some row → rowWeight row ≤ rowWeight tail
  ctor : ∀ c args tail row, f (.ctor c args) tail = some row →
    rowWeight row ≤ rowWeight args * rowWeight tail
  or : ∀ alts tail, f (.or alts) tail = none

namespace Shrinks

variable {f : Pat → Row → Option Row} (hf : Shrinks f)
include hf

theorem weight_le {alt : Pat} {tail row : Row} (h : f alt tail = some row) :
    rowWeight row ≤ alt.weight * rowWeight tail := by
  cases alt with
  | wildcard => simpa [Pat.weight] using hf.wildcard tail row h
  | ctor c args =>
    refine le_trans (hf.ctor c args tail row h) (Nat.mul_le_mul_right _ ?_)
    exact Nat.le_add_left _ _
  | or alts => rw [hf.or] at h; exact absurd h (by simp)

/-- What the alternatives of a head leave of a row. -/
theorem filterMap_le (alts : List Pat) (tail : Row) :
    matrixWeight (alts.filterMap fun alt => f alt tail) ≤ altsWeight alts * rowWeight tail := by
  induction alts with
  | nil => simp [matrixWeight, altsWeight]
  | cons a alts ih =>
    rw [altsWeight, Nat.add_mul]
    cases ha : f a tail with
    | none =>
      simp only [List.filterMap_cons, ha]
      exact le_trans ih (Nat.le_add_left _ _)
    | some row =>
      simp only [List.filterMap_cons, ha]
      exact Nat.add_le_add (hf.weight_le ha) ih

theorem row_le (row : Row) : matrixWeight (mapHeads f [row]) ≤ rowWeight row := by
  cases row with
  | nil => simp [mapHeads, matrixWeight]
  | cons head tail =>
    have h := hf.filterMap_le head.alternatives tail
    have hle := Nat.mul_le_mul_right (rowWeight tail) (alternatives_weight_le head)
    simp only [mapHeads, List.flatMap_cons, List.flatMap_nil, List.append_nil, rowWeight]
    exact le_trans h hle

/-- A row whose head is not a wildcard loses weight. -/
theorem row_lt {row : Row} (hrow : rowStartsWild row = false) :
    matrixWeight (mapHeads f [row]) < rowWeight row := by
  cases row with
  | nil => simp [mapHeads, matrixWeight, rowWeight]
  | cons head tail =>
    simp only [mapHeads, List.flatMap_cons, List.flatMap_nil, List.append_nil, rowWeight]
    have htail := rowWeight_pos tail
    cases head with
    | wildcard => simp [rowStartsWild, isWildcard] at hrow
    | ctor c args =>
      rw [Pat.alternatives_ctor]
      cases hres : f (.ctor c args) tail with
      | none =>
        simp only [List.filterMap_cons, List.filterMap_nil, hres]
        exact Nat.mul_pos (Pat.weight_pos _) htail
      | some row =>
        have hle := hf.ctor c args tail row hres
        simp only [List.filterMap_cons, List.filterMap_nil, hres, matrixWeight, List.map_cons,
          List.map_nil, List.sum_cons, List.sum_nil, Pat.weight, Nat.add_mul]
        omega
    | or alts =>
      have h := hf.filterMap_le (alternativesAll alts) tail
      have hle := Nat.mul_le_mul_right (rowWeight tail) (alternativesAll_weight_le alts)
      simp only [Pat.alternatives, Pat.weight, Nat.add_mul, Nat.one_mul]
      omega

omit hf in
theorem matrixWeight_cons (row : Row) (m : Matrix) :
    matrixWeight (mapHeads f (row :: m)) = matrixWeight (mapHeads f [row]) + matrixWeight (mapHeads f m) := by
  simp [mapHeads, matrixWeight]

theorem le (m : Matrix) : matrixWeight (mapHeads f m) ≤ matrixWeight m := by
  induction m with
  | nil => simp [mapHeads, matrixWeight]
  | cons row m ih =>
    rw [matrixWeight_cons]
    have := hf.row_le row
    simp only [matrixWeight, List.map_cons, List.sum_cons] at ih this ⊢
    omega

theorem lt {m : Matrix} (hm : m.all rowStartsWild = false) :
    matrixWeight (mapHeads f m) < matrixWeight m := by
  induction m with
  | nil => simp at hm
  | cons row m ih =>
    rw [matrixWeight_cons]
    have hrow := hf.row_le row
    have hrest := hf.le m
    simp only [List.all_cons, Bool.and_eq_false_iff] at hm
    simp only [matrixWeight, List.map_cons, List.sum_cons] at ih hrow hrest ⊢
    rcases hm with hm | hm
    · have := hf.row_lt hm
      simp only [matrixWeight] at this
      omega
    · have := ih hm
      omega

end Shrinks

theorem specialize_shrinks (c : PatCtor) (arity : ℕ) :
    Shrinks fun head tail => match head with
      | .wildcard => some (List.replicate arity .wildcard ++ tail)
      | .ctor c' args => if c' = c then some (args ++ tail) else none
      | .or _ => none := by
  refine ⟨fun tail row h => ?_, fun c' args tail row h => ?_, fun _ _ => rfl⟩
  · obtain rfl := Option.some.inj h
    simp [rowWeight_append]
  · obtain ⟨-, h⟩ := Option.ite_none_right_eq_some.mp h
    obtain rfl := Option.some.inj h
    rw [rowWeight_append]

theorem defaultMatrix_shrinks :
    Shrinks fun head tail => match head with
      | .wildcard => some tail
      | _ => none := by
  refine ⟨fun tail row h => ?_, fun c' args tail row h => ?_, fun _ _ => rfl⟩
  · exact le_of_eq (congrArg rowWeight (Option.some.inj h).symm)
  · exact absurd h (by simp)

/-- The rows of a sub-interval, straight from the matrix. -/
def keepHead (seg : ℤ × ℤ) : Pat → Row → Option Row
  | .wildcard, tail => some tail
  | .ctor (.intRange lo hi) _, tail => if lo ≤ seg.1 ∧ seg.2 ≤ hi then some tail else none
  | _, _ => none

theorem keepRows_intRows (m : Matrix) (seg : ℤ × ℤ) :
    keepRows (intRows m) seg = mapHeads (keepHead seg) m := by
  unfold keepRows intRows mapHeads
  rw [List.filterMap_flatMap]
  congr 1
  funext row
  cases row with
  | nil => rfl
  | cons head tail =>
    simp only [List.filterMap_filterMap]
    congr 1
    funext alt
    cases alt with
    | wildcard => rfl
    | ctor c args => cases c <;> rfl
    | or _ => rfl

theorem keepHead_shrinks (seg : ℤ × ℤ) : Shrinks (keepHead seg) := by
  refine ⟨fun tail row h => ?_, fun c args tail row h => ?_, fun _ _ => rfl⟩
  · exact le_of_eq (congrArg rowWeight (Option.some.inj h).symm)
  · cases c with
    | intRange lo hi =>
      obtain ⟨-, h⟩ := Option.ite_none_right_eq_some.mp h
      obtain rfl := Option.some.inj h
      exact Nat.le_mul_of_pos_left _ (rowWeight_pos _)
    | _ => exact absurd h (by simp [keepHead])

/-- An integer head is not a wildcard. -/
theorem not_all_wild_of_hasIntHead {m : Matrix} (h : matrixHasIntHead m = true) :
    m.all rowStartsWild = false := by
  obtain ⟨r, hr, hsome⟩ := List.any_eq_true.mp h
  obtain ⟨row, hrow, hmem⟩ := List.mem_flatMap.mp hr
  refine List.all_eq_false.mpr ⟨row, hrow, ?_⟩
  cases row with
  | nil => simp at hmem
  | cons head tail =>
    cases head with
    | wildcard =>
      obtain rfl : r = (none, tail) := by simpa using hmem
      simp at hsome
    | ctor _ _ => simp [rowStartsWild, isWildcard]
    | or _ => simp [rowStartsWild, isWildcard]

theorem findSome?_congr_mem {α β : Type} {l : List α} {f g : α → Option β} (h : ∀ a ∈ l, f a = g a) :
    l.findSome? f = l.findSome? g := by
  induction l with
  | nil => rfl
  | cons a l ih =>
    simp only [List.findSome?_cons, h a List.mem_cons_self,
      ih fun b hb => h b (List.mem_cons_of_mem _ hb)]

section Calls

variable {m : Matrix} {q qRest : Row} (arity : ℕ) (c : PatCtor)

theorem smaller_alternative {alts : List Pat} {alt : Pat} (h : alt ∈ alts) :
    Smaller m (alt :: qRest) m (.or alts :: qRest) := by
  have hle := Nat.mul_le_mul_right (rowWeight qRest) (altsWeight_mem h)
  have hpos := rowWeight_pos qRest
  left
  simp only [problemWeight, rowWeight, Pat.weight, Nat.add_mul]
  omega

theorem smaller_specialize_ctor (args : Row) :
    Smaller (specialize m c arity) (args ++ qRest) m (.ctor c args :: qRest) := by
  have hle := (specialize_shrinks c arity).le m
  have hpos := rowWeight_pos qRest
  left
  simp only [problemWeight, rowWeight, Pat.weight, rowWeight_append, Nat.add_mul, specialize] at hle ⊢
  omega

theorem smaller_specialize_wildcard (hm : m.all rowStartsWild = false) :
    Smaller (specialize m c arity) (List.replicate arity .wildcard ++ qRest) m (.wildcard :: qRest) := by
  have hlt := (specialize_shrinks c arity).lt hm
  left
  simp only [problemWeight, rowWeight, Pat.weight, rowWeight_append, rowWeight_wildcards,
    specialize] at hlt ⊢
  omega

theorem smaller_default : Smaller (defaultMatrix m) qRest m (.wildcard :: qRest) := by
  have hle := defaultMatrix_shrinks.le m
  right
  simp only [problemWeight, rowWeight, Pat.weight, defaultMatrix, List.length_cons] at hle ⊢
  omega

theorem smaller_keepRows {qHead : Pat} (seg : ℤ × ℤ)
    (h : qHead ≠ .wildcard ∨ matrixHasIntHead m = true) :
    Smaller (keepRows (intRows m) seg) qRest m (qHead :: qRest) := by
  rw [keepRows_intRows]
  have hpos := Nat.mul_le_mul_right (rowWeight qRest) qHead.weight_pos
  rcases h with h | h
  · have hle := (keepHead_shrinks seg).le m
    right
    simp only [problemWeight, rowWeight, List.length_cons] at hle ⊢
    omega
  · have hlt := (keepHead_shrinks seg).lt (not_all_wild_of_hasIntHead h)
    left
    simp only [problemWeight, rowWeight] at hlt ⊢
    omega

end Calls

section Congr

variable {env : TypeEnv} {r r' : Useful} {m : Matrix} {qHead : Pat} {qRest : Row}
  (h : ∀ m' q' tys', Smaller m' q' m (qHead :: qRest) → r m' q' tys' = r' m' q' tys')
include h

theorem intColumnUseful_congr (lo hi : ℤ) (restTys : List Ty)
    (hq : qHead ≠ .wildcard ∨ matrixHasIntHead m = true) :
    intColumnUseful r m lo hi qRest restTys = intColumnUseful r' m lo hi qRest restTys := by
  unfold intColumnUseful
  split_ifs
  · rfl
  · refine findSome?_congr_mem fun seg _ => ?_
    rw [h _ _ _ (smaller_keepRows seg hq)]

theorem wildcardUseful_congr (headTy : Ty) (restTys : List Ty) (hq : qHead = .wildcard) :
    wildcardUseful env r m qRest headTy restTys = wildcardUseful env r' m qRest headTy restTys := by
  subst hq
  unfold wildcardUseful
  rw [h _ _ _ smaller_default]
  cases hm : m.all rowStartsWild with
  | true => rfl
  | false =>
    cases enumerateCtors env headTy with
    | none => rfl
    | some all =>
      refine findSome?_congr_mem fun c _ => ?_
      rw [h _ _ _ (smaller_specialize_wildcard _ c hm)]

end Congr

/-- The step looks at the recursive call on smaller problems only. -/
theorem usefulnessStep_congr (env : TypeEnv) {r r' : Useful} {m : Matrix} {q : Row} (tys : List Ty)
    (h : ∀ m' q' tys', Smaller m' q' m q → r m' q' tys' = r' m' q' tys') :
    usefulnessStep env r m q tys = usefulnessStep env r' m q tys := by
  cases q with
  | nil => rfl
  | cons qHead qRest =>
    unfold usefulnessStep
    cases hm : m.isEmpty with
    | true => rfl
    | false =>
      simp only [Bool.false_eq_true, if_false]
      cases qHead with
      | or alts => exact findSome?_congr_mem fun alt halt => h _ _ _ (smaller_alternative halt)
      | ctor c args =>
        have hctor : ctorUseful env r m c args qRest (tys.headD .unit) tys.tail =
            ctorUseful env r' m c args qRest (tys.headD .unit) tys.tail := by
          unfold ctorUseful
          rw [h _ _ _ (smaller_specialize_ctor _ c args)]
        cases c with
        | intRange lo hi =>
          cases effectiveIntDomain env (tys.headD .unit) with
          | none => exact hctor
          | some d => exact intColumnUseful_congr h _ _ _ (Or.inl (by simp))
        | _ => exact hctor
      | wildcard =>
        cases effectiveIntDomain env (tys.headD .unit) with
        | none => exact wildcardUseful_congr h _ _ rfl
        | some d =>
          simp only
          split_ifs with hint
          · exact intColumnUseful_congr h _ _ _ (Or.inr hint)
          · exact wildcardUseful_congr h _ _ rfl

/-- `usefulness`: the guard marks the decrease and is always met. -/
def usefulness (env : TypeEnv) (m : Matrix) (q : Row) (tys : List Ty) : Option Row :=
  usefulnessStep env (fun m' q' tys' =>
    if _ : Smaller m' q' m q then usefulness env m' q' tys' else none) m q tys
termination_by (problemWeight m q, q.length)
decreasing_by
  rcases ‹Smaller _ _ _ _› with hlt | ⟨hle, hlt⟩
  · exact Prod.Lex.left _ _ hlt
  · rcases Nat.lt_or_eq_of_le hle with h | h
    · exact Prod.Lex.left _ _ h
    · rw [h]
      exact Prod.Lex.right _ hlt

/-- The recursion equation of the source, without the guard. -/
theorem usefulness_eq (env : TypeEnv) (m : Matrix) (q : Row) (tys : List Ty) :
    usefulness env m q tys = usefulnessStep env (usefulness env) m q tys := by
  rw [usefulness]
  exact usefulnessStep_congr env tys fun m' q' tys' h => by rw [dif_pos h]

/-- Induction along the recursion. -/
theorem usefulness_induction {P : Matrix → Row → Prop}
    (step : ∀ m q, (∀ m' q', Smaller m' q' m q → P m' q') → P m q) (m : Matrix) (q : Row) : P m q := by
  have hwf : WellFounded fun a b : Matrix × Row => Smaller a.1 a.2 b.1 b.2 := by
    refine Subrelation.wf (r := InvImage (Prod.Lex (· < ·) (· < ·))
      fun a : Matrix × Row => (problemWeight a.1 a.2, a.2.length)) ?_
      (InvImage.wf _ (Prod.lex Nat.lt_wfRel Nat.lt_wfRel).wf)
    intro a b h
    rcases h with hlt | ⟨hle, hlt⟩
    · exact Prod.Lex.left _ _ hlt
    · rcases Nat.lt_or_eq_of_le hle with h | h
      · exact Prod.Lex.left _ _ h
      · show Prod.Lex _ _ (problemWeight a.1 a.2, _) _
        rw [h]
        exact Prod.Lex.right _ hlt
  exact hwf.induction (C := fun a => P a.1 a.2) (m, q) fun a ih => step a.1 a.2 fun m' q' h => ih (m', q') h

end Karac.Exhaustive
