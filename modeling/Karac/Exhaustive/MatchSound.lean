import Karac.Exhaustive.LowerSound

/-! When `check_match_exhaustive` can be trusted: if the unguarded arms are well formed and the lowering
sees them, an answer `Exhaustive` is right. Below a generic struct the lowering does not see the type
arguments, and there the answer can be wrong. -/

namespace Karac.Exhaustive

variable {env : TypeEnv} {scope : Scope}

/-! Slice patterns that together cover all lengths. -/

/-- A row that is irrefutable on sequences of the length class. -/
def LengthRow (m : Matrix) (fixed : ℕ) (hasRest : Bool) : Prop :=
  ∃ args tail, .ctor (.sliceLen fixed hasRest) args :: tail ∈ m ∧ args.all isWildcard = true

/-- Everything collected comes from a row. -/
structure LengthClasses.From (m : Matrix) (classes : LengthClasses) : Prop where
  catchAll : classes.catchAll = true → ∃ tail, .wildcard :: tail ∈ m
  openMin : ∀ n, classes.openMin = some n → LengthRow m n true
  closedLens : ∀ n ∈ classes.closedLens, LengthRow m n false

theorem addLengthClass_from {m : Matrix} {classes : LengthClasses} {row : Row}
    (h : classes.From m) (hrow : row ∈ m) : (addLengthClass classes row).From m := by
  unfold addLengthClass
  split
  · exact ⟨fun _ => ⟨_, hrow⟩, h.openMin, h.closedLens⟩
  · rename_i fixed hasRest args tail
    split_ifs with hwild hrest
    · subst hrest
      refine ⟨h.catchAll, fun n hn => ?_, h.closedLens⟩
      have hfixed : LengthRow m fixed true := ⟨args, tail, hrow, hwild⟩
      cases hopen : classes.openMin with
      | none =>
        obtain rfl : fixed = n := by simpa [hopen] using hn
        exact hfixed
      | some k =>
        have hn : min k fixed = n := by simpa [hopen] using hn
        rcases min_choice k fixed with hmin | hmin
        · exact h.openMin n (by rw [hopen, ← hn, hmin])
        · rwa [← hn, hmin]
    · refine ⟨h.catchAll, h.openMin, fun n hn => ?_⟩
      rcases List.mem_cons.mp hn with rfl | hn
      · exact ⟨args, tail, by simpa [hrest] using hrow, hwild⟩
      · exact h.closedLens n hn
    · exact h
  · exact h

theorem lengthClasses_from (m : Matrix) : (m.foldl addLengthClass {}).From m := by
  refine List.foldlRecOn m addLengthClass ⟨by simp, by simp, by simp⟩ fun classes h row hrow => ?_
  exact addLengthClass_from h hrow

/-- If the classes cover all lengths, a sequence falls under one of them. -/
theorem slicePatternsCoverAllLengths_spec {m : Matrix} (h : slicePatternsCoverAllLengths m = true) :
    (∃ tail, .wildcard :: tail ∈ m) ∨ ∃ n, LengthRow m n true ∧ ∀ l < n, LengthRow m l false := by
  have hfrom := lengthClasses_from m
  unfold slicePatternsCoverAllLengths at h
  rcases Bool.or_eq_true_iff.mp h with hcatch | h
  · exact Or.inl (hfrom.catchAll hcatch)
  · cases hopen : (m.foldl addLengthClass {}).openMin with
    | none => simp [hopen] at h
    | some n =>
      simp only [hopen, List.all_eq_true, List.mem_range, List.contains_iff_mem] at h
      exact Or.inr ⟨n, hfrom.openMin n hopen, fun l hl => hfrom.closedLens l (h l hl)⟩

theorem rowMatches_allWildcards {args : List Pat} {vs : List Value} (hwild : args.all isWildcard = true)
    (hlen : args.length = vs.length) : RowMatches noSplit args vs := by
  have hargs : args = List.replicate vs.length .wildcard := by
    refine List.eq_replicate_iff.mpr ⟨hlen, fun p hp => ?_⟩
    have := List.all_eq_true.mp hwild p hp
    cases p <;> simp_all [isWildcard]
  rw [hargs]
  exact rowMatches_wildcards vs

/-- A pattern that is lowered to a length class is a slice pattern below its bindings. -/
theorem lower_slice_inv {n : ℕ} {hasRest : Bool} {args : List Pat} : ∀ (p : Pattern) {ty : Ty},
    lowerPattern env p ty = .ctor (.sliceLen n hasRest) args →
    ∃ front back L, sliceShape ty front.length hasRest back.length = .openEnded L ∧
      n = front.length + back.length ∧ args = lowerEach env front L ++ lowerEach env back L ∧
      (Checked env p ty → Checked env (.slice front hasRest back) ty) ∧
      (LoweringSees env scope p ty → LoweringSees env scope (.slice front hasRest back) ty) ∧
      ∀ v, tryMatchPattern env scope p v = tryMatchPattern env scope (.slice front hasRest back) v
  | .atBinding name pattern => by
    intro hlow
    obtain ⟨front, back, L, hshape, hn, hargs, hc, hsees, hmatch⟩ := lower_slice_inv pattern hlow
    refine ⟨front, back, L, hshape, hn, hargs, hc, hsees, fun v => ?_⟩
    rw [tryMatchPattern]
    exact hmatch v
  | .slice front rest back => by
    intro hlow
    rw [lowerPattern] at hlow
    cases hshape : sliceShape _ front.length rest back.length with
    | rejected => rw [hshape] at hlow; exact absurd hlow (by simp)
    | array L k => rw [hshape] at hlow; exact absurd hlow (by simp)
    | openEnded L =>
      rw [hshape] at hlow
      obtain ⟨hctor, rfl⟩ := Pat.ctor.inj hlow
      obtain ⟨rfl, rfl⟩ := PatCtor.sliceLen.inj hctor
      exact ⟨front, back, L, hshape, rfl, rfl, id, id, fun _ => rfl⟩
  | .wildcard => by
    intro hlow
    exact absurd hlow (by simp [lowerPattern])
  | .binding name => by
    intro hlow
    rw [lowerPattern] at hlow
    split_ifs at hlow
    exact absurd hlow (by simp)
  | .literal lit => by
    intro hlow
    cases lit <;> exact absurd hlow (by simp [lowerPattern])
  | .rangePattern _ _ _ => by
    intro hlow
    exact absurd hlow (by simp [lowerPattern])
  | .struct path fields => by
    intro hlow
    rw [lowerPattern] at hlow
    obtain ⟨hctor, -⟩ := Pat.ctor.inj hlow
    unfold structPatternDecls at hctor
    split at hctor
    · split at hctor <;> exact absurd hctor (by simp)
    · exact absurd hctor (by simp)
  | .tupleVariant _ _ => by
    intro hlow
    exact absurd hlow (by simp [lowerPattern])
  | .tuple _ => by
    intro hlow
    exact absurd hlow (by simp [lowerPattern])
  | .or _ => by
    intro hlow
    exact absurd hlow (by simp [lowerPattern])

/-- An irrefutable arm of a length class matches the sequences of the class. -/
theorem length_class_matches {n : ℕ} {hasRest : Bool} {p : Pattern} {ty : Ty} {vs : List Value}
    {args : List Pat} (hc : Checked env p ty) (hsees : LoweringSees env scope p ty)
    (hv : HasType env (.seq vs) ty) (hlow : lowerPattern env p ty = .ctor (.sliceLen n hasRest) args)
    (hwild : args.all isWildcard = true) (hn : n ≤ vs.length) (hclosed : hasRest = false → vs.length = n) :
    tryMatchPattern env scope p (.seq vs) = true := by
  obtain ⟨front, back, L, hshape, rfl, rfl, hslice, hslice', hmatch⟩ :=
    @lower_slice_inv env scope n hasRest args p ty hlow
  obtain ⟨element, helem, hcf, hcb⟩ := hslice hc
  have hsees := hslice' hsees
  rw [LoweringSees, hshape] at hsees
  obtain ⟨ws, heq, hvs⟩ := actualElement_value helem hv
  obtain rfl := Value.seq.inj heq
  have htr : Tracks element L := Or.inl (openEnded_element (Or.inl (Forgets.refl _)) helem hshape)
  rw [List.all_append, Bool.and_eq_true] at hwild
  have hf := lowerEach_sound front hcf hsees.1 (splitEach_noSplit front L) htr (mem_take_typed hvs front.length).1
    (rowMatches_allWildcards hwild.1 (by rw [lowerEach_length, List.length_take]; omega))
  have hb := lowerEach_sound back hcb hsees.2 (splitEach_noSplit back L) htr (mem_take_typed hvs (vs.length - back.length)).2
    (rowMatches_allWildcards hwild.2 (by rw [lowerEach_length, List.length_drop]; omega))
  rw [← matchAll_take (by omega)] at hf
  rw [hmatch]
  simp only [tryMatchPattern, hf, hb, Bool.and_true]
  cases hasRest with
  | true => exact decide_eq_true hn
  | false => exact decide_eq_true (hclosed rfl)

/-! The checker. -/

/-- The arm is well formed for the scrutinee and the lowering sees it. -/
structure ArmSeen (env : TypeEnv) (scope : Scope) (ty : Ty) (arm : MatchArm) : Prop where
  checked : Checked env arm.pattern ty
  sees : LoweringSees env scope arm.pattern ty

theorem mem_buildMatrix {arms : List MatchArm} {ty : Ty} {row : Row} (h : row ∈ buildMatrix env arms ty) :
    ∃ arm ∈ arms, arm.hasGuard = false ∧ row = [lowerPattern env arm.pattern ty] := by
  obtain ⟨arm, harm, rfl⟩ := List.mem_map.mp h
  obtain ⟨hmem, hguard⟩ := List.mem_filter.mp harm
  exact ⟨arm, hmem, by simpa using hguard, rfl⟩

section Checker

variable {ty : Ty} {arms : List MatchArm} {v : Value}
  (harms : ∀ arm ∈ arms, arm.hasGuard = false → ArmSeen env scope ty arm) (hv : HasType env v ty)
include harms hv

theorem covers_by_usefulness (h : usefulness env (buildMatrix env arms ty) [.wildcard] [ty] = none) :
    ∃ arm ∈ arms, arm.hasGuard = false ∧ tryMatchPattern env scope arm.pattern v = true := by
  have hfits : MatrixFits env [ty] (buildMatrix env arms ty) := by
    intro row hrow
    obtain ⟨arm, hmem, hguard, rfl⟩ := mem_buildMatrix hrow
    have harm := harms arm hmem hguard
    exact List.Forall₂.cons
      (lower_fits arm.pattern harm.checked harm.sees (Or.inl (Forgets.refl ty)) (Forgets.refl ty))
      List.Forall₂.nil
  obtain ⟨row, hrow, hmatch⟩ := @usefulness_sound env noSplit (buildMatrix env arms ty) [.wildcard] [ty]
    hfits (List.Forall₂.cons (Fits.wildcard ty) List.Forall₂.nil) h [v]
    (List.Forall₂.cons hv.approx List.Forall₂.nil)
    (List.Forall₂.cons (PatMatches.wildcard v) List.Forall₂.nil)
  obtain ⟨arm, hmem, hguard, rfl⟩ := mem_buildMatrix hrow
  have harm := harms arm hmem hguard
  cases hmatch with
  | cons hp _ =>
    exact ⟨arm, hmem, hguard, lower_sound arm.pattern harm.checked harm.sees
      (splitSees_noSplit _ _) (Or.inl (Forgets.refl ty)) hv hp⟩

theorem covers_by_lengths (h : slicePatternsCoverAllLengths (buildMatrix env arms ty) = true) :
    ∃ arm ∈ arms, arm.hasGuard = false ∧ tryMatchPattern env scope arm.pattern v = true := by
  rcases slicePatternsCoverAllLengths_spec h with ⟨tail, hrow⟩ | ⟨n, hopen, hclosed⟩
  · obtain ⟨arm, hmem, hguard, heq⟩ := mem_buildMatrix hrow
    obtain ⟨hlow, -⟩ := List.cons.inj heq
    have harm := harms arm hmem hguard
    refine ⟨arm, hmem, hguard, lower_sound arm.pattern harm.checked harm.sees
      (splitSees_noSplit _ _) (Or.inl (Forgets.refl ty)) hv ?_⟩
    rw [← hlow]
    exact PatMatches.wildcard v
  · have hclass : ∀ {k : ℕ} {r : Bool} {vs : List Value}, LengthRow (buildMatrix env arms ty) k r →
        v = .seq vs → k ≤ vs.length → (r = false → vs.length = k) →
        ∃ arm ∈ arms, arm.hasGuard = false ∧ tryMatchPattern env scope arm.pattern v = true := by
      intro k r vs hclass hvs hk hr
      obtain ⟨args, tail, hrow, hwild⟩ := hclass
      obtain ⟨arm, hmem, hguard, heq⟩ := mem_buildMatrix hrow
      obtain ⟨hlow, -⟩ := List.cons.inj heq
      have harm := harms arm hmem hguard
      subst hvs
      exact ⟨arm, hmem, hguard, length_class_matches harm.checked harm.sees hv hlow.symm hwild hk hr⟩
    -- the open arm is a slice pattern, so the value is a sequence
    have hseq : ∃ vs, v = .seq vs := by
      obtain ⟨args, tail, hrow, -⟩ := hopen
      obtain ⟨arm, hmem, hguard, heq⟩ := mem_buildMatrix hrow
      obtain ⟨hlow, -⟩ := List.cons.inj heq
      obtain ⟨front, back, L, -, -, -, hslice, -⟩ := @lower_slice_inv env scope n true args _ ty hlow.symm
      obtain ⟨element, helem, -⟩ := hslice (harms arm hmem hguard).checked
      obtain ⟨vs, rfl, -⟩ := actualElement_value helem hv
      exact ⟨vs, rfl⟩
    obtain ⟨vs, hvs⟩ := hseq
    by_cases hlen : n ≤ vs.length
    · exact hclass hopen hvs hlen (by simp)
    · exact hclass (hclosed vs.length (by omega)) hvs le_rfl fun _ => rfl

end Checker

/-- `enum Option[T] { None, Some(T) }` and `struct Wrap[T] { v: T }`. -/
def wrapEnv : TypeEnv where
  enums := fun name => if name = "Option" then
    some ⟨["T"], [("None", .unit), ("Some", .tuple [.typeParam "T"])]⟩ else none
  structs := fun name => if name = "Wrap" then some ⟨["T"], [("v", .typeParam "T")]⟩ else none
  distinctBases := fun _ => none
  refinementPredicates := fun _ => none
  constValues := fun _ => none
  distinct_only := fun _ h => absurd h (by simp)

def noneInScope : Scope where
  unitVariant := fun name => name = "None"
  isUppercase := Char.isUpper

def optionBool : Ty := .named "Option" [.bool]

theorem usefulness_nil_cons (env : TypeEnv) (row : Row) (m : Matrix) (tys : List Ty) :
    usefulness env (row :: m) [] tys = none := by
  rw [usefulness_eq]
  rfl

/-- A wildcard row covers a column without a finite integer domain. -/
theorem usefulness_wildcard {ty : Ty} (hdom : effectiveIntDomain env ty = none) :
    usefulness env [[.wildcard]] [.wildcard] [ty] = none := by
  rw [usefulness_eq]
  simp [usefulnessStep, hdom, wildcardUseful, rowStartsWild, isWildcard, defaultMatrix, mapHeads,
    usefulness_nil_cons]

theorem some_true_typed :
    HasType wrapEnv (.variant "Option" "Some" .tuple [.bool true]) optionBool :=
  @HasType.enum wrapEnv [.bool true] "Option" "Some" [.bool] _ (.tuple [.typeParam "T"]) rfl rfl
    (List.Forall₂.cons (HasType.bool true) List.Forall₂.nil)

/-- `match o { None => .., Some(b) => .. }` on an `Option[bool]`. -/
def optionArms : List MatchArm :=
  [⟨.binding "None", false⟩, ⟨.tupleVariant ["Some"] [.binding "b"], false⟩]

end Karac.Exhaustive
