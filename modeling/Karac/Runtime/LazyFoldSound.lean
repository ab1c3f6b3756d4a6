import Karac.Lib.Computations
import Karac.Runtime.LazyFoldNormal

/-! A folded expression has the values of the expression, unless a connective in the place of a scalar becomes a column
or two leaves of a chain are equal but not the same. -/

namespace Karac.Runtime.Lazy

variable {F : Type} [F64 F]

/-- Of two leaves that compare equal one is the other. -/
def Distinct (leaves : List (ExprNode F)) : Prop := leaves.Pairwise fun x y => x.beq y = true → x = y

/-- Not a column, whose rows can be without a value. -/
def NotColumn (e : ExprNode F) : Prop := ∀ n, e ≠ .col n

mutual

/-- In the place of a scalar. -/
def ScalarExact : ExprNode F → Prop
  | .arith _ l r => ScalarExact l ∧ ScalarExact r
  | .cmp _ l r => ScalarExact l ∧ ScalarExact r
  | .and a b => (PredExact a ∧ PredExact b ∧ Distinct (spine true (foldExpr a) ++ spine true (foldExpr b))) ∧
      NotColumn (foldExpr (.and a b))
  | .or a b => (PredExact a ∧ PredExact b ∧ Distinct (spine false (foldExpr a) ++ spine false (foldExpr b))) ∧
      NotColumn (foldExpr (.or a b))
  | .not x => PredExact x ∧ NotColumn (foldExpr (.not x))
  | _ => True

/-- In the place of a predicate. -/
def PredExact : ExprNode F → Prop
  | .cmp _ l r => ScalarExact l ∧ ScalarExact r
  | .and a b => PredExact a ∧ PredExact b ∧ Distinct (spine true (foldExpr a) ++ spine true (foldExpr b))
  | .or a b => PredExact a ∧ PredExact b ∧ Distinct (spine false (foldExpr a) ++ spine false (foldExpr b))
  | .not x => PredExact x
  | _ => True

end

variable (cols : List (FrameCol F)) (row : ℕ)

/-! Chains. -/

/-- The leaves of a chain, up to the one that decides it. -/
def evalChain (isAnd : Bool) : List (ExprNode F) → Except LazyError Bool
  | [] => .ok isAnd
  | leaf :: leaves => do
    let x ← evalPred cols row leaf
    if x = isAnd then evalChain isAnd leaves else pure x

variable {cols row}

theorem evalPred_connect (isAnd : Bool) (a b : ExprNode F) :
    evalPred cols row (connect isAnd a b) =
      evalPred cols row a >>= fun x => if x = isAnd then evalPred cols row b else pure x := by
  cases isAnd with
  | true =>
    rw [connect, if_pos rfl, evalPred]
    refine bind_congr fun x => ?_
    cases x <;> rfl
  | false =>
    rw [connect, if_neg Bool.false_ne_true, evalPred]
    refine bind_congr fun x => ?_
    cases x <;> rfl

theorem evalChain_append (isAnd : Bool) (as bs : List (ExprNode F)) :
    evalChain cols row isAnd (as ++ bs) =
      evalChain cols row isAnd as >>= fun x => if x = isAnd then evalChain cols row isAnd bs else pure x := by
  induction as with
  | nil =>
    rw [List.nil_append, evalChain]
    exact (if_pos rfl).symm
  | cons leaf as ih =>
    rw [List.cons_append, evalChain, evalChain, bind_assoc]
    refine bind_congr fun x => ?_
    by_cases hx : x = isAnd
    · rw [if_pos hx, if_pos hx, ih]
    · rw [if_neg hx, if_neg hx]
      exact (if_neg hx).symm

theorem evalChain_singleton (isAnd : Bool) (e : ExprNode F) : evalChain cols row isAnd [e] = evalPred cols row e := by
  rw [evalChain]
  cases evalPred cols row e with
  | error err => rfl
  | ok x =>
    by_cases hx : x = isAnd
    · exact (if_pos hx).trans (congrArg Except.ok hx.symm)
    · exact if_neg hx

theorem evalChain_spine (isAnd : Bool) (e : ExprNode F) : evalChain cols row isAnd (spine isAnd e) = evalPred cols row e := by
  induction e using spineInduction isAnd with
  | leaf e he => rw [spine_leaf he, evalChain_singleton]
  | link a b iha ihb => rw [spine_connect, evalChain_append, iha, ihb, evalPred_connect]

theorem evalPred_foldl_connect (isAnd : Bool) (first : ExprNode F) (rest : List (ExprNode F)) :
    evalPred cols row (rest.foldl (connect isAnd) first) =
      evalPred cols row first >>= fun x => if x = isAnd then evalChain cols row isAnd rest else pure x := by
  induction rest generalizing first with
  | nil =>
    have h : evalChain cols row isAnd [first] = evalPred cols row first := evalChain_singleton isAnd first
    rw [evalChain] at h
    exact h.symm
  | cons leaf rest ih =>
    rw [List.foldl_cons, ih, evalPred_connect, bind_assoc]
    refine bind_congr fun x => ?_
    by_cases hx : x = isAnd
    · rw [if_pos hx, if_pos hx, evalChain]
    · rw [if_neg hx, if_neg hx]
      exact if_neg hx

theorem evalPred_chainOf (isAnd : Bool) (leaves : List (ExprNode F)) :
    evalPred cols row (chainOf isAnd leaves) = evalChain cols row isAnd leaves := by
  cases leaves with
  | nil => cases isAnd <;> rfl
  | cons first rest => rw [chainOf, evalPred_foldl_connect, evalChain]

/-- Each leaf before the deciding one is neutral. -/
theorem evalChain_ok_iff {isAnd v : Bool} {leaf : ExprNode F} {leaves : List (ExprNode F)} :
    evalChain cols row isAnd (leaf :: leaves) = .ok v ↔
      ∃ x, evalPred cols row leaf = .ok x ∧ if x = isAnd then evalChain cols row isAnd leaves = .ok v else x = v := by
  rw [evalChain]
  constructor
  · intro h
    obtain ⟨x, hx, h⟩ := Lib.ok_of_bind h
    refine ⟨x, hx, ?_⟩
    split
    · next heq => rwa [if_pos heq] at h
    · next hne =>
      rw [if_neg hne] at h
      exact Except.ok.inj h
  · rintro ⟨x, hx, h⟩
    rw [hx]
    split at h
    · next heq => exact (if_pos heq).trans h
    · next hne => exact (if_neg hne).trans (congrArg Except.ok h)

/-- Leaves that are neutral on the row. -/
def Neutral (cols : List (FrameCol F)) (row : ℕ) (isAnd : Bool) (leaves : List (ExprNode F)) : Prop :=
  ∀ leaf ∈ leaves, evalPred cols row leaf = .ok isAnd

theorem evalChain_of_neutral {isAnd : Bool} {out : List (ExprNode F)} (h : Neutral cols row isAnd out)
    (leaves : List (ExprNode F)) : evalChain cols row isAnd (out ++ leaves) = evalChain cols row isAnd leaves := by
  induction out with
  | nil => rfl
  | cons leaf out ih =>
    obtain ⟨hleaf, hout⟩ := List.forall_mem_cons.mp h
    rw [List.cons_append, evalChain, hleaf, ← ih hout]
    exact if_pos rfl

theorem evalChain_prefix {isAnd : Bool} {out kept : List (ExprNode F)} {v : Bool} (hne : v ≠ isAnd)
    (hfront : out <+: kept) (h : evalChain cols row isAnd out = .ok v) : evalChain cols row isAnd kept = .ok v := by
  obtain ⟨rest, rfl⟩ := hfront
  rw [evalChain_append, h]
  exact if_neg hne

theorem prefix_keptLeaves {isAnd : Bool} {out leaves kept : List (ExprNode F)}
    (h : keptLeaves isAnd leaves out = some kept) : out <+: kept := by
  induction leaves generalizing out with
  | nil =>
    cases h
    exact List.prefix_refl _
  | cons leaf leaves ih =>
    rcases litBool_or_not leaf with ⟨b, rfl⟩ | hleaf
    · rw [keptLeaves_litBool] at h
      split at h
      · exact ih h
      · cases h
    · rw [keptLeaves_leaf hleaf] at h
      split at h
      · exact ih h
      · exact (List.prefix_append _ _).trans (ih h)

/-- The leaves that are kept decide as all of them do; a chain that a constant decides has no other value. -/
theorem evalChain_keptLeaves {isAnd v : Bool} {out leaves : List (ExprNode F)} (hdistinct : Distinct (out ++ leaves))
    (hout : Neutral cols row isAnd out) (h : evalChain cols row isAnd leaves = .ok v) :
    (∀ kept, keptLeaves isAnd leaves out = some kept → evalChain cols row isAnd kept = .ok v) ∧
      (keptLeaves isAnd leaves out = none → v = !isAnd) := by
  induction leaves generalizing out with
  | nil =>
    refine ⟨?_, fun hnone => absurd hnone (Option.some_ne_none _)⟩
    intro kept hkept
    obtain rfl : out = kept := Option.some.inj hkept
    have h' := evalChain_of_neutral hout []
    rw [List.append_nil] at h'
    rw [h', h]
  | cons leaf leaves ih =>
    obtain ⟨x, hx, hrest⟩ := evalChain_ok_iff.mp h
    have hskip : Distinct (out ++ leaves) :=
      hdistinct.sublist ((List.sublist_cons_self leaf leaves).append_left out)
    rcases litBool_or_not leaf with ⟨b, rfl⟩ | hleaf
    · obtain rfl : b = x := Except.ok.inj hx
      rw [keptLeaves_litBool]
      by_cases hb : b = isAnd
      · rw [if_pos hb] at hrest ⊢
        exact ih hskip hout hrest
      · rw [if_neg hb] at hrest ⊢
        refine ⟨fun kept hkept => absurd hkept.symm (Option.some_ne_none _), fun _ => ?_⟩
        rw [← hrest]
        exact Bool.eq_not_of_ne hb
    · rw [keptLeaves_leaf hleaf]
      by_cases hany : (out.any fun x => x.beq leaf) = true
      · -- the leaf is one of those before it, which are neutral
        obtain ⟨y, hy, hbeq⟩ := List.any_eq_true.mp hany
        obtain rfl : y = leaf := (List.pairwise_append.mp hdistinct).2.2 y hy leaf List.mem_cons_self hbeq
        obtain rfl : x = isAnd := Except.ok.inj (hx.symm.trans (hout y hy))
        rw [if_pos rfl] at hrest
        rw [if_pos hany]
        exact ih hskip hout hrest
      · rw [if_neg hany]
        have hback : out ++ leaf :: leaves = out ++ [leaf] ++ leaves := by simp
        rw [hback] at hdistinct
        by_cases hneutral : x = isAnd
        · subst hneutral
          rw [if_pos rfl] at hrest
          refine ih hdistinct ?_ hrest
          intro y hy
          rcases List.mem_append.mp hy with hy | hy
          · exact hout y hy
          · obtain rfl := List.mem_singleton.mp hy
            exact hx
        · rw [if_neg hneutral] at hrest
          subst hrest
          have hdecided : evalChain cols row isAnd (out ++ [leaf]) = .ok x := by
            rw [evalChain_of_neutral hout, evalChain_singleton, hx]
          exact ⟨fun kept hkept => evalChain_prefix hneutral (prefix_keptLeaves hkept) hdecided,
            fun _ => Bool.eq_not_of_ne hneutral⟩

theorem evalPred_rebuildChain {isAnd v : Bool} {leaves : List (ExprNode F)} (hdistinct : Distinct leaves)
    (h : evalChain cols row isAnd leaves = .ok v) : evalPred cols row (rebuildChain isAnd leaves) = .ok v := by
  have hnil : Neutral cols row isAnd [] := by simp [Neutral]
  rw [← List.nil_append leaves] at hdistinct
  obtain ⟨hsome, hnone⟩ := evalChain_keptLeaves hdistinct hnil h
  rw [rebuildChain]
  split
  · next kept hkept => rw [evalPred_chainOf, hsome kept hkept]
  · next hkept => rw [evalPred, hnone hkept]

/-! The folds of single operators. -/

theorem evalPred_foldCmp {op : CmpOp} {l r : ExprNode F} {v : Bool} (h : evalPred cols row (.cmp op l r) = .ok v) :
    evalPred cols row (foldCmp op l r) = .ok v := by
  rw [foldCmp]
  cases hlit : literalOrder op l r with
  | none => exact h
  | some ord =>
    unfold literalOrder at hlit
    split at hlit
    case h_6 =>
      split_ifs at hlit with heq
      cases hlit
      have hcmp : compareCells op (boolCell (F := F) _) (boolCell _) = .ok v := h
      rw [boolCell, boolCell, compareCells, compareScalars, if_pos heq] at hcmp
      exact hcmp
    all_goals
      cases hlit
      try exact h

theorem evalScalar_foldArith {op : ArithOp} {l r : ExprNode F} {c : Option (Scalar F)}
    (h : evalScalar cols row (.arith op l r) = .ok c) : evalScalar cols row (foldArith op l r) = .ok c := by
  rw [foldArith]
  cases hlit : literalArith op l r with
  | none => exact h
  | some e =>
    rw [Option.getD_some]
    unfold literalArith at hlit
    split at hlit
    case h_1 x y =>
      split_ifs at hlit with hdiv
      obtain ⟨v, hv, rfl⟩ := Option.map_eq_some_iff.mp hlit
      have hcells : arithCells op (some (.i x)) (some (.i y)) = .ok c := h
      rw [arithCells, arithScalars, if_neg hdiv, hv] at hcells
      exact hcells
    all_goals
      cases hlit
      try exact h

theorem evalPred_foldNot {x : ExprNode F} {v : Bool} (h : evalPred cols row (.not x) = .ok v) :
    evalPred cols row (foldNot x) = .ok v := by
  unfold foldNot
  split
  · exact h
  · next y =>
    obtain ⟨w, hw, h⟩ := Lib.ok_of_bind h
    obtain ⟨u, hu, hw⟩ := Lib.ok_of_bind hw
    obtain rfl : (!u) = w := Except.ok.inj hw
    obtain rfl : (!!u) = v := Except.ok.inj h
    rw [hu, Bool.not_not]
  · exact h

theorem isTest_or_col {e : ExprNode F} {v : Bool} (h : evalPred cols row e = .ok v) : e.IsTest = true ∨ ∃ n, e = .col n := by
  cases e with
  | col n => exact .inr ⟨n, rfl⟩
  | litBool b => exact .inl rfl
  | cmp op l r => exact .inl rfl
  | and a b => exact .inl rfl
  | or a b => exact .inl rfl
  | not x => exact .inl rfl
  | _ => cases h

/-- A predicate that has not become a column keeps its scalar. -/
theorem evalScalar_of_evalPred {e e' : ExprNode F} (he : e.IsTest = true) (hcol : NotColumn e')
    (hpred : ∀ v, evalPred cols row e = .ok v → evalPred cols row e' = .ok v) {c : Option (Scalar F)}
    (h : evalScalar cols row e = .ok c) : evalScalar cols row e' = .ok c := by
  rw [evalScalar_of_isTest cols row he] at h
  obtain ⟨v, hv, hc⟩ := Lib.ok_of_bind (f := fun v => .ok (boolCell v)) h
  obtain rfl : boolCell v = c := Except.ok.inj hc
  have hv' := hpred v hv
  have he' : e'.IsTest = true := (isTest_or_col hv').resolve_right fun hn => hn.elim hcol
  rw [evalScalar_of_isTest cols row he', hv']
  rfl

/-! Whole expressions. -/

theorem notColumn_foldCmp {op : CmpOp} {l r : ExprNode F} : NotColumn (foldCmp op l r) := by
  intro n
  rw [foldCmp]
  split <;> rintro ⟨⟩

theorem evalPred_foldExpr_chain (isAnd : Bool) {v : Bool} {a b : ExprNode F}
    (hdistinct : Distinct (spine isAnd (foldExpr a) ++ spine isAnd (foldExpr b)))
    (ha : ∀ x, evalPred cols row a = .ok x → evalPred cols row (foldExpr a) = .ok x)
    (hb : ∀ x, evalPred cols row b = .ok x → evalPred cols row (foldExpr b) = .ok x)
    (h : evalPred cols row (connect isAnd a b) = .ok v) : evalPred cols row (foldExpr (connect isAnd a b)) = .ok v := by
  rw [evalPred_connect] at h
  obtain ⟨x, hx, h⟩ := Lib.ok_of_bind h
  rw [foldExpr_chain]
  refine evalPred_rebuildChain hdistinct ?_
  rw [evalChain_append, evalChain_spine, ha x hx]
  by_cases hneutral : x = isAnd
  · rw [if_pos hneutral] at h
    have hb' := hb v h
    rw [← evalChain_spine isAnd] at hb'
    exact (if_pos hneutral).trans hb'
  · rw [if_neg hneutral] at h
    exact (if_neg hneutral).trans h

/-- On a row on which the expression has a value the folded one has it. -/
theorem foldExpr_sound (cols : List (FrameCol F)) (row : ℕ) (e : ExprNode F) :
    (ScalarExact e → ∀ c, evalScalar cols row e = .ok c → evalScalar cols row (foldExpr e) = .ok c) ∧
      (PredExact e → ∀ v, evalPred cols row e = .ok v → evalPred cols row (foldExpr e) = .ok v) := by
  induction e with
  | cmp op l r ihl ihr =>
    have hpred : ScalarExact l ∧ ScalarExact r → ∀ v, evalPred cols row (.cmp op l r) = .ok v →
        evalPred cols row (foldExpr (.cmp op l r)) = .ok v := by
      intro hexact v h
      obtain ⟨a, ha, h⟩ := Lib.ok_of_bind h
      obtain ⟨b, hb, h⟩ := Lib.ok_of_bind h
      rw [foldExpr_cmp]
      refine evalPred_foldCmp ?_
      rw [evalPred, ihl.1 hexact.1 a ha, ihr.1 hexact.2 b hb]
      exact h
    refine ⟨fun hexact c => evalScalar_of_evalPred rfl ?_ (hpred hexact), hpred⟩
    rw [foldExpr_cmp]
    exact notColumn_foldCmp
  | and a b iha ihb =>
    have hpred : PredExact (.and a b) → ∀ v, evalPred cols row (.and a b) = .ok v →
        evalPred cols row (foldExpr (.and a b)) = .ok v := fun hexact v =>
      evalPred_foldExpr_chain true hexact.2.2 (iha.2 hexact.1) (ihb.2 hexact.2.1)
    exact ⟨fun hexact c => evalScalar_of_evalPred rfl hexact.2 (hpred hexact.1), hpred⟩
  | or a b iha ihb =>
    have hpred : PredExact (.or a b) → ∀ v, evalPred cols row (.or a b) = .ok v →
        evalPred cols row (foldExpr (.or a b)) = .ok v := fun hexact v =>
      evalPred_foldExpr_chain false hexact.2.2 (iha.2 hexact.1) (ihb.2 hexact.2.1)
    exact ⟨fun hexact c => evalScalar_of_evalPred rfl hexact.2 (hpred hexact.1), hpred⟩
  | not x ih =>
    have hpred : PredExact x → ∀ v, evalPred cols row (.not x) = .ok v →
        evalPred cols row (foldExpr (.not x)) = .ok v := by
      intro hexact v h
      obtain ⟨w, hw, h⟩ := Lib.ok_of_bind h
      rw [foldExpr_not]
      refine evalPred_foldNot ?_
      rw [evalPred, ih.2 hexact w hw]
      exact h
    exact ⟨fun hexact c => evalScalar_of_evalPred rfl hexact.2 (hpred hexact.1), hpred⟩
  | arith op l r ihl ihr =>
    refine ⟨fun hexact c h => ?_, fun _ v h => ?_⟩
    · obtain ⟨a, ha, h⟩ := Lib.ok_of_bind h
      obtain ⟨b, hb, h⟩ := Lib.ok_of_bind h
      rw [foldExpr_arith]
      refine evalScalar_foldArith ?_
      rw [evalScalar, ihl.1 hexact.1 a ha, ihr.1 hexact.2 b hb]
      exact h
    · cases h
  | desc x ih => exact ⟨fun _ c h => (by cases h), fun _ v h => (by cases h)⟩
  | agg op x ih => exact ⟨fun _ c h => (by cases h), fun _ v h => (by cases h)⟩
  | aliased name x ih => exact ⟨fun _ c h => (by cases h), fun _ v h => (by cases h)⟩
  | _ => exact ⟨fun _ c h => h, fun _ v h => h⟩

end Karac.Runtime.Lazy
