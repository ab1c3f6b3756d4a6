import Karac.Runtime.LazyFold

/-! The fuel of `fold_expr` suffices, since folding makes nothing larger. -/

namespace Karac.Runtime.Lazy

variable {F : Type} [F64 F]

attribute [local simp] ExprNode.size foldFuel flattenFuel

omit [F64 F] in
theorem ExprNode.size_pos (e : ExprNode F) : 0 < e.size := by
  cases e <;> simp [size]

/-! Folding makes nothing larger. -/

omit [F64 F] in
/-- The size of a chain of the leaves, and one more. -/
def leavesSize (leaves : List (ExprNode F)) : ℕ := (leaves.map fun e => e.size + 1).sum

omit [F64 F] in
theorem leavesSize_append (as bs : List (ExprNode F)) : leavesSize (as ++ bs) = leavesSize as + leavesSize bs := by
  simp [leavesSize]

theorem keptLeaves_leaf {isAnd : Bool} {leaf : ExprNode F} (h : ∀ b, leaf ≠ .litBool b) (leaves out : List (ExprNode F)) :
    keptLeaves isAnd (leaf :: leaves) out =
      keptLeaves isAnd leaves (if out.any fun x => x.beq leaf then out else out ++ [leaf]) := by
  cases leaf with
  | litBool b => exact absurd rfl (h b)
  | _ => rfl

theorem keptLeaves_litBool (isAnd b : Bool) (leaves out : List (ExprNode F)) :
    keptLeaves isAnd (.litBool b :: leaves) out = if b = isAnd then keptLeaves isAnd leaves out else none := rfl

omit [F64 F] in
theorem litBool_or_not (e : ExprNode F) : (∃ b, e = .litBool b) ∨ ∀ b, e ≠ .litBool b := by
  cases e with
  | litBool b => exact .inl ⟨b, rfl⟩
  | _ => exact .inr fun b => by rintro ⟨⟩

theorem leavesSize_keptLeaves {isAnd : Bool} {leaves out kept : List (ExprNode F)}
    (h : keptLeaves isAnd leaves out = some kept) : leavesSize kept ≤ leavesSize out + leavesSize leaves := by
  induction leaves generalizing out with
  | nil =>
    cases h
    simp [leavesSize]
  | cons leaf leaves ih =>
    have hcons : leavesSize (leaf :: leaves) = leaf.size + 1 + leavesSize leaves := by simp [leavesSize]
    rcases litBool_or_not leaf with ⟨b, rfl⟩ | hleaf
    · rw [keptLeaves_litBool] at h
      split at h
      · have hkept := ih h
        omega
      · cases h
    · rw [keptLeaves_leaf hleaf] at h
      have hkept := ih h
      have hout : leavesSize (if out.any fun x => x.beq leaf then out else out ++ [leaf]) ≤
          leavesSize out + (leaf.size + 1) := by
        split
        · omega
        · rw [leavesSize_append]
          simp [leavesSize]
      omega

omit [F64 F] in
theorem size_connect (isAnd : Bool) (a b : ExprNode F) : (connect isAnd a b).size = a.size + b.size + 1 := by
  cases isAnd <;> rfl

omit [F64 F] in
theorem size_foldl_connect (isAnd : Bool) (first : ExprNode F) (rest : List (ExprNode F)) :
    (rest.foldl (connect isAnd) first).size = first.size + leavesSize rest := by
  induction rest generalizing first with
  | nil => simp [leavesSize]
  | cons leaf rest ih =>
    rw [List.foldl_cons, ih, size_connect]
    simp only [leavesSize, List.map_cons, List.sum_cons]
    omega

theorem size_rebuildChain {isAnd : Bool} {leaves : List (ExprNode F)} {k : ℕ} (hpos : 0 < k)
    (h : leavesSize leaves ≤ k + 1) : (rebuildChain isAnd leaves).size ≤ k := by
  rw [rebuildChain]
  split
  · next out hout =>
    have hle := leavesSize_keptLeaves hout
    cases out with
    | nil => exact hpos
    | cons first rest =>
      rw [chainOf, size_foldl_connect]
      simp only [leavesSize, List.map_cons, List.map_nil, List.sum_cons, List.sum_nil] at hle h ⊢
      omega
  · exact hpos

theorem size_foldCmp (op : CmpOp) (l r : ExprNode F) : (foldCmp op l r).size ≤ l.size + r.size + 1 := by
  rw [foldCmp]
  split
  · simp [ExprNode.size]
  · exact le_rfl

theorem size_foldArith (op : ArithOp) (l r : ExprNode F) : (foldArith op l r).size ≤ l.size + r.size + 1 := by
  rw [foldArith]
  cases h : literalArith op l r with
  | none => exact le_rfl
  | some e =>
    have hone : e.size = 1 := by
      unfold literalArith at h
      split at h
      · split_ifs at h
        obtain ⟨v, -, rfl⟩ := Option.map_eq_some_iff.mp h
        rfl
      all_goals cases h <;> rfl
    rw [Option.getD_some, hone]
    omega

omit [F64 F] in
theorem size_foldNot (x : ExprNode F) : (foldNot x).size ≤ x.size + 1 := by
  unfold foldNot
  split
  · simp [ExprNode.size]
  · simp only [ExprNode.size]
    omega
  · exact le_rfl

theorem size_fuel (n : ℕ) :
    (∀ e : ExprNode F, (foldFuel n e).size ≤ e.size) ∧
      ∀ (isAnd : Bool) (e : ExprNode F), leavesSize (flattenFuel n isAnd e) ≤ e.size + 1 := by
  induction n with
  | zero => simp [foldFuel, flattenFuel, leavesSize]
  | succ n ih =>
    refine ⟨fun e => ?_, fun isAnd e => ?_⟩
    · cases e with
      | cmp op l r =>
        have hl := ih.1 l
        have hr := ih.1 r
        have h := size_foldCmp op (foldFuel n l) (foldFuel n r)
        simp only [foldFuel, ExprNode.size]
        omega
      | and a b => exact size_rebuildChain (ExprNode.size_pos _) (ih.2 true _)
      | or a b => exact size_rebuildChain (ExprNode.size_pos _) (ih.2 false _)
      | arith op l r =>
        have hl := ih.1 l
        have hr := ih.1 r
        have h := size_foldArith op (foldFuel n l) (foldFuel n r)
        simp only [foldFuel, ExprNode.size]
        omega
      | not x => exact (size_foldNot _).trans (Nat.succ_le_succ (ih.1 x))
      | desc x => exact Nat.succ_le_succ (ih.1 x)
      | agg op x => exact Nat.succ_le_succ (ih.1 x)
      | aliased name x => exact Nat.succ_le_succ (ih.1 x)
      | _ => exact le_rfl
    · have hleaf : leavesSize [e] = e.size + 1 := by simp [leavesSize]
      have hlink : ∀ a b : ExprNode F, leavesSize (flattenFuel n isAnd (foldFuel n a) ++ flattenFuel n isAnd (foldFuel n b)) ≤
          a.size + b.size + 2 := by
        intro a b
        have ha := ih.2 isAnd (foldFuel n a)
        have hb := ih.2 isAnd (foldFuel n b)
        have ha' := ih.1 a
        have hb' := ih.1 b
        rw [leavesSize_append]
        omega
      cases isAnd with
      | true =>
        cases e with
        | and a b => exact hlink a b
        | _ => exact hleaf.le
      | false =>
        cases e with
        | or a b => exact hlink a b
        | _ => exact hleaf.le

/-! The fuel. -/

theorem fuel_succ (n : ℕ) :
    (∀ e : ExprNode F, 2 * e.size + 1 ≤ n → foldFuel n e = foldFuel (n + 1) e) ∧
      ∀ (isAnd : Bool) (e : ExprNode F), 2 * e.size ≤ n → flattenFuel n isAnd e = flattenFuel (n + 1) isAnd e := by
  induction n with
  | zero =>
    refine ⟨fun e he => absurd he (by omega), fun isAnd e he => ?_⟩
    have := e.size_pos
    omega
  | succ n ih =>
    refine ⟨fun e he => ?_, fun isAnd e he => ?_⟩
    · cases e with
      | cmp op l r =>
        simp only [ExprNode.size] at he
        rw [foldFuel, foldFuel, ih.1 l (by omega), ih.1 r (by omega)]
      | and a b => rw [foldFuel, foldFuel, ih.2 true _ (by omega)]
      | or a b => rw [foldFuel, foldFuel, ih.2 false _ (by omega)]
      | arith op l r =>
        simp only [ExprNode.size] at he
        rw [foldFuel, foldFuel, ih.1 l (by omega), ih.1 r (by omega)]
      | not x =>
        simp only [ExprNode.size] at he
        rw [foldFuel, foldFuel, ih.1 x (by omega)]
      | desc x =>
        simp only [ExprNode.size] at he
        rw [foldFuel, foldFuel, ih.1 x (by omega)]
      | agg op x =>
        simp only [ExprNode.size] at he
        rw [foldFuel, foldFuel, ih.1 x (by omega)]
      | aliased name x =>
        simp only [ExprNode.size] at he
        rw [foldFuel, foldFuel, ih.1 x (by omega)]
      | _ => rfl
    · have hlink : ∀ a : ExprNode F, 2 * a.size + 1 ≤ n →
          flattenFuel n isAnd (foldFuel n a) = flattenFuel (n + 1) isAnd (foldFuel (n + 1) a) := by
        intro a ha
        have hsize := (size_fuel n).1 a
        rw [← ih.1 a ha, ih.2 isAnd _ (by omega)]
      cases isAnd with
      | true =>
        cases e with
        | and a b =>
          simp only [ExprNode.size] at he
          rw [flattenFuel, flattenFuel, hlink a (by omega), hlink b (by omega)]
        | _ => rfl
      | false =>
        cases e with
        | or a b =>
          simp only [ExprNode.size] at he
          rw [flattenFuel, flattenFuel, hlink a (by omega), hlink b (by omega)]
        | _ => rfl

theorem foldFuel_eq {n : ℕ} {e : ExprNode F} (h : 2 * e.size + 1 ≤ n) : foldFuel n e = foldExpr e := by
  induction n, h using Nat.le_induction with
  | base => rfl
  | succ n h ih => rw [← (fuel_succ n).1 e h, ih]

theorem flattenFuel_eq {n : ℕ} {isAnd : Bool} {e : ExprNode F} (h : 2 * e.size ≤ n) :
    flattenFuel n isAnd e = flattenBoolChain isAnd e := by
  induction n, h using Nat.le_induction with
  | base => rfl
  | succ n h ih => rw [← (fuel_succ n).2 isAnd e h, ih]

end Karac.Runtime.Lazy
