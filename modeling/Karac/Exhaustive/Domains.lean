import Karac.Exhaustive.Values

/-! The finite domain of a refined integer type is exact: a scalar of the base type satisfies the
predicate if and only if it lies in the interval. -/

namespace Karac.Exhaustive

variable {env : TypeEnv}

/-- `x` respects the running bounds. -/
def InBounds (b : Option ℤ × Option ℤ) (x : ℤ) : Prop :=
  (∀ lo, b.1 = some lo → lo ≤ x) ∧ ∀ hi, b.2 = some hi → x ≤ hi

theorem evalConst_of_const {e : PredExpr} {k : ℤ} (h : refinementConstInt env e = some k) (x : ℤ) :
    evalConst env x e = some k := by
  cases e with
  | integer n => exact h
  | identifier name => exact h
  | neg e =>
    cases e with
    | integer n =>
      obtain ⟨-, h⟩ := Option.ite_none_left_eq_some.mp h
      exact h
    | _ => exact absurd h (by simp [refinementConstInt])
  | path segments =>
    match segments, h with
    | [name], h => exact h
    | [], h => exact absurd h (by simp [refinementConstInt])
    | _ :: _ :: _, h => exact absurd h (by simp [refinementConstInt])
  | _ => exact absurd h (by simp [refinementConstInt])

theorem isSelf_iff {e : PredExpr} : isSelf e = true ↔ e = .selfValue := by
  cases e <;> simp [isSelf]

/-- An oriented bound says what the comparison says. -/
theorem orientedBound_spec {op : BinOp} {k : ℤ} {p : ℤ × Bool} (h : orientedBound op k = some p) (x : ℤ) :
    ∃ t, evalComparison op x k = some t ∧ (t = true ↔ if p.2 then p.1 ≤ x else x ≤ p.1) := by
  cases op with
  | gtEq =>
    obtain rfl := Option.some.inj h
    exact ⟨decide (x ≥ k), rfl, by simp⟩
  | gt =>
    obtain ⟨-, h⟩ := Option.ite_none_left_eq_some.mp h
    obtain rfl := Option.some.inj h
    exact ⟨decide (x > k), rfl, by simp [Int.add_one_le_iff]⟩
  | ltEq =>
    obtain rfl := Option.some.inj h
    exact ⟨decide (x ≤ k), rfl, by simp⟩
  | lt =>
    obtain ⟨-, h⟩ := Option.ite_none_left_eq_some.mp h
    obtain rfl := Option.some.inj h
    exact ⟨decide (x < k), rfl, by simp [Int.le_sub_one_iff]⟩
  | and => exact absurd h (by simp [orientedBound])
  | other => exact absurd h (by simp [orientedBound])

theorem evalComparison_flip {op op' : BinOp} (h : flipComparison op = some op') (a b : ℤ) :
    evalComparison op a b = evalComparison op' b a := by
  cases op <;> simp only [flipComparison, reduceCtorEq, Option.some.injEq] at h <;> subst h <;> rfl

theorem comparisonBound_spec {op : BinOp} {left right : PredExpr} {p : ℤ × Bool}
    (h : comparisonBound env op left right = some p) (x : ℤ) :
    ∃ t, evalPred env x (.binary op left right) = some t ∧
      (t = true ↔ if p.2 then p.1 ≤ x else x ≤ p.1) := by
  have hne : op ≠ .and := by
    rintro rfl
    unfold comparisonBound at h
    split_ifs at h
    · obtain ⟨k, -, h⟩ := Option.bind_eq_some_iff.mp h
      exact absurd h (by simp [orientedBound])
    · exact absurd h (by simp [flipComparison])
  have heval : ∀ a b, evalConst env x left = some a → evalConst env x right = some b →
      evalPred env x (.binary op left right) = evalComparison op a b := by
    intro a b ha hb
    cases op <;> simp_all [evalPred]
  unfold comparisonBound at h
  split_ifs at h with hl hr
  · obtain ⟨k, hk, h⟩ := Option.bind_eq_some_iff.mp h
    have hself := isSelf_iff.mp hl
    rw [heval x k (by rw [hself]; rfl) (evalConst_of_const hk x)]
    exact orientedBound_spec h x
  · obtain ⟨op', hop, h⟩ := Option.bind_eq_some_iff.mp h
    obtain ⟨k, hk, h⟩ := Option.bind_eq_some_iff.mp h
    have hself := isSelf_iff.mp hr
    rw [heval k x (evalConst_of_const hk x) (by rw [hself]; rfl), evalComparison_flip hop]
    exact orientedBound_spec h x

/-- Collecting tightens the bounds by exactly the predicate. -/
theorem collectRefinementBounds_spec {pred : PredExpr} (x : ℤ) : ∀ {b b' : Option ℤ × Option ℤ},
    collectRefinementBounds env pred b = some b' →
    ∃ t, evalPred env x pred = some t ∧ (InBounds b' x ↔ InBounds b x ∧ t = true) := by
  induction pred with
  | binary op left right ihl ihr =>
    intro b b' h
    cases hop : decide (op = .and) with
    | true =>
      obtain rfl := of_decide_eq_true hop
      obtain ⟨c, hc, h⟩ := Option.bind_eq_some_iff.mp h
      obtain ⟨t, ht, hiff⟩ := ihl hc
      obtain ⟨u, hu, hiff'⟩ := ihr h
      refine ⟨t && u, by simp [evalPred, ht, hu], ?_⟩
      rw [hiff', hiff, Bool.and_eq_true, and_assoc]
    | false =>
      have hne : op ≠ .and := of_decide_eq_false hop
      have hstep : collectRefinementBounds env (.binary op left right) b =
          (comparisonBound env op left right).map fun p =>
            if p.2 then (some (b.1.elim p.1 (max · p.1)), b.2)
            else (b.1, some (b.2.elim p.1 (min · p.1))) := by
        cases op <;> first | exact absurd rfl hne | rfl
      rw [hstep] at h
      obtain ⟨p, hp, rfl⟩ := Option.map_eq_some_iff.mp h
      obtain ⟨t, ht, hiff⟩ := comparisonBound_spec hp x
      refine ⟨t, ht, ?_⟩
      rw [hiff]
      obtain ⟨lo, hi⟩ := b
      cases hp2 : p.2 <;> cases lo <;> cases hi <;> simp [InBounds] <;> tauto
  | _ =>
    intro b b' h
    exact absurd h (by simp [collectRefinementBounds])

/-- The bounds of a predicate are exact. -/
theorem refinementPredBounds_spec {pred : PredExpr} {lo hi : ℤ}
    (h : refinementPredBounds env pred = some (lo, hi)) (x : ℤ) :
    evalPred env x pred = some (decide (lo ≤ x ∧ x ≤ hi)) := by
  unfold refinementPredBounds at h
  split at h
  · rename_i l h' hc
    obtain ⟨t, ht, hiff⟩ := collectRefinementBounds_spec x hc
    obtain ⟨rfl, rfl⟩ := Prod.mk.inj (Option.some.inj h)
    rw [ht]
    have : t = true ↔ l ≤ x ∧ x ≤ h' := by simpa [InBounds] using hiff.symm
    cases t <;> simp_all
  · exact absurd h (by simp)

/-- What a finite refinement domain is made of. -/
theorem refinementFiniteDomain_spec {ty : Ty} {lo hi : ℤ}
    (h : refinementFiniteDomain env ty = some (lo, hi)) :
    ∃ name base pred dmin dmax a b, refinementBase env ty = some (name, base) ∧
      intDomain base = some (dmin, dmax) ∧ env.refinementPredicates name = some pred ∧
      refinementPredBounds env pred = some (a, b) ∧ lo = max a dmin ∧ hi = min b dmax ∧ lo ≤ hi := by
  unfold refinementFiniteDomain at h
  simp only [bind, Option.bind_eq_some_iff, Prod.exists] at h
  obtain ⟨name, base, hb, dmin, dmax, hd, pred, hp, a, b, hab, h⟩ := h
  obtain ⟨hcond, h⟩ := Option.ite_none_left_eq_some.mp h
  obtain ⟨rfl, rfl⟩ := Prod.mk.inj (Option.some.inj h)
  exact ⟨name, base, pred, dmin, dmax, a, b, hb, hd, hp, hab, rfl, rfl, not_lt.mp fun hc => hcond (Or.inl hc)⟩

theorem intRangeOf_eq_intDomain {ty : Ty} {d e : ℤ × ℤ} (h : intDomain ty = some d)
    (h' : intRangeOf ty = some e) : e = d := by
  cases ty with
  | int s =>
    rw [intRangeOf, show intSizeDomain s = some d from h, Option.some_or] at h'
    exact (Option.some.inj h').symm
  | uint s =>
    rw [intRangeOf, show uintSizeDomain s = some d from h, Option.some_or] at h'
    exact (Option.some.inj h').symm
  | char => simp [intRangeOf] at h'
  | _ => simp [intDomain] at h

/-- A value of an integer or character type is a scalar of its domain. -/
theorem HasType.scalar {v : Value} {ty : Ty} {lo hi : ℤ} (h : HasType env v ty)
    (hd : intDomain ty = some (lo, hi)) : ∃ x, scalarKey v = some x ∧ lo ≤ x ∧ x ≤ hi := by
  cases h with
  | int hty hlo hhi =>
    obtain ⟨rfl, rfl⟩ := Prod.mk.inj (intRangeOf_eq_intDomain hd hty)
    exact ⟨_, rfl, hlo, hhi⟩
  | char hlo hhi =>
    obtain ⟨rfl, rfl⟩ := Prod.mk.inj (Option.some.inj hd)
    exact ⟨_, rfl, hlo, hhi⟩
  | opaqueTyped h => cases ty <;> simp_all [intDomain, opaqueTy]
  | _ => exact absurd hd (by simp [intDomain])

/-- A value of a distinct type is a value of its base. -/
theorem HasType.of_distinct {v : Value} {name : String} {args : List Ty} {base : Ty}
    (h : HasType env v (.named name args)) (hbase : env.distinctBases name = some base) :
    HasType env v base ∧ RespectsPred env name v := by
  have honly := env.distinct_only name (by rw [hbase]; rfl)
  cases h with
  | int hty => exact absurd hty (by simp [intRangeOf])
  | vec hname => exact absurd (beq_iff_eq.mp hname) honly.2.2
  | enum hinfo => rw [honly.1] at hinfo; exact absurd hinfo (by simp)
  | struct _ _ hinfo => rw [honly.2.1] at hinfo; exact absurd hinfo (by simp)
  | opaqueTyped h => simp [opaqueTy, hbase] at h
  | distinct hbase' hv hp =>
    obtain rfl := Option.some.inj (hbase.symm.trans hbase')
    exact ⟨hv, hp⟩

theorem HasType.of_refinement {v : Value} {name : String} {base : Ty}
    (h : HasType env v (.refinement name base)) : HasType env v base ∧ RespectsPred env name v := by
  cases h with
  | int hty => exact absurd hty (by simp [intRangeOf])
  | opaqueTyped h => simp [opaqueTy] at h
  | refinement hv hp => exact ⟨hv, hp⟩

/-- Every point of the domain is a value of the type. -/
theorem hasType_of_intDomain {ty : Ty} {lo hi x : ℤ} (hd : intDomain ty = some (lo, hi)) (hlo : lo ≤ x)
    (hhi : x ≤ hi) : ∃ v, scalarKey v = some x ∧ HasType env v ty := by
  cases ty with
  | char =>
    obtain ⟨rfl, rfl⟩ := Prod.mk.inj (Option.some.inj hd)
    exact ⟨.char x, rfl, HasType.char hlo hhi⟩
  | int s =>
    refine ⟨.int x, rfl, @HasType.int env x lo hi _ ?_ hlo hhi⟩
    rw [intRangeOf, show intSizeDomain s = some (lo, hi) from hd, Option.some_or]
  | uint s =>
    refine ⟨.int x, rfl, @HasType.int env x lo hi _ ?_ hlo hhi⟩
    rw [intRangeOf, show uintSizeDomain s = some (lo, hi) from hd, Option.some_or]
  | _ => exact absurd hd (by simp [intDomain])

end Karac.Exhaustive
