import Karac.Typechecker.UnifyEnds

/-! Resolution applies a solution of the substitutions. -/

namespace Karac.Typechecker

open Lib (exists_solution)

/-- What every metavariable stands for. -/
structure Solution where
  ty : ℕ → Ty
  splice : ℕ → List DimArg
  const : ℕ → ConstArg

def ConstArg.apply (θ : Solution) : ConstArg → ConstArg
  | .constVar id => θ.const id
  | c => c

def DimArg.apply (θ : Solution) : DimArg → List DimArg
  | .const c => [resolvedDim (c.apply θ)]
  | .spliceVar id => θ.splice id
  | d => [d]

mutual

/-- The type with its metavariables replaced, at the places resolution reaches. -/
def Ty.apply (θ : Solution) : Ty → Ty
  | .typeVar id => θ.ty id
  | .tuple es => .tuple (applyList θ es)
  | .array e n => .array (e.apply θ) (n.apply θ)
  | .shape dims => .shape (dims.flatMap (DimArg.apply θ))
  | .slice e m => .slice (e.apply θ) m
  | .ref x => .ref (x.apply θ)
  | .mutRef x => .mutRef (x.apply θ)
  | .weak x => .weak (x.apply θ)
  | .pointer m x => .pointer m (x.apply θ)
  | .named name args => .named name (applyList θ args)
  | .function ps r => .function (applyList θ ps) (r.apply θ)
  | .onceFunction ps r => .onceFunction (applyList θ ps) (r.apply θ)
  | t => t

def applyList (θ : Solution) : List Ty → List Ty
  | [] => []
  | t :: ts => t.apply θ :: applyList θ ts

end

/-- A bound metavariable stands for what its type stands for. -/
structure Solves (θ : Solution) (s : Subst) : Prop where
  ty : ∀ id t, s.types id = some t → θ.ty id = t.apply θ
  splice : ∀ id t, s.types id = some t → θ.splice id = spliceDims id (t.apply θ)
  const : ∀ id c, s.consts id = some c → θ.const id = c.apply θ

mutual

theorem apply_congr (θ θ' : Solution) (hc : θ.const = θ'.const) (t : Ty)
    (h : ∀ v ∈ t.metavars, θ.ty v = θ'.ty v ∧ θ.splice v = θ'.splice v) : t.apply θ = t.apply θ' := by
  cases t with
  | typeVar id => exact (h id List.mem_cons_self).1
  | tuple es => exact congrArg Ty.tuple (applyList_congr θ θ' hc es h)
  | array e n =>
    have hn : n.apply θ = n.apply θ' := by
      cases n with
      | constVar id => exact congrFun hc id
      | _ => rfl
    simp only [Ty.apply, apply_congr θ θ' hc e h, hn]
  | slice e m => simp only [Ty.apply, apply_congr θ θ' hc e h]
  | named _ args => simp only [Ty.apply, applyList_congr θ θ' hc args h]
  | function ps r =>
    simp only [Ty.apply, applyList_congr θ θ' hc ps fun v hv => h v (List.mem_append_left _ hv),
      apply_congr θ θ' hc r fun v hv => h v (List.mem_append_right _ hv)]
  | onceFunction ps r =>
    simp only [Ty.apply, applyList_congr θ θ' hc ps fun v hv => h v (List.mem_append_left _ hv),
      apply_congr θ θ' hc r fun v hv => h v (List.mem_append_right _ hv)]
  | ref x => exact congrArg Ty.ref (apply_congr θ θ' hc x h)
  | mutRef x => exact congrArg Ty.mutRef (apply_congr θ θ' hc x h)
  | weak x => exact congrArg Ty.weak (apply_congr θ θ' hc x h)
  | pointer _ x => simp only [Ty.apply, apply_congr θ θ' hc x h]
  | shape dims =>
    have hdims : ∀ d ∈ dims, d.apply θ = d.apply θ' := by
      intro d hd
      cases d with
      | const c =>
        cases c with
        | constVar id => simp only [DimArg.apply, ConstArg.apply, hc]
        | _ => rfl
      | spliceVar id => exact (h id (List.mem_flatMap.mpr ⟨_, hd, List.mem_cons_self⟩)).2
      | _ => rfl
    simp only [Ty.apply, List.flatMap_congr hdims]
  | _ => rfl

theorem applyList_congr (θ θ' : Solution) (hc : θ.const = θ'.const) (ts : List Ty)
    (h : ∀ v ∈ metavarsList ts, θ.ty v = θ'.ty v ∧ θ.splice v = θ'.splice v) : applyList θ ts = applyList θ' ts := by
  cases ts with
  | nil => rfl
  | cons t ts =>
    simp only [applyList, apply_congr θ θ' hc t fun v hv => h v (List.mem_append_left _ hv),
      applyList_congr θ θ' hc ts fun v hv => h v (List.mem_append_right _ hv)]

end

/-- The solution a resolution computes: a metavariable that is not bound stands for the parameter it is named after. -/
structure Resolves (names : MetavarNames) (s : Subst) (θ : Solution) : Prop extends Solves θ s where
  unboundTy : ∀ id, s.types id = none → θ.ty id = (names.types id).elim (.typeVar id) .typeParam
  unboundSplice : ∀ id, s.types id = none → θ.splice id = [(names.types id).elim (.spliceVar id) .splice]
  unboundConst : ∀ id, s.consts id = none → θ.const id = (names.consts id).elim (.constVar id) .constParam

theorem exists_resolves (names : MetavarNames) {s : Subst} (h : s.Acyclic) : ∃ θ, Resolves names s θ := by
  obtain ⟨c, hc⟩ := exists_solution h.consts
    (fun f c => ConstArg.apply ⟨fun id => .typeVar id, fun _ => [], f⟩ c)
    (fun f g c hfg => by
      cases c with
      | constVar id => exact hfg id List.mem_cons_self
      | _ => rfl)
    (fun id => (names.consts id).elim (.constVar id) .constParam)
  let θ (f : ℕ → Ty) : Solution := ⟨f, fun id => (s.types id).elim [(names.types id).elim (.spliceVar id) .splice]
    fun _ => spliceDims id (f id), c⟩
  obtain ⟨f, hf⟩ := exists_solution h.types (fun f t => t.apply (θ f))
    (fun f g t hfg => apply_congr (θ f) (θ g) rfl t fun v hv => ⟨hfg v hv, by simp only [θ, hfg v hv]⟩)
    (fun id => (names.types id).elim (.typeVar id) .typeParam)
  refine ⟨θ f, ⟨?_, ?_, ?_⟩, ?_, ?_, ?_⟩
  · intro id t hid
    change f id = _
    rw [hf id, hid]
    rfl
  · intro id t hid
    change (s.types id).elim _ _ = _
    rw [hid, Option.elim_some, hf id, hid]
    rfl
  · intro id k hid
    change c id = _
    rw [hc id, hid, Option.elim_some]
    cases k <;> rfl
  · intro id hid
    change f id = _
    rw [hf id, hid]
    rfl
  · intro id hid
    change (s.types id).elim _ _ = _
    rw [hid]
    rfl
  · intro id hid
    change c id = _
    rw [hc id, hid]
    rfl

/-! Resolution ends with the solution applied. -/

open Filter in
theorem eventually_of_succ {P : ℕ → Prop} (h : ∀ᶠ n in atTop, P (n + 1)) : ∀ᶠ n in atTop, P n := by
  obtain ⟨n, hn⟩ := eventually_atTop.mp h
  refine eventually_atTop.mpr ⟨n + 1, fun m hm => ?_⟩
  obtain ⟨k, rfl⟩ : ∃ k, m = k + 1 := ⟨m - 1, by omega⟩
  exact hn k (by omega)

section

open Filter

variable {names : MetavarNames} {s : Subst} {θ : Solution}

theorem resolveConstArg_eq (hθ : Resolves names s θ) (h : s.Acyclic) (c : ConstArg) :
    ∀ᶠ n in atTop, resolveConstArg names n s.consts c = some (c.apply θ) := by
  obtain ⟨ρ, hρ⟩ := exists_constWeight h.consts
  induction hw : c.weight ρ using Nat.strong_induction_on generalizing c with
  | _ w ih =>
    subst hw
    apply eventually_of_succ
    cases c with
    | constVar id =>
      simp only [resolveConstArg, ConstArg.apply]
      cases hid : s.consts id with
      | none => simp [hθ.unboundConst id hid]
      | some c =>
        rw [hθ.const id c hid]
        exact ih _ ((hρ id c hid).trans (Nat.lt_succ_self _)) c rfl
    | _ => exact Eventually.of_forall fun _ => rfl

/-- The members of a list resolve, each on its own. -/
theorem mapM_eq {α β : Type} {f : ℕ → α → Option β} {g : α → β} {xs : List α}
    (h : ∀ x ∈ xs, ∀ᶠ n in atTop, f n x = some (g x)) : ∀ᶠ n in atTop, xs.mapM (f n) = some (xs.map g) := by
  induction xs with
  | nil => exact Eventually.of_forall fun _ => rfl
  | cons x xs ih =>
    filter_upwards [h x List.mem_cons_self, ih fun y hy => h y (List.mem_cons_of_mem x hy)] with n hx hxs
    simp [List.mapM_cons, hx, hxs]

theorem applyList_eq_map (θ : Solution) (ts : List Ty) : applyList θ ts = ts.map (Ty.apply θ) := by
  induction ts with
  | nil => rfl
  | cons t ts ih => simp [applyList, ih]

theorem weight_le_weightList {ρ : ℕ → ℕ} {ts : List Ty} {t : Ty} (ht : t ∈ ts) : t.weight ρ ≤ weightList ρ ts := by
  induction ts with
  | nil => cases ht
  | cons u ts ih =>
    simp only [weightList]
    rcases List.mem_cons.mp ht with rfl | hm
    · exact Nat.le_add_right _ _
    · exact (ih hm).trans (Nat.le_add_left _ _)

/-- What `resolveTypeVars` does to a dim. -/
def resolveDim (names : MetavarNames) (n : ℕ) (s : Subst) : DimArg → Option (List DimArg)
  | .const c => (resolveConstArg names n s.consts c).map fun c => [resolvedDim c]
  | .dynamic => some [.dynamic]
  | .splice name => some [.splice name]
  | .spliceVar id =>
    match s.types id with
    | some bound => (resolveTypeVars names n s bound).map (spliceDims id)
    | none => some [(names.types id).elim (.spliceVar id) .splice]

theorem resolveTypeVars_eq (hθ : Resolves names s θ) (h : s.Acyclic) (t : Ty) :
    ∀ᶠ n in atTop, resolveTypeVars names n s t = some (t.apply θ) := by
  obtain ⟨ρ, hρ⟩ := exists_weighs h
  induction hw : t.weight ρ using Nat.strong_induction_on generalizing t with
  | _ w ih =>
    subst hw
    have lists : ∀ ts : List Ty, weightList ρ ts < t.weight ρ →
        ∀ᶠ n in atTop, ts.mapM (resolveTypeVars names n s) = some (applyList θ ts) := by
      intro ts hts
      rw [applyList_eq_map]
      exact mapM_eq fun x hx => ih _ ((weight_le_weightList hx).trans_lt hts) x rfl
    apply eventually_of_succ
    cases t with
    | typeVar id =>
      simp only [resolveTypeVars, Ty.apply]
      cases hid : s.types id with
      | none => simp [hθ.unboundTy id hid]
      | some u =>
        rw [hθ.ty id u hid]
        exact ih _ (hρ id u hid) u rfl
    | tuple es =>
      filter_upwards [lists es (Nat.lt_succ_self _)] with n hn
      simp [resolveTypeVars, hn, Ty.apply]
    | array e size =>
      filter_upwards [ih _ (Nat.lt_succ_self _) e rfl, resolveConstArg_eq hθ h size] with n he hn
      simp [resolveTypeVars, he, hn, Ty.apply]
    | shape dims =>
      have hdim : ∀ d ∈ dims, ∀ᶠ n in atTop, resolveDim names n s d = some (d.apply θ) := by
        intro d hd
        cases d with
        | const c =>
          filter_upwards [resolveConstArg_eq hθ h c] with n hn
          simp [resolveDim, hn, DimArg.apply]
        | spliceVar id =>
          cases hid : s.types id with
          | none => simp [resolveDim, hid, DimArg.apply, hθ.unboundSplice id hid]
          | some u =>
            have hu : u.weight ρ < (Ty.shape dims).weight ρ := (hρ id u hid).trans (spliceVar_weight_lt ρ hd)
            filter_upwards [ih _ hu u rfl] with n hn
            simp [resolveDim, hid, hn, DimArg.apply, hθ.splice id u hid]
        | _ => exact Eventually.of_forall fun _ => rfl
      filter_upwards [mapM_eq hdim] with n hn
      have hlist : resolveTypeVars names (n + 1) s (.shape dims) =
          (dims.mapM (resolveDim names n s)).map fun ds => .shape ds.flatten := rfl
      rw [hlist, hn, Option.map_some, Ty.apply, List.flatMap_def]
    | slice e m =>
      filter_upwards [ih _ (Nat.lt_succ_self _) e rfl] with n hn
      simp [resolveTypeVars, hn, Ty.apply]
    | ref x =>
      filter_upwards [ih _ (Nat.lt_succ_self _) x rfl] with n hn
      simp [resolveTypeVars, hn, Ty.apply]
    | mutRef x =>
      filter_upwards [ih _ (Nat.lt_succ_self _) x rfl] with n hn
      simp [resolveTypeVars, hn, Ty.apply]
    | weak x =>
      filter_upwards [ih _ (Nat.lt_succ_self _) x rfl] with n hn
      simp [resolveTypeVars, hn, Ty.apply]
    | pointer m x =>
      filter_upwards [ih _ (Nat.lt_succ_self _) x rfl] with n hn
      simp [resolveTypeVars, hn, Ty.apply]
    | named name args =>
      filter_upwards [lists args (Nat.lt_succ_self _)] with n hn
      simp [resolveTypeVars, hn, Ty.apply]
    | function ps r =>
      have hps : weightList ρ ps < (Ty.function ps r).weight ρ := by simp only [Ty.weight]; omega
      have hr : r.weight ρ < (Ty.function ps r).weight ρ := by simp only [Ty.weight]; omega
      filter_upwards [lists ps hps, ih _ hr r rfl] with n hn hn'
      simp [resolveTypeVars, hn, hn', Ty.apply]
    | onceFunction ps r =>
      have hps : weightList ρ ps < (Ty.onceFunction ps r).weight ρ := by simp only [Ty.weight]; omega
      have hr : r.weight ρ < (Ty.onceFunction ps r).weight ρ := by simp only [Ty.weight]; omega
      filter_upwards [lists ps hps, ih _ hr r rfl] with n hn hn'
      simp [resolveTypeVars, hn, hn', Ty.apply]
    | _ => exact Eventually.of_forall fun _ => rfl

end

/-! Following a chain changes nothing under a solution. -/

theorem apply_top {θ : Solution} {s : Subst} (hθ : Solves θ s) {n : ℕ} {t t' : Ty}
    (h : resolveTypeVarTop n s t = .ok t') : t'.apply θ = t.apply θ := by
  induction n generalizing t with
  | zero => cases h
  | succ n ih =>
    cases t with
    | typeVar id =>
      simp only [resolveTypeVarTop] at h
      split at h
      · rename_i u hu
        rw [ih h, Ty.apply, hθ.ty id u hu]
      · cases h
        rfl
    | _ =>
      cases h
      rfl

theorem apply_constTop {θ : Solution} {κ : ConstSubst} (hθ : ∀ id c, κ id = some c → θ.const id = c.apply θ) {n : ℕ}
    {c c' : ConstArg} (h : resolveConstVarTop n κ c = .ok c') : c'.apply θ = c.apply θ := by
  induction n generalizing c with
  | zero => cases h
  | succ n ih =>
    cases c with
    | constVar id =>
      simp only [resolveConstVarTop] at h
      split at h
      · rename_i u hu
        rw [ih h, ConstArg.apply, hθ id u hu]
      · cases h
        rfl
    | _ =>
      cases h
      rfl

end Karac.Typechecker
