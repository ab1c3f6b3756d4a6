import Karac.Typechecker.UnifySettles

/-! Calls end on well-founded substitutions. -/

namespace Karac.Typechecker

open Lib (Mentions exists_weight)

/-- With enough fuel the computation ends, and more fuel does not matter. -/
def Ends {α : Type} (X : ℕ → Except Halt α) : Prop := ∃ v n, v ≠ .error .fuel ∧ ∀ m, n ≤ m → X m = v

section

variable {α β : Type} {X : ℕ → Except Halt α}

theorem Ends.const {v : Except Halt α} (hv : v ≠ .error .fuel) : Ends fun _ => v := ⟨v, 0, hv, fun _ _ => rfl⟩

theorem Ends.ok (a : α) : Ends fun _ => (.ok a : Except Halt α) := .const nofun

theorem Ends.bind {F : ℕ → α → Except Halt β} (h : Ends X) (hF : ∀ a n, X n = .ok a → Ends fun m => F m a) :
    Ends fun n => X n >>= F n := by
  obtain ⟨v, n, hv, hn⟩ := h
  cases v with
  | error e =>
    have he : (.error e : Except Halt β) ≠ .error .fuel := by
      intro he
      cases he
      exact hv rfl
    refine ⟨.error e, n, he, fun m hm => ?_⟩
    change X m >>= F m = _
    rw [hn m hm]
    rfl
  | ok a =>
    obtain ⟨w, k, hw, hk⟩ := hF a n (hn n le_rfl)
    refine ⟨w, max n k, hw, fun m hm => ?_⟩
    change X m >>= F m = _
    rw [hn m ((le_max_left n k).trans hm)]
    exact hk m ((le_max_right n k).trans hm)

theorem Ends.ite {p : Prop} [Decidable p] {Y : ℕ → Except Halt α} (h : p → Ends X) (h' : ¬ p → Ends Y) :
    Ends fun n => if p then X n else Y n := by
  by_cases hp : p
  · simpa only [if_pos hp] using h hp
  · simpa only [if_neg hp] using h' hp

theorem Ends.succ (h : Ends fun n => X (n + 1)) : Ends X := by
  obtain ⟨v, n, hv, hn⟩ := h
  refine ⟨v, n + 1, hv, fun m hm => ?_⟩
  obtain ⟨k, rfl⟩ : ∃ k, m = k + 1 := ⟨m - 1, by omega⟩
  exact hn k (by omega)

end

def dimWeight (ρ : ℕ → ℕ) : DimArg → ℕ
  | .spliceVar id => ρ id + 1
  | _ => 1

mutual

/-- The size of a type when the metavariables have the sizes `ρ`. -/
def Ty.weight (ρ : ℕ → ℕ) : Ty → ℕ
  | .typeVar id => ρ id
  | .tuple es => weightList ρ es + 1
  | .array e _ => e.weight ρ + 1
  | .slice e _ => e.weight ρ + 1
  | .named _ args => weightList ρ args + 1
  | .function ps r => weightList ρ ps + r.weight ρ + 1
  | .onceFunction ps r => weightList ρ ps + r.weight ρ + 1
  | .ref x => x.weight ρ + 1
  | .mutRef x => x.weight ρ + 1
  | .weak x => x.weight ρ + 1
  | .pointer _ x => x.weight ρ + 1
  | .shape dims => (dims.map (dimWeight ρ)).sum + 1
  | _ => 1

def weightList (ρ : ℕ → ℕ) : List Ty → ℕ
  | [] => 0
  | t :: ts => t.weight ρ + weightList ρ ts

end

mutual

theorem weight_congr (f g : ℕ → ℕ) (t : Ty) (h : ∀ v ∈ t.metavars, f v = g v) : t.weight f = t.weight g := by
  cases t with
  | typeVar id => exact h id List.mem_cons_self
  | tuple es => exact congrArg (· + 1) (weightList_congr f g es h)
  | array e _ => exact congrArg (· + 1) (weight_congr f g e h)
  | slice e _ => exact congrArg (· + 1) (weight_congr f g e h)
  | named _ args => exact congrArg (· + 1) (weightList_congr f g args h)
  | function ps r =>
    simp only [Ty.weight, weightList_congr f g ps fun v hv => h v (List.mem_append_left _ hv),
      weight_congr f g r fun v hv => h v (List.mem_append_right _ hv)]
  | onceFunction ps r =>
    simp only [Ty.weight, weightList_congr f g ps fun v hv => h v (List.mem_append_left _ hv),
      weight_congr f g r fun v hv => h v (List.mem_append_right _ hv)]
  | ref x => exact congrArg (· + 1) (weight_congr f g x h)
  | mutRef x => exact congrArg (· + 1) (weight_congr f g x h)
  | weak x => exact congrArg (· + 1) (weight_congr f g x h)
  | pointer _ x => exact congrArg (· + 1) (weight_congr f g x h)
  | shape dims =>
    simp only [Ty.weight]
    congr 2
    apply List.map_congr_left
    intro d hd
    cases d with
    | spliceVar id => exact congrArg (· + 1) (h id (List.mem_flatMap.mpr ⟨_, hd, List.mem_cons_self⟩))
    | _ => rfl
  | _ => rfl

theorem weightList_congr (f g : ℕ → ℕ) (ts : List Ty) (h : ∀ v ∈ metavarsList ts, f v = g v) :
    weightList f ts = weightList g ts := by
  cases ts with
  | nil => rfl
  | cons t ts =>
    simp only [weightList, weight_congr f g t fun v hv => h v (List.mem_append_left _ hv),
      weightList_congr f g ts fun v hv => h v (List.mem_append_right _ hv)]

end

/-- Every binding is lighter than its metavariable. -/
def Weighs (ρ : ℕ → ℕ) (s : Subst) : Prop := ∀ id t, s.types id = some t → t.weight ρ < ρ id

theorem exists_weighs {s : Subst} (h : s.Acyclic) : ∃ ρ, Weighs ρ s :=
  exists_weight h.types Ty.weight weight_congr

section

variable {s : Subst} {ρ : ℕ → ℕ} (hρ : Weighs ρ s)

include hρ

theorem weight_top {n : ℕ} {t t' : Ty} (h : resolveTypeVarTop n s t = .ok t') : t'.weight ρ ≤ t.weight ρ := by
  induction n generalizing t with
  | zero => cases h
  | succ n ih =>
    cases t with
    | typeVar id =>
      simp only [resolveTypeVarTop] at h
      split at h
      · rename_i u hu
        exact (ih h).trans (hρ id u hu).le
      · cases h
        exact le_rfl
    | _ =>
      cases h
      exact le_rfl

theorem ends_top (t : Ty) : Ends fun n => resolveTypeVarTop n s t := by
  induction hw : t.weight ρ using Nat.strong_induction_on generalizing t with
  | _ w ih =>
    subst hw
    apply Ends.succ
    cases t with
    | typeVar id =>
      simp only [resolveTypeVarTop]
      cases hid : s.types id with
      | none => exact .ok _
      | some u => exact ih _ (hρ id u hid) u rfl
    | _ => exact .ok _

end

/-! The const side. -/

def ConstArg.weight (ρ : ℕ → ℕ) : ConstArg → ℕ
  | .constVar id => ρ id + 1
  | _ => 0

theorem exists_constWeight {κ : ConstSubst} (h : WellFounded (Mentions constVarsOf κ)) :
    ∃ ρ : ℕ → ℕ, ∀ id c, κ id = some c → c.weight ρ < ρ id := by
  apply exists_weight h ConstArg.weight
  intro f g c hfg
  cases c with
  | constVar id => exact congrArg (· + 1) (hfg id List.mem_cons_self)
  | _ => rfl

section

variable {κ : ConstSubst} {ρ : ℕ → ℕ} (hρ : ∀ id c, κ id = some c → c.weight ρ < ρ id)

include hρ

theorem weight_constTop {n : ℕ} {c c' : ConstArg} (h : resolveConstVarTop n κ c = .ok c') :
    c'.weight ρ ≤ c.weight ρ := by
  induction n generalizing c with
  | zero => cases h
  | succ n ih =>
    cases c with
    | constVar id =>
      simp only [resolveConstVarTop] at h
      split at h
      · rename_i u hu
        exact (ih h).trans ((hρ id u hu).le.trans (Nat.le_succ _))
      · cases h
        exact le_rfl
    | _ =>
      cases h
      exact le_rfl

theorem ends_constTop (c : ConstArg) : Ends fun n => resolveConstVarTop n κ c := by
  induction hw : c.weight ρ using Nat.strong_induction_on generalizing c with
  | _ w ih =>
    subst hw
    apply Ends.succ
    cases c with
    | constVar id =>
      simp only [resolveConstVarTop]
      cases hid : κ id with
      | none => exact .ok _
      | some u => exact ih _ ((hρ id u hid).trans (Nat.lt_succ_self _)) u rfl
    | _ => exact .ok _

theorem ends_constVar {id : ℕ} {other : ConstArg}
    (ih : ∀ a b, a.weight ρ + b.weight ρ < ρ id + 1 + other.weight ρ → Ends fun n => unifyConstArgs n κ a b) :
    Ends fun n => unifyConstVar (resolveConstVarTop n) (unifyConstArgs n) κ id other := by
  apply (ends_constTop hρ other).bind
  intro c n hc
  have hle := weight_constTop hρ hc
  cases hid : κ id with
  | none => exact .ite (fun _ => .ok _) fun _ => .ok _
  | some bound =>
    have hlt := hρ id bound hid
    have hrec := ih bound c (by omega)
    cases bound with
    | dynamicDim => exact .ite (fun _ => .ok _) fun _ => .ok _
    | _ => exact hrec

theorem ends_constArgs (a b : ConstArg) : Ends fun n => unifyConstArgs n κ a b := by
  induction hw : a.weight ρ + b.weight ρ using Nat.strong_induction_on generalizing a b with
  | _ w ih =>
    subst hw
    apply Ends.succ
    cases a with
    | constVar id =>
      apply Ends.ite (fun _ => .ok _)
      intro _
      exact ends_constVar hρ fun x y hxy => ih _ hxy x y rfl
    | _ =>
      cases b with
      | constVar id =>
        apply ends_constVar hρ
        intro x y hxy
        refine ih _ ?_ x y rfl
        simp only [ConstArg.weight] at hxy ⊢
        omega
      | _ => exact .ok _

end

theorem spliceVar_weight_lt (ρ : ℕ → ℕ) {ds : List DimArg} {id : ℕ} (h : .spliceVar id ∈ ds) :
    (Ty.typeVar id).weight ρ < (Ty.shape ds).weight ρ := by
  have hle : dimWeight ρ (.spliceVar id) ≤ (ds.map (dimWeight ρ)).sum :=
    List.single_le_sum (fun _ _ => Nat.zero_le _) _ (List.mem_map_of_mem h)
  simp only [dimWeight] at hle
  simp only [Ty.weight]
  omega

theorem shape_weight_slice (ρ : ℕ → ℕ) (ds : List DimArg) (i j : ℕ) :
    (Ty.shape ((ds.take i).drop j)).weight ρ ≤ (Ty.shape ds).weight ρ := by
  have hsub : ((ds.take i).drop j).Sublist ds := (List.drop_sublist j _).trans (List.take_sublist i ds)
  simp only [Ty.weight]
  exact Nat.add_le_add_right ((hsub.map _).sum_le_sum fun _ _ => Nat.zero_le _) 1

/-! The calls of `unify_types`: those that leave the types as they are come with less weight. -/

section

variable {table : StdlibVariance} {V : Finset ℕ} {s₀ : Subst} {ρ : ℕ → ℕ} {w : ℕ}
  (ih : ∀ s a b, Settles V s₀ s → a.Within V → b.Within V → a.weight ρ + b.weight ρ < w →
    Ends fun n => unifyChecked table n s a b)

include ih

theorem ends_allPairs {s : Subst} (hs : Settles V s₀ s) (xs ys : List Ty) (hx : ∀ x ∈ xs, x.Within V)
    (hy : ∀ y ∈ ys, y.Within V) (hw : weightList ρ xs + weightList ρ ys < w) :
    Ends fun n => allPairs (unifyChecked table n) s xs ys := by
  induction xs generalizing s ys with
  | nil => exact .ok _
  | cons x xs ihx =>
    cases ys with
    | nil => exact .ok _
    | cons y ys =>
      simp only [weightList] at hw
      have hxw := hx x List.mem_cons_self
      have hyw := hy y List.mem_cons_self
      apply (ih s x y hs hxw hyw (by omega)).bind
      intro r n hr
      have hs' := hs.trans (moves_unifyChecked n s x y hs.ready hxw hyw r.1 r.2 hr)
      refine .ite (fun _ => ?_) fun _ => .ok _
      exact ihx hs' ys (fun x hm => hx x (List.mem_cons_of_mem _ hm)) (fun y hm => hy y (List.mem_cons_of_mem _ hm))
        (by omega)

omit ih in
theorem ends_dim {s : Subst} (hs : Ready V s) (a b : DimArg) : Ends fun n => (checkedCalls table n).dim s a b := by
  obtain ⟨σ, hσ⟩ := exists_constWeight hs.acyclic.consts
  apply (ends_constArgs hσ a.toConst b.toConst).bind
  intro r n hr
  exact .ok _

omit ih in
theorem ends_allDims {s : Subst} (hs : Ready V s) (xs ys : List DimArg) :
    Ends fun n => allDims (checkedCalls table n) s xs ys := by
  induction xs generalizing s ys with
  | nil => exact .ok _
  | cons x xs ihx =>
    cases ys with
    | nil => exact .ok _
    | cons y ys =>
      apply (ends_dim hs x y).bind
      intro r n hr
      refine .ite (fun _ => ?_) fun _ => .ok _
      exact ihx (moves_dim hs x y r.1 r.2 hr).ready ys

theorem ends_unifySpliced {s : Subst} (hs : Settles V s₀ s) (x y : List DimArg) (pos : ℕ)
    (hx : (Ty.shape x).Within V) (hy : (Ty.shape y).Within V)
    (hw : (Ty.shape x).weight ρ + (Ty.shape y).weight ρ ≤ w) :
    Ends fun n => unifySpliced (checkedCalls table n) s x pos y := by
  unfold unifySpliced
  refine .ite (fun _ => .ok _) fun _ => ?_
  apply (ends_allDims hs.ready _ _).bind
  intro r n hr
  have hs' := hs.trans (moves_allDims hs.ready _ _ r.1 r.2 hr)
  refine .ite (fun _ => .ok _) fun _ => ?_
  apply (ends_allDims hs'.ready _ _).bind
  intro r' n' hr'
  have hs'' := hs'.trans (moves_allDims hs'.ready _ _ r'.1 r'.2 hr')
  refine .ite (fun _ => .ok _) fun _ => ?_
  split
  · rename_i id hid
    apply ih _ _ _ hs''
    · exact within_spliceVar hx (List.mem_of_getElem? hid)
    · exact within_shape_sub hy fun d hd => List.mem_of_mem_take (List.mem_of_mem_drop hd)
    · have hid' := spliceVar_weight_lt ρ (List.mem_of_getElem? hid)
      exact lt_of_lt_of_le (Nat.add_lt_add_of_lt_of_le hid' (shape_weight_slice ρ y _ pos)) hw
  · exact .ok _

theorem ends_unifySplices {s : Subst} (hs : Settles V s₀ s) (a b : DimArg) (ha : (Ty.shape [a]).Within V)
    (hb : (Ty.shape [b]).Within V) (hw : (Ty.shape [a]).weight ρ + (Ty.shape [b]).weight ρ ≤ w) :
    Ends fun n => unifySplices (checkedCalls table n) s a b := by
  unfold unifySplices
  split
  · exact .ok _
  · exact .ok _
  · apply ih _ _ _ hs (within_spliceVar ha List.mem_cons_self) (within_splice _)
    simp only [Ty.weight, dimWeight, List.map_cons, List.map_nil, List.sum_cons, List.sum_nil] at hw ⊢
    omega
  · apply ih _ _ _ hs (within_spliceVar hb List.mem_cons_self) (within_splice _)
    simp only [Ty.weight, dimWeight, List.map_cons, List.map_nil, List.sum_cons, List.sum_nil] at hw ⊢
    omega
  · exact .ok _

theorem ends_bothSpliced {s : Subst} (hs : Settles V s₀ s) (pos : ℕ) (xs ys : List DimArg)
    (hx : (Ty.shape xs).Within V) (hy : (Ty.shape ys).Within V)
    (hw : (Ty.shape xs).weight ρ + (Ty.shape ys).weight ρ ≤ w) :
    Ends fun n => bothSpliced (checkedCalls table n) pos s xs ys := by
  induction pos generalizing s xs ys with
  | zero =>
    cases xs with
    | nil => exact .ok _
    | cons x xs =>
      cases ys with
      | nil => exact .ok _
      | cons y ys =>
        have hxw : (Ty.shape [x]).Within V := within_shape_sub hx (by simp)
        have hyw : (Ty.shape [y]).Within V := within_shape_sub hy (by simp)
        have hle : (Ty.shape [x]).weight ρ + (Ty.shape [y]).weight ρ ≤ w := by
          simp only [Ty.weight, List.map_cons, List.map_nil, List.sum_cons, List.sum_nil] at hw ⊢
          omega
        apply (ends_unifySplices ih hs x y hxw hyw hle).bind
        intro r n hr
        refine .ite (fun _ => ?_) fun _ => .ok _
        exact ends_allDims (moves_unifySplices (moves_unifyChecked n) hs.ready x y hxw hyw r.1 r.2 hr).ready xs ys
  | succ pos ihp =>
    cases xs with
    | nil => exact .ok _
    | cons x xs =>
      cases ys with
      | nil => exact .ok _
      | cons y ys =>
        apply (ends_dim hs.ready x y).bind
        intro r n hr
        refine .ite (fun _ => ?_) fun _ => .ok _
        apply ihp (hs.trans (moves_dim hs.ready x y r.1 r.2 hr)) xs ys
        · exact within_shape_sub hx fun d hd => List.mem_cons_of_mem _ hd
        · exact within_shape_sub hy fun d hd => List.mem_cons_of_mem _ hd
        · simp only [Ty.weight, List.map_cons, List.sum_cons] at hw ⊢
          omega

theorem ends_unifyShapes {s : Subst} (hs : Settles V s₀ s) (x y : List DimArg) (hx : (Ty.shape x).Within V)
    (hy : (Ty.shape y).Within V) (hw : (Ty.shape x).weight ρ + (Ty.shape y).weight ρ ≤ w) :
    Ends fun n => unifyShapes (checkedCalls table n) s x y := by
  unfold unifyShapes
  split
  · exact .ite (fun _ => ends_allDims hs.ready x y) fun _ => .ok _
  · exact ends_unifySpliced ih hs x y _ hx hy hw
  · exact ends_unifySpliced ih hs y x _ hy hx (by omega)
  · exact .ite (fun _ => .ok _) fun _ => ends_bothSpliced ih hs _ x y hx hy hw

theorem ends_unifySignatures {s : Subst} (hs : Settles V s₀ s) (xp : List Ty) (xr : Ty) (yp : List Ty) (yr : Ty)
    (hx : ∀ v ∈ metavarsList xp ++ xr.metavars, v ∈ V) (hy : ∀ v ∈ metavarsList yp ++ yr.metavars, v ∈ V)
    (hw : weightList ρ xp + xr.weight ρ + (weightList ρ yp + yr.weight ρ) < w) :
    Ends fun n => unifySignatures (checkedCalls table n) s xp xr yp yr := by
  obtain ⟨hxp, hxr⟩ := within_params hx
  obtain ⟨hyp, hyr⟩ := within_params hy
  apply (ends_allPairs ih hs xp yp hxp hyp (by omega)).bind
  intro r n hr
  have hs' := hs.trans (moves_allPairs (moves_unifyChecked n) hs.ready xp yp hxp hyp r.1 r.2 hr)
  exact .ite (fun _ => ih _ xr yr hs' hxr hyr (by omega)) fun _ => .ok _

theorem ends_unifyStructural (hs : Ready V s₀) (a b : Ty) (ha : a.Within V) (hb : b.Within V)
    (hw : a.weight ρ + b.weight ρ = w) : Ends fun n => unifyStructural table (checkedCalls table n) s₀ a b := by
  have hs₀ := hs.settles
  have call : ∀ x y : Ty, x.Within V → y.Within V → x.weight ρ + y.weight ρ < w →
      Ends (fun n => (checkedCalls table n).types s₀ x y) := by
    intro x y
    exact ih s₀ x y hs₀
  have lists : ∀ xs ys : List Ty, (∀ v ∈ metavarsList xs, v ∈ V) → (∀ v ∈ metavarsList ys, v ∈ V) →
      weightList ρ xs + weightList ρ ys < w → Ends (fun n => allPairs (checkedCalls table n).types s₀ xs ys) := by
    intro xs ys hx hy
    exact ends_allPairs ih hs₀ xs ys (fun x hm => within_list hx hm) fun y hm => within_list hy hm
  cases a with
  | tuple xs =>
    cases b with
    | tuple ys =>
      simp only [Ty.weight] at hw
      exact .ite (fun _ => lists xs ys ha hb (by omega)) fun _ => .ok _
    | _ => exact .ok _
  | named m xs =>
    cases b with
    | named m' ys =>
      simp only [Ty.weight] at hw
      exact .ite (fun _ => lists xs ys ha hb (by omega)) fun _ => .ok _
    | _ => exact .ok _
  | ref x =>
    cases b with
    | mutRef y => exact .ok _
    | weak y => exact .ok _
    | ref y =>
      simp only [Ty.weight] at hw
      exact call x y ha hb (by omega)
    | _ =>
      simp only [Ty.weight] at hw
      exact call x _ ha hb (by simp only [Ty.weight]; omega)
  | mutRef x =>
    cases b with
    | ref y => exact .ok _
    | weak y => exact .ok _
    | mutRef y =>
      simp only [Ty.weight] at hw
      exact call x y ha hb (by omega)
    | _ =>
      simp only [Ty.weight] at hw
      exact call x _ ha hb (by simp only [Ty.weight]; omega)
  | weak x =>
    cases b with
    | weak y =>
      simp only [Ty.weight] at hw
      exact call x y ha hb (by omega)
    | _ => exact .ok _
  | pointer xm x =>
    cases b with
    | pointer ym y =>
      simp only [Ty.weight] at hw
      exact .ite (fun _ => call x y ha hb (by omega)) fun _ => .ok _
    | _ => exact .ok _
  | array x xn =>
    cases b with
    | array y yn =>
      simp only [Ty.weight] at hw
      obtain ⟨σ, hσ⟩ := exists_constWeight hs.acyclic.consts
      apply (ends_constArgs hσ xn yn).bind
      intro r n hr
      exact .ite (fun _ => ih _ x y (settles_consts hs hr) ha hb (by omega)) fun _ => .ok _
    | _ => exact .ok _
  | shape xs =>
    cases b with
    | shape ys => exact ends_unifyShapes ih hs₀ xs ys ha hb hw.le
    | _ => exact .ok _
  | slice x xm =>
    cases b with
    | slice y ym =>
      simp only [Ty.weight] at hw
      exact .ite (fun _ => call x y ha hb (by omega)) fun _ => .ok _
    | _ => exact .ok _
  | function xp xr =>
    cases b with
    | function yp yr =>
      simp only [Ty.weight] at hw
      exact .ite (fun _ => ends_unifySignatures ih hs₀ xp xr yp yr ha hb (by omega)) fun _ => .ok _
    | onceFunction yp yr =>
      simp only [Ty.weight] at hw
      exact .ite (fun _ => ends_unifySignatures ih hs₀ xp xr yp yr ha hb (by omega)) fun _ => .ok _
    | _ => exact .ok _
  | onceFunction xp xr =>
    cases b with
    | function yp yr =>
      simp only [Ty.weight] at hw
      exact .ite (fun _ => ends_unifySignatures ih hs₀ xp xr yp yr ha hb (by omega)) fun _ => .ok _
    | onceFunction yp yr =>
      simp only [Ty.weight] at hw
      exact .ite (fun _ => ends_unifySignatures ih hs₀ xp xr yp yr ha hb (by omega)) fun _ => .ok _
    | _ => exact .ok _
  | _ => exact .ok _

theorem ends_unifyTypeVar (hρ : Weighs ρ s₀) (hs : Ready V s₀) (id : ℕ) (other : Ty) (ho : other.Within V)
    (hw : ρ id + other.weight ρ ≤ w) : Ends fun n => unifyTypeVar (checkedCalls table n) s₀ id other := by
  have hbind : ∀ t, Ends fun n => (do
      let s ← (checkedCalls table n).bind s₀ id t
      return (true, s) : Result) := by
    intro t
    change Ends fun _ => (checkedBind s₀ id t >>= fun s => pure (true, s) : Result)
    apply Ends.const
    unfold checkedBind
    split_ifs
    · intro h
      cases h
    · intro h
      cases h
  apply (ends_top hρ other).bind
  intro t n ht
  have htw := within_of_top hs.within ho ht
  have htle := weight_top hρ ht
  cases hcur : s₀.types id with
  | none => exact hbind t
  | some cur =>
    apply (ends_top hρ cur).bind
    intro cur' n' hcur'
    have hlt := hρ id cur hcur
    have hle := weight_top hρ hcur'
    refine .ite (fun _ => hbind t) fun _ => .ite (fun _ => .ok _) fun _ => ?_
    exact ih s₀ cur' t hs.settles (within_of_top hs.within (hs.within id cur hcur).2 hcur') htw (by omega)

theorem ends_unifyBody (hρ : Weighs ρ s₀) (hs : Ready V s₀) (a b : Ty) (ha : a.Within V) (hb : b.Within V)
    (hw : a.weight ρ + b.weight ρ = w) : Ends fun n => unifyBody table (checkedCalls table n) s₀ a b := by
  unfold unifyBody
  split
  · exact .ite (fun _ => .ok _) fun _ => ends_unifyTypeVar ih hρ hs _ b hb hw.le
  · split
    · exact ends_unifyTypeVar ih hρ hs _ a ha ((Nat.add_comm _ _).trans_le hw.le)
    · exact .ite (fun _ => .ok _) fun _ => ends_unifyStructural ih hs a b ha hb hw

end

/-- On well-founded substitutions, a call with an occurs check ends. -/
theorem ends_unifyChecked {table : StdlibVariance} {V : Finset ℕ} (s : Subst) (a b : Ty) (hs : Ready V s)
    (ha : a.Within V) (hb : b.Within V) : Ends fun n => unifyChecked table n s a b := by
  induction s using (less_wf V).induction generalizing a b with
  | _ s₀ outer =>
    obtain ⟨ρ, hρ⟩ := exists_weighs hs.acyclic
    -- the calls that leave the types as they are, by the weight of their arguments
    have inner : ∀ w s a b, s.types = s₀.types → Ready V s → a.Within V → b.Within V → a.weight ρ + b.weight ρ = w →
        Ends fun n => unifyChecked table n s a b := by
      intro w
      induction w using Nat.strong_induction_on with
      | _ w ih =>
        intro s a b htypes hready ha hb hw
        have hρs : Weighs ρ s := by
          intro id t hid
          rw [htypes] at hid
          exact hρ id t hid
        refine Ends.succ (ends_unifyBody (w := w) ?_ hρs hready a b ha hb hw)
        intro s' x y hs' hx hy hlt
        rcases hs'.progress with heq | hless
        · exact ih _ hlt s' x y (heq.trans htypes) hs'.ready hx hy rfl
        · exact outer s' ((less_congr_right htypes).mp hless) x y hs'.ready hx hy
    exact inner _ s₀ a b rfl hs ha hb rfl

end Karac.Typechecker
