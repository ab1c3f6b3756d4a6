import Karac.Typechecker.UnifyInvariant

/-! A call of `unify_types` that binds no metavariable to a type it occurs in keeps the substitutions well-founded. -/

namespace Karac.Typechecker

open Lib (Mentions Occurs wellFounded_update ok_of_bind)

theorem mem_metavarsList {v : ℕ} {ts : List Ty} : v ∈ metavarsList ts ↔ ∃ t ∈ ts, v ∈ t.metavars := by
  induction ts with
  | nil => simp [metavarsList]
  | cons t ts ih => simp [metavarsList, ih]

section

variable {V : Finset ℕ}

theorem within_list {ts : List Ty} (h : ∀ v ∈ metavarsList ts, v ∈ V) {t : Ty} (ht : t ∈ ts) : t.Within V :=
  fun v hv => h v (mem_metavarsList.mpr ⟨t, ht, hv⟩)

theorem within_params {ps : List Ty} {r : Ty} (h : ∀ v ∈ metavarsList ps ++ r.metavars, v ∈ V) :
    (∀ p ∈ ps, p.Within V) ∧ r.Within V := by
  refine ⟨fun p hp => within_list (fun v hv => ?_) hp, fun v hv => ?_⟩
  · exact h v (List.mem_append_left _ hv)
  · exact h v (List.mem_append_right _ hv)

theorem within_shape_sub {ds ds' : List DimArg} (h : (Ty.shape ds).Within V) (hsub : ∀ d ∈ ds', d ∈ ds) :
    (Ty.shape ds').Within V := by
  intro v hv
  obtain ⟨d, hd, hvd⟩ := List.mem_flatMap.mp hv
  exact h v (List.mem_flatMap.mpr ⟨d, hsub d hd, hvd⟩)

theorem within_spliceVar {ds : List DimArg} {id : ℕ} (h : (Ty.shape ds).Within V) (hd : .spliceVar id ∈ ds) :
    (Ty.typeVar id).Within V := by
  intro v hv
  rw [List.mem_singleton.mp hv]
  exact h id (List.mem_flatMap.mpr ⟨_, hd, List.mem_singleton_self id⟩)

theorem within_splice (name : String) : (Ty.shape [.splice name]).Within V := by
  intro v hv
  simp [Ty.metavars] at hv

end

/-! The const side. -/

theorem constTop_unbound {n : ℕ} {κ : ConstSubst} {c c' : ConstArg} (h : resolveConstVarTop n κ c = .ok c') (v : ℕ)
    (hv : c' = .constVar v) : κ v = none := by
  induction n generalizing c with
  | zero => cases h
  | succ n ih =>
    cases c with
    | constVar id =>
      simp only [resolveConstVarTop] at h
      split at h
      · exact ih h
      · rename_i hnone
        rw [← Except.ok.inj h] at hv
        cases hv
        exact hnone
    | _ =>
      rw [← Except.ok.inj h] at hv
      cases hv

/-- The top of a chain does not lead anywhere. -/
theorem not_occurs_constTop {κ : ConstSubst} {c : ConstArg} {id : ℕ} (hc : ∀ v, c = .constVar v → κ v = none)
    (hne : c ≠ .constVar id) : ¬ Occurs constVarsOf κ id c := by
  rintro ⟨v, hv, hr⟩
  cases c with
  | constVar w =>
    obtain rfl : v = w := by simpa [constVarsOf, ConstArg.metavars] using hv
    rcases Relation.ReflTransGen.cases_head hr with rfl | ⟨z, ⟨t, ht, _⟩, _⟩
    · exact hne rfl
    · rw [hc v rfl] at ht
      cases ht
  | _ => simp [constVarsOf, ConstArg.metavars] at hv

theorem acyclic_constVar {n : ℕ} {κ : ConstSubst} {id : ℕ} {other : ConstArg} {r : Bool} {κ' : ConstSubst}
    (hκ : WellFounded (Mentions constVarsOf κ))
    (ih : ∀ a b r κ', unifyConstArgs n κ a b = .ok (r, κ') → WellFounded (Mentions constVarsOf κ'))
    (h : unifyConstVar (resolveConstVarTop n) (unifyConstArgs n) κ id other = .ok (r, κ')) :
    WellFounded (Mentions constVarsOf κ') := by
  unfold unifyConstVar at h
  cases hc : resolveConstVarTop n κ other with
  | error e =>
    rw [hc] at h
    cases h
  | ok c =>
    have htop := constTop_unbound hc
    rw [hc] at h
    dsimp only [bind, Except.bind] at h
    split at h
    · split_ifs at h with heq
      · cases h
        exact hκ
      · cases h
        exact wellFounded_update hκ (not_occurs_constTop htop heq)
    · rename_i hbound
      split_ifs at h
      · cases h
        exact hκ
      · cases h
        refine wellFounded_update hκ (not_occurs_constTop htop fun heq => ?_)
        rw [htop id heq] at hbound
        cases hbound
    · exact ih _ _ _ _ h

/-- The const substitution needs no occurs check: a const metavariable is only ever bound to the end of a chain. -/
theorem acyclic_constArgs {n : ℕ} {κ κ' : ConstSubst} {a b : ConstArg} {r : Bool}
    (hκ : WellFounded (Mentions constVarsOf κ)) (h : unifyConstArgs n κ a b = .ok (r, κ')) :
    WellFounded (Mentions constVarsOf κ') := by
  induction n generalizing κ κ' a b r with
  | zero => cases h
  | succ n ih =>
    unfold unifyConstArgs at h
    split at h
    · split_ifs at h
      · cases h
        exact hκ
      · exact acyclic_constVar hκ (fun a b r κ' => ih hκ) h
    · split at h
      · exact acyclic_constVar hκ (fun a b r κ' => ih hκ) h
      · cases h
        exact hκ

/-! The calls of `unify_types`. -/

/-- The states the calls work on. -/
structure Ready (V : Finset ℕ) (s : Subst) : Prop where
  within : s.Within V
  acyclic : s.Acyclic

/-- A result reached from `s` leaves the substitution settled. -/
def Moves (V : Finset ℕ) (s : Subst) (x : Result) : Prop := ∀ r s', x = .ok (r, s') → Settles V s s'

section

variable {V : Finset ℕ} {s s' s'' : Subst} {x y : Result}

theorem Settles.ready (h : Settles V s s') : Ready V s' := ⟨h.within, h.acyclic⟩

theorem Ready.settles (h : Ready V s) : Settles V s s := .refl h.within h.acyclic

theorem Moves.ok (h : Settles V s s') {r : Bool} : Moves V s (.ok (r, s')) := by
  intro r' s'' heq
  cases heq
  exact h

theorem Moves.after (h : Settles V s s') (hx : Moves V s' x) : Moves V s x :=
  fun r s'' heq => h.trans (hx r s'' heq)

theorem Moves.bind {f : Bool × Subst → Result} (hx : Moves V s x)
    (hf : ∀ r s', Settles V s s' → Moves V s (f (r, s'))) : Moves V s (x >>= f) := by
  intro r s'' heq
  cases x with
  | error e => cases heq
  | ok p => exact hf p.1 p.2 (hx p.1 p.2 rfl) r s'' heq

theorem Moves.ite {p : Prop} [Decidable p] (hx : Moves V s x) (hy : Moves V s y) : Moves V s (if p then x else y) := by
  split_ifs
  · exact hx
  · exact hy

end

/-- The recursive calls of `unifyChecked` at one level. -/
noncomputable def checkedCalls (table : StdlibVariance) (n : ℕ) : Calls :=
  ⟨checkedBind, resolveTypeVarTop n, unifyConstArgs n, unifyChecked table n⟩

section

variable {table : StdlibVariance} {n : ℕ} {V : Finset ℕ}
  (ih : ∀ s a b, Ready V s → a.Within V → b.Within V → Moves V s (unifyChecked table n s a b))

include ih

theorem moves_allPairs {s : Subst} (hs : Ready V s) (xs ys : List Ty) (hx : ∀ x ∈ xs, x.Within V)
    (hy : ∀ y ∈ ys, y.Within V) : Moves V s (allPairs (checkedCalls table n).types s xs ys) := by
  induction xs generalizing s ys with
  | nil => exact .ok hs.settles
  | cons x xs ihx =>
    cases ys with
    | nil => exact .ok hs.settles
    | cons y ys =>
      apply (ih s x y hs (hx x List.mem_cons_self) (hy y List.mem_cons_self)).bind
      intro r s' hs'
      apply Moves.ite
      · apply Moves.after hs'
        exact ihx hs'.ready ys (fun x hm => hx x (List.mem_cons_of_mem _ hm)) fun y hm => hy y (List.mem_cons_of_mem _ hm)
      · exact .ok hs'

omit ih in
theorem settles_consts {s : Subst} {κ : ConstSubst} {a b : ConstArg} {r : Bool} (hs : Ready V s)
    (h : unifyConstArgs n s.consts a b = .ok (r, κ)) : Settles V s { s with consts := κ } :=
  ⟨hs.within, ⟨hs.acyclic.types, acyclic_constArgs hs.acyclic.consts h⟩, Or.inl rfl⟩

omit ih in
theorem moves_dim {s : Subst} (hs : Ready V s) (a b : DimArg) : Moves V s ((checkedCalls table n).dim s a b) := by
  intro r s' heq
  unfold Calls.dim at heq
  cases hc : (checkedCalls table n).constArgs s.consts a.toConst b.toConst with
  | error e =>
    rw [hc] at heq
    cases heq
  | ok p =>
    rw [hc] at heq
    cases heq
    exact settles_consts hs hc

omit ih in
theorem moves_allDims {s : Subst} (hs : Ready V s) (xs ys : List DimArg) :
    Moves V s (allDims (checkedCalls table n) s xs ys) := by
  induction xs generalizing s ys with
  | nil => exact .ok hs.settles
  | cons x xs ihx =>
    cases ys with
    | nil => exact .ok hs.settles
    | cons y ys =>
      apply (moves_dim hs x y).bind
      intro r s' hs'
      apply Moves.ite
      · exact Moves.after hs' (ihx hs'.ready ys)
      · exact .ok hs'

theorem moves_unifySpliced {s : Subst} (hs : Ready V s) (x y : List DimArg) (pos : ℕ) (hx : (Ty.shape x).Within V)
    (hy : (Ty.shape y).Within V) : Moves V s (unifySpliced (checkedCalls table n) s x pos y) := by
  unfold unifySpliced
  apply Moves.ite (.ok hs.settles)
  apply (moves_allDims hs _ _).bind
  intro r s' hs'
  apply Moves.ite (.ok hs')
  apply Moves.bind (Moves.after hs' (moves_allDims hs'.ready _ _))
  intro r' s'' hs''
  apply Moves.ite (.ok hs'')
  split
  · rename_i id hid
    apply Moves.after hs''
    apply ih _ _ _ hs''.ready
    · exact within_spliceVar hx (List.mem_of_getElem? hid)
    · exact within_shape_sub hy fun d hd => List.mem_of_mem_take (List.mem_of_mem_drop hd)
  · exact .ok hs''

theorem moves_unifySplices {s : Subst} (hs : Ready V s) (a b : DimArg) (ha : (Ty.shape [a]).Within V)
    (hb : (Ty.shape [b]).Within V) : Moves V s (unifySplices (checkedCalls table n) s a b) := by
  unfold unifySplices
  split
  · exact .ok hs.settles
  · exact .ok hs.settles
  · exact ih _ _ _ hs (within_spliceVar ha List.mem_cons_self) (within_splice _)
  · exact ih _ _ _ hs (within_spliceVar hb List.mem_cons_self) (within_splice _)
  · exact .ok hs.settles

theorem moves_bothSpliced {s : Subst} (hs : Ready V s) (pos : ℕ) (xs ys : List DimArg) (hx : (Ty.shape xs).Within V)
    (hy : (Ty.shape ys).Within V) : Moves V s (bothSpliced (checkedCalls table n) pos s xs ys) := by
  induction pos generalizing s xs ys with
  | zero =>
    cases xs with
    | nil => exact .ok hs.settles
    | cons x xs =>
      cases ys with
      | nil => exact .ok hs.settles
      | cons y ys =>
        have hxy := moves_unifySplices ih hs x y (within_shape_sub hx (by simp)) (within_shape_sub hy (by simp))
        apply hxy.bind
        intro r s' hs'
        apply Moves.ite
        · exact Moves.after hs' (moves_allDims hs'.ready xs ys)
        · exact .ok hs'
  | succ pos ihp =>
    cases xs with
    | nil => exact .ok hs.settles
    | cons x xs =>
      cases ys with
      | nil => exact .ok hs.settles
      | cons y ys =>
        apply (moves_dim hs x y).bind
        intro r s' hs'
        apply Moves.ite
        · apply Moves.after hs'
          exact ihp hs'.ready xs ys (within_shape_sub hx fun d hd => List.mem_cons_of_mem _ hd)
            (within_shape_sub hy fun d hd => List.mem_cons_of_mem _ hd)
        · exact .ok hs'

theorem moves_unifyShapes {s : Subst} (hs : Ready V s) (x y : List DimArg) (hx : (Ty.shape x).Within V)
    (hy : (Ty.shape y).Within V) : Moves V s (unifyShapes (checkedCalls table n) s x y) := by
  unfold unifyShapes
  split
  · exact (moves_allDims hs x y).ite (.ok hs.settles)
  · exact moves_unifySpliced ih hs x y _ hx hy
  · exact moves_unifySpliced ih hs y x _ hy hx
  · exact Moves.ite (.ok hs.settles) (moves_bothSpliced ih hs _ x y hx hy)

theorem moves_unifyTypeVar {s : Subst} (hs : Ready V s) (id : ℕ) (other : Ty) (hid : id ∈ V) (ho : other.Within V) :
    Moves V s (unifyTypeVar (checkedCalls table n) s id other) := by
  intro r s' heq
  obtain ⟨t, ht, heq⟩ := ok_of_bind heq
  have htw := within_of_top hs.within ho ht
  have hbind : (s.types id = none ∨ NeverTop s id ∧ t ≠ .never) → ∀ s', checkedBind s id t = .ok s' → Settles V s s' :=
    fun hcur s' h => settles_checkedBind hs.within hs.acyclic hid htw (isTop_of_top ht) hcur h
  cases hcur : s.types id with
  | none =>
    rw [hcur] at heq
    obtain ⟨s₁, hs₁, heq⟩ := ok_of_bind heq
    cases heq
    exact hbind (Or.inl hcur) s' hs₁
  | some cur =>
    rw [hcur] at heq
    obtain ⟨cur', hcur', heq⟩ := ok_of_bind heq
    have hcw := within_of_top hs.within (hs.within id cur hcur).2 hcur'
    split_ifs at heq with hnever hother
    · obtain ⟨s₁, hs₁, heq⟩ := ok_of_bind heq
      cases heq
      obtain ⟨rfl, hne, -⟩ := hnever
      refine hbind (Or.inr ⟨⟨n + 1, ?_⟩, hne⟩) s' hs₁
      simp only [resolveTypeVarTop, hcur]
      exact hcur'
    · cases heq
      exact hs.settles
    · exact ih s cur' t hs hcw htw r s' heq

theorem moves_unifySignatures {s : Subst} (hs : Ready V s) (xp : List Ty) (xr : Ty) (yp : List Ty) (yr : Ty)
    (hx : ∀ v ∈ metavarsList xp ++ xr.metavars, v ∈ V) (hy : ∀ v ∈ metavarsList yp ++ yr.metavars, v ∈ V) :
    Moves V s (unifySignatures (checkedCalls table n) s xp xr yp yr) := by
  obtain ⟨hxp, hxr⟩ := within_params hx
  obtain ⟨hyp, hyr⟩ := within_params hy
  apply (moves_allPairs ih hs xp yp hxp hyp).bind
  intro r s' hs'
  apply Moves.ite
  · exact Moves.after hs' (ih s' xr yr hs'.ready hxr hyr)
  · exact .ok hs'

theorem moves_unifyStructural {s : Subst} (hs : Ready V s) (a b : Ty) (ha : a.Within V) (hb : b.Within V) :
    Moves V s (unifyStructural table (checkedCalls table n) s a b) := by
  have leaf : ∀ r : Bool, Moves V s (.ok (r, s)) := fun r => .ok hs.settles
  cases a with
  | tuple xs =>
    cases b with
    | tuple ys =>
      exact (moves_allPairs ih hs xs ys (fun x hx => within_list ha hx) fun y hy => within_list hb hy).ite (leaf _)
    | _ => exact leaf _
  | named m xs =>
    cases b with
    | named m' ys =>
      exact (moves_allPairs ih hs xs ys (fun x hx => within_list ha hx) fun y hy => within_list hb hy).ite (leaf _)
    | _ => exact leaf _
  | ref x =>
    cases b with
    | mutRef y => exact leaf _
    | weak y => exact leaf _
    | _ => exact ih s _ _ hs ha hb
  | mutRef x =>
    cases b with
    | ref y => exact leaf _
    | weak y => exact leaf _
    | _ => exact ih s _ _ hs ha hb
  | weak x =>
    cases b with
    | weak y => exact ih s _ _ hs ha hb
    | _ => exact leaf _
  | pointer xm x =>
    cases b with
    | pointer ym y => exact Moves.ite (ih s _ _ hs ha hb) (leaf _)
    | _ => exact leaf _
  | array x xn =>
    cases b with
    | array y yn =>
      intro r s' heq
      obtain ⟨⟨u, κ⟩, hκ, heq⟩ := ok_of_bind heq
      have hs' := settles_consts (n := n) hs hκ
      have hrest := Moves.ite (p := u = true) (Moves.after hs' (ih _ x y hs'.ready ha hb)) (Moves.ok hs' (r := false))
      exact hrest r s' heq
    | _ => exact leaf _
  | shape xs =>
    cases b with
    | shape ys => exact moves_unifyShapes ih hs xs ys ha hb
    | _ => exact leaf _
  | slice x xm =>
    cases b with
    | slice y ym => exact Moves.ite (ih s _ _ hs ha hb) (leaf _)
    | _ => exact leaf _
  | function xp xr =>
    cases b with
    | function yp yr => exact (moves_unifySignatures ih hs xp xr yp yr ha hb).ite (leaf _)
    | onceFunction yp yr => exact (moves_unifySignatures ih hs xp xr yp yr ha hb).ite (leaf _)
    | _ => exact leaf _
  | onceFunction xp xr =>
    cases b with
    | function yp yr => exact (moves_unifySignatures ih hs xp xr yp yr ha hb).ite (leaf _)
    | onceFunction yp yr => exact (moves_unifySignatures ih hs xp xr yp yr ha hb).ite (leaf _)
    | _ => exact leaf _
  | _ => exact leaf _

theorem moves_unifyBody {s : Subst} (hs : Ready V s) (a b : Ty) (ha : a.Within V) (hb : b.Within V) :
    Moves V s (unifyBody table (checkedCalls table n) s a b) := by
  unfold unifyBody
  split
  · rename_i id
    exact Moves.ite (.ok hs.settles) (moves_unifyTypeVar ih hs id b (ha id List.mem_cons_self) hb)
  · split
    · rename_i id
      exact moves_unifyTypeVar ih hs id a (hb id List.mem_cons_self) ha
    · exact Moves.ite (.ok hs.settles) (moves_unifyStructural ih hs a b ha hb)

end

/-- A call with an occurs check keeps the substitutions well-founded. -/
theorem moves_unifyChecked {table : StdlibVariance} {V : Finset ℕ} (n : ℕ) (s : Subst) (a b : Ty) (hs : Ready V s)
    (ha : a.Within V) (hb : b.Within V) : Moves V s (unifyChecked table n s a b) := by
  induction n generalizing s a b with
  | zero =>
    intro r s' heq
    cases heq
  | succ n ih => exact moves_unifyBody ih hs a b ha hb

end Karac.Typechecker
