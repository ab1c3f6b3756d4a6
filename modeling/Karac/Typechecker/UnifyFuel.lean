import Karac.Typechecker.Unify

/-! More fuel does not change the result of a call, and a weaker check on bindings only lets more calls end. -/

namespace Karac.Typechecker

/-- Unless `x` ran out of fuel (or, where `lax`, was stopped by the occurs check), `y` ends the same way. -/
def EndsAs (lax : Prop) {α : Type} (x y : Except Halt α) : Prop :=
  x = .error .fuel ∨ (lax ∧ x = .error .occurs) ∨ x = y

section

variable {lax : Prop} {α β : Type}

theorem EndsAs.refl (x : Except Halt α) : EndsAs lax x x := Or.inr (Or.inr rfl)

theorem EndsAs.of_fuel {y : Except Halt α} : EndsAs lax (.error .fuel) y := Or.inl rfl

theorem EndsAs.bind {x y : Except Halt α} {f g : α → Except Halt β} (h : EndsAs lax x y)
    (hfg : ∀ a, EndsAs lax (f a) (g a)) : EndsAs lax (x >>= f) (y >>= g) := by
  rcases h with rfl | ⟨hl, rfl⟩ | rfl
  · exact Or.inl rfl
  · exact Or.inr (Or.inl ⟨hl, rfl⟩)
  · cases x with
    | error e => exact EndsAs.refl _
    | ok a => exact hfg a

theorem EndsAs.eq_of_ok {x y : Except Halt α} {a : α} (h : EndsAs lax x y) (hx : x = .ok a) : y = .ok a := by
  rcases h with rfl | ⟨-, rfl⟩ | rfl
  · cases hx
  · cases hx
  · exact hx

theorem EndsAs.ite {p : Prop} [Decidable p] {x x' y y' : Except Halt α} (h : EndsAs lax x x') (h' : EndsAs lax y y') :
    EndsAs lax (if p then x else y) (if p then x' else y') := by
  split_ifs
  · exact h
  · exact h'

end

/-- The calls of `c` end as those of `d`. -/
structure Calls.EndAs (lax : Prop) (c d : Calls) : Prop where
  bind : ∀ s id t, Typechecker.EndsAs lax (c.bind s id t) (d.bind s id t)
  top : ∀ s t, Typechecker.EndsAs lax (c.top s t) (d.top s t)
  constArgs : ∀ κ a b, Typechecker.EndsAs lax (c.constArgs κ a b) (d.constArgs κ a b)
  types : ∀ s a b, Typechecker.EndsAs lax (c.types s a b) (d.types s a b)

section

variable {lax : Prop} {c d : Calls} (h : c.EndAs lax d)

include h

theorem endsAs_allPairs (s : Subst) (xs ys : List Ty) :
    EndsAs lax (allPairs c.types s xs ys) (allPairs d.types s xs ys) := by
  induction xs generalizing s ys with
  | nil => exact .refl _
  | cons x xs ih =>
    cases ys with
    | nil => exact .refl _
    | cons y ys =>
      apply (h.types s x y).bind
      intro r
      exact (ih r.2 ys).ite (.refl _)

theorem endsAs_dim (s : Subst) (a b : DimArg) : EndsAs lax (c.dim s a b) (d.dim s a b) := by
  apply (h.constArgs s.consts a.toConst b.toConst).bind
  intro r
  exact .refl _

theorem endsAs_allDims (s : Subst) (xs ys : List DimArg) : EndsAs lax (allDims c s xs ys) (allDims d s xs ys) := by
  induction xs generalizing s ys with
  | nil => exact .refl _
  | cons x xs ih =>
    cases ys with
    | nil => exact .refl _
    | cons y ys =>
      apply (endsAs_dim h s x y).bind
      intro r
      exact (ih r.2 ys).ite (.refl _)

theorem endsAs_unifySpliced (s : Subst) (x y : List DimArg) (pos : ℕ) :
    EndsAs lax (unifySpliced c s x pos y) (unifySpliced d s x pos y) := by
  unfold unifySpliced
  apply EndsAs.ite (.refl _)
  apply (endsAs_allDims h s _ _).bind
  intro r
  apply EndsAs.ite (.refl _)
  apply (endsAs_allDims h r.2 _ _).bind
  intro r'
  apply EndsAs.ite (.refl _)
  split
  · exact h.types _ _ _
  · exact .refl _

theorem endsAs_unifySplices (s : Subst) (a b : DimArg) : EndsAs lax (unifySplices c s a b) (unifySplices d s a b) := by
  unfold unifySplices
  split
  · exact .refl _
  · exact .refl _
  · exact h.types _ _ _
  · exact h.types _ _ _
  · exact .refl _

theorem endsAs_bothSpliced (pos : ℕ) (s : Subst) (xs ys : List DimArg) :
    EndsAs lax (bothSpliced c pos s xs ys) (bothSpliced d pos s xs ys) := by
  fun_induction bothSpliced c pos s xs ys with
  | case1 s x xs y ys =>
    apply (endsAs_unifySplices h s x y).bind
    intro r
    exact (endsAs_allDims h r.2 xs ys).ite (.refl _)
  | case2 pos s x xs y ys ih =>
    apply (endsAs_dim h s x y).bind
    intro r
    exact (ih r.2).ite (.refl _)
  | case3 pos s xs ys h0 h1 =>
    cases pos with
    | zero =>
      cases xs with
      | nil => exact .refl _
      | cons x xs =>
        cases ys with
        | nil => exact .refl _
        | cons y ys => exact (h0 x xs y ys rfl rfl rfl).elim
    | succ pos =>
      cases xs with
      | nil => exact .refl _
      | cons x xs =>
        cases ys with
        | nil => exact .refl _
        | cons y ys => exact (h1 pos x xs y ys rfl rfl rfl).elim

theorem endsAs_unifyShapes (s : Subst) (x y : List DimArg) :
    EndsAs lax (unifyShapes c s x y) (unifyShapes d s x y) := by
  unfold unifyShapes
  split
  · exact (endsAs_allDims h s x y).ite (.refl _)
  · exact endsAs_unifySpliced h s x y _
  · exact endsAs_unifySpliced h s y x _
  · exact EndsAs.ite (.refl _) (endsAs_bothSpliced h _ s x y)

theorem endsAs_unifyTypeVar (s : Subst) (id : ℕ) (other : Ty) :
    EndsAs lax (unifyTypeVar c s id other) (unifyTypeVar d s id other) := by
  apply (h.top s other).bind
  intro t
  cases s.types id with
  | none =>
    apply (h.bind s id t).bind
    intro s'
    exact .refl _
  | some cur =>
    apply (h.top s cur).bind
    intro cur'
    apply EndsAs.ite
    · apply (h.bind s id t).bind
      intro s'
      exact .refl _
    · exact EndsAs.ite (.refl _) (h.types s cur' t)

theorem endsAs_unifySignatures (s : Subst) (xp : List Ty) (xr : Ty) (yp : List Ty) (yr : Ty) :
    EndsAs lax (unifySignatures c s xp xr yp yr) (unifySignatures d s xp xr yp yr) := by
  apply (endsAs_allPairs h s xp yp).bind
  intro r
  exact (h.types r.2 xr yr).ite (.refl _)

theorem endsAs_unifyStructural (table : StdlibVariance) (s : Subst) (a b : Ty) :
    EndsAs lax (unifyStructural table c s a b) (unifyStructural table d s a b) := by
  cases a with
  | tuple xs =>
    cases b with
    | tuple ys => exact (endsAs_allPairs h s xs ys).ite (.refl _)
    | _ => exact .refl _
  | named m xs =>
    cases b with
    | named n ys => exact (endsAs_allPairs h s xs ys).ite (.refl _)
    | _ => exact .refl _
  | ref x =>
    cases b with
    | mutRef y => exact .refl _
    | weak y => exact .refl _
    | _ => exact h.types _ _ _
  | mutRef x =>
    cases b with
    | ref y => exact .refl _
    | weak y => exact .refl _
    | _ => exact h.types _ _ _
  | weak x =>
    cases b with
    | weak y => exact h.types _ _ _
    | _ => exact .refl _
  | pointer xm x =>
    cases b with
    | pointer ym y => exact (h.types s x y).ite (.refl _)
    | _ => exact .refl _
  | array x xn =>
    cases b with
    | array y yn =>
      apply (h.constArgs s.consts xn yn).bind
      intro r
      exact (h.types _ x y).ite (.refl _)
    | _ => exact .refl _
  | shape xs =>
    cases b with
    | shape ys => exact endsAs_unifyShapes h s xs ys
    | _ => exact .refl _
  | slice x xm =>
    cases b with
    | slice y ym => exact (h.types s x y).ite (.refl _)
    | _ => exact .refl _
  | function xp xr =>
    cases b with
    | function yp yr => exact (endsAs_unifySignatures h s xp xr yp yr).ite (.refl _)
    | onceFunction yp yr => exact (endsAs_unifySignatures h s xp xr yp yr).ite (.refl _)
    | _ => exact .refl _
  | onceFunction xp xr =>
    cases b with
    | function yp yr => exact (endsAs_unifySignatures h s xp xr yp yr).ite (.refl _)
    | onceFunction yp yr => exact (endsAs_unifySignatures h s xp xr yp yr).ite (.refl _)
    | _ => exact .refl _
  | _ => exact .refl _

theorem endsAs_unifyBody (table : StdlibVariance) (s : Subst) (a b : Ty) :
    EndsAs lax (unifyBody table c s a b) (unifyBody table d s a b) := by
  unfold unifyBody
  split
  · exact EndsAs.ite (.refl _) (endsAs_unifyTypeVar h s _ b)
  · split
    · exact endsAs_unifyTypeVar h s _ a
    · exact EndsAs.ite (.refl _) (endsAs_unifyStructural h table s a b)

end

section

variable {lax : Prop}

theorem endsAs_top {n m : ℕ} (hnm : n ≤ m) (s : Subst) (t : Ty) :
    EndsAs lax (resolveTypeVarTop n s t) (resolveTypeVarTop m s t) := by
  induction n generalizing m t with
  | zero => exact .of_fuel
  | succ n ih =>
    obtain ⟨m, rfl⟩ : ∃ k, m = k + 1 := ⟨m - 1, by omega⟩
    cases t with
    | typeVar id =>
      simp only [resolveTypeVarTop]
      cases s.types id with
      | none => exact .refl _
      | some t => exact ih (by omega) t
    | _ => exact .refl _

theorem endsAs_constTop {n m : ℕ} (hnm : n ≤ m) (κ : ConstSubst) (c : ConstArg) :
    EndsAs lax (resolveConstVarTop n κ c) (resolveConstVarTop m κ c) := by
  induction n generalizing m c with
  | zero => exact .of_fuel
  | succ n ih =>
    obtain ⟨m, rfl⟩ : ∃ k, m = k + 1 := ⟨m - 1, by omega⟩
    cases c with
    | constVar id =>
      simp only [resolveConstVarTop]
      cases κ id with
      | none => exact .refl _
      | some t => exact ih (by omega) t
    | _ => exact .refl _

theorem endsAs_unifyConstVar {top top' : ConstSubst → ConstArg → Except Halt ConstArg}
    {unify unify' : ConstSubst → ConstArg → ConstArg → ConstResult} (htop : ∀ κ c, EndsAs lax (top κ c) (top' κ c))
    (hunify : ∀ κ a b, EndsAs lax (unify κ a b) (unify' κ a b)) (κ : ConstSubst) (id : ℕ) (other : ConstArg) :
    EndsAs lax (unifyConstVar top unify κ id other) (unifyConstVar top' unify' κ id other) := by
  apply (htop κ other).bind
  intro c
  split
  · exact .refl _
  · exact .refl _
  · exact hunify κ _ c

theorem endsAs_unifyConstArgs {n m : ℕ} (hnm : n ≤ m) (κ : ConstSubst) (a b : ConstArg) :
    EndsAs lax (unifyConstArgs n κ a b) (unifyConstArgs m κ a b) := by
  induction n generalizing m κ a b with
  | zero => exact .of_fuel
  | succ n ih =>
    obtain ⟨m, rfl⟩ : ∃ k, m = k + 1 := ⟨m - 1, by omega⟩
    have hle : n ≤ m := by omega
    have hvar : ∀ κ id c, EndsAs lax (unifyConstVar (resolveConstVarTop n) (unifyConstArgs n) κ id c)
        (unifyConstVar (resolveConstVarTop m) (unifyConstArgs m) κ id c) :=
      endsAs_unifyConstVar (endsAs_constTop hle) fun κ a b => ih hle κ a b
    unfold unifyConstArgs
    split
    · exact EndsAs.ite (.refl _) (hvar κ _ b)
    · split
      · exact hvar κ _ a
      · exact .refl _

/-- A call with more fuel, and with a check on bindings that stops it no sooner, ends the same way. -/
theorem endsAs_unifyTypesWith {table : StdlibVariance} {bind bind' : Subst → ℕ → Ty → Except Halt Subst}
    (hbind : ∀ s id t, EndsAs lax (bind s id t) (bind' s id t)) {n m : ℕ} (hnm : n ≤ m) (s : Subst) (a b : Ty) :
    EndsAs lax (unifyTypesWith table bind n s a b) (unifyTypesWith table bind' m s a b) := by
  induction n generalizing m s a b with
  | zero => exact .of_fuel
  | succ n ih =>
    obtain ⟨m, rfl⟩ : ∃ k, m = k + 1 := ⟨m - 1, by omega⟩
    have hle : n ≤ m := by omega
    exact endsAs_unifyBody ⟨hbind, endsAs_top hle, endsAs_unifyConstArgs hle, fun s a b => ih hle s a b⟩ table s a b

/-- Two calls that end have one result. -/
theorem unifyTypes_unique {table : StdlibVariance} {n m : ℕ} {s : Subst} {a b : Ty} {r r' : Bool × Subst}
    (h : unifyTypes table n s a b = .ok r) (h' : unifyTypes table m s a b = .ok r') : r = r' := by
  have more : ∀ k, k ≤ max n m → EndsAs False (unifyTypes table k s a b) (unifyTypes table (max n m) s a b) :=
    fun k hk => endsAs_unifyTypesWith (fun _ _ _ => .refl _) hk s a b
  have hn := (more n (le_max_left n m)).eq_of_ok h
  have hm := (more m (le_max_right n m)).eq_of_ok h'
  exact Except.ok.inj (hn.symm.trans hm)

end

end Karac.Typechecker
