import Karac.Lib.Circles
import Karac.Lib.Computations
import Karac.Typechecker.UnifyFuel

/-! Well-founded substitutions, and what a call of `unify_types` that binds no metavariable to a type it occurs in does
to them. -/

namespace Karac.Typechecker

open Lib

mutual

def Ty.metavars : Ty → List ℕ
  | .typeVar id => [id]
  | .tuple es => metavarsList es
  | .array e _ => e.metavars
  | .vector e _ => e.metavars
  | .slice e _ => e.metavars
  | .named _ args => metavarsList args
  | .rc x => x.metavars
  | .arc x => x.metavars
  | .function ps r => metavarsList ps ++ r.metavars
  | .onceFunction ps r => metavarsList ps ++ r.metavars
  | .ref x => x.metavars
  | .mutRef x => x.metavars
  | .weak x => x.metavars
  | .pointer _ x => x.metavars
  | .shape dims => dims.flatMap fun d =>
    match d with
    | .spliceVar id => [id]
    | _ => []
  | .assocProjection _ _ args receiverArgs => metavarsList args ++ metavarsList receiverArgs
  | .existential _ args bindings _ _ => metavarsList args ++ metavarsBindings bindings
  | .refinement _ base => base.metavars
  | _ => []

def metavarsList : List Ty → List ℕ
  | [] => []
  | t :: ts => t.metavars ++ metavarsList ts

def metavarsBindings : List (String × Ty) → List ℕ
  | [] => []
  | (_, t) :: bs => t.metavars ++ metavarsBindings bs

end

def ConstArg.metavars : ConstArg → List ℕ
  | .constVar id => [id]
  | _ => []

def typeVarsOf (t : Ty) : Set ℕ := {v | v ∈ t.metavars}

def constVarsOf (c : ConstArg) : Set ℕ := {v | v ∈ c.metavars}

/-- No chain of bindings goes on forever; in particular none comes back to where it began. -/
structure Subst.Acyclic (s : Subst) : Prop where
  types : WellFounded (Mentions typeVarsOf s.types)
  consts : WellFounded (Mentions constVarsOf s.consts)

/-- The bindings and their variables lie in `V`. -/
def Subst.Within (V : Finset ℕ) (s : Subst) : Prop :=
  ∀ id t, s.types id = some t → id ∈ V ∧ ∀ v ∈ t.metavars, v ∈ V

def Ty.Within (V : Finset ℕ) (t : Ty) : Prop := ∀ v ∈ t.metavars, v ∈ V

open Classical in
/-- Binds a metavariable unless it occurs in its type. -/
noncomputable def checkedBind (s : Subst) (id : ℕ) (t : Ty) : Except Halt Subst :=
  if Occurs typeVarsOf s.types id t then .error .occurs else .ok (s.insert id t)

/-- `unify_types` with an occurs check. -/
noncomputable def unifyChecked (table : StdlibVariance) : ℕ → Subst → Ty → Ty → Result :=
  unifyTypesWith table checkedBind

/-- The end of an alias chain is `Never`. -/
def NeverTop (s : Subst) (id : ℕ) : Prop := ∃ n, resolveTypeVarTop n s (.typeVar id) = .ok .never

open Classical in
noncomputable def unboundCount (V : Finset ℕ) (s : Subst) : ℕ := (V.filter fun id => s.types id = none).card

open Classical in
noncomputable def neverCount (V : Finset ℕ) (s : Subst) : ℕ := (V.filter fun id => NeverTop s id).card

/-- Fewer metavariables are unbound, or as many are and fewer are bound to `Never`. -/
def Less (V : Finset ℕ) (s' s : Subst) : Prop :=
  Prod.Lex (· < ·) (· < ·) (unboundCount V s', neverCount V s') (unboundCount V s, neverCount V s)

/-- What a call may do to the state: the substitution stays as it is, or it comes closer to binding everything. -/
structure Settles (V : Finset ℕ) (s s' : Subst) : Prop where
  within : s'.Within V
  acyclic : s'.Acyclic
  progress : s'.types = s.types ∨ Less V s' s

theorem less_wf (V : Finset ℕ) : WellFounded (Less V) :=
  InvImage.wf (fun s => (unboundCount V s, neverCount V s)) (WellFounded.prod_lex Nat.lt_wfRel.wf Nat.lt_wfRel.wf)

theorem Less.trans {V : Finset ℕ} {s s' s'' : Subst} (h : Less V s' s) (h' : Less V s'' s') : Less V s'' s := by
  unfold Less at *
  rw [Prod.lex_def] at *
  omega

theorem neverTop_congr {s s' : Subst} (h : s'.types = s.types) (id : ℕ) : NeverTop s' id ↔ NeverTop s id := by
  have htop : ∀ n t, resolveTypeVarTop n s' t = resolveTypeVarTop n s t := by
    intro n
    induction n with
    | zero => intro t; rfl
    | succ n ih =>
      intro t
      cases t with
      | typeVar i => simp only [resolveTypeVarTop, h, ih]
      | _ => rfl
  simp only [NeverTop, htop]

theorem neverCount_congr {V : Finset ℕ} {s s' : Subst} (h : s'.types = s.types) : neverCount V s' = neverCount V s := by
  unfold neverCount
  congr 1
  ext id
  simp only [Finset.mem_filter, neverTop_congr h]

theorem less_congr_left {V : Finset ℕ} {s s' t : Subst} (h : s'.types = s.types) : Less V s' t ↔ Less V s t := by
  simp only [Less, unboundCount, h, neverCount_congr h]

theorem less_congr_right {V : Finset ℕ} {s s' t : Subst} (h : s'.types = s.types) : Less V t s' ↔ Less V t s := by
  simp only [Less, unboundCount, h, neverCount_congr h]

theorem Settles.refl {V : Finset ℕ} {s : Subst} (hw : s.Within V) (ha : s.Acyclic) : Settles V s s :=
  ⟨hw, ha, Or.inl rfl⟩

theorem Settles.trans {V : Finset ℕ} {s s' s'' : Subst} (h : Settles V s s') (h' : Settles V s' s'') :
    Settles V s s'' := by
  refine ⟨h'.within, h'.acyclic, ?_⟩
  rcases h.progress with heq | hless
  · rcases h'.progress with heq' | hless'
    · exact Or.inl (heq'.trans heq)
    · exact Or.inr ((less_congr_right heq).mp hless')
  · rcases h'.progress with heq' | hless'
    · exact Or.inr ((less_congr_left heq').mpr hless)
    · exact Or.inr (hless.trans hless')

/-! One binding. -/

/-- The end of an alias chain: not a metavariable, or an unbound one. -/
def IsTop (s : Subst) (t : Ty) : Prop := ∀ v, t = .typeVar v → s.types v = none

theorem isTop_of_top {n : ℕ} {s : Subst} {t t' : Ty} (h : resolveTypeVarTop n s t = .ok t') : IsTop s t' := by
  induction n generalizing t with
  | zero => cases h
  | succ n ih =>
    cases t with
    | typeVar id =>
      simp only [resolveTypeVarTop] at h
      split at h
      · exact ih h
      · rename_i hnone
        intro v hv
        rw [← Except.ok.inj h] at hv
        cases hv
        exact hnone
    | _ =>
      intro v hv
      rw [← Except.ok.inj h] at hv
      cases hv

theorem top_of_not_var {n : ℕ} {s : Subst} {t : Ty} (ht : ∀ v, t ≠ .typeVar v) :
    resolveTypeVarTop (n + 1) s t = .ok t := by
  cases t with
  | typeVar v => exact absurd rfl (ht v)
  | _ => rfl

theorem types_insert_self (s : Subst) (id : ℕ) (t : Ty) : (s.insert id t).types id = some t :=
  Function.update_self ..

theorem types_insert_of_ne (s : Subst) {id v : ℕ} (t : Ty) (hv : v ≠ id) : (s.insert id t).types v = s.types v :=
  Function.update_of_ne hv ..

section

variable {V : Finset ℕ} {s : Subst} {id : ℕ} {t : Ty}

theorem bound_of_neverTop (h : NeverTop s id) : s.types id ≠ none := by
  obtain ⟨n, hn⟩ := h
  intro hnone
  cases n with
  | zero => cases hn
  | succ n =>
    simp only [resolveTypeVarTop, hnone] at hn
    cases hn

/-- A binding to anything but `Never` leaves fewer metavariables at `Never`. -/
theorem top_of_insert (htop : IsTop s t) (hocc : ¬ Occurs typeVarsOf s.types id t) (hne : t ≠ .never) {n : ℕ} {u : Ty}
    (h : resolveTypeVarTop n (s.insert id t) u = .ok .never) :
    resolveTypeVarTop n s u = .ok .never ∧ u ≠ .typeVar id := by
  induction n generalizing u with
  | zero => cases h
  | succ n ih =>
    cases u with
    | typeVar x =>
      by_cases hx : x = id
      · subst hx
        exfalso
        simp only [resolveTypeVarTop, types_insert_self] at h
        cases n with
        | zero => cases h
        | succ n =>
          by_cases hvar : ∃ v, t = .typeVar v
          · obtain ⟨v, rfl⟩ := hvar
            have hvx : v ≠ x := by
              rintro rfl
              exact hocc ⟨v, by simp [typeVarsOf, Ty.metavars], .refl⟩
            simp only [resolveTypeVarTop, types_insert_of_ne _ _ hvx, htop v rfl] at h
            cases h
          · rw [top_of_not_var fun v hv => hvar ⟨v, hv⟩] at h
            exact hne (Except.ok.inj h)
      · simp only [resolveTypeVarTop, types_insert_of_ne _ _ hx] at h ⊢
        refine ⟨?_, fun heq => hx (Ty.typeVar.inj heq)⟩
        split at h
        · exact (ih h).1
        · cases h
    | _ =>
      refine ⟨h, fun heq => ?_⟩
      cases heq

theorem less_insert (hid : id ∈ V) (htop : IsTop s t) (hocc : ¬ Occurs typeVarsOf s.types id t)
    (hcur : s.types id = none ∨ NeverTop s id ∧ t ≠ .never) : Less V (s.insert id t) s := by
  classical
  rcases hcur with hnone | ⟨hnever, hne⟩
  · apply Prod.Lex.left
    apply Finset.card_lt_card
    refine ⟨fun x hx => ?_, fun hsub => ?_⟩
    · rw [Finset.mem_filter] at hx ⊢
      have hxid : x ≠ id := by
        rintro rfl
        rw [types_insert_self] at hx
        cases hx.2
      exact ⟨hx.1, (types_insert_of_ne s t hxid).symm.trans hx.2⟩
    · have hin := (Finset.mem_filter.mp (hsub (Finset.mem_filter.mpr ⟨hid, hnone⟩))).2
      rw [types_insert_self] at hin
      cases hin
  · have hunbound : unboundCount V (s.insert id t) = unboundCount V s := by
      unfold unboundCount
      congr 1
      ext x
      by_cases hx : x = id
      · subst hx
        simp [types_insert_self, bound_of_neverTop hnever]
      · simp [types_insert_of_ne s t hx]
    unfold Less
    rw [hunbound]
    apply Prod.Lex.right
    apply Finset.card_lt_card
    refine ⟨fun x hx => ?_, fun hsub => ?_⟩
    · rw [Finset.mem_filter] at hx ⊢
      obtain ⟨n, hn⟩ := hx.2
      exact ⟨hx.1, n, (top_of_insert htop hocc hne hn).1⟩
    · obtain ⟨n, hn⟩ := (Finset.mem_filter.mp (hsub (Finset.mem_filter.mpr ⟨hid, hnever⟩))).2
      exact (top_of_insert htop hocc hne hn).2 rfl

theorem settles_checkedBind {s' : Subst} (hw : s.Within V) (ha : s.Acyclic) (hid : id ∈ V) (ht : t.Within V)
    (htop : IsTop s t) (hcur : s.types id = none ∨ NeverTop s id ∧ t ≠ .never) (h : checkedBind s id t = .ok s') :
    Settles V s s' := by
  unfold checkedBind at h
  split_ifs at h with hocc
  cases h
  refine ⟨fun x u hx => ?_, ⟨wellFounded_update ha.types hocc, ha.consts⟩, Or.inr (less_insert hid htop hocc hcur)⟩
  by_cases hxid : x = id
  · subst hxid
    rw [types_insert_self] at hx
    cases hx
    exact ⟨hid, ht⟩
  · rw [types_insert_of_ne s t hxid] at hx
    exact hw x u hx

theorem within_of_top {n : ℕ} {t' : Ty} (hw : s.Within V) (ht : t.Within V) (h : resolveTypeVarTop n s t = .ok t') :
    t'.Within V := by
  induction n generalizing t with
  | zero => cases h
  | succ n ih =>
    cases t with
    | typeVar x =>
      simp only [resolveTypeVarTop] at h
      split at h
      · rename_i u hu
        exact ih (hw x u hu).2 h
      · cases h
        exact ht
    | _ =>
      cases h
      exact ht

end

end Karac.Typechecker
