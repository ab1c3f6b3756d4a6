import Karac.Effects.Inference
import Karac.Effects.LeastFixpoint
import Karac.Lib.RoundRobin

/-! The polymorphic marker: inference marks a function that calls one declared `with _`, or one that is marked,
on the way of adding the effects of its callees, and a public function that is marked has to declare it. -/

namespace Karac.Effects

/-- The tables that inference writes. -/
structure InferState where
  inferredEffects : EffectMap
  callsPolymorphic : Finset Symbol

section

variable (ck : EffectChecker) (fnUsesWithUnderscore : Finset Symbol)

def anyPoly (callsPolymorphic : Finset Symbol) (name : Symbol) : Bool :=
  (inferCalls ck name).any fun call => decide (call.1 ∈ fnUsesWithUnderscore ∨ call.1 ∈ callsPolymorphic)

def markPolymorphic (callsPolymorphic : Finset Symbol) (name : Symbol) : Finset Symbol :=
  if anyPoly ck fnUsesWithUnderscore callsPolymorphic name then insert name callsPolymorphic else callsPolymorphic

/-- `infer_function_effects` with both tables. -/
def inferFunction (name : Symbol) (st : InferState) : InferState × Bool :=
  let r := inferFunctionEffects ck name st.inferredEffects
  (⟨r.1, markPolymorphic ck fnUsesWithUnderscore st.callsPolymorphic name⟩, r.2)

def markedPass : List Symbol → InferState → Bool → InferState × Bool
  | [], st, changed => (st, changed)
  | name :: names, st, changed =>
    if name ∈ allFnNames ck then
      let r := inferFunction ck fnUsesWithUnderscore name st
      markedPass names r.1 (changed || r.2)
    else markedPass names st changed

def markedPasses (scc : List Symbol) : ℕ → InferState → InferState
  | 0, st => st
  | k + 1, st =>
    let r := markedPass ck fnUsesWithUnderscore scc st false
    if r.2 then markedPasses scc k r.1 else r.1

def markedScc (scc : List Symbol) (st : InferState) : InferState :=
  if scc.length = 1 then (markedPass ck fnUsesWithUnderscore scc st false).1
  else markedPasses ck fnUsesWithUnderscore scc (scc.length + 1) st

def markedSccs : List (List Symbol) → InferState → InferState
  | [], st => st
  | scc :: sccs, st => markedSccs sccs (markedScc ck fnUsesWithUnderscore scc st)

/-- `infer_effects` with both tables. -/
def inferMarked (seeds : EffectMap) : InferState :=
  markedSccs ck fnUsesWithUnderscore (tarjanScc (allFnNames ck) (buildCallGraph ck)) ⟨initEntries ck seeds, ∅⟩

end

/-- The `with _` rule of `verify_declarations`: it walks the free functions, and passes over those that are not public
and those with a polymorphic clause. -/
def reportsMissingUnderscore (ck : EffectChecker) (callsPolymorphic : Finset Symbol) (sym : Symbol) : Bool :=
  decide (sym ∈ ck.functionBodies) && (ck.functionVisibility sym).getD false &&
    match ck.declaredEffects sym with
    | some .polymorphic => false
    | some (.polymorphicWithFixed _) => false
    | _ => decide (sym ∈ callsPolymorphic)

def missingUnderscoreMessage (name : String) : String :=
  "public function '" ++ name ++ "' calls a polymorphic (`with _`) function but does not declare `with _`. Add `with _` " ++
    "to propagate closure effects."

/-- The errors of the rule, by function. -/
def missingUnderscoreErrors (ck : EffectChecker) (callsPolymorphic : Finset Symbol) : List (Symbol × String) :=
  (ck.functionBodies.filter (reportsMissingUnderscore ck callsPolymorphic)).map fun name => (name, missingUnderscoreMessage name)

/-! The tables of effects are those of inference on its own. -/

section

variable {ck : EffectChecker} {fnUsesWithUnderscore : Finset Symbol}

theorem markedPass_effects (names : List Symbol) (st : InferState) (changed : Bool) :
    (markedPass ck fnUsesWithUnderscore names st changed).1.inferredEffects =
        (sccPass ck names st.inferredEffects changed).1 ∧
      (markedPass ck fnUsesWithUnderscore names st changed).2 = (sccPass ck names st.inferredEffects changed).2 := by
  induction names generalizing st changed with
  | nil => exact ⟨rfl, rfl⟩
  | cons name names ih =>
    rw [markedPass, sccPass]
    split
    · exact ih _ _
    · exact ih _ _

theorem markedPasses_effects (scc : List Symbol) (k : ℕ) (st : InferState) :
    (markedPasses ck fnUsesWithUnderscore scc k st).inferredEffects = sccPasses ck scc k st.inferredEffects := by
  induction k generalizing st with
  | zero => rfl
  | succ k ih =>
    obtain ⟨heffects, hflag⟩ := @markedPass_effects ck fnUsesWithUnderscore scc st false
    rw [markedPasses, sccPasses, hflag]
    split
    · rw [ih, heffects]
    · exact heffects

theorem markedScc_effects (scc : List Symbol) (st : InferState) :
    (markedScc ck fnUsesWithUnderscore scc st).inferredEffects = inferScc ck scc st.inferredEffects := by
  unfold markedScc inferScc
  split
  · exact (markedPass_effects scc st false).1
  · exact markedPasses_effects scc _ st

theorem markedSccs_effects (sccs : List (List Symbol)) (st : InferState) :
    (markedSccs ck fnUsesWithUnderscore sccs st).inferredEffects = inferSccs ck sccs st.inferredEffects := by
  induction sccs generalizing st with
  | nil => rfl
  | cons scc sccs ih => rw [markedSccs, inferSccs, ih, markedScc_effects]

theorem inferMarked_effects (seeds : EffectMap) :
    (inferMarked ck fnUsesWithUnderscore seeds).inferredEffects = inferEffects ck seeds := markedSccs_effects _ _

end

end Karac.Effects

/-! The passes over a component as sweeps: each effect and the mark go round at their own pace, and there is one pass more
than those that found an effect that is new. -/

namespace Karac.Effects

open Lib.RoundRobin
open Lib.Saturation (pass step Closed)

/-! A pass, at one effect and at the mark. -/

section

variable (ck : EffectChecker) (fnUsesWithUnderscore : Finset Symbol)

def DeclaresPolymorphic (f : Symbol) : Prop :=
  ck.declaredEffects f = some .polymorphic ∨ ∃ fixed, ck.declaredEffects f = some (.polymorphicWithFixed fixed)

/-- Does a callee pass on what is inferred for it? -/
def Relays (callee : Symbol) : Prop := (ck.functionVisibility callee).getD false = true → DeclaresPolymorphic ck callee

def EffectStart (e : Effect) (f : Symbol) : Prop := f ∈ allFnNames ck ∧ ∃ call ∈ callsOf ck f, e ∈ contribution ck ⊥ call.1

def EffectEdge (f g : Symbol) : Prop := f ∈ allFnNames ck ∧ (∃ call ∈ callsOf ck f, call.1 = g) ∧ Relays ck g

def MarkStart (f : Symbol) : Prop := f ∈ allFnNames ck ∧ ∃ call ∈ callsOf ck f, call.1 ∈ fnUsesWithUnderscore

def MarkEdge (f g : Symbol) : Prop := f ∈ allFnNames ck ∧ ∃ call ∈ callsOf ck f, call.1 = g

/-- The functions that have an effect. -/
def holders (S : Family) (e : Effect) : Set Symbol := {f | e ∈ S f}

end

variable {ck : EffectChecker} {fnUsesWithUnderscore : Finset Symbol}

theorem mem_contribution_iff {S : Family} {e : Effect} {callee : Symbol} :
    e ∈ contribution ck S callee ↔ e ∈ contribution ck ⊥ callee ∨ Relays ck callee ∧ e ∈ S callee := by
  unfold contribution Relays DeclaresPolymorphic
  by_cases hvis : (ck.functionVisibility callee).getD false = true
  · rw [if_pos hvis, if_pos hvis]
    cases hdecl : ck.declaredEffects callee with
    | none => simp [hvis]
    | some declared =>
      cases declared with
      | explicit set => simp [hvis]
      | polymorphic => simp
      | polymorphicWithFixed fixed => simp
      | none => simp [hvis]
  · rw [if_neg hvis, if_neg hvis]
    simp [hvis]

theorem mem_gain_iff {S : Family} {e : Effect} {f : Symbol} :
    e ∈ gain ck S f ↔ Pulls (EffectStart ck e) (EffectEdge ck) (holders S e) f := by
  constructor
  · rintro ⟨hf, call, hc, he⟩
    rcases mem_contribution_iff.mp he with he | ⟨hrelays, he⟩
    · exact Or.inl ⟨hf, call, hc, he⟩
    · exact Or.inr ⟨call.1, ⟨hf, ⟨call, hc, rfl⟩, hrelays⟩, he⟩
  · rintro (⟨hf, call, hc, he⟩ | ⟨g, ⟨hf, ⟨call, hc, rfl⟩, hrelays⟩, he⟩)
    · exact ⟨hf, call, hc, mem_contribution_iff.mpr (Or.inl he)⟩
    · exact ⟨hf, call, hc, mem_contribution_iff.mpr (Or.inr ⟨hrelays, he⟩)⟩

/-- At one effect a pass is a sweep. -/
theorem holders_pass (names : List Symbol) (S : Family) (e : Effect) :
    holders (pass (gain ck) names S) e = sweep (EffectStart ck e) (EffectEdge ck) names (holders S e) := by
  induction names generalizing S with
  | nil => rfl
  | cons name names ih =>
    have hstep : holders (step (gain ck) S name) e = visit (EffectStart ck e) (EffectEdge ck) (holders S e) name := by
      ext g
      by_cases hg : g = name
      · rw [hg]
        unfold holders visit
        rw [Set.mem_ofPred_eq, Lib.Saturation.step_self]
        exact or_congr_right (mem_gain_iff.trans (by simp [holders]))
      · unfold holders visit
        rw [Set.mem_ofPred_eq, Lib.Saturation.step_of_ne S hg]
        simp [hg]
    unfold Lib.Saturation.pass sweep
    rw [List.foldl_cons, List.foldl_cons, ← hstep]
    exact ih _

theorem holders_passes (names : List Symbol) (k : ℕ) (S : Family) (e : Effect) :
    holders ((pass (gain ck) names)^[k] S) e = (sweep (EffectStart ck e) (EffectEdge ck) names)^[k] (holders S e) := by
  induction k generalizing S with
  | zero => rfl
  | succ k ih => rw [Function.iterate_succ_apply, Function.iterate_succ_apply, ih, holders_pass]

theorem anyPoly_iff (callsPolymorphic : Finset Symbol) (name : Symbol) :
    anyPoly ck fnUsesWithUnderscore callsPolymorphic name = true ↔
      ∃ call ∈ callsOf ck name, call.1 ∈ fnUsesWithUnderscore ∨ call.1 ∈ callsPolymorphic := by
  unfold anyPoly inferCalls
  rw [List.any_eq_true]
  simp only [decide_eq_true_eq]
  rw [retainFirst_callees _ _ fun c => c ∈ fnUsesWithUnderscore ∨ c ∈ callsPolymorphic]
  simp [callsOf]

/-- The marks of a pass are a sweep. -/
theorem markedPass_marks (names : List Symbol) (st : InferState) (changed : Bool) :
    ((markedPass ck fnUsesWithUnderscore names st changed).1.callsPolymorphic : Set Symbol) =
      sweep (MarkStart ck fnUsesWithUnderscore) (MarkEdge ck) names st.callsPolymorphic := by
  induction names generalizing st changed with
  | nil => rfl
  | cons name names ih =>
    unfold sweep
    rw [markedPass, List.foldl_cons]
    by_cases hname : name ∈ allFnNames ck
    · rw [if_pos hname, ih]
      unfold sweep inferFunction markPolymorphic
      congr 1
      ext g
      have hpoly := @anyPoly_iff ck fnUsesWithUnderscore st.callsPolymorphic name
      have hpulls : Pulls (MarkStart ck fnUsesWithUnderscore) (MarkEdge ck) (st.callsPolymorphic : Set Symbol) name ↔
          ∃ call ∈ callsOf ck name, call.1 ∈ fnUsesWithUnderscore ∨ call.1 ∈ st.callsPolymorphic := by
        constructor
        · rintro (⟨-, call, hc, hu⟩ | ⟨g, ⟨-, call, hc, rfl⟩, hg⟩)
          · exact ⟨call, hc, Or.inl hu⟩
          · exact ⟨call, hc, Or.inr hg⟩
        · rintro ⟨call, hc, hu | hg⟩
          · exact Or.inl ⟨hname, call, hc, hu⟩
          · exact Or.inr ⟨call.1, ⟨hname, call, hc, rfl⟩, hg⟩
      unfold visit
      rw [Set.mem_ofPred_eq, hpulls, ← hpoly]
      split
      · rename_i h
        simp [h, or_comm]
      · rename_i h
        simp [h]
    · rw [if_neg hname, ih]
      unfold sweep
      congr 1
      ext g
      unfold visit
      rw [Set.mem_ofPred_eq, iff_comm, or_iff_left]
      rintro ⟨-, ⟨hf, -⟩ | ⟨_, ⟨hf, -⟩, -⟩⟩ <;> exact hname hf

/-! A pass that reports a change makes one. -/

theorem addCalleeEffects_changed (call : Symbol × Span) (es : List Effect) (r : EffectSet × Bool)
    (h : (addCalleeEffects call es r).2 = true) :
    r.2 = true ∨ ∃ e, (addCalleeEffects call es r).1.contains e = true ∧ r.1.contains e = false := by
  induction es generalizing r with
  | nil => exact Or.inl h
  | cons e es ih =>
    rw [addCalleeEffects] at h ⊢
    by_cases hmem : r.1.contains e = true
    · rw [if_pos hmem] at h ⊢
      exact ih r h
    · rw [if_neg hmem] at h ⊢
      refine Or.inr ⟨e, ?_, by simpa using hmem⟩
      rw [addCalleeEffects_contains]
      exact Or.inl (by rw [contains_add]; exact Or.inr rfl)

theorem addCalls_changed (inferred : EffectMap) (calls : List (Symbol × Span)) (r : EffectSet × Bool)
    (h : (addCalls ck inferred calls r).2 = true) :
    r.2 = true ∨ ∃ e, (addCalls ck inferred calls r).1.contains e = true ∧ r.1.contains e = false := by
  induction calls generalizing r with
  | nil => exact Or.inl h
  | cons call calls ih =>
    rw [addCalls] at h ⊢
    rcases ih _ h with hflag | ⟨e, hin, hnot⟩
    · refine (addCalleeEffects_changed _ _ _ hflag).imp_right fun hnew => ?_
      obtain ⟨e, hin, hnot⟩ := hnew
      exact ⟨e, (addCalls_contains _ _ _ e).mpr (Or.inl hin), hnot⟩
    · refine Or.inr ⟨e, hin, ?_⟩
      by_contra hmem
      rw [Bool.not_eq_false] at hmem
      rw [(addCalleeEffects_contains _ _ _ e).mpr (Or.inl hmem)] at hnot
      exact absurd hnot (by simp)

theorem inferFunctionEffects_changed {name : Symbol} {inferred : EffectMap}
    (h : (inferFunctionEffects ck name inferred).2 = true) :
    ∃ e, e ∈ effectsOf (inferFunctionEffects ck name inferred).1 name ∧ e ∉ effectsOf inferred name := by
  rcases addCalls_changed _ _ _ h with hflag | ⟨e, hin, hnot⟩
  · exact absurd hflag (by simp)
  · refine ⟨e, ?_, ?_⟩
    · rw [mem_effectsOf]
      unfold inferFunctionEffects
      simp only
      rw [Function.update_self]
      exact hin
    · rw [mem_effectsOf, hnot]
      simp

theorem sccPass_changed (names : List Symbol) (inferred : EffectMap) (changed : Bool)
    (h : (sccPass ck names inferred changed).2 = true) :
    changed = true ∨ effectsOf (sccPass ck names inferred changed).1 ≠ effectsOf inferred := by
  induction names generalizing inferred changed with
  | nil => exact Or.inl h
  | cons name names ih =>
    rw [sccPass] at h ⊢
    by_cases hname : name ∈ allFnNames ck
    · rw [if_pos hname] at h ⊢
      have hgrows : effectsOf inferred ≤ effectsOf (inferFunctionEffects ck name inferred).1 := by
        rw [inferFunctionEffects_step hname]
        exact Lib.Saturation.le_step _ _
      have hrest : effectsOf (inferFunctionEffects ck name inferred).1 ≤
          effectsOf (sccPass ck names (inferFunctionEffects ck name inferred).1
            (changed || (inferFunctionEffects ck name inferred).2)).1 := by
        rw [sccPass_pass]
        exact Lib.Saturation.le_pass _ _
      -- what is new at one of the two is new at the end
      rcases ih _ _ h with hflag | hne
      · rcases Bool.or_eq_true_iff.mp hflag with hflag | hflag
        · exact Or.inl hflag
        · obtain ⟨e, hin, hnot⟩ := inferFunctionEffects_changed hflag
          exact Or.inr fun heq => hnot (heq ▸ hrest name hin)
      · exact Or.inr fun heq => hne (le_antisymm (heq ▸ hgrows) hrest)
    · rw [if_neg hname] at h ⊢
      exact ih _ _ h

/-! The passes over a component. -/

/-- The passes of a component: one more than those that found an effect that is new. -/
theorem markedPasses_spec (names : List Symbol) (k : ℕ) (st : InferState) :
    ∃ r, (∀ j < r, (pass (gain ck) names)^[j + 1] (effectsOf st.inferredEffects) ≠
        (pass (gain ck) names)^[j] (effectsOf st.inferredEffects)) ∧
      ((r ≤ k ∧ (pass (gain ck) names)^[r + 1] (effectsOf st.inferredEffects) =
          (pass (gain ck) names)^[r] (effectsOf st.inferredEffects)) ∨ r = k + 1) ∧
      effectsOf (markedPasses ck fnUsesWithUnderscore names (k + 1) st).inferredEffects =
        (pass (gain ck) names)^[r] (effectsOf st.inferredEffects) ∧
      ((markedPasses ck fnUsesWithUnderscore names (k + 1) st).callsPolymorphic : Set Symbol) =
        (sweep (MarkStart ck fnUsesWithUnderscore) (MarkEdge ck) names)^[min (r + 1) (k + 1)] st.callsPolymorphic := by
  obtain ⟨heffects, hflag⟩ := @markedPass_effects ck fnUsesWithUnderscore names st false
  have hpass := @sccPass_pass ck names st.inferredEffects false
  have hmarks := @markedPass_marks ck fnUsesWithUnderscore names st false
  cases hf : (markedPass ck fnUsesWithUnderscore names st false).2 with
  | false =>
    have hsame := (sccPass_unchanged names st.inferredEffects false (hflag ▸ hf)).2
    refine ⟨0, fun j hj => absurd hj (Nat.not_lt_zero j), Or.inl ⟨Nat.zero_le k, hpass.symm.trans hsame⟩, ?_, ?_⟩
    · rw [markedPasses, if_neg (by simp [hf]), heffects]
      exact hsame
    · rw [markedPasses, if_neg (by simp [hf]), hmarks, Nat.min_eq_left (by omega)]
      rfl
  | true =>
    have hne : (pass (gain ck) names) (effectsOf st.inferredEffects) ≠ effectsOf st.inferredEffects :=
      hpass ▸ (sccPass_changed names st.inferredEffects false (hflag ▸ hf)).resolve_left (by simp)
    rw [markedPasses, if_pos hf]
    cases k with
    | zero =>
      refine ⟨1, fun j hj => ?_, Or.inr rfl, ?_, ?_⟩
      · obtain rfl : j = 0 := by omega
        exact hne
      · exact (congrArg effectsOf heffects).trans hpass
      · exact hmarks
    | succ k =>
      obtain ⟨r, hnew, hend, hfinal, hmarked⟩ := markedPasses_spec names k
        (markedPass ck fnUsesWithUnderscore names st false).1
      rw [heffects, hpass] at hnew hend hfinal
      refine ⟨r + 1, fun j hj => ?_, hend.imp (fun h => ⟨Nat.succ_le_succ h.1, h.2⟩) (congrArg (· + 1)), hfinal, ?_⟩
      · cases j with
        | zero => exact hne
        | succ j => exact hnew j (by omega)
      · rw [hmarked, hmarks, ← Function.iterate_succ_apply]
        congr 1
        omega

theorem holders_ext {S T : Family} (h : ∀ e, holders S e = holders T e) : S = T := by
  funext f
  ext e
  exact Set.ext_iff.mp (h e) f

theorem passes_settled (names : List Symbol) (S : Family) :
    (pass (gain ck) names)^[names.length + 1] S = (pass (gain ck) names)^[names.length] S :=
  holders_ext fun e => by rw [holders_passes, holders_passes, sweeps_settled]

theorem passes_last {names : List Symbol} {S : Family} {r n : ℕ} (hr : r ≤ n)
    (hend : (pass (gain ck) names)^[r + 1] S = (pass (gain ck) names)^[r] S) :
    (pass (gain ck) names)^[n] S = (pass (gain ck) names)^[r] S := by
  obtain ⟨d, rfl⟩ := Nat.exists_eq_add_of_le hr
  rw [Nat.add_comm, Function.iterate_add_apply]
  rw [Function.iterate_succ_apply'] at hend
  exact Function.iterate_fixed hend d

/-- An effect that takes long enough to come for this many passes to be made. -/
def Awaited (ck : EffectChecker) (names : List Symbol) (S : Family) (a : ℕ) : Prop :=
  ∃ e g, e ∈ (pass (gain ck) names)^[names.length] S g ∧ e ∉ S g ∧
    ∀ j, Within (First (EffectStart ck e) (EffectEdge ck) names (holders S e)) (Inner (EffectEdge ck) names) j g → a ≤ j + 1

/-- What is new until the passes settle is what is awaited. -/
theorem awaited_iff {names : List Symbol} (hsorted : names.Pairwise (· < ·)) {S : Family} {r : ℕ} (hr : r ≤ names.length)
    (hnew : ∀ j < r, (pass (gain ck) names)^[j + 1] S ≠ (pass (gain ck) names)^[j] S)
    (hend : (pass (gain ck) names)^[r + 1] S = (pass (gain ck) names)^[r] S) {a : ℕ} (ha : a ≠ 0) :
    Awaited ck names S a ↔ a ≤ r := by
  have hmem : ∀ e g k, e ∈ (pass (gain ck) names)^[k] S g ↔
      e ∈ S g ∨ Arrived (EffectStart ck e) (EffectEdge ck) names (holders S e) k g := by
    intro e g k
    have hsweeps := @mem_sweeps _ (EffectStart ck e) (EffectEdge ck) _ names (holders S e) hsorted k g
    rw [← holders_passes] at hsweeps
    exact hsweeps
  have hlast := passes_last hr hend
  constructor
  · rintro ⟨e, g, hin, hnot, hlate⟩
    rw [hlast] at hin
    have harrived := ((hmem e g r).mp hin).resolve_left hnot
    cases r with
    | zero => exact harrived.elim
    | succ j => exact hlate j harrived
  · intro har
    obtain ⟨a, rfl⟩ := Nat.exists_eq_succ_of_ne_zero ha
    -- the pass before the last of the awaited ones finds an effect that is new
    obtain ⟨g, e, hin, hout⟩ : ∃ g e, e ∈ (pass (gain ck) names)^[a + 1] S g ∧ e ∉ (pass (gain ck) names)^[a] S g := by
      by_contra hnone
      push Not at hnone
      refine hnew a har (le_antisymm (fun g e => hnone g e) ?_)
      rw [Function.iterate_succ_apply']
      exact Lib.Saturation.le_pass _ _
    have hnot : e ∉ S g := fun h => hout ((hmem e g a).mpr (Or.inl h))
    refine ⟨e, g, ?_, hnot, fun j hj => ?_⟩
    · rw [hlast]
      refine (hmem e g r).mpr (Or.inr ?_)
      exact (((hmem e g (a + 1)).mp hin).resolve_left hnot).mono har
    · by_contra hlt
      have harrived : Arrived (EffectStart ck e) (EffectEdge ck) names (holders S e) (j + 1) g := hj
      exact hout ((hmem e g a).mpr (Or.inr (harrived.mono (by omega))))

/-- A component of several functions: who is marked, and with which effects it ends. -/
theorem markedPasses_settle {names : List Symbol} (hsorted : names.Pairwise (· < ·)) (st : InferState) :
    effectsOf (markedPasses ck fnUsesWithUnderscore names (names.length + 1) st).inferredEffects =
        (pass (gain ck) names)^[names.length] (effectsOf st.inferredEffects) ∧
      ∀ f, f ∈ (markedPasses ck fnUsesWithUnderscore names (names.length + 1) st).callsPolymorphic ↔
        f ∈ st.callsPolymorphic ∨
          ∃ a, Within (First (MarkStart ck fnUsesWithUnderscore) (MarkEdge ck) names st.callsPolymorphic)
              (Inner (MarkEdge ck) names) a f ∧
            (a = 0 ∨ Awaited ck names (effectsOf st.inferredEffects) a) := by
  obtain ⟨r, hnew, hend, hfinal, hmarked⟩ := @markedPasses_spec ck fnUsesWithUnderscore names names.length st
  have hsettled := @passes_settled ck names (effectsOf st.inferredEffects)
  obtain ⟨hr, hend⟩ := hend.resolve_right fun h => hnew names.length (by omega) hsettled
  refine ⟨hfinal.trans (passes_last hr hend).symm, fun f => ?_⟩
  rw [← Finset.mem_coe, hmarked, Nat.min_eq_left (by omega), mem_sweeps hsorted]
  refine or_congr_right ⟨fun h => ⟨r, h, ?_⟩, fun ⟨a, h, hlate⟩ => Within.mono h ?_⟩
  · by_cases hzero : r = 0
    · exact Or.inl hzero
    · exact Or.inr ((awaited_iff hsorted hr hnew hend hzero).mpr le_rfl)
  · by_cases hzero : a = 0
    · omega
    · exact (awaited_iff hsorted hr hnew hend hzero).mp (hlate.resolve_left hzero)

end Karac.Effects
