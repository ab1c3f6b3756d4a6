import Karac.Effects.Inference
import Karac.Lib.Saturation

/-! Inference ends at the least family of sets that holds the seeds and what the callees contribute. -/

namespace Karac.Effects

open Lib.Saturation

/-! The abstract side: families of sets, and what a callee contributes. -/

abbrev Family := Symbol → Set Effect

/-- The effects the table holds for a name. -/
def effectsOf (inferred : EffectMap) : Family := fun name => {e | ((inferred name).getD {}).contains e = true}

def memSet (set : EffectSet) : Set Effect := {e | set.contains e = true}

variable (ck : EffectChecker)

/-- The declared set for a public function with a clause, with the inferred one where the clause is
polymorphic; the inferred set of a private function. -/
def contribution (S : Family) (callee : Symbol) : Set Effect :=
  if (ck.functionVisibility callee).getD false then
    match ck.declaredEffects callee with
    | some (.explicit set) => memSet set
    | some .polymorphic => S callee
    | some (.polymorphicWithFixed fixed) => memSet fixed ∪ S callee
    | some .none => ∅
    | none => ∅
  else S callee

/-- All calls of a function, those that inference adds included. -/
def callsOf (name : Symbol) : List (Symbol × Span) :=
  ck.bodyCalls name ++ ck.modbindCalls name ++ ck.fnValueRefCalls name

/-- What the callees of a function with a body contribute. -/
def gain (S : Family) (name : Symbol) : Set Effect :=
  {e | name ∈ allFnNames ck ∧ ∃ call ∈ callsOf ck name, e ∈ contribution ck S call.1}

/-- Every set holds its seed, and that of a function with a body what its callees contribute. -/
structure IsFamily (seeds : EffectMap) (S : Family) : Prop where
  seed : effectsOf seeds ≤ S
  callees : ∀ name ∈ allFnNames ck, ∀ call ∈ callsOf ck name, contribution ck S call.1 ⊆ S name

variable {ck}

theorem contribution_mono {S T : Family} (h : S ≤ T) (callee : Symbol) :
    contribution ck S callee ⊆ contribution ck T callee := by
  unfold contribution
  split
  · split
    · exact subset_rfl
    · exact h callee
    · exact Set.union_subset_union_right _ (h callee)
    · exact subset_rfl
    · exact subset_rfl
  · exact h callee

theorem contribution_congr {S T : Family} {e : Effect} {callee : Symbol} (h : e ∈ S callee ↔ e ∈ T callee) :
    e ∈ contribution ck S callee ↔ e ∈ contribution ck T callee := by
  unfold contribution
  split
  · split
    · exact Iff.rfl
    · exact h
    · exact or_congr_right h
    · exact Iff.rfl
    · exact Iff.rfl
  · exact h

theorem gain_pointwise : Pointwise (gain ck) where
  mono _ _ h _ _ he := ⟨he.1, he.2.imp fun call hc => ⟨hc.1, contribution_mono h call.1 hc.2⟩⟩
  slice _ _ _ _ h := and_congr_right fun _ => exists_congr fun call =>
    and_congr_right fun _ => contribution_congr (h call.1)

/-! Effect sets as sets. -/

theorem mem_effectsOf {inferred : EffectMap} {name : Symbol} {e : Effect} :
    e ∈ effectsOf inferred name ↔ ((inferred name).getD {}).contains e = true := Iff.rfl

theorem contains_iff {set : EffectSet} {e : Effect} :
    set.contains e = true ↔ e ∈ set.effects.map TracedEffect.effect := by
  unfold EffectSet.contains
  rw [List.any_eq_true, List.mem_map]
  exact exists_congr fun t => and_congr_right fun _ => beq_iff_eq

theorem contains_add {set : EffectSet} {e e' : Effect} {origin : EffectOrigin} :
    (set.add e origin).contains e' = true ↔ set.contains e' = true ∨ e' = e := by
  unfold EffectSet.add
  split
  · rename_i h
    exact ⟨Or.inl, fun h' => h'.elim id fun heq => heq ▸ h⟩
  · rw [contains_iff, contains_iff, List.map_append, List.mem_append]
    simp

theorem mem_iter_inferredSet {inferred : EffectMap} {name : Symbol} {e : Effect} :
    e ∈ (inferredSet inferred name).iter ↔ e ∈ effectsOf inferred name := by
  rw [mem_effectsOf]
  unfold inferredSet
  cases inferred name with
  | none => simp [CalleeEffectSets.iter, EffectSet.contains]
  | some set => exact contains_iff.symm

/-- What is read off the tables for a callee is its contribution. -/
theorem mem_iter {inferred : EffectMap} {callee : Symbol} {e : Effect} :
    e ∈ (calleeEffectSets ck inferred callee).iter ↔ e ∈ contribution ck (effectsOf inferred) callee := by
  unfold calleeEffectSets contribution
  split
  · cases hdecl : ck.declaredEffects callee with
    | none => simp [CalleeEffectSets.iter]
    | some decl =>
      cases decl with
      | explicit set => exact contains_iff.symm
      | polymorphic => exact mem_iter_inferredSet
      | polymorphicWithFixed fixed =>
        simp only [Set.mem_union]
        rw [mem_effectsOf]
        cases hinf : inferred callee with
        | none => simp [CalleeEffectSets.iter, memSet, EffectSet.contains]
        | some set =>
          simp only [CalleeEffectSets.iter, List.mem_append, List.mem_filter, Option.getD_some, ← contains_iff, memSet,
            Set.mem_ofPred_eq, Bool.not_eq_true']
          by_cases hf : fixed.contains e = true
          · simp [hf]
          · simp [hf]
      | none => simp [CalleeEffectSets.iter]
  · exact mem_iter_inferredSet

/-! The passes of the checker are passes over the family. -/

theorem addCalleeEffects_contains (call : Symbol × Span) (es : List Effect) (r : EffectSet × Bool) (e : Effect) :
    (addCalleeEffects call es r).1.contains e = true ↔ r.1.contains e = true ∨ e ∈ es := by
  induction es generalizing r with
  | nil => simp [addCalleeEffects]
  | cons e' es ih =>
    rw [addCalleeEffects, ih, List.mem_cons]
    split
    · rename_i h
      exact ⟨fun hmem => hmem.imp_right Or.inr, fun hmem => hmem.elim Or.inl fun hmem =>
        hmem.elim (fun heq => Or.inl (heq ▸ h)) Or.inr⟩
    · rw [contains_add, or_assoc]

theorem addCalleeEffects_unchanged (call : Symbol × Span) (es : List Effect) (r : EffectSet × Bool)
    (h : (addCalleeEffects call es r).2 = false) : r.2 = false ∧ ∀ e ∈ es, r.1.contains e = true := by
  induction es generalizing r with
  | nil => exact ⟨h, fun e he => absurd he List.not_mem_nil⟩
  | cons e' es ih =>
    rw [addCalleeEffects] at h
    obtain ⟨hflag, hall⟩ := ih _ h
    split at hflag
    · rename_i hcon
      rw [if_pos hcon] at hall
      exact ⟨hflag, List.forall_mem_cons.mpr ⟨hcon, hall⟩⟩
    · exact absurd hflag (by simp)

theorem addCalls_contains (inferred : EffectMap) (calls : List (Symbol × Span)) (r : EffectSet × Bool) (e : Effect) :
    (addCalls ck inferred calls r).1.contains e = true ↔
      r.1.contains e = true ∨ ∃ call ∈ calls, e ∈ contribution ck (effectsOf inferred) call.1 := by
  induction calls generalizing r with
  | nil => simp [addCalls]
  | cons call calls ih =>
    rw [addCalls, ih, addCalleeEffects_contains, mem_iter, List.exists_mem_cons_iff, or_assoc]

theorem addCalls_unchanged (inferred : EffectMap) (calls : List (Symbol × Span)) (r : EffectSet × Bool)
    (h : (addCalls ck inferred calls r).2 = false) :
    r.2 = false ∧ ∀ call ∈ calls, ∀ e ∈ contribution ck (effectsOf inferred) call.1, r.1.contains e = true := by
  induction calls generalizing r with
  | nil => exact ⟨h, fun call hc => absurd hc List.not_mem_nil⟩
  | cons call calls ih =>
    rw [addCalls] at h
    obtain ⟨hflag, hall⟩ := ih _ h
    obtain ⟨hr, hes⟩ := addCalleeEffects_unchanged _ _ _ hflag
    refine ⟨hr, List.forall_mem_cons.mpr ⟨fun e he => hes e (mem_iter.mpr he), fun call' hc e he => ?_⟩⟩
    rcases (addCalleeEffects_contains _ _ _ e).mp (hall call' hc e he) with h1 | h1
    · exact h1
    · exact hes e h1

/-- Keeping the first call of each callee keeps the callees. -/
theorem retainFirst_callees (calls : List (Symbol × Span)) (seen : Finset Symbol) (P : Symbol → Prop) :
    (∃ call ∈ retainFirst calls seen, P call.1) ↔ ∃ call ∈ calls, call.1 ∉ seen ∧ P call.1 := by
  induction calls generalizing seen with
  | nil => simp [retainFirst]
  | cons call calls ih =>
    rw [retainFirst, List.exists_mem_cons_iff]
    by_cases hseen : call.1 ∈ seen
    · rw [if_pos hseen, ih]
      simp [hseen]
    · rw [if_neg hseen, List.exists_mem_cons_iff, ih]
      constructor
      · rintro (h | ⟨c, hc, hnot, h⟩)
        · exact Or.inl ⟨hseen, h⟩
        · exact Or.inr ⟨c, hc, fun hmem => hnot (Finset.mem_insert_of_mem hmem), h⟩
      · rintro (⟨-, h⟩ | ⟨c, hc, hnot, h⟩)
        · exact Or.inl h
        · by_cases heq : c.1 = call.1
          · exact Or.inl (heq ▸ h)
          · exact Or.inr ⟨c, hc, fun hmem => (Finset.mem_insert.mp hmem).elim heq hnot, h⟩

/-- Without its own entry a function reads of itself nothing that it does not have. -/
theorem contribution_without {inferred : EffectMap} {name callee : Symbol} {e : Effect} :
    (e ∈ effectsOf inferred name ∨ e ∈ contribution ck (effectsOf (Function.update inferred name none)) callee) ↔
      (e ∈ effectsOf inferred name ∨ e ∈ contribution ck (effectsOf inferred) callee) := by
  by_cases hmem : e ∈ effectsOf inferred name
  · exact ⟨fun _ => Or.inl hmem, fun _ => Or.inl hmem⟩
  · refine or_congr_right (contribution_congr ?_)
    by_cases hc : callee = name
    · rw [hc]
      refine ⟨fun h => ?_, fun h => absurd h hmem⟩
      rw [mem_effectsOf, Function.update_self] at h
      exact absurd h (by simp [EffectSet.contains])
    · rw [mem_effectsOf, mem_effectsOf, Function.update_of_ne hc]

theorem inferFunctionEffects_step {name : Symbol} (hname : name ∈ allFnNames ck) (inferred : EffectMap) :
    effectsOf (inferFunctionEffects ck name inferred).1 = step (gain ck) (effectsOf inferred) name := by
  funext g
  by_cases hg : g = name
  · rw [hg, step_self]
    ext e
    rw [mem_effectsOf]
    unfold inferFunctionEffects
    simp only
    rw [Function.update_self, Option.getD_some, addCalls_contains]
    unfold inferCalls
    rw [retainFirst_callees _ _ fun c => e ∈ contribution ck (effectsOf (Function.update inferred name none)) c]
    constructor
    · rintro (h | ⟨call, hc, -, he⟩)
      · exact Or.inl h
      · exact (contribution_without.mp (Or.inr he)).imp_right fun h => ⟨hname, call, hc, h⟩
    · rintro (h | ⟨-, call, hc, he⟩)
      · exact Or.inl h
      · exact (contribution_without.mpr (Or.inr he)).imp_right fun h => ⟨call, hc, Finset.notMem_empty _, h⟩
  · rw [step_of_ne _ hg]
    unfold effectsOf inferFunctionEffects
    simp only
    rw [Function.update_of_ne hg]

theorem inferFunctionEffects_unchanged {name : Symbol} {inferred : EffectMap}
    (h : (inferFunctionEffects ck name inferred).2 = false) : Closed (gain ck) (effectsOf inferred) name := by
  rintro e ⟨-, call, hc, he⟩
  by_contra hnot
  have hwithout := (contribution_without.mpr (Or.inr he)).resolve_left hnot
  obtain ⟨call', hc', he'⟩ := (retainFirst_callees (callsOf ck name) ∅
    fun c => e ∈ contribution ck (effectsOf (Function.update inferred name none)) c).mpr
      ⟨call, hc, Finset.notMem_empty _, hwithout⟩
  exact hnot ((addCalls_unchanged _ _ _ h).2 call' hc' e he')

theorem gain_of_not_mem {name : Symbol} (hname : name ∉ allFnNames ck) (S : Family) : gain ck S name = ∅ :=
  Set.eq_empty_of_forall_notMem fun _ he => hname he.1

theorem sccPass_pass (names : List Symbol) (inferred : EffectMap) (changed : Bool) :
    effectsOf (sccPass ck names inferred changed).1 = pass (gain ck) names (effectsOf inferred) := by
  induction names generalizing inferred changed with
  | nil => rfl
  | cons name names ih =>
    rw [sccPass]
    split
    · rename_i hname
      rw [ih, inferFunctionEffects_step hname]
      rfl
    · rename_i hname
      rw [ih]
      have hclosed : Closed (gain ck) (effectsOf inferred) name := by
        unfold Closed
        rw [gain_of_not_mem hname]
        exact Set.empty_subset _
      unfold Lib.Saturation.pass
      rw [List.foldl_cons, step_fixed hclosed]

theorem sccPass_unchanged (names : List Symbol) (inferred : EffectMap) (changed : Bool)
    (h : (sccPass ck names inferred changed).2 = false) :
    changed = false ∧ effectsOf (sccPass ck names inferred changed).1 = effectsOf inferred := by
  induction names generalizing inferred changed with
  | nil => exact ⟨h, rfl⟩
  | cons name names ih =>
    rw [sccPass] at h ⊢
    split
    · rename_i hname
      rw [if_pos hname] at h
      obtain ⟨hflag, heq⟩ := ih _ _ h
      obtain ⟨hch, hstep⟩ := Bool.or_eq_false_iff.mp hflag
      refine ⟨hch, heq.trans ?_⟩
      rw [inferFunctionEffects_step hname, step_fixed (inferFunctionEffects_unchanged hstep)]
    · rename_i hname
      rw [if_neg hname] at h
      exact ih _ _ h

/-- Stopping at a pass without change leaves out passes that change nothing. -/
theorem sccPasses_iterate (scc : List Symbol) (k : ℕ) (inferred : EffectMap) :
    effectsOf (sccPasses ck scc k inferred) = (pass (gain ck) scc)^[k] (effectsOf inferred) := by
  induction k generalizing inferred with
  | zero => rfl
  | succ k ih =>
    rw [sccPasses, Function.iterate_succ_apply, ← sccPass_pass scc inferred false]
    split
    · rw [ih]
    · rename_i hflag
      have hsame := (sccPass_unchanged scc inferred false (by simpa using hflag)).2
      have hfix : pass (gain ck) scc (effectsOf (sccPass ck scc inferred false).1) =
          effectsOf (sccPass ck scc inferred false).1 := by
        rw [hsame, ← sccPass_pass scc inferred false, hsame]
      exact (Function.iterate_fixed hfix k).symm

/-- A component ends closed; its functions are the only ones that change, within every bounding family. -/
theorem inferScc_closed (scc : List Symbol) (inferred : EffectMap) :
    ∃ k, effectsOf (inferScc ck scc inferred) = (pass (gain ck) scc)^[k] (effectsOf inferred) ∧
      ∀ name ∈ scc, Closed (gain ck) (effectsOf (inferScc ck scc inferred)) name := by
  unfold inferScc
  split
  · rename_i hlen
    obtain ⟨name, rfl⟩ := List.length_eq_one_iff.mp hlen
    refine ⟨1, sccPass_pass .., fun g hg => ?_⟩
    rw [sccPass_pass, List.mem_singleton.mp hg]
    exact step_closed gain_pointwise _ _
  · refine ⟨scc.length + 1, sccPasses_iterate .., fun g hg => ?_⟩
    rw [sccPasses_iterate]
    exact passes_closed gain_pointwise (Nat.lt_succ_self _) _ hg

/-! The components in order. -/

theorem buildCallGraph_closed : ∀ v ∈ allFnNames ck, ∀ call ∈ buildCallGraph ck v, call.1 ∈ allFnNames ck :=
  fun _ _ _ hc => of_decide_eq_true (List.mem_filter.mp hc).2

/-- The components hold every function with a body, and its callees are in the same or an earlier one. -/
theorem tarjanScc_spec : (∀ name ∈ allFnNames ck, name ∈ (tarjanScc (allFnNames ck) (buildCallGraph ck)).flatten) ∧
    Lib.Tarjan.Ordered (fun v => (buildCallGraph ck v).map Prod.fst) (tarjanScc (allFnNames ck) (buildCallGraph ck)) := by
  obtain ⟨-, -, -, hord, -, hall⟩ := tarjanScc_run (@buildCallGraph_closed ck)
  exact ⟨hall, hord⟩

/-- A callee with a body is a neighbour in the call graph. -/
theorem mem_graph_of_call {name : Symbol} {call : Symbol × Span} (hc : call ∈ callsOf ck name)
    (hbody : call.1 ∈ allFnNames ck) : call.1 ∈ (buildCallGraph ck name).map Prod.fst := by
  refine List.mem_map_of_mem (List.mem_filter.mpr ⟨?_, decide_eq_true hbody⟩)
  rw [if_pos rfl]
  rcases List.mem_append.mp hc with hc | hc
  · rcases List.mem_append.mp hc with hc | hc
    · exact List.mem_append_left _ hc
    · exact absurd (List.mem_toFinset.mp hbody) (ck.modbind_bodyless name call hc)
  · exact List.mem_append_right _ hc

/-- Functions whose callees with bodies are among them gain from one another and from the names without
bodies only. -/
theorem gain_congr {P : Symbol → Prop}
    (hP : ∀ name, P name → name ∈ allFnNames ck → ∀ call ∈ callsOf ck name, P call.1)
    (name : Symbol) (hname : P name) (S T : Family) (h : ∀ g, P g → S g = T g) : gain ck S name = gain ck T name := by
  ext e
  refine and_congr_right fun hbody => exists_congr fun call => and_congr_right fun hc => contribution_congr ?_
  rw [h call.1 (hP name hname hbody call hc)]

/-- After the components before them, the components left keep what is closed and close the rest. -/
theorem inferSccs_spec (sccs : List (List Symbol)) (done : List (List Symbol))
    (hord : Lib.Tarjan.Ordered (fun v => (buildCallGraph ck v).map Prod.fst) (done ++ sccs)) (inferred : EffectMap)
    (hdone : ∀ name ∈ done.flatten, Closed (gain ck) (effectsOf inferred) name) :
    effectsOf inferred ≤ effectsOf (inferSccs ck sccs inferred) ∧
      (∀ S, (∀ name, Closed (gain ck) S name) → effectsOf inferred ≤ S → effectsOf (inferSccs ck sccs inferred) ≤ S) ∧
      ∀ name ∈ (done ++ sccs).flatten, Closed (gain ck) (effectsOf (inferSccs ck sccs inferred)) name := by
  induction sccs generalizing done inferred with
  | nil => exact ⟨le_rfl, fun S _ h => h, by rw [List.append_nil]; exact hdone⟩
  | cons scc sccs ih =>
    obtain ⟨k, hiter, hclosed⟩ := @inferScc_closed ck scc inferred
    have hlist : done ++ scc :: sccs = (done ++ [scc]) ++ sccs := by simp
    have hle : ∀ k, effectsOf inferred ≤ (pass (gain ck) scc)^[k] (effectsOf inferred) := by
      intro k
      induction k with
      | zero => exact le_rfl
      | succ k ihk =>
        rw [Function.iterate_succ_apply']
        exact ihk.trans (le_pass _ _)
    have hbound : ∀ S, (∀ name, Closed (gain ck) S name) → effectsOf inferred ≤ S →
        ∀ k, (pass (gain ck) scc)^[k] (effectsOf inferred) ≤ S := by
      intro S hS h k
      induction k with
      | zero => exact h
      | succ k ihk =>
        rw [Function.iterate_succ_apply']
        exact pass_le gain_pointwise (fun f _ => hS f) ihk
    -- What is done, with the names that have no body, gains nothing from what is to come.
    have hclosedUnder : ∀ name, (name ∈ done.flatten ∨ name ∉ allFnNames ck) → name ∈ allFnNames ck →
        ∀ call ∈ callsOf ck name, call.1 ∈ done.flatten ∨ call.1 ∉ allFnNames ck := by
      intro name hname hbody call hc
      have hmem := hname.resolve_right (not_not_intro hbody)
      by_cases hcall : call.1 ∈ allFnNames ck
      · obtain ⟨comp, hcomp, hin⟩ := List.mem_flatten.mp hmem
        obtain ⟨pre, post, hsplit⟩ := List.append_of_mem hcomp
        have hedge := mem_graph_of_call hc hcall
        rcases hord pre comp (post ++ scc :: sccs) (by rw [hsplit]; simp) name hin call.1 hedge with h | h
        · refine Or.inl ?_
          rw [hsplit, List.flatten_append]
          exact List.mem_append_left _ h
        · exact Or.inl (List.mem_flatten.mpr ⟨comp, hcomp, h⟩)
      · exact Or.inr hcall
    have hkeep : ∀ k, ∀ g, (g ∈ done.flatten ∨ g ∉ allFnNames ck) →
        (pass (gain ck) scc)^[k] (effectsOf inferred) g = effectsOf inferred g := by
      intro k
      induction k with
      | zero => exact fun g _ => rfl
      | succ k ihk =>
        intro g hg
        rw [Function.iterate_succ_apply']
        refine (pass_keeps (gain_congr hclosedUnder) scc (fun f _ hf => ?_) hg).trans (ihk g hg)
        rcases hf with hf | hf
        · unfold Closed
          rw [gain_congr hclosedUnder f (Or.inl hf) _ (effectsOf inferred) ihk, ihk f (Or.inl hf)]
          exact hdone f hf
        · unfold Closed
          rw [gain_of_not_mem hf]
          exact Set.empty_subset _
    have hdone' : ∀ name ∈ (done ++ [scc]).flatten, Closed (gain ck) (effectsOf (inferScc ck scc inferred)) name := by
      intro name hname
      rw [List.flatten_append, List.flatten_singleton] at hname
      rcases List.mem_append.mp hname with hname | hname
      · unfold Closed
        rw [hiter, gain_congr hclosedUnder name (Or.inl hname) _ (effectsOf inferred) (hkeep k),
          hkeep k name (Or.inl hname)]
        exact hdone name hname
      · exact hclosed name hname
    rw [hlist] at hord
    obtain ⟨hle', hbound', hclosed'⟩ := ih (done ++ [scc]) hord (inferScc ck scc inferred) hdone'
    rw [inferSccs, hlist]
    refine ⟨?_, fun S hS h => hbound' S hS ?_, hclosed'⟩
    · exact (hiter ▸ hle k).trans hle'
    · rw [hiter]
      exact hbound S hS h k

theorem effectsOf_initEntries (seeds : EffectMap) : effectsOf (initEntries ck seeds) = effectsOf seeds := by
  funext name
  unfold effectsOf initEntries
  split <;> rfl

/-- Inference ends at the least family that holds the seeds and what the callees contribute. -/
theorem infer_effects_least (ck : EffectChecker) (seeds : EffectMap) :
    IsLeast {S | IsFamily ck seeds S} (effectsOf (inferEffects ck seeds)) := by
  obtain ⟨hall, hord⟩ := @tarjanScc_spec ck
  obtain ⟨hle, hbound, hclosed⟩ := inferSccs_spec (tarjanScc (allFnNames ck) (buildCallGraph ck)) [] hord
    (initEntries ck seeds) (fun name hname => absurd hname List.not_mem_nil)
  rw [effectsOf_initEntries] at hle hbound
  constructor
  · refine ⟨hle, fun name hname call hc e he => ?_⟩
    exact hclosed name (hall name hname) ⟨hname, call, hc, he⟩
  · intro S hS
    refine hbound S (fun name => ?_) hS.seed
    rintro e ⟨hname, call, hc, he⟩
    exact hS.callees name hname call hc he

end Karac.Effects
