import Karac.Effects.LeastFixpoint

/-! Where the effects that inference stores come from: the origin that is kept is a seed, or the first call that
contributed, and no call before it contributes the effect from the start. -/

namespace Karac.Effects

/-- The traced effects that a table holds for a name. -/
def held (T : EffectMap) (name : Symbol) : List TracedEffect := ((T name).getD {}).effects

theorem mem_effectsOf_held {T : EffectMap} {name : Symbol} {e : Effect} :
    e ∈ effectsOf T name ↔ ∃ origin, ⟨e, origin⟩ ∈ held T name := by
  rw [mem_effectsOf, contains_iff, List.mem_map]
  constructor
  · rintro ⟨te, hte, rfl⟩
    exact ⟨te.origin, hte⟩
  · rintro ⟨origin, hte⟩
    exact ⟨_, hte, rfl⟩

variable (ck : EffectChecker)

/-- The effects that a clause fixes. -/
def fixedEffects : Option DeclaredEffects → Set Effect
  | some (.explicit set) => memSet set
  | some (.polymorphicWithFixed fixed) => memSet fixed
  | _ => ∅

/-- A public function contributes what its clause fixes, whatever its body does. -/
def Firewall (name : Symbol) (e : Effect) : Prop :=
  (ck.functionVisibility name).getD false = true ∧ e ∈ fixedEffects (ck.declaredEffects name)

variable (seeds : EffectMap)

/-- No call before it contributes the effect from the start. -/
def Foremost (name : Symbol) (e : Effect) (call : Symbol × Span) : Prop :=
  ∃ pre post, callsOf ck name = pre ++ call :: post ∧ ∀ b ∈ pre, e ∉ contribution ck (effectsOf seeds) b.1

/-- The way of an effect from where it is charged to a function that holds it. -/
inductive Traced (T : EffectMap) : Symbol → Effect → EffectOrigin → Prop
  | seed {name : Symbol} {e : Effect} {origin : EffectOrigin} : ⟨e, origin⟩ ∈ held seeds name → Traced T name e origin
  | firewall {name : Symbol} {e : Effect} {call : Symbol × Span} : e ∉ effectsOf seeds name →
      Foremost ck seeds name e call → Firewall ck call.1 e → Traced T name e (.callee call.1 call.2)
  | call {name : Symbol} {e : Effect} {call : Symbol × Span} {origin : EffectOrigin} : e ∉ effectsOf seeds name →
      Foremost ck seeds name e call → e ∈ contribution ck (effectsOf T) call.1 → ⟨e, origin⟩ ∈ held T call.1 →
      Traced T call.1 e origin → Traced T name e (.callee call.1 call.2)

structure OriginInv (T : EffectMap) : Prop where
  seeded : ∀ name, held seeds name ⊆ held T name
  bodyless : ∀ name, name ∉ allFnNames ck → held T name = held seeds name
  traced : ∀ name, ∀ te ∈ held T name, Traced ck seeds T name te.effect te.origin

variable {ck seeds}

theorem contribution_cases {S : Family} {callee : Symbol} {e : Effect} (h : e ∈ contribution ck S callee) :
    Firewall ck callee e ∨ e ∈ S callee := by
  unfold contribution at h
  unfold Firewall
  split at h
  · rename_i hpub
    split at h
    · rename_i hdecl
      exact Or.inl ⟨hpub, by rw [hdecl]; exact h⟩
    · exact Or.inr h
    · rename_i hdecl
      exact h.imp (fun hfix => ⟨hpub, by rw [hdecl]; exact hfix⟩) id
    · exact absurd h (Set.notMem_empty _)
    · exact absurd h (Set.notMem_empty _)
  · exact Or.inr h

theorem Firewall.contribution {name : Symbol} {e : Effect} (h : Firewall ck name e) (S : Family) :
    e ∈ contribution ck S name := by
  obtain ⟨hpub, hfix⟩ := h
  unfold Effects.contribution
  rw [if_pos hpub]
  unfold fixedEffects at hfix
  split at hfix
  · rename_i hdecl
    rw [hdecl]
    exact hfix
  · rename_i hdecl
    rw [hdecl]
    exact Or.inl hfix
  · exact absurd hfix (Set.notMem_empty _)

theorem effectsOf_mono {T T' : EffectMap} (h : ∀ name, held T name ⊆ held T' name) : effectsOf T ≤ effectsOf T' := by
  intro name e he
  obtain ⟨origin, hte⟩ := mem_effectsOf_held.mp he
  exact mem_effectsOf_held.mpr ⟨origin, h name hte⟩

theorem Traced.mono {T T' : EffectMap} (h : ∀ name, held T name ⊆ held T' name) {name : Symbol} {e : Effect}
    {origin : EffectOrigin} (htr : Traced ck seeds T name e origin) : Traced ck seeds T' name e origin := by
  induction htr with
  | seed hs => exact .seed hs
  | firewall hn hf hw => exact .firewall hn hf hw
  | call hn hf hc hh _ ih => exact .call hn hf (contribution_mono (effectsOf_mono h) _ hc) (h _ hh) ih

/-! What one function's turn adds. -/

theorem add_effects_subset (set : EffectSet) (e : Effect) (origin : EffectOrigin) :
    set.effects ⊆ (set.add e origin).effects := by
  unfold EffectSet.add
  split
  · exact List.Subset.refl _
  · exact List.subset_append_left _ _

theorem addCalleeEffects_subset (call : Symbol × Span) (es : List Effect) (r : EffectSet × Bool) :
    r.1.effects ⊆ (addCalleeEffects call es r).1.effects := by
  induction es generalizing r with
  | nil => exact List.Subset.refl _
  | cons e es ih =>
    rw [addCalleeEffects]
    refine fun te hte => ih _ ?_
    split
    · exact hte
    · exact add_effects_subset _ _ _ hte

theorem addCalls_subset (inferred : EffectMap) (calls : List (Symbol × Span)) (r : EffectSet × Bool) :
    r.1.effects ⊆ (addCalls ck inferred calls r).1.effects := by
  induction calls generalizing r with
  | nil => exact List.Subset.refl _
  | cons call calls ih =>
    rw [addCalls]
    exact fun te hte => ih _ (addCalleeEffects_subset _ _ _ hte)

theorem addCalleeEffects_origin (call : Symbol × Span) (es : List Effect) (r : EffectSet × Bool) (te : TracedEffect)
    (h : te ∈ (addCalleeEffects call es r).1.effects) : te ∈ r.1.effects ∨
      te.origin = .callee call.1 call.2 ∧ te.effect ∈ es ∧ r.1.contains te.effect = false := by
  induction es generalizing r with
  | nil => exact Or.inl h
  | cons e es ih =>
    rw [addCalleeEffects] at h
    by_cases hcon : r.1.contains e = true
    · rw [if_pos hcon] at h
      exact (ih r h).imp_right fun hnew => ⟨hnew.1, List.mem_cons_of_mem _ hnew.2.1, hnew.2.2⟩
    · rw [if_neg hcon] at h
      rcases ih _ h with hold | ⟨horigin, hmem, hnot⟩
      · simp only [EffectSet.add, if_neg hcon, List.mem_append, List.mem_singleton] at hold
        rcases hold with hold | rfl
        · exact Or.inl hold
        · exact Or.inr ⟨rfl, List.mem_cons_self, by simpa using hcon⟩
      · refine Or.inr ⟨horigin, List.mem_cons_of_mem _ hmem, Bool.eq_false_iff.mpr fun hc => ?_⟩
        exact Bool.eq_false_iff.mp hnot (contains_add.mpr (Or.inl hc))

theorem addCalls_origin (inferred : EffectMap) (calls : List (Symbol × Span)) (r : EffectSet × Bool)
    (te : TracedEffect) (h : te ∈ (addCalls ck inferred calls r).1.effects) : te ∈ r.1.effects ∨
      ∃ pre call post, calls = pre ++ call :: post ∧ te.origin = .callee call.1 call.2 ∧
        te.effect ∈ contribution ck (effectsOf inferred) call.1 ∧ r.1.contains te.effect = false ∧
        ∀ b ∈ pre, te.effect ∉ contribution ck (effectsOf inferred) b.1 := by
  induction calls generalizing r with
  | nil => exact Or.inl h
  | cons call calls ih =>
    rw [addCalls] at h
    rcases ih _ h with hold | ⟨pre, call', post, rfl, horigin, hmem, hnot, hpre⟩
    · rcases addCalleeEffects_origin _ _ _ _ hold with hold | ⟨horigin, hmem, hnot⟩
      · exact Or.inl hold
      · exact Or.inr ⟨[], call, calls, rfl, horigin, mem_iter.mp hmem, hnot, fun b hb => absurd hb List.not_mem_nil⟩
    · have hboth := not_or.mp fun hor => Bool.eq_false_iff.mp hnot ((addCalleeEffects_contains _ _ _ _).mpr hor)
      refine Or.inr ⟨call :: pre, call', post, rfl, horigin, hmem, Bool.eq_false_iff.mpr hboth.1, ?_⟩
      exact List.forall_mem_cons.mpr ⟨fun hc => hboth.2 (mem_iter.mpr hc), hpre⟩

/-- Before a kept call stand calls of callees that are kept before it. -/
theorem retainFirst_split {calls pre post : List (Symbol × Span)} {call : Symbol × Span} {seen : Finset Symbol}
    (h : retainFirst calls seen = pre ++ call :: post) : ∃ pre' post', calls = pre' ++ call :: post' ∧
      ∀ b ∈ pre', b.1 ∈ seen ∨ ∃ b' ∈ pre, b'.1 = b.1 := by
  induction calls generalizing seen pre with
  | nil => exact absurd h (by simp [retainFirst])
  | cons first calls ih =>
    rw [retainFirst] at h
    by_cases hseen : first.1 ∈ seen
    · rw [if_pos hseen] at h
      obtain ⟨pre', post', rfl, hpre⟩ := ih h
      exact ⟨first :: pre', post', rfl, List.forall_mem_cons.mpr ⟨Or.inl hseen, hpre⟩⟩
    · rw [if_neg hseen] at h
      cases pre with
      | nil =>
        obtain ⟨rfl, -⟩ := List.cons.inj h
        exact ⟨[], calls, rfl, fun b hb => absurd hb List.not_mem_nil⟩
      | cons kept pre =>
        obtain ⟨rfl, hrest⟩ := List.cons.inj h
        obtain ⟨pre', post', rfl, hpre⟩ := ih hrest
        refine ⟨first :: pre', post', rfl, List.forall_mem_cons.mpr ⟨Or.inr ⟨first, List.mem_cons_self, rfl⟩, ?_⟩⟩
        intro b hb
        rcases hpre b hb with hb | ⟨b', hb', heq⟩
        · rcases Finset.mem_insert.mp hb with heq | hb
          · exact Or.inr ⟨first, List.mem_cons_self, heq.symm⟩
          · exact Or.inl hb
        · exact Or.inr ⟨b', List.mem_cons_of_mem _ hb', heq⟩

theorem held_of_ne {name g : Symbol} (h : g ≠ name) (T : EffectMap) :
    held (inferFunctionEffects ck name T).1 g = held T g := by
  unfold held inferFunctionEffects
  simp only
  rw [Function.update_of_ne h]

theorem held_subset (name : Symbol) (T : EffectMap) (g : Symbol) :
    held T g ⊆ held (inferFunctionEffects ck name T).1 g := by
  by_cases hg : g = name
  · subst hg
    unfold held inferFunctionEffects
    simp only
    rw [Function.update_self, Option.getD_some]
    exact addCalls_subset _ _ ((T g).getD {}, false)
  · rw [held_of_ne hg]
    exact List.Subset.refl _

/-- What a function's turn adds comes from the first call that contributes it. -/
theorem inferFunctionEffects_origin {name : Symbol} {T : EffectMap} {te : TracedEffect}
    (h : te ∈ held (inferFunctionEffects ck name T).1 name) : te ∈ held T name ∨ te.effect ∉ effectsOf T name ∧
      ∃ pre call post, callsOf ck name = pre ++ call :: post ∧ te.origin = .callee call.1 call.2 ∧
        te.effect ∈ contribution ck (effectsOf T) call.1 ∧
        ∀ b ∈ pre, te.effect ∉ contribution ck (effectsOf T) b.1 := by
  unfold held inferFunctionEffects at h
  simp only at h
  rw [Function.update_self, Option.getD_some] at h
  rcases addCalls_origin _ _ _ _ h with hold | ⟨pre, call, post, hsplit, horigin, hmem, hnot, hpre⟩
  · exact Or.inl hold
  · have hnew : te.effect ∉ effectsOf T name := Bool.eq_false_iff.mp hnot
    obtain ⟨pre', post', hcalls, hpre'⟩ := retainFirst_split hsplit
    refine Or.inr ⟨hnew, pre', call, post', hcalls, horigin, ?_, fun b hb hcon => ?_⟩
    · exact (contribution_without.mp (Or.inr hmem)).resolve_left hnew
    · have hwithout := (contribution_without.mpr (Or.inr hcon)).resolve_left hnew
      obtain ⟨b', hb', heq⟩ := (hpre' b hb).resolve_left (Finset.notMem_empty _)
      exact hpre b' hb' (heq ▸ hwithout)

theorem OriginInv.inferFunctionEffects {T : EffectMap} (h : OriginInv ck seeds T) {name : Symbol}
    (hname : name ∈ allFnNames ck) : OriginInv ck seeds (Effects.inferFunctionEffects ck name T).1 := by
  have hseeds : effectsOf seeds ≤ effectsOf T := effectsOf_mono h.seeded
  have hgrow := @held_subset ck name T
  refine ⟨fun g te hte => hgrow g (h.seeded g hte), fun g hg => ?_, fun g te hte => ?_⟩
  · have hne : g ≠ name := fun heq => hg (heq ▸ hname)
    rw [held_of_ne hne, h.bodyless g hg]
  by_cases hg : g = name
  · subst hg
    rcases inferFunctionEffects_origin hte with hold | ⟨hnew, pre, call, post, hcalls, horigin, hmem, hpre⟩
    · exact (h.traced g te hold).mono hgrow
    · have hfirst : Foremost ck seeds g te.effect call :=
        ⟨pre, post, hcalls, fun b hb hcon => hpre b hb (contribution_mono hseeds _ hcon)⟩
      have hunseeded : te.effect ∉ effectsOf seeds g := fun hmem => hnew (hseeds g hmem)
      rw [horigin]
      rcases contribution_cases hmem with hwall | hin
      · exact .firewall hunseeded hfirst hwall
      · obtain ⟨origin, hheld⟩ := mem_effectsOf_held.mp hin
        exact .call hunseeded hfirst (contribution_mono (effectsOf_mono hgrow) _ hmem) (hgrow _ hheld)
          ((h.traced _ _ hheld).mono hgrow)
  · rw [held_of_ne hg] at hte
    exact (h.traced g te hte).mono hgrow

/-! All of inference is turns of functions. -/

section

variable {P : EffectMap → Prop} (hstep : ∀ name ∈ allFnNames ck, ∀ T, P T → P (inferFunctionEffects ck name T).1)

include hstep

theorem sccPass_keeps (names : List Symbol) {T : EffectMap} (h : P T) (changed : Bool) :
    P (sccPass ck names T changed).1 := by
  induction names generalizing T changed with
  | nil => exact h
  | cons name names ih =>
    rw [sccPass]
    split
    · rename_i hname
      exact ih (hstep name hname T h) _
    · exact ih h _

theorem sccPasses_keeps (scc : List Symbol) (k : ℕ) {T : EffectMap} (h : P T) : P (sccPasses ck scc k T) := by
  induction k generalizing T with
  | zero => exact h
  | succ k ih =>
    rw [sccPasses]
    have hpass := sccPass_keeps hstep scc h false
    split
    · exact ih hpass
    · exact hpass

theorem inferSccs_keeps (sccs : List (List Symbol)) {T : EffectMap} (h : P T) : P (inferSccs ck sccs T) := by
  induction sccs generalizing T with
  | nil => exact h
  | cons scc sccs ih =>
    rw [inferSccs]
    refine ih ?_
    unfold inferScc
    split
    · exact sccPass_keeps hstep scc h false
    · exact sccPasses_keeps hstep scc _ h

end

theorem held_initEntries (name : Symbol) : held (initEntries ck seeds) name = held seeds name := by
  unfold held initEntries
  split <;> rfl

/-- Every origin that inference stores is traced. -/
theorem inferEffects_origins : OriginInv ck seeds (inferEffects ck seeds) := by
  refine inferSccs_keeps (fun name hname T h => h.inferFunctionEffects hname) _
    ⟨fun name => ?_, fun name _ => held_initEntries name, fun name te hte => ?_⟩
  · rw [held_initEntries]
    exact List.Subset.refl _
  · rw [held_initEntries] at hte
    exact .seed hte

end Karac.Effects
