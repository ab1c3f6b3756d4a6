import Karac.Effects.MarkedPasses

/-! The viral rule: the mark goes round a component with the passes, and these go on for as long as an effect is new.
What the marks miss is what would need one pass more. -/

namespace Karac.Effects

open Lib.RoundRobin
open Lib.Saturation (pass Closed)

variable {ck : EffectChecker} {fnUsesWithUnderscore : Finset Symbol}

/-! What the program says. -/

section

variable (ck : EffectChecker) (fnUsesWithUnderscore : Finset Symbol) (seeds : EffectMap)

/-- A function declared `with _` is reachable through one or more calls. -/
inductive ReachesUnderscore : Symbol → Prop
  | direct {f : Symbol} {call : Symbol × Span} (hf : f ∈ allFnNames ck) (hc : call ∈ callsOf ck f)
      (hu : call.1 ∈ fnUsesWithUnderscore) : ReachesUnderscore f
  | through {f : Symbol} {call : Symbol × Span} (hf : f ∈ allFnNames ck) (hc : call ∈ callsOf ck f)
      (hg : ReachesUnderscore call.1) : ReachesUnderscore f

/-- The effects of a function: its own, those its callees declare, and those of callees that pass them on. -/
inductive Performs : Symbol → Effect → Prop
  | seed {f : Symbol} {e : Effect} (h : e ∈ effectsOf seeds f) : Performs f e
  | declared {f : Symbol} {e : Effect} {call : Symbol × Span} (hf : f ∈ allFnNames ck) (hc : call ∈ callsOf ck f)
      (h : e ∈ contribution ck ⊥ call.1) : Performs f e
  | relayed {f : Symbol} {e : Effect} {call : Symbol × Span} (hf : f ∈ allFnNames ck) (hc : call ∈ callsOf ck f)
      (hr : Relays ck call.1) (h : Performs call.1 e) : Performs f e

def Mutual (f g : Symbol) : Prop := CallPath (buildCallGraph ck) f g ∧ CallPath (buildCallGraph ck) g f

/-- The mark comes from a callee declared `with _`, or from one outside the circle. -/
def MarkFirst (f : Symbol) : Prop := f ∈ allFnNames ck ∧ ∃ call ∈ callsOf ck f,
  call.1 ∈ fnUsesWithUnderscore ∨ ¬Mutual ck f call.1 ∧ ReachesUnderscore ck fnUsesWithUnderscore call.1

def MutualCall (f g : Symbol) : Prop := MarkEdge ck f g ∧ Mutual ck f g

/-- The effect comes from a declaration, from what a callee does itself, or from outside the circle. -/
def EffectFirst (e : Effect) (f : Symbol) : Prop := f ∈ allFnNames ck ∧ ∃ call ∈ callsOf ck f,
  e ∈ contribution ck ⊥ call.1 ∨
    Relays ck call.1 ∧ (e ∈ effectsOf seeds call.1 ∨ ¬Mutual ck f call.1 ∧ Performs ck seeds call.1 e)

def MutualRelay (f g : Symbol) : Prop := EffectEdge ck f g ∧ Mutual ck f g

/-- The mark has a chain that never goes on to a name not yet visited, or at most once more often than some effect of the
circle has to on its way to a function to which it is new. -/
def InTime (f : Symbol) : Prop :=
  ∃ a, Within (MarkFirst ck fnUsesWithUnderscore) (MutualCall ck) a f ∧
    (a = 0 ∨ ∃ e g, Mutual ck f g ∧ Performs ck seeds g e ∧ e ∉ effectsOf seeds g ∧
      ∀ j, Within (EffectFirst ck seeds e) (MutualRelay ck) j g → a ≤ j + 1)

end

section

variable {seeds : EffectMap}

theorem ReachesUnderscore.mem {f : Symbol} (h : ReachesUnderscore ck fnUsesWithUnderscore f) : f ∈ allFnNames ck := by
  cases h with
  | direct hf => exact hf
  | through hf => exact hf

theorem Performs.of_bodyless {f : Symbol} {e : Effect} (h : Performs ck seeds f e) (hf : f ∉ allFnNames ck) :
    e ∈ effectsOf seeds f := by
  cases h with
  | seed h => exact h
  | declared hf' => exact absurd hf' hf
  | relayed hf' => exact absurd hf' hf

/-- What a family of the program holds is closed under the calls. -/
theorem performs_closed (f : Symbol) : Closed (gain ck) (fun f => {e | Performs ck seeds f e}) f := by
  rintro e ⟨hf, call, hc, he⟩
  rcases mem_contribution_iff.mp he with he | ⟨hrelays, he⟩
  · exact .declared hf hc he
  · exact .relayed hf hc hrelays he

theorem reaches_of_within {a : ℕ} {f : Symbol}
    (h : Within (MarkFirst ck fnUsesWithUnderscore) (MutualCall ck) a f) : ReachesUnderscore ck fnUsesWithUnderscore f := by
  induction h with
  | first h =>
    obtain ⟨hf, call, hc, hu | ⟨-, hr⟩⟩ := h
    · exact .direct hf hc hu
    · exact .through hf hc hr
  | back h _ _ ih =>
    obtain ⟨⟨hf, call, hc, rfl⟩, -⟩ := h
    exact .through hf hc ih
  | on h _ ih =>
    obtain ⟨⟨hf, call, hc, rfl⟩, -⟩ := h
    exact .through hf hc ih

theorem within_of_reaches {f : Symbol} (h : ReachesUnderscore ck fnUsesWithUnderscore f) :
    ∃ a, Within (MarkFirst ck fnUsesWithUnderscore) (MutualCall ck) a f := by
  induction h with
  | direct hf hc hu => exact ⟨0, .first ⟨hf, _, hc, Or.inl hu⟩⟩
  | @through f call hf hc hg ih =>
    by_cases hmutual : Mutual ck f call.1
    · obtain ⟨a, ha⟩ := ih
      exact ⟨a + 1, .on ⟨⟨hf, call, hc, rfl⟩, hmutual⟩ ha⟩
    · exact ⟨0, .first ⟨hf, call, hc, Or.inr ⟨hmutual, hg⟩⟩⟩

end

/-! The components in order. -/

/-- The components of the call graph. -/
def circles (ck : EffectChecker) : List (List Symbol) := tarjanScc (allFnNames ck) (buildCallGraph ck)

section

variable {seeds : EffectMap} {done rest : List (List Symbol)} {scc : List Symbol}

theorem passes_of_not_mem {f : Symbol} (hf : f ∉ scc) (k : ℕ) (S : Family) : (pass (gain ck) scc)^[k] S f = S f := by
  induction k with
  | zero => rfl
  | succ k ih => rw [Function.iterate_succ_apply', Lib.Saturation.pass_of_not_mem _ _ hf, ih]

theorem inferScc_of_not_mem {f : Symbol} (hf : f ∉ scc) (inferred : EffectMap) :
    effectsOf (inferScc ck scc inferred) f = effectsOf inferred f := by
  obtain ⟨k, hiter, -⟩ := @inferScc_closed ck scc inferred
  rw [hiter, passes_of_not_mem hf]

theorem markedScc_marks (scc : List Symbol) (st : InferState) : st.callsPolymorphic ⊆ (markedScc ck fnUsesWithUnderscore scc st).callsPolymorphic ∧
    ∀ f ∈ (markedScc ck fnUsesWithUnderscore scc st).callsPolymorphic, f ∈ st.callsPolymorphic ∨ f ∈ scc := by
  have hsweeps : ∃ k, ((markedScc ck fnUsesWithUnderscore scc st).callsPolymorphic : Set Symbol) =
      (sweep (MarkStart ck fnUsesWithUnderscore) (MarkEdge ck) scc)^[k] st.callsPolymorphic := by
    unfold markedScc
    split
    · exact ⟨1, markedPass_marks scc st false⟩
    · obtain ⟨r, -, -, -, hmarks⟩ := @markedPasses_spec ck fnUsesWithUnderscore scc scc.length st
      exact ⟨_, hmarks⟩
  obtain ⟨k, hk⟩ := hsweeps
  refine ⟨fun f hf => ?_, fun f hf => ?_⟩
  · rw [← Finset.mem_coe, hk]
    exact sweeps_subset scc _ (Nat.zero_le k) hf
  · rw [← Finset.mem_coe, hk] at hf
    exact mem_of_mem_sweeps k hf

theorem markedSccs_marks (sccs : List (List Symbol)) (st : InferState) : st.callsPolymorphic ⊆ (markedSccs ck fnUsesWithUnderscore sccs st).callsPolymorphic ∧
    ∀ f ∈ (markedSccs ck fnUsesWithUnderscore sccs st).callsPolymorphic, f ∈ st.callsPolymorphic ∨ f ∈ sccs.flatten := by
  induction sccs generalizing st with
  | nil => exact ⟨subset_rfl, fun f hf => Or.inl hf⟩
  | cons scc sccs ih =>
    obtain ⟨hmore, honly⟩ := @markedScc_marks ck fnUsesWithUnderscore scc st
    obtain ⟨hmore', honly'⟩ := ih (markedScc ck fnUsesWithUnderscore scc st)
    refine ⟨hmore.trans hmore', fun f hf => ?_⟩
    rw [List.flatten_cons, List.mem_append, ← or_assoc]
    exact (honly' f hf).imp_left (honly f)

theorem inferSccs_snoc (sccs : List (List Symbol)) (inferred : EffectMap) :
    inferSccs ck (sccs ++ [scc]) inferred = inferScc ck scc (inferSccs ck sccs inferred) := by
  induction sccs generalizing inferred with
  | nil => rfl
  | cons c sccs ih => exact ih _

/-- The components done have their effects. -/
theorem inferSccs_performs (hsplit : circles ck = done ++ rest) {f : Symbol} (hf : f ∈ done.flatten) (e : Effect) :
    e ∈ effectsOf (inferSccs ck done (initEntries ck seeds)) f ↔ Performs ck seeds f e := by
  obtain ⟨-, hord⟩ := @tarjanScc_spec ck
  have hdone : Lib.Tarjan.Ordered (fun v => (buildCallGraph ck v).map Prod.fst) ([] ++ done) :=
    fun pre comp post heq => hord pre comp (post ++ rest) (hsplit.trans (by rw [← List.nil_append done, heq]; simp))
  obtain ⟨hle, hbound, hclosed⟩ := inferSccs_spec done [] hdone (initEntries ck seeds)
    (fun name hname => absurd hname List.not_mem_nil)
  rw [effectsOf_initEntries] at hle hbound
  constructor
  · exact fun h => hbound _ performs_closed (fun f e he => .seed he) f h
  · -- a callee with a body is done as well, one without has its seeds
    have hcallee : ∀ f e, Performs ck seeds f e → (f ∈ done.flatten ∨ f ∉ allFnNames ck) →
        e ∈ effectsOf (inferSccs ck done (initEntries ck seeds)) f := by
      intro f e h
      induction h with
      | seed h => exact fun _ => hle _ h
      | @declared f e call hbody hc h =>
        intro hf
        refine hclosed f (hf.resolve_right (not_not_intro hbody)) ⟨hbody, call, hc, ?_⟩
        exact mem_contribution_iff.mpr (Or.inl h)
      | @relayed f e call hbody hc hr _ ih =>
        intro hf
        have hf := hf.resolve_right (not_not_intro hbody)
        refine hclosed f hf ⟨hbody, call, hc, mem_contribution_iff.mpr (Or.inr ⟨hr, ih ?_⟩)⟩
        by_cases hcall : call.1 ∈ allFnNames ck
        · obtain ⟨comp, hcomp, hin⟩ := List.mem_flatten.mp hf
          obtain ⟨pre, post, rfl⟩ := List.append_of_mem hcomp
          rcases hdone pre comp post rfl f hin call.1 (mem_graph_of_call hc hcall) with hmem | hmem
          · rw [List.flatten_append]
            exact Or.inl (List.mem_append_left _ hmem)
          · exact Or.inl (List.mem_flatten.mpr ⟨comp, hcomp, hmem⟩)
        · exact Or.inr hcall
    exact fun h => hcallee f e h (Or.inl hf)

/-- What holds when the components before some point are done. -/
structure Stage (ck : EffectChecker) (fnUsesWithUnderscore : Finset Symbol) (seeds : EffectMap) (done : List (List Symbol))
    (st : InferState) : Prop where
  effects : st.inferredEffects = inferSccs ck done (initEntries ck seeds)
  rest : ∀ f ∉ done.flatten, effectsOf st.inferredEffects f = effectsOf seeds f
  marks : ∀ f, f ∈ st.callsPolymorphic ↔ f ∈ done.flatten ∧ ReachesUnderscore ck fnUsesWithUnderscore f

/-! A function of the component at hand, and its callees. -/

section

variable (hsplit : circles ck = done ++ scc :: rest)
include hsplit

theorem mem_scc_of_split {f g : Symbol} (hf : f ∈ scc) : g ∈ scc ↔ Mutual ck f g :=
  mem_scc_iff buildCallGraph_closed (show scc ∈ circles ck by rw [hsplit]; simp) hf

theorem not_done_of_split {f : Symbol} (hf : f ∈ scc) : f ∉ done.flatten := by
  have hnodup : (circles ck).flatten.Nodup := tarjanScc_nodup buildCallGraph_closed
  rw [hsplit, List.flatten_append, List.flatten_cons] at hnodup
  exact fun h => List.disjoint_of_nodup_append hnodup h (List.mem_append_left _ hf)

theorem not_mutual_of_done {f g : Symbol} (hf : f ∈ scc) (hg : g ∈ done.flatten) : ¬Mutual ck f g :=
  fun h => not_done_of_split hsplit ((mem_scc_of_split hsplit hf).mpr h) hg

theorem done_of_not_mutual {f : Symbol} (hf : f ∈ scc) {call : Symbol × Span} (hc : call ∈ callsOf ck f)
    (hbody : call.1 ∈ allFnNames ck) (hout : ¬Mutual ck f call.1) : call.1 ∈ done.flatten := by
  obtain ⟨-, hord⟩ := @tarjanScc_spec ck
  exact (hord done scc rest hsplit f hf call.1 (mem_graph_of_call hc hbody)).resolve_right
    fun h => hout ((mem_scc_of_split hsplit hf).mp h)

variable {st : InferState} (hstage : Stage ck fnUsesWithUnderscore seeds done st)
include hstage

theorem Stage.pulls_mark {f : Symbol} (hf : f ∈ scc) :
    Pulls (MarkStart ck fnUsesWithUnderscore) (MarkEdge ck) (st.callsPolymorphic : Set Symbol) f ↔
      MarkFirst ck fnUsesWithUnderscore f := by
  constructor
  · rintro (⟨hbody, call, hc, hu⟩ | ⟨g, ⟨hbody, call, hc, rfl⟩, hg⟩)
    · exact ⟨hbody, call, hc, Or.inl hu⟩
    · obtain ⟨hdone, hreaches⟩ := (hstage.marks _).mp hg
      exact ⟨hbody, call, hc, Or.inr ⟨not_mutual_of_done hsplit hf hdone, hreaches⟩⟩
  · rintro ⟨hbody, call, hc, hu | ⟨hout, hreaches⟩⟩
    · exact Or.inl ⟨hbody, call, hc, hu⟩
    · refine Or.inr ⟨call.1, ⟨hbody, call, hc, rfl⟩, (hstage.marks _).mpr ⟨?_, hreaches⟩⟩
      exact done_of_not_mutual hsplit hf hc hreaches.mem hout

theorem Stage.mem_effects_of_out {f : Symbol} (hf : f ∈ scc) {call : Symbol × Span} (hc : call ∈ callsOf ck f)
    {e : Effect} : e ∈ effectsOf st.inferredEffects call.1 ↔
      e ∈ effectsOf seeds call.1 ∨ ¬Mutual ck f call.1 ∧ Performs ck seeds call.1 e := by
  have hsplit' : circles ck = done ++ (scc :: rest) := hsplit
  by_cases hdone : call.1 ∈ done.flatten
  · rw [hstage.effects, inferSccs_performs hsplit' hdone]
    exact ⟨fun h => Or.inr ⟨not_mutual_of_done hsplit hf hdone, h⟩, fun h => h.elim Performs.seed And.right⟩
  · rw [hstage.rest _ hdone]
    refine ⟨Or.inl, fun h => h.elim id fun ⟨hout, hperforms⟩ => hperforms.of_bodyless fun hbody => hdone ?_⟩
    exact done_of_not_mutual hsplit hf hc hbody hout

theorem Stage.pulls_effect (e : Effect) {f : Symbol} (hf : f ∈ scc) :
    Pulls (EffectStart ck e) (EffectEdge ck) (holders (effectsOf st.inferredEffects) e) f ↔ EffectFirst ck seeds e f := by
  constructor
  · rintro (⟨hbody, call, hc, he⟩ | ⟨g, ⟨hbody, ⟨call, hc, rfl⟩, hrelays⟩, he⟩)
    · exact ⟨hbody, call, hc, Or.inl he⟩
    · exact ⟨hbody, call, hc, Or.inr ⟨hrelays, (hstage.mem_effects_of_out hsplit hf hc).mp he⟩⟩
  · rintro ⟨hbody, call, hc, he | ⟨hrelays, he⟩⟩
    · exact Or.inl ⟨hbody, call, hc, he⟩
    · exact Or.inr ⟨call.1, ⟨hbody, ⟨call, hc, rfl⟩, hrelays⟩, (hstage.mem_effects_of_out hsplit hf hc).mpr he⟩

/-- In the component the chains of the mark and of the effects are those of the program. -/
theorem Stage.within_mark {a : ℕ} {f : Symbol} (hf : f ∈ scc) :
    Within (First (MarkStart ck fnUsesWithUnderscore) (MarkEdge ck) scc st.callsPolymorphic) (Inner (MarkEdge ck) scc) a f ↔
      Within (MarkFirst ck fnUsesWithUnderscore) (MutualCall ck) a f := by
  constructor
  · exact Within.congr (fun x hx h => (hstage.pulls_mark hsplit hx).mp h.2)
      (fun x y hx h => ⟨h.2.1, h.2.2, (mem_scc_of_split hsplit hx).mp h.2.1⟩) hf
  · refine Within.congr (P := (· ∈ scc)) (fun x hx h => ⟨hx, (hstage.pulls_mark hsplit hx).mpr h⟩) (fun x y hx h => ?_) hf
    have hy := (mem_scc_of_split hsplit hx).mpr h.2
    exact ⟨hy, hx, hy, h.1⟩

theorem Stage.within_effect (e : Effect) {j : ℕ} {f : Symbol} (hf : f ∈ scc) :
    Within (First (EffectStart ck e) (EffectEdge ck) scc (holders (effectsOf st.inferredEffects) e))
      (Inner (EffectEdge ck) scc) j f ↔ Within (EffectFirst ck seeds e) (MutualRelay ck) j f := by
  constructor
  · exact Within.congr (fun x hx h => (hstage.pulls_effect hsplit e hx).mp h.2)
      (fun x y hx h => ⟨h.2.1, h.2.2, (mem_scc_of_split hsplit hx).mp h.2.1⟩) hf
  · refine Within.congr (P := (· ∈ scc)) (fun x hx h => ⟨hx, (hstage.pulls_effect hsplit e hx).mpr h⟩) (fun x y hx h => ?_) hf
    have hy := (mem_scc_of_split hsplit hx).mpr h.2
    exact ⟨hy, hx, hy, h.1⟩

/-- A component of several functions marks those that the mark reaches in time. -/
theorem Stage.marks_circle (hlen : scc.length ≠ 1) {f : Symbol} (hf : f ∈ scc) :
    f ∈ (markedScc ck fnUsesWithUnderscore scc st).callsPolymorphic ↔ InTime ck fnUsesWithUnderscore seeds f := by
  have hsorted : scc.Pairwise (· < ·) := tarjanScc_sorted buildCallGraph_closed scc
    (show scc ∈ circles ck by rw [hsplit]; simp)
  obtain ⟨hfinal, hmarks⟩ := @markedPasses_settle ck fnUsesWithUnderscore scc hsorted st
  have hafter : ∀ g ∈ scc, ∀ e, e ∈ (pass (gain ck) scc)^[scc.length] (effectsOf st.inferredEffects) g ↔
      Performs ck seeds g e := by
    intro g hg e
    have hsplit' : circles ck = (done ++ [scc]) ++ rest := by rw [hsplit]; simp
    have hscc : markedPasses ck fnUsesWithUnderscore scc (scc.length + 1) st = markedScc ck fnUsesWithUnderscore scc st :=
      (if_neg hlen).symm
    have hgscc : g ∈ (done ++ [scc]).flatten := by simp [hg]
    rw [← hfinal, hscc, markedScc_effects, hstage.effects, ← inferSccs_performs hsplit' hgscc]
    rw [inferSccs_snoc]
  have hnotmarked : f ∉ st.callsPolymorphic := fun h => not_done_of_split hsplit hf ((hstage.marks f).mp h).1
  have hinferred : ∀ g ∈ scc, effectsOf st.inferredEffects g = effectsOf seeds g :=
    fun g hg => hstage.rest g (not_done_of_split hsplit hg)
  unfold markedScc InTime
  rw [if_neg hlen, hmarks, or_iff_right hnotmarked]
  refine exists_congr fun a => and_congr (hstage.within_mark hsplit hf) (or_congr_right ?_)
  unfold Awaited
  refine exists_congr fun e => exists_congr fun g => ?_
  by_cases hg : g ∈ scc
  · rw [hafter g hg, hinferred g hg]
    have hmutual := (mem_scc_of_split hsplit hf).mp hg
    simp only [hstage.within_effect hsplit e hg, hmutual, true_and]
  · -- outside the component nothing is new
    refine ⟨fun ⟨hin, hnot, _⟩ => absurd ?_ hnot, fun ⟨hmutual, _⟩ => absurd ((mem_scc_of_split hsplit hf).mpr hmutual) hg⟩
    rw [passes_of_not_mem hg] at hin
    exact hin

/-- A function on its own is marked when the mark reaches it. -/
theorem Stage.marks_single (hlen : scc.length = 1) {f : Symbol} (hf : f ∈ scc) :
    f ∈ (markedScc ck fnUsesWithUnderscore scc st).callsPolymorphic ↔ ReachesUnderscore ck fnUsesWithUnderscore f := by
  obtain ⟨name, rfl⟩ := List.length_eq_one_iff.mp hlen
  obtain rfl := List.mem_singleton.mp hf
  have hnotmarked : f ∉ st.callsPolymorphic := fun h => not_done_of_split hsplit hf ((hstage.marks f).mp h).1
  unfold markedScc
  rw [if_pos hlen, ← Finset.mem_coe, markedPass_marks]
  have hvisit : f ∈ sweep (MarkStart ck fnUsesWithUnderscore) (MarkEdge ck) [f] (st.callsPolymorphic : Set Symbol) ↔
      MarkFirst ck fnUsesWithUnderscore f := by
    rw [← hstage.pulls_mark hsplit hf]
    exact ⟨fun h => (h.resolve_left hnotmarked).2, fun h => Or.inr ⟨rfl, h⟩⟩
  rw [hvisit]
  refine ⟨fun h => reaches_of_within (.first h : Within _ _ 0 f), fun h => ?_⟩
  obtain ⟨a, ha⟩ := within_of_reaches h
  -- on a chain that stays here the first link is here
  have hhere : ∀ a g, Within (MarkFirst ck fnUsesWithUnderscore) (MutualCall ck) a g → g ∈ [f] →
      MarkFirst ck fnUsesWithUnderscore f := by
    intro a g h
    induction h with
    | first h => exact fun hg => List.mem_singleton.mp hg ▸ h
    | back h _ _ ih => exact fun hg => ih ((mem_scc_of_split hsplit hg).mpr h.2)
    | on h _ ih => exact fun hg => ih ((mem_scc_of_split hsplit hg).mpr h.2)
  exact hhere a f ha hf

omit hsplit in
/-- A component that marks whom it has to leads to the next stage. -/
theorem Stage.next (hmarks : ∀ f ∈ scc, f ∈ (markedScc ck fnUsesWithUnderscore scc st).callsPolymorphic ↔
      ReachesUnderscore ck fnUsesWithUnderscore f) :
    Stage ck fnUsesWithUnderscore seeds (done ++ [scc]) (markedScc ck fnUsesWithUnderscore scc st) where
  effects := by rw [markedScc_effects, hstage.effects, inferSccs_snoc]
  rest f hf := by
    rw [List.flatten_append, List.flatten_singleton, List.mem_append, not_or] at hf
    rw [markedScc_effects, inferScc_of_not_mem hf.2, hstage.rest f hf.1]
  marks f := by
    obtain ⟨hmore, honly⟩ := @markedScc_marks ck fnUsesWithUnderscore scc st
    rw [List.flatten_append, List.flatten_singleton, List.mem_append]
    by_cases hf : f ∈ scc
    · rw [hmarks f hf]
      exact ⟨fun h => ⟨Or.inr hf, h⟩, And.right⟩
    · have hold := hstage.marks f
      constructor
      · intro h
        obtain ⟨hdone, hreaches⟩ := hold.mp ((honly f h).resolve_right hf)
        exact ⟨Or.inl hdone, hreaches⟩
      · rintro ⟨hdone, hreaches⟩
        exact hmore (hold.mpr ⟨hdone.resolve_right hf, hreaches⟩)

end

/-- From a stage on everything that has to be marked is, when in components of several functions the mark comes in
time. -/
theorem Stage.run (hsplit : circles ck = done ++ rest) {st : InferState}
    (hstage : Stage ck fnUsesWithUnderscore seeds done st) :
    (∀ f ∈ rest.flatten, ReachesUnderscore ck fnUsesWithUnderscore f →
        f ∈ (markedSccs ck fnUsesWithUnderscore rest st).callsPolymorphic) ↔
      ∀ scc ∈ rest, scc.length ≠ 1 → ∀ f ∈ scc, ReachesUnderscore ck fnUsesWithUnderscore f →
        InTime ck fnUsesWithUnderscore seeds f := by
  induction rest generalizing done st with
  | nil => simp
  | cons scc rest ih =>
    have hnext : circles ck = (done ++ [scc]) ++ rest := by rw [hsplit]; simp
    obtain ⟨hmore, honly⟩ := @markedSccs_marks ck fnUsesWithUnderscore rest (markedScc ck fnUsesWithUnderscore scc st)
    -- the members of a component are marked with it or not at all
    have hhere : ∀ f ∈ scc, f ∈ (markedSccs ck fnUsesWithUnderscore (scc :: rest) st).callsPolymorphic ↔
        f ∈ (markedScc ck fnUsesWithUnderscore scc st).callsPolymorphic := by
      intro f hf
      refine ⟨fun h => (honly f h).resolve_right fun hrest => ?_, fun h => hmore h⟩
      have hnodup : (circles ck).flatten.Nodup := tarjanScc_nodup buildCallGraph_closed
      rw [hnext, List.flatten_append] at hnodup
      exact List.disjoint_of_nodup_append hnodup (by simp [hf]) hrest
    have hreach : ∀ f ∈ scc, f ∈ (markedScc ck fnUsesWithUnderscore scc st).callsPolymorphic →
        ReachesUnderscore ck fnUsesWithUnderscore f := by
      intro f hf h
      by_cases hlen : scc.length = 1
      · exact (hstage.marks_single hsplit hlen hf).mp h
      · obtain ⟨a, ha, -⟩ := (hstage.marks_circle hsplit hlen hf).mp h
        exact reaches_of_within ha
    constructor
    · intro hall
      have hmarks : ∀ f ∈ scc, f ∈ (markedScc ck fnUsesWithUnderscore scc st).callsPolymorphic ↔
          ReachesUnderscore ck fnUsesWithUnderscore f :=
        fun f hf => ⟨hreach f hf, fun h => (hhere f hf).mp (hall f (by simp [hf]) h)⟩
      refine List.forall_mem_cons.mpr ⟨fun hlen f hf h => ?_, (ih hnext (hstage.next hmarks)).mp fun f hf h => ?_⟩
      · exact (hstage.marks_circle hsplit hlen hf).mp ((hmarks f hf).mpr h)
      · exact hall f (List.mem_append_right _ hf) h
    · intro htime
      obtain ⟨hscc, hrest⟩ := List.forall_mem_cons.mp htime
      have hmarks : ∀ f ∈ scc, f ∈ (markedScc ck fnUsesWithUnderscore scc st).callsPolymorphic ↔
          ReachesUnderscore ck fnUsesWithUnderscore f := by
        refine fun f hf => ⟨hreach f hf, fun h => ?_⟩
        by_cases hlen : scc.length = 1
        · exact (hstage.marks_single hsplit hlen hf).mpr h
        · exact (hstage.marks_circle hsplit hlen hf).mpr (hscc hlen f hf h)
      intro f hf h
      rcases List.mem_append.mp hf with hf | hf
      · exact (hhere f hf).mpr ((hmarks f hf).mpr h)
      · exact (ih hnext (hstage.next hmarks)).mpr hrest f hf h

end

section

variable (ck : EffectChecker) (fnUsesWithUnderscore : Finset Symbol) (seeds : EffectMap)

theorem marks_complete_iff : (∀ f, ReachesUnderscore ck fnUsesWithUnderscore f →
      f ∈ (inferMarked ck fnUsesWithUnderscore seeds).callsPolymorphic) ↔
    ∀ f, ReachesUnderscore ck fnUsesWithUnderscore f → (∃ g, g ≠ f ∧ Mutual ck f g) →
      InTime ck fnUsesWithUnderscore seeds f := by
  obtain ⟨hall, -⟩ := @tarjanScc_spec ck
  have hstart : Stage ck fnUsesWithUnderscore seeds [] ⟨initEntries ck seeds, ∅⟩ :=
    ⟨rfl, fun f _ => congrFun (effectsOf_initEntries seeds) f, by simp⟩
  have hrun := hstart.run (List.nil_append (circles ck)).symm
  constructor
  · rintro h f hreaches ⟨g, hne, hmutual⟩
    obtain ⟨scc, hscc, hf⟩ := List.mem_flatten.mp (hall f hreaches.mem)
    refine hrun.mp (fun f _ hf => h f hf) scc hscc (fun hlen => hne ?_) f hf hreaches
    obtain ⟨name, rfl⟩ := List.length_eq_one_iff.mp hlen
    have hg := (mem_scc_iff buildCallGraph_closed hscc hf).mpr hmutual
    rw [List.mem_singleton.mp hg, List.mem_singleton.mp hf]
  · intro h f hreaches
    refine hrun.mpr (fun scc hscc hlen f hf hr => h f hr ?_) f (hall f hreaches.mem) hreaches
    have hnodup : scc.Nodup := (List.nodup_flatten.mp (tarjanScc_nodup buildCallGraph_closed)).1 scc hscc
    by_contra hnone
    push Not at hnone
    have hsame : ∀ g ∈ scc, g = f := fun g hg =>
      by_contra fun hne => hnone g hne ((mem_scc_iff buildCallGraph_closed hscc hf).mp hg)
    refine hlen (Nat.le_antisymm ?_ (List.length_pos_of_mem hf))
    exact (List.subperm_of_subset hnodup (fun g hg => List.mem_singleton.mpr (hsame g hg) : scc ⊆ [f])).length_le

/-- What has to be marked is and every public function of it has to declare the clause, when in a circle of several
functions the mark comes in time, and a public method has the clause already. -/
theorem viral_rule_iff : (∀ f, ReachesUnderscore ck fnUsesWithUnderscore f →
      f ∈ (inferMarked ck fnUsesWithUnderscore seeds).callsPolymorphic ∧
        ((ck.functionVisibility f).getD false = true → DeclaresPolymorphic ck f ∨
          reportsMissingUnderscore ck (inferMarked ck fnUsesWithUnderscore seeds).callsPolymorphic f = true)) ↔
    ∀ f, ReachesUnderscore ck fnUsesWithUnderscore f →
      ((∃ g, g ≠ f ∧ Mutual ck f g) → InTime ck fnUsesWithUnderscore seeds f) ∧
        ((ck.functionVisibility f).getD false = true → DeclaresPolymorphic ck f ∨ f ∈ ck.functionBodies) := by
  have hmarks := marks_complete_iff ck fnUsesWithUnderscore seeds
  have hreport : ∀ f, f ∈ (inferMarked ck fnUsesWithUnderscore seeds).callsPolymorphic →
      (ck.functionVisibility f).getD false = true → (DeclaresPolymorphic ck f ∨
        reportsMissingUnderscore ck (inferMarked ck fnUsesWithUnderscore seeds).callsPolymorphic f = true ↔
          DeclaresPolymorphic ck f ∨ f ∈ ck.functionBodies) := by
    intro f hf hvis
    unfold DeclaresPolymorphic reportsMissingUnderscore
    rcases hdecl : ck.declaredEffects f with _ | (_ | _ | _ | _) <;> simp [hvis, hf]
  constructor
  · intro h f hreaches
    refine ⟨hmarks.mp (fun f hf => (h f hf).1) f hreaches, fun hvis => ?_⟩
    exact (hreport f (h f hreaches).1 hvis).mp ((h f hreaches).2 hvis)
  · intro h f hreaches
    have hf := hmarks.mpr (fun f hf => (h f hf).1) f hreaches
    exact ⟨hf, fun hvis => (hreport f hf hvis).mpr ((h f hreaches).2 hvis)⟩

end

/-- Two functions that call each other, the later by name one declared `with _` as well. -/
def evenOdd : EffectChecker where
  functionBodies := ["apply", "even", "odd"]
  methodBodies := []
  bodyCalls name :=
    if name = "even" then [("odd", ⟨4, 5, 60, 6⟩)]
    else if name = "odd" then [("even", ⟨8, 5, 120, 7⟩), ("apply", ⟨9, 5, 135, 8⟩)]
    else []
  modbindCalls _ := []
  fnValueRefCalls _ := []
  functionVisibility name := if name = "odd" then some false else some true
  declaredEffects name := if name = "apply" then some .polymorphic else none
  modbind_bodyless _ _ h := absurd h List.not_mem_nil

theorem evenOdd_calls {f : Symbol} {call : Symbol × Span} (hc : call ∈ callsOf evenOdd f) :
    f = "even" ∧ call.1 = "odd" ∨ f = "odd" ∧ (call.1 = "even" ∨ call.1 = "apply") := by
  simp only [callsOf, evenOdd, List.append_nil] at hc
  split at hc
  · simp only [List.mem_singleton] at hc
    exact Or.inl ⟨‹_›, by rw [hc]⟩
  · split at hc
    · rcases List.mem_cons.mp hc with rfl | hc
      · exact Or.inr ⟨‹_›, Or.inl rfl⟩
      · rw [List.mem_singleton.mp hc]
        exact Or.inr ⟨‹_›, Or.inr rfl⟩
    · exact absurd hc List.not_mem_nil

/-- The marks are not closed under calls: no effect comes of the first pass, which has gone by the public function before
it marks the other. -/
theorem evenOdd_not_marked : ¬∀ (ck : EffectChecker) (fnUsesWithUnderscore : Finset Symbol) (seeds : EffectMap) (f : Symbol),
    ReachesUnderscore ck fnUsesWithUnderscore f →
      f ∈ (inferMarked ck fnUsesWithUnderscore seeds).callsPolymorphic ∧
        ((ck.functionVisibility f).getD false = true → DeclaresPolymorphic ck f ∨
          reportsMissingUnderscore ck (inferMarked ck fnUsesWithUnderscore seeds).callsPolymorphic f = true) := by
  intro hall
  have hodd : ReachesUnderscore evenOdd {"apply"} "odd" :=
    .direct (by decide) (show ("apply", ⟨9, 5, 135, 8⟩) ∈ callsOf evenOdd "odd" by decide) (by decide)
  have heven : ReachesUnderscore evenOdd {"apply"} "even" :=
    .through (by decide) (show ("odd", ⟨4, 5, 60, 6⟩) ∈ callsOf evenOdd "even" by decide) hodd
  have hmutual : Mutual evenOdd "even" "odd" :=
    ⟨Relation.ReflTransGen.single (by decide), Relation.ReflTransGen.single (by decide)⟩
  obtain ⟨a, hwithin, hlate⟩ := (marks_complete_iff evenOdd {"apply"} fun _ => none).mp
    (fun f hf => (hall evenOdd {"apply"} (fun _ => none) f hf).1) "even" heven ⟨"odd", by decide, hmutual⟩
  have hsteps : ∀ a f, Within (MarkFirst evenOdd {"apply"}) (MutualCall evenOdd) a f → f = "even" → a ≠ 0 := by
    intro a f h heq
    subst heq
    cases h with
    | first h =>
      obtain ⟨-, call, hc, h⟩ := h
      obtain ⟨-, hodd⟩ := (evenOdd_calls hc).resolve_right fun h => absurd h.1 (by decide)
      rw [hodd] at h
      rcases h with h | h
      · exact absurd h (by decide)
      · exact absurd hmutual h.1
    | back h hlt =>
      obtain ⟨⟨-, call, hc, rfl⟩, -⟩ := h
      obtain ⟨-, hodd⟩ := (evenOdd_calls hc).resolve_right fun h => absurd h.1 (by decide)
      exact absurd (hodd ▸ hlt) (by decide)
    | on => exact Nat.succ_ne_zero _
  have hpure : ∀ g e, ¬Performs evenOdd (fun _ => none) g e := by
    intro g e h
    induction h with
    | seed h => exact absurd h (by simp [effectsOf, EffectSet.contains])
    | declared _ hc h =>
      rcases evenOdd_calls hc with ⟨-, heq⟩ | ⟨-, heq | heq⟩ <;> rw [heq] at h <;> simp [contribution, evenOdd] at h
    | relayed _ _ _ _ ih => exact ih
  rcases hlate with hzero | ⟨e, g, -, hperforms, -⟩
  · exact hsteps a "even" hwithin rfl hzero
  · exact hpure g e hperforms

end Karac.Effects
