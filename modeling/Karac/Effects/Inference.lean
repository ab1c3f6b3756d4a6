import Karac.Concurrency.Conflicts
import Karac.Lib.Tarjan
import Karac.Token
import Karac.Lib.TarjanComponents

/-! Effect inference: the call graph, the components of it in reverse topological order, and the passes
over each component that add the effects of the callees. Bodies enter by their call lists. -/

namespace Karac.Effects

open Concurrency (EffectVerbKind sortedNames)

abbrev Symbol := String

structure Effect where
  verb : EffectVerbKind
  resource : String
  deriving DecidableEq, Repr

inductive EffectOrigin
  | direct (span : Span)
  | callee (fnName : String) (span : Span)
  deriving DecidableEq, Repr

structure TracedEffect where
  effect : Effect
  origin : EffectOrigin
  deriving DecidableEq, Repr

structure EffectSet where
  effects : List TracedEffect := []
  deriving DecidableEq, Repr

namespace EffectSet

def contains (set : EffectSet) (effect : Effect) : Bool := set.effects.any fun e => e.effect == effect

/-- Duplicates are not added: the first origin stays. -/
def add (set : EffectSet) (effect : Effect) (origin : EffectOrigin) : EffectSet :=
  if set.contains effect then set else ⟨set.effects ++ [⟨effect, origin⟩]⟩

end EffectSet

inductive DeclaredEffects
  | explicit (set : EffectSet)
  | polymorphic
  | polymorphicWithFixed (fixed : EffectSet)
  | none
  deriving DecidableEq, Repr

/-- What inference reads of the program. The synthetic keys of module bindings have no body. -/
structure EffectChecker where
  functionBodies : List Symbol
  methodBodies : List Symbol
  /-- `collect_calls_in_block` of the body. -/
  bodyCalls : Symbol → List (Symbol × Span)
  /-- `collect_modbind_synth_calls_in_block` of the body. -/
  modbindCalls : Symbol → List (Symbol × Span)
  fnValueRefCalls : Symbol → List (Symbol × Span)
  functionVisibility : Symbol → Option Bool
  declaredEffects : Symbol → Option DeclaredEffects
  modbind_bodyless : ∀ f c, c ∈ modbindCalls f → c.1 ∉ functionBodies ++ methodBodies

/-- The table `inferred_effects`. -/
abbrev EffectMap := Symbol → Option EffectSet

inductive EdgeKinds
  | callsAndValueRefs
  | callsOnly
  deriving DecidableEq, Repr

section

variable (ck : EffectChecker)

def allFnNames : Finset Symbol := (ck.functionBodies ++ ck.methodBodies).toFinset

/-- The edges of a function to functions with bodies. -/
def buildCallGraphWith (kinds : EdgeKinds) (name : Symbol) : List (Symbol × Span) :=
  (ck.bodyCalls name ++ if kinds = .callsAndValueRefs then ck.fnValueRefCalls name else []).filter
    fun call => decide (call.1 ∈ allFnNames ck)

def buildCallGraph : Symbol → List (Symbol × Span) := buildCallGraphWith ck .callsAndValueRefs

/-- Components are sorted by name. -/
def sortScc (scc : List Symbol) : List Symbol := scc.mergeSort fun a b => decide (a ≤ b)

/-- The fuel covers the deepest recursion. -/
def tarjanScc (nodes : Finset Symbol) (graph : Symbol → List (Symbol × Span)) : List (List Symbol) :=
  ((Lib.Tarjan.connectAll sortScc (fun v => (graph v).map Prod.fst) nodes.card (sortedNames nodes)
    Lib.Tarjan.start).map Lib.Tarjan.TarjanState.result).getD []

inductive CalleeEffectSets
  | none
  | one (set : EffectSet)
  | two (first second : EffectSet)

/-- The effects a callee contributes: the second set without what is in the first. -/
def CalleeEffectSets.iter : CalleeEffectSets → List Effect
  | .none => []
  | .one set => set.effects.map TracedEffect.effect
  | .two first second =>
    first.effects.map TracedEffect.effect ++
      (second.effects.map TracedEffect.effect).filter fun e => !first.contains e

def inferredSet (inferred : EffectMap) (name : Symbol) : CalleeEffectSets :=
  match inferred name with
  | some set => .one set
  | none => .none

/-- Public functions contribute what they declare, private ones what is inferred, polymorphic ones both. -/
def calleeEffectSets (inferred : EffectMap) (callee : Symbol) : CalleeEffectSets :=
  if (ck.functionVisibility callee).getD false then
    match ck.declaredEffects callee with
    | some (.explicit set) => .one set
    | some .polymorphic => inferredSet inferred callee
    | some (.polymorphicWithFixed fixed) =>
      match inferred callee with
      | some set => .two fixed set
      | none => .one fixed
    | some .none => .none
    | none => .none
  else inferredSet inferred callee

/-- The first call of each callee. -/
def retainFirst : List (Symbol × Span) → Finset Symbol → List (Symbol × Span)
  | [], _ => []
  | call :: calls, seen =>
    if call.1 ∈ seen then retainFirst calls seen else call :: retainFirst calls (insert call.1 seen)

def inferCalls (name : Symbol) : List (Symbol × Span) :=
  retainFirst (ck.bodyCalls name ++ ck.modbindCalls name ++ ck.fnValueRefCalls name) ∅

/-- The effects of one callee that are new, traced to the call. -/
def addCalleeEffects (call : Symbol × Span) : List Effect → EffectSet × Bool → EffectSet × Bool
  | [], r => r
  | e :: es, r =>
    addCalleeEffects call es
      (if r.1.contains e then r else (r.1.add e (.callee call.1 call.2), true))

def addCalls (inferred : EffectMap) : List (Symbol × Span) → EffectSet × Bool → EffectSet × Bool
  | [], r => r
  | call :: calls, r =>
    addCalls inferred calls (addCalleeEffects call (calleeEffectSets ck inferred call.1).iter r)

/-- One function: its own entry is out of the table while its callees are read. -/
def inferFunctionEffects (name : Symbol) (inferred : EffectMap) : EffectMap × Bool :=
  let current := (inferred name).getD {}
  let r := addCalls ck (Function.update inferred name none) (inferCalls ck name) (current, false)
  (Function.update inferred name (some r.1), r.2)

def sccPass : List Symbol → EffectMap → Bool → EffectMap × Bool
  | [], inferred, changed => (inferred, changed)
  | name :: names, inferred, changed =>
    if name ∈ allFnNames ck then
      let r := inferFunctionEffects ck name inferred
      sccPass names r.1 (changed || r.2)
    else sccPass names inferred changed

/-- At most so many passes, until one changes nothing. -/
def sccPasses (scc : List Symbol) : ℕ → EffectMap → EffectMap
  | 0, inferred => inferred
  | k + 1, inferred =>
    let r := sccPass ck scc inferred false
    if r.2 then sccPasses scc k r.1 else r.1

def inferScc (scc : List Symbol) (inferred : EffectMap) : EffectMap :=
  if scc.length = 1 then (sccPass ck scc inferred false).1 else sccPasses ck scc (scc.length + 1) inferred

/-- `entry(name).or_default()` for every function with a body. -/
def initEntries (inferred : EffectMap) : EffectMap := fun name =>
  if name ∈ allFnNames ck then some ((inferred name).getD {}) else inferred name

def inferSccs : List (List Symbol) → EffectMap → EffectMap
  | [], inferred => inferred
  | scc :: sccs, inferred => inferSccs sccs (inferScc ck scc inferred)

def inferEffects (seeds : EffectMap) : EffectMap :=
  inferSccs ck (tarjanScc (allFnNames ck) (buildCallGraph ck)) (initEntries ck seeds)

end

end Karac.Effects

/-! The components of the call graph: classes of mutual reachability, callees first. -/

namespace Karac.Effects

open Concurrency (sortedNames mem_sortedNames)
open Lib.Tarjan (Reach)

theorem sortScc_perm (scc : List Symbol) : (sortScc scc).Perm scc := List.mergeSort_perm scc _

/-- Is there a way along the calls? -/
abbrev CallPath (graph : Symbol → List (Symbol × Span)) : Symbol → Symbol → Prop :=
  Reach fun v => (graph v).map Prod.fst

variable {nodes : Finset Symbol} {graph : Symbol → List (Symbol × Span)}

theorem tarjanScc_run (hgraph : ∀ v ∈ nodes, ∀ call ∈ graph v, call.1 ∈ nodes) :
    ∃ st, Lib.Tarjan.connectAll sortScc (fun v => (graph v).map Prod.fst) nodes.card (sortedNames nodes)
        Lib.Tarjan.start = some st ∧ tarjanScc nodes graph = st.result ∧
      Lib.Tarjan.Ordered (fun v => (graph v).map Prod.fst) (tarjanScc nodes graph) ∧
      Lib.Tarjan.Sound (fun v => (graph v).map Prod.fst) nodes st ∧ ∀ v ∈ nodes, v ∈ (tarjanScc nodes graph).flatten := by
  have hnodes : ∀ v ∈ nodes, ∀ w ∈ (graph v).map Prod.fst, w ∈ nodes := by
    intro v hv w hw
    obtain ⟨call, hc, rfl⟩ := List.mem_map.mp hw
    exact hgraph v hv call hc
  obtain ⟨st, hrun, hinv, hsound, -, -, hall⟩ := Lib.Tarjan.connectAll_spec
    sortScc_perm hnodes le_rfl (sortedNames nodes) (fun v hv => mem_sortedNames.mp hv)
    Lib.Tarjan.Inv.start Lib.Tarjan.Sound.start rfl
  have heq : tarjanScc nodes graph = st.result := by
    unfold tarjanScc
    rw [hrun]
    rfl
  exact ⟨st, hrun, heq, heq ▸ hinv.ordered, hsound, fun v hv => heq ▸ hall v (mem_sortedNames.mpr hv)⟩

/-- Components are in the order of names. -/
theorem tarjanScc_sorted (hgraph : ∀ v ∈ nodes, ∀ call ∈ graph v, call.1 ∈ nodes) :
    ∀ scc ∈ tarjanScc nodes graph, scc.Pairwise (· < ·) := by
  obtain ⟨st, hrun, heq, -, hsound, -⟩ := tarjanScc_run hgraph
  intro scc hscc
  have hstart : Lib.Tarjan.Tidied sortScc Lib.Tarjan.start := fun comp hcomp => absurd hcomp List.not_mem_nil
  obtain ⟨l, rfl⟩ := Lib.Tarjan.connectAll_tidied _ hstart hrun scc (heq ▸ hscc)
  have hnodup : (sortScc l).Nodup :=
    (List.nodup_flatten.mp (List.nodup_append.mp hsound.nodup).2.1).1 _ (heq ▸ hscc)
  have hle : (sortScc l).Pairwise fun a b => decide (a ≤ b) = true :=
    List.pairwise_mergeSort (fun a b c hab hbc => decide_eq_true ((of_decide_eq_true hab).trans (of_decide_eq_true hbc)))
      (fun a b => by simpa using le_total a b) l
  exact (hle.and hnodup).imp fun ⟨h, hne⟩ => lt_of_le_of_ne (of_decide_eq_true h) hne

theorem tarjanScc_nodup (hgraph : ∀ v ∈ nodes, ∀ call ∈ graph v, call.1 ∈ nodes) :
    (tarjanScc nodes graph).flatten.Nodup := by
  obtain ⟨_, -, heq, -, hsound, -⟩ := tarjanScc_run hgraph
  exact heq ▸ (List.nodup_append.mp hsound.nodup).2.1

theorem mem_nodes_of_scc (hgraph : ∀ v ∈ nodes, ∀ call ∈ graph v, call.1 ∈ nodes) {v : Symbol}
    (hv : v ∈ (tarjanScc nodes graph).flatten) : v ∈ nodes := by
  obtain ⟨_, -, heq, -, hsound, -⟩ := tarjanScc_run hgraph
  exact hsound.mem v (List.mem_append_right _ (heq ▸ hv))

/-- A component is a class of nodes that reach each other. -/
theorem mem_scc_iff (hgraph : ∀ v ∈ nodes, ∀ call ∈ graph v, call.1 ∈ nodes) {scc : List Symbol}
    (hscc : scc ∈ tarjanScc nodes graph) {v w : Symbol} (hv : v ∈ scc) :
    w ∈ scc ↔ CallPath graph v w ∧ CallPath graph w v := by
  obtain ⟨_, -, heq, hord, hsound, -⟩ := tarjanScc_run hgraph
  have hjoined := hsound.joined scc (heq ▸ hscc)
  exact ⟨fun hw => ⟨hjoined v hv w hw, hjoined w hw v hv⟩,
    fun h => hord.mem_of_mutual (tarjanScc_nodup hgraph) hscc hv h.1 h.2⟩

/-- The search ends, every node is in exactly one component and there once, two nodes share a component
when each reaches the other and only then, and an edge between components leads to an earlier one. -/
theorem tarjanScc_components (hgraph : ∀ v ∈ nodes, ∀ call ∈ graph v, call.1 ∈ nodes) :
    (∃ st, Lib.Tarjan.connectAll sortScc (fun v => (graph v).map Prod.fst) nodes.card (sortedNames nodes)
      Lib.Tarjan.start = some st ∧ tarjanScc nodes graph = st.result) ∧
    (∀ v ∈ nodes, ∃! i : Fin (tarjanScc nodes graph).length, v ∈ (tarjanScc nodes graph)[i]) ∧
    (∀ scc ∈ tarjanScc nodes graph, scc.Nodup ∧ ∀ v ∈ scc, v ∈ nodes ∧
      ∀ w ∈ nodes, w ∈ scc ↔ CallPath graph v w ∧ CallPath graph w v) ∧
    ∀ i j : Fin (tarjanScc nodes graph).length, i ≠ j → ∀ u ∈ (tarjanScc nodes graph)[i], ∀ call ∈ graph u,
      call.1 ∈ (tarjanScc nodes graph)[j] → j < i := by
  obtain ⟨st, hrun, heq, hord, -, hall⟩ := tarjanScc_run hgraph
  have hnodup := tarjanScc_nodup hgraph
  refine ⟨⟨st, hrun, heq⟩, fun v hv => ?_, fun scc hscc => ⟨?_, fun v hv => ⟨?_, fun w _ => mem_scc_iff hgraph hscc hv⟩⟩,
    fun i j hne u hu call hc hw => ?_⟩
  · obtain ⟨scc, hscc, hmem⟩ := List.mem_flatten.mp (hall v hv)
    obtain ⟨i, hi, rfl⟩ := List.getElem_of_mem hscc
    exact ⟨⟨i, hi⟩, hmem, fun j hj => Fin.ext (Lib.Tarjan.eq_of_mem_getElem hnodup hj hmem)⟩
  · exact (List.nodup_flatten.mp hnodup).1 scc hscc
  · exact mem_nodes_of_scc hgraph (List.mem_flatten.mpr ⟨scc, hscc, hv⟩)
  · exact Fin.lt_def.mpr (hord.lt_of_edge hnodup hu (List.mem_map_of_mem hc) hw fun h => hne (Fin.ext h))

/-- Two functions that call each other, one of them itself too, and one that nothing calls. -/
theorem tarjanScc_components_mutual :
    ∃ scc ∈ tarjanScc {"even", "odd", "main"} (fun name =>
      if name = "even" then [("odd", ⟨1, 1, 0, 3⟩), ("even", ⟨1, 8, 7, 4⟩)]
      else if name = "odd" then [("even", ⟨2, 1, 20, 4⟩)] else []), "even" ∈ scc ∧ "odd" ∈ scc ∧ "main" ∉ scc := by
  set graph : Symbol → List (Symbol × Span) := fun name =>
    if name = "even" then [("odd", ⟨1, 1, 0, 3⟩), ("even", ⟨1, 8, 7, 4⟩)]
    else if name = "odd" then [("even", ⟨2, 1, 20, 4⟩)] else [] with hgraph
  have hclosed : ∀ v ∈ ({"even", "odd", "main"} : Finset Symbol), ∀ call ∈ graph v,
      call.1 ∈ ({"even", "odd", "main"} : Finset Symbol) := by
    simp only [hgraph, Finset.mem_insert, Finset.mem_singleton]
    rintro v (rfl | rfl | rfl) <;> simp
  obtain ⟨-, hall, hscc, -⟩ := tarjanScc_components hclosed
  obtain ⟨i, hi, -⟩ := hall "even" (by simp)
  have hmem : (tarjanScc {"even", "odd", "main"} graph)[i] ∈ tarjanScc {"even", "odd", "main"} graph :=
    List.getElem_mem i.isLt
  have hclass := (hscc _ hmem).2 "even" hi
  refine ⟨_, hmem, hi, (hclass.2 "odd" (by simp)).mpr ⟨?_, ?_⟩, fun hmain => ?_⟩
  · exact Relation.ReflTransGen.single (by simp [hgraph])
  · exact Relation.ReflTransGen.single (by simp [hgraph])
  · rcases ((hclass.2 "main" (by simp)).mp hmain).2.cases_head with heq | ⟨name, hedge, -⟩
    · exact absurd heq (by decide)
    · simp [hgraph] at hedge

end Karac.Effects
