import Karac.Effects.Gates
import Karac.Effects.Origins

/-! What the reachability gates report. A use is charged where the origin that inference kept points, so a use is
reported when the effect has no way round it. -/

namespace Karac.Effects

open Relation

section

variable (prog : GateProgram)

/-! The uses that the gates are about. -/

def Calls (name callee : Symbol) : Prop := callee ∈ callees prog name

/-- Reached from `main` on a call chain on which no function binds a provider for the resource. -/
inductive Unbound (resource : String) : Symbol → Prop
  | main : "main" ∈ prog.functionBodies → resource ∉ boundIn prog "main" → Unbound resource "main"
  | call {name callee : Symbol} : Unbound resource name → Calls prog name callee →
      resource ∉ boundIn prog callee → Unbound resource callee

inductive FromGpuRoot : Symbol → Prop
  | root {name : Symbol} : name ∈ allFnNames prog.toEffectChecker → prog.isGpu name = true → FromGpuRoot name
  | call {name callee : Symbol} : FromGpuRoot name → Calls prog name callee → FromGpuRoot callee

/-- The body calls a body-less function that has the effect. -/
def CallsBodyless (name : Symbol) (e : Effect) : Prop :=
  ∃ call ∈ callsOf prog.toEffectChecker name, call.1 ∉ allFnNames prog.toEffectChecker ∧
    e ∈ contribution prog.toEffectChecker (effectsOf prog.seeds) call.1

/-- Or the function is declared with the effect. -/
def BodyUses (name : Symbol) (e : Effect) : Prop :=
  CallsBodyless prog name e ∨ e ∈ fixedEffects (prog.declaredEffects name)

/-- The effect is forbidden as it is written or by its canonical name. -/
def GpuForbidden (e : Effect) (reason : String) : Prop :=
  gpuForbiddenReason e = some reason ∨ gpuForbiddenReason { e with resource := canon prog e.resource } = some reason

def CallsPanicEmitter (name : Symbol) : Prop :=
  ∃ call ∈ callsOf prog.toEffectChecker name, call.1 ∉ allFnNames prog.toEffectChecker ∧
    (explicitPanicEmitterLabel call.1).isSome = true

/-- The target gate ends, and reports every use of a missing resource on an unbound chain. -/
def TargetGateComplete (target : String) : Prop :=
  ∃ errors, checkTargetGate prog target = some errors ∧ ∀ name e resource, Unbound prog resource name →
    BodyUses prog name e → missingResource prog target e = some resource →
      ∃ path span, targetGateError target resource path span ∈ errors

/-- The GPU gate ends, and reports every forbidden effect and explicit panic below a root. -/
def GpuGateComplete : Prop :=
  ∃ errors, checkGpuEffectGate prog = some errors ∧
    (∀ name e reason, FromGpuRoot prog name → BodyUses prog name e → GpuForbidden prog e reason →
      ∃ path span, gpuGateError reason path span ∈ errors) ∧
    ∀ name, FromGpuRoot prog name → CallsPanicEmitter prog name →
      ∃ label path span, gpuGateError (explicitPanicReason label) path span ∈ errors

/-! When a use is charged. -/

/-- What a function performs, by its declarations and calls. -/
def leastFamily : Family := fun name => {e | ∀ S, IsFamily prog.toEffectChecker prog.seeds S → e ∈ S name}

/-- The origin of the effect may be the callee: it has a body and performs the effect, and no call before it
contributes the effect from the start. -/
def Passes (e : Effect) (name callee : Symbol) : Prop :=
  e ∉ effectsOf prog.seeds name ∧ callee ∈ allFnNames prog.toEffectChecker ∧
    (∃ span, Foremost prog.toEffectChecker prog.seeds name e (callee, span)) ∧
    e ∈ contribution prog.toEffectChecker (leastFamily prog) callee

/-- The use is seeded or a call, and the functions it may pass to are fine and seed what they declare. -/
def Shown (name : Symbol) (e : Effect) (fine : Symbol → Prop) : Prop :=
  (e ∈ effectsOf prog.seeds name ∨ CallsBodyless prog name e) ∧ ∀ g, TransGen (Passes prog e) name g →
    fine g ∧ (Firewall prog.toEffectChecker g e → e ∈ effectsOf prog.seeds g)

/-- The panic passes only to functions that neither declare it nor have an implicit one first. -/
def PanicShown (name : Symbol) (e : Effect) : Prop :=
  CallsBodyless prog name e ∧ (∀ g, TransGen (Passes prog e) name g → ¬ Firewall prog.toEffectChecker g e) ∧
    ∀ g, ReflTransGen (Passes prog e) name g → e ∉ effectsOf prog.seeds g ∧
      ∀ call, Foremost prog.toEffectChecker prog.seeds g e call → call.1 ∉ allFnNames prog.toEffectChecker →
        e ∈ contribution prog.toEffectChecker (effectsOf prog.seeds) call.1 →
          (explicitPanicEmitterLabel call.1).isSome = true

def TargetUsesShown (target : String) : Prop :=
  ∀ name e resource, Unbound prog resource name → BodyUses prog name e → missingResource prog target e = some resource →
    ∃ name e, Unbound prog resource name ∧ missingResource prog target e = some resource ∧
      Shown prog name e fun g => resource ∉ boundIn prog g

structure GpuUsesShown : Prop where
  effects : ∀ name e reason, FromGpuRoot prog name → BodyUses prog name e → GpuForbidden prog e reason →
    ∃ name e, FromGpuRoot prog name ∧ gpuForbiddenReason e = some reason ∧ Shown prog name e fun _ => True
  panics : ∀ name, FromGpuRoot prog name → CallsPanicEmitter prog name →
    ∃ name e, FromGpuRoot prog name ∧ e.verb = .panics ∧ PanicShown prog name e

end

/-! The walks. -/

section

variable {prog : GateProgram}

theorem calls_iff {name callee : Symbol} :
    Calls prog name callee ↔ callee ∈ (buildCallGraph prog.toEffectChecker name).map Prod.fst := by
  unfold Calls callees
  rw [List.mem_map, List.mem_map]
  have h := retainFirst_callees (buildCallGraph prog.toEffectChecker name) ∅ fun c => c = callee
  rw [h]
  simp

theorem calls_body {name callee : Symbol} (h : Calls prog name callee) :
    callee ∈ allFnNames prog.toEffectChecker := by
  obtain ⟨call, hc, rfl⟩ := List.mem_map.mp (calls_iff.mp h)
  exact of_decide_eq_true (List.mem_filter.mp hc).2

theorem main_body (h : "main" ∈ prog.functionBodies) : "main" ∈ allFnNames prog.toEffectChecker :=
  List.mem_toFinset.mpr (List.mem_append_left _ h)

theorem mem_gateKeys {key : GateKey} : key ∈ gateKeys prog ↔ key.1 ∈ allFnNames prog.toEffectChecker ∧
    key.2 ⊆ (allFnNames prog.toEffectChecker).biUnion (boundIn prog) := by
  unfold gateKeys
  rw [Finset.mem_product, Finset.mem_powerset]

theorem boundIn_subset {name : Symbol} (h : name ∈ allFnNames prog.toEffectChecker) :
    boundIn prog name ⊆ (allFnNames prog.toEffectChecker).biUnion (boundIn prog) :=
  Finset.subset_biUnion_of_mem _ h

theorem mem_gateChildren {key child : GateKey} :
    child ∈ gateChildren prog key ↔ Calls prog key.1 child.1 ∧ child.2 = key.2 ∪ boundIn prog child.1 := by
  unfold gateChildren
  rw [List.mem_map]
  constructor
  · rintro ⟨callee, hc, rfl⟩
    exact ⟨hc, rfl⟩
  · rintro ⟨hc, heq⟩
    exact ⟨child.1, hc, by rw [← heq]⟩

theorem gateKeys_closed : ∀ key ∈ gateKeys prog, ∀ child ∈ gateChildren prog key, child ∈ gateKeys prog := by
  intro key hkey child hchild
  obtain ⟨hcall, heq⟩ := mem_gateChildren.mp hchild
  have hbody := calls_body hcall
  refine mem_gateKeys.mpr ⟨hbody, ?_⟩
  rw [heq]
  exact Finset.union_subset (mem_gateKeys.mp hkey).2 (boundIn_subset hbody)

/-- An unbound chain is walked with the resource not discharged. -/
theorem Unbound.walked {resource : String} {name : Symbol} (h : Unbound prog resource name) :
    ∃ here, ReflTransGen (fun a b => b ∈ gateChildren prog a) ("main", boundIn prog "main") (name, here) ∧
      resource ∉ here := by
  induction h with
  | main _ hnot => exact ⟨_, .refl, hnot⟩
  | @call name callee _ hcall hnot ih =>
    obtain ⟨here, hpath, hhere⟩ := ih
    refine ⟨here ∪ boundIn prog callee, hpath.tail (mem_gateChildren.mpr ⟨hcall, rfl⟩), fun hmem => ?_⟩
    exact (Finset.mem_union.mp hmem).elim hhere hnot

theorem Unbound.main_mem {resource : String} {name : Symbol} (h : Unbound prog resource name) :
    "main" ∈ prog.functionBodies := by
  induction h with
  | main h _ => exact h
  | call _ _ _ ih => exact ih

theorem mem_targetViolations {T : EffectMap} {target resource : String} {path : List GateKey} {key : GateKey}
    {te : TracedEffect} {span : Span} (hte : te ∈ held T key.1)
    (hmissing : missingResource prog target te.effect = some resource) (hhere : directHere prog te = some span)
    (hnot : resource ∉ key.2) :
    targetGateError target resource (path.map Prod.fst) span ∈ targetViolations prog T target path key := by
  have huse : (resource, span) ∈ directUses T (directHostUse prog target) key.1 := by
    refine List.mem_filterMap.mpr ⟨te, hte, ?_⟩
    unfold directHostUse
    rw [hmissing, hhere]
    rfl
  exact List.mem_map.mpr ⟨_, List.mem_filter.mpr ⟨huse, decide_eq_true hnot⟩, rfl⟩

theorem of_mem_targetViolations {T : EffectMap} {target : String} {path : List GateKey} {key : GateKey}
    {error : EffectError} (h : error ∈ targetViolations prog T target path key) : ∃ te ∈ held T key.1, ∃ resource,
      missingResource prog target te.effect = some resource ∧ (directHere prog te).isSome = true ∧ resource ∉ key.2 := by
  obtain ⟨use, hmem, -⟩ := List.mem_map.mp h
  obtain ⟨huse, hnot⟩ := List.mem_filter.mp hmem
  obtain ⟨te, hte, hdirect⟩ := List.mem_filterMap.mp huse
  obtain ⟨resource, hmissing, hspan⟩ := Option.bind_eq_some_iff.mp hdirect
  obtain ⟨span, hhere, rfl⟩ := Option.map_eq_some_iff.mp hspan
  exact ⟨te, hte, resource, hmissing, Option.isSome_iff_exists.mpr ⟨span, hhere⟩, of_decide_eq_true hnot⟩

/-- The target gate ends and reports what an unbound chain reaches and the table charges there. -/
theorem checkTargetGateOn_spec (T : EffectMap) (target : String) :
    ∃ errors, checkTargetGateOn prog T target = some errors ∧ ∀ name te resource span, Unbound prog resource name →
      te ∈ held T name → missingResource prog target te.effect = some resource → directHere prog te = some span →
        ∃ path, targetGateError target resource path span ∈ errors := by
  unfold checkTargetGateOn
  by_cases hmain : "main" ∈ prog.functionBodies
  · rw [if_pos hmain]
    have hroot : (("main", boundIn prog "main") : GateKey) ∈ gateKeys prog :=
      mem_gateKeys.mpr ⟨main_body hmain, boundIn_subset (main_body hmain)⟩
    obtain ⟨st, hrun, hall⟩ :=
      @Lib.MemoDfs.root_spec _ _ (targetViolations prog T target) _ _ _ gateKeys_closed _ hroot
    refine ⟨st.2, by rw [hrun, Option.map_some], fun name te resource span hchain hte hmissing hhere => ?_⟩
    obtain ⟨here, hwalk, hnot⟩ := hchain.walked
    obtain ⟨path, hreport⟩ := hall _ hwalk
    exact ⟨_, hreport _ (mem_targetViolations hte hmissing hhere hnot)⟩
  · rw [if_neg hmain]
    exact ⟨[], rfl, fun name te resource span hchain => absurd hchain.main_mem hmain⟩

theorem FromGpuRoot.walked {name : Symbol} (h : FromGpuRoot prog name) :
    ∃ root ∈ gpuRoots prog, ReflTransGen (fun a b => b ∈ callees prog a) root name := by
  induction h with
  | root hbody hgpu =>
    exact ⟨_, Concurrency.mem_sortedNames.mpr (Finset.mem_filter.mpr ⟨hbody, hgpu⟩), .refl⟩
  | call _ hcall ih =>
    obtain ⟨root, hroot, hpath⟩ := ih
    exact ⟨root, hroot, hpath.tail hcall⟩

theorem mem_gpuViolations {T : EffectMap} {path : List Symbol} {name : Symbol} {te : TracedEffect}
    {use : String × Span} (hte : te ∈ held T name) (huse : directGpuUse prog te = some use) :
    gpuGateError use.1 path use.2 ∈ gpuViolations prog T path name := by
  have hmem : use ∈ directUses T (directGpuUse prog) name := List.mem_filterMap.mpr ⟨te, hte, huse⟩
  exact List.mem_map.mpr ⟨use, hmem, rfl⟩

/-- The GPU gate ends and reports what the table charges below the roots. -/
theorem checkGpuEffectGateOn_spec (T : EffectMap) :
    ∃ errors, checkGpuEffectGateOn prog T = some errors ∧ ∀ name te reason span, FromGpuRoot prog name →
      te ∈ held T name → directGpuUse prog te = some (reason, span) →
        ∃ path, gpuGateError reason path span ∈ errors := by
  unfold checkGpuEffectGateOn
  have hclosed : ∀ name ∈ allFnNames prog.toEffectChecker, ∀ callee ∈ callees prog name,
      callee ∈ allFnNames prog.toEffectChecker := fun _ _ _ hc => calls_body hc
  have hroots : ∀ root ∈ gpuRoots prog, root ∈ allFnNames prog.toEffectChecker := fun root hr =>
    (Finset.mem_filter.mp (Concurrency.mem_sortedNames.mp hr)).1
  obtain ⟨st, hrun, hall⟩ := @Lib.MemoDfs.roots_spec _ _ (gpuViolations prog T) _ _ _ hclosed _ hroots
  refine ⟨st.2, by rw [hrun, Option.map_some], fun name te reason span hreach hte huse => ?_⟩
  obtain ⟨root, hroot, hwalk⟩ := hreach.walked
  obtain ⟨path, hreport⟩ := hall root hroot name hwalk
  have hmem := @mem_gpuViolations prog T path name te (reason, span) hte huse
  exact ⟨path, hreport _ hmem⟩

/-! The origins. -/

/-- The table that the gates read. -/
def settled (prog : GateProgram) : EffectMap := inferEffects prog.toEffectChecker prog.seeds

theorem settled_least (prog : GateProgram) :
    IsLeast {S | IsFamily prog.toEffectChecker prog.seeds S} (effectsOf (settled prog)) :=
  infer_effects_least prog.toEffectChecker prog.seeds

theorem settled_origins (prog : GateProgram) : OriginInv prog.toEffectChecker prog.seeds (settled prog) :=
  inferEffects_origins

theorem settled_le_least : effectsOf (settled prog) ≤ leastFamily prog :=
  fun name _ he _ hS => (settled_least prog).2 hS name he

theorem passes_calls {e : Effect} {name callee : Symbol} (h : Passes prog e name callee) : Calls prog name callee := by
  obtain ⟨-, hbody, ⟨span, pre, post, hsplit, -⟩, -⟩ := h
  have hc : (callee, span) ∈ callsOf prog.toEffectChecker name := by
    rw [hsplit]
    exact List.mem_append_right _ List.mem_cons_self
  exact calls_iff.mpr (mem_graph_of_call hc hbody)

theorem directHere_seed {name : Symbol} {te : TracedEffect} (h : te ∈ held prog.seeds name) :
    ∃ span, directHere prog te = some span := by
  obtain ⟨span, horigin⟩ := prog.seeds_direct name te h
  unfold directHere
  rw [horigin]
  exact ⟨span, rfl⟩

/-- A body-less call of a function adds to its set. -/
theorem mem_settled_of_call {name : Symbol} {e : Effect} (hname : name ∈ allFnNames prog.toEffectChecker)
    (h : CallsBodyless prog name e) : e ∈ effectsOf (settled prog) name := by
  obtain ⟨call, hc, -, he⟩ := h
  exact (settled_least prog).1.callees name hname call hc
    (contribution_mono (settled_least prog).1.seed call.1 he)

/-- How the way of a stored effect ends: at a seed, at a body-less callee, or at a callee that declares it. -/
inductive Ends (prog : GateProgram) (e : Effect) (name : Symbol) : EffectOrigin → Prop
  | seed {origin : EffectOrigin} : ⟨e, origin⟩ ∈ held prog.seeds name → Ends prog e name origin
  | bodyless {call : Symbol × Span} : call.1 ∉ allFnNames prog.toEffectChecker →
      Foremost prog.toEffectChecker prog.seeds name e call →
      e ∈ contribution prog.toEffectChecker (effectsOf prog.seeds) call.1 → Ends prog e name (.callee call.1 call.2)
  | firewall {call : Symbol × Span} : Passes prog e name call.1 → Firewall prog.toEffectChecker call.1 e →
      Ends prog e name (.callee call.1 call.2)

theorem passes_of_call {name : Symbol} {e : Effect} {call : Symbol × Span} (hseed : e ∉ effectsOf prog.seeds name)
    (hfirst : Foremost prog.toEffectChecker prog.seeds name e call)
    (hbody : call.1 ∈ allFnNames prog.toEffectChecker)
    (he : e ∈ contribution prog.toEffectChecker (effectsOf (settled prog)) call.1) : Passes prog e name call.1 :=
  ⟨hseed, hbody, ⟨call.2, hfirst⟩, contribution_mono settled_le_least call.1 he⟩

/-- What a body-less function contributes does not change. -/
theorem contribution_bodyless {callee : Symbol} (h : callee ∉ allFnNames prog.toEffectChecker) {e : Effect}
    (he : e ∈ contribution prog.toEffectChecker (effectsOf (settled prog)) callee) :
    e ∈ contribution prog.toEffectChecker (effectsOf prog.seeds) callee := by
  refine (contribution_congr ?_).mp he
  rw [mem_effectsOf_held, mem_effectsOf_held, (settled_origins prog).bodyless callee h]

theorem Traced.ends {name : Symbol} {e : Effect} {origin : EffectOrigin}
    (h : Traced prog.toEffectChecker prog.seeds (settled prog) name e origin)
    (hheld : ⟨e, origin⟩ ∈ held (settled prog) name) :
    ∃ g origin', ReflTransGen (Passes prog e) name g ∧ ⟨e, origin'⟩ ∈ held (settled prog) g ∧
      Ends prog e g origin' := by
  induction h with
  | seed hs => exact ⟨_, _, .refl, hheld, .seed hs⟩
  | @firewall name e call hseed hfirst hwall =>
    have he := hwall.contribution (effectsOf (settled prog))
    by_cases hbody : call.1 ∈ allFnNames prog.toEffectChecker
    · exact ⟨_, _, .refl, hheld, .firewall (passes_of_call hseed hfirst hbody he) hwall⟩
    · exact ⟨_, _, .refl, hheld, .bodyless hbody hfirst (contribution_bodyless hbody he)⟩
  | @call name e call origin hseed hfirst he hcallee _ ih =>
    by_cases hbody : call.1 ∈ allFnNames prog.toEffectChecker
    · obtain ⟨g, origin', hpath, hg, hends⟩ := ih hcallee
      exact ⟨g, origin', hpath.head (passes_of_call hseed hfirst hbody he), hg, hends⟩
    · exact ⟨_, _, .refl, hheld, .bodyless hbody hfirst (contribution_bodyless hbody he)⟩

theorem exists_ends {name : Symbol} {e : Effect} (h : e ∈ effectsOf (settled prog) name) :
    ∃ g origin, ReflTransGen (Passes prog e) name g ∧ ⟨e, origin⟩ ∈ held (settled prog) g ∧ Ends prog e g origin := by
  obtain ⟨origin, hheld⟩ := mem_effectsOf_held.mp h
  exact ((settled_origins prog).traced name _ hheld).ends hheld

/-- A shown use is charged at the function or below it. -/
theorem Shown.charged {name : Symbol} {e : Effect} {fine : Symbol → Prop} (h : Shown prog name e fine)
    (hname : name ∈ allFnNames prog.toEffectChecker) :
    ∃ g te span, ReflTransGen (Passes prog e) name g ∧ te ∈ held (settled prog) g ∧ te.effect = e ∧
      directHere prog te = some span := by
  obtain ⟨huse, hbelow⟩ := h
  have hmem : e ∈ effectsOf (settled prog) name :=
    huse.elim (fun hseed => (settled_least prog).1.seed name hseed) fun hcall => mem_settled_of_call hname hcall
  obtain ⟨g, origin, hpath, hheld, hends⟩ := exists_ends hmem
  cases hends with
  | seed hs =>
    obtain ⟨span, hspan⟩ := directHere_seed hs
    exact ⟨g, _, span, hpath, hheld, rfl, hspan⟩
  | @bodyless call hbody =>
    refine ⟨g, _, call.2, hpath, hheld, rfl, ?_⟩
    unfold directHere
    exact if_neg hbody
  | @firewall call hpass hwall =>
    obtain ⟨origin', hs⟩ := mem_effectsOf_held.mp ((hbelow call.1 (TransGen.tail' hpath hpass)).2 hwall)
    obtain ⟨span, hspan⟩ := directHere_seed hs
    exact ⟨call.1, _, span, hpath.tail hpass, (settled_origins prog).seeded call.1 hs, rfl, hspan⟩

/-- A shown panic is charged to an explicit emitter. -/
theorem PanicShown.charged {name : Symbol} {e : Effect} (h : PanicShown prog name e) (hverb : e.verb = .panics)
    (hname : name ∈ allFnNames prog.toEffectChecker) :
    ∃ g te label span, ReflTransGen (Passes prog e) name g ∧ te ∈ held (settled prog) g ∧
      directGpuUse prog te = some (explicitPanicReason label, span) := by
  obtain ⟨huse, hwalls, hbelow⟩ := h
  obtain ⟨g, origin, hpath, hheld, hends⟩ := exists_ends (mem_settled_of_call hname huse)
  obtain ⟨hseed, hlabel⟩ := hbelow g hpath
  cases hends with
  | seed hs => exact absurd (mem_effectsOf_held.mpr ⟨_, hs⟩) hseed
  | @bodyless call hbody hfirst he =>
    obtain ⟨label, hl⟩ := Option.isSome_iff_exists.mp (hlabel call hfirst hbody he)
    refine ⟨g, _, label, call.2, hpath, hheld, ?_⟩
    unfold directGpuUse
    rw [if_pos hverb]
    exact congrArg (Option.map _) hl
  | @firewall call hpass hwall => exact absurd hwall (hwalls call.1 (TransGen.tail' hpath hpass))

theorem Unbound.passes {resource : String} {e : Effect} {name g : Symbol} (h : Unbound prog resource name)
    (hpath : ReflTransGen (Passes prog e) name g)
    (hfine : ∀ g, TransGen (Passes prog e) name g → resource ∉ boundIn prog g) : Unbound prog resource g := by
  induction hpath with
  | refl => exact h
  | tail hpath hpass ih => exact ih.call (passes_calls hpass) (hfine _ (TransGen.tail' hpath hpass))

theorem FromGpuRoot.passes {e : Effect} {name g : Symbol} (h : FromGpuRoot prog name)
    (hpath : ReflTransGen (Passes prog e) name g) : FromGpuRoot prog g := by
  induction hpath with
  | refl => exact h
  | tail _ hpass ih => exact ih.call (passes_calls hpass)

theorem Unbound.body {resource : String} {name : Symbol} (h : Unbound prog resource name) :
    name ∈ allFnNames prog.toEffectChecker := by
  induction h with
  | main h _ => exact main_body h
  | call _ hcall _ => exact calls_body hcall

theorem FromGpuRoot.body {name : Symbol} (h : FromGpuRoot prog name) : name ∈ allFnNames prog.toEffectChecker := by
  induction h with
  | root h _ => exact h
  | call _ hcall => exact calls_body hcall

theorem directGpuUse_of_reason {te : TracedEffect} {reason : String} {span : Span}
    (hreason : gpuForbiddenReason te.effect = some reason) (hhere : directHere prog te = some span) :
    directGpuUse prog te = some (reason, span) := by
  have hverb : te.effect.verb ≠ .panics := fun heq => by simp [gpuForbiddenReason, heq] at hreason
  unfold directGpuUse
  rw [if_neg hverb, hreason, hhere]
  rfl

end

/-- Both walks end on every program, and each gate is complete where the uses are shown. -/
theorem gates_report_shown_uses (prog : GateProgram) (target : String) :
    ((checkTargetGate prog target).isSome = true ∧ (checkGpuEffectGate prog).isSome = true) ∧
      (TargetUsesShown prog target → TargetGateComplete prog target) ∧
      (GpuUsesShown prog → GpuGateComplete prog) := by
  obtain ⟨errors, hrun, hall⟩ := @checkTargetGateOn_spec prog (settled prog) target
  obtain ⟨gpuErrors, hgpu, hgpuAll⟩ := @checkGpuEffectGateOn_spec prog (settled prog)
  refine ⟨⟨Option.isSome_iff_exists.mpr ⟨errors, hrun⟩, Option.isSome_iff_exists.mpr ⟨gpuErrors, hgpu⟩⟩, ?_, ?_⟩
  · refine fun hshown => ⟨errors, hrun, fun name e resource hchain huse hmissing => ?_⟩
    obtain ⟨name', e', hchain', hmissing', hshown'⟩ := hshown name e resource hchain huse hmissing
    obtain ⟨g, te, span, hpath, hheld, rfl, hhere⟩ := hshown'.charged hchain'.body
    have hg := hchain'.passes hpath fun g hg => (hshown'.2 g hg).1
    obtain ⟨path, herror⟩ := hall g te resource span hg hheld hmissing' hhere
    exact ⟨path, span, herror⟩
  · refine fun hshown => ⟨gpuErrors, hgpu, fun name e reason hreach huse hbad => ?_, fun name hreach hcall => ?_⟩
    · obtain ⟨name', e', hreach', hreason, hshown'⟩ := hshown.effects name e reason hreach huse hbad
      obtain ⟨g, te, span, hpath, hheld, rfl, hhere⟩ := hshown'.charged hreach'.body
      obtain ⟨path, herror⟩ :=
        hgpuAll g te reason span (hreach'.passes hpath) hheld (directGpuUse_of_reason hreason hhere)
      exact ⟨path, span, herror⟩
    · obtain ⟨name', e', hreach', hverb, hshown'⟩ := hshown.panics name hreach hcall
      obtain ⟨g, te, label, span, hpath, hheld, huse⟩ := hshown'.charged hverb hreach'.body
      obtain ⟨path, herror⟩ := hgpuAll g te _ span (hreach'.passes hpath) hheld huse
      exact ⟨label, path, span, herror⟩

/-! A program on which both gates are silent: `main` calls `show`, which binds a provider, before it draws itself,
and the kernel indexes before it panics. -/

def writesDisplay : Effect := ⟨.writes, "Display"⟩

def panicsEffect : Effect := ⟨.panics, ""⟩

def lineSpan (line : ℕ) : Span := ⟨line, 1, 0, 1⟩

def oneEffect (e : Effect) (line : ℕ) : EffectSet := ⟨[⟨e, .direct (lineSpan line)⟩]⟩

def silentChecker : EffectChecker where
  functionBodies := ["main", "show", "kernel"]
  methodBodies := []
  bodyCalls
    | "main" => [("show", lineSpan 1), ("draw", lineSpan 2)]
    | "show" => [("__providers_bind::Display", lineSpan 3), ("draw", lineSpan 4)]
    | "kernel" => [("__builtin_index", lineSpan 5), ("panic", lineSpan 6)]
    | _ => []
  modbindCalls _ := []
  fnValueRefCalls _ := []
  functionVisibility
    | "main" => some false
    | "kernel" => some false
    | "show" => some true
    | "draw" => some true
    | _ => none
  declaredEffects
    | "show" => some (.explicit (oneEffect writesDisplay 7))
    | "draw" => some (.explicit (oneEffect writesDisplay 8))
    | _ => none
  modbind_bodyless := by simp

def silentSeeds : EffectMap
  | "show" => some (oneEffect writesDisplay 7)
  | "draw" => some (oneEffect writesDisplay 8)
  | "__builtin_index" => some (oneEffect panicsEffect 0)
  | "panic" => some (oneEffect panicsEffect 0)
  | _ => none

theorem silentSeeds_direct : ∀ name, ∀ te ∈ ((silentSeeds name).getD {}).effects, ∃ span, te.origin = .direct span := by
  intro name te hte
  unfold silentSeeds at hte
  split at hte
  all_goals
    first
    | exact absurd hte List.not_mem_nil
    | exact ⟨_, congrArg TracedEffect.origin (List.mem_singleton.mp hte)⟩

def silentProgram : GateProgram where
  toEffectChecker := silentChecker
  seeds := silentSeeds
  seeds_direct := silentSeeds_direct
  isGpu name := name = "kernel"
  canonicalHostNames := []

theorem mem_oneEffect {e e' : Effect} {line : ℕ} : (oneEffect e' line).contains e = true ↔ e = e' := by
  rw [contains_iff]
  exact List.mem_singleton

/-- Where an effect of a function with two calls comes from. -/
theorem Traced.of_two_calls {ck : EffectChecker} {seeds T : EffectMap} {name : Symbol} {first second : Symbol × Span}
    (hcalls : callsOf ck name = [first, second]) {e : Effect} {origin : EffectOrigin}
    (h : Traced ck seeds T name e origin) : ⟨e, origin⟩ ∈ held seeds name ∨ e ∉ effectsOf seeds name ∧
      (origin = .callee first.1 first.2 ∧ e ∈ contribution ck (effectsOf T) first.1 ∨
        origin = .callee second.1 second.2 ∧ e ∈ contribution ck (effectsOf T) second.1 ∧
          e ∉ contribution ck (effectsOf seeds) first.1) := by
  have hsplit : ∀ call, Foremost ck seeds name e call →
      call = first ∨ call = second ∧ e ∉ contribution ck (effectsOf seeds) first.1 := by
    rintro call ⟨pre, post, heq, hpre⟩
    rw [hcalls] at heq
    rcases pre with _ | ⟨x, _ | ⟨y, pre⟩⟩
    · exact Or.inl (List.cons.inj heq).1.symm
    · obtain ⟨rfl, hrest⟩ := List.cons.inj heq
      exact Or.inr ⟨(List.cons.inj hrest).1.symm, hpre first List.mem_cons_self⟩
    · exact absurd (congrArg List.length heq) (by simp)
  have hcall : ∀ call, e ∉ effectsOf seeds name → Foremost ck seeds name e call →
      e ∈ contribution ck (effectsOf T) call.1 → e ∉ effectsOf seeds name ∧
        (EffectOrigin.callee call.1 call.2 = .callee first.1 first.2 ∧ e ∈ contribution ck (effectsOf T) first.1 ∨
          EffectOrigin.callee call.1 call.2 = .callee second.1 second.2 ∧
            e ∈ contribution ck (effectsOf T) second.1 ∧ e ∉ contribution ck (effectsOf seeds) first.1) := by
    intro call hseed hfirst he
    rcases hsplit call hfirst with rfl | ⟨rfl, hnot⟩
    · exact ⟨hseed, Or.inl ⟨rfl, he⟩⟩
    · exact ⟨hseed, Or.inr ⟨rfl, he, hnot⟩⟩
  cases h with
  | seed hs => exact Or.inl hs
  | firewall hseed hfirst hwall => exact Or.inr (hcall _ hseed hfirst (hwall.contribution _))
  | call hseed hfirst he _ _ => exact Or.inr (hcall _ hseed hfirst he)

section

variable {e : Effect} {origin : EffectOrigin}

theorem silent_main (h : ⟨e, origin⟩ ∈ held (settled silentProgram) "main") :
    origin = .callee "show" (lineSpan 1) := by
  rcases ((settled_origins silentProgram).traced "main" _ h).of_two_calls rfl with hs | ⟨-, ⟨horigin, -⟩ | ⟨-, he, hnot⟩⟩
  · exact absurd hs List.not_mem_nil
  · exact horigin
  · exact absurd he hnot

theorem silent_show (h : ⟨e, origin⟩ ∈ held (settled silentProgram) "show") : e = writesDisplay := by
  rcases ((settled_origins silentProgram).traced "show" _ h).of_two_calls rfl with hs | ⟨-, ⟨-, he⟩ | ⟨-, he, -⟩⟩
  · exact congrArg TracedEffect.effect (List.mem_singleton.mp hs)
  · have hnone := mem_effectsOf_held.mp (@contribution_bodyless silentProgram _ (by decide) e he)
    exact absurd hnone.choose_spec List.not_mem_nil
  · exact mem_oneEffect.mp he

theorem silent_kernel (h : ⟨e, origin⟩ ∈ held (settled silentProgram) "kernel") :
    e = panicsEffect ∧ origin = .callee "__builtin_index" (lineSpan 5) := by
  rcases ((settled_origins silentProgram).traced "kernel" _ h).of_two_calls rfl with
    hs | ⟨-, ⟨horigin, he⟩ | ⟨-, he, hnot⟩⟩
  · exact absurd hs List.not_mem_nil
  · exact ⟨mem_oneEffect.mp (@contribution_bodyless silentProgram _ (by decide) e he), horigin⟩
  · exact absurd (@contribution_bodyless silentProgram _ (by decide) e he) hnot

end

theorem silent_target : checkTargetGate silentProgram "native" = some [] := by
  obtain ⟨errors, hrun, -⟩ := @checkTargetGateOn_spec silentProgram (settled silentProgram) "native"
  have hnone : ∀ error ∈ errors, False := by
    unfold checkTargetGateOn at hrun
    rw [if_pos (by decide)] at hrun
    obtain ⟨st, hwalk, rfl⟩ := Option.map_eq_some_iff.mp hrun
    have hclosed : ∀ key : GateKey, key = ("main", ∅) ∨ key = ("show", {"Display"}) →
        ∀ child ∈ gateChildren silentProgram key, child = ("main", ∅) ∨ child = ("show", {"Display"}) := by
      rintro key (rfl | rfl) <;> decide
    refine Lib.MemoDfs.dfs_keeps hclosed ?_ _ _ _ _ _ (by decide) hwalk fun error h => absurd h List.not_mem_nil
    rintro path key (rfl | rfl) error herror
    · obtain ⟨te, hte, -, -, hhere, -⟩ := of_mem_targetViolations herror
      have horigin : te.origin = .callee "show" (lineSpan 1) := silent_main hte
      unfold directHere at hhere
      rw [horigin] at hhere
      exact absurd hhere (by decide)
    · obtain ⟨te, hte, resource, hmissing, -, hnot⟩ := of_mem_targetViolations herror
      have heffect : te.effect = writesDisplay := silent_show hte
      rw [heffect] at hmissing
      obtain rfl := Option.some.inj ((by decide : missingResource silentProgram "native" writesDisplay =
        some "Display").symm.trans hmissing)
      exact hnot (Finset.mem_singleton_self _)
  exact hrun.trans (congrArg some (List.eq_nil_iff_forall_not_mem.mpr hnone))

theorem silent_gpu : checkGpuEffectGate silentProgram = some [] := by
  obtain ⟨errors, hrun, -⟩ := @checkGpuEffectGateOn_spec silentProgram (settled silentProgram)
  have hnone : ∀ error ∈ errors, False := by
    unfold checkGpuEffectGateOn at hrun
    obtain ⟨st, hwalk, rfl⟩ := Option.map_eq_some_iff.mp hrun
    have hclosed : ∀ name, name = "kernel" → ∀ callee ∈ callees silentProgram name, callee = "kernel" := by
      rintro name rfl
      decide
    have hemit : ∀ path name, name = "kernel" → ∀ error ∈ gpuViolations silentProgram (settled silentProgram) path name,
        False := by
      rintro path name rfl error herror
      obtain ⟨use, huse, -⟩ := List.mem_map.mp herror
      obtain ⟨te, hte, hdirect⟩ := List.mem_filterMap.mp huse
      have hte' : te = ⟨panicsEffect, .callee "__builtin_index" (lineSpan 5)⟩ := by
        obtain ⟨heffect, horigin⟩ := @silent_kernel te.effect te.origin hte
        rw [← heffect, ← horigin]
      have hallowed : directGpuUse silentProgram ⟨panicsEffect, .callee "__builtin_index" (lineSpan 5)⟩ = none := by
        decide
      rw [hte', hallowed] at hdirect
      exact absurd hdirect (by simp)
    have hroots : ∀ root ∈ gpuRoots silentProgram, root = "kernel" := by
      intro root hroot
      have hmem := (Finset.mem_filter.mp (Concurrency.mem_sortedNames.mp hroot)).2
      exact of_decide_eq_true hmem
    refine Lib.MemoDfs.visitAll_keeps (fun name st st' hname => ?_) hroots hwalk fun error h => absurd h List.not_mem_nil
    exact Lib.MemoDfs.dfs_keeps hclosed hemit _ _ name st st' hname
  exact hrun.trans (congrArg some (List.eq_nil_iff_forall_not_mem.mpr hnone))

/-- Neither gate is complete on every program. -/
theorem gates_miss_uses : ¬ TargetGateComplete silentProgram "native" ∧ ¬ GpuGateComplete silentProgram := by
  constructor
  · rintro ⟨errors, hrun, hall⟩
    obtain rfl := Option.some.inj (silent_target.symm.trans hrun)
    have hchain : Unbound silentProgram "Display" "main" := .main (by decide) (by decide)
    have huse : BodyUses silentProgram "main" writesDisplay :=
      Or.inl ⟨("draw", lineSpan 2), by decide, by decide, mem_oneEffect.mpr rfl⟩
    obtain ⟨path, span, herror⟩ := hall "main" writesDisplay "Display" hchain huse (by decide)
    exact absurd herror List.not_mem_nil
  · rintro ⟨errors, hrun, -, hall⟩
    obtain rfl := Option.some.inj (silent_gpu.symm.trans hrun)
    have hroot : FromGpuRoot silentProgram "kernel" := .root (by decide) (by decide)
    have hcall : CallsPanicEmitter silentProgram "kernel" := ⟨("panic", lineSpan 6), by decide, by decide, by decide⟩
    obtain ⟨label, path, span, herror⟩ := hall "kernel" hroot hcall
    exact absurd herror List.not_mem_nil

end Karac.Effects
