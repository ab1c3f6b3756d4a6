import Karac.Effects.Inference
import Karac.Lib.MemoDfs

/-! The reachability gates that run on the inferred effects: host resources that the target does not provide,
from `main`, and effects that the GPU subset forbids, from the `#[gpu]` functions. -/

namespace Karac.Effects

open Concurrency (EffectVerbKind sortedNames)

/-- What the gates read besides the input of inference. -/
structure GateProgram extends EffectChecker where
  /-- `inferred_effects` before inference: builtins, externs, and functions that declare their effects. -/
  seeds : EffectMap
  seeds_direct : ∀ name, ∀ te ∈ ((seeds name).getD {}).effects, ∃ span, te.origin = .direct span
  isGpu : Symbol → Bool
  /-- Renamed effect resources with their canonical host names. -/
  canonicalHostNames : List (String × String)

inductive EffectErrorKind
  | targetGateViolation
  | gpuEffectViolation
  deriving DecidableEq, Repr

structure EffectError where
  message : String
  span : Span
  kind : EffectErrorKind
  deriving DecidableEq, Repr

def providersBindPrefix : String := "__providers_bind::"

def stripPrefix (pre text : String) : Option String :=
  (text.toList.dropPrefix? pre.toList).map String.ofList

def isHostResource (resource : String) : Bool :=
  resource ∈ ["FileSystem", "Stdin", "Stdout", "Stderr", "Env", "Network", "Clock", "RandomSource", "Heap",
    "Hardware", "GpuBuffer", "ProcessTable", "Display", "Storage", "Console", "Timer", "Input"]

def providedResources (target : String) : List String :=
  if target = "native" then ["FileSystem", "Stdin", "Stdout", "Stderr", "Env", "Network", "Clock", "RandomSource",
    "Heap", "Hardware", "GpuBuffer", "ProcessTable"]
  else if target = "wasm_browser" then ["Network", "Clock", "RandomSource", "Heap", "Display", "Storage", "Console",
    "Timer", "Input"]
  else if target = "wasm_wasi" then ["FileSystem", "Stdin", "Stdout", "Stderr", "Env", "Network", "Clock",
    "RandomSource", "Heap"]
  else if target = "gpu" then ["GpuBuffer"]
  else []

/-- A target with a console prints there. -/
def targetProvides (target resource : String) : Bool :=
  resource ∈ providedResources target ||
    resource ∈ ["Stdout", "Stderr"] && "Console" ∈ providedResources target

def chainText (path : List Symbol) : String := " → ".intercalate path

/-- Panics that a `#[gpu]` function may not have, by the callee they come from. -/
def explicitPanicEmitterLabel (callee : String) : Option String :=
  ([("panic", "panic()"), ("todo", "todo()"), ("unreachable", "unreachable()"), ("abort", "abort()"),
    ("assert", "assert(...)"), ("assert_eq", "assert_eq(...)"), ("assert_ne", "assert_ne(...)"),
    ("__builtin_unwrap", "unwrap()"), ("__builtin_expect", "expect()"), ("process.exit", "process.exit()")] :
    List (String × String)).lookup callee

def gpuForbiddenReason (effect : Effect) : Option String :=
  match effect.verb with
  | .allocates => if effect.resource = "Heap" then some "`allocates(Heap)` (heap allocation)" else none
  | .sends => some ("`sends(" ++ effect.resource ++ ")` (channel/network send)")
  | .receives => some ("`receives(" ++ effect.resource ++ ")` (channel/network receive)")
  | .reads =>
    if isHostResource effect.resource && effect.resource ≠ "GpuBuffer" then
      some ("`reads(" ++ effect.resource ++ ")` (host I/O)") else none
  | .writes =>
    if isHostResource effect.resource && effect.resource ≠ "GpuBuffer" then
      some ("`writes(" ++ effect.resource ++ ")` (host I/O)") else none
  | _ => none

def explicitPanicReason (label : String) : String := "an explicit panic (`" ++ label ++ "`)"

def targetGateError (target resource : String) (path : List Symbol) (span : Span) : EffectError where
  message := "target `" ++ target ++ "` does not provide resource '" ++ resource ++
    "' — required on the call chain " ++ chainText path ++ "; gate it with `#[target(...)]`, bind a provider for '" ++
    resource ++ "', or keep it off this target's entry path (design.md § Cross-target Compilation)"
  span := span
  kind := .targetGateViolation

def gpuGateError (reason : String) (path : List Symbol) (span : Span) : EffectError where
  message := "a `#[gpu]` function must not perform " ++ reason ++ "; it is reached on the call chain " ++
    chainText path ++ ". The GPU subset forbids heap allocation, host I/O, channels, and explicit panics — " ++
    "restructure to keep it off the `#[gpu]` call graph. See design.md § GPU Subset Constraints."
  span := span
  kind := .gpuEffectViolation

section

variable (prog : GateProgram)

/-- The last declaration of a name counts. -/
def canon (name : String) : String := (prog.canonicalHostNames.reverse.lookup name).getD name

/-- The resources that a function binds a provider for. -/
def boundIn (name : Symbol) : Finset String :=
  if name ∈ allFnNames prog.toEffectChecker then
    (((prog.bodyCalls name).filterMap fun call => stripPrefix providersBindPrefix call.1).map (canon prog)).toFinset
  else ∅

/-- The effects of callees with a body are examined there. -/
def directHere (te : TracedEffect) : Option Span :=
  match te.origin with
  | .direct span => some span
  | .callee fnName span => if fnName ∈ allFnNames prog.toEffectChecker then none else some span

/-- The host resource that an effect names and the target does not provide. -/
def missingResource (target : String) (effect : Effect) : Option String :=
  if effect.resource = "" then none
  else
    let resource := canon prog effect.resource
    if isHostResource resource && !targetProvides target resource then some resource else none

def directHostUse (target : String) (te : TracedEffect) : Option (String × Span) :=
  (missingResource prog target te.effect).bind fun resource =>
    (directHere prog te).map fun span => (resource, span)

def directGpuUse (te : TracedEffect) : Option (String × Span) :=
  if te.effect.verb = .panics then
    match te.origin with
    | .callee fnName span => (explicitPanicEmitterLabel fnName).map fun label => (explicitPanicReason label, span)
    | .direct _ => none
  else (gpuForbiddenReason te.effect).bind fun reason => (directHere prog te).map fun span => (reason, span)

variable (inferred : EffectMap)

def directUses (use : TracedEffect → Option (String × Span)) (name : Symbol) : List (String × Span) :=
  ((inferred name).getD {}).effects.filterMap use

/-- A function with the resources discharged on the way to it, its own bindings included. -/
abbrev GateKey := Symbol × Finset String

def targetViolations (target : String) (path : List GateKey) (key : GateKey) : List EffectError :=
  ((directUses inferred (directHostUse prog target) key.1).filter fun use => decide (use.1 ∉ key.2)).map fun use =>
    targetGateError target use.1 (path.map Prod.fst) use.2

def callees (name : Symbol) : List Symbol :=
  (retainFirst (buildCallGraph prog.toEffectChecker name) ∅).map Prod.fst

def gateChildren (key : GateKey) : List GateKey :=
  (callees prog key.1).map fun callee => (callee, key.2 ∪ boundIn prog callee)

def gpuViolations (path : List Symbol) (name : Symbol) : List EffectError :=
  (directUses inferred (directGpuUse prog) name).map fun use => gpuGateError use.1 path use.2

/-- The keys that a walk can meet. -/
def gateKeys : Finset GateKey :=
  allFnNames prog.toEffectChecker ×ˢ ((allFnNames prog.toEffectChecker).biUnion (boundIn prog)).powerset

/-- The fuel covers a walk that meets every key once. -/
def checkTargetGateOn (target : String) : Option (List EffectError) :=
  if "main" ∈ prog.functionBodies then
    (Lib.MemoDfs.dfs (targetViolations prog inferred target) (gateChildren prog) ((gateKeys prog).card + 1) []
      ("main", boundIn prog "main") (∅, [])).map Prod.snd
  else some []

def gpuRoots : List Symbol := sortedNames ((allFnNames prog.toEffectChecker).filter fun name => prog.isGpu name)

def checkGpuEffectGateOn : Option (List EffectError) :=
  (Lib.MemoDfs.visitAll
    (Lib.MemoDfs.dfs (gpuViolations prog inferred) (callees prog) ((allFnNames prog.toEffectChecker).card + 1) [])
    (gpuRoots prog) (∅, [])).map Prod.snd

end

/-- The gates run once inference has settled. -/
def checkTargetGate (prog : GateProgram) (target : String) : Option (List EffectError) :=
  checkTargetGateOn prog (inferEffects prog.toEffectChecker prog.seeds) target

def checkGpuEffectGate (prog : GateProgram) : Option (List EffectError) :=
  checkGpuEffectGateOn prog (inferEffects prog.toEffectChecker prog.seeds)

end Karac.Effects
