import Karac.Lib.Chunks
import Karac.Lib.Interleaving

/-! Parallel reductions: the shapes in which a loop's range is handed to the workers, and the workers' steps up to the
join. Arithmetic on the range is checked, so that an overflow shows. -/

namespace Karac.Runtime

def u64Max : ℕ := 2 ^ 64 - 1

def saturatingMul (a b : ℕ) : ℕ := min (a * b) u64Max

def checkedMul (a b : ℕ) : Option ℕ := if a * b ≤ u64Max then some (a * b) else none

def checkedAdd (a b : ℕ) : Option ℕ := if a + b ≤ u64Max then some (a + b) else none

def divCeil (a b : ℕ) : ℕ := if 0 < a % b then a / b + 1 else a / b

def dispatchOverheadPerCallUnitsRt : ℕ := 10000

def karacParOrderFreeFlag : BitVec 64 := 1 <<< 63

/-- The pool. A worker is a thread, which has an id of 32 bits. -/
structure Pool where
  workers : ℕ
  pos : 1 ≤ workers
  threads : workers < 2 ^ 32

/-- What the target, the environment variables and the calling thread set. -/
structure ReduceEnv where
  /-- The target has threads. -/
  pooled : Bool
  pool : Pool
  /-- `KARAC_PAR_MAX_FORK_DEPTH` and `KARAC_PAR_CHUNK_FACTOR`, where they are set to numbers. -/
  maxForkDepth : Option ℕ
  chunkFactor : Option ℕ
  /-- `PAR_REDUCE_DEPTH` of the thread. -/
  depth : ℕ

namespace ReduceEnv

variable (env : ReduceEnv)

def resolveMaxForkDepth : ℕ := (env.maxForkDepth.map (max · 1)).getD 1

def factor : ℕ := (env.chunkFactor.filter (1 ≤ ·)).getD 8

end ReduceEnv

structure KaracReduceDescriptor (α : Type*) where
  iterTotal : ℕ
  initSlot : α
  workerFn : α → ℕ → ℕ → α
  combineFn : α → α → α
  perIterCostUnits : BitVec 64

def KaracReduceDescriptor.orderFree {α : Type*} (desc : KaracReduceDescriptor α) : Bool :=
  decide (desc.perIterCostUnits &&& karacParOrderFreeFlag ≠ 0)

def minDynamicChunk : ℕ := 1024

def orderFreeChunk (iterTotal nWorkers factor : ℕ) : ℕ :=
  let nWorkers := max nWorkers 1
  let targetChunks := saturatingMul nWorkers (max factor 1)
  let staticChunk := divCeil iterTotal nWorkers
  max (max (divCeil iterTotal targetChunks) (min minDynamicChunk staticChunk)) 1

/-- What the tasks of the pooled shapes do: each has a range of its own, or they draw chunks from a counter. -/
inductive Mode
  | ranges (ranges : List (ℕ × ℕ))
  | chunks (chunk nChunks : ℕ)

inductive Dispatch
  | empty
  | inline
  | pooled (nWorkers : ℕ) (mode : Mode)

section

variable {α : Type*} (env : ReduceEnv) (desc : KaracReduceDescriptor α)

/-- The range of worker `w` in the static split. -/
def staticRange (iterTotal chunk w : ℕ) : Option (ℕ × ℕ) := do
  let start ← checkedMul w chunk
  let next ← checkedAdd w 1
  some (start, min (saturatingMul next chunk) iterTotal)

/-- `karac_par_reduce_pooled` up to the tasks. -/
def dispatchPooled : Option Dispatch :=
  let poolWorkers := env.pool.workers
  let nWorkers := max (min poolWorkers desc.iterTotal) 1
  let perIterCost := (desc.perIterCostUnits &&& ~~~karacParOrderFreeFlag).toNat
  let totalCost := saturatingMul desc.iterTotal perIterCost
  let costThreshold := saturatingMul poolWorkers dispatchOverheadPerCallUnitsRt
  if nWorkers = 1 ∨ perIterCost ≠ 0 ∧ totalCost < costThreshold then some .inline
  else if desc.orderFree = true then
    let chunk := orderFreeChunk desc.iterTotal nWorkers env.factor
    some (.pooled nWorkers (.chunks chunk (divCeil desc.iterTotal chunk)))
  else
    let chunk := divCeil desc.iterTotal nWorkers
    ((List.range nWorkers).mapM (staticRange desc.iterTotal chunk)).map fun ranges => .pooled nWorkers (.ranges ranges)

def dispatch : Option Dispatch :=
  if desc.iterTotal = 0 then some .empty
  else if env.pooled = false then some .inline
  else if env.resolveMaxForkDepth ≤ env.depth then some .inline
  else dispatchPooled env desc

end

/-! The tasks' steps. -/

/-- How far a worker's task is. -/
inductive TaskPc
  | queued
  /-- Before the next draw from the counter. -/
  | pulling
  /-- In the worker function. -/
  | calling (start stop : ℕ)
  /-- The task has run, its call does not know yet. -/
  | returned
  | finished
  | overflowed
deriving DecidableEq

/-- A dispatched reduction. The calls are all calls of the worker function so far. -/
structure ReduceState (α : Type*) where
  tasks : List TaskPc
  slots : List α
  nextChunk : ℕ
  remaining : ℕ
  calls : List (ℕ × ℕ)

variable {α : Type*} (desc : KaracReduceDescriptor α)

/-- The tasks in the queue, each with a slot at the identity. The count of the call has 32 bits. -/
def launch (nWorkers : ℕ) : ReduceState α :=
  ⟨List.replicate nWorkers .queued, List.replicate nWorkers desc.initSlot, 0, nWorkers % 2 ^ 32, []⟩

def ReduceState.setPc (s : ReduceState α) (w : ℕ) (pc : TaskPc) : ReduceState α := { s with tasks := s.tasks.set w pc }

/-- The worker function is entered. -/
def ReduceState.call (s : ReduceState α) (w : ℕ) (range : ℕ × ℕ) : ReduceState α :=
  { s.setPc w (.calling range.1 range.2) with calls := s.calls ++ [range] }

/-- The chunk of an index drawn from the counter. -/
def chunkRange (iterTotal chunk idx : ℕ) : Option (ℕ × ℕ) := do
  let start ← checkedMul idx chunk
  let stop ← checkedAdd start chunk
  some (start, min stop iterTotal)

/-- What a task does once the worker function is back. -/
def Mode.afterCall : Mode → TaskPc
  | .ranges _ => .returned
  | .chunks _ _ => .pulling

/-- One step of the task of worker `w`, on whichever thread it runs. -/
def reduceStep (mode : Mode) (s : ReduceState α) (w : ℕ) : Option (ReduceState α) :=
  match s.tasks[w]?, mode with
  | some .queued, .ranges ranges => ranges[w]?.map (s.call w)
  | some .queued, .chunks _ _ => some (s.setPc w .pulling)
  | some .pulling, .chunks chunk nChunks =>
    let idx := s.nextChunk
    let s := { s with nextChunk := (idx + 1) % 2 ^ 64 }
    if nChunks ≤ idx then some (s.setPc w .returned)
    else
      match chunkRange desc.iterTotal chunk idx with
      | some range => some (s.call w range)
      | none => some (s.setPc w .overflowed)
  | some (.calling start stop), mode =>
    some { s.setPc w mode.afterCall with slots := s.slots.modify w fun slot => desc.workerFn slot start stop }
  | some .returned, _ => some { s.setPc w .finished with remaining := s.remaining - 1 }
  | _, _ => none

structure ReduceOutcome (α : Type*) where
  out : α
  calls : List (ℕ × ℕ)

/-- The end of the call, once no task remains: the slots are combined in the workers' order. -/
def join (s : ReduceState α) : Option (ReduceOutcome α) :=
  if s.remaining = 0 then some ⟨s.slots.foldl desc.combineFn desc.initSlot, s.calls⟩ else none

/-- The whole call, when the tasks take their steps in this order. -/
def karacParReduce (env : ReduceEnv) (schedule : List ℕ) : Option (ReduceOutcome α) :=
  (dispatch env desc).bind fun
    | .empty => some ⟨desc.initSlot, []⟩
    | .inline => some ⟨desc.workerFn desc.initSlot 0 desc.iterTotal, [(0, desc.iterTotal)]⟩
    | .pooled nWorkers mode => (Lib.runSteps (reduceStep desc mode) (launch desc nWorkers) schedule).bind (join desc)

end Karac.Runtime
