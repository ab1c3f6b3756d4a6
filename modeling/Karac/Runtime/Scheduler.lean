import Karac.Lib.Interleaving

/-! The native task scheduler: handles of spawned tasks, and the task group that joins them. -/

namespace Karac.Runtime

/-- A thread: `none` is the one that owns the task group, `some t` the body of the task `t`. -/
abbrev Tid := Option ℕ

/-- What the thread that spawned a task is doing with its handle. -/
inductive OwnerPc
  | spawned
  /-- In `taskgroup_register`, with the flag set and the group's list not yet locked. -/
  | marked
  | kept
  | joining (doFree : Bool)
  /-- The slot of a coroutine has been signalled; the state is to be read. -/
  | waited (doFree : Bool)
  | joined
  | detaching
  /-- In `detach` of a coroutine, with `detached` stored and `registered` to be read. -/
  | flagged
  | arming
  | freeing
  | done
  deriving DecidableEq

/-- The pool worker of a task, or for a coroutine the dispatcher. -/
inductive WorkerPc
  | queued | running | freeing | finished
  deriving DecidableEq

structure Handle where
  /-- The slot is not null. -/
  coro : Bool
  /-- Spawned by `tg.spawn`. -/
  grouped : Bool
  owner : Tid
  /-- The state is not `PENDING`; for a coroutine, the slot is signalled. -/
  terminal : Bool
  registered : Bool
  detached : Bool
  reaped : Bool
  /-- The slot frees the handle when it is signalled. -/
  armed : Bool
  pc : OwnerPc
  worker : WorkerPc
  freed : ℕ
  deriving DecidableEq

namespace Handle

def spawn (coro grouped : Bool) (owner : Tid) : Handle :=
  ⟨coro, grouped, owner, false, false, false, false, false, .spawned, .queued, 0⟩

def free (x : Handle) : Handle := { x with freed := x.freed + 1 }

/-- The owner may join or detach. -/
def usable (x : Handle) : Bool := x.pc = .kept || (x.pc = .spawned && !x.grouped)

/-- The thread `u` is in no call on the handle, and owes it none. -/
def released (u : Tid) (x : Handle) : Bool := x.owner ≠ u || x.pc = .done || x.pc = .kept

/-- Registered with the group, and in its list at first. -/
def pushed (x : Handle) : Bool := x.grouped && x.pc ≠ .spawned && x.pc ≠ .marked

/-- The end of a task: under `notify_mutex`, or for a coroutine under the lock of its slot. -/
def complete (x : Handle) : Handle :=
  if x.coro then { x with terminal := true, worker := if x.armed then .freeing else .finished }
  else
    let claims := !x.registered && x.detached
    { x with
      terminal := true
      reaped := x.reaped || claims
      worker := if claims && !x.reaped then .freeing else .finished }

/-- `detach` of a task that is not a coroutine, under `notify_mutex`. -/
def detach (x : Handle) : Handle :=
  let claims := !x.registered && x.terminal
  { x with
    detached := true
    reaped := x.reaped || claims
    pc := if claims && !x.reaped then .freeing else .done }

end Handle

/-- The atomic steps on one handle. -/
inductive Act
  | mark
  | joinCall | joinWait | joinLoad | joinFree
  | detachCall | detachLock | detachStore | detachLoad | detachArm | detachFree
  | start | work | complete | reap
  deriving DecidableEq

/-- A step of the thread that spawned the task. -/
def Act.byOwner : Act → Bool
  | .start => false
  | .work => false
  | .complete => false
  | .reap => false
  | _ => true

def Handle.act (x : Handle) : Act → Option Handle
  | .mark => if x.grouped && x.pc = .spawned then some { x with registered := true, pc := .marked } else none
  | .joinCall => if x.usable then some { x with pc := .joining !x.registered } else none
  | .joinWait =>
    match x.pc with
    | .joining doFree =>
      if x.terminal then some { x with pc := if x.coro then .waited doFree else if doFree then .joined else .done }
      else none
    | _ => none
  | .joinLoad =>
    match x.pc with
    | .waited doFree => some { x with pc := if doFree then .joined else .done }
    | _ => none
  | .joinFree => if x.pc = .joined then some { x.free with pc := .done } else none
  | .detachCall => if x.usable then some { x with pc := .detaching } else none
  | .detachLock => if x.pc = .detaching && !x.coro then some x.detach else none
  | .detachStore => if x.pc = .detaching && x.coro then some { x with detached := true, pc := .flagged } else none
  | .detachLoad => if x.pc = .flagged then some { x with pc := if x.registered then .done else .arming } else none
  | .detachArm =>
    if x.pc = .arming then some (if x.terminal then { x with pc := .freeing } else { x with armed := true, pc := .done })
    else none
  | .detachFree => if x.pc = .freeing then some { x.free with pc := .done } else none
  | .start => if x.worker = .queued then some { x with worker := .running } else none
  | .work => if x.worker = .running then some x else none
  | .complete => if x.worker = .running then some x.complete else none
  | .reap => if x.worker = .freeing then some { x.free with worker := .finished } else none

/-- How far `taskgroup_join_and_free` has come. -/
inductive GroupPhase
  | opened
  | draining (rest : List ℕ)
  /-- The slot of the coroutine `c` has been signalled; its state is to be read. -/
  | loading (c : ℕ) (rest : List ℕ)
  | freeing (c : ℕ) (rest : List ℕ)
  | freed
  deriving DecidableEq

def GroupPhase.pending : GroupPhase → List ℕ
  | .draining rest => rest
  | .loading c rest => c :: rest
  | .freeing c rest => c :: rest
  | _ => []

/-- The handles by number, and one group. A fault is a step on what has been freed. -/
structure Sched where
  handles : List Handle
  children : List ℕ
  phase : GroupPhase
  handleFault : Bool
  groupFault : Bool
  deriving DecidableEq

namespace Sched

def init : Sched := ⟨[], [], .opened, false, false⟩

def running (s : Sched) (t : ℕ) : Bool := (s.handles[t]?).any fun y => y.worker = .running

/-- The body of a registered task runs on its own thread; the group's owner uses no registered handle once it joins. -/
def canAct (s : Sched) (x : Handle) : Bool :=
  match x.owner with
  | none => !x.grouped || s.phase = .opened
  | some t => s.running t

/-- A body ends once it is through with every handle it has spawned. -/
def mayAct (s : Sched) (h : ℕ) (x : Handle) (a : Act) : Bool :=
  if a.byOwner then s.canAct x
  else if a = .complete then s.handles.all (Handle.released (some h))
  else true

/-- A thread that may spawn into the group: its owner, or the body of a task spawned into it. -/
def mayRegister (s : Sched) : Tid → Bool
  | none => s.phase = .opened
  | some t => s.running t && (s.handles[t]?).any Handle.grouped

def maySpawn (s : Sched) : Tid → Bool
  | none => true
  | some t => s.running t

inductive Action
  | spawn (u : Tid) (coro grouped : Bool)
  | act (h : ℕ) (a : Act)
  | push (h : ℕ)
  | take
  | drainWait
  | drainLoad
  | drainFree
  | freeGroup
  deriving DecidableEq

/-- The sweep of `taskgroup_register` frees it. -/
def swept (handles : List Handle) (c : ℕ) : Bool := (handles[c]?).any fun x => x.detached && x.terminal

def wasFreed (handles : List Handle) (c : ℕ) : Bool := (handles[c]?).any fun x => 0 < x.freed

def freeAll (handles : List Handle) (dead : List ℕ) : List Handle :=
  handles.mapIdx fun i x => { x with freed := x.freed + dead.count i }

def step (s : Sched) : Action → Option Sched
  | .spawn u coro grouped =>
    if s.maySpawn u && (!grouped || s.mayRegister u) then
      some { s with handles := s.handles ++ [.spawn coro grouped u] }
    else none
  | .act h a => do
    let x ← s.handles[h]?
    let x' ← x.act a
    if s.mayAct h x a then
      some { s with handles := s.handles.set h x', handleFault := s.handleFault || 0 < x.freed }
    else none
  | .push h => do
    let x ← s.handles[h]?
    if x.pc = .marked && s.canAct x then
      let handles := s.handles.set h { x with pc := .kept }
      let children := s.children ++ [h]
      let dead := children.filter (swept handles)
      some { s with
        handles := freeAll handles dead
        children := children.filter fun c => !swept handles c
        handleFault := s.handleFault || children.any (wasFreed handles)
        groupFault := s.groupFault || s.phase = .freed }
    else none
  | .take =>
    if s.phase = .opened && s.handles.all fun x => !x.grouped || x.released none then
      some { s with phase := .draining s.children, children := [] }
    else none
  | .drainWait =>
    match s.phase with
    | .draining (c :: rest) => do
      let x ← s.handles[c]?
      if x.terminal then
        some { s with
          phase := if x.coro then .loading c rest else .freeing c rest
          handleFault := s.handleFault || 0 < x.freed }
      else none
    | _ => none
  | .drainLoad =>
    match s.phase with
    | .loading c rest => some { s with phase := .freeing c rest, handleFault := s.handleFault || wasFreed s.handles c }
    | _ => none
  | .drainFree =>
    match s.phase with
    | .freeing c rest =>
      some { s with
        handles := freeAll s.handles [c]
        phase := .draining rest
        handleFault := s.handleFault || wasFreed s.handles c }
    | _ => none
  | .freeGroup => if s.phase = .draining [] then some { s with phase := .freed } else none

def run (s : Sched) (as : List Action) : Option Sched := Lib.runSteps step s as

end Sched

end Karac.Runtime
