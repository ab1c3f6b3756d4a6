import Karac.Lib.Interleaving

/-! Cancellation of parked tasks: the registrations of each reactor shard, the dispatcher of the shard, and the threads
that register, cancel a task group and request sweeps. -/

namespace Karac.Runtime

/-- The flags of the children of task groups, by number; null is `none`. -/
structure FdState where
  token : ℕ
  parked : ℕ
  cancel : Option ℕ
  deriving DecidableEq

inductive DispatcherPc
  /-- In `run_once`, up to the return of the poll. -/
  | polling
  | claiming (todo : List ℕ)
  /-- The request flag has been taken; the snapshot is to be. -/
  | collecting
  | sweeping (todo : List ℕ)
  deriving DecidableEq

structure Shard where
  entries : List FdState
  nextToken : ℕ
  /-- A waker event is pending. -/
  waker : Bool
  sweepRequested : Bool
  pc : DispatcherPc
  deriving DecidableEq

/-- Whose sweep request it is. -/
inductive Cause
  | cancelled (flags : List ℕ)
  | registered (shard token : ℕ)
  deriving DecidableEq

inductive ThreadPc
  /-- In `taskgroup_cancel`, setting the children's flags. -/
  | cancelling (todo done : List ℕ)
  /-- An fd's entry is published; it is to be armed. -/
  | published (shard token : ℕ) (cancel : Option ℕ)
  | armed (shard token : ℕ) (cancel : Option ℕ)
  /-- The shard is woken; the cancel flag is to be read. -/
  | checking (shard token : ℕ) (cancel : Option ℕ)
  /-- A timer's entry is published; the shard is to be woken. -/
  | timed (shard : ℕ)
  /-- In `request_cancel_sweep`, having set the flags of the first `k` shards. -/
  | storing (k : ℕ) (cause : Cause)
  | waking (k : ℕ) (cause : Cause)
  | finished
  deriving DecidableEq

structure Reactors where
  shards : List Shard
  /-- The flags that are set. -/
  cancelled : List ℕ
  threads : List ThreadPc
  /-- The registrations whose `poll_fn` has been invoked. -/
  polled : List (ℕ × ℕ)
  deriving DecidableEq

namespace Shard

def init : Shard := ⟨[], 1, false, false, .polling⟩

def publish (sh : Shard) (parked : ℕ) (cancel : Option ℕ) : Shard :=
  { sh with entries := sh.entries ++ [⟨sh.nextToken, parked, cancel⟩], nextToken := sh.nextToken + 1 }

def remove (sh : Shard) (token : ℕ) : Shard := { sh with entries := sh.entries.filter fun e => e.token ≠ token }

/-- `take_registration` finds the token, and its parked record is not null. -/
def claims (sh : Shard) (token : ℕ) : Bool := sh.entries.any fun e => e.token = token && e.parked ≠ 0

def collectCancelled (sh : Shard) (cancelled : List ℕ) : List ℕ :=
  (sh.entries.filter fun e => e.cancel.any fun c => c ∈ cancelled).map FdState.token

end Shard

namespace Reactors

def init (shards : ℕ) : Reactors := ⟨List.replicate shards .init, [], [], []⟩

inductive Action
  | cancel (flags : List ℕ)
  | registerFd (shard parked : ℕ) (cancel : Option ℕ)
  | registerTimer (shard parked : ℕ) (cancel : Option ℕ)
  /-- `deregister`, or `take_registration` by `cancel_timer`. -/
  | deregister (shard token : ℕ)
  /-- The next step of a thread; `ok` says whether `epoll_ctl` succeeds where it is the step. -/
  | thread (i : ℕ) (ok : Bool)
  /-- The poll returns, and `run_once` with these tokens, which may be stale. -/
  | pollReturns (shard : ℕ) (wakeups : List ℕ) (woken : Bool)
  | dispatch (shard : ℕ)
  deriving DecidableEq

def setThread (s : Reactors) (i : ℕ) (pc : ThreadPc) : Reactors := { s with threads := s.threads.set i pc }

def modifyShard (s : Reactors) (i : ℕ) (f : Shard → Shard) : Reactors := { s with shards := s.shards.modify i f }

def wake (s : Reactors) (i : ℕ) : Reactors := s.modifyShard i fun sh => { sh with waker := true }

def stepThread (s : Reactors) (i : ℕ) (ok : Bool) : ThreadPc → Option Reactors
  | .cancelling (c :: todo) done =>
    some { s.setThread i (.cancelling todo (c :: done)) with cancelled := c :: s.cancelled }
  | .cancelling [] done => some (s.setThread i (.storing 0 (.cancelled done)))
  | .published shard token cancel =>
    if ok then some (s.setThread i (.armed shard token cancel))
    else some ((s.modifyShard shard fun sh => sh.remove token).setThread i .finished)
  | .armed shard token cancel => some ((s.wake shard).setThread i (.checking shard token cancel))
  | .checking shard token cancel =>
    let requests := cancel.any fun c => c ∈ s.cancelled
    some (s.setThread i (if requests then .storing 0 (.registered shard token) else .finished))
  | .timed shard => some ((s.wake shard).setThread i .finished)
  | .storing k cause =>
    if k < s.shards.length then
      some ((s.modifyShard k fun sh => { sh with sweepRequested := true }).setThread i (.storing (k + 1) cause))
    else some (s.setThread i (.waking 0 cause))
  | .waking k cause =>
    if k < s.shards.length then some ((s.wake k).setThread i (.waking (k + 1) cause))
    else some (s.setThread i .finished)
  | .finished => none

/-- The one-shot claim, and `poll_fn` on a win. -/
def claim (s : Reactors) (i : ℕ) (sh : Shard) (token : ℕ) (pc : DispatcherPc) : Reactors :=
  { s.modifyShard i fun sh => { sh.remove token with pc := pc } with
    polled := if sh.claims token then s.polled ++ [(i, token)] else s.polled }

def stepDispatcher (s : Reactors) (i : ℕ) (sh : Shard) : Option Reactors :=
  match sh.pc with
  | .polling => none
  | .claiming (token :: todo) => some (s.claim i sh token (.claiming todo))
  | .claiming [] =>
    some (s.modifyShard i fun sh =>
      { sh with sweepRequested := false, pc := if sh.sweepRequested then .collecting else .polling })
  | .collecting => some (s.modifyShard i fun sh => { sh with pc := .sweeping (sh.collectCancelled s.cancelled) })
  | .sweeping (token :: todo) => some (s.claim i sh token (.sweeping todo))
  | .sweeping [] => some (s.modifyShard i fun sh => { sh with pc := .polling })

def step (s : Reactors) : Action → Option Reactors
  | .cancel flags => some { s with threads := s.threads ++ [.cancelling flags []] }
  | .registerFd i parked cancel =>
    (s.shards[i]?).map fun sh =>
      { s.modifyShard i fun sh => sh.publish parked cancel with
        threads := s.threads ++ [.published i sh.nextToken cancel] }
  | .registerTimer i parked cancel =>
    (s.shards[i]?).map fun _ =>
      { s.modifyShard i fun sh => sh.publish parked cancel with threads := s.threads ++ [.timed i] }
  | .deregister i token => some (s.modifyShard i fun sh => sh.remove token)
  | .thread i ok => (s.threads[i]?).bind fun pc => s.stepThread i ok pc
  | .pollReturns i wakeups woken =>
    (s.shards[i]?).bind fun sh =>
      if sh.pc = .polling && (!woken || sh.waker) then
        some (s.modifyShard i fun sh => { sh with waker := sh.waker && !woken, pc := .claiming wakeups })
      else none
  | .dispatch i => (s.shards[i]?).bind fun sh => s.stepDispatcher i sh

def run (s : Reactors) (as : List Action) : Option Reactors := Lib.runSteps step s as

end Reactors

end Karac.Runtime
