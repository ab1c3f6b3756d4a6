import Karac.Lib.Interleaving

/-! The way of a wakeup from `run_once` to a caller's buffer. Each section under a lock is one step, and between them
the threads of the background poller and the calls of any number of threads are interleaved. -/

namespace Karac.Runtime.EventLoop

inductive IoDirection
  | read
  | write
  | readWrite
  deriving DecidableEq

def IoDirection.code : IoDirection → UInt8
  | .read => 0
  | .write => 1
  | .readWrite => 2

/-- `parked` is an address. -/
structure Wakeup where
  token : UInt64
  parked : UInt64
  direction : IoDirection
  deriving DecidableEq

structure KaracWakeup where
  token : UInt64
  parked : UInt64
  direction : UInt8
  deriving DecidableEq

def packToken (shard : ℕ) (loc : UInt64) : UInt64 := shard.toUInt64 <<< 56 ||| (loc &&& 0x00FFFFFFFFFFFFFF)

def pack (shard : ℕ) (w : Wakeup) : KaracWakeup := ⟨packToken shard w.token, w.parked, w.direction.code⟩

/-! The state. -/

/-- Where a thread is with a call of `run_once`, and what it holds. -/
inductive Hand
  | idle
  | entering
  /-- The stash has been taken, and the poll has not returned. -/
  | polling (stashed : List Wakeup)
  | got (wakeups : List Wakeup)
  | exited
  deriving DecidableEq

/-- One instance of the background poller: thread `i` polls the shard `i`. -/
structure Poller where
  queue : List KaracWakeup
  shutdown : Bool
  workers : List Hand
  deriving DecidableEq

/-- A call that has begun. The buffers of calls that have returned are kept. -/
inductive Call
  /-- `shutdown_background_thread` with the poller that was in the slot, and the shard that it drains. -/
  | shutdown (poller : ℕ) (joined : Bool) (shard : ℕ) (hand : Hand)
  /-- `poll_shards`; `blocking` in the slice that waits on one shard. -/
  | poll (max : ℕ) (out : List KaracWakeup) (shard rotate : ℕ) (blocking : Bool) (hand : Hand)
  /-- `take_wakeups`, with the poller that was in the slot. -/
  | take (poller max : ℕ) (out : List KaracWakeup) (waiting : Bool)
  deriving DecidableEq

structure System where
  /-- The `pending` list of each shard. -/
  pending : List (List Wakeup)
  slot : Option ℕ
  /-- `POLLER_ACTIVE` -/
  active : Bool
  /-- All instances that there have been. -/
  pollers : List Poller
  calls : List Call
  /-- What the calls of `run_once` have returned for the first time. -/
  returned : List KaracWakeup
  /-- What `write_wakeups_out` has left out. -/
  dropped : List KaracWakeup
  deriving DecidableEq

/-- A thread that calls `run_once`. -/
inductive Site
  | worker (poller shard : ℕ)
  | call (i : ℕ)
  deriving DecidableEq

/-! The steps. -/

inductive Action
  | start
  | shutdown
  /-- The shutdown call `i` sets the flag. -/
  | flag (i : ℕ)
  /-- It has joined the threads. -/
  | join (i : ℕ)
  | takeCall (max : ℕ)
  /-- The take call `i` gets the lock of the queue, once it has waited. -/
  | pop (i : ℕ)
  | pollCall (max : ℕ)
  /-- The deadline of the poll call `i` has passed. -/
  | giveUp (i : ℕ)
  /-- A thread that is not in `run_once` decides what to do next. -/
  | turn (site : Site)
  | takePending (site : Site)
  | polled (site : Site) (fresh : List Wakeup)
  | failed (site : Site)
  /-- The thread puts what `run_once` returned where it belongs. -/
  | deliver (site : Site)
  deriving DecidableEq

def Call.hand? : Call → Option (ℕ × Hand)
  | .shutdown _ _ shard hand => some (shard, hand)
  | .poll _ _ shard _ _ hand => some (shard, hand)
  | .take _ _ _ _ => none

def Call.withHand (hand : Hand) : Call → Call
  | .shutdown poller joined shard _ => .shutdown poller joined shard hand
  | .poll max out shard rotate blocking _ => .poll max out shard rotate blocking hand
  | .take poller max out waiting => .take poller max out waiting

def Poller.withWorker (q : Poller) (shard : ℕ) (hand : Hand) : Poller :=
  { q with workers := q.workers.set shard hand }

namespace System

def init (shards : ℕ) : System := ⟨List.replicate shards [], none, false, [], [], [], []⟩

def shards (s : System) : ℕ := s.pending.length

def setPoller (s : System) (p : ℕ) (q : Poller) : System := { s with pollers := s.pollers.set p q }

def setCall (s : System) (i : ℕ) (c : Call) : System := { s with calls := s.calls.set i c }

def addReturned (s : System) (ws : List KaracWakeup) : System := { s with returned := s.returned ++ ws }

def addDropped (s : System) (ws : List KaracWakeup) : System := { s with dropped := s.dropped ++ ws }

def setPending (s : System) (shard : ℕ) (ws : List Wakeup) : System := { s with pending := s.pending.set shard ws }

/-- The shard of a thread's `run_once`, and where it is with it. -/
def hand? (s : System) : Site → Option (ℕ × Hand)
  | .worker p shard => do
    let q ← s.pollers[p]?
    let hand ← q.workers[shard]?
    pure (shard, hand)
  | .call i => s.calls[i]?.bind Call.hand?

def setHand (s : System) (hand : Hand) : Site → System
  | .worker p shard => (s.pollers[p]?).elim s fun q => s.setPoller p (q.withWorker shard hand)
  | .call i => (s.calls[i]?).elim s fun c => s.setCall i (c.withHand hand)

/-! `run_once`. -/

def takePending (s : System) (site : Site) : Option System :=
  match s.hand? site with
  | some (shard, .entering) => do
    let stashed ← s.pending[shard]?
    pure ((s.setPending shard []).setHand (.polling stashed) site)
  | _ => none

def polled (s : System) (site : Site) (fresh : List Wakeup) : Option System :=
  match s.hand? site with
  | some (shard, .polling stashed) =>
    some ((s.addReturned (fresh.map (pack shard))).setHand (.got (stashed ++ fresh)) site)
  | _ => none

/-- The stash is put back. -/
def failed (s : System) (site : Site) : Option System :=
  match s.hand? site with
  | some (shard, .polling stashed) => do
    let pending ← s.pending[shard]?
    pure ((s.setPending shard (stashed ++ pending)).setHand (.got []) site)
  | _ => none

/-! What the threads do between calls of `run_once`. -/

/-- The head of the loop of `poller_thread_main`. -/
def turnWorker (s : System) (p shard : ℕ) : Option System := do
  let q ← s.pollers[p]?
  let hand ← q.workers[shard]?
  if hand = .idle then
    pure (s.setPoller p (q.withWorker shard (if q.shutdown then .exited else .entering)))
  else none

/-- The next shard of a sweep, or after the last one the decision to return or to block on one shard. -/
def turnPoll (m max : ℕ) (out : List KaracWakeup) (shard rotate : ℕ) : Call :=
  if shard < m then .poll max out shard rotate false (if out.length ≥ max then .exited else .entering)
  else if out ≠ [] then .poll max out shard rotate false .exited
  else if m = 0 then .poll max out 0 rotate false .idle
  else .poll max out (rotate % m) (rotate + 1) true .entering

def turnCall (s : System) (i : ℕ) : Option System := do
  let c ← s.calls[i]?
  match c with
  | .shutdown p true shard .idle =>
    pure (s.setCall i (.shutdown p true shard (if shard < s.shards then .entering else .exited)))
  | .poll max out shard rotate _ .idle => pure (s.setCall i (turnPoll s.shards max out shard rotate))
  | _ => none

def turn (s : System) : Site → Option System
  | .worker p shard => s.turnWorker p shard
  | .call i => s.turnCall i

/-- What `write_wakeups_out` writes, and what it leaves out. -/
def writeWakeupsOut (max : ℕ) (out : List KaracWakeup) (shard : ℕ) (ws : List Wakeup) :
    List KaracWakeup × List KaracWakeup :=
  let room := max - out.length
  (out ++ (ws.map (pack shard)).take room, (ws.map (pack shard)).drop room)

def deliverWorker (s : System) (p shard : ℕ) : Option System := do
  let q ← s.pollers[p]?
  let hand ← q.workers[shard]?
  match hand with
  | .got ws => pure (s.setPoller p { q.withWorker shard .idle with queue := q.queue ++ ws.map (pack shard) })
  | _ => none

/-- A poll after its slice on one shard, or after one shard of its sweep. -/
def nextPoll (max : ℕ) (out : List KaracWakeup) (shard rotate : ℕ) (blocking : Bool) : Call :=
  if blocking then
    if out ≠ [] then .poll max out shard rotate false .exited else .poll max out 0 rotate false .idle
  else .poll max out (shard + 1) rotate false .idle

def deliverCall (s : System) (i : ℕ) : Option System := do
  let c ← s.calls[i]?
  match c with
  | .shutdown p joined shard (.got ws) => do
    let pending ← s.pending[shard]?
    pure ((s.setPending shard (pending ++ ws)).setCall i (.shutdown p joined (shard + 1) .idle))
  | .poll max out shard rotate blocking (.got ws) =>
    let written := writeWakeupsOut max out shard ws
    pure ((s.addDropped written.2).setCall i (nextPoll max written.1 shard rotate blocking))
  | _ => none

def deliver (s : System) : Site → Option System
  | .worker p shard => s.deliverWorker p shard
  | .call i => s.deliverCall i

/-! The calls. -/

def start (s : System) : System :=
  if s.slot.isSome then s
  else
    { s with
      slot := some s.pollers.length
      active := true
      pollers := s.pollers ++ [⟨[], false, List.replicate s.shards .idle⟩] }

def shutdown (s : System) : System :=
  match s.slot with
  | none => s
  | some p => { s with slot := none, calls := s.calls ++ [.shutdown p false 0 .idle] }

def flag (s : System) (i : ℕ) : Option System := do
  let c ← s.calls[i]?
  match c with
  | .shutdown p false _ _ => do
    let q ← s.pollers[p]?
    pure (s.setPoller p { q with shutdown := true })
  | _ => none

def join (s : System) (i : ℕ) : Option System := do
  let c ← s.calls[i]?
  match c with
  | .shutdown p false shard hand => do
    let q ← s.pollers[p]?
    if q.shutdown && q.workers.all (· = .exited) then
      pure { s.setCall i (.shutdown p true shard hand) with active := false }
    else none
  | _ => none

def takeCall (s : System) (max : ℕ) : System :=
  match s.slot with
  | none => s
  | some p => { s with calls := s.calls ++ [.take p max [] true] }

def pop (s : System) (i : ℕ) : Option System := do
  let c ← s.calls[i]?
  match c with
  | .take p max [] true => do
    let q ← s.pollers[p]?
    pure ((s.setPoller p { q with queue := q.queue.drop max }).setCall i (.take p max (q.queue.take max) false))
  | _ => none

def pollCall (s : System) (max : ℕ) : System :=
  if s.active then s else { s with calls := s.calls ++ [.poll max [] 0 0 false .idle] }

def giveUp (s : System) (i : ℕ) : Option System := do
  let c ← s.calls[i]?
  match c with
  | .poll max [] shard rotate false .idle =>
    if s.shards ≤ shard then pure (s.setCall i (.poll max [] shard rotate false .exited)) else none
  | _ => none

def step (s : System) : Action → Option System
  | .start => some s.start
  | .shutdown => some s.shutdown
  | .flag i => s.flag i
  | .join i => s.join i
  | .takeCall max => some (s.takeCall max)
  | .pop i => s.pop i
  | .pollCall max => some (s.pollCall max)
  | .giveUp i => s.giveUp i
  | .turn site => s.turn site
  | .takePending site => s.takePending site
  | .polled site fresh => s.polled site fresh
  | .failed site => s.failed site
  | .deliver site => s.deliver site

def run (s : System) (as : List Action) : Option System := Lib.runSteps step s as

end System

end Karac.Runtime.EventLoop
