import Karac.Lib.Interleaving

/-! A channel of compiled programs: a queue behind a lock, and two atomic counters, of all handles and of the senders,
that `clone`, the drops and the sends touch one after the other. There is one `Receiver`, since only a `Sender` can be
cloned. -/

namespace Karac.Runtime

variable {α : Type}

/-- Where the thread that has a `Sender` is in a call on it. -/
inductive SenderPc (α : Type)
  | idle
  /-- In `clone`, with `senders` incremented and `total` not yet. -/
  | cloning
  /-- In `send` or `try_send`, with `total` read and `senders` not yet. -/
  | loaded (tries : Bool) (v : α) (total : ℕ)
  /-- A receiver was found; the lock is to be taken. -/
  | checked (tries : Bool) (v : α)
  | notifying
  /-- In the drop of the last sender, with `closed` to be set under the lock. -/
  | closing
  | waking
  | releasing
  | dropped
  deriving DecidableEq

namespace SenderPc

/-- The handle has not been given to `drop_sender`. -/
def live : SenderPc α → Bool
  | .closing => false
  | .waking => false
  | .releasing => false
  | .dropped => false
  | _ => true

def isLoaded : SenderPc α → Bool
  | .loaded _ _ _ => true
  | _ => false

/-- Its part of the counter `senders`. -/
def senders : SenderPc α → ℕ
  | .cloning => 2
  | pc => if pc.live then 1 else 0

/-- Its part of the counter `total`. -/
def total : SenderPc α → ℕ
  | .dropped => 0
  | _ => 1

end SenderPc

structure KaracChannel (α : Type) where
  total : ℕ
  senders : ℕ
  queue : List α
  closed : Bool
  /-- Zero for an unbounded channel. -/
  capacity : ℕ
  freed : ℕ
  handles : List (SenderPc α)
  /-- The receiver has not been dropped. -/
  receiver : Bool
  /-- All the values put on the queue so far, in that order. -/
  sent : List α
  /-- All the values `recv` has returned so far. -/
  received : List α
  deriving DecidableEq

/-- What a call reports: a failure is a status of `try_send` and a panic of `send`, after which the program takes no step. -/
inductive Outcome (α : Type)
  | noReceiver (tries : Bool)
  | full (tries : Bool)
  | value (v : α)
  | closed
  deriving DecidableEq

namespace KaracChannel

def withCapacity (capacity : ℕ) : KaracChannel α := ⟨2, 1, [], false, capacity, 0, [.idle], true, [], []⟩

/-- `new_bounded` clamps the bound to 1. -/
def newBounded (cap : ℤ) : KaracChannel α := withCapacity (max cap 1).toNat

def releaseTotal (s : KaracChannel α) : KaracChannel α :=
  { s with total := s.total - 1, freed := if s.total = 1 then s.freed + 1 else s.freed }

/-- The atomic steps, by the number of the sender's handle. -/
inductive Action (α : Type)
  | cloneSenders (i : ℕ)
  | cloneTotal (i : ℕ)
  | sendTotal (i : ℕ) (tries : Bool) (v : α)
  | sendSenders (i : ℕ)
  | enqueue (i : ℕ)
  | notify (i : ℕ)
  | dropSenders (i : ℕ)
  | close (i : ℕ)
  | wake (i : ℕ)
  | release (i : ℕ)
  | recv
  | dropReceiver
  deriving DecidableEq

def setPc (s : KaracChannel α) (i : ℕ) (pc : SenderPc α) : KaracChannel α := { s with handles := s.handles.set i pc }

def stepSender (s : KaracChannel α) (i : ℕ) (pc : SenderPc α) :
    Action α → Option (Option (Outcome α) × KaracChannel α)
  | .cloneSenders _ =>
    match pc with
    | .idle => some (none, { s.setPc i .cloning with senders := s.senders + 1 })
    | _ => none
  | .cloneTotal _ =>
    match pc with
    | .cloning => some (none, { s with total := s.total + 1, handles := s.handles.set i .idle ++ [.idle] })
    | _ => none
  | .sendTotal _ tries v =>
    match pc with
    | .idle => some (none, s.setPc i (.loaded tries v s.total))
    | _ => none
  | .sendSenders _ =>
    match pc with
    | .loaded tries v total =>
      if total - s.senders = 0 then some (some (.noReceiver tries), s.setPc i .idle)
      else some (none, s.setPc i (.checked tries v))
    | _ => none
  | .enqueue _ =>
    match pc with
    | .checked tries v =>
      if s.capacity ≠ 0 ∧ s.capacity ≤ s.queue.length then some (some (.full tries), s.setPc i .idle)
      else some (none, { s.setPc i .notifying with queue := s.queue ++ [v], sent := s.sent ++ [v] })
    | _ => none
  | .notify _ =>
    match pc with
    | .notifying => some (none, s.setPc i .idle)
    | _ => none
  | .dropSenders _ =>
    match pc with
    | .idle =>
      some (none, { s.setPc i (if s.senders = 1 then .closing else .releasing) with senders := s.senders - 1 })
    | _ => none
  | .close _ =>
    match pc with
    | .closing => some (none, { s.setPc i .waking with closed := true })
    | _ => none
  | .wake _ =>
    match pc with
    | .waking => some (none, s.setPc i .releasing)
    | _ => none
  | .release _ =>
    match pc with
    | .releasing => some (none, (s.setPc i .dropped).releaseTotal)
    | _ => none
  | .recv => none
  | .dropReceiver => none

/-- The sender whose step it is. -/
def Action.sender : Action α → Option ℕ
  | .cloneSenders i => some i
  | .cloneTotal i => some i
  | .sendTotal i _ _ => some i
  | .sendSenders i => some i
  | .enqueue i => some i
  | .notify i => some i
  | .dropSenders i => some i
  | .close i => some i
  | .wake i => some i
  | .release i => some i
  | .recv => none
  | .dropReceiver => none

/-- A `recv` on a queue that is empty and open parks, and takes its step when it is woken. -/
def stepReceiver (s : KaracChannel α) : Action α → Option (Option (Outcome α) × KaracChannel α)
  | .recv =>
    match s.queue with
    | v :: queue => some (some (.value v), { s with queue := queue, received := s.received ++ [v] })
    | [] => if s.closed then some (some .closed, s) else none
  | .dropReceiver => some (none, { s.releaseTotal with receiver := false })
  | _ => none

def step (s : KaracChannel α) (a : Action α) : Option (Option (Outcome α) × KaracChannel α) :=
  match a.sender with
  | some i => (s.handles[i]?).bind fun pc => s.stepSender i pc a
  | none => if s.receiver then s.stepReceiver a else none

def next (s : KaracChannel α) (a : Action α) : Option (KaracChannel α) := (s.step a).map Prod.snd

def run (s : KaracChannel α) (as : List (Action α)) : Option (KaracChannel α) := Lib.runSteps next s as

end KaracChannel

end Karac.Runtime
