import Karac.Lib.IndexedSum
import Karac.Runtime.WakeupQueues

/-! Where every wakeup is. A poller's queue, and what its threads are about to put there, can only be read through the
slot or by a take call that has begun. -/

namespace Karac.Runtime.EventLoop

open Lib

def Hand.stashed : Hand → List Wakeup
  | .polling stashed => stashed
  | _ => []

/-- What `run_once` has returned to the thread. -/
def Hand.returned : Hand → List Wakeup
  | .got wakeups => wakeups
  | _ => []

def Call.out : Call → List KaracWakeup
  | .shutdown _ _ _ _ => []
  | .poll _ out _ _ _ _ => out
  | .take _ _ out _ => out

def Call.waitsOn (p : ℕ) : Call → Bool
  | .take p' _ _ true => p' = p
  | _ => false

/-- A take call, later or begun, returns what the poller has. -/
def System.reachable (s : System) (p : ℕ) : Bool := s.slot = some p || s.calls.any (Call.waitsOn p)

section

variable (w : KaracWakeup)

def packedCount (shard : ℕ) (ws : List Wakeup) : ℕ := (ws.map (pack shard)).count w

def Hand.holds (shard : ℕ) (hand : Hand) : ℕ := packedCount w shard hand.stashed + packedCount w shard hand.returned

/-- In the queue, or about to be put there. -/
def Poller.inside (q : Poller) : ℕ :=
  q.queue.count w + sumIdx (fun shard hand => packedCount w shard hand.returned) q.workers

/-- In the hands of a thread whose `run_once` has not returned. -/
def Poller.underway (q : Poller) : ℕ := sumIdx (fun shard hand => packedCount w shard hand.stashed) q.workers

def Call.holds : Call → ℕ
  | .shutdown _ _ shard hand => hand.holds w shard
  | .poll _ _ shard _ _ hand => hand.holds w shard
  | .take _ _ _ _ => 0

namespace System

variable (s : System)

/-- In the buffers of the callers. -/
def written : ℕ := sumIdx (fun _ c => c.out.count w) s.calls

def inPending : ℕ := sumIdx (fun shard ws => packedCount w shard ws) s.pending

/-- With a call or a thread in `run_once`. -/
def inHands : ℕ := sumIdx (fun _ q => q.underway w) s.pollers + sumIdx (fun _ c => c.holds w) s.calls

/-- Where a later call returns it, or one that has begun. -/
def held : ℕ :=
  s.inPending w + s.inHands w + sumIdx (fun p q => if s.reachable p then q.inside w else 0) s.pollers

def lost : ℕ := s.dropped.count w + sumIdx (fun p q => if s.reachable p then 0 else q.inside w) s.pollers

end System

end

/-- Every wakeup that a `run_once` has returned is in one caller's buffer, or is held. -/
def System.Kept (s : System) : Prop := ∀ w, s.returned.count w = s.written w + s.held w

/-- Neither the queue nor a thread of the poller has anything. -/
def Poller.Empty (q : Poller) : Prop := q.queue = [] ∧ ∀ hand ∈ q.workers, hand.returned = []

/-- The step keeps what there is where it can be reached. -/
def System.Lossless (s : System) : Action → Prop
  -- the buffer of a poll has room for what `run_once` returned
  | .deliver (.call i) => ∀ max out shard rotate blocking ws,
      s.calls[i]? = some (.poll max out shard rotate blocking (.got ws)) → ws.length ≤ max - out.length
  -- a poller goes out of the slot with nothing, or while a take call waits
  | .shutdown => ∀ p q, s.slot = some p → s.pollers[p]? = some q → s.calls.any (Call.waitsOn p) = false → q.Empty
  -- the last take call on such a poller takes everything
  | .pop i => ∀ p max q, s.calls[i]? = some (.take p max [] true) → s.pollers[p]? = some q →
      (s.setCall i (.take p max [] false)).reachable p = false → { q with queue := q.queue.drop max }.Empty
  -- its threads get nothing more
  | .polled (.worker p shard) fresh => ∀ stashed, s.hand? (.worker p shard) = some (shard, .polling stashed) →
      s.reachable p = false → stashed ++ fresh = []
  | _ => True

/-! What the changes of the state do to the sums. -/

section

variable {w : KaracWakeup} {s : System}

@[simp] theorem packedCount_nil (shard : ℕ) : packedCount w shard [] = 0 := rfl

@[simp] theorem packedCount_append (shard : ℕ) (ws ws' : List Wakeup) :
    packedCount w shard (ws ++ ws') = packedCount w shard ws + packedCount w shard ws' := by
  simp [packedCount, List.count_append]

theorem Poller.inside_withWorker {q : Poller} {shard : ℕ} {hand : Hand} (h : q.workers[shard]? = some hand)
    (hand' : Hand) : (q.withWorker shard hand').inside w + packedCount w shard hand.returned =
      q.inside w + packedCount w shard hand'.returned := by
  have hsum := sumIdx_set_one (f := fun shard hand => packedCount w shard hand.returned) h hand'
  simp only [inside, withWorker]
  omega

theorem Poller.underway_withWorker {q : Poller} {shard : ℕ} {hand : Hand} (h : q.workers[shard]? = some hand)
    (hand' : Hand) : (q.withWorker shard hand').underway w + packedCount w shard hand.stashed =
      q.underway w + packedCount w shard hand'.stashed :=
  sumIdx_set_one h hand'

namespace System

theorem inHands_setPoller {p : ℕ} {q : Poller} (h : s.pollers[p]? = some q) (q' : Poller) :
    (s.setPoller p q').inHands w + q.underway w = s.inHands w + q'.underway w := by
  have hsum := sumIdx_set_one (f := fun _ q => q.underway w) h q'
  simp only [inHands, setPoller]
  omega

theorem inHands_setCall {i : ℕ} {c : Call} (h : s.calls[i]? = some c) (c' : Call) :
    (s.setCall i c').inHands w + c.holds w = s.inHands w + c'.holds w := by
  have hsum := sumIdx_set_one (f := fun _ c => c.holds w) h c'
  simp only [inHands, setCall]
  omega

theorem written_setCall {i : ℕ} {c : Call} (h : s.calls[i]? = some c) (c' : Call) :
    (s.setCall i c').written w + c.out.count w = s.written w + c'.out.count w :=
  sumIdx_set_one h c'

theorem inPending_setPending {shard : ℕ} {ws : List Wakeup} (h : s.pending[shard]? = some ws) (ws' : List Wakeup) :
    (s.setPending shard ws').inPending w + packedCount w shard ws = s.inPending w + packedCount w shard ws' :=
  sumIdx_set_one h ws'

theorem reachable_setCall {i p : ℕ} {c c' : Call} (h : s.calls[i]? = some c) (hwaits : c'.waitsOn p = c.waitsOn p) :
    (s.setCall i c').reachable p = s.reachable p := by
  unfold reachable setCall
  rw [any_set h hwaits]

/-- What the pollers have. -/
def inPollers (w : KaracWakeup) (s : System) : ℕ := sumIdx (fun _ q => q.inside w) s.pollers

theorem inPollers_setPoller {p : ℕ} {q : Poller} (h : s.pollers[p]? = some q) (q' : Poller) :
    (s.setPoller p q').inPollers w + q.inside w = s.inPollers w + q'.inside w :=
  sumIdx_set_one h q'

theorem lost_setPoller {p : ℕ} {q : Poller} (h : s.pollers[p]? = some q) (q' : Poller) :
    (s.setPoller p q').lost w + (if s.reachable p then 0 else q.inside w) =
      s.lost w + if s.reachable p then 0 else q'.inside w := by
  have hsum := sumIdx_set_one (f := fun p q => if s.reachable p then 0 else q.inside w) h q'
  have hreach : (s.setPoller p q').reachable = s.reachable := rfl
  simp only [lost, hreach]
  simp only [setPoller]
  omega

theorem lost_setCall {i : ℕ} {c c' : Call} (h : s.calls[i]? = some c) (hwaits : ∀ p, c'.waitsOn p = c.waitsOn p) :
    (s.setCall i c').lost w = s.lost w := by
  have hreach : (s.setCall i c').reachable = s.reachable := funext fun p => reachable_setCall h (hwaits p)
  simp only [lost, hreach]
  rfl

theorem held_add_lost : s.held w + s.lost w = s.inPending w + s.inHands w + s.inPollers w + s.dropped.count w := by
  have hsplit : s.inPollers w = sumIdx (fun p q => (if s.reachable p then q.inside w else 0) +
      if s.reachable p then 0 else q.inside w) s.pollers := by
    apply sumIdx_congr
    intro p q _
    split <;> simp
  rw [hsplit, sumIdx_add, held, lost]
  omega

/-- All that there is. -/
def total (w : KaracWakeup) (s : System) : ℕ :=
  s.written w + s.inPending w + s.inHands w + s.inPollers w + s.dropped.count w

/-- A step returns so many wakeups for the first time, and leaves so many where nobody looks. -/
structure Moves (w : KaracWakeup) (s s' : System) (fresh stray : ℕ) : Prop where
  returned : s'.returned.count w = s.returned.count w + fresh
  total : s'.total w = s.total w + fresh
  lost : s'.lost w = s.lost w + stray

/-- What a thread holds that has returned to it for a poller that nobody reads. -/
def strayHand (w : KaracWakeup) (s : System) (shard : ℕ) (hand : Hand) : Site → ℕ
  | .worker p _ => if s.reachable p then 0 else packedCount w shard hand.returned
  | .call _ => 0

/-- A thread's hand changes, and nothing else. -/
structure HandChanges (w : KaracWakeup) (s s' : System) (site : Site) (shard : ℕ) (hand hand' : Hand) : Prop where
  written : s'.written w = s.written w
  pending : s'.pending = s.pending
  returned : s'.returned = s.returned
  dropped : s'.dropped = s.dropped
  hands : s'.inHands w + s'.inPollers w + hand.holds w shard = s.inHands w + s.inPollers w + hand'.holds w shard
  lost : s'.lost w + s.strayHand w shard hand site = s.lost w + s.strayHand w shard hand' site

theorem setWorker_changes {p shard : ℕ} {q : Poller} {hand : Hand} (hq : s.pollers[p]? = some q)
    (hhand : q.workers[shard]? = some hand) (hand' : Hand) :
    HandChanges w s (s.setPoller p (q.withWorker shard hand')) (.worker p shard) shard hand hand' := by
  have hinside := q.inside_withWorker (w := w) hhand hand'
  have hunderway := q.underway_withWorker (w := w) hhand hand'
  have hhands := inHands_setPoller (w := w) hq (q.withWorker shard hand')
  have hpollers := inPollers_setPoller (w := w) hq (q.withWorker shard hand')
  have hlost := lost_setPoller (w := w) hq (q.withWorker shard hand')
  refine ⟨rfl, rfl, rfl, rfl, ?_, ?_⟩
  · simp only [Hand.holds]
    omega
  · simp only [strayHand]
    split at hlost
    · simp_all
    · simp_all
      omega

theorem setHand_changes {site : Site} {shard : ℕ} {hand : Hand} (h : s.hand? site = some (shard, hand)) (hand' : Hand) :
    HandChanges w s (s.setHand hand' site) site shard hand hand' := by
  cases site with
  | worker p shard' =>
    obtain ⟨q, hq, h⟩ := Option.bind_eq_some_iff.mp h
    obtain ⟨hand'', hhand, h⟩ := Option.bind_eq_some_iff.mp h
    cases h
    rw [setHand, hq]
    exact setWorker_changes hq hhand hand'
  | call i =>
    obtain ⟨c, hc, h⟩ := Option.bind_eq_some_iff.mp h
    rw [setHand, hc]
    have hholds : c.holds w = hand.holds w shard ∧ (c.withHand hand').holds w = hand'.holds w shard := by
      cases c <;> cases h <;> exact ⟨rfl, rfl⟩
    have hout : (c.withHand hand').out = c.out := by cases c <;> rfl
    have hwaits : ∀ p, (c.withHand hand').waitsOn p = c.waitsOn p := by
      intro p
      cases c <;> rfl
    have hwritten := written_setCall (w := w) hc (c.withHand hand')
    have hhands := inHands_setCall (w := w) hc (c.withHand hand')
    rw [hout] at hwritten
    rw [hholds.1, hholds.2] at hhands
    refine ⟨Nat.add_right_cancel hwritten, rfl, rfl, rfl, ?_, lost_setCall hc hwaits⟩
    have hpollers : (s.setCall i (c.withHand hand')).inPollers w = s.inPollers w := rfl
    simp only [Option.elim_some, hpollers]
    omega

theorem hand?_setPending (shard : ℕ) (ws : List Wakeup) (site : Site) :
    (s.setPending shard ws).hand? site = s.hand? site := by
  cases site <;> rfl

/-- A thread takes from its shard's list, or puts back into it. -/
theorem moves_pending {site : Site} {shard : ℕ} {hand hand' : Hand} {ws ws' : List Wakeup}
    (hhand : s.hand? site = some (shard, hand)) (hpending : s.pending[shard]? = some ws)
    (hsame : hand.holds w shard + packedCount w shard ws = hand'.holds w shard + packedCount w shard ws')
    (hreturned : hand.returned = []) (hreturned' : hand'.returned = []) :
    Moves w s ((s.setPending shard ws').setHand hand' site) 0 0 := by
  have hmoved := inPending_setPending (w := w) hpending ws'
  have hchanges := setHand_changes (w := w) ((hand?_setPending shard ws' site).trans hhand) hand'
  have hpending' : ((s.setPending shard ws').setHand hand' site).inPending w =
      (s.setPending shard ws').inPending w := by
    simp only [inPending, hchanges.pending]
  have hhands := hchanges.hands
  have hstray : ∀ h : Hand, h.returned = [] → (s.setPending shard ws').strayHand w shard h site = 0 := by
    intro h hnil
    cases site <;> simp [strayHand, hnil]
  have hlost := hchanges.lost
  rw [hstray hand hreturned, hstray hand' hreturned'] at hlost
  refine ⟨?_, ?_, ?_⟩
  · rw [hchanges.returned]
    rfl
  · have hsides : (s.setPending shard ws').inHands w = s.inHands w ∧
        (s.setPending shard ws').inPollers w = s.inPollers w ∧ (s.setPending shard ws').written w = s.written w :=
      ⟨rfl, rfl, rfl⟩
    have hdropped : (s.setPending shard ws').dropped = s.dropped := rfl
    simp only [total, hchanges.written, hchanges.dropped, hpending', hsides, hdropped] at hhands ⊢
    omega
  · exact hlost

theorem moves_takePending {s' : System} {site : Site} (h : s.takePending site = some s') : Moves w s s' 0 0 := by
  unfold takePending at h
  split at h
  · rename_i shard hhand
    obtain ⟨stashed, hpending, h⟩ := Option.bind_eq_some_iff.mp h
    cases h
    exact moves_pending hhand hpending (by simp [Hand.holds, Hand.stashed, Hand.returned]) rfl rfl
  · cases h

theorem moves_failed {s' : System} {site : Site} (h : s.failed site = some s') : Moves w s s' 0 0 := by
  unfold failed at h
  split at h
  · rename_i shard stashed hhand
    obtain ⟨pending, hpending, h⟩ := Option.bind_eq_some_iff.mp h
    cases h
    exact moves_pending hhand hpending (by simp [Hand.holds, Hand.stashed, Hand.returned]) rfl rfl
  · cases h

section

variable (ws : List KaracWakeup)

@[simp] theorem addReturned_written : (s.addReturned ws).written w = s.written w := rfl

@[simp] theorem addReturned_inHands : (s.addReturned ws).inHands w = s.inHands w := rfl

@[simp] theorem addReturned_inPollers : (s.addReturned ws).inPollers w = s.inPollers w := rfl

@[simp] theorem addReturned_dropped : (s.addReturned ws).dropped = s.dropped := rfl

@[simp] theorem addReturned_lost : (s.addReturned ws).lost w = s.lost w := rfl

theorem hand?_addReturned (site : Site) : (s.addReturned ws).hand? site = s.hand? site := by
  cases site <;> rfl

end

/-- What a `run_once` returns to a thread of a poller that nobody reads. -/
def strayPolled (w : KaracWakeup) (s : System) (site : Site) (fresh : List Wakeup) : ℕ :=
  match s.hand? site with
  | some (shard, .polling stashed) => s.strayHand w shard (.got (stashed ++ fresh)) site
  | _ => 0

theorem moves_polled {s' : System} {site : Site} {fresh : List Wakeup} (h : s.polled site fresh = some s') :
    ∃ n, Moves w s s' n (s.strayPolled w site fresh) := by
  unfold polled at h
  split at h
  · rename_i shard stashed hhand
    cases h
    have hhand' := (hand?_addReturned (fresh.map (pack shard)) site).trans hhand
    have hchanges := setHand_changes (w := w) hhand' (.got (stashed ++ fresh))
    have hhands := hchanges.hands
    have hlost := hchanges.lost
    have hpending : ((s.addReturned (fresh.map (pack shard))).setHand (.got (stashed ++ fresh)) site).inPending w =
        s.inPending w := by
      simp only [inPending, hchanges.pending]
      rfl
    have hstray : ∀ hand, (s.addReturned (fresh.map (pack shard))).strayHand w shard hand site =
        s.strayHand w shard hand site := by
      intro hand
      cases site <;> rfl
    have hnone : s.strayHand w shard (.polling stashed) site = 0 := by
      cases site <;> simp [strayHand, Hand.returned]
    refine ⟨packedCount w shard fresh, ?_, ?_, ?_⟩
    · rw [hchanges.returned]
      exact List.count_append
    · have hholds : (Hand.got (stashed ++ fresh)).holds w shard =
          (Hand.polling stashed).holds w shard + packedCount w shard fresh := by
        simp [Hand.holds, Hand.stashed, Hand.returned]
      simp only [total, hchanges.written, hchanges.dropped, hpending]
      simp only [addReturned_inHands, addReturned_inPollers, addReturned_written, addReturned_dropped] at hhands ⊢
      omega
    · rw [hstray, hstray, hnone, addReturned_lost, Nat.add_zero] at hlost
      simpa only [strayPolled, hhand] using hlost
  · cases h

/-! What the threads do between the calls of `run_once`. -/

theorem moves_setCall {i : ℕ} {c c' : Call} (hc : s.calls[i]? = some c) (hout : c'.out = c.out)
    (hholds : c'.holds w = c.holds w) (hwaits : ∀ p, c'.waitsOn p = c.waitsOn p) : Moves w s (s.setCall i c') 0 0 := by
  have hwritten := written_setCall (w := w) hc c'
  have hhands := inHands_setCall (w := w) hc c'
  have hpollers : (s.setCall i c').inPollers w = s.inPollers w := rfl
  have hpending : (s.setCall i c').inPending w = s.inPending w := rfl
  rw [hout] at hwritten
  rw [hholds] at hhands
  refine ⟨rfl, ?_, lost_setCall hc hwaits⟩
  have hdropped : (s.setCall i c').dropped = s.dropped := rfl
  simp only [total, hpollers, hpending, hdropped]
  omega

theorem moves_setPoller {p : ℕ} {q q' : Poller} (hq : s.pollers[p]? = some q) (hinside : q'.inside w = q.inside w)
    (hunderway : q'.underway w = q.underway w) : Moves w s (s.setPoller p q') 0 0 := by
  have hhands := inHands_setPoller (w := w) hq q'
  have hpollers := inPollers_setPoller (w := w) hq q'
  have hlost := lost_setPoller (w := w) hq q'
  have hsides : (s.setPoller p q').written w = s.written w ∧ (s.setPoller p q').inPending w = s.inPending w ∧
      (s.setPoller p q').dropped = s.dropped :=
    ⟨rfl, rfl, rfl⟩
  rw [hinside] at hpollers hlost
  rw [hunderway] at hhands
  refine ⟨rfl, ?_, ?_⟩
  · simp only [total, hsides]
    omega
  · omega

theorem moves_turnWorker {s' : System} {p shard : ℕ} (h : s.turnWorker p shard = some s') : Moves w s s' 0 0 := by
  obtain ⟨q, hq, h⟩ := Option.bind_eq_some_iff.mp h
  obtain ⟨hand, hhand, h⟩ := Option.bind_eq_some_iff.mp h
  split at h
  · rename_i hidle
    cases h
    subst hidle
    have hinside := q.inside_withWorker (w := w) hhand
    have hunderway := q.underway_withWorker (w := w) hhand
    split
    · exact moves_setPoller hq (Nat.add_right_cancel (hinside .exited)) (Nat.add_right_cancel (hunderway .exited))
    · exact moves_setPoller hq (Nat.add_right_cancel (hinside .entering)) (Nat.add_right_cancel (hunderway .entering))
  · cases h

theorem turnPoll_same (m max : ℕ) (out : List KaracWakeup) (shard rotate : ℕ) :
    (turnPoll m max out shard rotate).out = out ∧ (turnPoll m max out shard rotate).holds w = 0 ∧
      ∀ p, (turnPoll m max out shard rotate).waitsOn p = false := by
  unfold turnPoll
  split_ifs <;> exact ⟨rfl, rfl, fun _ => rfl⟩

theorem moves_turnCall {s' : System} {i : ℕ} (h : s.turnCall i = some s') : Moves w s s' 0 0 := by
  obtain ⟨c, hc, h⟩ := Option.bind_eq_some_iff.mp h
  split at h
  · cases h
    apply moves_setCall hc
    all_goals split <;> first | rfl | exact fun _ => rfl
  · rename_i max out shard rotate blocking
    cases h
    obtain ⟨hout, hholds, hwaits⟩ := turnPoll_same (w := w) s.shards max out shard rotate
    exact moves_setCall hc hout hholds hwaits
  · cases h

theorem moves_giveUp {s' : System} {i : ℕ} (h : s.giveUp i = some s') : Moves w s s' 0 0 := by
  obtain ⟨c, hc, h⟩ := Option.bind_eq_some_iff.mp h
  split at h
  · split at h
    · cases h
      exact moves_setCall hc rfl rfl fun _ => rfl
    · cases h
  · cases h

theorem moves_deliverWorker {s' : System} {p shard : ℕ} (h : s.deliverWorker p shard = some s') : Moves w s s' 0 0 := by
  obtain ⟨q, hq, h⟩ := Option.bind_eq_some_iff.mp h
  obtain ⟨hand, hhand, h⟩ := Option.bind_eq_some_iff.mp h
  split at h
  · rename_i ws
    cases h
    have hinside := q.inside_withWorker (w := w) hhand .idle
    have hunderway := q.underway_withWorker (w := w) hhand .idle
    apply moves_setPoller hq
    · simp only [Poller.inside, Poller.withWorker, List.count_append] at hinside ⊢
      have hws : packedCount w shard (Hand.got ws).returned = (ws.map (pack shard)).count w := rfl
      have hidle : packedCount w shard Hand.idle.returned = 0 := rfl
      omega
    · exact Nat.add_right_cancel hunderway
  · cases h

/-- What a poll leaves out of its buffer. -/
def strayDeliver (w : KaracWakeup) (s : System) (i : ℕ) : ℕ :=
  match s.calls[i]? with
  | some (.poll max out shard _ _ (.got ws)) => (writeWakeupsOut max out shard ws).2.count w
  | _ => 0

theorem count_writeWakeupsOut (max : ℕ) (out : List KaracWakeup) (shard : ℕ) (ws : List Wakeup) :
    (writeWakeupsOut max out shard ws).1.count w + (writeWakeupsOut max out shard ws).2.count w =
      out.count w + packedCount w shard ws := by
  have hsplit : (ws.map (pack shard)).count w = ((ws.map (pack shard)).take (max - out.length)).count w +
      ((ws.map (pack shard)).drop (max - out.length)).count w := by
    rw [← List.count_append, List.take_append_drop]
  simp only [writeWakeupsOut, List.count_append, packedCount]
  omega

theorem nextPoll_same (max : ℕ) (out : List KaracWakeup) (shard rotate : ℕ) (blocking : Bool) :
    (nextPoll max out shard rotate blocking).out = out ∧ (nextPoll max out shard rotate blocking).holds w = 0 ∧
      ∀ p, (nextPoll max out shard rotate blocking).waitsOn p = false := by
  unfold nextPoll
  split_ifs <;> exact ⟨rfl, rfl, fun _ => rfl⟩

theorem lost_addDropped (ws : List KaracWakeup) : (s.addDropped ws).lost w = s.lost w + ws.count w := by
  have hreach : (s.addDropped ws).reachable = s.reachable := rfl
  simp only [lost, hreach]
  simp only [addDropped, List.count_append]
  omega

/-- A shutdown puts what it drained back into the shard's list. -/
theorem moves_drained {i shard shard' p : ℕ} {joined : Bool} {pending ws : List Wakeup}
    (hc : s.calls[i]? = some (.shutdown p joined shard (.got ws))) (hpending : s.pending[shard]? = some pending) :
    Moves w s ((s.setPending shard (pending ++ ws)).setCall i (.shutdown p joined shard' .idle)) 0 0 := by
  have hc' : (s.setPending shard (pending ++ ws)).calls[i]? = some (.shutdown p joined shard (.got ws)) := hc
  have hmoved := inPending_setPending (w := w) hpending (pending ++ ws)
  have hwritten := written_setCall (w := w) hc' (.shutdown p joined shard' .idle)
  have hhands := inHands_setCall (w := w) hc' (.shutdown p joined shard' .idle)
  have hlost : ((s.setPending shard (pending ++ ws)).setCall i (.shutdown p joined shard' .idle)).lost w =
      (s.setPending shard (pending ++ ws)).lost w :=
    lost_setCall hc' fun _ => rfl
  refine ⟨rfl, ?_, hlost⟩
  simp only [Call.out, Call.holds, Hand.holds, Hand.stashed, Hand.returned, packedCount_nil, packedCount_append] at *
  have hsides : ∀ c, ((s.setPending shard (pending ++ ws)).setCall i c).inPending w =
      (s.setPending shard (pending ++ ws)).inPending w ∧
      ((s.setPending shard (pending ++ ws)).setCall i c).inPollers w = s.inPollers w ∧
      ((s.setPending shard (pending ++ ws)).setCall i c).dropped = s.dropped :=
    fun _ => ⟨rfl, rfl, rfl⟩
  have hbefore : (s.setPending shard (pending ++ ws)).written w = s.written w ∧
      (s.setPending shard (pending ++ ws)).inHands w = s.inHands w :=
    ⟨rfl, rfl⟩
  simp only [total, hsides]
  omega

/-- A call changes, and what it had and has no more is dropped. -/
theorem moves_dropping {i : ℕ} {c c' : Call} {stray : List KaracWakeup} (hc : s.calls[i]? = some c)
    (hsum : c'.out.count w + c'.holds w + stray.count w = c.out.count w + c.holds w)
    (hwaits : ∀ p, c'.waitsOn p = c.waitsOn p) : Moves w s ((s.addDropped stray).setCall i c') 0 (stray.count w) := by
  have hc' : (s.addDropped stray).calls[i]? = some c := hc
  have hwritten := written_setCall (w := w) hc' c'
  have hhands := inHands_setCall (w := w) hc' c'
  have hdropped : ((s.addDropped stray).setCall i c').dropped.count w = s.dropped.count w + stray.count w :=
    List.count_append
  have hafter : ((s.addDropped stray).setCall i c').inPending w = s.inPending w ∧
      ((s.addDropped stray).setCall i c').inPollers w = s.inPollers w :=
    ⟨rfl, rfl⟩
  have hbefore : (s.addDropped stray).written w = s.written w ∧ (s.addDropped stray).inHands w = s.inHands w :=
    ⟨rfl, rfl⟩
  refine ⟨rfl, ?_, (lost_setCall hc' hwaits).trans (lost_addDropped stray)⟩
  simp only [total, hafter, hdropped]
  omega

theorem moves_deliverCall {s' : System} {i : ℕ} (h : s.deliverCall i = some s') :
    Moves w s s' 0 (s.strayDeliver w i) := by
  obtain ⟨c, hc, h⟩ := Option.bind_eq_some_iff.mp h
  split at h
  · obtain ⟨pending, hpending, h⟩ := Option.bind_eq_some_iff.mp h
    cases h
    have hstray : s.strayDeliver w i = 0 := by simp only [strayDeliver, hc]
    rw [hstray]
    exact moves_drained hc hpending
  · rename_i max out shard rotate blocking ws
    cases h
    have hstray : s.strayDeliver w i = (writeWakeupsOut max out shard ws).2.count w := by simp only [strayDeliver, hc]
    obtain ⟨hout, hholds, hwaits⟩ :=
      nextPoll_same (w := w) max (writeWakeupsOut max out shard ws).1 shard rotate blocking
    have hcount := count_writeWakeupsOut (w := w) max out shard ws
    rw [hstray]
    apply moves_dropping hc _ hwaits
    have hheld : (Call.poll max out shard rotate blocking (.got ws)).out.count w +
        (Call.poll max out shard rotate blocking (.got ws)).holds w = out.count w + packedCount w shard ws := by
      simp [Call.out, Call.holds, Hand.holds, Hand.stashed, Hand.returned]
    rw [hout, hholds, hheld]
    omega
  · cases h

/-! The calls. -/

/-- A call that has only begun. -/
theorem moves_addCall {c : Call} (hout : c.out = []) (hholds : c.holds w = 0)
    (hwaits : ∀ p, c.waitsOn p = true → s.slot = some p) : Moves w s { s with calls := s.calls ++ [c] } 0 0 := by
  have hreach : ∀ p, ({ s with calls := s.calls ++ [c] } : System).reachable p = s.reachable p := by
    intro p
    simp only [reachable, List.any_append, List.any_cons, List.any_nil, Bool.or_false]
    cases hp : c.waitsOn p with
    | false => rw [Bool.or_false]
    | true => simp [hwaits p hp]
  have hwritten : ({ s with calls := s.calls ++ [c] } : System).written w = s.written w := by
    simp [written, sumIdx_append_one, hout]
  have hhands : ({ s with calls := s.calls ++ [c] } : System).inHands w = s.inHands w := by
    simp [inHands, sumIdx_append_one, hholds]
  refine ⟨rfl, ?_, ?_⟩
  · simp only [total, hwritten, hhands]
    rfl
  · simp only [lost, hreach]
    rfl

theorem newPoller_nothing (m : ℕ) :
    (Poller.mk [] false (List.replicate m .idle)).inside w = 0 ∧
      (Poller.mk [] false (List.replicate m .idle)).underway w = 0 := by
  have hidle : ∀ (i : ℕ) (hand : Hand), (List.replicate m Hand.idle)[i]? = some hand → hand = .idle := by
    intro i hand h
    exact List.eq_of_mem_replicate (List.mem_of_getElem? h)
  constructor
  · rw [Poller.inside, sumIdx_zero fun i hand h => by rw [hidle i hand h]; rfl]
    rfl
  · exact sumIdx_zero fun i hand h => by rw [hidle i hand h]; rfl

theorem moves_start : Moves w s s.start 0 0 := by
  unfold start
  split
  · exact ⟨rfl, rfl, rfl⟩
  · rename_i hslot
    have hnone : s.slot = none := Option.not_isSome_iff_eq_none.mp hslot
    obtain ⟨hinside, hunderway⟩ := newPoller_nothing (w := w) s.shards
    refine ⟨rfl, ?_, ?_⟩
    · simp only [total, written, inPending, inHands, inPollers, sumIdx_append_one, hinside, hunderway]
      rfl
    · simp only [lost, sumIdx_append_one, hinside, ite_self, Nat.add_zero]
      congr 1
      apply sumIdx_congr
      intro p q hq
      have hlt : p < s.pollers.length := (List.getElem?_eq_some_iff.mp hq).1
      simp [reachable, hnone, Nat.ne_of_gt hlt]

theorem moves_takeCall (max : ℕ) : Moves w s (s.takeCall max) 0 0 := by
  unfold takeCall
  split
  · exact ⟨rfl, rfl, rfl⟩
  · rename_i p hslot
    apply moves_addCall rfl rfl
    intro p' hp'
    obtain rfl : p = p' := of_decide_eq_true hp'
    exact hslot

theorem moves_pollCall (max : ℕ) : Moves w s (s.pollCall max) 0 0 := by
  unfold pollCall
  split
  · exact ⟨rfl, rfl, rfl⟩
  · exact moves_addCall rfl (by simp [Call.holds, Hand.holds, Hand.stashed, Hand.returned]) nofun

theorem moves_flag {s' : System} {i : ℕ} (h : s.flag i = some s') : Moves w s s' 0 0 := by
  obtain ⟨c, hc, h⟩ := Option.bind_eq_some_iff.mp h
  split at h
  · obtain ⟨q, hq, h⟩ := Option.bind_eq_some_iff.mp h
    cases h
    exact moves_setPoller hq rfl rfl
  · cases h

theorem moves_join {s' : System} {i : ℕ} (h : s.join i = some s') : Moves w s s' 0 0 := by
  obtain ⟨c, hc, h⟩ := Option.bind_eq_some_iff.mp h
  split at h
  · rename_i p shard hand
    obtain ⟨q, hq, h⟩ := Option.bind_eq_some_iff.mp h
    split at h
    · cases h
      have hmoves : Moves w s (s.setCall i (.shutdown p true shard hand)) 0 0 :=
        moves_setCall hc rfl rfl fun _ => rfl
      exact ⟨hmoves.returned, hmoves.total, hmoves.lost⟩
    · cases h
  · cases h

/-- What goes with a poller that is taken out of the slot, if no take call waits on it. -/
def strayShutdown (w : KaracWakeup) (s : System) : ℕ :=
  match s.slot with
  | none => 0
  | some p => if s.calls.any (Call.waitsOn p) then 0 else (s.pollers[p]?).elim 0 (Poller.inside w)

/-- One poller is reachable in one state and not in the other. -/
theorem lost_of_reachable {t : System} {p : ℕ} (hpollers : t.pollers = s.pollers) (hdropped : t.dropped = s.dropped)
    (hother : ∀ j, j ≠ p → t.reachable j = s.reachable j) :
    t.lost w + (if s.reachable p then 0 else (s.pollers[p]?).elim 0 (Poller.inside w)) =
      s.lost w + if t.reachable p then 0 else (s.pollers[p]?).elim 0 (Poller.inside w) := by
  have hothers : ∀ j, j ≠ p → ∀ q : Poller, (if t.reachable j then 0 else q.inside w) =
      if s.reachable j then 0 else q.inside w := by
    intro j hj q
    rw [hother j hj]
  simp only [lost, hpollers, hdropped]
  cases hq : s.pollers[p]? with
  | none =>
    have hsame : sumIdx (fun p q => if t.reachable p then 0 else q.inside w) s.pollers =
        sumIdx (fun p q => if s.reachable p then 0 else q.inside w) s.pollers := by
      apply sumIdx_congr
      intro j q hj
      apply hothers
      rintro rfl
      cases hq.symm.trans hj
    simp [hsame]
  | some q =>
    have hsum := sumIdx_set (f := fun p q => if s.reachable p then 0 else q.inside w)
      (g := fun p q => if t.reachable p then 0 else q.inside w) hq hothers q
    have hsame : s.pollers.set p q = s.pollers := by
      obtain ⟨hlt, rfl⟩ := List.getElem?_eq_some_iff.mp hq
      exact List.set_getElem_self hlt
    rw [hsame] at hsum
    simp only [Option.elim_some]
    omega

theorem moves_shutdown : Moves w s s.shutdown 0 (s.strayShutdown w) := by
  unfold shutdown strayShutdown
  cases hslot : s.slot with
  | none => exact ⟨rfl, rfl, rfl⟩
  | some p =>
    dsimp only
    let t : System := { s with slot := none }
    have hadd : Moves w t { t with calls := t.calls ++ [.shutdown p false 0 .idle] } 0 0 :=
      moves_addCall rfl (by simp [Call.holds, Hand.holds, Hand.stashed, Hand.returned]) nofun
    have hother : ∀ j, j ≠ p → t.reachable j = s.reachable j := by
      intro j hj
      simp [t, reachable, hslot, hj.symm]
    have hlost := lost_of_reachable (w := w) (s := s) (t := t) rfl rfl hother
    have hbefore : s.reachable p = true := by simp [reachable, hslot]
    have hafter : t.reachable p = s.calls.any (Call.waitsOn p) := by simp [t, reachable]
    rw [hbefore, hafter] at hlost
    refine ⟨hadd.returned, hadd.total, hadd.lost.trans ?_⟩
    rw [if_pos rfl] at hlost
    omega

/-- What the last take call on a poller that is out of the slot leaves in it. -/
def strayPop (w : KaracWakeup) (s : System) (i : ℕ) : ℕ :=
  match s.calls[i]? with
  | some (.take p max [] true) =>
    if (s.setCall i (.take p max [] false)).reachable p then 0
    else (s.pollers[p]?).elim 0 fun q => { q with queue := q.queue.drop max }.inside w
  | _ => 0

/-- What a call has written is no matter for who can reach the pollers. -/
theorem reachable_take {i p max : ℕ} {c : Call} (hc : s.calls[i]? = some c) (out out' : List KaracWakeup) (j : ℕ) :
    (s.setCall i (.take p max out false)).reachable j = (s.setCall i (.take p max out' false)).reachable j := by
  have hset : (s.calls.set i (.take p max out' false))[i]? = some (.take p max out' false) := by
    rw [List.getElem?_set_self (List.getElem?_eq_some_iff.mp hc).1]
  have hany : ((s.calls.set i (.take p max out' false)).set i (.take p max out false)).any (Call.waitsOn j) =
      (s.calls.set i (.take p max out' false)).any (Call.waitsOn j) := any_set hset rfl
  rw [List.set_set] at hany
  unfold reachable setCall
  rw [hany]

theorem moves_pop {s' : System} {i : ℕ} (h : s.pop i = some s') : Moves w s s' 0 (s.strayPop w i) := by
  obtain ⟨c, hc, h⟩ := Option.bind_eq_some_iff.mp h
  split at h
  · rename_i p max
    obtain ⟨q, hq, h⟩ := Option.bind_eq_some_iff.mp h
    cases h
    let q' : Poller := { q with queue := q.queue.drop max }
    change Moves w s ((s.setPoller p q').setCall i (.take p max (q.queue.take max) false)) 0 (s.strayPop w i)
    have hc' : (s.setPoller p q').calls[i]? = some (.take p max [] true) := hc
    have hwritten := written_setCall (w := w) hc' (.take p max (q.queue.take max) false)
    have hcallHands := inHands_setCall (w := w) hc' (.take p max (q.queue.take max) false)
    have hhands := inHands_setPoller (w := w) hq q'
    have hpollers := inPollers_setPoller (w := w) hq q'
    have hqueue : q.inside w = (q.queue.take max).count w + q'.inside w := by
      have hsplit : q.queue.count w = (q.queue.take max).count w + (q.queue.drop max).count w := by
        rw [← List.count_append, List.take_append_drop]
      simp only [Poller.inside, q', hsplit]
      omega
    have hreach : s.reachable p = true := by
      have hany : s.calls.any (Call.waitsOn p) = true :=
        List.any_eq_true.mpr ⟨_, List.mem_of_getElem? hc, decide_eq_true rfl⟩
      rw [reachable, hany, Bool.or_true]
    have hlost := lost_setPoller (w := w) hq q'
    rw [if_pos hreach, if_pos hreach] at hlost
    have hother : ∀ j, j ≠ p → ((s.setPoller p q').setCall i (.take p max (q.queue.take max) false)).reachable j =
        (s.setPoller p q').reachable j := by
      intro j hj
      exact reachable_setCall hc' (decide_eq_false fun h => hj h.symm).symm
    have hgone := lost_of_reachable (w := w) (s := s.setPoller p q')
      (t := (s.setPoller p q').setCall i (.take p max (q.queue.take max) false)) rfl rfl hother
    have hq' : (s.setPoller p q').pollers[p]? = some q' := List.getElem?_set_self (List.getElem?_eq_some_iff.mp hq).1
    have hstray : s.strayPop w i = if (s.setCall i (.take p max [] false)).reachable p then 0 else q'.inside w := by
      simp only [strayPop, hc, hq, Option.elim_some, q']
    have hreach' : ((s.setPoller p q').setCall i (.take p max (q.queue.take max) false)).reachable p =
        (s.setCall i (.take p max [] false)).reachable p :=
      reachable_take hc (q.queue.take max) [] p
    have hbefore : (s.setPoller p q').reachable p = true := hreach
    rw [hbefore, hreach', hq', if_pos rfl, Option.elim_some] at hgone
    refine ⟨rfl, ?_, ?_⟩
    · have hsides : ∀ c, ((s.setPoller p q').setCall i c).inPending w = s.inPending w ∧
          ((s.setPoller p q').setCall i c).inPollers w = (s.setPoller p q').inPollers w ∧
          ((s.setPoller p q').setCall i c).dropped = s.dropped :=
        fun _ => ⟨rfl, rfl, rfl⟩
      have hsame : (s.setPoller p q').written w = s.written w ∧ q'.underway w = q.underway w := ⟨rfl, rfl⟩
      simp only [Call.out, Call.holds, List.count_nil] at hwritten hcallHands
      simp only [total, hsides]
      omega
    · rw [hstray]
      omega
  · cases h

/-! Every step. -/

/-- What a step leaves where nobody looks. -/
def stray (w : KaracWakeup) (s : System) : Action → ℕ
  | .shutdown => s.strayShutdown w
  | .pop i => s.strayPop w i
  | .polled site fresh => s.strayPolled w site fresh
  | .deliver (.call i) => s.strayDeliver w i
  | _ => 0

theorem moves_step {s' : System} {a : Action} (h : s.step a = some s') : ∃ n, Moves w s s' n (s.stray w a) := by
  cases a with
  | start =>
    cases h
    exact ⟨0, moves_start⟩
  | shutdown =>
    cases h
    exact ⟨0, moves_shutdown⟩
  | flag i => exact ⟨0, moves_flag h⟩
  | join i => exact ⟨0, moves_join h⟩
  | takeCall max =>
    cases h
    exact ⟨0, moves_takeCall max⟩
  | pop i => exact ⟨0, moves_pop h⟩
  | pollCall max =>
    cases h
    exact ⟨0, moves_pollCall max⟩
  | giveUp i => exact ⟨0, moves_giveUp h⟩
  | turn site =>
    cases site with
    | worker p shard => exact ⟨0, moves_turnWorker h⟩
    | call i => exact ⟨0, moves_turnCall h⟩
  | takePending site => exact ⟨0, moves_takePending h⟩
  | polled site fresh => exact moves_polled h
  | failed site => exact ⟨0, moves_failed h⟩
  | deliver site =>
    cases site with
    | worker p shard => exact ⟨0, moves_deliverWorker h⟩
    | call i => exact ⟨0, moves_deliverCall h⟩

end System

theorem packedCount_eq_zero {shard : ℕ} {ws : List Wakeup} (h : ∀ w, packedCount w shard ws = 0) : ws = [] := by
  cases ws with
  | nil => rfl
  | cons x rest =>
    have hx := h (pack shard x)
    simp [packedCount] at hx

theorem eq_nil_of_count {l : List KaracWakeup} (h : ∀ w, l.count w = 0) : l = [] :=
  List.eq_nil_iff_forall_not_mem.mpr fun w hw => absurd (h w) (Nat.ne_of_gt (List.count_pos_iff.mpr hw))

theorem Poller.empty_iff (q : Poller) : q.Empty ↔ ∀ w, q.inside w = 0 := by
  constructor
  · rintro ⟨hqueue, hworkers⟩ w
    have hsum : sumIdx (fun shard hand => packedCount w shard hand.returned) q.workers = 0 :=
      sumIdx_zero fun i hand h => by
        rw [hworkers hand (List.mem_of_getElem? h)]
        rfl
    rw [inside, hqueue, hsum]
    rfl
  · intro h
    have hboth : ∀ w, q.queue.count w = 0 ∧
        sumIdx (fun shard hand => packedCount w shard hand.returned) q.workers = 0 :=
      fun w => Nat.add_eq_zero_iff.mp (h w)
    refine ⟨eq_nil_of_count fun w => (hboth w).1, fun hand hmem => ?_⟩
    obtain ⟨i, hi⟩ := List.getElem?_of_mem hmem
    exact packedCount_eq_zero fun w => sumIdx_eq_zero_iff.mp (hboth w).2 i hand hi

namespace System

theorem lossless_shutdown_iff (s : System) : s.Lossless .shutdown ↔ ∀ w, s.strayShutdown w = 0 := by
  constructor
  · intro h w
    unfold strayShutdown
    split
    · rfl
    · rename_i p hslot
      split
      · rfl
      · rename_i hwaits
        cases hq : s.pollers[p]? with
        | none => rfl
        | some q => exact (Poller.empty_iff q).mp (h p q hslot hq (Bool.eq_false_of_not_eq_true hwaits)) w
  · intro h p q hslot hq hwaits
    rw [Poller.empty_iff]
    intro w
    have hw := h w
    simp only [strayShutdown, hslot, hwaits, Bool.false_eq_true, if_false, hq, Option.elim_some] at hw
    exact hw

theorem lossless_pop_iff (s : System) (i : ℕ) : s.Lossless (.pop i) ↔ ∀ w, s.strayPop w i = 0 := by
  constructor
  · intro h w
    unfold strayPop
    split
    · rename_i p max hc
      split
      · rfl
      · rename_i hreach
        cases hq : s.pollers[p]? with
        | none => rfl
        | some q => exact (Poller.empty_iff _).mp (h p max q hc hq (Bool.eq_false_of_not_eq_true hreach)) w
    · rfl
  · intro h p max q hc hq hreach
    rw [Poller.empty_iff]
    intro w
    have hw := h w
    simp only [strayPop, hc, hreach, Bool.false_eq_true, if_false, hq, Option.elim_some] at hw
    exact hw

theorem lossless_polled_iff (s : System) (p shard : ℕ) (fresh : List Wakeup) :
    s.Lossless (.polled (.worker p shard) fresh) ↔ ∀ w, s.strayPolled w (.worker p shard) fresh = 0 := by
  constructor
  · intro h w
    unfold strayPolled
    split
    · rename_i shard' stashed hhand
      have hshard : shard' = shard := by
        obtain ⟨q, _, hrest⟩ := Option.bind_eq_some_iff.mp hhand
        obtain ⟨hand, _, heq⟩ := Option.bind_eq_some_iff.mp hrest
        cases heq
        rfl
      subst hshard
      simp only [strayHand]
      split
      · rfl
      · rename_i hreach
        rw [Hand.returned, h stashed hhand (Bool.eq_false_of_not_eq_true hreach), packedCount_nil]
    · rfl
  · intro h stashed hhand hreach
    have hzero : ∀ w, packedCount w shard (stashed ++ fresh) = 0 := by
      intro w
      have hw := h w
      simp only [strayPolled, hhand, strayHand, hreach, Bool.false_eq_true, if_false] at hw
      exact hw
    exact packedCount_eq_zero hzero

theorem lossless_deliver_iff (s : System) (i : ℕ) :
    s.Lossless (.deliver (.call i)) ↔ ∀ w, s.strayDeliver w i = 0 := by
  constructor
  · intro h w
    unfold strayDeliver
    split
    · rename_i max out shard rotate blocking ws hc
      have hroom := h max out shard rotate blocking ws hc
      rw [writeWakeupsOut, List.drop_of_length_le (by rwa [List.length_map]), List.count_nil]
    · rfl
  · intro h max out shard rotate blocking ws hc
    have hnil : (ws.map (pack shard)).drop (max - out.length) = [] := by
      refine eq_nil_of_count fun w => ?_
      have hw := h w
      simp only [strayDeliver, hc] at hw
      exact hw
    simpa only [List.length_map] using List.drop_eq_nil_iff.mp hnil

theorem lossless_iff (s : System) (a : Action) : s.Lossless a ↔ ∀ w, s.stray w a = 0 := by
  cases a with
  | shutdown => exact lossless_shutdown_iff s
  | pop i => exact lossless_pop_iff s i
  | polled site fresh =>
    cases site with
    | worker p shard => exact lossless_polled_iff s p shard fresh
    | call i =>
      refine ⟨fun _ w => ?_, fun _ => trivial⟩
      simp only [stray, strayPolled]
      split <;> rfl
  | deliver site =>
    cases site with
    | worker p shard => exact ⟨fun _ _ => rfl, fun _ => trivial⟩
    | call i => exact lossless_deliver_iff s i
  | _ => exact ⟨fun _ _ => rfl, fun _ => trivial⟩

/-- The lost, the held and the written are all that was returned. -/
theorem total_eq (w : KaracWakeup) : s.total w = s.written w + s.held w + s.lost w := by
  have h := held_add_lost (w := w) (s := s)
  rw [total]
  omega

end System

end

namespace System

/-- Everything that was returned is somewhere. -/
def Counted (s : System) : Prop := ∀ w, s.total w = s.returned.count w

theorem counted_init (shards : ℕ) : (init shards).Counted := by
  intro w
  have hpending : (init shards).inPending w = 0 := by
    refine sumIdx_zero fun i ws h => ?_
    rw [List.eq_of_mem_replicate (List.mem_of_getElem? h)]
    rfl
  rw [total, hpending]
  rfl

theorem counted_step {s s' : System} {a : Action} (hs : s.Counted) (h : s.step a = some s') : s'.Counted := by
  intro w
  obtain ⟨n, hmoves⟩ := moves_step (w := w) h
  rw [hmoves.total, hmoves.returned, hs w]

theorem kept_iff_lost {s : System} (hs : s.Counted) : s.Kept ↔ ∀ w, s.lost w = 0 := by
  refine forall_congr' fun w => ?_
  have h := total_eq (s := s) w
  rw [hs w] at h
  omega

/-- Nothing that was lost is found again. -/
theorem lost_run {s s' : System} {as : List Action} (h : runSteps step s as = some s') :
    (∀ w, s'.lost w = 0) ↔ (∀ w, s.lost w = 0) ∧ AllSteps step Lossless s as := by
  induction as generalizing s with
  | nil =>
    cases h
    exact ⟨fun hzero => ⟨hzero, trivial⟩, And.left⟩
  | cons a as ih =>
    obtain ⟨t, ht, hrest⟩ := runSteps_cons.mp h
    rw [ih hrest]
    have hlost : ∀ w, t.lost w = s.lost w + s.stray w a := by
      intro w
      obtain ⟨n, hmoves⟩ := moves_step (w := w) ht
      exact hmoves.lost
    constructor
    · rintro ⟨hzero, hall⟩
      have hboth : ∀ w, s.lost w = 0 ∧ s.stray w a = 0 :=
        fun w => Nat.add_eq_zero_iff.mp ((hlost w).symm.trans (hzero w))
      refine ⟨fun w => (hboth w).1, (lossless_iff s a).mpr fun w => (hboth w).2, fun s' hs' => ?_⟩
      obtain rfl := Option.some.inj (ht.symm.trans hs')
      exact hall
    · rintro ⟨hzero, hlossless, hall⟩
      refine ⟨fun w => ?_, hall t ht⟩
      rw [hlost, hzero w, (lossless_iff s a).mp hlossless w]

end System

/-- A state of a run keeps every wakeup exactly where all steps before it were lossless. -/
theorem wakeups_kept_iff (shards : ℕ) (as : List Action) (s : System) (h : (System.init shards).run as = some s) :
    s.Kept ↔ AllSteps System.step System.Lossless (System.init shards) as := by
  have hcounted : s.Counted := runSteps_preserves (fun _ _ _ hs hstep => System.counted_step hs hstep)
    (System.counted_init shards) h
  rw [System.kept_iff_lost hcounted, System.lost_run h]
  exact and_iff_right fun _ => rfl

/-- A thread of the poller puts a wakeup into the queue. -/
def queued : List Action :=
  [.start, .turn (.worker 0 0), .takePending (.worker 0 0), .polled (.worker 0 0) [⟨1, 0, .read⟩],
    .deliver (.worker 0 0)]

/-- The poller is shut down, and the shard drained. -/
def stopped : List Action :=
  [.shutdown, .flag 0, .turn (.worker 0 0), .join 0, .turn (.call 0), .takePending (.call 0), .polled (.call 0) [],
    .deliver (.call 0), .turn (.call 0)]

theorem wakeups_kept_iff_queued : ∃ s, (System.init 1).run queued = some s ∧
    (s.Kept ↔ AllSteps System.step System.Lossless (System.init 1) queued) :=
  ⟨_, rfl, wakeups_kept_iff 1 queued _ rfl⟩

/-- The queue goes with the poller that is shut down. -/
theorem shutdown_loses_queue : ¬ ∀ (shards : ℕ) (as : List Action) (s : System),
    (System.init shards).run as = some s → s.Kept := by
  intro h
  have hkept := h 1 (queued ++ stopped) _ rfl (pack 0 ⟨1, 0, .read⟩)
  exact absurd hkept (by decide)

end Karac.Runtime.EventLoop
