import Mathlib

/-! The lock word protocol behind `lock` blocks: the inline fast path of the compiled code, the parking slow path
of the runtime, and what holds in every interleaving of their atomic steps. -/

namespace Karac.Runtime

/-- The bucket of a lock word's address. -/
def bucketFor (addr : ℕ) : ℕ := (addr >>> 4) % 64

/-- Where a thread stands. `running` is code outside acquire and release; every other place is inside
`parking::lock` or `parking::unlock_wake` for one lock word. -/
inductive Pc (Lock : Type)
  | running
  /-- about to swap 2 in, no bucket held: at the entry of the slow path, or after a wait -/
  | swapping (l : Lock)
  /-- the swap found the lock taken: about to lock the bucket -/
  | entering (l : Lock)
  /-- about to load the word, bucket held -/
  | checking (l : Lock)
  /-- the load answered 2: about to wait, bucket held -/
  | sleeping (l : Lock)
  /-- waiting on the bucket's condition variable -/
  | parked (l : Lock)
  /-- woken: about to take the bucket back inside `wait` -/
  | woken (l : Lock)
  /-- `wait` returned: about to drop its guard -/
  | waited (l : Lock)
  /-- the load answered another value: about to swap 2 in, bucket held -/
  | retrying (l : Lock)
  /-- swapped with the bucket held, the lock won or not: about to drop the guard -/
  | leaving (l : Lock) (won : Bool)
  /-- the release saw 2: about to lock the bucket -/
  | waking (l : Lock)
  /-- about to notify, bucket held -/
  | notifying (l : Lock)
  /-- notified: about to drop the guard -/
  | notified (l : Lock)
  deriving DecidableEq

namespace Pc

variable {Lock : Type}

/-- The lock word whose bucket guard the thread holds. -/
def guards : Pc Lock → Option Lock
  | checking l | sleeping l | waited l | retrying l | leaving l _ | notifying l | notified l => some l
  | _ => none

/-- The lock word for which the thread is parked, or past the check and about to park. -/
def asleep : Pc Lock → Option Lock
  | sleeping l | parked l => some l
  | _ => none

/-- The lock word whose bucket the thread is committed to notify. -/
def wakes : Pc Lock → Option Lock
  | waking l | notifying l => some l
  | _ => none

end Pc

/-- The lock words, the bucket mutexes, and of each thread its place and the locks it is inside of. -/
structure LockState (Thread Lock Bucket : Type) where
  word : Lock → ℤ
  mtx : Bucket → Option Thread
  pc : Thread → Pc Lock
  held : Thread → Finset Lock

variable {Thread Lock Bucket : Type} [DecidableEq Thread] [DecidableEq Lock] [DecidableEq Bucket]

namespace LockState

/-- Every word free, no bucket locked, no thread inside a lock. -/
def init : LockState Thread Lock Bucket := ⟨fun _ => 0, fun _ => none, fun _ => .running, fun _ => ∅⟩

variable (s : LockState Thread Lock Bucket)

def goto (t : Thread) (p : Pc Lock) : LockState Thread Lock Bucket := { s with pc := Function.update s.pc t p }

def setWord (l : Lock) (w : ℤ) : LockState Thread Lock Bucket := { s with word := Function.update s.word l w }

def lockBucket (b : Bucket) (t : Thread) : LockState Thread Lock Bucket :=
  { s with mtx := Function.update s.mtx b (some t) }

def dropGuard (b : Bucket) : LockState Thread Lock Bucket := { s with mtx := Function.update s.mtx b none }

def enter (t : Thread) (l : Lock) : LockState Thread Lock Bucket :=
  { s with held := Function.update s.held t (insert l (s.held t)) }

def exit (t : Thread) (l : Lock) : LockState Thread Lock Bucket :=
  { s with held := Function.update s.held t ((s.held t).erase l) }

/-- `notify_all`: every thread that waits on the bucket's condition variable, whatever its word. -/
def notifyAll (bucketOf : Lock → Bucket) (b : Bucket) : LockState Thread Lock Bucket :=
  { s with pc := fun u =>
      match s.pc u with
      | .parked l => if bucketOf l = b then .woken l else .parked l
      | p => p }

end LockState

/-- One atomic step of a thread. -/
inductive LockStep (bucketOf : Lock → Bucket) (s : LockState Thread Lock Bucket) :
    LockState Thread Lock Bucket → Prop
  -- acquire: the inline compare-and-swap
  | cmpxchgWon (t : Thread) (l : Lock) : s.pc t = .running → s.word l = 0 →
    LockStep bucketOf s ((s.setWord l 1).enter t l)
  | cmpxchgLost (t : Thread) (l : Lock) : s.pc t = .running → s.word l ≠ 0 →
    LockStep bucketOf s (s.goto t (.swapping l))
  -- acquire: `parking::lock`
  | swapWon (t : Thread) (l : Lock) : s.pc t = .swapping l → s.word l = 0 →
    LockStep bucketOf s (((s.setWord l 2).enter t l).goto t .running)
  | swapLost (t : Thread) (l : Lock) : s.pc t = .swapping l → s.word l ≠ 0 →
    LockStep bucketOf s ((s.setWord l 2).goto t (.entering l))
  | lockBucket (t : Thread) (l : Lock) : s.pc t = .entering l → s.mtx (bucketOf l) = none →
    LockStep bucketOf s ((s.lockBucket (bucketOf l) t).goto t (.checking l))
  | loadContended (t : Thread) (l : Lock) : s.pc t = .checking l → s.word l = 2 →
    LockStep bucketOf s (s.goto t (.sleeping l))
  | loadOther (t : Thread) (l : Lock) : s.pc t = .checking l → s.word l ≠ 2 →
    LockStep bucketOf s (s.goto t (.retrying l))
  | park (t : Thread) (l : Lock) : s.pc t = .sleeping l →
    LockStep bucketOf s ((s.dropGuard (bucketOf l)).goto t (.parked l))
  | wakeSpuriously (t : Thread) (l : Lock) : s.pc t = .parked l →
    LockStep bucketOf s (s.goto t (.woken l))
  | relockBucket (t : Thread) (l : Lock) : s.pc t = .woken l → s.mtx (bucketOf l) = none →
    LockStep bucketOf s ((s.lockBucket (bucketOf l) t).goto t (.waited l))
  | dropWaited (t : Thread) (l : Lock) : s.pc t = .waited l →
    LockStep bucketOf s ((s.dropGuard (bucketOf l)).goto t (.swapping l))
  | swapGuarded (t : Thread) (l : Lock) : s.pc t = .retrying l →
    LockStep bucketOf s ((s.setWord l 2).goto t (.leaving l (s.word l = 0)))
  | leaveWon (t : Thread) (l : Lock) : s.pc t = .leaving l true →
    LockStep bucketOf s (((s.dropGuard (bucketOf l)).enter t l).goto t .running)
  | leaveLost (t : Thread) (l : Lock) : s.pc t = .leaving l false →
    LockStep bucketOf s ((s.dropGuard (bucketOf l)).goto t (.entering l))
  -- release: the inline swap, then `parking::unlock_wake`
  | release (t : Thread) (l : Lock) : s.pc t = .running → l ∈ s.held t →
    LockStep bucketOf s (((s.setWord l 0).exit t l).goto t (if s.word l = 2 then .waking l else .running))
  | lockToWake (t : Thread) (l : Lock) : s.pc t = .waking l → s.mtx (bucketOf l) = none →
    LockStep bucketOf s ((s.lockBucket (bucketOf l) t).goto t (.notifying l))
  | notify (t : Thread) (l : Lock) : s.pc t = .notifying l →
    LockStep bucketOf s ((s.notifyAll bucketOf (bucketOf l)).goto t (.notified l))
  | dropNotified (t : Thread) (l : Lock) : s.pc t = .notified l →
    LockStep bucketOf s ((s.dropGuard (bucketOf l)).goto t .running)

/-- The states of every interleaving. -/
def LockReachable (bucketOf : Lock → Bucket) (s : LockState Thread Lock Bucket) : Prop :=
  Relation.ReflTransGen (LockStep bucketOf) .init s

/-- The thread holds the lock, or has just won it inside the slow path. -/
def Holds (s : LockState Thread Lock Bucket) (t : Thread) (l : Lock) : Prop :=
  l ∈ s.held t ∨ s.pc t = .leaving l true

/-! What the state operations change. -/

set_option linter.unusedSectionVars false

namespace LockState

variable (s : LockState Thread Lock Bucket) (t u : Thread) (l m : Lock) (b c : Bucket) (p : Pc Lock) (w : ℤ)

@[simp, grind =] theorem goto_pc : (s.goto t p).pc u = if u = t then p else s.pc u := Function.update_apply ..
@[simp, grind =] theorem goto_word : (s.goto t p).word = s.word := rfl
@[simp, grind =] theorem goto_mtx : (s.goto t p).mtx = s.mtx := rfl
@[simp, grind =] theorem goto_held : (s.goto t p).held = s.held := rfl
@[simp, grind =] theorem setWord_word : (s.setWord l w).word m = if m = l then w else s.word m :=
  Function.update_apply ..
@[simp, grind =] theorem setWord_pc : (s.setWord l w).pc = s.pc := rfl
@[simp, grind =] theorem setWord_mtx : (s.setWord l w).mtx = s.mtx := rfl
@[simp, grind =] theorem setWord_held : (s.setWord l w).held = s.held := rfl
@[simp, grind =] theorem lockBucket_mtx : (s.lockBucket b t).mtx c = if c = b then some t else s.mtx c :=
  Function.update_apply ..
@[simp, grind =] theorem lockBucket_pc : (s.lockBucket b t).pc = s.pc := rfl
@[simp, grind =] theorem lockBucket_word : (s.lockBucket b t).word = s.word := rfl
@[simp, grind =] theorem lockBucket_held : (s.lockBucket b t).held = s.held := rfl
@[simp, grind =] theorem dropGuard_mtx : (s.dropGuard b).mtx c = if c = b then none else s.mtx c :=
  Function.update_apply ..
@[simp, grind =] theorem dropGuard_pc : (s.dropGuard b).pc = s.pc := rfl
@[simp, grind =] theorem dropGuard_word : (s.dropGuard b).word = s.word := rfl
@[simp, grind =] theorem dropGuard_held : (s.dropGuard b).held = s.held := rfl
@[simp, grind =] theorem mem_enter_held : m ∈ (s.enter t l).held u ↔ (u = t ∧ m = l) ∨ m ∈ s.held u := by
  by_cases h : u = t
  · subst h; simp [enter]
  · simp [enter, h]
@[simp, grind =] theorem enter_pc : (s.enter t l).pc = s.pc := rfl
@[simp, grind =] theorem enter_word : (s.enter t l).word = s.word := rfl
@[simp, grind =] theorem enter_mtx : (s.enter t l).mtx = s.mtx := rfl
@[simp, grind =] theorem mem_exit_held : m ∈ (s.exit t l).held u ↔ m ∈ s.held u ∧ ¬ (u = t ∧ m = l) := by
  by_cases h : u = t
  · subst h; simp [exit, and_comm]
  · simp [exit, h]
@[simp, grind =] theorem exit_pc : (s.exit t l).pc = s.pc := rfl
@[simp, grind =] theorem exit_word : (s.exit t l).word = s.word := rfl
@[simp, grind =] theorem exit_mtx : (s.exit t l).mtx = s.mtx := rfl
@[simp, grind =] theorem notifyAll_word (f : Lock → Bucket) : (s.notifyAll f b).word = s.word := rfl
@[simp, grind =] theorem notifyAll_mtx (f : Lock → Bucket) : (s.notifyAll f b).mtx = s.mtx := rfl
@[simp, grind =] theorem notifyAll_held (f : Lock → Bucket) : (s.notifyAll f b).held = s.held := rfl

/-- A notification moves exactly the threads parked in the bucket. -/
theorem notifyAll_pc (f : Lock → Bucket) : (∃ l, s.pc u = .parked l ∧ f l = b ∧ (s.notifyAll f b).pc u = .woken l) ∨
    (∀ l, s.pc u = .parked l → f l ≠ b) ∧ (s.notifyAll f b).pc u = s.pc u := by
  unfold notifyAll
  cases hp : s.pc u with
  | parked l =>
    by_cases hb : f l = b
    · exact Or.inl ⟨l, rfl, hb, by simp [hp, hb]⟩
    · refine Or.inr ⟨?_, by simp [hp, hb]⟩
      intro l' hl'
      cases hl'
      exact hb
  | _ => refine Or.inr ⟨?_, by simp [hp]⟩; intro l' hl'; cases hl'

theorem notifyAll_notifying {s : LockState Thread Lock Bucket} {t : Thread} {l : Lock} (hp : s.pc t = .notifying l)
    (f : Lock → Bucket) (b : Bucket) : (s.notifyAll f b).pc t = .notifying l := by
  rcases s.notifyAll_pc t b f with ⟨m, hm, -, -⟩ | ⟨-, hsame⟩
  · rw [hp] at hm; cases hm
  · rw [hsame, hp]

end LockState

/-! The invariant, part by part. -/

variable {bucketOf : Lock → Bucket} {s s' : LockState Thread Lock Bucket}

/-- Who holds a bucket guard is on record in the bucket's mutex. -/
def GuardsRecorded (bucketOf : Lock → Bucket) (s : LockState Thread Lock Bucket) : Prop :=
  ∀ t l, (s.pc t).guards = some l → s.mtx (bucketOf l) = some t

/-- A word is nonzero exactly while some thread holds its lock, and one thread at most does. -/
structure WordsOwned (s : LockState Thread Lock Bucket) : Prop where
  states : ∀ l, s.word l = 0 ∨ s.word l = 1 ∨ s.word l = 2
  owned : ∀ l, s.word l ≠ 0 ↔ ∃ t, Holds s t l
  unique : ∀ l t u, Holds s t l → Holds s u l → t = u

/-- Who sleeps for a lock has marked its word, or is about to be notified. -/
def SleepersCovered (bucketOf : Lock → Bucket) (s : LockState Thread Lock Bucket) : Prop :=
  ∀ t l, (s.pc t).asleep = some l →
    s.word l = 2 ∨ ∃ u m, (s.pc u).wakes = some m ∧ bucketOf m = bucketOf l

theorem GuardsRecorded.goto (hi : GuardsRecorded bucketOf s) {t : Thread} {p : Pc Lock}
    (hp : p.guards = none ∨ p.guards = (s.pc t).guards) : GuardsRecorded bucketOf (s.goto t p) := by
  intro u m hu
  rw [LockState.goto_pc] at hu
  split_ifs at hu with hut
  · subst hut
    rcases hp with hp | hp
    · rw [hp] at hu; cases hu
    · exact hi u m (hp ▸ hu)
  · exact hi u m hu

theorem GuardsRecorded.lockBucket (hi : GuardsRecorded bucketOf s) {t : Thread} {l : Lock} {p : Pc Lock}
    (hfree : s.mtx (bucketOf l) = none) (hp : p.guards = some l) :
    GuardsRecorded bucketOf ((s.lockBucket (bucketOf l) t).goto t p) := by
  intro u m hu
  rw [LockState.goto_pc] at hu
  rw [LockState.goto_mtx, LockState.lockBucket_mtx]
  split_ifs at hu with hut
  · subst hut
    obtain rfl := Option.some.inj (hp.symm.trans hu)
    rw [if_pos rfl]
  · have hm := hi u m hu
    rw [if_neg (fun hb => by rw [hb, hfree] at hm; cases hm)]
    exact hm

theorem GuardsRecorded.dropGuard (hi : GuardsRecorded bucketOf s) {t : Thread} {l : Lock} {p : Pc Lock}
    (hl : (s.pc t).guards = some l) (hp : p.guards = none) :
    GuardsRecorded bucketOf ((s.dropGuard (bucketOf l)).goto t p) := by
  intro u m hu
  rw [LockState.goto_pc] at hu
  rw [LockState.goto_mtx, LockState.dropGuard_mtx]
  split_ifs at hu with hut
  · rw [hp] at hu; cases hu
  · have hm := hi u m hu
    -- the bucket of another guard is another bucket, since its mutex names one thread
    rw [if_neg (fun hb => hut (Option.some.inj ((hb ▸ hm).symm.trans (hi t l hl))))]
    exact hm

theorem GuardsRecorded.notifyAll (hi : GuardsRecorded bucketOf s) (b : Bucket) :
    GuardsRecorded bucketOf (s.notifyAll bucketOf b) := by
  intro u m hu
  rcases s.notifyAll_pc u b bucketOf with ⟨l, -, -, hw⟩ | ⟨-, hsame⟩
  · rw [hw] at hu; cases hu
  · rw [hsame] at hu
    exact hi u m hu

theorem guardsRecorded_step (h : LockStep bucketOf s s') (hi : GuardsRecorded bucketOf s) :
    GuardsRecorded bucketOf s' := by
  cases h with
  | cmpxchgWon t l hp hw => exact hi
  | cmpxchgLost t l hp hw => exact hi.goto (Or.inl rfl)
  | swapWon t l hp hw => exact GuardsRecorded.goto (s := (s.setWord l 2).enter t l) hi (Or.inl rfl)
  | swapLost t l hp hw => exact GuardsRecorded.goto (s := s.setWord l 2) hi (Or.inl rfl)
  | lockBucket t l hp hfree => exact hi.lockBucket hfree rfl
  | loadContended t l hp hw => exact hi.goto (Or.inr (by rw [hp]; rfl))
  | loadOther t l hp hw => exact hi.goto (Or.inr (by rw [hp]; rfl))
  | park t l hp => exact hi.dropGuard (by rw [hp]; rfl) rfl
  | wakeSpuriously t l hp => exact hi.goto (Or.inl rfl)
  | relockBucket t l hp hfree => exact hi.lockBucket hfree rfl
  | dropWaited t l hp => exact hi.dropGuard (by rw [hp]; rfl) rfl
  | swapGuarded t l hp => exact GuardsRecorded.goto (s := s.setWord l 2) hi (Or.inr (by rw [LockState.setWord_pc, hp]; rfl))
  | leaveWon t l hp => exact (hi.dropGuard (by rw [hp]; rfl) rfl : GuardsRecorded bucketOf ((s.dropGuard _).goto t .running))
  | leaveLost t l hp => exact hi.dropGuard (by rw [hp]; rfl) rfl
  | release t l hp hl =>
    refine GuardsRecorded.goto (s := (s.setWord l 0).exit t l) hi (Or.inl ?_)
    split_ifs
    · rfl
    · rfl
  | lockToWake t l hp hfree => exact hi.lockBucket hfree rfl
  | notify t l hp =>
    have hn : GuardsRecorded bucketOf (s.notifyAll bucketOf (bucketOf l)) := hi.notifyAll (bucketOf l)
    exact hn.goto (Or.inr (by rw [LockState.notifyAll_notifying hp]; rfl))
  | dropNotified t l hp => exact hi.dropGuard (by rw [hp]; rfl) rfl

/-! The four ways a step treats words and holders: leave them, take a free lock, mark a taken one, free one. -/

theorem WordsOwned.keep (hi : WordsOwned s) (hw : s'.word = s.word) (hh : ∀ u m, Holds s' u m ↔ Holds s u m) :
    WordsOwned s' where
  states m := by rw [hw]; exact hi.states m
  owned m := by simp only [hw, hh]; exact hi.owned m
  unique m u v hu hv := hi.unique m u v ((hh u m).mp hu) ((hh v m).mp hv)

theorem WordsOwned.take (hi : WordsOwned s) {t : Thread} {l : Lock} {w : ℤ} (hfree : s.word l = 0)
    (hw12 : w = 1 ∨ w = 2) (hw : ∀ m, s'.word m = if m = l then w else s.word m)
    (hh : ∀ u m, Holds s' u m ↔ (u = t ∧ m = l) ∨ Holds s u m) : WordsOwned s' := by
  have hnone : ∀ u, ¬ Holds s u l := fun u hu => (hi.owned l).mpr ⟨u, hu⟩ hfree
  refine ⟨fun m => ?_, fun m => ?_, fun m u v hu hv => ?_⟩
  · rw [hw]
    split_ifs with hm
    · omega
    · exact hi.states m
  · rw [hw]
    split_ifs with hm
    · exact ⟨fun _ => ⟨t, (hh t m).mpr (Or.inl ⟨rfl, hm⟩)⟩, fun _ => by omega⟩
    · simp only [hh, hm, and_false, false_or]
      exact hi.owned m
  · rw [hh] at hu hv
    by_cases hm : m = l
    · subst hm
      rcases hu with hu | hu
      · rcases hv with hv | hv
        · rw [hu.1, hv.1]
        · exact absurd hv (hnone v)
      · exact absurd hu (hnone u)
    · exact hi.unique m u v (hu.resolve_left fun h => hm h.2) (hv.resolve_left fun h => hm h.2)

theorem WordsOwned.mark (hi : WordsOwned s) {l : Lock} (htaken : s.word l ≠ 0)
    (hw : ∀ m, s'.word m = if m = l then 2 else s.word m) (hh : ∀ u m, Holds s' u m ↔ Holds s u m) :
    WordsOwned s' where
  states m := by
    rw [hw]
    split_ifs
    · exact Or.inr (Or.inr rfl)
    · exact hi.states m
  owned m := by
    simp only [hh]
    rw [hw]
    split_ifs with hm
    · exact ⟨fun _ => hm ▸ (hi.owned l).mp htaken, fun _ => by decide⟩
    · exact hi.owned m
  unique m u v hu hv := hi.unique m u v ((hh u m).mp hu) ((hh v m).mp hv)

theorem WordsOwned.free (hi : WordsOwned s) {t : Thread} {l : Lock} (hheld : Holds s t l)
    (hw : ∀ m, s'.word m = if m = l then 0 else s.word m)
    (hh : ∀ u m, Holds s' u m ↔ Holds s u m ∧ ¬ (u = t ∧ m = l)) : WordsOwned s' where
  states m := by
    rw [hw]
    split_ifs
    · exact Or.inl rfl
    · exact hi.states m
  owned m := by
    rw [hw]
    split_ifs with hm
    · subst hm
      refine ⟨fun h => absurd rfl h, fun ⟨u, hu⟩ => ?_⟩
      obtain ⟨hu, hne⟩ := (hh u m).mp hu
      exact absurd ⟨hi.unique m u t hu hheld, rfl⟩ hne
    · simp only [hh, hm, and_false, not_false_iff, and_true]
      exact hi.owned m
  unique m u v hu hv := hi.unique m u v ((hh u m).mp hu).1 ((hh v m).mp hv).1

theorem holds_goto {t : Thread} {p : Pc Lock} (hold : ∀ l, s.pc t ≠ .leaving l true) (hp : ∀ l, p ≠ .leaving l true)
    (u : Thread) (m : Lock) : Holds (s.goto t p) u m ↔ Holds s u m := by
  unfold Holds
  rw [LockState.goto_held, LockState.goto_pc]
  split_ifs with hut
  · subst hut
    simp only [hp m, hold m]
  · exact Iff.rfl

theorem holds_enter {t : Thread} {l : Lock} (u : Thread) (m : Lock) :
    Holds (s.enter t l) u m ↔ (u = t ∧ m = l) ∨ Holds s u m := by
  unfold Holds
  rw [LockState.mem_enter_held, LockState.enter_pc, or_assoc]

theorem holds_exit {t : Thread} {l : Lock} (hold : ∀ l, s.pc t ≠ .leaving l true) (u : Thread) (m : Lock) :
    Holds (s.exit t l) u m ↔ Holds s u m ∧ ¬ (u = t ∧ m = l) := by
  unfold Holds
  rw [LockState.mem_exit_held, LockState.exit_pc]
  have hsep : s.pc u = .leaving m true → ¬ (u = t ∧ m = l) := fun hu ⟨hut, _⟩ => hold m (hut ▸ hu)
  tauto

theorem holds_notifyAll (b : Bucket) (u : Thread) (m : Lock) : Holds (s.notifyAll bucketOf b) u m ↔ Holds s u m := by
  unfold Holds
  rw [LockState.notifyAll_held]
  rcases s.notifyAll_pc u b bucketOf with ⟨l, hp, -, hw⟩ | ⟨-, hsame⟩
  · simp only [hp, hw, reduceCtorEq]
  · rw [hsame]

theorem wordsOwned_step (h : LockStep bucketOf s s') (hi : WordsOwned s) : WordsOwned s' := by
  cases h with
  | cmpxchgWon t l hp hw =>
    exact hi.take hw (Or.inl rfl) (fun m => s.setWord_word l m 1) fun u m => holds_enter u m
  | cmpxchgLost t l hp hw => exact hi.keep rfl (holds_goto (by simp [hp]) (by simp))
  | swapWon t l hp hw =>
    have hh (u : Thread) (m : Lock) := holds_goto (s := (s.setWord l 2).enter t l) (t := t) (p := .running)
      (by simp [hp]) (by simp) u m
    exact hi.take hw (Or.inr rfl) (fun m => s.setWord_word l m 2) fun u m => (hh u m).trans (holds_enter u m)
  | swapLost t l hp hw =>
    exact hi.mark hw (fun m => s.setWord_word l m 2)
      (holds_goto (s := s.setWord l 2) (by simp [hp]) (by simp))
  | lockBucket t l hp hfree => exact hi.keep rfl (holds_goto (s := s.lockBucket _ t) (by simp [hp]) (by simp))
  | loadContended t l hp hw => exact hi.keep rfl (holds_goto (by simp [hp]) (by simp))
  | loadOther t l hp hw => exact hi.keep rfl (holds_goto (by simp [hp]) (by simp))
  | park t l hp => exact hi.keep rfl (holds_goto (s := s.dropGuard _) (by simp [hp]) (by simp))
  | wakeSpuriously t l hp => exact hi.keep rfl (holds_goto (by simp [hp]) (by simp))
  | relockBucket t l hp hfree => exact hi.keep rfl (holds_goto (s := s.lockBucket _ t) (by simp [hp]) (by simp))
  | dropWaited t l hp => exact hi.keep rfl (holds_goto (s := s.dropGuard _) (by simp [hp]) (by simp))
  | swapGuarded t l hp =>
    by_cases hw : s.word l = 0
    · -- the lock is won under the guard: `leaving` with the flag up counts as holding it
      refine hi.take hw (Or.inr rfl) (t := t) (fun m => s.setWord_word l m 2) fun u m => ?_
      unfold Holds
      rw [LockState.goto_held, LockState.goto_pc]
      by_cases hut : u = t
      · subst hut
        simp [hp, hw, or_comm, eq_comm]
      · simp [hut]
    · refine hi.mark hw (fun m => s.setWord_word l m 2)
        (holds_goto (s := s.setWord l 2) (by simp [hp]) (by simp [hw]))
  | leaveWon t l hp =>
    refine hi.keep rfl fun u m => ?_
    unfold Holds
    rw [LockState.goto_held, LockState.goto_pc, LockState.mem_enter_held]
    by_cases hut : u = t
    · subst hut
      simp [hp, or_comm, eq_comm]
    · simp [hut]
  | leaveLost t l hp => exact hi.keep rfl (holds_goto (s := s.dropGuard _) (by simp [hp]) (by simp))
  | release t l hp hl =>
    have hh (u : Thread) (m : Lock) := holds_goto (s := (s.setWord l 0).exit t l) (t := t)
      (p := if s.word l = 2 then .waking l else .running) (by simp [hp]) (by intro l'; split_ifs <;> simp) u m
    exact hi.free (Or.inl hl) (fun m => s.setWord_word l m 0) fun u m =>
      (hh u m).trans (holds_exit (s := s.setWord l 0) (by simp [hp]) u m)
  | lockToWake t l hp hfree => exact hi.keep rfl (holds_goto (s := s.lockBucket _ t) (by simp [hp]) (by simp))
  | notify t l hp =>
    have hh (u : Thread) (m : Lock) := holds_goto (s := s.notifyAll bucketOf (bucketOf l)) (t := t) (p := .notified l)
      (by simp [LockState.notifyAll_notifying hp]) (by simp) u m
    exact hi.keep rfl fun u m => (hh u m).trans (holds_notifyAll _ u m)
  | dropNotified t l hp => exact hi.keep rfl (holds_goto (s := s.dropGuard _) (by simp [hp]) (by simp))

/-! Who sleeps. -/

theorem SleepersCovered.goto (hi : SleepersCovered bucketOf s) {t : Thread} {p : Pc Lock}
    (hp : ∀ m, p.asleep = some m → s.word m = 2 ∨ (s.pc t).asleep = some m)
    (hold : (s.pc t).wakes = none ∨ p.wakes = (s.pc t).wakes) : SleepersCovered bucketOf (s.goto t p) := by
  intro u m hu
  have hsleep : s.word m = 2 ∨ (s.pc u).asleep = some m := by
    rw [LockState.goto_pc] at hu
    split_ifs at hu with hut
    · subst hut; exact hp m hu
    · exact Or.inr hu
  rcases hsleep with hw | hu
  · exact Or.inl hw
  rcases hi u m hu with hw | ⟨v, n, hv, hn⟩
  · exact Or.inl hw
  refine Or.inr ⟨v, n, ?_, hn⟩
  rw [LockState.goto_pc]
  split_ifs with hvt
  · subst hvt
    rcases hold with hold | hold
    · rw [hold] at hv; cases hv
    · rw [hold, hv]
  · exact hv

theorem SleepersCovered.setWord (hi : SleepersCovered bucketOf s) {l : Lock} {w : ℤ} (hw : s.word l = 2 → w = 2) :
    SleepersCovered bucketOf (s.setWord l w) := by
  intro u m hu
  rw [LockState.setWord_word]
  rcases hi u m hu with hm | hv
  · split_ifs with hml
    · exact Or.inl (hw (hml ▸ hm))
    · exact Or.inl hm
  · exact Or.inr hv

/-- The release of a contended word: the releaser owes its bucket a notification from then on. -/
theorem SleepersCovered.release (hi : SleepersCovered bucketOf s) {t : Thread} {l : Lock} (hp : s.pc t = .running) :
    SleepersCovered bucketOf (((s.setWord l 0).exit t l).goto t (.waking l)) := by
  intro u m hu
  have hut : u ≠ t := by
    rintro rfl
    simp [Pc.asleep] at hu
  rw [LockState.goto_pc, if_neg hut] at hu
  simp only [LockState.goto_pc, LockState.exit_pc, LockState.setWord_pc, LockState.goto_word, LockState.exit_word,
    LockState.setWord_word]
  split_ifs with hml
  · exact Or.inr ⟨t, l, by rw [if_pos rfl]; rfl, by rw [hml]⟩
  · rcases hi u m hu with hw | ⟨v, n, hv, hn⟩
    · exact Or.inl hw
    · have hvt : v ≠ t := by
        rintro rfl
        rw [hp] at hv; cases hv
      exact Or.inr ⟨v, n, by rw [if_neg hvt]; exact hv, hn⟩

theorem guards_of_sleeping {p : Pc Lock} {m : Lock} (h : p.asleep = some m) : p = .parked m ∨ p.guards = some m := by
  cases p with
  | sleeping l => exact Or.inr h
  | parked l => exact Or.inl (by rw [Option.some.inj h])
  | _ => cases h

/-- A notification leaves nobody asleep in its bucket: who is about to park there would hold the bucket. -/
theorem SleepersCovered.notify (hi : SleepersCovered bucketOf s) (hg : GuardsRecorded bucketOf s) {t : Thread}
    {l : Lock} (hp : s.pc t = .notifying l) :
    SleepersCovered bucketOf ((s.notifyAll bucketOf (bucketOf l)).goto t (.notified l)) := by
  intro u m hu
  have hut : u ≠ t := by
    rintro rfl
    simp [Pc.asleep] at hu
  rw [LockState.goto_pc, if_neg hut] at hu
  rcases s.notifyAll_pc u (bucketOf l) bucketOf with ⟨l', -, -, hwoken⟩ | ⟨hnot, hsame⟩
  · rw [hwoken] at hu; cases hu
  rw [hsame] at hu
  have hbucket : bucketOf m ≠ bucketOf l := by
    rcases guards_of_sleeping hu with hparked | hguard
    · exact hnot m hparked
    · intro hb
      have hmt : s.mtx (bucketOf l) = some t := hg t l (by rw [hp]; rfl)
      exact hut (Option.some.inj ((hg u m hguard).symm.trans (hb ▸ hmt)))
  rcases hi u m hu with hw | ⟨v, n, hv, hn⟩
  · exact Or.inl hw
  have hvt : v ≠ t := by
    rintro rfl
    rw [hp] at hv
    obtain rfl : l = n := Option.some.inj hv
    exact hbucket hn.symm
  refine Or.inr ⟨v, n, ?_, hn⟩
  rw [LockState.goto_pc, if_neg hvt]
  rcases s.notifyAll_pc v (bucketOf l) bucketOf with ⟨l', hparked, -, -⟩ | ⟨-, hsame'⟩
  · rw [hparked] at hv; cases hv
  · rw [hsame']; exact hv

theorem sleepersCovered_step (h : LockStep bucketOf s s') (hg : GuardsRecorded bucketOf s)
    (hi : SleepersCovered bucketOf s) : SleepersCovered bucketOf s' := by
  have hawake {p : Pc Lock} (hp : p.asleep = none) (t : Thread) (m : Lock) (hm : p.asleep = some m) :
      s.word m = 2 ∨ (s.pc t).asleep = some m := by rw [hp] at hm; cases hm
  cases h with
  | cmpxchgWon t l hp hw => exact hi.setWord (by omega)
  | cmpxchgLost t l hp hw => exact hi.goto (hawake rfl t) (Or.inl (by rw [hp]; rfl))
  | swapWon t l hp hw =>
    have hi' : SleepersCovered bucketOf (s.setWord l 2) := hi.setWord fun _ => rfl
    exact SleepersCovered.goto (s := (s.setWord l 2).enter t l) hi' (by simp [Pc.asleep]) (Or.inl (by simp [hp, Pc.wakes]))
  | swapLost t l hp hw =>
    have hi' : SleepersCovered bucketOf (s.setWord l 2) := hi.setWord fun _ => rfl
    exact hi'.goto (by simp [Pc.asleep]) (Or.inl (by simp [hp, Pc.wakes]))
  | lockBucket t l hp hfree =>
    exact SleepersCovered.goto (s := s.lockBucket _ t) hi (hawake rfl t) (Or.inl (by simp [hp, Pc.wakes]))
  | loadContended t l hp hw =>
    exact hi.goto (fun m hm => Or.inl (by rw [← Option.some.inj hm]; exact hw)) (Or.inl (by rw [hp]; rfl))
  | loadOther t l hp hw => exact hi.goto (hawake rfl t) (Or.inl (by rw [hp]; rfl))
  | park t l hp =>
    exact SleepersCovered.goto (s := s.dropGuard _) hi (fun m hm => Or.inr (by simpa [hp, Pc.asleep] using hm))
      (Or.inl (by simp [hp, Pc.wakes]))
  | wakeSpuriously t l hp => exact hi.goto (hawake rfl t) (Or.inl (by rw [hp]; rfl))
  | relockBucket t l hp hfree =>
    exact SleepersCovered.goto (s := s.lockBucket _ t) hi (hawake rfl t) (Or.inl (by simp [hp, Pc.wakes]))
  | dropWaited t l hp =>
    exact SleepersCovered.goto (s := s.dropGuard _) hi (hawake rfl t) (Or.inl (by simp [hp, Pc.wakes]))
  | swapGuarded t l hp =>
    have hi' : SleepersCovered bucketOf (s.setWord l 2) := hi.setWord fun _ => rfl
    exact hi'.goto (by simp [Pc.asleep]) (Or.inl (by simp [hp, Pc.wakes]))
  | leaveWon t l hp =>
    exact SleepersCovered.goto (s := (s.dropGuard _).enter t l) hi (hawake rfl t) (Or.inl (by simp [hp, Pc.wakes]))
  | leaveLost t l hp =>
    exact SleepersCovered.goto (s := s.dropGuard _) hi (hawake rfl t) (Or.inl (by simp [hp, Pc.wakes]))
  | release t l hp hl =>
    split_ifs with hw
    · exact hi.release hp
    · have hi' : SleepersCovered bucketOf (s.setWord l 0) := hi.setWord fun h => absurd h hw
      exact SleepersCovered.goto (s := (s.setWord l 0).exit t l) hi' (by simp [Pc.asleep])
        (Or.inl (by simp [hp, Pc.wakes]))
  | lockToWake t l hp hfree =>
    exact SleepersCovered.goto (s := s.lockBucket _ t) hi (hawake rfl t) (Or.inr (by simp [hp, Pc.wakes]))
  | notify t l hp => exact hi.notify hg hp
  | dropNotified t l hp =>
    exact SleepersCovered.goto (s := s.dropGuard _) hi (hawake rfl t) (Or.inl (by simp [hp, Pc.wakes]))

/-! Every interleaving. -/

structure LockInv (bucketOf : Lock → Bucket) (s : LockState Thread Lock Bucket) : Prop where
  guards : GuardsRecorded bucketOf s
  words : WordsOwned s
  sleepers : SleepersCovered bucketOf s

theorem lockInv_init : LockInv bucketOf (LockState.init : LockState Thread Lock Bucket) where
  guards t l h := by cases h
  words := ⟨fun l => Or.inl rfl, fun l => by simp [LockState.init, Holds], fun l t u ht => by simp [LockState.init, Holds] at ht⟩
  sleepers t l h := by cases h

theorem lockInv_step (h : LockStep bucketOf s s') (hi : LockInv bucketOf s) : LockInv bucketOf s' where
  guards := guardsRecorded_step h hi.guards
  words := wordsOwned_step h hi.words
  sleepers := sleepersCovered_step h hi.guards hi.sleepers

theorem lockInv_reachable (h : LockReachable bucketOf s) : LockInv bucketOf s := by
  induction h with
  | refl => exact lockInv_init
  | tail _ hstep ih => exact lockInv_step hstep ih

/-- In every reachable state one thread at most holds a lock, a word is nonzero exactly while its lock is held,
and over a parked thread whose word is not marked there is another thread about to notify the bucket. -/
theorem lock_word_safe (h : LockReachable bucketOf s) :
    (∀ l t u, Holds s t l → Holds s u l → t = u) ∧
      (∀ l, (s.word l = 0 ∨ s.word l = 1 ∨ s.word l = 2) ∧ (s.word l ≠ 0 ↔ ∃ t, Holds s t l)) ∧
      ∀ t l, s.pc t = .parked l → s.word l = 0 ∨ s.word l = 1 →
        ∃ u, u ≠ t ∧ ∃ m, (s.pc u).wakes = some m ∧ bucketOf m = bucketOf l := by
  have hi := lockInv_reachable h
  refine ⟨hi.words.unique, fun l => ⟨hi.words.states l, hi.words.owned l⟩, fun t l hp hw => ?_⟩
  rcases hi.sleepers t l (by rw [hp]; rfl) with hmarked | ⟨u, m, hu, hm⟩
  · omega
  · refine ⟨u, ?_, m, hu, hm⟩
    rintro rfl
    rw [hp] at hu; cases hu

section Handover

/-- Thread `false` is inside the lock at 16, `true` waits for it, and `false` has just freed the word. -/
def handover : LockState Bool ℕ ℕ :=
  let parked := ((((((((LockState.init.setWord 16 1).enter false 16).goto true (.swapping 16)).setWord 16 2).goto true
    (.entering 16)).lockBucket (bucketFor 16) true).goto true (.checking 16)).goto true (.sleeping 16)).dropGuard
    (bucketFor 16) |>.goto true (.parked 16)
  ((parked.setWord 16 0).exit false 16).goto false (if parked.word 16 = 2 then .waking 16 else .running)

theorem handover_reachable : LockReachable bucketFor handover := by
  have inside : LockReachable bucketFor ((LockState.init : LockState Bool ℕ ℕ).setWord 16 1 |>.enter false 16) :=
    .tail .refl (.cmpxchgWon false 16 rfl rfl)
  have lost := inside.tail (.cmpxchgLost true 16 rfl (by decide))
  have marked := lost.tail (.swapLost true 16 rfl (by decide))
  have locked := marked.tail (.lockBucket true 16 rfl rfl)
  have loaded := locked.tail (.loadContended true 16 rfl rfl)
  have parked := loaded.tail (.park true 16 rfl)
  exact parked.tail (.release false 16 rfl (by decide))

theorem lock_word_safe_handover : handover.word 16 = 0 ∧ handover.pc true = .parked 16 ∧
    ∃ u, u ≠ true ∧ ∃ m, (handover.pc u).wakes = some m ∧ bucketFor m = bucketFor 16 :=
  ⟨rfl, rfl, (lock_word_safe handover_reachable).2.2 true 16 rfl (Or.inl rfl)⟩

end Handover

/-- No wakeup is lost: once nobody is on the way in or out, a parked thread waits for a lock some thread is
inside of. -/
theorem parked_for_held (h : LockReachable bucketOf s)
    (hquiet : ∀ u, s.pc u = .running ∨ ∃ m, s.pc u = .parked m) {t : Thread} {l : Lock} (hp : s.pc t = .parked l) :
    ∃ u, l ∈ s.held u := by
  have hi := lockInv_reachable h
  have hmarked : s.word l = 2 := by
    rcases hi.sleepers t l (by rw [hp]; rfl) with hw | ⟨u, m, hu, -⟩
    · exact hw
    · rcases hquiet u with hrun | ⟨n, hn⟩
      · rw [hrun] at hu; cases hu
      · rw [hn] at hu; cases hu
  obtain ⟨u, hu | hu⟩ := (hi.words.owned l).mp (by omega)
  · exact ⟨u, hu⟩
  · rcases hquiet u with hrun | ⟨n, hn⟩
    · rw [hrun] at hu; cases hu
    · rw [hn] at hu; cases hu

theorem parked_for_held_inside : ∃ s : LockState Bool ℕ ℕ, LockReachable bucketFor s ∧ s.pc true = .parked 16 ∧
    ∃ u, 16 ∈ s.held u := by
  have inside : LockReachable bucketFor ((LockState.init : LockState Bool ℕ ℕ).setWord 16 1 |>.enter false 16) :=
    .tail .refl (.cmpxchgWon false 16 rfl rfl)
  have marked := (inside.tail (.cmpxchgLost true 16 rfl (by decide))).tail (.swapLost true 16 rfl (by decide))
  have loaded := (marked.tail (.lockBucket true 16 rfl rfl)).tail (.loadContended true 16 rfl rfl)
  have parked := loaded.tail (.park true 16 rfl)
  refine ⟨_, parked, rfl, parked_for_held parked (fun u => ?_) (t := true) rfl⟩
  cases u with
  | false => exact Or.inl rfl
  | true => exact Or.inr ⟨16, rfl⟩

end Karac.Runtime
