import Karac.Runtime.GroupJoin

/-! A task handle is freed once and never used after. The group frees a handle its owner is still using in two ways: the
sweep of another thread's registration runs between the two halves of a coroutine's `detach`, or the drain comes to a
handle whose spawner is still running. It leaks one that is registered after the drain has taken the list. In every run
without such a step each handle is freed exactly once. -/

namespace Karac.Runtime

namespace Handle

theorem act_done {x x' : Handle} {a : Act} (hpc : x.pc = .done) (ha : a.byOwner = true) : x.act a ≠ some x' := by
  intro h
  cases a <;> simp only [Act.byOwner, Bool.false_eq_true] at ha <;> simp only [act, usable] at h
  all_goals grind

theorem Sound.pushed_of_freed {x : Handle} (hx : x.Sound) (hg : x.grouped = true) (h0 : x.freed ≠ 0) :
    x.pushed = true := by
  have hgroup := hx.group hg
  unfold Grouped at hgroup
  grind [pushed]

end Handle

namespace Sched

variable {s s' : Sched}

/-- The thread that spawned the handle is through with it, or can make no call on it. -/
def quiet (s : Sched) (c : ℕ) : Bool := (s.handles[c]?).all fun x => x.pc = .done || !s.canAct x

/-- The group takes no late handle, and frees none from under the thread that spawned it. -/
def Settled (s : Sched) : Action → Prop
  | .push _ => s.phase = .opened ∧ ∀ c ∈ s.children, swept s.handles c = true → s.quiet c = true
  | .drainFree => ∀ c ∈ s.phase.awaited, s.quiet c = true
  | _ => True

instance (s : Sched) : (a : Action) → Decidable (s.Settled a)
  | .push _ => inferInstanceAs
      (Decidable (s.phase = .opened ∧ ∀ c ∈ s.children, swept s.handles c = true → s.quiet c = true))
  | .drainFree => inferInstanceAs (Decidable (∀ c ∈ s.phase.awaited, s.quiet c = true))
  | .spawn .. | .act .. | .take | .drainWait | .drainLoad | .freeGroup => isTrue trivial

theorem Settled.onTime {a : Action} (h : s.Settled a) : s.OnTime a := by
  cases a with
  | push h' => exact h.1
  | _ => trivial

/-- All parties have finished: the group, the workers and the owners. -/
def Finished (s : Sched) : Prop :=
  s.phase = .freed ∧ ∀ x ∈ s.handles, x.worker = .finished ∧ (x.pc = .done ∨ x.grouped = true ∧ x.pc = .kept)

instance (s : Sched) : Decidable s.Finished := by unfold Finished; infer_instance

/-- The thread makes no more calls on registered handles. -/
def Past (s : Sched) : Tid → Prop
  | none => s.phase ≠ .opened
  | some t => ∃ y, s.handles[t]? = some y ∧ y.worker ≠ .queued ∧ y.worker ≠ .running

theorem Past.step {a : Action} {u : Tid} (hu : s.Past u) (h : s.step a = some s') : s'.Past u := by
  cases u with
  | none => exact step_phase h hu
  | some t =>
    obtain ⟨y, hy, hqueued, hrunning⟩ := hu
    obtain ⟨y', hy', hlater⟩ := step_later h hy
    exact ⟨y', hy', hlater.started hqueued, hlater.stopped hqueued hrunning⟩

theorem Past.canAct {x : Handle} (hx : s.Past x.owner) (hg : x.grouped = true) : s.canAct x = false := by
  cases hu : x.owner with
  | none =>
    rw [hu] at hx
    have hphase : s.phase ≠ .opened := hx
    simp [Sched.canAct, hu, hg, hphase]
  | some t =>
    rw [hu] at hx
    obtain ⟨y, hy, -, hrunning⟩ := hx
    simp [Sched.canAct, hu, running, hy, hrunning]

structure Safe (s : Sched) : Prop where
  books : s.Books
  owners : ∀ (i : ℕ) (x : Handle) (t : ℕ), s.handles[i]? = some x → x.owner = some t →
    ∃ y, s.handles[t]? = some y ∧ y.worker ≠ .queued
  punctual : s.Punctual
  resting : ∀ (i : ℕ) (x : Handle), s.handles[i]? = some x → x.pushed = true → x.freed ≠ 0 →
    x.pc = .done ∨ s.Past x.owner
  noFault : s.handleFault = false

theorem safe_init : init.Safe := by
  refine ⟨books_init, ?_, punctual_init, ?_, rfl⟩ <;> simp [init]

theorem Safe.past (hs : s.Safe) {i : ℕ} {x : Handle} (hx : s.handles[i]? = some x) (hg : x.grouped = true)
    (hq : s.quiet i = true) : x.pc = .done ∨ s.Past x.owner := by
  simp only [quiet, hx, Option.all_some, Bool.or_eq_true, decide_eq_true_eq, Bool.not_eq_true'] at hq
  refine hq.imp_right fun hact => ?_
  cases hu : x.owner with
  | none =>
    intro hp
    simp [canAct, hu, hg, hp] at hact
  | some t =>
    obtain ⟨y, hy, hqueued⟩ := hs.owners i x t hx hu
    refine ⟨y, hy, hqueued, fun hrunning => ?_⟩
    simp [canAct, hu, running, hy, hrunning] at hact

/-- A handle in the group's list or still to be drained has not been freed. -/
theorem wasFreed_of_owed {handles : List Handle} {owed : List ℕ} (h : Accounts handles owed) {c : ℕ} (hc : c ∈ owed) :
    wasFreed handles c = false := by
  obtain ⟨x, hx, -, h0⟩ := (h.listed c).mp hc
  simp [wasFreed, hx, h0]

/-- Where a freed handle of the group was freed. -/
theorem step_freed {a : Action} (hs : s.Books) (h : s.step a = some s') {i : ℕ} {x' : Handle}
    (hi : s'.handles[i]? = some x') (hp : x'.pushed = true) (h0 : x'.freed ≠ 0) :
    ∃ x, s.handles[i]? = some x ∧ (x.pushed = true ∧ x.freed ≠ 0 ∨
      (∃ h, a = .push h) ∧ i ∈ s.children ∧ swept s.handles i = true ∨
      a = .drainFree ∧ i ∈ s.phase.awaited) := by
  cases a with
  | spawn u coro grouped =>
    obtain ⟨-, rfl⟩ := step_spawn.mp h
    by_cases hlt : i < s.handles.length
    · rw [List.getElem?_append_left hlt] at hi
      exact ⟨x', hi, Or.inl ⟨hp, h0⟩⟩
    · rw [List.getElem?_append_right (by omega), List.getElem?_singleton] at hi
      split at hi
      · cases hi
        exact absurd rfl h0
      · exact absurd hi (by simp)
  | act h' a =>
    obtain ⟨x, y, hx, hact, -, rfl⟩ := step_act.mp h
    by_cases hih : i = h'
    · subst hih
      rw [List.getElem?_set_self (List.getElem?_eq_some_iff.mp hx).1] at hi
      cases hi
      obtain ⟨hpushed, hfreed⟩ := (hs.accounts.sound i x hx).act_owed hact
      have hp' := hpushed ▸ hp
      exact ⟨x, hx, Or.inl ⟨hp', hfreed hp' ▸ h0⟩⟩
    · rw [List.getElem?_set_ne (Ne.symm hih)] at hi
      exact ⟨x', hi, Or.inl ⟨hp, h0⟩⟩
  | push h' =>
    obtain ⟨x, hx, ⟨hpc, -⟩, rfl⟩ := step_push.mp h
    rw [getElem?_freeAll, registering_get hx] at hi
    obtain ⟨-, hfreed, hdetached, -⟩ := (hs.accounts.sound h' x hx).kept hpc
    have hnotswept : swept (s.registering h' x) h' = false := by
      simp [swept, registering_get hx, hdetached]
    by_cases hih : i = h'
    · subst hih
      rw [if_pos rfl] at hi
      cases hi
      rw [List.count_eq_zero_of_not_mem fun hmem => by simpa [hnotswept] using List.of_mem_filter hmem] at h0
      exact absurd hfreed h0
    · rw [if_neg hih] at hi
      obtain ⟨y, hy, rfl⟩ := Option.map_eq_some_iff.mp hi
      refine ⟨y, hy, ?_⟩
      by_cases hmem : i ∈ (s.children ++ [h']).filter (swept (s.registering h' x))
      · obtain ⟨hlist, hsw⟩ := List.mem_filter.mp hmem
        have hchild : i ∈ s.children := by simpa [hih] using hlist
        refine Or.inr (Or.inl ⟨⟨h', rfl⟩, hchild, ?_⟩)
        simpa only [swept, registering_get hx, if_neg hih] using hsw
      · rw [List.count_eq_zero_of_not_mem hmem] at h0
        exact Or.inl ⟨hp, h0⟩
  | take =>
    obtain ⟨-, rfl⟩ := step_take.mp h
    exact ⟨x', hi, Or.inl ⟨hp, h0⟩⟩
  | drainWait =>
    obtain ⟨c, rest, x, -, -, -, rfl⟩ := step_drainWait.mp h
    exact ⟨x', hi, Or.inl ⟨hp, h0⟩⟩
  | drainLoad =>
    obtain ⟨c, rest, -, rfl⟩ := step_drainLoad.mp h
    exact ⟨x', hi, Or.inl ⟨hp, h0⟩⟩
  | drainFree =>
    obtain ⟨c, rest, hphase, rfl⟩ := step_drainFree.mp h
    rw [getElem?_freeAll] at hi
    obtain ⟨y, hy, rfl⟩ := Option.map_eq_some_iff.mp hi
    refine ⟨y, hy, ?_⟩
    by_cases hic : i = c
    · exact Or.inr (Or.inr ⟨rfl, by simp [hphase, GroupPhase.awaited, hic]⟩)
    · rw [List.count_eq_zero_of_not_mem (by simpa using hic)] at h0
      exact Or.inl ⟨hp, h0⟩
  | freeGroup =>
    obtain ⟨-, rfl⟩ := step_freeGroup.mp h
    exact ⟨x', hi, Or.inl ⟨hp, h0⟩⟩

theorem Safe.step_owners {a : Action} (hs : s.Safe) (h : s.step a = some s') {i : ℕ} {x' : Handle} {t : ℕ}
    (hi : s'.handles[i]? = some x') (hu : x'.owner = some t) : ∃ y, s'.handles[t]? = some y ∧ y.worker ≠ .queued := by
  obtain ⟨y, hy, hqueued⟩ : ∃ y, s.handles[t]? = some y ∧ y.worker ≠ .queued := by
    rcases step_handle h hi with ⟨x, hx, hlater⟩ | ⟨-, hmay⟩
    · exact hs.owners i x t hx (hlater.owner ▸ hu)
    · cases hy : s.handles[t]? with
      | none => simp [hu, maySpawn, running, hy] at hmay
      | some y =>
        have hrunning : y.worker = .running := by simpa [hu, maySpawn, running, hy] using hmay
        exact ⟨y, rfl, by simp [hrunning]⟩
  obtain ⟨y', hy', hlater⟩ := step_later h hy
  exact ⟨y', hy', hlater.started hqueued⟩

theorem Safe.step_resting {a : Action} (hs : s.Safe) (hc : s.Settled a) (h : s.step a = some s') {i : ℕ} {x' : Handle}
    (hi : s'.handles[i]? = some x') (hp : x'.pushed = true) (h0 : x'.freed ≠ 0) :
    x'.pc = .done ∨ s'.Past x'.owner := by
  obtain ⟨x, hx, hfreed⟩ := step_freed hs.books h hi hp h0
  obtain ⟨y, hy, hlater⟩ := step_later h hx
  rw [hi] at hy
  cases hy
  have hg : x.grouped = true := by
    simp only [Handle.pushed, Bool.and_eq_true] at hp
    exact hlater.grouped ▸ hp.1.1
  have hrest : x.pc = .done ∨ s.Past x.owner := by
    rcases hfreed with ⟨hpushed, hnonzero⟩ | ⟨⟨h', rfl⟩, hchild, hswept⟩ | ⟨rfl, hawaited⟩
    · exact hs.resting i x hx hpushed hnonzero
    · exact hs.past hx hg (hc.2 i hchild hswept)
    · exact hs.past hx hg (hc i hawaited)
  exact hrest.imp hlater.done fun hpast => hlater.owner ▸ hpast.step h

/-- No party takes a step on a freed handle. -/
theorem Safe.act_freed (hs : s.Safe) {i : ℕ} {x x' : Handle} {a : Act} (hx : s.handles[i]? = some x)
    (hact : x.act a = some x') (hmay : s.mayAct i x a = true) : x.freed = 0 := by
  have hsound := hs.books.accounts.sound i x hx
  cases ha : a.byOwner with
  | false => exact hsound.worker_act ha hact
  | true =>
    have hcan : s.canAct x = true := by simpa [mayAct, ha] using hmay
    by_contra h0
    by_cases hg : x.grouped = true
    · rcases hs.resting i x hx (hsound.pushed_of_freed hg h0) h0 with hdone | hpast
      · exact Handle.act_done hdone ha hact
      · exact absurd (hpast.canAct hg) (by simp [hcan])
    · exact h0 (hsound.owner_act (by simpa using hg) ha hact)

theorem Safe.step_noFault {a : Action} (hs : s.Safe) (h : s.step a = some s') : s'.handleFault = false := by
  have hpending : ∀ c ∈ s.phase.pending, wasFreed s.handles c = false := fun c hc =>
    wasFreed_of_owed hs.books.accounts (List.mem_append_right _ hc)
  cases a with
  | spawn u coro grouped =>
    obtain ⟨-, rfl⟩ := step_spawn.mp h
    exact hs.noFault
  | act h' a =>
    obtain ⟨x, x', hx, hact, hmay, rfl⟩ := step_act.mp h
    simp [hs.noFault, hs.act_freed hx hact hmay]
  | push h' =>
    obtain ⟨x, hx, ⟨hpc, -⟩, rfl⟩ := step_push.mp h
    have howed := hs.books.registering hx hpc
    simp only [hs.noFault, Bool.false_or, List.any_eq_false]
    exact fun c hc => by simp [wasFreed_of_owed howed (List.mem_append_left _ hc)]
  | take =>
    obtain ⟨-, rfl⟩ := step_take.mp h
    exact hs.noFault
  | drainWait =>
    obtain ⟨c, rest, x, hphase, hx, -, rfl⟩ := step_drainWait.mp h
    have hc := hpending c (by simp [hphase, GroupPhase.pending])
    simpa [hs.noFault, wasFreed, hx] using hc
  | drainLoad =>
    obtain ⟨c, rest, hphase, rfl⟩ := step_drainLoad.mp h
    simp [hs.noFault, hpending c (by simp [hphase, GroupPhase.pending])]
  | drainFree =>
    obtain ⟨c, rest, hphase, rfl⟩ := step_drainFree.mp h
    simp [hs.noFault, hpending c (by simp [hphase, GroupPhase.pending])]
  | freeGroup =>
    obtain ⟨-, rfl⟩ := step_freeGroup.mp h
    exact hs.noFault

theorem Safe.step {a : Action} (hs : s.Safe) (hc : s.Settled a) (h : s.step a = some s') : s'.Safe where
  books := hs.books.step h
  owners _ _ _ := hs.step_owners h
  punctual := hs.punctual.step hc.onTime h
  resting _ _ := hs.step_resting hc h
  noFault := hs.step_noFault h

theorem Safe.finished (hs : s.Safe) (hf : s.Finished) {x : Handle} (hx : x ∈ s.handles) : x.freed = 1 := by
  obtain ⟨i, hi⟩ := List.getElem?_of_mem hx
  have hsound := hs.books.accounts.sound i x hi
  obtain ⟨hworker, hpc⟩ := hf.2 x hx
  by_cases hg : x.grouped = true
  · have hpushed : x.pushed = true := by rcases hpc with hpc | ⟨-, hpc⟩ <;> simp [Handle.pushed, hg, hpc]
    exact (hs.punctual.freed hs.books hf.1 hi hpushed).2
  · have hdone : x.pc = .done := hpc.resolve_right fun h => hg h.1
    simpa [Handle.Alone, hdone, hworker] using (hsound.alone (by simpa using hg)).2

/-- The coroutine `0` ends while its `detach` is between the store and the load, and the sweep of the registration of
`2` by the child `1` frees it. -/
def coroRun : List Action :=
  [.spawn none true true, .act 0 .mark, .push 0, .spawn none false true, .act 1 .mark, .push 1, .act 1 .start,
    .act 0 .start, .act 0 .complete, .act 0 .detachCall, .act 0 .detachStore, .spawn (some 1) false true, .act 2 .mark,
    .push 2, .act 0 .detachLoad]

/-- The child `0` registers `1` before it is registered itself, and joins it after the drain has freed it. -/
def earlyRun : List Action :=
  [.spawn none false true, .act 0 .start, .spawn (some 0) false true, .act 1 .mark, .push 1, .act 0 .mark, .push 0,
    .take, .act 1 .start, .act 1 .complete, .drainWait, .drainFree, .act 1 .joinCall]

end Sched

end Karac.Runtime
