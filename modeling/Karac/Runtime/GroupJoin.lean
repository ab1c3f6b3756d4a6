import Karac.Runtime.SchedulerSteps

/-! `taskgroup_join_and_free` takes the group's list once. Every child is joined and freed before the group is exactly in
the runs in which none is registered after that. -/

namespace Karac.Runtime

namespace Sched

variable {s s' : Sched}

/-- No child enters the group's list after the drain has taken it. -/
def OnTime (s : Sched) : Action → Prop
  | .push _ => s.phase = .opened
  | _ => True

instance (s : Sched) (a : Action) : Decidable (s.OnTime a) := by
  cases a <;> unfold OnTime <;> infer_instance

/-- Every child in the group's list at any time has ended and has been freed, and no step was on the freed group. -/
def Joined (s : Sched) : Prop :=
  (∀ x ∈ s.handles, x.pushed = true → x.terminal = true ∧ x.freed = 1) ∧ s.groupFault = false

structure Punctual (s : Sched) : Prop where
  taken : s.phase ≠ .opened → s.children = []
  noFault : s.groupFault = false

theorem punctual_init : init.Punctual := ⟨fun _ => rfl, rfl⟩

theorem Punctual.step {a : Action} (hs : s.Punctual) (hc : s.OnTime a) (h : s.step a = some s') : s'.Punctual := by
  cases a with
  | spawn u coro grouped =>
    obtain ⟨-, rfl⟩ := step_spawn.mp h
    exact ⟨hs.taken, hs.noFault⟩
  | act h' a =>
    obtain ⟨x, x', -, -, -, rfl⟩ := step_act.mp h
    exact ⟨hs.taken, hs.noFault⟩
  | push h' =>
    obtain ⟨x, -, -, rfl⟩ := step_push.mp h
    have hphase : s.phase = .opened := hc
    exact ⟨fun hp => absurd hphase hp, by simp [hs.noFault, hphase]⟩
  | take =>
    obtain ⟨-, rfl⟩ := step_take.mp h
    exact ⟨fun _ => rfl, hs.noFault⟩
  | drainWait =>
    obtain ⟨c, rest, x, hphase, -, -, rfl⟩ := step_drainWait.mp h
    exact ⟨fun _ => hs.taken (by simp [hphase]), hs.noFault⟩
  | drainLoad =>
    obtain ⟨c, rest, hphase, rfl⟩ := step_drainLoad.mp h
    exact ⟨fun _ => hs.taken (by simp [hphase]), hs.noFault⟩
  | drainFree =>
    obtain ⟨c, rest, hphase, rfl⟩ := step_drainFree.mp h
    exact ⟨fun _ => hs.taken (by simp [hphase]), hs.noFault⟩
  | freeGroup =>
    obtain ⟨hphase, rfl⟩ := step_freeGroup.mp h
    exact ⟨fun _ => hs.taken (by simp [hphase]), hs.noFault⟩

/-- Once the group is freed it owes nothing. -/
theorem Punctual.freed (hs : s.Punctual) (hbooks : s.Books) (hp : s.phase = .freed) {i : ℕ} {x : Handle}
    (hx : s.handles[i]? = some x) (hpushed : x.pushed = true) : x.terminal = true ∧ x.freed = 1 := by
  have hnone : s.children ++ s.phase.pending = [] := by
    simp [hs.taken (by simp [hp]), hp, GroupPhase.pending]
  refine (hbooks.accounts.sound i x hx).of_freed hpushed fun h0 => ?_
  have howed := (hbooks.accounts.listed i).mpr ⟨x, hx, hpushed, h0⟩
  exact absurd (hnone ▸ howed) List.not_mem_nil

/-- A child in the list that no drain will take. -/
def Late (s : Sched) : Prop := s.phase ≠ .opened ∧ s.children ≠ []

/-- The sweep of a registration leaves the child that is registered. -/
theorem children_push_ne (hs : s.Books) {h : ℕ} (hstep : s.step (.push h) = some s') : s'.children ≠ [] := by
  obtain ⟨x, hx, ⟨hpc, -⟩, rfl⟩ := step_push.mp hstep
  obtain ⟨-, -, hdetached, -⟩ := (hs.accounts.sound h x hx).kept hpc
  have hmem : h ∈ (s.children ++ [h]).filter fun c => !swept (s.registering h x) c := by
    simp [swept, registering_get hx, hdetached]
  exact List.ne_nil_of_mem hmem

theorem Late.step {a : Action} (hl : s.Late) (hs : s.Books) (h : s.step a = some s') : s'.Late := by
  refine ⟨step_phase h hl.1, ?_⟩
  cases a with
  | spawn u coro grouped =>
    obtain ⟨-, rfl⟩ := step_spawn.mp h
    exact hl.2
  | act h' a =>
    obtain ⟨x, x', -, -, -, rfl⟩ := step_act.mp h
    exact hl.2
  | push h' => exact children_push_ne hs h
  | take => exact absurd (step_take.mp h).1.1 hl.1
  | drainWait =>
    obtain ⟨c, rest, x, -, -, -, rfl⟩ := step_drainWait.mp h
    exact hl.2
  | drainLoad =>
    obtain ⟨c, rest, -, rfl⟩ := step_drainLoad.mp h
    exact hl.2
  | drainFree =>
    obtain ⟨c, rest, -, rfl⟩ := step_drainFree.mp h
    exact hl.2
  | freeGroup =>
    obtain ⟨-, rfl⟩ := step_freeGroup.mp h
    exact hl.2

theorem not_joined_of_late (hl : s.Late) (hs : s.Books) : ¬s.Joined := by
  intro hj
  obtain ⟨c, hc⟩ := List.exists_mem_of_ne_nil _ hl.2
  obtain ⟨x, hx, hpushed, h0⟩ := (hs.accounts.listed c).mp (List.mem_append_left _ hc)
  have hfreed := (hj.1 x (List.mem_of_getElem? hx) hpushed).2
  omega

/-- When the drain has returned, it has joined and freed every registered child if and only if each was registered
before it took the list. -/
theorem joined_iff {as : List Action} (hrun : init.run as = some s) (hp : s.phase = .freed) :
    s.Joined ↔ Lib.AllSteps Sched.step OnTime init as := by
  constructor
  · intro hj
    by_contra hc
    obtain ⟨before, a, after, t, t', hbefore, ha, hstep, hafter⟩ := Lib.exists_step_of_not_allSteps hrun hc
    have hbooks : t.Books := books_run hbefore
    have hlate : t'.Late := by
      cases a with
      | push h => exact ⟨step_phase hstep ha, children_push_ne hbooks hstep⟩
      | _ => exact absurd trivial ha
    have hend : s.Late ∧ s.Books := Lib.runSteps_preserves (I := fun s => s.Late ∧ s.Books)
      (fun _ _ _ hs h => ⟨hs.1.step hs.2 h, hs.2.step h⟩) ⟨hlate, hbooks.step hstep⟩ hafter
    exact not_joined_of_late hend.1 hend.2 hj
  · intro hc
    have hpunctual : s.Punctual := Lib.runSteps_invariant (fun _ _ _ hs hc h => hs.step hc h) punctual_init hc hrun
    refine ⟨fun x hx hpushed => ?_, hpunctual.noFault⟩
    obtain ⟨i, hi⟩ := List.getElem?_of_mem hx
    exact hpunctual.freed (books_run hrun) hp hi hpushed

/-- The child `0` and its coroutine `1`, discarded at once; the coroutine's end frees nothing, the sweep of the next
registration frees it, and the drain frees the two others. -/
def sweptRun : List Action :=
  [.spawn none false true, .act 0 .mark, .push 0, .spawn none true true, .act 1 .mark, .push 1, .act 1 .detachCall,
    .act 1 .detachStore, .act 1 .detachLoad, .act 1 .start, .act 1 .complete, .spawn none false true, .act 2 .mark,
    .push 2, .act 0 .start, .act 2 .start, .act 2 .complete, .act 0 .complete, .act 0 .joinCall, .act 0 .joinWait, .take,
    .drainWait, .drainFree, .drainWait, .drainFree, .freeGroup]

/-- The child `0` spawns `1` into the group after the owner has taken the list. -/
def lateRun : List Action :=
  [.spawn none false true, .act 0 .mark, .push 0, .take, .act 0 .start, .spawn (some 0) false true, .act 1 .mark,
    .push 1, .act 1 .start, .act 1 .complete, .act 0 .complete, .drainWait, .drainFree, .freeGroup]

/-- The child `0` spawns `1` after the drain has taken the list, and `1` spawns `2` when the group is gone. -/
def outlivingRun : List Action :=
  [.spawn none false true, .act 0 .mark, .push 0, .take, .act 0 .start, .spawn (some 0) false true, .act 1 .mark,
    .push 1, .act 1 .start, .act 0 .complete, .drainWait, .drainFree, .freeGroup, .spawn (some 1) false true,
    .act 2 .mark, .push 2]

end Sched

end Karac.Runtime
