import Karac.Runtime.Scheduler

/-! Who frees a handle. The handle of a free spawn is freed by its joiner, or by whichever of the task's end and `detach`
comes second; a registered one by its group alone. Both are invariants of every step on one handle. -/

namespace Karac.Runtime

namespace Handle

/-- No one but the owner has anything to do with freeing the handle. -/
def Fresh (x : Handle) : Prop :=
  x.detached = false ∧ x.reaped = false ∧ x.armed = false ∧ x.freed = 0 ∧ x.worker ≠ .freeing

/-- A free spawn: at each point of `join` and `detach` there is exactly one party left that will free the handle. -/
def Alone (x : Handle) : Prop :=
  match x.pc with
  | .spawned => x.Fresh
  | .detaching => x.Fresh
  | .joining doFree => doFree = true ∧ x.Fresh
  | .waited doFree => doFree = true ∧ x.Fresh ∧ x.terminal = true
  | .joined => x.Fresh ∧ x.terminal = true
  | .flagged => x.coro = true ∧ x.armed = false ∧ x.freed = 0 ∧ x.worker ≠ .freeing
  | .arming => x.coro = true ∧ x.armed = false ∧ x.freed = 0 ∧ x.worker ≠ .freeing
  | .freeing => x.freed = 0 ∧ x.worker = .finished
  | .done =>
    match x.worker with
    | .finished => x.freed = 1
    | .freeing => x.freed = 0
    | _ => x.freed = 0 ∧ if x.coro then x.armed = true else x.detached = true ∧ x.reaped = false
  | .marked => False
  | .kept => False

/-- Spawned into the group: neither the task's end nor its owner frees it, and it is freed only once it is in the list. -/
def Grouped (x : Handle) : Prop :=
  x.armed = false ∧ x.worker ≠ .freeing ∧
    match x.pc with
    | .spawned => x.registered = false ∧ x.detached = false ∧ x.freed = 0
    | .marked => x.registered = true ∧ x.detached = false ∧ x.freed = 0
    | .kept => x.registered = true ∧ x.detached = false ∧ (0 < x.freed → x.freed = 1 ∧ x.terminal = true)
    | .detaching => x.registered = true ∧ x.detached = false ∧ (0 < x.freed → x.freed = 1 ∧ x.terminal = true)
    | .joining doFree =>
      doFree = false ∧ x.registered = true ∧ x.detached = false ∧ (0 < x.freed → x.freed = 1 ∧ x.terminal = true)
    | .waited doFree =>
      doFree = false ∧ x.registered = true ∧ x.detached = false ∧ (0 < x.freed → x.freed = 1 ∧ x.terminal = true)
    | .flagged => x.registered = true ∧ (0 < x.freed → x.freed = 1 ∧ x.terminal = true)
    | .done => x.registered = true ∧ (0 < x.freed → x.freed = 1 ∧ x.terminal = true)
    | _ => False

attribute [local simp] act

structure Sound (x : Handle) : Prop where
  ended : x.terminal = true ↔ x.worker = .freeing ∨ x.worker = .finished
  alone : x.grouped = false → x.registered = false ∧ x.Alone
  group : x.grouped = true → x.Grouped

theorem sound_spawn (coro grouped : Bool) (owner : Tid) : (spawn coro grouped owner).Sound := by
  refine ⟨by simp [spawn], fun h => ?_, fun h => ?_⟩
  · simp [spawn, Alone, Fresh]
  · simp [spawn, Grouped]

theorem act_frame {x x' : Handle} {a : Act} (h : x.act a = some x') :
    x'.coro = x.coro ∧ x'.grouped = x.grouped ∧ x'.owner = x.owner := by
  cases a <;> simp only [act] at h
  all_goals grind [complete, detach, free]

theorem act_ended {x x' : Handle} {a : Act} (h : x.act a = some x')
    (ht : x.terminal = true ↔ x.worker = .freeing ∨ x.worker = .finished) :
    x'.terminal = true ↔ x'.worker = .freeing ∨ x'.worker = .finished := by
  cases a <;> simp only [act] at h
  all_goals grind [complete, detach, free]

theorem Alone.act {x x' : Handle} {a : Act} (hg : x.grouped = false) (hr : x.registered = false)
    (ht : x.terminal = true ↔ x.worker = .freeing ∨ x.worker = .finished) (hx : x.Alone) (h : x.act a = some x') :
    x'.registered = false ∧ x'.Alone := by
  cases a with
  | start =>
    obtain ⟨hworker, rfl⟩ : x.worker = .queued ∧ { x with worker := .running } = x' := by simpa [Handle.act] using h
    refine ⟨hr, ?_⟩
    unfold Alone Fresh at hx ⊢
    cases hpc : x.pc <;> simp_all
  | work =>
    obtain ⟨-, rfl⟩ : x.worker = .running ∧ x = x' := by simpa [Handle.act] using h
    exact ⟨hr, hx⟩
  | complete =>
    obtain ⟨hworker, rfl⟩ : x.worker = .running ∧ x.complete = x' := by simpa [Handle.act] using h
    unfold Alone Fresh at hx
    unfold complete Alone Fresh
    cases hpc : x.pc <;> grind
  | reap =>
    obtain ⟨hworker, rfl⟩ : x.worker = .freeing ∧ { x.free with worker := .finished } = x' := by
      simpa [Handle.act] using h
    refine ⟨hr, ?_⟩
    unfold Alone Fresh at hx
    unfold free Alone Fresh
    cases hpc : x.pc <;> grind
  | _ =>
    -- a step of the owner says where the owner stands
    simp only [Handle.act] at h
    grind [Alone, Fresh, usable, detach, free]

theorem Grouped.claims {x : Handle} (hx : x.Grouped) : (!x.registered && x.detached) = false := by
  obtain ⟨-, -, hpc⟩ := hx
  split at hpc
  all_goals simp_all only [Bool.not_true, Bool.not_false, Bool.and_false, Bool.false_and]

/-- The end of a registered task frees nothing. -/
theorem Grouped.complete_eq {x : Handle} (hx : x.Grouped) :
    x.complete = { x with terminal := true, worker := .finished } := by
  unfold complete
  cases x.coro <;> simp [hx.1, hx.claims]

theorem Grouped.completed {x : Handle} (hx : x.Grouped) : x.complete.Grouped := by
  rw [hx.complete_eq]
  obtain ⟨harmed, -, hpc⟩ := hx
  refine ⟨harmed, nofun, ?_⟩
  revert hpc
  cases x.pc <;> grind

theorem Grouped.act {x x' : Handle} {a : Act} (hg : x.grouped = true) (hx : x.Grouped) (h : x.act a = some x') :
    x'.Grouped := by
  cases a with
  | start =>
    obtain ⟨-, rfl⟩ : x.worker = .queued ∧ { x with worker := .running } = x' := by simpa [Handle.act] using h
    exact ⟨hx.1, nofun, hx.2.2⟩
  | work =>
    obtain ⟨-, rfl⟩ : x.worker = .running ∧ x = x' := by simpa [Handle.act] using h
    exact hx
  | complete =>
    obtain ⟨-, rfl⟩ : x.worker = .running ∧ x.complete = x' := by simpa [Handle.act] using h
    exact hx.completed
  | _ =>
    simp only [Handle.act] at h
    grind [Grouped, usable, detach, free]

/-- Neither the owner nor the worker frees a registered handle, or changes whether the group has it. -/
theorem Grouped.act_frame {x x' : Handle} {a : Act} (hg : x.grouped = true) (hx : x.Grouped) (h : x.act a = some x') :
    x'.freed = x.freed ∧ x'.pushed = x.pushed := by
  cases a <;> simp only [Handle.act] at h
  all_goals grind [Grouped, pushed, usable, complete, detach]

theorem Sound.act {x x' : Handle} {a : Act} (hx : x.Sound) (h : x.act a = some x') : x'.Sound := by
  obtain ⟨-, hgrouped, -⟩ := act_frame h
  refine ⟨act_ended h hx.ended, fun hg => ?_, fun hg => ?_⟩
  · have halone := hx.alone (hgrouped ▸ hg)
    exact Alone.act (hgrouped ▸ hg) halone.1 hx.ended halone.2 h
  · exact Grouped.act (hgrouped ▸ hg) (hx.group (hgrouped ▸ hg)) h

theorem Sound.freed_le {x : Handle} (hx : x.Sound) : x.freed ≤ 1 := by
  cases hg : x.grouped with
  | false =>
    have halone := (hx.alone hg).2
    unfold Alone Fresh at halone
    grind
  | true =>
    have hgroup := hx.group hg
    unfold Grouped at hgroup
    grind

/-- A worker that may still touch the handle finds it there. -/
theorem Sound.worker_act {x x' : Handle} {a : Act} (hx : x.Sound) (ha : a.byOwner = false) (h : x.act a = some x') :
    x.freed = 0 := by
  cases hg : x.grouped with
  | false =>
    have halone := (hx.alone hg).2
    unfold Alone Fresh at halone
    cases a <;> simp only [Act.byOwner, Bool.true_eq_false] at ha <;> simp only [Handle.act] at h
    all_goals grind
  | true =>
    have hgroup := hx.group hg
    unfold Grouped at hgroup
    have hended := hx.ended
    cases a <;> simp only [Act.byOwner, Bool.true_eq_false] at ha <;> simp only [Handle.act] at h
    all_goals grind

/-- Whoever owns a free spawn and has steps left finds it there. -/
theorem Sound.owner_act {x x' : Handle} {a : Act} (hx : x.Sound) (hg : x.grouped = false) (ha : a.byOwner = true)
    (h : x.act a = some x') : x.freed = 0 := by
  have halone := (hx.alone hg).2
  unfold Alone Fresh at halone
  cases a <;> simp only [Act.byOwner, Bool.false_eq_true] at ha <;> simp only [Handle.act, usable] at h
  all_goals grind

end Handle

end Karac.Runtime
