import Karac.Runtime.GroupAccounts

/-! What one step of the scheduler does, and the group's books in every run. -/

namespace Karac.Runtime

/-- `x'` is `x` after any number of steps. -/
structure Handle.Later (x x' : Handle) : Prop where
  owner : x'.owner = x.owner
  grouped : x'.grouped = x.grouped
  terminal : x.terminal = true → x'.terminal = true
  started : x.worker ≠ .queued → x'.worker ≠ .queued
  stopped : x.worker ≠ .queued → x.worker ≠ .running → x'.worker ≠ .running
  done : x.pc = .done → x'.pc = .done

namespace Handle.Later

theorem refl (x : Handle) : x.Later x := ⟨rfl, rfl, id, id, fun _ => id, id⟩

theorem trans {x y z : Handle} (h : x.Later y) (h' : y.Later z) : x.Later z :=
  ⟨h'.owner.trans h.owner, h'.grouped.trans h.grouped, h'.terminal ∘ h.terminal, h'.started ∘ h.started,
    fun hq hr => h'.stopped (h.started hq) (h.stopped hq hr), h'.done ∘ h.done⟩

theorem act {x x' : Handle} {a : Act} (h : x.act a = some x') : x.Later x' := by
  obtain ⟨-, hgrouped, howner⟩ := act_frame h
  refine ⟨howner, hgrouped, ?_, ?_, ?_, ?_⟩ <;> cases a <;> simp only [Handle.act] at h
  all_goals grind [usable, complete, detach, free]

theorem kept {x : Handle} (hpc : x.pc = .marked) : x.Later { x with pc := .kept } :=
  ⟨rfl, rfl, id, id, fun _ => id, fun h => absurd (hpc.symm.trans h) (by simp)⟩

theorem freed (x : Handle) (n : ℕ) : x.Later { x with freed := n } := ⟨rfl, rfl, id, id, fun _ => id, id⟩

end Handle.Later

/-- The child that `join_inner` has waited for. -/
def GroupPhase.awaited : GroupPhase → Option ℕ
  | .loading c _ => some c
  | .freeing c _ => some c
  | _ => none

namespace Sched

variable {s s' : Sched}

theorem step_spawn {u : Tid} {coro grouped : Bool} : s.step (.spawn u coro grouped) = some s' ↔
    (s.maySpawn u = true ∧ (grouped = true → s.mayRegister u = true)) ∧
      { s with handles := s.handles ++ [.spawn coro grouped u] } = s' := by
  cases grouped <;> simp [step]

theorem step_act {h : ℕ} {a : Act} : s.step (.act h a) = some s' ↔ ∃ x x', s.handles[h]? = some x ∧
    x.act a = some x' ∧ s.mayAct h x a = true ∧
      { s with handles := s.handles.set h x', handleFault := s.handleFault || 0 < x.freed } = s' := by
  simp [step, Option.bind_eq_some_iff]

/-- The group's list and the handles of the critical section of `taskgroup_register`, before the sweep. -/
def registering (s : Sched) (h : ℕ) (x : Handle) : List Handle := s.handles.set h { x with pc := .kept }

theorem step_push {h : ℕ} : s.step (.push h) = some s' ↔ ∃ x, s.handles[h]? = some x ∧
    (x.pc = .marked ∧ s.canAct x = true) ∧
      { s with
        handles := freeAll (s.registering h x) ((s.children ++ [h]).filter (swept (s.registering h x)))
        children := (s.children ++ [h]).filter fun c => !swept (s.registering h x) c
        handleFault := s.handleFault || (s.children ++ [h]).any (wasFreed (s.registering h x))
        groupFault := s.groupFault || s.phase = .freed } = s' := by
  simp [step, registering, Option.bind_eq_some_iff]

theorem step_take : s.step .take = some s' ↔
    (s.phase = .opened ∧ ∀ x ∈ s.handles, x.grouped = true → x.released none = true) ∧
      { s with phase := .draining s.children, children := [] } = s' := by
  simp only [step, Option.ite_none_right_eq_some, Option.some.injEq, Bool.and_eq_true, decide_eq_true_eq,
    List.all_eq_true, Bool.or_eq_true, Bool.not_eq_true', ← Bool.not_eq_true]
  constructor
  · rintro ⟨⟨hp, hall⟩, rfl⟩
    exact ⟨⟨hp, fun x hx hg => (hall x hx).resolve_left (not_not_intro hg)⟩, rfl⟩
  · rintro ⟨⟨hp, hall⟩, rfl⟩
    refine ⟨⟨hp, fun x hx => ?_⟩, rfl⟩
    by_cases hg : x.grouped = true
    · exact Or.inr (hall x hx hg)
    · exact Or.inl hg

theorem step_drainWait : s.step .drainWait = some s' ↔ ∃ c rest x, s.phase = .draining (c :: rest) ∧
    s.handles[c]? = some x ∧ x.terminal = true ∧
      { s with
        phase := if x.coro then .loading c rest else .freeing c rest
        handleFault := s.handleFault || 0 < x.freed } = s' := by
  simp only [step]
  split
  · rename_i c rest hp
    simp only [Option.bind_eq_bind, Option.bind_eq_some_iff, Option.ite_none_right_eq_some, Option.some.injEq]
    constructor
    · rintro ⟨x, hx, ht, rfl⟩
      exact ⟨c, rest, x, hp, hx, ht, rfl⟩
    · rintro ⟨c', rest', x, hp', hx, ht, rfl⟩
      obtain ⟨rfl, rfl⟩ : c = c' ∧ rest = rest' := by simpa [hp] using hp'
      exact ⟨x, hx, ht, rfl⟩
  · rename_i hne
    constructor
    · intro h
      cases h
    · rintro ⟨c, rest, x, hp, -⟩
      exact absurd hp (hne c rest)

theorem step_drainLoad : s.step .drainLoad = some s' ↔ ∃ c rest, s.phase = .loading c rest ∧
    { s with phase := .freeing c rest, handleFault := s.handleFault || wasFreed s.handles c } = s' := by
  simp only [step]
  cases hp : s.phase <;> simp

theorem step_drainFree : s.step .drainFree = some s' ↔ ∃ c rest, s.phase = .freeing c rest ∧
    { s with
      handles := freeAll s.handles [c]
      phase := .draining rest
      handleFault := s.handleFault || wasFreed s.handles c } = s' := by
  simp only [step]
  cases hp : s.phase <;> simp

theorem step_freeGroup : s.step .freeGroup = some s' ↔
    s.phase = .draining [] ∧ { s with phase := .freed } = s' := by
  simp [step]

theorem later_set {handles : List Handle} {h i : ℕ} {x x' y : Handle} (hh : handles[h]? = some x)
    (hlater : x.Later x') (hi : handles[i]? = some y) : ∃ y', (handles.set h x')[i]? = some y' ∧ y.Later y' := by
  have hlt := (List.getElem?_eq_some_iff.mp hh).1
  by_cases hih : i = h
  · subst hih
    rw [hh] at hi
    cases hi
    exact ⟨x', List.getElem?_set_self hlt, hlater⟩
  · exact ⟨y, by rw [List.getElem?_set_ne (Ne.symm hih), hi], .refl y⟩

theorem later_freeAll {handles : List Handle} (dead : List ℕ) {i : ℕ} {y : Handle} (hi : handles[i]? = some y) :
    ∃ y', (freeAll handles dead)[i]? = some y' ∧ y.Later y' :=
  ⟨_, by rw [getElem?_freeAll, hi]; rfl, .freed y _⟩

/-- No handle goes away, and none goes back. -/
theorem step_later {a : Action} (h : s.step a = some s') {i : ℕ} {y : Handle} (hi : s.handles[i]? = some y) :
    ∃ y', s'.handles[i]? = some y' ∧ y.Later y' := by
  cases a with
  | spawn u coro grouped =>
    obtain ⟨-, rfl⟩ := step_spawn.mp h
    exact ⟨y, (List.getElem?_append_left (List.getElem?_eq_some_iff.mp hi).1).trans hi, .refl y⟩
  | act h' a =>
    obtain ⟨x, x', hx, hact, -, rfl⟩ := step_act.mp h
    exact later_set hx (.act hact) hi
  | push h' =>
    obtain ⟨x, hx, ⟨hpc, -⟩, rfl⟩ := step_push.mp h
    obtain ⟨y', hy', hlater⟩ := later_set hx (.kept hpc) hi
    obtain ⟨y'', hy'', hlater'⟩ := later_freeAll _ hy'
    exact ⟨y'', hy'', hlater.trans hlater'⟩
  | take =>
    obtain ⟨-, rfl⟩ := step_take.mp h
    exact ⟨y, hi, .refl y⟩
  | drainWait =>
    obtain ⟨c, rest, x, -, -, -, rfl⟩ := step_drainWait.mp h
    exact ⟨y, hi, .refl y⟩
  | drainLoad =>
    obtain ⟨c, rest, -, rfl⟩ := step_drainLoad.mp h
    exact ⟨y, hi, .refl y⟩
  | drainFree =>
    obtain ⟨c, rest, -, rfl⟩ := step_drainFree.mp h
    exact later_freeAll _ hi
  | freeGroup =>
    obtain ⟨-, rfl⟩ := step_freeGroup.mp h
    exact ⟨y, hi, .refl y⟩

theorem length_freeAll (handles : List Handle) (dead : List ℕ) : (freeAll handles dead).length = handles.length :=
  List.length_mapIdx

theorem step_length {a : Action} (h : s.step a = some s') :
    s'.handles.length = s.handles.length ∨ ∃ u coro grouped, a = .spawn u coro grouped := by
  cases a with
  | spawn u coro grouped => exact Or.inr ⟨u, coro, grouped, rfl⟩
  | act h' a =>
    obtain ⟨x, x', -, -, -, rfl⟩ := step_act.mp h
    exact Or.inl List.length_set
  | push h' =>
    obtain ⟨x, -, -, rfl⟩ := step_push.mp h
    exact Or.inl ((length_freeAll ..).trans List.length_set)
  | take =>
    obtain ⟨-, rfl⟩ := step_take.mp h
    exact Or.inl rfl
  | drainWait =>
    obtain ⟨c, rest, x, -, -, -, rfl⟩ := step_drainWait.mp h
    exact Or.inl rfl
  | drainLoad =>
    obtain ⟨c, rest, -, rfl⟩ := step_drainLoad.mp h
    exact Or.inl rfl
  | drainFree =>
    obtain ⟨c, rest, -, rfl⟩ := step_drainFree.mp h
    exact Or.inl (length_freeAll ..)
  | freeGroup =>
    obtain ⟨-, rfl⟩ := step_freeGroup.mp h
    exact Or.inl rfl

/-- A handle is an old one after the step, or that of a task just spawned. -/
theorem step_handle {a : Action} (h : s.step a = some s') {i : ℕ} {x' : Handle} (hi : s'.handles[i]? = some x') :
    (∃ x, s.handles[i]? = some x ∧ x.Later x') ∨
      (∃ coro grouped, x' = .spawn coro grouped x'.owner) ∧ s.maySpawn x'.owner = true := by
  by_cases hlt : i < s.handles.length
  · obtain ⟨y, hy, hlater⟩ := step_later h (List.getElem?_eq_getElem hlt)
    rw [hi] at hy
    cases hy
    exact Or.inl ⟨_, List.getElem?_eq_getElem hlt, hlater⟩
  · have hnew := (List.getElem?_eq_some_iff.mp hi).1
    obtain ⟨u, coro, grouped, rfl⟩ := (step_length h).resolve_left (by omega)
    obtain ⟨⟨hmay, -⟩, rfl⟩ := step_spawn.mp h
    rw [List.getElem?_append_right (by omega), List.getElem?_singleton] at hi
    split at hi
    · cases hi
      exact Or.inr ⟨⟨coro, grouped, rfl⟩, hmay⟩
    · exact absurd hi (by simp)

theorem step_phase {a : Action} (h : s.step a = some s') (hp : s.phase ≠ .opened) : s'.phase ≠ .opened := by
  cases a with
  | spawn u coro grouped =>
    obtain ⟨-, rfl⟩ := step_spawn.mp h
    exact hp
  | act h' a =>
    obtain ⟨x, x', -, -, -, rfl⟩ := step_act.mp h
    exact hp
  | push h' =>
    obtain ⟨x, -, -, rfl⟩ := step_push.mp h
    exact hp
  | take => exact absurd (step_take.mp h).1.1 hp
  | drainWait =>
    obtain ⟨c, rest, x, -, -, -, rfl⟩ := step_drainWait.mp h
    cases x.coro <;> simp
  | drainLoad =>
    obtain ⟨c, rest, -, rfl⟩ := step_drainLoad.mp h
    simp
  | drainFree =>
    obtain ⟨c, rest, -, rfl⟩ := step_drainFree.mp h
    simp
  | freeGroup =>
    obtain ⟨-, rfl⟩ := step_freeGroup.mp h
    simp

/-- The handle `c` is of a task that has ended. -/
def Ended (s : Sched) (c : ℕ) : Prop := ∃ x, s.handles[c]? = some x ∧ x.terminal = true

theorem Ended.step {a : Action} {c : ℕ} (hc : s.Ended c) (h : s.step a = some s') : s'.Ended c := by
  obtain ⟨x, hx, ht⟩ := hc
  obtain ⟨x', hx', hlater⟩ := step_later h hx
  exact ⟨x', hx', hlater.terminal ht⟩

structure Books (s : Sched) : Prop where
  accounts : Accounts s.handles (s.children ++ s.phase.pending)
  awaited : ∀ c ∈ s.phase.awaited, s.Ended c

theorem books_init : init.Books := by
  refine ⟨⟨?_, ?_, ?_⟩, ?_⟩ <;> simp [init, GroupPhase.pending, GroupPhase.awaited]

theorem swept_iff {handles : List Handle} {c : ℕ} : swept handles c = true ↔
    ∃ x, handles[c]? = some x ∧ x.detached = true ∧ x.terminal = true := by
  cases hc : handles[c]? <;> simp [swept, hc]

theorem registering_get {h c : ℕ} {x : Handle} (hx : s.handles[h]? = some x) :
    (s.registering h x)[c]? = if c = h then some { x with pc := .kept } else s.handles[c]? := by
  have hlt := (List.getElem?_eq_some_iff.mp hx).1
  by_cases hc : c = h
  · subst hc
    rw [if_pos rfl, registering, List.getElem?_set_self hlt]
  · rw [if_neg hc, registering, List.getElem?_set_ne (Ne.symm hc)]

theorem Books.registering (hs : s.Books) {h : ℕ} {x : Handle} (hx : s.handles[h]? = some x) (hpc : x.pc = .marked) :
    Accounts (s.registering h x) ((s.children ++ [h]) ++ s.phase.pending) := by
  refine (hs.accounts.push hx hpc).perm ?_
  rw [List.append_assoc, List.singleton_append]
  exact List.perm_middle.symm

theorem Books.step {a : Action} (hs : s.Books) (h : s.step a = some s') : s'.Books := by
  have hended : ∀ c ∈ s.phase.awaited, s'.Ended c := fun c hc => (hs.awaited c hc).step h
  cases a with
  | spawn u coro grouped =>
    obtain ⟨-, rfl⟩ := step_spawn.mp h
    exact ⟨hs.accounts.spawn coro grouped u, hended⟩
  | act h' a =>
    obtain ⟨x, x', hx, hact, -, rfl⟩ := step_act.mp h
    exact ⟨hs.accounts.act hx hact, hended⟩
  | push h' =>
    obtain ⟨x, hx, ⟨hpc, -⟩, rfl⟩ := step_push.mp h
    have haccounts := hs.registering hx hpc
    have hdisjoint := List.disjoint_of_nodup_append haccounts.nodup
    refine ⟨haccounts.freeAll ?_ ?_ ?_ ?_ ?_, hended⟩
    · exact (List.Nodup.of_append_left haccounts.nodup).filter _
    · intro c hc
      exact List.mem_append_left _ (List.mem_of_mem_filter hc)
    · intro c hc y hy
      obtain ⟨z, hz, -, ht⟩ := swept_iff.mp (List.of_mem_filter hc)
      rw [hy] at hz
      cases hz
      exact ht
    · intro i
      -- a child still to be drained is no longer in the list, and is not swept
      have hpending : i ∈ s.phase.pending → i ∉ s.children ++ [h'] := fun hp hc => hdisjoint hc hp
      simp only [List.mem_append, List.mem_filter, Bool.not_eq_true'] at hpending ⊢
      grind
    · exact haccounts.nodup.sublist (List.filter_sublist.append_right _)
  | take =>
    obtain ⟨⟨hp, -⟩, rfl⟩ := step_take.mp h
    refine ⟨?_, by simp [GroupPhase.awaited]⟩
    simpa [GroupPhase.pending, hp] using hs.accounts
  | drainWait =>
    obtain ⟨c, rest, x, hp, hx, ht, rfl⟩ := step_drainWait.mp h
    have haccounts := hs.accounts
    refine ⟨?_, fun d hd => ⟨x, ?_, ht⟩⟩
    · cases x.coro <;> simpa [GroupPhase.pending, hp] using haccounts
    · obtain rfl : c = d := by cases hc : x.coro <;> simpa [GroupPhase.awaited, hc] using hd
      exact hx
  | drainLoad =>
    obtain ⟨c, rest, hp, rfl⟩ := step_drainLoad.mp h
    refine ⟨by simpa [GroupPhase.pending, hp] using hs.accounts, fun d hd => hended d ?_⟩
    simpa [GroupPhase.awaited, hp] using hd
  | drainFree =>
    obtain ⟨c, rest, hp, rfl⟩ := step_drainFree.mp h
    have haccounts : Accounts s.handles (c :: (s.children ++ rest)) := by
      refine hs.accounts.perm ?_
      simp [GroupPhase.pending, hp]
    obtain ⟨hnot, hnodup⟩ := List.nodup_cons.mp haccounts.nodup
    refine ⟨haccounts.freeAll (List.nodup_singleton c) (by simp) ?_ ?_ hnodup, by simp [GroupPhase.awaited]⟩
    · intro d hd y hy
      obtain ⟨z, hz, ht⟩ := hs.awaited d (by simpa [GroupPhase.awaited, hp, eq_comm] using hd)
      rw [hy] at hz
      cases hz
      exact ht
    · intro i
      simp only [GroupPhase.pending, List.mem_cons, List.not_mem_nil, or_false]
      grind
  | freeGroup =>
    obtain ⟨hp, rfl⟩ := step_freeGroup.mp h
    refine ⟨?_, by simp [GroupPhase.awaited]⟩
    simpa [GroupPhase.pending, hp] using hs.accounts

theorem books_run {as : List Action} (h : init.run as = some s) : s.Books :=
  Lib.runSteps_preserves (fun _ _ _ hs h => hs.step h) books_init h

end Sched

end Karac.Runtime
