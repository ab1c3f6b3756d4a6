import Karac.Runtime.GroupJoin

/-! The sequential scheduler of the single-threaded target: one stack of calls, a FIFO queue of tasks that a join point
drives, and the same task group, whose list is again taken once. -/

namespace Karac.Runtime

structure SeqTaskHandle where
  /-- The state is not `PENDING`. -/
  terminal : Bool
  registered : Bool
  /-- Joined or detached. -/
  used : Bool
  freed : ℕ
  deriving DecidableEq

/-- The handle of a task just enqueued. -/
def SeqTaskHandle.enqueued : SeqTaskHandle := ⟨false, false, false, 0⟩

/-- A call in progress: the body of a task or of the group's owner, `seq_task_join_inner`, or the loop of
`seq_taskgroup_join_and_free`. -/
inductive SeqFrame
  | body (t : Tid)
  | joining (h : ℕ) (doFree : Bool)
  | group
  deriving DecidableEq

inductive SeqPhase
  | opened
  | draining (rest : List ℕ)
  | freed
  deriving DecidableEq

def SeqPhase.pending : SeqPhase → List ℕ
  | .draining rest => rest
  | _ => []

structure SeqSched where
  handles : List SeqTaskHandle
  /-- The queue `READY`. -/
  ready : List ℕ
  children : List ℕ
  phase : SeqPhase
  stack : List SeqFrame
  /-- A step on the group after it is freed. -/
  groupFault : Bool
  deriving DecidableEq

namespace SeqSched

def init : SeqSched := ⟨[], [], [], .opened, [.body none], false⟩

def isTerminal (s : SeqSched) (h : ℕ) : Bool := (s.handles[h]?).any SeqTaskHandle.terminal

def seqSpawn (s : SeqSched) : SeqSched :=
  { s with handles := s.handles ++ [.enqueued], ready := s.ready ++ [s.handles.length] }

def seqTaskgroupRegister (s : SeqSched) (child : ℕ) : SeqSched :=
  { s with
    handles := s.handles.modify child fun x => { x with registered := true }
    children := s.children ++ [child]
    groupFault := s.groupFault || s.phase = .freed }

def freeHandle (s : SeqSched) (h : ℕ) : SeqSched :=
  { s with handles := s.handles.modify h fun x => { x with freed := x.freed + 1 } }

/-- One turn of `drive_until_terminal` on a pending handle; on a dry queue the program panics. -/
def runNext (s : SeqSched) : Option SeqSched :=
  match s.ready with
  | t :: rest => some { s with ready := rest, stack := .body (some t) :: s.stack }
  | [] => none

/-- The owner uses the group until it joins it, and so does a task spawned into it. -/
def mayRegister (s : SeqSched) : Tid → Bool
  | none => s.phase = .opened
  | some t => (s.handles[t]?).any SeqTaskHandle.registered

inductive Action
  | spawn
  | tgSpawn
  | join (h : ℕ)
  | detach (h : ℕ)
  | joinAndFree
  /-- The task's body returns. -/
  | ret
  /-- The join or the group's loop on top of the stack goes on. -/
  | resume
  deriving DecidableEq

def step (s : SeqSched) : Action → Option SeqSched
  | .spawn =>
    match s.stack with
    | .body _ :: _ => some s.seqSpawn
    | _ => none
  | .tgSpawn =>
    match s.stack with
    | .body u :: _ => if s.mayRegister u then some (s.seqSpawn.seqTaskgroupRegister s.handles.length) else none
    | _ => none
  | .join h =>
    match s.stack, s.handles[h]? with
    | .body _ :: _, some x =>
      if x.used then none
      else some { s with
        handles := s.handles.modify h fun x => { x with used := true }
        stack := .joining h (!x.registered) :: s.stack }
    | _, _ => none
  | .detach h =>
    match s.stack, s.handles[h]? with
    | .body _ :: _, some x =>
      if x.used then none
      else some { s with
        handles := s.handles.modify h fun x => { x with used := true }
        stack := if x.registered then s.stack else .joining h true :: s.stack }
    | _, _ => none
  | .joinAndFree =>
    match s.stack, s.phase with
    | .body none :: _, .opened =>
      some { s with children := [], phase := .draining s.children, stack := .group :: s.stack }
    | _, _ => none
  | .ret =>
    match s.stack with
    | .body (some t) :: stack =>
      some { s with handles := s.handles.modify t fun x => { x with terminal := true }, stack := stack }
    | _ => none
  | .resume =>
    match s.stack, s.phase with
    | .joining h doFree :: stack, _ =>
      if s.isTerminal h then some { (if doFree then s.freeHandle h else s) with stack := stack } else s.runNext
    | .group :: _, .draining (c :: rest) =>
      if s.isTerminal c then some { s.freeHandle c with phase := .draining rest } else s.runNext
    | .group :: stack, .draining [] => some { s with phase := .freed, stack := stack }
    | _, _ => none

def run (s : SeqSched) (as : List Action) : Option SeqSched := Lib.runSteps step s as

end SeqSched

end Karac.Runtime

/-! The task group of the sequential scheduler joins its children just as the native one does: exactly in the runs in
which none is registered once the drain has taken the list. -/

namespace Karac.Runtime

/-- The handles the sequential group still has to free. -/
structure SeqAccounts (handles : List SeqTaskHandle) (owed : List ℕ) : Prop where
  listed : ∀ i : ℕ, i ∈ owed ↔ ∃ x, handles[i]? = some x ∧ x.registered = true ∧ x.freed = 0
  nodup : owed.Nodup
  freed : ∀ (i : ℕ) (x : SeqTaskHandle), handles[i]? = some x → x.registered = true → x.freed ≠ 0 →
    x.terminal = true ∧ x.freed = 1

namespace SeqAccounts

variable {handles : List SeqTaskHandle} {owed : List ℕ}

theorem perm {owed' : List ℕ} (h : SeqAccounts handles owed) (hp : owed.Perm owed') : SeqAccounts handles owed' :=
  ⟨fun i => (hp.mem_iff).symm.trans (h.listed i), hp.nodup_iff.mp h.nodup, h.freed⟩

theorem lt_length (h : SeqAccounts handles owed) {i : ℕ} (hi : i ∈ owed) : i < handles.length := by
  obtain ⟨x, hx, -⟩ := (h.listed i).mp hi
  exact (List.getElem?_eq_some_iff.mp hx).1

/-- One handle changes, with `owed'` told from `owed` at that handle alone. -/
theorem modify {owed' : List ℕ} {i : ℕ} {f : SeqTaskHandle → SeqTaskHandle} (h : SeqAccounts handles owed)
    (hi : i < handles.length) (hother : ∀ j, j ≠ i → (j ∈ owed' ↔ j ∈ owed))
    (hself : ∀ x, handles[i]? = some x → (i ∈ owed' ↔ (f x).registered = true ∧ (f x).freed = 0) ∧
      ((f x).registered = true → (f x).freed ≠ 0 → (f x).terminal = true ∧ (f x).freed = 1))
    (hnodup : owed'.Nodup) : SeqAccounts (handles.modify i f) owed' := by
  have hx : handles[i]? = some handles[i] := List.getElem?_eq_getElem hi
  have hother' : ∀ j, j ≠ i → (handles.modify i f)[j]? = handles[j]? := fun j hj => by
    simp [Ne.symm hj]
  have hself' : (handles.modify i f)[i]? = some (f handles[i]) := by simp [hx]
  refine ⟨fun j => ?_, hnodup, fun j y hy => ?_⟩
  · by_cases hj : j = i
    · subst hj
      rw [(hself _ hx).1, hself']
      simp
    · rw [hother j hj, h.listed j, hother' j hj]
  · by_cases hj : j = i
    · subst hj
      rw [hself'] at hy
      cases hy
      exact (hself _ hx).2
    · rw [hother' j hj] at hy
      exact h.freed j y hy

/-- A step that neither registers nor frees. -/
theorem touch {i : ℕ} {f : SeqTaskHandle → SeqTaskHandle} (h : SeqAccounts handles owed)
    (hregistered : ∀ x, (f x).registered = x.registered) (hfreed : ∀ x, (f x).freed = x.freed)
    (hterminal : ∀ x, x.terminal = true → (f x).terminal = true) : SeqAccounts (handles.modify i f) owed := by
  by_cases hi : i < handles.length
  · refine h.modify hi (fun _ _ => Iff.rfl) (fun x hx => ⟨?_, ?_⟩) h.nodup
    · rw [h.listed i, hx, hregistered, hfreed]
      simp
    · rw [hregistered, hfreed]
      exact fun hreg h0 => ⟨hterminal x (h.freed i x hx hreg h0).1, (h.freed i x hx hreg h0).2⟩
  · rwa [List.modify_eq_self (by omega)]

theorem spawn (h : SeqAccounts handles owed) : SeqAccounts (handles ++ [.enqueued]) owed := by
  have hlook : ∀ (i : ℕ) (x : SeqTaskHandle), x.registered = true →
      ((handles ++ [.enqueued])[i]? = some x ↔ handles[i]? = some x) := by
    intro i x hx
    by_cases hi : i < handles.length
    · rw [List.getElem?_append_left hi]
    · rw [List.getElem?_append_right (by omega), List.getElem?_singleton, List.getElem?_eq_none (by omega)]
      split
      · simp only [Option.some.injEq, reduceCtorEq, iff_false]
        rintro rfl
        cases hx
      · rfl
  refine ⟨fun i => ?_, h.nodup, fun i x hi hreg => h.freed i x ((hlook i x hreg).mp hi) hreg⟩
  rw [h.listed i]
  exact exists_congr fun x => and_congr_left fun hx => (hlook i x hx.1).symm

/-- A task spawned into the group enters its list. -/
theorem register (h : SeqAccounts handles owed) :
    SeqAccounts
        ((handles ++ [SeqTaskHandle.enqueued]).modify handles.length fun x => { x with registered := true })
      (handles.length :: owed) := by
  have hnot : handles.length ∉ owed := fun hmem => absurd (h.lt_length hmem) (lt_irrefl _)
  refine h.spawn.modify (by simp) (fun j hj => by simp [hj]) (fun x hx => ?_) (List.nodup_cons.mpr ⟨hnot, h.nodup⟩)
  obtain rfl : SeqTaskHandle.enqueued = x := by simpa using hx
  simp [SeqTaskHandle.enqueued]

/-- A joiner frees a handle that is not the group's. -/
theorem freeOther {i : ℕ} (h : SeqAccounts handles owed)
    (hi : ∃ x, handles[i]? = some x ∧ x.registered = false) :
    SeqAccounts (handles.modify i fun x => { x with freed := x.freed + 1 }) owed := by
  obtain ⟨x, hx, hreg⟩ := hi
  refine h.modify (List.getElem?_eq_some_iff.mp hx).1 (fun _ _ => Iff.rfl) (fun y hy => ?_) h.nodup
  rw [hx] at hy
  cases hy
  rw [h.listed i, hx]
  simp [hreg]

/-- The group frees a child that has ended. -/
theorem freeChild {c : ℕ} (h : SeqAccounts handles (c :: owed))
    (hc : (handles[c]?).any SeqTaskHandle.terminal = true) :
    SeqAccounts (handles.modify c fun x => { x with freed := x.freed + 1 }) owed := by
  obtain ⟨hnot, hnodup⟩ := List.nodup_cons.mp h.nodup
  refine h.modify (h.lt_length List.mem_cons_self) (fun j hj => by simp [hj]) (fun x hx => ?_) hnodup
  obtain ⟨y, hy, -, h0⟩ := (h.listed c).mp List.mem_cons_self
  rw [hx] at hy
  cases hy
  have hterminal : x.terminal = true := by simpa [hx] using hc
  simp [hnot, h0, hterminal]

end SeqAccounts

namespace SeqSched

variable {s s' : SeqSched}

/-- A child enters the group's list only while the drain has not taken it. -/
def OnTime (s : SeqSched) : Action → Prop
  | .tgSpawn => s.phase = .opened
  | _ => True

instance (s : SeqSched) (a : Action) : Decidable (s.OnTime a) := by
  cases a <;> unfold OnTime <;> infer_instance

def Joined (s : SeqSched) : Prop :=
  (∀ x ∈ s.handles, x.registered = true → x.terminal = true ∧ x.freed = 1) ∧ s.groupFault = false

/-- What a step does to the group: nothing, registration, the call of the drain, or a turn of the drain. -/
theorem step_group {a : Action} (h : s.step a = some s') :
    (s'.children = s.children ∧ s'.phase = s.phase ∧ s'.groupFault = s.groupFault) ∨
      (a = .tgSpawn ∧ s'.children = s.children ++ [s.handles.length] ∧ s'.phase = s.phase ∧
        s'.groupFault = (s.groupFault || s.phase = .freed)) ∨
      (s.phase = .opened ∧ s'.children = [] ∧ s'.phase = .draining s.children ∧ s'.groupFault = s.groupFault) ∨
      (s'.children = s.children ∧ s.phase ≠ .opened ∧ s'.phase ≠ .opened ∧ s'.groupFault = s.groupFault) := by
  cases a <;> simp only [step, runNext, freeHandle, seqSpawn, seqTaskgroupRegister] at h
  all_goals grind

/-- A join that will free its handle is on one that is not the group's. -/
def JoinsFree (handles : List SeqTaskHandle) (stack : List SeqFrame) : Prop :=
  ∀ h, .joining h true ∈ stack → ∃ x, handles[h]? = some x ∧ x.registered = false

structure Books (s : SeqSched) : Prop where
  accounts : SeqAccounts s.handles (s.children ++ s.phase.pending)
  joins : JoinsFree s.handles s.stack

theorem books_init : init.Books := by
  refine ⟨⟨?_, ?_, ?_⟩, ?_⟩ <;> simp [init, SeqPhase.pending, JoinsFree]

theorem JoinsFree.modify {handles : List SeqTaskHandle} {stack : List SeqFrame} {i : ℕ}
    {f : SeqTaskHandle → SeqTaskHandle} (h : JoinsFree handles stack) (hf : ∀ x, (f x).registered = x.registered) :
    JoinsFree (handles.modify i f) stack := by
  intro j hj
  obtain ⟨x, hx, hreg⟩ := h j hj
  by_cases hji : i = j
  · exact ⟨f x, by simp [hx, hji], (hf x).trans hreg⟩
  · exact ⟨x, by simp [hx, hji], hreg⟩

theorem JoinsFree.spawn {handles : List SeqTaskHandle} {stack : List SeqFrame} (h : JoinsFree handles stack) :
    JoinsFree (handles ++ [.enqueued]) stack := by
  intro j hj
  obtain ⟨x, hx, hreg⟩ := h j hj
  exact ⟨x, (List.getElem?_append_left (List.getElem?_eq_some_iff.mp hx).1).trans hx, hreg⟩

theorem JoinsFree.register {handles : List SeqTaskHandle} {stack : List SeqFrame} (h : JoinsFree handles stack) :
    JoinsFree ((handles ++ [SeqTaskHandle.enqueued]).modify handles.length fun x => { x with registered := true }) stack := by
  intro j hj
  obtain ⟨x, hx, hreg⟩ := h j hj
  have hlt := (List.getElem?_eq_some_iff.mp hx).1
  exact ⟨x, by simp [List.getElem?_append_left hlt, hx, Nat.ne_of_gt hlt], hreg⟩

theorem JoinsFree.tail {handles : List SeqTaskHandle} {stack : List SeqFrame} {frame : SeqFrame}
    (h : JoinsFree handles (frame :: stack)) : JoinsFree handles stack :=
  fun j hj => h j (List.mem_cons_of_mem _ hj)

theorem JoinsFree.push {handles : List SeqTaskHandle} {stack : List SeqFrame} {frame : SeqFrame}
    (h : JoinsFree handles stack)
    (hf : ∀ j, frame = .joining j true → ∃ x, handles[j]? = some x ∧ x.registered = false) :
    JoinsFree handles (frame :: stack) := by
  intro j hj
  rcases List.mem_cons.mp hj with hj | hj
  · exact hf j hj.symm
  · exact h j hj

theorem Books.runNext (hs : s.Books) (h : s.runNext = some s') : s'.Books := by
  unfold SeqSched.runNext at h
  split at h
  · cases h
    exact ⟨hs.accounts, hs.joins.push (by simp)⟩
  · cases h

theorem Books.use (hs : s.Books) (h : ℕ) :
    SeqAccounts (s.handles.modify h fun x => { x with used := true }) (s.children ++ s.phase.pending) ∧
      JoinsFree (s.handles.modify h fun x => { x with used := true }) s.stack :=
  ⟨hs.accounts.touch (fun _ => rfl) (fun _ => rfl) (fun _ => id), hs.joins.modify fun _ => rfl⟩

theorem Books.resume (hs : s.Books) (h : s.step .resume = some s') : s'.Books := by
  simp only [step] at h
  split at h
  · rename_i j doFree stack hstack
    have hjoins := hs.joins
    rw [hstack] at hjoins
    split at h
    · cases h
      cases doFree with
      | false => exact ⟨hs.accounts, hjoins.tail⟩
      | true =>
        refine ⟨hs.accounts.freeOther (hjoins j List.mem_cons_self), hjoins.tail.modify fun _ => rfl⟩
    · exact hs.runNext h
  · rename_i tail c rest hstack hphase
    split at h
    · rename_i hterminal
      cases h
      have howed : SeqAccounts s.handles (c :: (s.children ++ rest)) := by
        refine hs.accounts.perm ?_
        simp [hphase, SeqPhase.pending]
      exact ⟨howed.freeChild hterminal, hs.joins.modify fun _ => rfl⟩
    · exact hs.runNext h
  · rename_i stack hstack hphase
    cases h
    have hjoins := hs.joins
    rw [hstack] at hjoins
    exact ⟨by simpa [hphase, SeqPhase.pending] using hs.accounts, hjoins.tail⟩
  · cases h

theorem Books.step {a : Action} (hs : s.Books) (h : s.step a = some s') : s'.Books := by
  have hjoins := hs.joins
  cases a with
  | spawn =>
    simp only [SeqSched.step] at h
    split at h
    · cases h
      exact ⟨hs.accounts.spawn, hjoins.spawn⟩
    · cases h
  | tgSpawn =>
    simp only [SeqSched.step] at h
    split at h
    · simp only [Option.ite_none_right_eq_some, Option.some.injEq] at h
      obtain ⟨-, rfl⟩ := h
      refine ⟨hs.accounts.register.perm ?_, hjoins.register⟩
      simp only [seqSpawn, seqTaskgroupRegister, List.append_assoc, List.singleton_append]
      exact List.perm_middle.symm
    · cases h
  | join j =>
    simp only [SeqSched.step] at h
    split at h
    · rename_i x hstack hx
      simp only [Option.ite_none_left_eq_some, Option.some.injEq] at h
      obtain ⟨-, rfl⟩ := h
      refine ⟨(hs.use j).1, (hs.use j).2.push fun i hi => ?_⟩
      obtain ⟨rfl, hreg⟩ : j = i ∧ x.registered = false := by simpa using hi
      exact ⟨{ x with used := true }, by simp [hx], hreg⟩
    · cases h
  | detach j =>
    simp only [SeqSched.step] at h
    split at h
    · rename_i x hstack hx
      simp only [Option.ite_none_left_eq_some, Option.some.injEq] at h
      obtain ⟨-, rfl⟩ := h
      refine ⟨(hs.use j).1, ?_⟩
      by_cases hreg : x.registered = true
      · simpa [hreg] using (hs.use j).2
      · simp only [hreg]
        refine (hs.use j).2.push fun i hi => ?_
        obtain rfl : j = i := by simpa using hi
        exact ⟨{ x with used := true }, by simp [hx], by simpa using hreg⟩
    · cases h
  | joinAndFree =>
    simp only [SeqSched.step] at h
    split at h
    · rename_i hstack hphase
      cases h
      refine ⟨by simpa [hphase, SeqPhase.pending] using hs.accounts, hjoins.push (by simp)⟩
    · cases h
  | ret =>
    simp only [SeqSched.step] at h
    split at h
    · rename_i t stack hstack
      cases h
      rw [hstack] at hjoins
      exact ⟨hs.accounts.touch (fun _ => rfl) (fun _ => rfl) (fun _ _ => rfl), hjoins.tail.modify fun _ => rfl⟩
    · cases h
  | resume => exact hs.resume h

theorem books_run {as : List Action} (h : init.run as = some s) : s.Books :=
  Lib.runSteps_preserves (fun _ _ _ hs h => hs.step h) books_init h

structure Punctual (s : SeqSched) : Prop where
  taken : s.phase ≠ .opened → s.children = []
  noFault : s.groupFault = false

theorem punctual_init : init.Punctual := ⟨fun _ => rfl, rfl⟩

theorem Punctual.step {a : Action} (hs : s.Punctual) (hc : s.OnTime a) (h : s.step a = some s') : s'.Punctual := by
  rcases step_group h with ⟨hchildren, hphase, hfault⟩ | ⟨rfl, hchildren, hphase, hfault⟩ | ⟨-, hchildren, -, hfault⟩ |
    ⟨hchildren, hopened, -, hfault⟩
  · exact ⟨fun hp => hchildren.trans (hs.taken (hphase ▸ hp)), hfault.trans hs.noFault⟩
  · have hopened : s.phase = .opened := hc
    exact ⟨fun hp => absurd (hphase.trans hopened) hp, by simp [hfault, hs.noFault, hopened]⟩
  · exact ⟨fun _ => hchildren, hfault.trans hs.noFault⟩
  · exact ⟨fun _ => hchildren.trans (hs.taken hopened), hfault.trans hs.noFault⟩

/-- A child in the list that no drain will take. -/
def Late (s : SeqSched) : Prop := s.phase ≠ .opened ∧ s.children ≠ []

theorem Late.step {a : Action} (hl : s.Late) (h : s.step a = some s') : s'.Late := by
  rcases step_group h with ⟨hchildren, hphase, -⟩ | ⟨-, hchildren, hphase, -⟩ | ⟨hopened, -⟩ | ⟨hchildren, -, hphase, -⟩
  · exact ⟨hphase ▸ hl.1, hchildren ▸ hl.2⟩
  · exact ⟨hphase ▸ hl.1, by simp [hchildren]⟩
  · exact absurd hopened hl.1
  · exact ⟨hphase, hchildren ▸ hl.2⟩

theorem late_of_tgSpawn (h : s.step .tgSpawn = some s') (hp : s.phase ≠ .opened) : s'.Late := by
  simp only [SeqSched.step] at h
  split at h
  · simp only [Option.ite_none_right_eq_some, Option.some.injEq] at h
    obtain ⟨-, rfl⟩ := h
    exact ⟨hp, by simp [seqTaskgroupRegister]⟩
  · cases h

theorem not_joined_of_late (hl : s.Late) (hs : s.Books) : ¬s.Joined := by
  intro hj
  obtain ⟨c, hc⟩ := List.exists_mem_of_ne_nil _ hl.2
  obtain ⟨x, hx, hreg, h0⟩ := (hs.accounts.listed c).mp (List.mem_append_left _ hc)
  have hfreed := (hj.1 x (List.mem_of_getElem? hx) hreg).2
  omega

theorem joined_iff {as : List Action} (hrun : init.run as = some s) (hp : s.phase = .freed) :
    s.Joined ↔ Lib.AllSteps SeqSched.step OnTime init as := by
  constructor
  · intro hj
    by_contra hc
    obtain ⟨before, a, after, t, t', hbefore, ha, hstep, hafter⟩ := Lib.exists_step_of_not_allSteps hrun hc
    have hlate : t'.Late := by
      cases a with
      | tgSpawn => exact late_of_tgSpawn hstep ha
      | _ => exact absurd trivial ha
    exact not_joined_of_late (Lib.runSteps_preserves (fun _ _ _ hs h => hs.step h) hlate hafter) (books_run hrun) hj
  · intro hc
    have hpunctual : s.Punctual := Lib.runSteps_invariant (fun _ _ _ hs hc h => hs.step hc h) punctual_init hc hrun
    refine ⟨fun x hx hreg => ?_, hpunctual.noFault⟩
    obtain ⟨i, hi⟩ := List.getElem?_of_mem hx
    have haccounts := (books_run hrun).accounts
    have hnone : s.children ++ s.phase.pending = [] := by
      simp [hpunctual.taken (by simp [hp]), hp, SeqPhase.pending]
    refine haccounts.freed i x hi hreg fun h0 => ?_
    exact absurd (hnone ▸ (haccounts.listed i).mpr ⟨x, hi, hreg, h0⟩) List.not_mem_nil

end SeqSched

namespace SeqSched

/-- The task `0` of the group joins the free task `1`, and the group's owner joins the group. -/
def joinedRun : List Action :=
  [.tgSpawn, .joinAndFree, .resume, .spawn, .join 1, .resume, .ret, .resume, .ret, .resume, .resume]

/-- The task `0` spawns `1` into the group when the drain has taken the list. -/
def lateRun : List Action := [.tgSpawn, .joinAndFree, .resume, .tgSpawn, .ret, .resume, .resume]

end SeqSched

/-- When the group's drain returns, in a run of the native scheduler and in one of the sequential scheduler, every task
registered with the group has ended and has been freed, and the freed group is not touched, if and only if no task was
registered after the drain had taken the list. -/
theorem structured_join (as : List Sched.Action) (s : Sched) (hrun : Sched.init.run as = some s) (hp : s.phase = .freed)
    (bs : List SeqSched.Action) (t : SeqSched) (hrun' : SeqSched.init.run bs = some t) (hp' : t.phase = .freed) :
    (s.Joined ↔ Lib.AllSteps Sched.step Sched.OnTime Sched.init as) ∧
      (t.Joined ↔ Lib.AllSteps SeqSched.step SeqSched.OnTime SeqSched.init bs) :=
  ⟨Sched.joined_iff hrun hp, SeqSched.joined_iff hrun' hp'⟩

theorem structured_join_runs :
    (∃ s, Sched.init.run Sched.sweptRun = some s ∧ s.phase = .freed ∧ s.Joined) ∧
      ∃ t, SeqSched.init.run SeqSched.joinedRun = some t ∧ t.phase = .freed ∧ t.Joined := by
  have hnative : (Sched.init.run Sched.sweptRun).any (fun s => s.phase = .freed) = true := by decide
  have hseq : (SeqSched.init.run SeqSched.joinedRun).any (fun s => s.phase = .freed) = true := by decide
  obtain ⟨s, hs, hp⟩ := (Option.any_eq_true _ _).mp hnative
  obtain ⟨t, ht, hq⟩ := (Option.any_eq_true _ _).mp hseq
  have hp' : s.phase = .freed := by simpa using hp
  have hq' : t.phase = .freed := by simpa using hq
  obtain ⟨hjoined, hjoined'⟩ := structured_join _ s hs hp' _ t ht hq'
  exact ⟨⟨s, hs, hp', hjoined.mpr (by decide)⟩, ⟨t, ht, hq', hjoined'.mpr (by decide)⟩⟩

/-- A child of a child is left behind, running or not yet run, and touches the freed group. -/
theorem children_left_behind :
    ((Sched.init.run Sched.lateRun).any fun s => s.phase = .freed ∧ s.handles.map Handle.freed = [1, 0]) = true ∧
      ((Sched.init.run Sched.outlivingRun).any fun s => s.groupFault) = true ∧
      ((SeqSched.init.run SeqSched.lateRun).any fun s =>
        s.phase = .freed ∧ s.handles.map SeqTaskHandle.terminal = [true, false]) = true := by decide

end Karac.Runtime
