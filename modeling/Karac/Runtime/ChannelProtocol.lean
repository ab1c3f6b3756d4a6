import Karac.Runtime.Channel

/-! The channel's protocol: order, loss, close and the free hold at every interleaving. A send may report the absence of
receivers while one lives, when a `clone` is between its two increments at the send's first load or comes between the
two loads; in runs without such an overlap it does not. -/

namespace Karac.Runtime

variable {α : Type}

namespace KaracChannel

variable {s s' : KaracChannel α} {a : Action α} {o : Option (Outcome α)} {i : ℕ} {pc : SenderPc α}

/-- The counters say how far each handle's calls have come. -/
structure Valid (s : KaracChannel α) : Prop where
  senders : s.senders = (s.handles.map SenderPc.senders).sum
  total : s.total = (s.handles.map SenderPc.total).sum + s.receiver.toNat
  closing : SenderPc.closing ∈ s.handles ∨ s.closed = true → s.senders = 0
  freed : s.freed = if s.total = 0 then 1 else 0
  order : s.sent = s.received ++ s.queue

theorem valid_withCapacity (capacity : ℕ) : (withCapacity capacity : KaracChannel α).Valid := by
  refine ⟨?_, ?_, ?_, ?_, ?_⟩ <;> simp [withCapacity, SenderPc.senders, SenderPc.total, SenderPc.live]

theorem step_eq_sender (hi : a.sender = some i) :
    s.step a = some (o, s') ↔ ∃ pc, s.handles[i]? = some pc ∧ s.stepSender i pc a = some (o, s') := by
  simp [step, hi, Option.bind_eq_some_iff]

theorem step_eq_receiver (hi : a.sender = none) :
    s.step a = some (o, s') ↔ s.receiver = true ∧ s.stepReceiver a = some (o, s') := by
  simp [step, hi]

theorem mem_set_of_ne {l : List (SenderPc α)} {pc' : SenderPc α} (hne : pc ≠ pc') (h : pc ∈ l.set i pc') : pc ∈ l :=
  (List.mem_or_eq_of_mem_set h).resolve_right hne

theorem Valid.senders_set {pc' : SenderPc α} {n : ℕ} (hs : s.Valid) (hpc : s.handles[i]? = some pc)
    (hn : n + pc.senders = s.senders + pc'.senders) : n = ((s.handles.set i pc').map SenderPc.senders).sum := by
  have hsum := Lib.sum_map_set SenderPc.senders hpc pc'
  have hsenders := hs.senders
  omega

theorem Valid.total_set {pc' : SenderPc α} {n : ℕ} (hs : s.Valid) (hpc : s.handles[i]? = some pc)
    (hn : n + pc.total = s.total + pc'.total) :
    n = ((s.handles.set i pc').map SenderPc.total).sum + s.receiver.toNat := by
  have hsum := Lib.sum_map_set SenderPc.total hpc pc'
  have htotal := hs.total
  omega

theorem Valid.senders_le (hs : s.Valid) (hpc : s.handles[i]? = some pc) : pc.senders ≤ s.senders :=
  hs.senders ▸ List.single_le_sum (by simp) _ (List.mem_map_of_mem (List.mem_of_getElem? hpc))

theorem Valid.total_le (hs : s.Valid) (hpc : s.handles[i]? = some pc) : pc.total ≤ s.total := by
  have hle : pc.total ≤ (s.handles.map SenderPc.total).sum :=
    List.single_le_sum (by simp) _ (List.mem_map_of_mem (List.mem_of_getElem? hpc))
  have htotal := hs.total
  omega

/-- A step that leaves both counters, the queue and the close alone. -/
theorem Valid.setPc {pc' : SenderPc α} (hs : s.Valid) (hpc : s.handles[i]? = some pc)
    (hsenders : pc'.senders = pc.senders) (htotal : pc'.total = pc.total) (hclosing : pc' ≠ .closing) :
    (s.setPc i pc').Valid :=
  ⟨hs.senders_set hpc (by rw [hsenders]; rfl), hs.total_set hpc (by rw [htotal]; rfl),
    fun h => hs.closing (h.imp_left (mem_set_of_ne hclosing.symm)), hs.freed, hs.order⟩

theorem Valid.freed_release (hs : s.Valid) (hpos : 0 < s.total) :
    s.releaseTotal.freed = if s.releaseTotal.total = 0 then 1 else 0 := by
  have hfreed := hs.freed
  simp only [releaseTotal]
  grind

/-- A handle that can be used has a sender's share of the counters, so the channel is not closed. -/
theorem Valid.open_of_idle (hs : s.Valid) (hpc : s.handles[i]? = some .idle) :
    ¬(SenderPc.closing ∈ s.handles ∨ s.closed = true) := by
  intro hclosed
  have hle : 1 ≤ s.senders := hs.senders_le hpc
  rw [hs.closing hclosed] at hle
  omega

theorem Valid.stepSender (hs : s.Valid) (hpc : s.handles[i]? = some pc)
    (h : s.stepSender i pc a = some (o, s')) : s'.Valid := by
  cases a with
  | cloneSenders j =>
    cases pc <;> simp only [KaracChannel.stepSender, reduceCtorEq, Option.some.injEq, Prod.mk.injEq] at h
    obtain ⟨-, rfl⟩ := h
    exact ⟨hs.senders_set hpc rfl, hs.total_set hpc rfl,
      fun h => absurd (h.imp_left (mem_set_of_ne (by simp))) (hs.open_of_idle hpc), hs.freed, hs.order⟩
  | cloneTotal j =>
    cases pc <;> simp only [KaracChannel.stepSender, reduceCtorEq, Option.some.injEq, Prod.mk.injEq] at h
    obtain ⟨-, rfl⟩ := h
    have hsenders : s.senders - 1 = ((s.handles.set i .idle).map SenderPc.senders).sum := by
      have hle : 2 ≤ s.senders := hs.senders_le hpc
      refine hs.senders_set hpc ?_
      simp only [SenderPc.senders, SenderPc.live, if_true]
      omega
    have htotal : s.total = ((s.handles.set i .idle).map SenderPc.total).sum + s.receiver.toNat := hs.total_set hpc rfl
    have hle : 1 ≤ s.total := hs.total_le hpc
    have hle' : 2 ≤ s.senders := hs.senders_le hpc
    refine ⟨?_, ?_, fun h => hs.closing (h.imp_left fun h => ?_), ?_, hs.order⟩
    · rw [List.map_append, List.sum_append, ← hsenders]
      simp only [List.map_cons, List.map_nil, List.sum_singleton, SenderPc.senders, SenderPc.live, if_true]
      omega
    · rw [List.map_append, List.sum_append]
      simp only [List.map_cons, List.map_nil, List.sum_singleton, SenderPc.total]
      omega
    · exact mem_set_of_ne (by simp) ((List.mem_append.mp h).resolve_right (by simp))
    · have hfreed := hs.freed
      rw [if_neg (by omega)] at hfreed
      simpa using hfreed
  | sendTotal j tries v =>
    cases pc <;> simp only [KaracChannel.stepSender, reduceCtorEq, Option.some.injEq, Prod.mk.injEq] at h
    obtain ⟨-, rfl⟩ := h
    exact hs.setPc hpc rfl rfl (by simp)
  | sendSenders j =>
    cases pc <;> simp only [KaracChannel.stepSender, reduceCtorEq] at h
    split at h <;> obtain ⟨-, rfl⟩ : _ ∧ _ = s' := by simpa using h
    · exact hs.setPc hpc rfl rfl (by simp)
    · exact hs.setPc hpc rfl rfl (by simp)
  | enqueue j =>
    cases pc <;> simp only [KaracChannel.stepSender, reduceCtorEq] at h
    split at h <;> obtain ⟨-, rfl⟩ : _ ∧ _ = s' := by simpa using h
    · exact hs.setPc hpc rfl rfl (by simp)
    · have hset : (s.setPc i .notifying).Valid := hs.setPc hpc rfl rfl (by simp)
      exact ⟨hset.senders, hset.total, hset.closing, hset.freed, by simp [KaracChannel.setPc, hs.order]⟩
  | notify j =>
    cases pc <;> simp only [KaracChannel.stepSender, reduceCtorEq, Option.some.injEq, Prod.mk.injEq] at h
    obtain ⟨-, rfl⟩ := h
    exact hs.setPc hpc rfl rfl (by simp)
  | dropSenders j =>
    cases pc <;> simp only [KaracChannel.stepSender, reduceCtorEq, Option.some.injEq, Prod.mk.injEq] at h
    obtain ⟨-, rfl⟩ := h
    have hle : 1 ≤ s.senders := hs.senders_le hpc
    have hopen := hs.open_of_idle hpc
    by_cases hlast : s.senders = 1
    · rw [if_pos hlast]
      exact ⟨hs.senders_set hpc (by simp [SenderPc.senders, SenderPc.live, hlast]), hs.total_set hpc rfl,
        fun _ => by simp [hlast], hs.freed, hs.order⟩
    · rw [if_neg hlast]
      refine ⟨hs.senders_set hpc ?_, hs.total_set hpc rfl,
        fun h => absurd (h.imp_left (mem_set_of_ne (by simp))) hopen, hs.freed, hs.order⟩
      simp only [SenderPc.senders, SenderPc.live, if_true, Bool.false_eq_true, if_false]
      omega
  | close j =>
    cases pc <;> simp only [KaracChannel.stepSender, reduceCtorEq, Option.some.injEq, Prod.mk.injEq] at h
    obtain ⟨-, rfl⟩ := h
    have hset : (s.setPc i .waking).Valid := hs.setPc hpc rfl rfl (by simp)
    exact ⟨hset.senders, hset.total, fun _ => hs.closing (Or.inl (List.mem_of_getElem? hpc)), hset.freed, hset.order⟩
  | wake j =>
    cases pc <;> simp only [KaracChannel.stepSender, reduceCtorEq, Option.some.injEq, Prod.mk.injEq] at h
    obtain ⟨-, rfl⟩ := h
    exact hs.setPc hpc rfl rfl (by simp)
  | release j =>
    cases pc <;> simp only [KaracChannel.stepSender, reduceCtorEq, Option.some.injEq, Prod.mk.injEq] at h
    obtain ⟨-, rfl⟩ := h
    have hle : 1 ≤ s.total := hs.total_le hpc
    refine ⟨hs.senders_set hpc rfl, hs.total_set hpc ?_, fun h => hs.closing (h.imp_left (mem_set_of_ne (by simp))),
      hs.freed_release (by omega), hs.order⟩
    simp only [releaseTotal, KaracChannel.setPc, SenderPc.total]
    omega
  | recv => cases h
  | dropReceiver => cases h

theorem Valid.stepReceiver (hs : s.Valid) (hlive : s.receiver = true) (h : s.stepReceiver a = some (o, s')) :
    s'.Valid := by
  cases a with
  | recv =>
    simp only [KaracChannel.stepReceiver] at h
    split at h
    · rename_i v queue hqueue
      obtain ⟨-, rfl⟩ : _ ∧ _ = s' := by simpa using h
      exact ⟨hs.senders, hs.total, hs.closing, hs.freed, by simp [hs.order, hqueue]⟩
    · obtain ⟨-, -, rfl⟩ : s.closed = true ∧ _ ∧ s = s' := by simpa using h
      exact hs
  | dropReceiver =>
    obtain ⟨-, rfl⟩ : _ ∧ _ = s' := by simpa [KaracChannel.stepReceiver] using h
    have htotal := hs.total
    rw [hlive, Bool.toNat_true] at htotal
    refine ⟨hs.senders, ?_, hs.closing, hs.freed_release (by omega), hs.order⟩
    simp only [releaseTotal, Bool.toNat_false]
    omega
  | _ => cases h

theorem Valid.step (hs : s.Valid) (h : s.step a = some (o, s')) : s'.Valid := by
  cases hi : a.sender with
  | none =>
    obtain ⟨hlive, hstep⟩ := (step_eq_receiver hi).mp h
    exact hs.stepReceiver hlive hstep
  | some i =>
    obtain ⟨pc, hpc, hstep⟩ := (step_eq_sender hi).mp h
    exact hs.stepSender hpc hstep

theorem valid_run {capacity : ℕ} {as : List (Action α)} (h : (withCapacity capacity).run as = some s) : s.Valid := by
  refine Lib.runSteps_preserves (fun s a s' hs hnext => ?_) (valid_withCapacity capacity) h
  obtain ⟨⟨o, t⟩, hstep, rfl⟩ := Option.map_eq_some_iff.mp hnext
  exact hs.step hstep

theorem senders_of_live (hlive : pc.live = true) : 1 ≤ pc.senders := by
  cases pc <;> simp_all [SenderPc.senders, SenderPc.live]

/-- Once the channel is closed no handle is left to send on or to clone. -/
theorem Valid.dropped_of_closed (hs : s.Valid) (hclosed : s.closed = true) : ∀ pc ∈ s.handles, pc.live = false := by
  intro pc hpc
  obtain ⟨i, hi⟩ := List.getElem?_of_mem hpc
  by_contra hlive
  have hle := senders_of_live (by simpa using hlive)
  have hsenders := hs.senders_le hi
  rw [hs.closing (Or.inr hclosed)] at hsenders
  omega

theorem total_eq_zero_iff : pc.total = 0 ↔ pc = .dropped := by
  cases pc <;> simp [SenderPc.total]

/-- All handles have been dropped, and their drops are over. -/
def AllDropped (s : KaracChannel α) : Prop := (∀ pc ∈ s.handles, pc = .dropped) ∧ s.receiver = false

theorem Valid.total_eq_zero_iff (hs : s.Valid) : s.total = 0 ↔ s.AllDropped := by
  rw [hs.total, Nat.add_eq_zero_iff, List.sum_eq_zero_iff]
  refine and_congr ?_ (by cases s.receiver <;> simp)
  simp only [List.mem_map, forall_exists_index, and_imp, forall_apply_eq_imp_iff₂, KaracChannel.total_eq_zero_iff]

/-- Nothing is left that could touch the channel. -/
theorem AllDropped.step_eq_none (hs : s.AllDropped) (a : Action α) : s.step a = none := by
  rw [Option.eq_none_iff_forall_ne_some]
  rintro ⟨o, s'⟩ h
  cases hi : a.sender with
  | none => exact absurd ((step_eq_receiver hi).mp h).1 (by simp [hs.2])
  | some i =>
    obtain ⟨pc, hpc, hstep⟩ := (step_eq_sender hi).mp h
    rw [hs.1 pc (List.mem_of_getElem? hpc)] at hstep
    cases a <;> cases hstep

/-- `recv` reports the close only once every sender has been dropped and the queue is empty. -/
def ClosedReports (s : KaracChannel α) : Prop :=
  ∀ a s', s.step a = some (some .closed, s') → (∀ pc ∈ s.handles, pc.live = false) ∧ s.queue = []

theorem Valid.closedReports (hs : s.Valid) : s.ClosedReports := by
  intro a s' h
  cases hi : a.sender with
  | none =>
    obtain ⟨-, hstep⟩ := (step_eq_receiver hi).mp h
    cases a with
    | recv =>
      simp only [KaracChannel.stepReceiver] at hstep
      split at hstep
      · cases hstep
      · rename_i hqueue
        obtain ⟨hclosed, -⟩ : s.closed = true ∧ s = s' := by simpa using hstep
        exact ⟨hs.dropped_of_closed hclosed, hqueue⟩
    | dropReceiver => cases hstep
    | _ => cases hstep
  | some i =>
    obtain ⟨pc, -, hstep⟩ := (step_eq_sender hi).mp h
    cases a <;> cases pc <;> simp [KaracChannel.stepSender] at hstep
    all_goals grind

/-- `send` and `try_send` report the absence of receivers only once the receiver has been dropped. -/
def AbsenceReports (s : KaracChannel α) : Prop :=
  ∀ a tries s', s.step a = some (some (.noReceiver tries), s') → s.receiver = false

/-- While a receiver lives, no `clone` is between its increments when a send first loads, or comes between its loads. -/
def NoOverlap (s : KaracChannel α) : Action α → Prop
  | .cloneSenders _ => s.receiver = true → ∀ pc ∈ s.handles, pc.isLoaded = false
  | .sendTotal _ _ _ => s.receiver = true → SenderPc.cloning ∉ s.handles
  | _ => True

instance [DecidableEq α] (s : KaracChannel α) (a : Action α) : Decidable (s.NoOverlap a) := by
  cases a <;> unfold NoOverlap <;> infer_instance

/-- Every send that has read `total` will find a receiver, if one lives. -/
structure Seen (s : KaracChannel α) : Prop where
  valid : s.Valid
  seen : s.receiver = true → ∀ tries v total, SenderPc.loaded tries v total ∈ s.handles → s.senders < total

theorem seen_withCapacity (capacity : ℕ) : (withCapacity capacity : KaracChannel α).Seen :=
  ⟨valid_withCapacity capacity, by simp [withCapacity]⟩

/-- With no `clone` under way the handles that count in `senders` all count in `total`, and so does the receiver. -/
theorem Valid.senders_lt_total (hs : s.Valid) (hlive : s.receiver = true) (hclone : SenderPc.cloning ∉ s.handles) :
    s.senders < s.total := by
  have hle : (s.handles.map SenderPc.senders).sum ≤ (s.handles.map SenderPc.total).sum := by
    refine List.sum_le_sum fun pc hpc => ?_
    cases pc <;> simp_all [SenderPc.senders, SenderPc.total, SenderPc.live]
  have hsenders := hs.senders
  have htotal := hs.total
  rw [hlive, Bool.toNat_true] at htotal
  omega

theorem loaded_mem_set {l : List (SenderPc α)} {pc' : SenderPc α} {tries : Bool} {v : α} {total : ℕ}
    (hne : pc'.isLoaded = false) (h : SenderPc.loaded tries v total ∈ l.set i pc') : .loaded tries v total ∈ l := by
  refine mem_set_of_ne ?_ h
  rintro rfl
  cases hne

theorem Seen.stepSender (hs : s.Seen) (hc : s.NoOverlap a) (h : s.stepSender i pc a = some (o, s'))
    (hlive : s'.receiver = true) {tries : Bool} {v : α} {total : ℕ} (hmem : .loaded tries v total ∈ s'.handles) :
    s'.senders < total := by
  cases a with
  | cloneSenders j =>
    cases pc <;> simp only [KaracChannel.stepSender, reduceCtorEq, Option.some.injEq, Prod.mk.injEq] at h
    obtain ⟨-, rfl⟩ := h
    exact absurd (hc hlive _ (loaded_mem_set rfl hmem)) (by simp [SenderPc.isLoaded])
  | cloneTotal j =>
    cases pc <;> simp only [KaracChannel.stepSender, reduceCtorEq, Option.some.injEq, Prod.mk.injEq] at h
    obtain ⟨-, rfl⟩ := h
    exact hs.seen hlive tries v total (loaded_mem_set rfl ((List.mem_append.mp hmem).resolve_right (by simp)))
  | sendTotal j tries' v' =>
    cases pc <;> simp only [KaracChannel.stepSender, reduceCtorEq, Option.some.injEq, Prod.mk.injEq] at h
    obtain ⟨-, rfl⟩ := h
    rcases List.mem_or_eq_of_mem_set hmem with hold | hnew
    · exact hs.seen hlive tries v total hold
    · cases hnew
      exact hs.valid.senders_lt_total hlive (hc hlive)
  | sendSenders j =>
    cases pc <;> simp only [KaracChannel.stepSender, reduceCtorEq] at h
    split at h <;> obtain ⟨-, rfl⟩ : _ ∧ _ = s' := by simpa using h
    · exact hs.seen hlive tries v total (loaded_mem_set rfl hmem)
    · exact hs.seen hlive tries v total (loaded_mem_set rfl hmem)
  | enqueue j =>
    cases pc <;> simp only [KaracChannel.stepSender, reduceCtorEq] at h
    split at h <;> obtain ⟨-, rfl⟩ : _ ∧ _ = s' := by simpa using h
    · exact hs.seen hlive tries v total (loaded_mem_set rfl hmem)
    · exact hs.seen hlive tries v total (loaded_mem_set rfl hmem)
  | dropSenders j =>
    cases pc <;> simp only [KaracChannel.stepSender, reduceCtorEq, Option.some.injEq, Prod.mk.injEq] at h
    obtain ⟨-, rfl⟩ := h
    have hold : SenderPc.loaded tries v total ∈ s.handles := by
      refine loaded_mem_set ?_ hmem
      split_ifs <;> rfl
    exact lt_of_le_of_lt (Nat.sub_le _ _) (hs.seen hlive tries v total hold)
  | recv => cases h
  | dropReceiver => cases h
  | _ =>
    cases pc <;> simp only [KaracChannel.stepSender, reduceCtorEq, Option.some.injEq, Prod.mk.injEq] at h
    obtain ⟨-, rfl⟩ := h
    exact hs.seen hlive tries v total (loaded_mem_set rfl hmem)

theorem Seen.step (hs : s.Seen) (hc : s.NoOverlap a) (h : s.step a = some (o, s')) : s'.Seen := by
  refine ⟨hs.valid.step h, fun hlive tries v total hmem => ?_⟩
  cases hi : a.sender with
  | some i =>
    obtain ⟨pc, -, hstep⟩ := (step_eq_sender hi).mp h
    exact hs.stepSender hc hstep hlive hmem
  | none =>
    obtain ⟨-, hstep⟩ := (step_eq_receiver hi).mp h
    cases a with
    | recv =>
      simp only [KaracChannel.stepReceiver] at hstep
      split at hstep
      · obtain ⟨-, rfl⟩ : _ ∧ _ = s' := by simpa using hstep
        exact hs.seen hlive tries v total hmem
      · obtain ⟨-, -, rfl⟩ : s.closed = true ∧ _ ∧ s = s' := by simpa using hstep
        exact hs.seen hlive tries v total hmem
    | dropReceiver =>
      obtain ⟨-, rfl⟩ : _ ∧ _ = s' := by simpa [KaracChannel.stepReceiver] using hstep
      cases hlive
    | _ => cases hstep

theorem Seen.absenceReports (hs : s.Seen) : s.AbsenceReports := by
  intro a tries s' h
  by_contra hlive
  cases hi : a.sender with
  | none =>
    obtain ⟨-, hstep⟩ := (step_eq_receiver hi).mp h
    cases a <;> simp [KaracChannel.stepReceiver] at hstep
    all_goals grind
  | some i =>
    obtain ⟨pc, hpc, hstep⟩ := (step_eq_sender hi).mp h
    have hmem := List.mem_of_getElem? hpc
    cases a with
    | sendSenders j =>
      cases pc <;> simp only [KaracChannel.stepSender, reduceCtorEq] at hstep
      rename_i tries' v total
      have hlt := hs.seen (by simpa using hlive) tries' v total hmem
      rw [if_neg (by omega)] at hstep
      cases hstep
    | _ =>
      cases pc <;> simp [KaracChannel.stepSender] at hstep
      all_goals grind

/-- What holds of the channel at every interleaving point. -/
structure Protocol (s : KaracChannel α) : Prop where
  /-- Values come in order, each once, and what has been put and not received is in the queue. -/
  order : s.sent = s.received ++ s.queue
  closed : s.ClosedReports
  /-- It is freed once, when the last handle has been dropped. -/
  freed : s.freed = 1 ∧ s.AllDropped ∨ s.freed = 0 ∧ ¬s.AllDropped
  untouched : s.freed = 1 → ∀ a, s.step a = none

theorem Valid.protocol (hs : s.Valid) : s.Protocol := by
  have hfreed : s.freed = 1 ∧ s.AllDropped ∨ s.freed = 0 ∧ ¬s.AllDropped := by
    rw [hs.freed, ← hs.total_eq_zero_iff]
    by_cases h0 : s.total = 0 <;> simp [h0]
  refine ⟨hs.order, hs.closedReports, hfreed, fun h1 => ?_⟩
  rcases hfreed with ⟨-, hall⟩ | ⟨h0, -⟩
  · exact hall.step_eq_none
  · omega

/-- In every run the values, the close and the free are as the protocol says; the absence of receivers is reported
rightly in every run in which no `clone` overlaps the two loads of a send. -/
theorem channel_protocol (capacity : ℕ) (as : List (Action α)) (s : KaracChannel α)
    (hrun : (withCapacity capacity).run as = some s) :
    s.Protocol ∧ (Lib.AllSteps next NoOverlap (withCapacity capacity) as → s.AbsenceReports) := by
  refine ⟨(valid_run hrun).protocol, fun hc => ?_⟩
  have hseen : s.Seen := by
    refine Lib.runSteps_invariant (fun s a s' hs hc hnext => ?_) (seen_withCapacity capacity) hc hrun
    obtain ⟨⟨o, t⟩, hstep, rfl⟩ := Option.map_eq_some_iff.mp hnext
    exact hs.step hc hstep
  exact hseen.absenceReports

/-- Two senders, one value each, and all handles dropped. -/
def droppedRun : List (Action ℕ) :=
  [.cloneSenders 0, .cloneTotal 0, .sendTotal 0 false 7, .sendSenders 0, .sendTotal 1 true 8, .sendSenders 1, .enqueue 1,
    .enqueue 0, .notify 0, .notify 1, .recv, .dropSenders 0, .dropSenders 1, .recv, .release 0, .close 1, .recv,
    .dropReceiver, .wake 1, .release 1]

theorem channel_protocol_droppedRun : ∃ s, (withCapacity 2).run droppedRun = some s ∧ s.received = [8, 7] ∧
    s.Protocol ∧ s.AbsenceReports := by
  have hend : ((withCapacity 2).run droppedRun).any (fun s => s.received = [8, 7]) = true := by decide
  obtain ⟨s, hrun, hreceived⟩ := (Option.any_eq_true _ _).mp hend
  obtain ⟨hprotocol, habsence⟩ := channel_protocol 2 droppedRun s hrun
  exact ⟨s, hrun, by simpa using hreceived, hprotocol, habsence (by decide)⟩

/-- The handle `0` is being cloned, with `senders` incremented and `total` not, while `1` sends. -/
def cloningRun : List (Action ℕ) := [.cloneSenders 0, .cloneTotal 0, .cloneSenders 0, .sendTotal 1 true 7]

/-- A clone of the handle `0` comes between the two loads of a send on `1`. -/
def clonedRun : List (Action ℕ) :=
  [.cloneSenders 0, .cloneTotal 0, .sendTotal 1 false 7, .cloneSenders 0, .cloneTotal 0]

/-- The receiver lives, and the send that has come to its second load reports that there is none. -/
theorem absence_reported_of_live_receiver :
    (((withCapacity 0).run cloningRun).any fun s =>
      s.receiver ∧ (s.step (.sendSenders 1)).map Prod.fst = some (some (.noReceiver true))) = true ∧
    (((withCapacity 0).run clonedRun).any fun s =>
      s.receiver ∧ (s.step (.sendSenders 1)).map Prod.fst = some (some (.noReceiver false))) = true := by decide

end KaracChannel

end Karac.Runtime
