import Karac.Runtime.HandleSound

/-! The group's books: in every run, whatever the order of registration, completion and drain, the handles in the
group's list and those still to be drained are exactly the registered ones that have not been freed, each once. -/

namespace Karac.Runtime

namespace Handle

theorem Sound.act_owed {x x' : Handle} {a : Act} (hx : x.Sound) (h : x.act a = some x') :
    x'.pushed = x.pushed ∧ (x.pushed = true → x'.freed = x.freed) := by
  obtain ⟨-, hgrouped, -⟩ := act_frame h
  cases hg : x.grouped with
  | false => simp [pushed, hgrouped, hg]
  | true =>
    obtain ⟨hfreed, hpushed⟩ := Grouped.act_frame hg (hx.group hg) h
    exact ⟨hpushed, fun _ => hfreed⟩

theorem Sound.kept {x : Handle} (hx : x.Sound) (hpc : x.pc = .marked) :
    x.pushed = false ∧ x.freed = 0 ∧ x.detached = false ∧ Sound { x with pc := .kept } ∧
      pushed { x with pc := .kept } = true := by
  obtain ⟨hended, halone, hgroup⟩ := hx
  by_cases hg : x.grouped = true
  · obtain ⟨harmed, hworker, hregistered, hdetached, hfreed⟩ : x.armed = false ∧ x.worker ≠ .freeing ∧
        x.registered = true ∧ x.detached = false ∧ x.freed = 0 := by simpa [Grouped, hpc] using hgroup hg
    refine ⟨by simp [pushed, hpc], hfreed, hdetached, ⟨hended, fun h => ?_, fun _ => ?_⟩, by simp [pushed, hg]⟩
    · exact absurd (hg.symm.trans h) (by simp)
    · simp [Grouped, harmed, hworker, hregistered, hdetached, hfreed]
  · simpa [Alone, hpc] using (halone (by simpa using hg)).2

/-- The group frees a registered handle whose task has ended. -/
theorem Sound.freed {x : Handle} (hx : x.Sound) (hpushed : x.pushed = true) (h0 : x.freed = 0)
    (ht : x.terminal = true) : Sound { x with freed := 1 } := by
  have hg : x.grouped = true := by
    simp only [pushed, Bool.and_eq_true] at hpushed
    exact hpushed.1.1
  refine ⟨hx.ended, fun h => absurd (hg.symm.trans h) (by simp), fun _ => ?_⟩
  have hgroup := hx.group hg
  unfold Grouped at hgroup ⊢
  grind [pushed]

theorem Sound.of_freed {x : Handle} (hx : x.Sound) (hpushed : x.pushed = true) (h0 : x.freed ≠ 0) :
    x.terminal = true ∧ x.freed = 1 := by
  have hg : x.grouped = true := by
    simp only [pushed, Bool.and_eq_true] at hpushed
    exact hpushed.1.1
  have hgroup := hx.group hg
  unfold Grouped at hgroup
  grind [pushed]

end Handle

/-- The handles the group still has to free. -/
structure Accounts (handles : List Handle) (owed : List ℕ) : Prop where
  sound : ∀ (i : ℕ) (x : Handle), handles[i]? = some x → x.Sound
  listed : ∀ i : ℕ, i ∈ owed ↔ ∃ x, handles[i]? = some x ∧ x.pushed = true ∧ x.freed = 0
  nodup : owed.Nodup

theorem getElem?_freeAll (handles : List Handle) (dead : List ℕ) (i : ℕ) :
    (Sched.freeAll handles dead)[i]? = (handles[i]?).map fun x => { x with freed := x.freed + dead.count i } := by
  simp [Sched.freeAll]

namespace Accounts

variable {handles : List Handle} {owed : List ℕ}

theorem perm {owed' : List ℕ} (h : Accounts handles owed) (hp : owed.Perm owed') : Accounts handles owed' :=
  ⟨h.sound, fun i => (hp.mem_iff).symm.trans (h.listed i), hp.nodup_iff.mp h.nodup⟩

theorem spawn (h : Accounts handles owed) (coro grouped : Bool) (u : Tid) :
    Accounts (handles ++ [.spawn coro grouped u]) owed := by
  refine ⟨fun i x hi => ?_, fun i => ?_, h.nodup⟩
  · rcases List.mem_append.mp (List.mem_of_getElem? hi) with hold | hnew
    · obtain ⟨j, hj⟩ := List.getElem?_of_mem hold
      exact h.sound j x hj
    · rw [List.mem_singleton.mp hnew]
      exact Handle.sound_spawn ..
  · rw [h.listed i]
    constructor
    · rintro ⟨x, hi, hx⟩
      exact ⟨x, List.getElem?_append_left (List.getElem?_eq_some_iff.mp hi).1 ▸ hi, hx⟩
    · rintro ⟨x, hi, hpushed, h0⟩
      refine ⟨x, ?_, hpushed, h0⟩
      by_cases hlt : i < handles.length
      · rwa [List.getElem?_append_left hlt] at hi
      · rw [List.getElem?_append_right (by omega), List.getElem?_singleton] at hi
        split at hi
        · cases hi
          simp [Handle.pushed, Handle.spawn] at hpushed
        · exact absurd hi (by simp)

/-- One handle changes, with `owed'` told from `owed` at that handle alone. -/
theorem set {owed' : List ℕ} {i : ℕ} {x x' : Handle} (h : Accounts handles owed) (hi : handles[i]? = some x)
    (hx' : x'.Sound) (hother : ∀ j, j ≠ i → (j ∈ owed' ↔ j ∈ owed))
    (hself : i ∈ owed' ↔ x'.pushed = true ∧ x'.freed = 0) (hnodup : owed'.Nodup) :
    Accounts (handles.set i x') owed' := by
  have hlt := (List.getElem?_eq_some_iff.mp hi).1
  refine ⟨fun j y hj => ?_, fun j => ?_, hnodup⟩
  · by_cases hji : j = i
    · subst hji
      rw [List.getElem?_set_self hlt] at hj
      exact Option.some.inj hj ▸ hx'
    · rw [List.getElem?_set_ne (Ne.symm hji)] at hj
      exact h.sound j y hj
  · by_cases hji : j = i
    · subst hji
      rw [hself, List.getElem?_set_self hlt]
      simp
    · rw [hother j hji, h.listed j, List.getElem?_set_ne (Ne.symm hji)]

theorem act {i : ℕ} {x x' : Handle} {a : Act} (h : Accounts handles owed) (hi : handles[i]? = some x)
    (hact : x.act a = some x') : Accounts (handles.set i x') owed := by
  have hx := h.sound i x hi
  obtain ⟨hpushed, hfreed⟩ := hx.act_owed hact
  refine h.set hi (hx.act hact) (fun _ _ => Iff.rfl) ?_ h.nodup
  rw [h.listed i, hi, hpushed]
  constructor
  · rintro ⟨y, hy, hy', h0⟩
    cases hy
    exact ⟨hy', (hfreed hy').trans h0⟩
  · rintro ⟨hy', h0⟩
    exact ⟨x, rfl, hy', (hfreed hy').symm.trans h0⟩

theorem not_mem_of_not_pushed {i : ℕ} {x : Handle} (h : Accounts handles owed) (hi : handles[i]? = some x)
    (hx : x.pushed = false) : i ∉ owed := by
  intro hmem
  obtain ⟨y, hy, hpushed, -⟩ := (h.listed i).mp hmem
  rw [hi] at hy
  cases hy
  exact absurd hpushed (by simp [hx])

/-- The handle `i` enters the list. -/
theorem push {i : ℕ} {x : Handle} (h : Accounts handles owed) (hi : handles[i]? = some x) (hpc : x.pc = .marked) :
    Accounts (handles.set i { x with pc := .kept }) (i :: owed) := by
  obtain ⟨hnot, h0, -, hsound, hpushed⟩ := (h.sound i x hi).kept hpc
  refine h.set hi hsound (fun j hj => by simp [hj]) ?_ ?_
  · exact ⟨fun _ => ⟨hpushed, h0⟩, fun _ => List.mem_cons_self⟩
  · exact List.nodup_cons.mpr ⟨h.not_mem_of_not_pushed hi hnot, h.nodup⟩

/-- Handles the group owes, all of ended tasks, are freed and leave its books. -/
theorem freeAll {owed' dead : List ℕ} (h : Accounts handles owed) (hdead : dead.Nodup) (hsub : ∀ c ∈ dead, c ∈ owed)
    (ht : ∀ c ∈ dead, ∀ x, handles[c]? = some x → x.terminal = true)
    (howed : ∀ i, i ∈ owed' ↔ i ∈ owed ∧ i ∉ dead) (hnodup : owed'.Nodup) :
    Accounts (Sched.freeAll handles dead) owed' := by
  have hlook : ∀ (i : ℕ) (x : Handle), handles[i]? = some x →
      (Sched.freeAll handles dead)[i]? = some { x with freed := x.freed + (if i ∈ dead then 1 else 0) } := by
    intro i x hi
    rw [getElem?_freeAll, hi, hdead.count]
    rfl
  have hnone : ∀ i : ℕ, handles[i]? = none → (Sched.freeAll handles dead)[i]? = none := by
    intro i hi
    rw [getElem?_freeAll, hi]
    rfl
  have hinv : ∀ (i : ℕ) (y : Handle), (Sched.freeAll handles dead)[i]? = some y → ∃ x, handles[i]? = some x ∧
      y = { x with freed := x.freed + (if i ∈ dead then 1 else 0) } := by
    intro i y hy
    cases hi : handles[i]? with
    | none => exact absurd ((hnone i hi).symm.trans hy) (by simp)
    | some x => exact ⟨x, rfl, Option.some.inj (hy.symm.trans (hlook i x hi))⟩
  refine ⟨fun i y hy => ?_, fun i => ?_, hnodup⟩
  · obtain ⟨x, hi, rfl⟩ := hinv i y hy
    by_cases hmem : i ∈ dead
    · obtain ⟨z, hz, hpushed, h0⟩ := (h.listed i).mp (hsub i hmem)
      rw [hi] at hz
      cases hz
      simpa [hmem, h0] using (h.sound i x hi).freed hpushed h0 (ht i hmem x hi)
    · simpa [hmem] using h.sound i x hi
  · rw [howed i, h.listed i]
    constructor
    · rintro ⟨⟨x, hi, hpushed, h0⟩, hmem⟩
      exact ⟨_, hlook i x hi, hpushed, by simp [h0, hmem]⟩
    · rintro ⟨y, hy, hpushed, h0⟩
      obtain ⟨x, hi, rfl⟩ := hinv i y hy
      have hmem : i ∉ dead := by
        intro hmem
        simp [hmem] at h0
      exact ⟨⟨x, hi, hpushed, by simpa [hmem] using h0⟩, hmem⟩

end Accounts

end Karac.Runtime
