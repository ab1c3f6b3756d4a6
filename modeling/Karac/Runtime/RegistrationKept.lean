import Karac.Runtime.CancelSwept

/-! No registration is lost. Whatever the threads, the dispatchers and the cancellations do, a registration that nobody
withdraws sits in its shard's map until its `poll_fn` is invoked, and then never again. -/

namespace Karac.Runtime.Reactors

variable {s s' : Reactors} {i token : ℕ}

/-- The step takes the registration out of the map with no call, or publishes it with a null record. -/
def withdraws (i token : ℕ) (s : Reactors) : Action → Bool
  | .deregister i' token' => i' = i && token' = token
  | .thread j ok => !ok && s.threads[j]?.any fun
    | .published i' token' _ => i' = i && token' = token
    | _ => false
  | .registerFd i' parked _ => i' = i && parked = 0
  | .registerTimer i' parked _ => i' = i && parked = 0
  | _ => false

/-- The registration is in the map or has been called for, once its token is given out. -/
def Kept (i token : ℕ) (s : Reactors) : Prop :=
  ∀ sh, s.shards[i]? = some sh → 0 < token → token < sh.nextToken →
    (∃ e ∈ sh.entries, e.token = token ∧ e.parked ≠ 0) ∨ (i, token) ∈ s.polled

theorem kept_init (n i token : ℕ) : Kept i token (init n) := by
  intro sh hi hpos hlt
  obtain rfl : sh = Shard.init := List.eq_of_mem_replicate (List.mem_of_getElem? hi)
  exact absurd hlt (not_lt.mpr hpos)

/-- One shard changes: what it gives out it publishes, and what it removes is another registration or is called for. -/
theorem Kept.modify {k : ℕ} {f : Shard → Shard} (hs : Kept i token s) (hshards : s'.shards = s.shards.modify k f)
    (hpolled : ∀ p ∈ s.polled, p ∈ s'.polled)
    (hnext : ∀ sh, k = i → token < (f sh).nextToken → sh.nextToken ≤ token →
      ∃ e ∈ (f sh).entries, e.token = token ∧ e.parked ≠ 0)
    (hentries : ∀ sh, s.shards[i]? = some sh → k = i → ∀ e ∈ sh.entries, e.token = token → e.parked ≠ 0 →
      e ∈ (f sh).entries ∨ (i, token) ∈ s'.polled) : Kept i token s' := by
  intro sh' hi hpos hlt
  rw [hshards] at hi
  obtain ⟨sh, hsh, rfl⟩ := getElem?_modify.mp hi
  split_ifs at hlt ⊢ with hk
  · by_cases hold : token < sh.nextToken
    · rcases hs sh hsh hpos hold with ⟨e, he, het, hparked⟩ | hcalled
      · exact (hentries sh hsh hk e he het hparked).imp_left fun hin => ⟨e, hin, het, hparked⟩
      · exact .inr (hpolled _ hcalled)
    · exact .inl (hnext sh hk hlt (not_lt.mp hold))
  · exact (hs sh hsh hpos hlt).imp_right (hpolled _)

theorem Kept.of_frame (hs : Kept i token s) (hshards : s'.shards = s.shards) (hpolled : s'.polled = s.polled) :
    Kept i token s' := by
  unfold Kept
  rwa [hshards, hpolled]

/-- A change of a shard that leaves its map. -/
theorem Kept.of_same {k : ℕ} {f : Shard → Shard} (hs : Kept i token s) (hshards : s'.shards = s.shards.modify k f)
    (hpolled : s'.polled = s.polled) (hf : ∀ sh, (f sh).entries = sh.entries ∧ (f sh).nextToken = sh.nextToken) :
    Kept i token s' :=
  hs.modify hshards (fun _ => hpolled.symm ▸ id) (fun sh _ hlt hle => absurd ((hf sh).2 ▸ hlt) (not_lt.mpr hle))
    fun sh _ _ _ he _ _ => .inl ((hf sh).1 ▸ he)

theorem Kept.remove {k t : ℕ} (hs : Kept i token s) (hshards : s'.shards = s.shards.modify k fun sh => sh.remove t)
    (hpolled : s'.polled = s.polled) (hother : k = i → t ≠ token) : Kept i token s' :=
  hs.modify hshards (fun _ => hpolled.symm ▸ id) (fun sh _ hlt hle => absurd hlt (not_lt.mpr hle))
    fun _ _ hk _ he het _ => .inl (List.mem_filter.mpr ⟨he, by simpa [het] using (hother hk).symm⟩)

theorem Kept.publish {k parked : ℕ} {cancel : Option ℕ} (hs : Kept i token s)
    (hshards : s'.shards = s.shards.modify k fun sh => sh.publish parked cancel) (hpolled : s'.polled = s.polled)
    (hparked : k = i → parked ≠ 0) : Kept i token s' := by
  refine hs.modify hshards (fun _ => hpolled.symm ▸ id) (fun sh hk hlt hle => ?_) fun sh _ _ e he _ _ =>
    .inl (List.mem_append_left _ he)
  refine ⟨⟨sh.nextToken, parked, cancel⟩, List.mem_append_right _ (List.mem_singleton_self _), ?_, hparked hk⟩
  exact hle.antisymm (Nat.lt_succ_iff.mp hlt)

/-- The claim of the registration itself is followed by the call. -/
theorem Kept.claim {k t : ℕ} {sh : Shard} {pc : DispatcherPc} (hs : Kept i token s) (hk : s.shards[k]? = some sh) :
    Kept i token (s.claim k sh t pc) := by
  refine hs.modify (f := fun sh => { sh.remove t with pc := pc }) rfl (fun p hp => ?_)
    (fun sh _ hlt hle => absurd hlt (not_lt.mpr hle)) fun sh' hi hki e he het hparked => ?_
  · unfold Reactors.claim
    split_ifs
    · exact List.mem_append_left _ hp
    · exact hp
  · by_cases ht : t = token
    · subst hki
      obtain rfl : sh = sh' := Option.some.inj (hk.symm.trans hi)
      have hclaims : sh.claims t = true := List.any_eq_true.mpr ⟨e, he, by simp [het, ht, hparked]⟩
      rw [Reactors.claim, if_pos hclaims, ht]
      exact .inr (List.mem_append_right _ (List.mem_singleton_self _))
    · exact .inl (List.mem_filter.mpr ⟨he, by simpa [het] using Ne.symm ht⟩)

theorem Kept.stepThread {j : ℕ} {ok : Bool} {pc : ThreadPc} (hs : Kept i token s)
    (hkeeps : ∀ cancel, ok = false → pc ≠ .published i token cancel) (h : s.stepThread j ok pc = some s') :
    Kept i token s' := by
  unfold Reactors.stepThread at h
  split at h
  · cases h
    exact hs.of_frame rfl rfl
  · cases h
    exact hs.of_frame rfl rfl
  · rename_i k t cancel
    split_ifs at h with hok
    · cases h
      exact hs.of_frame rfl rfl
    · cases h
      refine hs.remove (k := k) (t := t) rfl rfl ?_
      rintro rfl rfl
      exact hkeeps cancel (by simpa using hok) rfl
  · cases h
    exact hs.of_same (f := fun sh => { sh with waker := true }) rfl rfl fun _ => ⟨rfl, rfl⟩
  · cases h
    exact hs.of_frame rfl rfl
  · cases h
    exact hs.of_same (f := fun sh => { sh with waker := true }) rfl rfl fun _ => ⟨rfl, rfl⟩
  · split_ifs at h
    · cases h
      exact hs.of_same (f := fun sh => { sh with sweepRequested := true }) rfl rfl fun _ => ⟨rfl, rfl⟩
    · cases h
      exact hs.of_frame rfl rfl
  · split_ifs at h
    · cases h
      exact hs.of_same (f := fun sh => { sh with waker := true }) rfl rfl fun _ => ⟨rfl, rfl⟩
    · cases h
      exact hs.of_frame rfl rfl
  · cases h

theorem Kept.stepDispatcher {k : ℕ} {sh : Shard} (hs : Kept i token s) (hk : s.shards[k]? = some sh)
    (h : s.stepDispatcher k sh = some s') : Kept i token s' := by
  unfold Reactors.stepDispatcher at h
  split at h
  · cases h
  · cases h
    exact hs.claim hk
  · cases h
    exact hs.of_same rfl rfl fun _ => ⟨rfl, rfl⟩
  · cases h
    exact hs.of_same rfl rfl fun _ => ⟨rfl, rfl⟩
  · cases h
    exact hs.claim hk
  · cases h
    exact hs.of_same rfl rfl fun _ => ⟨rfl, rfl⟩

theorem Kept.step {a : Action} (hs : Kept i token s) (hkeeps : withdraws i token s a = false) (h : s.step a = some s') :
    Kept i token s' := by
  cases a with
  | cancel flags =>
    cases h
    exact hs.of_frame rfl rfl
  | registerFd k parked cancel =>
    obtain ⟨sh, -, rfl⟩ := Option.map_eq_some_iff.mp h
    exact hs.publish rfl rfl fun hk hzero => by simp [withdraws, hk, hzero] at hkeeps
  | registerTimer k parked cancel =>
    obtain ⟨sh, -, rfl⟩ := Option.map_eq_some_iff.mp h
    exact hs.publish rfl rfl fun hk hzero => by simp [withdraws, hk, hzero] at hkeeps
  | deregister k t =>
    cases h
    exact hs.remove rfl rfl fun hk ht => by simp [withdraws, hk, ht] at hkeeps
  | thread j ok =>
    obtain ⟨pc, hj, hstep⟩ := Option.bind_eq_some_iff.mp h
    exact hs.stepThread (fun cancel hok hpc => by simp [withdraws, hok, hj, hpc] at hkeeps) hstep
  | pollReturns k wakeups woken =>
    obtain ⟨sh, -, hstep⟩ := Option.bind_eq_some_iff.mp h
    split_ifs at hstep
    cases hstep
    exact hs.of_same rfl rfl fun _ => ⟨rfl, rfl⟩
  | dispatch k =>
    obtain ⟨sh, hk, hstep⟩ := Option.bind_eq_some_iff.mp h
    exact hs.stepDispatcher hk hstep

/-- A registration that no step withdraws is in the map or has been called for, never both. -/
theorem registration_kept (n : ℕ) (as : List Action) (s : Reactors) (hrun : (init n).run as = some s) (i token : ℕ)
    (hkeeps : Lib.AllSteps step (fun s a => withdraws i token s a = false) (init n) as) (sh : Shard)
    (hi : s.shards[i]? = some sh) (hpos : 0 < token) (hlt : token < sh.nextToken) :
    (∃ e ∈ sh.entries, e.token = token) ↔ (i, token) ∉ s.polled := by
  have hnumbered : s.Numbered :=
    Lib.runSteps_preserves (fun _ _ _ hn hstep => Numbered.step hn hstep) (numbered_init n) hrun
  have hkept : Kept i token s :=
    Lib.runSteps_invariant (fun _ _ _ hs hc hstep => hs.step hc hstep) (kept_init n i token) hkeeps hrun
  constructor
  · rintro ⟨e, he, het⟩ hcalled
    obtain ⟨sh', hi', -, hgone⟩ := hnumbered.gone _ hcalled
    obtain rfl : sh = sh' := Option.some.inj (hi.symm.trans hi')
    exact hgone e he het
  · intro hnot
    obtain ⟨e, he, het, -⟩ := (hkept sh hi hpos hlt).resolve_right hnot
    exact ⟨e, he, het⟩

/-- An fd and a timer: the poll calls for the fd, and the timer waits. -/
def firedRun : List Action :=
  [.registerFd 0 10 none, .thread 0 true, .registerTimer 0 20 none, .thread 0 true, .pollReturns 0 [1] true, .dispatch 0]

theorem registration_kept_fired : ∃ s, (init 1).run firedRun = some s ∧ s.polled = [(0, 1)] ∧
    ∃ sh ∈ s.shards[0]?, ∃ e ∈ sh.entries, e.token = 2 :=
  ⟨_, rfl, rfl, _, rfl, (registration_kept 1 firedRun _ rfl 0 2 (by decide) _ rfl (by decide) (by decide)).mpr (by decide)⟩

end Karac.Runtime.Reactors
