import Karac.Runtime.CancelSweep

/-! A cancelled parked task is swept. Of every registration whose flag is set either a sweep of its shard is still to come
and the dispatcher is awake to it, or the thread that set the flag or published the registration has yet to request one.
A timer's registration makes no request of its own, so this fails for a timer published once its cancellation is over. -/

namespace Karac.Runtime

namespace Shard

/-- A sweep that will claim `token` is under way, or is requested. -/
def Requested (sh : Shard) (token : ℕ) : Prop :=
  sh.pc = .collecting ∨ (∃ todo, sh.pc = .sweeping todo ∧ token ∈ todo) ∨ sh.sweepRequested = true

/-- The dispatcher will come to that sweep without another wake. -/
def Covered (sh : Shard) (token : ℕ) : Prop :=
  sh.pc = .collecting ∨ (∃ todo, sh.pc = .sweeping todo ∧ token ∈ todo) ∨
    sh.sweepRequested = true ∧ (sh.waker = true ∨ ∃ todo, sh.pc = .claiming todo)

/-- What is done about `token` in `sh` is done in `sh'`. -/
def Keeps (sh sh' : Shard) (token : ℕ) : Prop :=
  (sh.Covered token → sh'.Covered token) ∧ (sh.Requested token → sh'.Requested token)

/-- With a waker event pending the dispatcher will come to whatever sweep is requested. -/
theorem Requested.covered_of_waker {sh : Shard} {token : ℕ} (h : sh.Requested token) (hw : sh.waker = true) :
    sh.Covered token :=
  h.imp_right (Or.imp_right fun hs => ⟨hs, Or.inl hw⟩)

theorem Keeps.refl (sh : Shard) (token : ℕ) : sh.Keeps sh token := ⟨id, id⟩

theorem Keeps.of_eq {sh sh' : Shard} {token : ℕ} (hpc : sh'.pc = sh.pc) (hs : sh'.sweepRequested = sh.sweepRequested)
    (hw : sh'.waker = sh.waker) : sh.Keeps sh' token := by
  simp [Keeps, Covered, Requested, hpc, hs, hw]

theorem not_covered_of_polling {sh : Shard} {token : ℕ} (hpc : sh.pc = .polling) (hw : sh.waker = false) :
    ¬sh.Covered token := by
  simp [Covered, hpc, hw]

end Shard

/-- The request is for the flag `c`, or for the registration `token` of the shard `i`. -/
def Cause.isOf (i token c : ℕ) : Cause → Bool
  | .cancelled flags => c ∈ flags
  | .registered i' token' => i' = i && token' = token

namespace ThreadPc

/-- The thread is between setting the flag `c`, or publishing that registration, and its own sweep request. -/
def answers (i token c : ℕ) : ThreadPc → Bool
  | .cancelling _ done => c ∈ done
  | .published i' token' _ => i' = i && token' = token
  | .armed i' token' _ => i' = i && token' = token
  | .checking i' token' _ => i' = i && token' = token
  | .storing _ cause => cause.isOf i token c
  | .waking _ cause => cause.isOf i token c
  | .timed _ => false
  | .finished => false

/-- Where the thread is in its request with respect to the shard `i`. -/
def Ahead (i token : ℕ) (sh : Shard) : ThreadPc → Prop
  | .storing k _ => k ≤ i ∨ sh.Requested token
  | .waking k _ => k ≤ i ∧ sh.Requested token
  | _ => True

/-- The thread's own request will have the registration swept. -/
def Responsible (i token c : ℕ) (sh : Shard) (pc : ThreadPc) : Prop :=
  pc.answers i token c = true ∧ pc.Ahead i token sh

theorem Responsible.mono {i token c : ℕ} {sh sh' : Shard} {pc : ThreadPc} (h : pc.Responsible i token c sh)
    (hr : sh.Requested token → sh'.Requested token) : pc.Responsible i token c sh' := by
  refine ⟨h.1, ?_⟩
  have hahead := h.2
  cases pc with
  | storing k cause => exact hahead.imp_right hr
  | waking k cause => exact hahead.imp_right hr
  | _ => trivial

/-- The fd registration that the thread is making. -/
def fd : ThreadPc → Option (ℕ × ℕ × Option ℕ)
  | .published i token cancel => some (i, token, cancel)
  | .armed i token cancel => some (i, token, cancel)
  | .checking i token cancel => some (i, token, cancel)
  | _ => none

end ThreadPc

namespace Reactors

variable {s s' : Reactors}

def Swept (s : Reactors) (i : ℕ) (sh : Shard) (token c : ℕ) : Prop :=
  sh.Covered token ∨ ∃ pc ∈ s.threads, pc.Responsible i token c sh

/-- The flag that the thread of an fd registration will read is that of its entry. -/
def FdValid (s : Reactors) (pc : ThreadPc) : Prop :=
  ∀ i token cancel, pc.fd = some (i, token, cancel) → ∃ sh, s.shards[i]? = some sh ∧ token < sh.nextToken ∧
    ∀ e ∈ sh.entries, e.token = token → e.cancel = cancel

/-- Someone will see to every registration whose flag is set. -/
structure Attended (s : Reactors) : Prop where
  swept : ∀ (i : ℕ) (sh : Shard) (e : FdState) (c : ℕ), s.shards[i]? = some sh → e ∈ sh.entries →
    e.cancel = some c → c ∈ s.cancelled → s.Swept i sh e.token c
  fds : ∀ pc ∈ s.threads, s.FdValid pc

theorem attended_init (n : ℕ) : (init n).Attended := by
  refine ⟨fun i sh e c hi he => ?_, by simp [init]⟩
  obtain rfl : sh = Shard.init := List.eq_of_mem_replicate (List.mem_of_getElem? hi)
  cases he

theorem getElem?_modify {shards : List Shard} {k i : ℕ} {f : Shard → Shard} {sh' : Shard} :
    (shards.modify k f)[i]? = some sh' ↔ ∃ sh, shards[i]? = some sh ∧ sh' = if k = i then f sh else sh := by
  simp only [List.getElem?_modify, Option.map_eq_map, Option.map_eq_some_iff, eq_comm (a := sh')]

/-- `f` only removes entries from the shard `k`, and leaves what is done about the others. -/
def Tame (s : Reactors) (k : ℕ) (f : Shard → Shard) : Prop :=
  ∀ sh, s.shards[k]? = some sh → (f sh).entries ⊆ sh.entries ∧ sh.nextToken ≤ (f sh).nextToken ∧
    ∀ e ∈ (f sh).entries, ∀ c, e.cancel = some c → c ∈ s.cancelled → sh.Keeps (f sh) e.token

theorem tame_of_eq {k : ℕ} {f : Shard → Shard} (hentries : ∀ sh, (f sh).entries ⊆ sh.entries)
    (hnext : ∀ sh, (f sh).nextToken = sh.nextToken) (hkeeps : ∀ sh token, Shard.Keeps sh (f sh) token) :
    s.Tame k f :=
  fun sh _ => ⟨hentries sh, (hnext sh).ge, fun e _ _ _ _ => hkeeps sh e.token⟩

theorem tame_id (k : ℕ) : s.Tame k id := tame_of_eq (fun _ => List.Subset.refl _) (fun _ => rfl) Shard.Keeps.refl

theorem tame_request (k : ℕ) : s.Tame k fun sh => { sh with sweepRequested := true } := by
  refine tame_of_eq (fun _ => List.Subset.refl _) (fun _ => rfl) fun sh token => ⟨fun h => ?_, fun h => ?_⟩
  · exact h.imp_right (Or.imp_right fun h => ⟨rfl, h.2⟩)
  · exact h.imp_right (Or.imp_right fun _ => rfl)

theorem tame_wake (k : ℕ) : s.Tame k fun sh => { sh with waker := true } := by
  refine tame_of_eq (fun _ => List.Subset.refl _) (fun _ => rfl) fun sh token => ⟨fun h => ?_, fun h => ?_⟩
  · exact h.imp_right (Or.imp_right fun h => ⟨h.1, Or.inl rfl⟩)
  · exact h

theorem tame_remove (k token : ℕ) : s.Tame k fun sh => sh.remove token :=
  tame_of_eq (fun _ => List.filter_subset_self _) (fun _ => rfl) fun _ _ => .of_eq rfl rfl rfl

theorem FdValid.modify {k : ℕ} {f : Shard → Shard} {pc : ThreadPc} (h : s.FdValid pc) (hf : s.Tame k f)
    (hshards : s'.shards = s.shards.modify k f) : s'.FdValid pc := by
  intro i token cancel hfd
  obtain ⟨sh, hi, hlt, hentries⟩ := h i token cancel hfd
  rw [hshards]
  refine ⟨_, getElem?_modify.mpr ⟨sh, hi, rfl⟩, ?_⟩
  by_cases hk : k = i
  · subst hk
    obtain ⟨hsub, hnext, -⟩ := hf sh hi
    rw [if_pos rfl]
    exact ⟨hlt.trans_le hnext, fun e he => hentries e (hsub he)⟩
  · rw [if_neg hk]
    exact ⟨hlt, hentries⟩

/-- One shard changes tamely, and each thread that is no longer there has handed its registrations on. -/
theorem Attended.of_modify {k : ℕ} {f : Shard → Shard} (hs : s.Attended) (hf : s.Tame k f)
    (hshards : s'.shards = s.shards.modify k f) (hcancelled : s'.cancelled = s.cancelled)
    (hold : ∀ pc ∈ s.threads, pc ∈ s'.threads ∨ ∀ (i : ℕ) (sh sh' : Shard) (e : FdState) (c : ℕ),
      s.shards[i]? = some sh → s'.shards[i]? = some sh' → e ∈ sh.entries → e ∈ sh'.entries → e.cancel = some c → c ∈ s.cancelled →
      pc.Responsible i e.token c sh → s'.Swept i sh' e.token c)
    (hnew : ∀ pc ∈ s'.threads, pc ∈ s.threads ∨ s'.FdValid pc) : s'.Attended := by
  have hback : ∀ (i : ℕ) (sh' : Shard), s'.shards[i]? = some sh' → ∃ sh, s.shards[i]? = some sh ∧
      sh'.entries ⊆ sh.entries ∧ ∀ e ∈ sh'.entries, ∀ c, e.cancel = some c → c ∈ s.cancelled → sh.Keeps sh' e.token := by
    intro i sh' hi
    rw [hshards] at hi
    obtain ⟨sh, hsh, rfl⟩ := getElem?_modify.mp hi
    by_cases hk : k = i
    · subst hk
      rw [if_pos rfl]
      exact ⟨sh, hsh, (hf sh hsh).1, (hf sh hsh).2.2⟩
    · rw [if_neg hk]
      exact ⟨sh, hsh, List.Subset.refl _, fun e _ _ _ _ => .refl sh e.token⟩
  refine ⟨fun i sh' e c hi he hec hc => ?_, fun pc hpc => ?_⟩
  · rw [hcancelled] at hc
    obtain ⟨sh, hi', hsub, hkeeps⟩ := hback i sh' hi
    have hkeep := hkeeps e he c hec hc
    rcases hs.swept i sh e c hi' (hsub he) hec hc with hcovered | ⟨pc, hpc, hresp⟩
    · exact Or.inl (hkeep.1 hcovered)
    · rcases hold pc hpc with hmem | hhand
      · exact Or.inr ⟨pc, hmem, hresp.mono hkeep.2⟩
      · exact hhand i sh sh' e c hi' hi (hsub he) he hec hc hresp
  · rcases hnew pc hpc with hpc | hvalid
    · exact (hs.fds pc hpc).modify hf hshards
    · exact hvalid

theorem mem_set_cases {threads : List ThreadPc} {j : ℕ} {pc pc' : ThreadPc} (hj : threads[j]? = some pc) :
    ∀ pc₀ ∈ threads, pc₀ ∈ threads.set j pc' ∨ pc₀ = pc := by
  intro pc₀ hmem
  obtain ⟨k, hk⟩ := List.getElem?_of_mem hmem
  by_cases hjk : j = k
  · subst hjk
    exact Or.inr (Option.some.inj (hk.symm.trans hj))
  · exact Or.inl (List.mem_of_getElem? (i := k) (by rw [List.getElem?_set_ne hjk, hk]))

/-- A thread takes a step that changes one shard tamely. -/
theorem Attended.thread {k j : ℕ} {f : Shard → Shard} {pc pc' : ThreadPc} (hs : s.Attended) (hf : s.Tame k f)
    (hj : s.threads[j]? = some pc) (hfd : pc'.fd = none ∨ pc'.fd = pc.fd)
    (hresp : ∀ (i : ℕ) (sh : Shard) (e : FdState) (c : ℕ), s.shards[i]? = some sh → e ∈ sh.entries →
      e.cancel = some c → c ∈ s.cancelled →
      (k = i → e ∈ (f sh).entries) → pc.Responsible i e.token c sh →
      (if k = i then f sh else sh).Covered e.token ∨ pc'.Responsible i e.token c (if k = i then f sh else sh)) :
    ((s.modifyShard k f).setThread j pc').Attended := by
  refine hs.of_modify hf rfl rfl (fun pc₀ hmem => ?_) fun pc₀ hmem => ?_
  · refine (mem_set_cases hj pc₀ hmem).imp_right ?_
    rintro rfl i sh sh' e c hi hi' he he' hec hc hold
    obtain ⟨sh₀, hi₀, rfl⟩ := getElem?_modify.mp hi'
    obtain rfl : sh = sh₀ := Option.some.inj (hi.symm.trans hi₀)
    refine (hresp i sh e c hi he hec hc (fun hk => by simpa [hk] using he') hold).imp_right fun hnew => ?_
    exact ⟨pc', List.mem_set (List.getElem?_eq_some_iff.mp hj).1 pc', hnew⟩
  · rcases List.mem_or_eq_of_mem_set hmem with hold | rfl
    · exact Or.inl hold
    · refine Or.inr ?_
      rcases hfd with hfd | hfd
      · intro i token cancel h
        rw [hfd] at h
        cases h
      · have hvalid : ((s.modifyShard k f).setThread j pc₀).FdValid pc :=
          (hs.fds pc (List.mem_of_getElem? hj)).modify hf rfl
        intro i token cancel h
        exact hvalid i token cancel (hfd ▸ h)

theorem setThread_eq (j : ℕ) (pc : ThreadPc) : s.setThread j pc = (s.modifyShard 0 id).setThread j pc := by
  simp [setThread, modifyShard]

/-- The canceller answers for the flag it has just set. -/
theorem Attended.setFlag {j c₀ : ℕ} {todo done : List ℕ} (hs : s.Attended)
    (hj : s.threads[j]? = some (.cancelling (c₀ :: todo) done)) :
    ({ s.setThread j (.cancelling todo (c₀ :: done)) with cancelled := c₀ :: s.cancelled } : Reactors).Attended := by
  have hmem : .cancelling todo (c₀ :: done) ∈ s.threads.set j (.cancelling todo (c₀ :: done)) :=
    List.mem_set (List.getElem?_eq_some_iff.mp hj).1 _
  refine ⟨fun i sh e c hi he hec hc => ?_, fun pc hpc => ?_⟩
  · rcases List.mem_cons.mp hc with rfl | hc
    · exact Or.inr ⟨_, hmem, by simp [ThreadPc.answers], trivial⟩
    · rcases hs.swept i sh e c hi he hec hc with hcovered | ⟨pc, hpc, hresp⟩
      · exact Or.inl hcovered
      · rcases mem_set_cases hj pc hpc with hkept | rfl
        · exact Or.inr ⟨pc, hkept, hresp⟩
        · have hdone : c ∈ done := by simpa [ThreadPc.answers] using hresp.1
          exact Or.inr ⟨_, hmem, by simp [ThreadPc.answers, hdone], trivial⟩
  · rcases List.mem_or_eq_of_mem_set hpc with hold | rfl
    · exact hs.fds pc hold
    · intro i token cancel hfd
      cases hfd

theorem Attended.stepThread {j : ℕ} {ok : Bool} {pc : ThreadPc} (hs : s.Attended) (hj : s.threads[j]? = some pc)
    (h : s.stepThread j ok pc = some s') : s'.Attended := by
  cases pc with
  | cancelling todo done =>
    cases todo with
    | cons c₀ todo =>
      cases h
      exact hs.setFlag hj
    | nil =>
      cases h
      rw [setThread_eq]
      refine hs.thread (tame_id 0) hj (Or.inl rfl) fun i sh e c _ _ _ _ _ hresp => Or.inr ⟨hresp.1, ?_⟩
      exact Or.inl (Nat.zero_le i)
  | published i token cancel =>
    simp only [Reactors.stepThread] at h
    split at h
    · cases h
      rw [setThread_eq]
      refine hs.thread (tame_id 0) hj (Or.inr rfl) fun i sh e c _ _ _ _ _ hresp => Or.inr ⟨hresp.1, trivial⟩
    · cases h
      refine hs.thread (tame_remove i token) hj (Or.inl rfl) fun i' sh e c hi he hec hc hmem hresp => ?_
      obtain ⟨rfl, rfl⟩ : i = i' ∧ token = e.token := by simpa [ThreadPc.answers] using hresp.1
      exact absurd (hmem rfl) (by simp [Shard.remove])
  | armed i token cancel =>
    cases h
    refine hs.thread (tame_wake i) hj (Or.inr rfl) fun i' sh e c _ _ _ _ _ hresp => Or.inr ⟨hresp.1, trivial⟩
  | checking i token cancel =>
    cases h
    rw [setThread_eq]
    refine hs.thread (tame_id 0) hj (Or.inl ?_) fun i' sh e c hi he hec hc _ hresp => Or.inr ?_
    · split <;> rfl
    · obtain ⟨rfl, rfl⟩ : i = i' ∧ token = e.token := by simpa [ThreadPc.answers] using hresp.1
      obtain ⟨sh', hi', -, hcancel⟩ := hs.fds _ (List.mem_of_getElem? hj) i e.token cancel rfl
      obtain rfl : sh = sh' := Option.some.inj (hi.symm.trans hi')
      have hflag : (cancel.any fun c => c ∈ s.cancelled) = true := by
        rw [← hcancel e he rfl, hec]
        simpa using hc
      rw [if_pos hflag]
      exact ⟨by simp [ThreadPc.answers, Cause.isOf], Or.inl (Nat.zero_le i)⟩
  | timed i =>
    cases h
    refine hs.thread (tame_wake i) hj (Or.inl rfl) fun i' sh e c _ _ _ _ _ hresp => ?_
    exact absurd hresp.1 (by simp [ThreadPc.answers])
  | storing k cause =>
    simp only [Reactors.stepThread] at h
    split at h
    · cases h
      refine hs.thread (tame_request k) hj (Or.inl rfl) fun i sh e c _ _ _ _ _ hresp => Or.inr ⟨hresp.1, ?_⟩
      by_cases hk : k = i
      · exact Or.inr (by simp [Shard.Requested, hk])
      · rw [if_neg hk]
        exact hresp.2.imp_left fun hle => by omega
    · rename_i hk
      cases h
      rw [setThread_eq]
      refine hs.thread (tame_id 0) hj (Or.inl rfl) fun i sh e c hi _ _ _ _ hresp => Or.inr ⟨hresp.1, ?_⟩
      have hlt := (List.getElem?_eq_some_iff.mp hi).1
      have hrequested : sh.Requested e.token := hresp.2.resolve_left (by omega)
      exact ⟨Nat.zero_le i, by simpa using hrequested⟩
  | waking k cause =>
    simp only [Reactors.stepThread] at h
    split at h
    · cases h
      refine hs.thread (tame_wake k) hj (Or.inl rfl) fun i sh e c _ _ _ _ _ hresp => ?_
      obtain ⟨hle, hrequested⟩ : k ≤ i ∧ sh.Requested e.token := hresp.2
      by_cases hk : k = i
      · rw [if_pos hk]
        have hwoken : Shard.Requested { sh with waker := true } e.token := hrequested
        exact Or.inl (hwoken.covered_of_waker rfl)
      · rw [if_neg hk]
        exact Or.inr ⟨hresp.1, by omega, hrequested⟩
    · rename_i hk
      cases h
      rw [setThread_eq]
      refine hs.thread (tame_id 0) hj (Or.inl rfl) fun i sh e c hi _ _ _ _ hresp => ?_
      have hlt := (List.getElem?_eq_some_iff.mp hi).1
      obtain ⟨hle, -⟩ : k ≤ i ∧ sh.Requested e.token := hresp.2
      omega
  | finished => cases h

/-- A step that changes one shard tamely, and no thread. -/
theorem Attended.shard {k : ℕ} {f : Shard → Shard} (hs : s.Attended) (hf : s.Tame k f)
    (hshards : s'.shards = s.shards.modify k f) (hcancelled : s'.cancelled = s.cancelled)
    (hthreads : s'.threads = s.threads) : s'.Attended :=
  hs.of_modify hf hshards hcancelled (fun _ hpc => Or.inl (hthreads ▸ hpc)) fun _ hpc => Or.inl (hthreads ▸ hpc)

/-- The token that the dispatcher claims leaves the map. -/
theorem tame_claim {i token : ℕ} {sh : Shard} {todo : List ℕ} (hi : s.shards[i]? = some sh)
    (hpc : sh.pc = .claiming (token :: todo)) :
    s.Tame i fun sh => { sh.remove token with pc := .claiming todo } := by
  intro sh' hi'
  obtain rfl : sh = sh' := Option.some.inj (hi.symm.trans hi')
  refine ⟨List.filter_subset_self _, le_rfl, fun e _ c _ _ => ⟨fun h => ?_, fun h => ?_⟩⟩
  · simp only [Shard.Covered, hpc, reduceCtorEq, false_and, exists_false, false_or] at h
    exact Or.inr (Or.inr ⟨h.1, Or.inr ⟨todo, rfl⟩⟩)
  · simp only [Shard.Requested, hpc, reduceCtorEq, false_and, exists_false, false_or] at h
    exact Or.inr (Or.inr h)

theorem tame_swap {i : ℕ} {sh : Shard} (hi : s.shards[i]? = some sh) (hpc : sh.pc = .claiming []) :
    s.Tame i fun sh =>
      { sh with sweepRequested := false, pc := if sh.sweepRequested then .collecting else .polling } := by
  intro sh' hi'
  obtain rfl : sh = sh' := Option.some.inj (hi.symm.trans hi')
  refine ⟨List.Subset.refl _, le_rfl, fun e _ c _ _ => ⟨fun h => ?_, fun h => ?_⟩⟩
  · simp only [Shard.Covered, hpc, reduceCtorEq, false_and, exists_false, false_or] at h
    exact Or.inl (by simp [h.1])
  · simp only [Shard.Requested, hpc, reduceCtorEq, false_and, exists_false, false_or] at h
    exact Or.inl (by simp [h])

/-- The snapshot has every registration whose flag is set. -/
theorem tame_collect {i : ℕ} :
    s.Tame i fun sh => { sh with pc := .sweeping (sh.collectCancelled s.cancelled) } := by
  refine fun sh _ => ⟨List.Subset.refl _, le_rfl, fun e he c hec hc => ?_⟩
  have hmem : e.token ∈ sh.collectCancelled s.cancelled := by
    refine List.mem_map_of_mem (List.mem_filter.mpr ⟨he, ?_⟩)
    simpa [hec] using hc
  exact ⟨fun _ => Or.inr (Or.inl ⟨_, rfl, hmem⟩), fun _ => Or.inr (Or.inl ⟨_, rfl, hmem⟩)⟩

theorem tame_sweep {i token : ℕ} {sh : Shard} {todo : List ℕ} (hi : s.shards[i]? = some sh)
    (hpc : sh.pc = .sweeping (token :: todo)) :
    s.Tame i fun sh => { sh.remove token with pc := .sweeping todo } := by
  intro sh' hi'
  obtain rfl : sh = sh' := Option.some.inj (hi.symm.trans hi')
  refine ⟨List.filter_subset_self _, le_rfl, fun e he c _ _ => ?_⟩
  have hne : e.token ≠ token := by simpa using List.of_mem_filter he
  constructor
  · rintro (h | ⟨todo', h, hmem⟩ | ⟨hsweep, hw⟩)
    · exact absurd (hpc.symm.trans h) (by simp)
    · obtain rfl : token :: todo = todo' := by simpa [hpc] using h
      exact Or.inr (Or.inl ⟨todo, rfl, (List.mem_cons.mp hmem).resolve_left hne⟩)
    · have hwaker : sh.waker = true := by simpa [hpc] using hw
      exact Or.inr (Or.inr ⟨hsweep, Or.inl hwaker⟩)
  · rintro (h | ⟨todo', h, hmem⟩ | hsweep)
    · exact absurd (hpc.symm.trans h) (by simp)
    · obtain rfl : token :: todo = todo' := by simpa [hpc] using h
      exact Or.inr (Or.inl ⟨todo, rfl, (List.mem_cons.mp hmem).resolve_left hne⟩)
    · exact Or.inr (Or.inr hsweep)

theorem tame_swept {i : ℕ} {sh : Shard} (hi : s.shards[i]? = some sh) (hpc : sh.pc = .sweeping []) :
    s.Tame i fun sh => { sh with pc := .polling } := by
  intro sh' hi'
  obtain rfl : sh = sh' := Option.some.inj (hi.symm.trans hi')
  refine ⟨List.Subset.refl _, le_rfl, fun e _ c _ _ => ⟨fun h => ?_, fun h => ?_⟩⟩
  · have h' : sh.sweepRequested = true ∧ sh.waker = true := by simpa [Shard.Covered, hpc] using h
    exact Or.inr (Or.inr ⟨h'.1, Or.inl h'.2⟩)
  · have h' : sh.sweepRequested = true := by simpa [Shard.Requested, hpc] using h
    exact Or.inr (Or.inr h')

theorem tame_poll {i : ℕ} {sh : Shard} {wakeups : List ℕ} {woken : Bool} (hi : s.shards[i]? = some sh)
    (hpc : sh.pc = .polling) :
    s.Tame i fun sh => { sh with waker := sh.waker && !woken, pc := .claiming wakeups } := by
  intro sh' hi'
  obtain rfl : sh = sh' := Option.some.inj (hi.symm.trans hi')
  refine ⟨List.Subset.refl _, le_rfl, fun e _ c _ _ => ⟨fun h => ?_, fun h => ?_⟩⟩
  · have h' : sh.sweepRequested = true ∧ sh.waker = true := by simpa [Shard.Covered, hpc] using h
    exact Or.inr (Or.inr ⟨h'.1, Or.inr ⟨wakeups, rfl⟩⟩)
  · have h' : sh.sweepRequested = true := by simpa [Shard.Requested, hpc] using h
    exact Or.inr (Or.inr h')

theorem Attended.stepDispatcher {i : ℕ} {sh : Shard} (hs : s.Attended) (hi : s.shards[i]? = some sh)
    (h : s.stepDispatcher i sh = some s') : s'.Attended := by
  simp only [Reactors.stepDispatcher] at h
  split at h
  · cases h
  · rename_i token todo hpc
    cases h
    exact hs.shard (tame_claim hi hpc) rfl rfl rfl
  · rename_i hpc
    cases h
    exact hs.shard (tame_swap hi hpc) rfl rfl rfl
  · cases h
    exact hs.shard tame_collect rfl rfl rfl
  · rename_i token todo hpc
    cases h
    exact hs.shard (tame_sweep hi hpc) rfl rfl rfl
  · rename_i hpc
    cases h
    exact hs.shard (tame_swept hi hpc) rfl rfl rfl

end Reactors

namespace Shard

/-- A sweep is requested, or is to take its snapshot. -/
def sweepPending (sh : Shard) : Bool := sh.pc = .collecting || sh.sweepRequested

/-- The dispatcher will take a snapshot before it blocks, or is woken to take one. -/
def sweepComing (sh : Shard) : Bool :=
  sh.pc = .collecting || sh.sweepRequested && (sh.waker || match sh.pc with
    | .claiming _ => true
    | _ => false)

theorem requested_of_sweepPending {sh : Shard} (h : sh.sweepPending = true) (token : ℕ) : sh.Requested token := by
  rcases (by simpa [sweepPending] using h : sh.pc = .collecting ∨ sh.sweepRequested = true) with h | h
  · exact Or.inl h
  · exact Or.inr (Or.inr h)

theorem covered_of_sweepComing {sh : Shard} (h : sh.sweepComing = true) (token : ℕ) : sh.Covered token := by
  simp only [sweepComing, Bool.or_eq_true, Bool.and_eq_true, decide_eq_true_eq] at h
  rcases h with h | ⟨hsweep, hw | hpc⟩
  · exact Or.inl h
  · exact Or.inr (Or.inr ⟨hsweep, Or.inl hw⟩)
  · split at hpc
    · rename_i todo hclaiming
      exact Or.inr (Or.inr ⟨hsweep, Or.inr ⟨todo, hclaiming⟩⟩)
    · cases hpc

end Shard

/-- The thread has set the flag `c`, and its request has yet to come to the shard `i`. -/
def ThreadPc.willSweep (i c : ℕ) (sh : Shard) : ThreadPc → Bool
  | .cancelling _ done => c ∈ done
  | .storing k (.cancelled flags) => c ∈ flags && (k ≤ i || sh.sweepPending)
  | .waking k (.cancelled flags) => c ∈ flags && (k ≤ i && sh.sweepPending)
  | _ => false

theorem ThreadPc.responsible_of_willSweep {i c : ℕ} {sh : Shard} {pc : ThreadPc} (h : pc.willSweep i c sh = true)
    (token : ℕ) : pc.Responsible i token c sh := by
  unfold ThreadPc.willSweep at h
  split at h
  · exact ⟨h, trivial⟩
  · simp only [Bool.and_eq_true, Bool.or_eq_true, decide_eq_true_eq] at h
    exact ⟨by simpa [ThreadPc.answers, Cause.isOf] using h.1,
      h.2.imp_right fun hp => Shard.requested_of_sweepPending hp token⟩
  · simp only [Bool.and_eq_true, decide_eq_true_eq] at h
    exact ⟨by simpa [ThreadPc.answers, Cause.isOf] using h.1, h.2.1, Shard.requested_of_sweepPending h.2.2 token⟩
  · cases h

namespace Reactors

variable {s s' : Reactors}

theorem Attended.publish {i parked : ℕ} {cancel : Option ℕ} {sh : Shard} {pc : ThreadPc} (hs : s.Attended)
    (hi : s.shards[i]? = some sh) (hfresh : ∀ e ∈ sh.entries, e.token < sh.nextToken)
    (hfd : pc.fd = none ∨ pc.fd = some (i, sh.nextToken, cancel))
    (hswept : ∀ c, cancel = some c → c ∈ s.cancelled → sh.Covered sh.nextToken ∨
      ∃ pc' ∈ s.threads ++ [pc], pc'.Responsible i sh.nextToken c sh) :
    ({ s.modifyShard i fun sh => sh.publish parked cancel with threads := s.threads ++ [pc] } : Reactors).Attended := by
  have hkeeps : ∀ token, sh.Keeps (sh.publish parked cancel) token := fun token => .of_eq rfl rfl rfl
  refine ⟨fun j sh' e c hj he hec hc => ?_, fun pc' hpc' => ?_⟩
  · obtain ⟨sh₀, hj₀, rfl⟩ := getElem?_modify.mp hj
    have hold : e ∈ sh₀.entries → s.Swept j sh₀ e.token c := fun he => hs.swept j sh₀ e c hj₀ he hec hc
    by_cases hij : i = j
    · subst hij
      obtain rfl : sh = sh₀ := Option.some.inj (hi.symm.trans hj₀)
      rw [if_pos rfl] at he ⊢
      have hsw : sh.Covered e.token ∨ ∃ pc' ∈ s.threads ++ [pc], pc'.Responsible i e.token c sh := by
        rcases List.mem_append.mp he with he | he
        · exact (hold he).imp_right fun ⟨pc', hpc', hresp⟩ => ⟨pc', List.mem_append_left _ hpc', hresp⟩
        · obtain rfl := List.mem_singleton.mp he
          exact hswept c hec hc
      exact hsw.imp (hkeeps e.token).1 fun ⟨pc', hpc', hresp⟩ => ⟨pc', hpc', hresp.mono (hkeeps e.token).2⟩
    · rw [if_neg hij] at he ⊢
      exact (hold he).imp_right fun ⟨pc', hpc', hresp⟩ => ⟨pc', List.mem_append_left _ hpc', hresp⟩
  · intro j token cancel' hfd'
    -- the new entry has a token that no thread has been given before
    have hnew : ∀ sh₀, s.shards[j]? = some sh₀ → token < sh₀.nextToken →
        (∀ e ∈ sh₀.entries, e.token = token → e.cancel = cancel') →
        ∃ sh', (s.shards.modify i fun sh => sh.publish parked cancel)[j]? = some sh' ∧ token < sh'.nextToken ∧
          ∀ e ∈ sh'.entries, e.token = token → e.cancel = cancel' := by
      intro sh₀ hj₀ hlt hentries
      refine ⟨_, getElem?_modify.mpr ⟨sh₀, hj₀, rfl⟩, ?_⟩
      by_cases hij : i = j
      · rw [if_pos hij]
        refine ⟨hlt.trans (Nat.lt_succ_self _), fun e he ht => ?_⟩
        rcases List.mem_append.mp he with he | he
        · exact hentries e he ht
        · obtain rfl := List.mem_singleton.mp he
          exact absurd ht (Nat.ne_of_gt hlt)
      · rw [if_neg hij]
        exact ⟨hlt, hentries⟩
    rcases List.mem_append.mp hpc' with hpc' | hpc'
    · obtain ⟨sh₀, hj₀, hlt, hentries⟩ := hs.fds pc' hpc' j token cancel' hfd'
      exact hnew sh₀ hj₀ hlt hentries
    · obtain rfl := List.mem_singleton.mp hpc'
      rcases hfd with hfd | hfd
      · rw [hfd] at hfd'
        cases hfd'
      · obtain ⟨rfl, rfl, rfl⟩ : i = j ∧ sh.nextToken = token ∧ cancel = cancel' := by simpa [hfd] using hfd'
        refine ⟨_, getElem?_modify.mpr ⟨sh, hi, rfl⟩, ?_⟩
        rw [if_pos rfl]
        refine ⟨Nat.lt_succ_self _, fun e he ht => ?_⟩
        rcases List.mem_append.mp he with he | he
        · exact absurd ht (Nat.ne_of_lt (hfresh e he))
        · obtain rfl := List.mem_singleton.mp he
          rfl

/-- Tokens are handed out once, and one whose `poll_fn` has been invoked is in no map. -/
structure Numbered (s : Reactors) : Prop where
  fresh : ∀ (i : ℕ) (sh : Shard) (e : FdState), s.shards[i]? = some sh → e ∈ sh.entries → e.token < sh.nextToken
  gone : ∀ p ∈ s.polled, ∃ sh, s.shards[p.1]? = some sh ∧ p.2 < sh.nextToken ∧ ∀ e ∈ sh.entries, e.token ≠ p.2
  once : s.polled.Nodup

theorem numbered_init (n : ℕ) : (init n).Numbered := by
  refine ⟨fun i sh e hi he => ?_, by simp [init], by simp [init]⟩
  obtain rfl : sh = Shard.init := List.eq_of_mem_replicate (List.mem_of_getElem? hi)
  cases he

/-- Entries are removed from one shard, or new ones with fresh tokens are added to it. -/
theorem Numbered.modify {k : ℕ} {f : Shard → Shard} (hs : s.Numbered) (hshards : s'.shards = s.shards.modify k f)
    (hpolled : s'.polled = s.polled)
    (hf : ∀ sh, s.shards[k]? = some sh → sh.nextToken ≤ (f sh).nextToken ∧
      ∀ e ∈ (f sh).entries, e ∈ sh.entries ∨ sh.nextToken ≤ e.token ∧ e.token < (f sh).nextToken) : s'.Numbered := by
  refine ⟨fun i sh' e hi he => ?_, fun p hp => ?_, hpolled ▸ hs.once⟩
  · rw [hshards] at hi
    obtain ⟨sh, hsh, rfl⟩ := getElem?_modify.mp hi
    by_cases hk : k = i
    · subst hk
      rw [if_pos rfl] at he ⊢
      obtain ⟨hle, hentries⟩ := hf sh hsh
      rcases hentries e he with hold | ⟨-, hlt⟩
      · exact (hs.fresh k sh e hsh hold).trans_le hle
      · exact hlt
    · rw [if_neg hk] at he ⊢
      exact hs.fresh i sh e hsh he
  · obtain ⟨sh, hi, hlt, hnot⟩ := hs.gone p (hpolled ▸ hp)
    rw [hshards]
    refine ⟨_, getElem?_modify.mpr ⟨sh, hi, rfl⟩, ?_⟩
    by_cases hk : k = p.1
    · rw [if_pos hk]
      obtain ⟨hle, hentries⟩ := hf sh (hk ▸ hi)
      refine ⟨hlt.trans_le hle, fun e he => ?_⟩
      rcases hentries e he with hold | ⟨hge, -⟩
      · exact hnot e hold
      · omega
    · rw [if_neg hk]
      exact ⟨hlt, hnot⟩

theorem Numbered.of_subset {k : ℕ} {f : Shard → Shard} (hs : s.Numbered) (hshards : s'.shards = s.shards.modify k f)
    (hpolled : s'.polled = s.polled) (hf : s.Tame k f) : s'.Numbered :=
  hs.modify hshards hpolled fun sh hi => ⟨(hf sh hi).2.1, fun _ he => Or.inl ((hf sh hi).1 he)⟩

/-- The claim: an invoked registration was in the map, and is not any more. -/
theorem Numbered.claim {i token : ℕ} {sh : Shard} {pc : DispatcherPc} (hs : s.Numbered)
    (hi : s.shards[i]? = some sh) : (s.claim i sh token pc).Numbered := by
  have hremoved : ({ s.claim i sh token pc with polled := s.polled } : Reactors).Numbered :=
    hs.modify rfl rfl fun sh _ => ⟨le_rfl, fun e he => Or.inl (List.mem_of_mem_filter he)⟩
  by_cases hclaims : sh.claims token = true
  · obtain ⟨e, he, het⟩ : ∃ e ∈ sh.entries, e.token = token := by
      obtain ⟨e, he, hclaim⟩ := List.any_eq_true.mp hclaims
      exact ⟨e, he, by simpa using (Bool.and_eq_true_iff.mp hclaim).1⟩
    have hnew : (i, token) ∉ s.polled := by
      intro hmem
      obtain ⟨sh', hi', -, hnot⟩ := hs.gone (i, token) hmem
      obtain rfl : sh = sh' := Option.some.inj (hi.symm.trans hi')
      exact hnot e he het
    have hpolled : (s.claim i sh token pc).polled = s.polled ++ [(i, token)] := if_pos hclaims
    refine ⟨hremoved.fresh, fun p hp => ?_, ?_⟩
    · rw [hpolled] at hp
      rcases List.mem_append.mp hp with hp | hp
      · exact hremoved.gone p hp
      · obtain rfl := List.mem_singleton.mp hp
        refine ⟨_, getElem?_modify.mpr ⟨sh, hi, rfl⟩, ?_⟩
        rw [if_pos rfl]
        exact ⟨het ▸ hs.fresh i sh e hi he, fun e he => by simpa using List.of_mem_filter he⟩
    · rw [hpolled]
      exact List.nodup_append.mpr ⟨hs.once, List.nodup_singleton _, fun a ha b hb => by
        rintro rfl
        exact hnew (List.mem_singleton.mp hb ▸ ha)⟩
  · have hpolled : (s.claim i sh token pc).polled = s.polled := if_neg hclaims
    exact ⟨hremoved.fresh, fun p hp => hremoved.gone p (hpolled ▸ hp), hpolled ▸ hs.once⟩

theorem Numbered.of_frame (hs : s.Numbered) (hshards : s'.shards = s.shards) (hpolled : s'.polled = s.polled) :
    s'.Numbered := by
  refine ⟨?_, ?_, hpolled ▸ hs.once⟩
  · rw [hshards]
    exact hs.fresh
  · rw [hshards, hpolled]
    exact hs.gone

theorem Numbered.stepThread {j : ℕ} {ok : Bool} {pc : ThreadPc} (hs : s.Numbered)
    (h : s.stepThread j ok pc = some s') : s'.Numbered := by
  unfold Reactors.stepThread at h
  split at h
  · cases h
    exact hs.of_frame rfl rfl
  · cases h
    exact hs.of_frame rfl rfl
  · rename_i i token cancel
    split at h
    · cases h
      exact hs.of_frame rfl rfl
    · cases h
      exact hs.of_subset rfl rfl (tame_remove i token)
  · cases h
    exact hs.of_subset rfl rfl (tame_wake _)
  · cases h
    exact hs.of_frame rfl rfl
  · cases h
    exact hs.of_subset rfl rfl (tame_wake _)
  · rename_i k cause
    split at h
    · cases h
      exact hs.of_subset rfl rfl (tame_request k)
    · cases h
      exact hs.of_frame rfl rfl
  · rename_i k cause
    split at h
    · cases h
      exact hs.of_subset rfl rfl (tame_wake k)
    · cases h
      exact hs.of_frame rfl rfl
  · cases h

theorem Numbered.stepDispatcher {i : ℕ} {sh : Shard} (hs : s.Numbered) (hi : s.shards[i]? = some sh)
    (h : s.stepDispatcher i sh = some s') : s'.Numbered := by
  unfold Reactors.stepDispatcher at h
  split at h
  · cases h
  · cases h
    exact hs.claim hi
  · rename_i hpc
    cases h
    exact hs.of_subset rfl rfl (tame_swap hi hpc)
  · cases h
    exact hs.of_subset rfl rfl tame_collect
  · cases h
    exact hs.claim hi
  · rename_i hpc
    cases h
    exact hs.of_subset rfl rfl (tame_swept hi hpc)

theorem Numbered.publish {i parked : ℕ} {cancel : Option ℕ} {threads : List ThreadPc} (hs : s.Numbered) :
    ({ s.modifyShard i fun sh => sh.publish parked cancel with threads := threads } : Reactors).Numbered := by
  refine hs.modify (k := i) (f := fun sh => sh.publish parked cancel) rfl rfl fun sh _ =>
    ⟨Nat.le_succ _, fun e he => (List.mem_append.mp he).imp_right fun he => ?_⟩
  obtain rfl := List.mem_singleton.mp he
  exact ⟨le_rfl, Nat.lt_succ_self _⟩

theorem Numbered.step {a : Action} (hs : s.Numbered) (h : s.step a = some s') : s'.Numbered := by
  cases a with
  | cancel flags =>
    cases h
    exact hs.of_frame rfl rfl
  | registerFd i parked cancel =>
    obtain ⟨sh, -, rfl⟩ := Option.map_eq_some_iff.mp h
    exact hs.publish
  | registerTimer i parked cancel =>
    obtain ⟨sh, -, rfl⟩ := Option.map_eq_some_iff.mp h
    exact hs.publish
  | deregister i token =>
    cases h
    exact hs.of_subset rfl rfl (tame_remove i token)
  | thread i ok =>
    obtain ⟨pc, -, hstep⟩ := Option.bind_eq_some_iff.mp h
    exact hs.stepThread hstep
  | pollReturns i wakeups woken =>
    obtain ⟨sh, hi, hstep⟩ := Option.bind_eq_some_iff.mp h
    split at hstep
    · rename_i hcond
      cases hstep
      have hpc : sh.pc = .polling := by simpa using (Bool.and_eq_true_iff.mp hcond).1
      exact hs.of_subset rfl rfl (tame_poll hi hpc)
    · cases hstep
  | dispatch i =>
    obtain ⟨sh, hi, hstep⟩ := Option.bind_eq_some_iff.mp h
    exact hs.stepDispatcher hi hstep

/-- A timer whose flag is already set is published while the canceller's request has yet to come to its shard, or while
a requested sweep of the shard has yet to take its snapshot. -/
def Timely (s : Reactors) : Action → Prop
  | .registerTimer i _ (some c) => c ∈ s.cancelled → ∀ sh ∈ s.shards[i]?,
      sh.sweepComing = true ∨ ∃ pc ∈ s.threads, pc.willSweep i c sh = true
  | _ => True

instance (s : Reactors) (a : Action) : Decidable (s.Timely a) := by
  unfold Timely
  split <;> infer_instance

theorem Attended.step {a : Action} (hs : s.Attended) (hn : s.Numbered) (htimely : s.Timely a)
    (h : s.step a = some s') : s'.Attended := by
  cases a with
  | cancel flags =>
    cases h
    refine ⟨fun i sh e c hi he hec hc => ?_, fun pc hpc => ?_⟩
    · refine (hs.swept i sh e c hi he hec hc).imp_right fun ⟨pc, hpc, hresp⟩ => ?_
      exact ⟨pc, List.mem_append_left _ hpc, hresp⟩
    · rcases List.mem_append.mp hpc with hpc | hpc
      · exact hs.fds pc hpc
      · obtain rfl := List.mem_singleton.mp hpc
        intro i token cancel hfd
        cases hfd
  | registerFd i parked cancel =>
    obtain ⟨sh, hi, rfl⟩ := Option.map_eq_some_iff.mp h
    refine hs.publish hi (fun e he => hn.fresh i sh e hi he) (Or.inr rfl) fun c _ _ => Or.inr ?_
    exact ⟨_, List.mem_append_right _ (List.mem_singleton_self _), by simp [ThreadPc.answers], trivial⟩
  | registerTimer i parked cancel =>
    obtain ⟨sh, hi, rfl⟩ := Option.map_eq_some_iff.mp h
    refine hs.publish hi (fun e he => hn.fresh i sh e hi he) (Or.inl rfl) fun c hec hc => ?_
    subst hec
    rcases htimely hc sh hi with hcoming | ⟨pc, hpc, hwill⟩
    · exact Or.inl (Shard.covered_of_sweepComing hcoming _)
    · exact Or.inr ⟨pc, List.mem_append_left _ hpc, ThreadPc.responsible_of_willSweep hwill _⟩
  | deregister i token =>
    cases h
    exact hs.shard (tame_remove i token) rfl rfl rfl
  | thread i ok =>
    obtain ⟨pc, hj, hstep⟩ := Option.bind_eq_some_iff.mp h
    exact hs.stepThread hj hstep
  | pollReturns i wakeups woken =>
    obtain ⟨sh, hi, hstep⟩ := Option.bind_eq_some_iff.mp h
    split at hstep
    · rename_i hcond
      cases hstep
      have hpc : sh.pc = .polling := by simpa using (Bool.and_eq_true_iff.mp hcond).1
      exact hs.shard (tame_poll hi hpc) rfl rfl rfl
    · cases hstep
  | dispatch i =>
    obtain ⟨sh, hi, hstep⟩ := Option.bind_eq_some_iff.mp h
    exact hs.stepDispatcher hi hstep

/-- A registration whose flag is set sits in a shard whose dispatcher is blocked with no waker event pending, and no
thread is on its way to a request of its own for it. -/
def Stranded (s : Reactors) : Prop :=
  ∃ (i : ℕ) (sh : Shard) (e : FdState) (c : ℕ), s.shards[i]? = some sh ∧ e ∈ sh.entries ∧ e.cancel = some c ∧
    c ∈ s.cancelled ∧ sh.pc = .polling ∧ sh.waker = false ∧ ∀ pc ∈ s.threads, pc.answers i e.token c = false

theorem Attended.not_stranded (hs : s.Attended) : ¬s.Stranded := by
  rintro ⟨i, sh, e, c, hi, he, hec, hc, hpc, hw, hthreads⟩
  rcases hs.swept i sh e c hi he hec hc with hcovered | ⟨pc, hmem, hresp⟩
  · exact Shard.not_covered_of_polling hpc hw hcovered
  · exact absurd hresp.1 (by simp [hthreads pc hmem])

/-- No `poll_fn` is invoked twice, and no registration whose flag is set is stranded as long as every timer is timely. -/
theorem cancelled_swept (n : ℕ) (as : List Action) (s : Reactors) (hrun : (init n).run as = some s) :
    s.polled.Nodup ∧ (Lib.AllSteps step Timely (init n) as → ¬s.Stranded) := by
  refine ⟨?_, fun htimely => ?_⟩
  · have hnumbered : s.Numbered :=
      Lib.runSteps_preserves (fun _ _ _ hn hstep => Numbered.step hn hstep) (numbered_init n) hrun
    exact hnumbered.once
  · have hattended : s.Attended ∧ s.Numbered :=
      Lib.runSteps_invariant (I := fun s => s.Attended ∧ s.Numbered)
        (fun _ _ _ hI hc hstep => ⟨hI.1.step hI.2 hc hstep, hI.2.step hstep⟩)
        ⟨attended_init n, numbered_init n⟩ htimely hrun
    exact hattended.1.not_stranded

/-- A child parks on an fd and on a timer; its cancellation wakes both. -/
def sweptRun : List Action :=
  [.registerFd 0 10 (some 7), .thread 0 true, .thread 0 true, .thread 0 true, .cancel [7], .thread 1 true,
    .registerTimer 0 20 (some 7), .thread 1 true, .thread 1 true, .thread 1 true, .thread 1 true, .thread 1 true,
    .pollReturns 0 [] true, .dispatch 0, .dispatch 0, .dispatch 0, .dispatch 0, .dispatch 0]

theorem cancelled_swept_sweptRun : ∃ s, (init 1).run sweptRun = some s ∧ s.polled = [(0, 1), (0, 2)] ∧ ¬s.Stranded :=
  ⟨_, rfl, rfl, (cancelled_swept 1 sweptRun _ rfl).2 (by decide)⟩

/-- The child's flag is set and its cancellation swept before the child parks on a timer. -/
def lateTimerRun : List Action :=
  [.cancel [7], .thread 0 true, .thread 0 true, .thread 0 true, .thread 0 true, .thread 0 true, .thread 0 true,
    .pollReturns 0 [] true, .dispatch 0, .dispatch 0, .dispatch 0, .registerTimer 0 20 (some 7), .thread 1 true,
    .pollReturns 0 [] true, .dispatch 0]

/-- `register_timer` makes no sweep request where `finish_register` does. -/
theorem late_timer_stranded : ∃ s, (init 1).run lateTimerRun = some s ∧ s.Stranded :=
  ⟨_, rfl, 0, _, _, 7, rfl, List.mem_singleton_self _, rfl, by decide, rfl, rfl, by decide⟩

end Reactors

end Karac.Runtime
