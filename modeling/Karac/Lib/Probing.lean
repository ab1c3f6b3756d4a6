import Mathlib

/-! Linear probing. A walk starts at a home slot and takes one slot after the other, cyclically, until a
slot where the chain stops. -/

namespace Karac.Lib

variable {cap : ℕ}

/-- The slot `i` steps from home. -/
def probe (cap home i : ℕ) : ℕ := (home + i) % cap

theorem probe_lt (hcap : 0 < cap) (home i : ℕ) : probe cap home i < cap := Nat.mod_lt _ hcap

theorem probe_zero {home : ℕ} (h : home < cap) : probe cap home 0 = home := Nat.mod_eq_of_lt h

@[simp] theorem probe_probe (home i j : ℕ) : probe cap (probe cap home i) j = probe cap home (i + j) := by
  simp [probe, Nat.add_assoc]

theorem probe_add (home i k : ℕ) : (probe cap home i + k) % cap = probe cap home (i + k) :=
  probe_probe home i k

theorem probe_succ (home i : ℕ) : (probe cap home i + 1) % cap = probe cap home (i + 1) :=
  probe_probe home i 1

@[simp] theorem probe_add_cap (home i : ℕ) : probe cap home (i + cap) = probe cap home i := by
  simp [probe, ← Nat.add_assoc]

theorem probe_eq_add {home i : ℕ} (h : home + i < cap) : probe cap home i = home + i := Nat.mod_eq_of_lt h

/-- Every slot lies on the way, less than a round from home. -/
theorem exists_probe {home s : ℕ} (hh : home < cap) (hs : s < cap) : ∃ i < cap, probe cap home i = s := by
  by_cases hle : home ≤ s
  · exact ⟨s - home, by omega, by rw [probe_eq_add (by omega)]; omega⟩
  · refine ⟨s + cap - home, by omega, ?_⟩
    rw [probe, show home + (s + cap - home) = s + cap by omega, Nat.add_mod_right, Nat.mod_eq_of_lt hs]

/-! The plain walks. -/

/-- The first slot that is hit before the chain stops, among the next `n` slots. -/
def walk (cap : ℕ) (stop hit : ℕ → Bool) : ℕ → ℕ → Option ℕ
  | 0, _ => none
  | n + 1, s => if stop s then none else if hit s then some s else walk cap stop hit n ((s + 1) % cap)

/-- The slot that is hit, or else the first one that may be reused, or else the one that stops the
chain; `after` answers when the slots run out. -/
def insertWalk (cap : ℕ) (stop reuse hit : ℕ → Bool) (after : Option ℕ → ℕ × Bool) :
    ℕ → ℕ → Option ℕ → ℕ × Bool
  | 0, _, t => after t
  | n + 1, s, t =>
    if stop s then (t.getD s, false)
    else if reuse s then insertWalk cap stop reuse hit after n ((s + 1) % cap) (t.or (some s))
    else if hit s then (s, true)
    else insertWalk cap stop reuse hit after n ((s + 1) % cap) t

section Walk

variable {stop reuse hit : ℕ → Bool} {after : Option ℕ → ℕ × Bool}

/-- The walk goes on at the slot. -/
def Passes (stop hit : ℕ → Bool) (s : ℕ) : Prop := stop s = false ∧ hit s = false

theorem walk_skip {n k home : ℕ} (hh : home < cap) (hk : k ≤ n)
    (h : ∀ i < k, Passes stop hit (probe cap home i)) :
    walk cap stop hit n home = walk cap stop hit (n - k) (probe cap home k) := by
  induction k with
  | zero => rw [probe_zero hh, Nat.sub_zero]
  | succ k ih =>
    rw [ih (by omega) fun i hi => h i (by omega)]
    obtain ⟨hstop, hhit⟩ := h k (by omega)
    rw [show n - k = (n - (k + 1)) + 1 by omega, walk, hstop, hhit]
    simp [probe_succ]

theorem walk_hit {n k home : ℕ} (hh : home < cap) (hk : k < n)
    (h : ∀ i < k, Passes stop hit (probe cap home i)) (hstop : stop (probe cap home k) = false)
    (hhit : hit (probe cap home k) = true) : walk cap stop hit n home = some (probe cap home k) := by
  rw [walk_skip hh hk.le h, show n - k = (n - k - 1) + 1 by omega, walk, hstop, hhit]
  simp

theorem walk_stop {n k home : ℕ} (hh : home < cap) (hk : k < n)
    (h : ∀ i < k, Passes stop hit (probe cap home i)) (hstop : stop (probe cap home k) = true) :
    walk cap stop hit n home = none := by
  rw [walk_skip hh hk.le h, show n - k = (n - k - 1) + 1 by omega, walk, hstop]
  simp

theorem walk_none {n home : ℕ} (hh : home < cap) (h : ∀ i < n, Passes stop hit (probe cap home i)) :
    walk cap stop hit n home = none := by
  rw [walk_skip hh le_rfl h, Nat.sub_self, walk]

theorem insertWalk_hit {n k home : ℕ} {t : Option ℕ} (hh : home < cap) (hk : k < n)
    (h : ∀ i < k, Passes stop hit (probe cap home i)) (hstop : stop (probe cap home k) = false)
    (hreuse : reuse (probe cap home k) = false) (hhit : hit (probe cap home k) = true) :
    insertWalk cap stop reuse hit after n home t = (probe cap home k, true) := by
  induction k generalizing n home t with
  | zero =>
    rw [probe_zero hh] at *
    obtain ⟨n, rfl⟩ : ∃ n', n = n' + 1 := ⟨n - 1, by omega⟩
    simp [insertWalk, hstop, hreuse, hhit]
  | succ k ih =>
    have hcap : 0 < cap := by omega
    obtain ⟨n, rfl⟩ : ∃ n', n = n' + 1 := ⟨n - 1, by omega⟩
    have hstep : ∀ j, probe cap ((home + 1) % cap) j = probe cap home (j + 1) := fun j => by
      rw [show (home + 1) % cap = probe cap home 1 from rfl, probe_probe, Nat.add_comm]
    have hrec : ∀ t, insertWalk cap stop reuse hit after n ((home + 1) % cap) t = (probe cap home (k + 1), true) := by
      intro t
      rw [← hstep]
      exact ih (Nat.mod_lt _ hcap) (by omega) (fun i hi => by rw [hstep]; exact h (i + 1) (by omega))
        (by rwa [hstep]) (by rwa [hstep]) (by rwa [hstep])
    obtain ⟨h0, h1⟩ := h 0 (by omega)
    rw [probe_zero hh] at h0 h1
    simp only [insertWalk, h0, h1, Bool.false_eq_true, if_false, hrec, ite_self]

/-- The first slot of the next `k` that may be reused. -/
def firstReuse (cap : ℕ) (reuse : ℕ → Bool) (home k : ℕ) : Option ℕ :=
  ((List.range k).find? fun i => reuse (probe cap home i)).map (probe cap home)

theorem firstReuse_succ (home k : ℕ) : firstReuse cap reuse home (k + 1) =
    (firstReuse cap reuse home k).or (if reuse (probe cap home k) then some (probe cap home k) else none) := by
  unfold firstReuse
  rw [List.range_succ, List.find?_append, Option.map_or]
  by_cases h : reuse (probe cap home k) = true
  · simp [h]
  · simp [h]

theorem firstReuse_eq_none {home k : ℕ} :
    firstReuse cap reuse home k = none ↔ ∀ i < k, reuse (probe cap home i) = false := by
  simp [firstReuse]

/-- The first reusable slot in terms of its distance from home. -/
theorem firstReuse_eq_some {home k t : ℕ} (ht : t < k) (h : reuse (probe cap home t) = true)
    (hbefore : ∀ i < t, reuse (probe cap home i) = false) :
    firstReuse cap reuse home k = some (probe cap home t) := by
  unfold firstReuse
  have hfind : ((List.range k).find? fun i => reuse (probe cap home i)) = some t := by
    rw [List.find?_range_eq_some]
    refine ⟨h, List.mem_range.mpr ht, fun i hi => ?_⟩
    simp [hbefore i hi]
  rw [hfind, Option.map_some]

theorem firstReuse_mem {home k s : ℕ} (h : firstReuse cap reuse home k = some s) :
    ∃ i < k, s = probe cap home i ∧ reuse s = true := by
  obtain ⟨i, hi, rfl⟩ := Option.map_eq_some_iff.mp h
  have hreuse := List.find?_some hi
  exact ⟨i, List.mem_range.mp (List.mem_of_find?_eq_some hi), rfl, by simpa using hreuse⟩

/-- The first reusable slot, or else the last one. -/
theorem firstReuse_getD (home k : ℕ) :
    ∃ i ≤ k, (firstReuse cap reuse home k).getD (probe cap home k) = probe cap home i ∧
      (i = k ∨ reuse (probe cap home i) = true) := by
  cases h : firstReuse cap reuse home k with
  | none => exact ⟨k, le_rfl, rfl, Or.inl rfl⟩
  | some s =>
    obtain ⟨i, hi, rfl, hreuse⟩ := firstReuse_mem h
    exact ⟨i, hi.le, rfl, Or.inr hreuse⟩

theorem firstReuse_extend {home k k' : ℕ} (hk : k ≤ k')
    (h : ∀ i, k ≤ i → i < k' → reuse (probe cap home i) = false) :
    firstReuse cap reuse home k' = firstReuse cap reuse home k := by
  induction k', hk using Nat.le_induction with
  | base => rfl
  | succ k' hle ih =>
    rw [firstReuse_succ, h k' hle (by omega), ih fun i h1 h2 => h i h1 (by omega)]
    simp

theorem insertWalk_skip {n k home : ℕ} {t : Option ℕ} (hh : home < cap) (hk : k ≤ n)
    (h : ∀ i < k, Passes stop hit (probe cap home i)) :
    insertWalk cap stop reuse hit after n home t =
      insertWalk cap stop reuse hit after (n - k) (probe cap home k) (t.or (firstReuse cap reuse home k)) := by
  induction k with
  | zero => simp [firstReuse, probe_zero hh]
  | succ k ih =>
    rw [ih (by omega) fun i hi => h i (by omega)]
    obtain ⟨hstop, hhit⟩ := h k (by omega)
    rw [show n - k = (n - (k + 1)) + 1 by omega, insertWalk, hstop, hhit, firstReuse_succ]
    by_cases hr : reuse (probe cap home k) = true
    · simp [hr, probe_succ]
    · simp [hr, probe_succ]

theorem insertWalk_stop {n k home : ℕ} {t : Option ℕ} (hh : home < cap) (hk : k < n)
    (h : ∀ i < k, Passes stop hit (probe cap home i)) (hstop : stop (probe cap home k) = true) :
    insertWalk cap stop reuse hit after n home t =
      ((t.or (firstReuse cap reuse home k)).getD (probe cap home k), false) := by
  rw [insertWalk_skip hh hk.le h, show n - k = (n - k - 1) + 1 by omega, insertWalk, hstop]
  simp

theorem insertWalk_none {n home : ℕ} {t : Option ℕ} (hh : home < cap)
    (h : ∀ i < n, Passes stop hit (probe cap home i)) :
    insertWalk cap stop reuse hit after n home t = after (t.or (firstReuse cap reuse home n)) := by
  rw [insertWalk_skip hh le_rfl h, Nat.sub_self, insertWalk]

/-! A walk that meets a stop in its first round. -/

/-- The chain from home stops somewhere. -/
def Stops (cap : ℕ) (stop : ℕ → Bool) (home : ℕ) : Prop := ∃ k < cap, stop (probe cap home k) = true

/-- A slot ends the walk: none before it does. -/
theorem Stops.first {home : ℕ} (h : Stops cap stop home) :
    ∃ k < cap, (∀ i < k, Passes stop hit (probe cap home i)) ∧ ¬ Passes stop hit (probe cap home k) := by
  classical
  obtain ⟨n, hn, hstop⟩ := h
  have hends : ∃ k, ¬ Passes stop hit (probe cap home k) :=
    ⟨n, fun hpass => by rw [hpass.1] at hstop; exact absurd hstop (by simp)⟩
  refine ⟨Nat.find hends, ?_, fun i hi => not_not.mp (Nat.find_min hends hi), Nat.find_spec hends⟩
  refine lt_of_le_of_lt (Nat.find_min' hends fun hpass => ?_) hn
  rw [hpass.1] at hstop
  exact absurd hstop (by simp)

/-- Either a hit is found, or the chain stops with nothing hit before. -/
theorem Stops.outcome {home : ℕ} (h : Stops cap stop home) :
    ∃ k < cap, (∀ i < k, Passes stop hit (probe cap home i)) ∧
      (stop (probe cap home k) = true ∨
        stop (probe cap home k) = false ∧ hit (probe cap home k) = true) := by
  obtain ⟨k, hk, hpass, hend⟩ := h.first
  refine ⟨k, hk, hpass, ?_⟩
  by_cases hstop : stop (probe cap home k) = true
  · exact Or.inl hstop
  · have hstop' : stop (probe cap home k) = false := by simpa using hstop
    refine Or.inr ⟨hstop', ?_⟩
    by_contra hhit
    exact hend ⟨hstop', by simpa using hhit⟩

/-- The slot lies on a chain from home that does not stop before it. -/
def Reached (cap : ℕ) (stop : ℕ → Bool) (home s : ℕ) : Prop :=
  ∃ i < cap, probe cap home i = s ∧ ∀ j < i, stop (probe cap home j) = false

/-- Where fewer slots stop, a slot stays reached. -/
theorem Reached.mono {stop' : ℕ → Bool} {home s : ℕ} (h : Reached cap stop home s)
    (hle : ∀ x, stop x = false → stop' x = false) : Reached cap stop' home s := by
  obtain ⟨i, hi, hs, hbefore⟩ := h
  exact ⟨i, hi, hs, fun j hj => hle _ (hbefore j hj)⟩

/-- A slot whose successor stops the chain may become a stop itself: no other chain that goes on runs
through it. -/
theorem Reached.release {home s x : ℕ} (h : Reached cap stop home s) (hs : stop s = false) (hx : s ≠ x)
    (hsucc : stop ((x + 1) % cap) = true) : Reached cap (Function.update stop x true) home s := by
  obtain ⟨i, hi, rfl, hbefore⟩ := h
  refine ⟨i, hi, rfl, fun j hj => ?_⟩
  have hne : probe cap home j ≠ x := by
    rintro rfl
    rw [probe_succ] at hsucc
    by_cases hij : j + 1 = i
    · rw [hij, hs] at hsucc
      exact absurd hsucc (by simp)
    · rw [hbefore (j + 1) (by omega)] at hsucc
      exact absurd hsucc (by simp)
  rw [Function.update_of_ne hne]
  exact hbefore j hj

end Walk

end Karac.Lib
