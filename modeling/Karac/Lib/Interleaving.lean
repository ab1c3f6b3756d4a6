import Mathlib

/-! Runs of a step function that is partial: at each point of a run one of the parties takes one atomic step, and a step
that is not enabled is no step of the run. An invariant of the steps that meet a condition is one of the runs whose
steps all meet it, and a run with a step that does not meet it splits at that step. -/

namespace Karac.Lib

variable {σ α : Type*} (step : σ → α → Option σ) (C : σ → α → Prop)

def runSteps : σ → List α → Option σ
  | s, [] => some s
  | s, a :: as => (step s a).bind fun s' => runSteps s' as

/-- Every step of the run from `s` meets `C` in the state before it. -/
def AllSteps : σ → List α → Prop
  | _, [] => True
  | s, a :: as => C s a ∧ ∀ s', step s a = some s' → AllSteps s' as

def AllSteps.decide [∀ s a, Decidable (C s a)] : ∀ s as, Decidable (AllSteps step C s as)
  | _, [] => .isTrue trivial
  | s, a :: as =>
    match _h : step s a with
    | none => decidable_of_iff (C s a) (by simp [AllSteps, _h])
    | some s' =>
      have := AllSteps.decide s' as
      decidable_of_iff (C s a ∧ AllSteps step C s' as) (by simp [AllSteps, _h])

instance [∀ s a, Decidable (C s a)] (s : σ) (as : List α) : Decidable (AllSteps step C s as) :=
  AllSteps.decide step C s as

variable {step C}

@[simp] theorem runSteps_nil (s : σ) : runSteps step s [] = some s := rfl

theorem runSteps_cons {s s' : σ} {a : α} {as : List α} :
    runSteps step s (a :: as) = some s' ↔ ∃ t, step s a = some t ∧ runSteps step t as = some s' := by
  simp [runSteps, Option.bind_eq_some_iff]

theorem runSteps_append {s t u : σ} {as bs : List α} (ht : runSteps step s as = some t) (hu : runSteps step t bs = some u) :
    runSteps step s (as ++ bs) = some u := by
  induction as generalizing s with
  | nil =>
    obtain rfl := Option.some.inj ht
    exact hu
  | cons a as ih =>
    obtain ⟨s', hs', hrest⟩ := runSteps_cons.mp ht
    exact runSteps_cons.mpr ⟨s', hs', ih hrest⟩

/-- What every step that meets `C` preserves holds all along a run whose steps meet it. -/
theorem runSteps_invariant {I : σ → Prop} (hstep : ∀ s a s', I s → C s a → step s a = some s' → I s')
    {s s' : σ} {as : List α} (hs : I s) (hc : AllSteps step C s as) (h : runSteps step s as = some s') : I s' := by
  induction as generalizing s with
  | nil => rwa [Option.some.inj h.symm]
  | cons a as ih =>
    obtain ⟨t, ht, hrun⟩ := runSteps_cons.mp h
    exact ih (hstep s a t hs hc.1 ht) (hc.2 t ht) hrun

/-- What every step preserves holds all along every run. -/
theorem runSteps_preserves {I : σ → Prop} (hstep : ∀ s a s', I s → step s a = some s' → I s')
    {s s' : σ} {as : List α} (hs : I s) (h : runSteps step s as = some s') : I s' := by
  have hall : AllSteps step (fun _ _ => True) s as := by
    clear h hs
    induction as generalizing s with
    | nil => trivial
    | cons a as ih => exact ⟨trivial, fun t _ => ih⟩
  exact runSteps_invariant (fun s a t hI _ h => hstep s a t hI h) hs hall h

/-- Where the steps of a run do not all meet `C`, one of them is taken in a state of the run and does not. -/
theorem exists_step_of_not_allSteps {s s' : σ} {as : List α} (h : runSteps step s as = some s')
    (hc : ¬AllSteps step C s as) : ∃ before a after t t',
      runSteps step s before = some t ∧ ¬C t a ∧ step t a = some t' ∧ runSteps step t' after = some s' := by
  induction as generalizing s with
  | nil => exact absurd trivial hc
  | cons a as ih =>
    obtain ⟨t, ht, hrun⟩ := runSteps_cons.mp h
    by_cases ha : C s a
    · have hrest : ¬AllSteps step C t as := by
        intro hrest
        refine hc ⟨ha, fun t' ht' => ?_⟩
        rw [ht] at ht'
        exact Option.some.inj ht' ▸ hrest
      obtain ⟨before, b, after, u, u', hu, hb, hstep, hafter⟩ := ih hrun hrest
      exact ⟨a :: before, b, after, u, u', runSteps_cons.mpr ⟨t, ht, hu⟩, hb, hstep, hafter⟩
    · exact ⟨[], a, as, s, t, rfl, ha, ht, hrun⟩

/-- A quantity summed over the parties, when one of them changes. -/
theorem sum_map_set {β M : Type*} [AddCommMonoid M] (f : β → M) {l : List β} {i : ℕ} {x : β} (h : l[i]? = some x) (y : β) :
    ((l.set i y).map f).sum + f x = (l.map f).sum + f y := by
  induction l generalizing i with
  | nil => simp at h
  | cons z l ih =>
    cases i with
    | zero =>
      obtain rfl : z = x := by simpa using h
      simp only [List.set_cons_zero, List.map_cons, List.sum_cons]
      exact add_right_comm _ _ _ |>.trans (by rw [add_comm (f y), add_right_comm])
    | succ i =>
      have htail := ih (by simpa using h)
      simp only [List.set_cons_succ, List.map_cons, List.sum_cons]
      rw [add_assoc, htail, add_assoc]

end Karac.Lib
