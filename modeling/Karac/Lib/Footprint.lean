import Mathlib

/-! Actions with a read and a write footprint over a store of cells. Two actions whose footprints
are independent commute, so a list of pairwise independent actions can be performed in any order. -/

namespace Karac.Lib

variable {ι Cell Val Res : Type*}

/-- The cells an action assigns, with their new values. -/
abbrev Update (Cell Val : Type*) := Cell → Option Val

def Update.apply (u : Update Cell Val) (s : Cell → Val) : Cell → Val := fun c => (u c).getD (s c)

/-- An action computes an update and a result from the store, or fails. -/
abbrev Action (Cell Val Res : Type*) := (Cell → Val) → Option (Update Cell Val × Res)

/-- `f` depends on the cells of `R` only and assigns only cells of `W`. -/
structure HasFootprint (f : Action Cell Val Res) (R W : Set Cell) : Prop where
  reads : ∀ s t, (∀ c ∈ R, s c = t c) → f s = f t
  writes : ∀ s r, f s = some r → ∀ c, (r.1 c).isSome → c ∈ W

theorem Update.apply_of_notMem {f : Action Cell Val Res} {R W : Set Cell} (hf : HasFootprint f R W)
    {s : Cell → Val} {r : Update Cell Val × Res} (hr : f s = some r) (t : Cell → Val) {c : Cell}
    (hc : c ∉ W) : Update.apply r.1 t c = t c := by
  unfold Update.apply
  cases hu : r.1 c with
  | none => rfl
  | some v => exact absurd (hf.writes s r hr c (by rw [hu]; rfl)) hc

/-- The second action does not see the first one's writes. -/
theorem HasFootprint.frame {f g : Action Cell Val Res} {Rf Wf Rg Wg : Set Cell}
    (hf : HasFootprint f Rf Wf) (hg : HasFootprint g Rg Wg) (hd : Disjoint Wf Rg)
    {s : Cell → Val} {r : Update Cell Val × Res} (hr : f s = some r) :
    g (Update.apply r.1 s) = g s := by
  refine hg.reads _ _ fun c hc => ?_
  exact Update.apply_of_notMem hf hr s fun hcw => Set.disjoint_left.mp hd hcw hc

theorem HasFootprint.apply_comm {f g : Action Cell Val Res} {Rf Wf Rg Wg : Set Cell}
    (hf : HasFootprint f Rf Wf) (hg : HasFootprint g Rg Wg) (hd : Disjoint Wf Wg)
    {s t : Cell → Val} {r q : Update Cell Val × Res} (hr : f s = some r) (hq : g t = some q)
    (x : Cell → Val) :
    Update.apply q.1 (Update.apply r.1 x) = Update.apply r.1 (Update.apply q.1 x) := by
  funext c
  by_cases hc : c ∈ Wf
  · have hcg : c ∉ Wg := fun h => Set.disjoint_left.mp hd hc h
    have hout : ∀ y : Cell → Val, Update.apply q.1 y c = y c :=
      fun y => Update.apply_of_notMem hg hq y hcg
    rw [hout]
    simp only [Update.apply] at hout ⊢
    rw [hout]
  · have hout : ∀ y : Cell → Val, Update.apply r.1 y c = y c :=
      fun y => Update.apply_of_notMem hf hr y hc
    rw [hout]
    simp only [Update.apply] at hout ⊢
    rw [hout]

/-- Neither footprint writes what the other reads or writes. -/
structure Independent (R₁ W₁ R₂ W₂ : Set Cell) : Prop where
  writeRead : Disjoint W₁ R₂
  writeWrite : Disjoint W₁ W₂
  readWrite : Disjoint W₂ R₁

variable [DecidableEq ι]

/-- Perform action `i` on the current store and file its result under `i`. -/
def perform (acts : ι → Action Cell Val Res) (st : Option ((Cell → Val) × (ι → Option Res))) (i : ι) :
    Option ((Cell → Val) × (ι → Option Res)) :=
  st.bind fun p => (acts i p.1).map fun r => (Update.apply r.1 p.1, Function.update p.2 i (some r.2))

theorem perform_comm (acts : ι → Action Cell Val Res) {R W : ι → Set Cell} {i j : ι}
    (hfi : HasFootprint (acts i) (R i) (W i)) (hfj : HasFootprint (acts j) (R j) (W j)) (hij : i ≠ j)
    (hind : Independent (R i) (W i) (R j) (W j)) (st : Option ((Cell → Val) × (ι → Option Res))) :
    perform acts (perform acts st i) j = perform acts (perform acts st j) i := by
  cases st with
  | none => rfl
  | some p =>
    obtain ⟨s, out⟩ := p
    simp only [perform, Option.bind_some]
    cases hi : acts i s with
    | none =>
      cases hj : acts j s with
      | none => rfl
      | some q =>
        have hback := hfj.frame hfi hind.readWrite hj
        simp [hback, hi]
    | some r =>
      have hfwd := hfi.frame hfj hind.writeRead hi
      cases hj : acts j s with
      | none => simp [hfwd, hj]
      | some q =>
        have hback := hfj.frame hfi hind.readWrite hj
        have hcomm := hfi.apply_comm hfj hind.writeWrite hi hj s
        simp only [Option.map_some, Option.bind_some, hfwd, hback, hi, hj, hcomm]
        rw [Function.update_comm hij]

/-- Pairwise independent actions may be performed in any order. -/
theorem perform_perm (acts : ι → Action Cell Val Res) {R W : ι → Set Cell}
    {l l' : List ι} (hp : l.Perm l') (hfp : ∀ i ∈ l, HasFootprint (acts i) (R i) (W i))
    (hind : ∀ i ∈ l, ∀ j ∈ l, i ≠ j → Independent (R i) (W i) (R j) (W j))
    (st : Option ((Cell → Val) × (ι → Option Res))) :
    l.foldl (perform acts) st = l'.foldl (perform acts) st := by
  refine hp.foldl_eq' (fun i hi j hj z => ?_) st
  by_cases hij : i = j
  · rw [hij]
  · exact perform_comm acts (hfp i hi) (hfp j hj) hij (hind i hi j hj hij) z

theorem perform_foldl_none (acts : ι → Action Cell Val Res) (l : List ι) :
    l.foldl (perform acts) none = none := by
  induction l with
  | nil => rfl
  | cons i l ih => exact ih

/-- The results filed under other indices stay. -/
theorem perform_foldl_result_of_notMem (acts : ι → Action Cell Val Res) {l : List ι} {i : ι}
    (hi : i ∉ l) {p q : (Cell → Val) × (ι → Option Res)}
    (h : l.foldl (perform acts) (some p) = some q) : q.2 i = p.2 i := by
  induction l generalizing p with
  | nil => rw [Option.some.inj h]
  | cons j l ih =>
    rw [List.foldl_cons] at h
    cases hj : acts j p.1 with
    | none => simp [perform, hj, perform_foldl_none] at h
    | some r =>
      have hstep : perform acts (some p) j =
          some (Update.apply r.1 p.1, Function.update p.2 j (some r.2)) := by simp [perform, hj]
      rw [hstep] at h
      rw [ih (fun hm => hi (List.mem_cons_of_mem _ hm)) h]
      exact Function.update_of_ne (fun he => hi (by rw [he]; exact List.mem_cons_self)) _ _

end Karac.Lib
