import Mathlib

/-! Circles of a relation, and the points from which no chain goes on for ever. Where only finitely many
points are stepped to, these are the points that lead into no circle. -/

namespace Karac.Lib.Circles

variable {α : Type} (R : α → α → Prop)

def LeadsToCircle (x : α) : Prop := ∃ y, Relation.ReflTransGen R x y ∧ Relation.TransGen R y y

/-- Every chain from the point ends. -/
def Founded (x : α) : Prop := Acc (fun y x => R x y) x

variable {R}

theorem Founded.step {x y : α} (h : Founded R x) (hxy : R x y) : Founded R y := Acc.inv h hxy

theorem Founded.reach {x y : α} (h : Founded R x) (hxy : Relation.ReflTransGen R x y) : Founded R y := by
  induction hxy with
  | refl => exact h
  | tail _ hstep ih => exact ih.step hstep

theorem Founded.not_circle {x : α} (h : Founded R x) : ¬Relation.TransGen R x x := by
  unfold Founded at h
  induction h with
  | intro x _ ih =>
    intro hcircle
    obtain ⟨y, hxy, hyx⟩ := Relation.TransGen.head'_iff.mp hcircle
    exact ih y hxy (Relation.TransGen.tail' hyx hxy)

theorem Founded.not_leads {x : α} (h : Founded R x) : ¬LeadsToCircle R x :=
  fun ⟨_, hreach, hcircle⟩ => (h.reach hreach).not_circle hcircle

theorem founded_of_steps {x : α} (h : ∀ y, R x y → Founded R y) : Founded R x := Acc.intro x h

theorem LeadsToCircle.of_reach {x y : α} (hxy : Relation.ReflTransGen R x y) (h : LeadsToCircle R y) : LeadsToCircle R x :=
  h.imp fun _ hz => ⟨hxy.trans hz.1, hz.2⟩

/-- An endless chain through finitely many points runs into a circle. -/
theorem founded_of_not_leads {nodes : Finset α} (hnodes : ∀ x y, R x y → y ∈ nodes) {x : α} (h : ¬LeadsToCircle R x) :
    Founded R x := by
  -- among the points that lead to no circle, chains are a transitive relation without fixed points
  have : Finite {y // y ∈ nodes ∧ ¬LeadsToCircle R y} :=
    Finite.of_injective (fun y => (⟨y.1, y.2.1⟩ : nodes)) fun y z heq => Subtype.ext (congrArg (fun p => p.1) heq)
  have hwf : WellFounded fun y z : {y // y ∈ nodes ∧ ¬LeadsToCircle R y} => Relation.TransGen R z.1 y.1 := by
    have : Std.Irrefl fun y z : {y // y ∈ nodes ∧ ¬LeadsToCircle R y} => Relation.TransGen R z.1 y.1 :=
      ⟨fun y hcircle => y.2.2 ⟨y.1, Relation.ReflTransGen.refl, hcircle⟩⟩
    have : IsTrans _ fun y z : {y // y ∈ nodes ∧ ¬LeadsToCircle R y} => Relation.TransGen R z.1 y.1 :=
      ⟨fun _ _ _ hyz hzw => hzw.trans hyz⟩
    exact Finite.wellFounded_of_trans_of_irrefl _
  have hin : ∀ y : {y // y ∈ nodes ∧ ¬LeadsToCircle R y}, Founded R y.1 := fun y =>
    hwf.induction y fun z ih => founded_of_steps fun w hzw =>
      ih ⟨w, hnodes _ _ hzw, fun hleads => z.2.2 (hleads.of_reach (Relation.ReflTransGen.single hzw))⟩
        (Relation.TransGen.single hzw)
  exact founded_of_steps fun y hxy => hin ⟨y, hnodes _ _ hxy, fun hleads => h (hleads.of_reach (Relation.ReflTransGen.single hxy))⟩

end Karac.Lib.Circles

/-! Bindings of variables to terms that mention variables: when following them ends, and which bindings keep it so. -/

namespace Karac.Lib

variable {α β : Type*} (vars : β → Set α) (get : α → Option β)

/-- The binding of `x` mentions `v`. -/
def Mentions (v x : α) : Prop := ∃ t, get x = some t ∧ v ∈ vars t

/-- Following the bindings from the variables of `t` arrives at `x`. -/
def Occurs (x : α) (t : β) : Prop := ∃ v ∈ vars t, Relation.ReflTransGen (fun a b => Mentions vars get b a) v x

variable {vars get}

/-- A solution of the bindings: every bound variable has the value its term has. -/
theorem exists_solution {γ : Type*} (h : WellFounded (Mentions vars get)) (value : (α → γ) → β → γ)
    (congr : ∀ f g t, (∀ v ∈ vars t, f v = g v) → value f t = value g t) (free : α → γ) :
    ∃ θ : α → γ, ∀ x, θ x = (get x).elim (free x) (value θ) := by
  classical
  let step (x : α) (rec : ∀ v, Mentions vars get v x → γ) : γ :=
    (get x).elim (free x) (value fun v => if hv : Mentions vars get v x then rec v hv else free v)
  refine ⟨h.fix step, fun x => ?_⟩
  rw [h.fix_eq]
  cases hx : get x with
  | none => simp [step, hx]
  | some t =>
    simp only [step, hx, Option.elim_some]
    apply congr
    intro v hv
    rw [dif_pos ⟨t, hx, hv⟩]

/-- Weights under which every binding is lighter than its variable. -/
theorem exists_weight (h : WellFounded (Mentions vars get)) (weight : (α → ℕ) → β → ℕ)
    (congr : ∀ f g t, (∀ v ∈ vars t, f v = g v) → weight f t = weight g t) :
    ∃ ρ : α → ℕ, ∀ x t, get x = some t → weight ρ t < ρ x := by
  obtain ⟨ρ, hρ⟩ := exists_solution h (fun f t => weight f t + 1)
    (fun f g t hfg => by rw [congr f g t hfg]) fun _ => 0
  refine ⟨ρ, fun x t hx => ?_⟩
  rw [hρ x, hx]
  exact Nat.lt_succ_self _

section

variable [DecidableEq α] {x : α} {t : β}

theorem mentions_update_of_ne {v y : α} (hy : y ≠ x) :
    Mentions vars (Function.update get x (some t)) v y ↔ Mentions vars get v y := by
  simp [Mentions, Function.update_of_ne hy]

theorem mentions_update_self {v : α} : Mentions vars (Function.update get x (some t)) v x ↔ v ∈ vars t := by
  simp [Mentions]

/-- A variable from which `x` is out of reach is not affected by what `x` is bound to. -/
theorem acc_update_of_not_reach {y : α} (hacc : Acc (Mentions vars get) y)
    (hy : ¬ Relation.ReflTransGen (fun a b => Mentions vars get b a) y x) :
    Acc (Mentions vars (Function.update get x (some t))) y := by
  induction hacc with
  | intro y _ ih =>
    have hne : y ≠ x := fun h => hy (h ▸ .refl)
    refine Acc.intro y fun v hv => ?_
    have hv' := (mentions_update_of_ne hne).mp hv
    exact ih v hv' fun hr => hy (.head hv' hr)

/-- A binding that passes the occurs check keeps the bindings well-founded. -/
theorem wellFounded_update (h : WellFounded (Mentions vars get)) (ht : ¬ Occurs vars get x t) :
    WellFounded (Mentions vars (Function.update get x (some t))) := by
  have hx : Acc (Mentions vars (Function.update get x (some t))) x := by
    refine Acc.intro x fun v hv => ?_
    have hvt := mentions_update_self.mp hv
    exact acc_update_of_not_reach (h.apply v) fun hr => ht ⟨v, hvt, hr⟩
  refine ⟨fun y => ?_⟩
  induction y using h.induction with
  | _ y ih =>
    by_cases hy : y = x
    · rwa [hy]
    · exact Acc.intro y fun v hv => ih v ((mentions_update_of_ne hy).mp hv)

end

end Karac.Lib
