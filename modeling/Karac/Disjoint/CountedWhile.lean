import Karac.Disjoint.Followed

/-! The bounds of the inner `while` loops. The lower one is the initialiser of the counter, the upper one comes from the
condition. -/

namespace Karac.Disjoint

open Ast Karac.Lib

/-- An index expression that mentions the variable. -/
def Mentions (x : String) (n : Node) : Prop :=
  ∃ object index, n = .expr (.index object index) ∧
    (Node.Within (.expr (.identifier x)) (.expr index) ∨ Node.Within (.expr (.path [x])) (.expr index))

/-- The name stands for another variable from there on. -/
def Event.Declares (x : String) : Event → Prop
  | declared y => x = y
  | bound names => x ∈ names
  | rebound names => x ∈ names
  | _ => False

/-- The bounds of every counted loop that is accepted in the outer loop hold, in the runs with the properties: the lower
one when the run comes to the counted loop, and both when it comes to an index expression within that mentions the
counter. -/
def BoundsHold (Before : Block → String → List Event → Prop) (Inside : String → List Event → List Event → Prop)
    (loop : Expr) : Prop :=
  ∀ (P₀ : Prover) (body : Block), beginWalk loop = .ok (P₀, body) →
  ∀ (loc : List ℕ) (label : Option String) (condition : Expr) (inner : Block) (P P₁ : Prover),
    P₀.atPart (.block body) loc = some (.expr (.whileLoop label condition inner), P) → walkExpr P condition = .ok P₁ →
  ∀ (c : String) (bound : IvBound), (P₁.countedWhileBound condition inner).2 = some (c, bound) →
  ∀ (atom : String → Option ℤ) (σ₀ : Store), (∀ x, P₀.isInvariantName x = true → σ₀.value x = atom x) →
  ∀ (t : List Event) (σ : Store), Arrives atom P₀.isInvariantName (.block body) loc
      (.expr (.whileLoop label condition inner)) σ₀ t σ → Before body c (.entered P₀.loopVar false :: t) →
    (∀ v, σ.value c = some v → bound.lo.eval (atomValue atom) ≤ v) ∧
    ∀ (m : Node) (t' : List Event) (σ' : Store), ArrivesIn atom P₀.isInvariantName label condition inner m σ t' σ' →
      Mentions c m → (∀ e ∈ t', ¬ e.Declares c) → Inside c (.entered P₀.loopVar false :: t) t' →
      ∀ v, σ'.value c = some v →
        bound.lo.eval (atomValue atom) ≤ v ∧ v < bound.hiExclusive.eval (atomValue atom)

/-! Variables that no event touches. -/

section

variable {atom : String → Option ℤ} {fixed : String → Bool} {x : String}

theorem untouched_of_effects {n : Node} {σ σ' : Store} {t : List Event} (h : Effects fixed n σ t σ')
    (ht : ∀ e ∈ t, ¬ e.Touches x) : σ' x = σ x := by
  induction h with
  | nil => rfl
  | cons h _ ih =>
    obtain ⟨hhead, htail⟩ := List.forall_mem_cons.mp ht
    rw [ih htail]
    cases h with
    | own hs hc hw ha => exact declare_of_ne _ _ hhead
    | foreign hx hc hw => exact declare_of_ne _ _ hhead

theorem untouched_of_passes {s : Stmt} {σ σ' : Store} {t : List Event} (h : Passes atom fixed s σ t σ')
    (ht : ∀ e ∈ t, ¬ e.Touches x) : σ' x = σ x := by
  cases h with
  | letName he hv =>
    obtain ⟨ht, hlast⟩ := List.forall_mem_append.mp ht
    rw [declare_of_ne _ _ (hlast _ List.mem_cons_self), untouched_of_effects he ht]
  | letPattern hp he hb =>
    obtain ⟨ht, hlast⟩ := List.forall_mem_append.mp ht
    rw [binds_of_notMem hb (hlast _ List.mem_cons_self), untouched_of_effects he ht]
  | letUninit => exact declare_of_ne _ _ (ht _ List.mem_cons_self)
  | letElse he hb =>
    obtain ⟨ht, hlast⟩ := List.forall_mem_append.mp ht
    rw [binds_of_notMem hb (hlast _ List.mem_cons_self), untouched_of_effects he (List.forall_mem_append.mp ht).1]
  | defer => rfl
  | errDefer => rfl
  | assign he hc hw hv =>
    obtain ⟨ht, hlast⟩ := List.forall_mem_append.mp ht
    rw [Store.write, declare_of_ne _ _ (hlast _ List.mem_cons_self), untouched_of_effects he ht]
  | compound v he hc hw =>
    obtain ⟨ht, hlast⟩ := List.forall_mem_append.mp ht
    rw [Store.write, declare_of_ne _ _ (hlast _ List.mem_cons_self), untouched_of_effects he ht]
  | other hs he => exact untouched_of_effects he ht

theorem untouched_of_passesAll {stmts : List Stmt} {σ σ' : Store} {t : List Event}
    (h : PassesAll atom fixed stmts σ t σ') (ht : ∀ e ∈ t, ¬ e.Touches x) : σ' x = σ x := by
  induction h with
  | nil => rfl
  | cons h _ ih =>
    obtain ⟨ht, ht'⟩ := List.forall_mem_append.mp ht
    rw [ih ht', untouched_of_passes h ht]

theorem untouched_of_arrives {n m : Node} {loc : List ℕ} {σ σ' : Store} {t : List Event}
    (h : Arrives atom fixed n loc m σ t σ') (ht : ∀ e ∈ t, ¬ e.Touches x) : σ' x = σ x := by
  induction h with
  | here => rfl
  | stmt _ hp _ ih =>
    obtain ⟨ht, ht'⟩ := List.forall_mem_append.mp ht
    rw [ih ht', untouched_of_passesAll hp ht]
  | final _ hp _ ih =>
    obtain ⟨ht, ht'⟩ := List.forall_mem_append.mp ht
    rw [ih ht', untouched_of_passesAll hp ht]
  | part _ _ he hb _ ih =>
    obtain ⟨ht, ht'⟩ := List.forall_mem_append.mp ht
    obtain ⟨ht, hbound⟩ := List.forall_mem_append.mp ht
    rw [ih ht', binds_of_notMem hb (hbound _ List.mem_cons_self), untouched_of_effects he ht]

end

/-! Iterations. -/

section

variable {atom : String → Option ℤ} {fixed : String → Bool}

theorem Effects.child {n c : Node} (hc : c ∈ n.children) {σ σ' : Store} {t : List Event} (h : Effects fixed c σ t σ') :
    Effects fixed n σ t σ' := by
  induction h with
  | nil => exact .nil _
  | cons h _ ih =>
    refine .cons ?_ ih
    cases h with
    | own hs hcell hw ha => exact .own (.child hc hs) hcell hw ha
    | foreign hx hcell hw => exact .foreign hx hcell hw

theorem Effects.append {n : Node} {σ σ' σ'' : Store} {t t' : List Event} (h : Effects fixed n σ t σ')
    (h' : Effects fixed n σ' t' σ'') : Effects fixed n σ (t ++ t') σ'' := by
  induction h with
  | nil => exact h'
  | cons h _ ih => exact .cons h (ih h')

theorem effects_of_iterates (label : Option String) {condition : Expr} {body : Block} {σ σ' : Store} {t : List Event}
    (h : Iterates atom fixed condition body σ t σ') :
    Effects fixed (.expr (.whileLoop label condition body)) σ t σ' := by
  induction h with
  | none => exact .nil _
  | again hc _ hb _ ih =>
    refine ((Effects.child ?_ hc).append (Effects.child ?_ hb)).append ih
    · exact List.mem_cons_self
    · exact List.mem_cons_of_mem _ List.mem_cons_self

/-- Every assignment is one of a statement within. -/
theorem assigns_of_effects {n : Node} {σ σ' : Store} {t : List Event} (h : Effects fixed n σ t σ') {x : String}
    {old new : Option ℤ} (hmem : .changed x old new true ∈ t) :
    ∃ s, Node.Within (.stmt s) n ∧ Assigns s x old new := by
  induction h with
  | nil => exact absurd hmem List.not_mem_nil
  | cons h _ ih =>
    rcases List.mem_cons.mp hmem with heq | hmem
    · cases h with
      | own hs hc hw ha =>
        cases heq
        exact ⟨_, hs, ha⟩
      | foreign hx hc hw => cases heq
    · exact ih hmem

theorem kept_of_step {s : Stmt} {x : String} (hstep : isPositiveStep x s = true) {old new : Option ℤ}
    (h : Assigns s x old new) : Kept old new := by
  have hadd : ∃ k : ℤ, 0 < k ∧ new = old.map (· + k) := by
    unfold isPositiveStep at hstep
    split at hstep
    · obtain ⟨hname, hany⟩ := (Bool.and_eq_true _ _).mp hstep
      obtain ⟨k, hk, hpos⟩ := (Option.any_eq_true _ _).mp hany
      cases of_decide_eq_true hname
      cases h with
      | assign hroot hsum => exact ⟨k.val, of_decide_eq_true hpos, hsum k rfl hk⟩
    · obtain ⟨hname, hpos⟩ := (Bool.and_eq_true _ _).mp hstep
      cases of_decide_eq_true hname
      cases h with
      | compound hroot hsum => exact ⟨_, of_decide_eq_true hpos, hsum _ rfl rfl rfl⟩
    · cases hstep
  obtain ⟨k, hk, rfl⟩ := hadd
  intro v hv
  obtain ⟨u, hu, rfl⟩ := Option.map_eq_some_iff.mp hv
  exact ⟨u, hu, by omega⟩

/-- The step of a counted loop is the only assignment to the counter within. -/
theorem kept_of_stepsOnly {b : Block} {x : String} (hsteps : StepsOnly x (.block b)) {s : Stmt}
    (hs : Node.Within (.stmt s) (.block b)) {old new : Option ℤ} (h : Assigns s x old new) : Kept old new := by
  cases hs with
  | child hc hw =>
    have hroot := mem_assignedRoot h
    rcases List.mem_append.mp hc with hc | hc
    · obtain ⟨r, hr, rfl⟩ := List.mem_map.mp hc
      rcases hsteps.stmt hr with hstill | hstep
      · exact absurd hroot (hstill _ hw)
      · cases eq_of_busy_of_step hstep hw trivial
        exact kept_of_step hstep h
    · exact absurd hroot (hsteps.1 _ (List.mem_append_right _ hc) _ hw)

theorem unlowered_append {x : String} {t t' : List Event} (h : Unlowered x t)
    (ht : ∀ old new own, .changed x old new own ∈ t' → Kept old new) : Unlowered x (t ++ t') := by
  intro before old new own after he hafter
  rcases List.append_eq_append_iff.mp he with ⟨rest, rfl, rfl⟩ | ⟨rest, rfl, hcons⟩
  · exact ht old new own (List.mem_append_right _ List.mem_cons_self)
  · cases rest with
    | nil =>
      rw [List.nil_append] at hcons
      exact ht old new own (hcons ▸ List.mem_cons_self)
    | cons e rest =>
      obtain ⟨rfl, rfl⟩ := List.cons.inj hcons
      exact h before old new own rest rfl fun e he => hafter e (List.mem_append_left _ he)

end

/-! The condition of a counted loop is arithmetic. -/

theorem arithmetical_of_placeForm {P : Prover} {seen : Finset String} {suffix : String} {nonneg : Bool} {object : Expr}
    {f : IndexForm} (hf : (P.placeForm seen suffix nonneg object).2 = .ok f) : Arithmetical (.expr object) := by
  unfold Prover.placeForm at hf
  split at hf
  · exact arithmetical_leaf id rfl
  · cases hf

theorem arithmetical_of_buildForm {P : Prover} {seen : Finset String} {e : Expr} {f : IndexForm}
    (hf : (P.buildForm seen e).2 = .ok f) : Arithmetical (.expr e) := by
  fun_induction Prover.buildForm P seen e generalizing f with
  | case1 seen n => exact arithmetical_leaf id rfl
  | case2 seen name => exact arithmetical_leaf id rfl
  | case3 seen name => exact arithmetical_leaf id rfl
  | case4 seen first second rest => exact arithmetical_leaf id rfl
  | case5 seen operand ih =>
    obtain ⟨g, hg, _⟩ := ok_of_built hf
    exact arithmetical_of_children id (List.forall_mem_singleton.mpr (ih hg))
  | case6 seen object method args hlen =>
    rw [List.isEmpty_iff.mp hlen.2]
    exact arithmetical_of_children id (List.forall_mem_singleton.mpr (arithmetical_of_placeForm hf))
  | case8 seen object field =>
    exact arithmetical_of_children id (List.forall_mem_singleton.mpr (arithmetical_of_placeForm hf))
  | case10 seen typeName method label mutMarker operand hcall ih =>
    obtain ⟨g, hg, _⟩ := ok_of_built hf
    exact arithmetical_call (List.forall_mem_singleton.mpr (arithmetical_arg (ih hg)))
  | case13 seen op left right intOp hop ihLeft ihRight =>
    obtain ⟨l, hl, hrest⟩ := ok_of_built hf
    obtain ⟨r, hr, _⟩ := ok_of_built hrest
    exact arithmetical_of_children id
      (List.forall_mem_cons.mpr ⟨ihLeft hl, List.forall_mem_singleton.mpr (ihRight _ hr)⟩)
  | case15 seen typeName method label mutMarker left label' mutMarker' right intOp hop ihLeft ihRight =>
    obtain ⟨l, hl, hrest⟩ := ok_of_built hf
    obtain ⟨r, hr, _⟩ := ok_of_built hrest
    exact arithmetical_call (List.forall_mem_cons.mpr
      ⟨arithmetical_arg (ihLeft hl), List.forall_mem_singleton.mpr (arithmetical_arg (ihRight _ hr))⟩)
  | _ => cases hf

/-! The bounds. -/

/-- Before the loop: the bindings of `providers` blocks assign nothing, nothing upsets what the walk knows, and the
counter was not lowered since a statement of a block around gave it its value. -/
structure SteadyBefore (body : Block) (c : String) (before : List Event) : Prop where
  quiet : Quiet (.block body)
  steady : Steady before
  unlowered : Unlowered c before

/-- Within the loop: nothing upsets what the walk knows, and no write through a reference lowers the counter. -/
structure SteadyInside (c : String) (before t : List Event) : Prop where
  steady : Steady (before ++ t)
  kept : ∀ old new, .changed c old new false ∈ t → Kept old new

section

variable {atom : String → Option ℤ} {fixed : String → Bool} {P : Prover} {σ σ' : Store} {before t : List Event}

theorem beginWalk_ok {loop : Expr} {body : Block} (h : beginWalk loop = .ok (P, body)) :
    P.declared = insert P.loopVar (collectDeclaredNames (.block body)) ∧
      P.mutated = collectAssignedRoots (.block body) ∧ P.ivs = (fun _ => none) ∧ P.localForms = (fun _ => none) ∧
      P.mutInits = fun _ => none := by
  unfold beginWalk at h
  split at h
  · dsimp only at h
    split at h
    · cases h
    · split at h
      · cases h
      · cases h
        exact ⟨rfl, rfl, rfl, rfl, rfl⟩
  · cases h

theorem covers_begin {loop : Expr} {body : Block} (h : beginWalk loop = .ok (P, body)) (hq : Quiet (.block body)) :
    Covers P (.block body) := by
  obtain ⟨hdeclared, hmutated, -⟩ := beginWalk_ok h
  constructor
  · intro m hm x hx
    rw [hdeclared]
    refine Finset.mem_insert_of_mem (mem_nodeNames_of_within hm (mem_nodeNames_self hx ⟨fun b hb => ?_, fun a ha => ?_⟩)
      fun _ _ _ _ _ => .inl rfl)
    · subst hb
      exact absurd hx (Finset.notMem_empty x)
    · subst ha
      exact absurd hx (Finset.notMem_empty x)
  · intro m hm x hx
    rw [hmutated]
    by_contra hnot
    exact still_of_notMem hq hnot m hm hx

theorem tracks_begin {loop : Expr} {body : Block} (h : beginWalk loop = .ok (P, body))
    (hσ : ∀ x, P.isInvariantName x = true → σ.value x = atom x) :
    Tracks atom P.isInvariantName P σ [.entered P.loopVar false] := by
  obtain ⟨-, -, hivs, hforms, hinits⟩ := beginWalk_ok h
  exact {
    names := rfl
    atoms := hσ
    forms := fun x f hf => by
      rw [hforms] at hf
      cases hf
    frozen := fun x f hf => by
      rw [hforms] at hf
      cases hf
    entered := fun x hx => by
      rcases hx with rfl | hx
      · exact ⟨false, List.mem_cons_self⟩
      · rw [hivs] at hx
        cases hx
    recorded := fun x hx => by
      rw [hforms, hinits] at hx
      exact hx.elim Bool.noConfusion Bool.noConfusion
    lower := fun x p hp => by
      rw [hinits] at hp
      cases hp }

theorem eval_exclusiveEnd {op : IntOp} {hi hiExclusive : SymPoly} (h : Prover.exclusiveEnd op hi = some hiExclusive)
    (ρ : String → ℤ) {a : ℤ} (ha : compares op a (hi.eval ρ)) : a < hiExclusive.eval ρ := by
  cases op with
  | lt =>
    cases h
    exact ha
  | le =>
    rw [SymPoly.eval_add ρ h, SymPoly.eval_constant]
    exact Int.lt_add_one_of_le ha
  | add => cases h
  | sub => cases h
  | mul => cases h

end

/-! At the test of a counted loop. -/

/-- An execution is at the test of a loop that was accepted. -/
structure AtTest (atom : String → Option ℤ) (fixed : String → Bool) (P : Prover) (label : Option String)
    (condition : Expr) (inner : Block) (c : String) (bound : IvBound) (σ : Store) (before : List Event) : Prop where
  counted : (P.countedWhileBound condition inner).2 = some (c, bound)
  quiet : Quiet (.expr (.whileLoop label condition inner))
  covers : Covers P (.expr (.whileLoop label condition inner))
  tracks : Tracks atom fixed P σ before
  calm : Calm before
  still : ∀ x, .entered x true ∈ before → Still x (.expr (.whileLoop label condition inner))
  unlowered : Unlowered c before

section

variable {atom : String → Option ℤ} {fixed : String → Bool} {P : Prover} {label : Option String} {condition : Expr}
  {inner : Block} {c : String} {bound : IvBound} {σ σ' : Store} {before t : List Event}

theorem AtTest.body_mem (label : Option String) (condition : Expr) (inner : Block) :
    Node.block inner ∈ (Node.expr (.whileLoop label condition inner)).children :=
  List.mem_cons_of_mem _ List.mem_cons_self

theorem AtTest.lower (h : AtTest atom fixed P label condition inner c bound σ before) {v : ℤ}
    (hv : σ.value c = some v) : bound.lo.eval (atomValue atom) ≤ v := by
  obtain ⟨op, right, hi, -, -, -, hlo, -⟩ := accepted_of_counted h.counted
  exact h.tracks.lower c bound.lo hlo h.unlowered v hv

/-- Where the condition holds. -/
theorem AtTest.upper (h : AtTest atom fixed P label condition inner c bound σ before)
    (hholds : Holds atom fixed σ condition) {v : ℤ} (hv : σ.value c = some v) :
    v < bound.hiExclusive.eval (atomValue atom) := by
  obtain ⟨op, right, hi, hcondition, hright, hexclusive, -, -⟩ := accepted_of_counted h.counted
  obtain ⟨b, hb, hcompares⟩ := hholds op _ right hcondition v (congrArg some hv)
  rw [← eval_of_evaluates h.tracks.toValues hright hb] at hcompares
  exact eval_exclusiveEnd hexclusive _ hcompares

theorem AtTest.arithmetical (h : AtTest atom fixed P label condition inner c bound σ before) :
    Arithmetical (.expr condition) := by
  obtain ⟨op, right, hi, hcondition, hright, -, -, -⟩ := accepted_of_counted h.counted
  obtain ⟨f, hf, -⟩ := ok_of_buildInvariant hright
  exact arithmetical_binop hcondition (arithmetical_leaf id rfl) (arithmetical_of_buildForm hf)

theorem AtTest.stepsOnly (h : AtTest atom fixed P label condition inner c bound σ before) :
    StepsOnly c (.block inner) := by
  obtain ⟨op, right, hi, -, -, -, -, htrailing⟩ := accepted_of_counted h.counted
  exact stepsOnly_of_trailing (h.quiet.child (AtTest.body_mem label condition inner)) htrailing

/-- The loop does not lower the counter. -/
theorem AtTest.kept (h : AtTest atom fixed P label condition inner c bound σ before) {s : Stmt}
    (hs : Node.Within (.stmt s) (.expr (.whileLoop label condition inner))) {old new : Option ℤ}
    (ha : Assigns s c old new) : Kept old new := by
  cases hs with
  | child hc hw =>
    rcases List.mem_cons.mp hc with rfl | hc
    · exact absurd trivial (h.arithmetical _ hw)
    · rw [List.mem_singleton.mp hc] at hw
      exact kept_of_stepsOnly h.stepsOnly hw ha

/-- Effects of the loop lead to the test again. -/
theorem AtTest.next (h : AtTest atom fixed P label condition inner c bound σ before)
    (he : Effects fixed (.expr (.whileLoop label condition inner)) σ t σ') (hsteady : Steady (before ++ t))
    (hkept : ∀ old new, .changed c old new false ∈ t → Kept old new) :
    AtTest atom fixed P label condition inner c bound σ' (before ++ t) := by
  obtain ⟨hcalm, hentered⟩ := calm_of_from h.calm fun e hmem => ⟨_, from_of_effects he e hmem, h.still⟩
  exact {
    counted := h.counted
    quiet := h.quiet
    covers := h.covers
    tracks := tracks_of_effects he h.tracks h.covers hsteady hcalm
    calm := hcalm
    still := fun x hx => h.still x (hentered x hx)
    unlowered := unlowered_append h.unlowered fun old new own hmem => by
      cases own with
      | false => exact hkept old new hmem
      | true =>
        obtain ⟨s, hs, ha⟩ := assigns_of_effects he hmem
        exact h.kept hs ha }

/-- The counter is as it was at the test, up to the step. -/
theorem AtTest.untouched (h : AtTest atom fixed P label condition inner c bound σ before) {loc : List ℕ} {m : Node}
    (harrives : Arrives atom fixed (.block inner) loc m σ t σ') (hbusy : Busy m) (hm : ∀ s, m ≠ .stmt s)
    (hsteady : Steady (before ++ ([.entered c true] ++ t))) : σ' c = σ c := by
  rw [← List.append_assoc] at hsteady
  have hbody := AtTest.body_mem label condition inner
  have hcalm : Calm (before ++ [.entered c true]) := by
    refine calm_append h.calm (calm_of_not_changed fun x old new hmem => ?_) fun x old new hmem => ?_
    · cases List.mem_singleton.mp hmem
    · cases List.mem_singleton.mp hmem
  obtain ⟨hcalm', -⟩ := calm_of_arrives harrives hbusy hm (h.quiet.child hbody) hsteady hcalm fun x hx => by
    rcases List.mem_append.mp hx with hx | hx
    · exact stepsOnly_of_still ((h.still x hx).child hbody)
    · cases List.mem_singleton.mp hx
      exact h.stepsOnly
  refine untouched_of_arrives harrives fun e he => ?_
  obtain ⟨l, r, rfl⟩ := List.append_of_mem he
  rw [← List.append_assoc] at hsteady hcalm'
  exact not_touches_of_steady hsteady hcalm' (List.mem_append_left _ (List.mem_append_right _ List.mem_cons_self))

/-- Both bounds hold wherever the run comes within the loop. -/
theorem AtTest.inside (h : AtTest atom fixed P label condition inner c bound σ before) {m : Node}
    (harrives : ArrivesIn atom fixed label condition inner m σ t σ') (hbusy : Busy m) (hm : ∀ s, m ≠ .stmt s)
    (hinside : SteadyInside c before t) {v : ℤ} (hv : σ'.value c = some v) :
    bound.lo.eval (atomValue atom) ≤ v ∧ v < bound.hiExclusive.eval (atomValue atom) := by
  cases harrives with
  | condition hi harrives => exact absurd hbusy (h.arithmetical m (within_of_arrives harrives))
  | @body loc _ _ σ₁ σ₂ _ t₁ t₂ t₃ hi hc hholds harrives =>
    obtain ⟨hsteady, hkept⟩ := hinside
    rw [entries_of_counted label h.counted] at hsteady
    have heffects : Effects fixed (.expr (.whileLoop label condition inner)) σ (t₁ ++ t₂) σ₂ :=
      (effects_of_iterates label hi).append (hc.child List.mem_cons_self)
    rw [← List.append_assoc] at hsteady
    have htest := h.next heffects hsteady.left fun old new hmem => hkept old new (List.mem_append_left _ hmem)
    have hsame : σ'.value c = σ₂.value c := by
      rw [Store.value, Store.value, htest.untouched harrives hbusy hm hsteady]
    rw [hsame] at hv
    exact ⟨htest.lower hv, htest.upper hholds hv⟩

end

theorem counted_while_bounds_hold (loop : Expr) : BoundsHold SteadyBefore SteadyInside loop := by
  intro P₀ body hbegin loc label condition inner P P₁ hpart hwalk c bound hcounted atom σ₀ hσ₀ t σ harrives hbefore
  have hloop : Node.Within (.expr (.whileLoop label condition inner)) (.block body) := within_of_arrives harrives
  have hstart : Calm [.entered P₀.loopVar false] := calm_of_not_changed fun x old new hmem => by
    cases List.mem_singleton.mp hmem
  obtain ⟨hcalm, hsteps⟩ := calm_of_arrives harrives trivial (fun _ => Node.noConfusion) hbefore.quiet hbefore.steady
    hstart fun x hx => by cases List.mem_singleton.mp hx
  obtain ⟨htracks, hcovers, -⟩ := tracks_of_arrives harrives (tracks_begin hbegin hσ₀)
    (covers_begin hbegin hbefore.quiet) hbefore.steady hcalm hpart
  have hcondition : SameLocals P P₁ := (frames (.expr condition) P).of_ok hwalk
  have htest : AtTest atom P₀.isInvariantName P₁ label condition inner c bound σ (.entered P₀.loopVar false :: t) := {
    counted := hcounted
    quiet := fun m hm => hbefore.quiet m (hm.trans hloop)
    covers := hcovers.congr hcondition.toSameNames
    tracks := htracks.fewer hcondition.toSameContext hcondition.fewer
    calm := hcalm
    still := hsteps
    unlowered := hbefore.unlowered }
  refine ⟨fun v hv => htest.lower hv, fun m t' σ' harrives' hmentions _ hinside v hv => ?_⟩
  obtain ⟨object, index, rfl, -⟩ := hmentions
  exact htest.inside harrives' trivial (fun _ => Node.noConfusion) hinside hv

/-! A counter that a branch sets back before the loop. The branch is a block that is left, and with it what the walk
knew of the counter. -/

/-- `while c < n { out[i * n + c] = 1; c = c + 1; }` -/
def columns : Expr :=
  .whileLoop none (.binary .lt (.identifier "c") (.identifier "n"))
    (.mk [
      .assign (.index (.identifier "out")
        (.binary .add (.binary .mul (.identifier "i") (.identifier "n")) (.identifier "c"))) (.integer 1),
      .assign (.identifier "c") (.binary .add (.identifier "c") (.integer 1))] none)

/-- `if flag { c = 0 - n; }` -/
def setBack : Stmt :=
  .expr (.ifThen (.identifier "flag")
    (.mk [.assign (.identifier "c") (.binary .sub (.integer 0) (.identifier "n"))] none) none)

/-- `let mut c = 0;` comes first. -/
def rowBody : Block := .mk [.letStmt true (.binding "c") (.integer 0), setBack, .expr columns] none

/-- `for i in 0..m { … }` -/
def rows : Expr := .forLoop none (.binding "i") (.range (some (.integer 0)) (some (.identifier "m")) false) rowBody

def rowStart : Prover where
  loopVar := "i"
  declared := insert "i" (collectDeclaredNames (.block rowBody))
  mutated := collectAssignedRoots (.block rowBody)
  targets := collectIndexedWriteTargets (.block rowBody) (insert "i" (collectDeclaredNames (.block rowBody)))
  ivs := fun _ => none
  localForms := fun _ => none
  mutInits := fun _ => none
  nonneg := ∅
  positive := ∅
  strides := SortedMap.empty
  extents := SortedMap.empty
  writeCounts := SortedMap.empty
  innerLoopDepth := 0

theorem beginWalk_rows : beginWalk rows = .ok (rowStart, rowBody) := by
  simp only [beginWalk, rows]
  rw [if_neg (by decide), if_neg (by decide)]
  rfl

/-- Row 1, of columns one wide. -/
def rowStore : Store := fun x => if x = "i" ∨ x = "n" then some ⟨false, true, some 1⟩ else none

/-- The branch is taken: the counter is `-1` at the loop, and its lower bound `0`. -/
theorem branch_sets_counter_back : ¬ BoundsHold (fun _ _ _ => True) (fun _ _ _ => True) rows := by
  intro h
  have hlet : Passes rowStore.value rowStart.isInvariantName (.letStmt true (.binding "c") (.integer 0)) rowStore
      ([] ++ [.declared "c"]) (rowStore.declare "c" ⟨true, true, some 0⟩) :=
    .letName (.nil _) fun r hr => Option.some.inj hr
  have hassign : Effect rowStart.isInvariantName (.stmt setBack) (rowStore.declare "c" ⟨true, true, some 0⟩)
      (.changed "c" (some 0) (some (-1)) true)
      ((rowStore.declare "c" ⟨true, true, some 0⟩).write "c" ⟨true, true, some 0⟩ (some (-1))) := by
    refine .own (s := .assign (.identifier "c") (.binary .sub (.integer 0) (.identifier "n")))
      (c := ⟨true, true, some 0⟩) ?_ rfl (.inl rfl) (.assign rfl fun k _ hk => by cases hk)
    refine .child (c := .expr _) List.mem_cons_self ?_
    refine .child (c := .block _) (List.mem_cons_of_mem _ List.mem_cons_self) ?_
    exact .child List.mem_cons_self (.refl _)
  have harrives :
      Arrives rowStore.value rowStart.isInvariantName (.block rowBody) [2, 0] (.expr columns) rowStore _ _ :=
    .stmt (i := 2) rfl (.cons hlet (.cons (.other rfl (.cons hassign (.nil _))) (.nil _)))
      (.part (fun _ => Node.noConfusion) rfl (.nil _) (.nil _) (.here _ _))
  have hlower := (h rowStart rowBody beginWalk_rows [2, 0] none _ _ _ _ rfl rfl "c"
    ⟨SymPoly.constant I64.zero, SymPoly.atom "n"⟩ rfl rowStore.value rowStore (fun _ _ => rfl) _ _ harrives trivial).1
  have hbound := hlower (-1) rfl
  rw [SymPoly.eval_constant] at hbound
  exact absurd hbound (by decide)

end Karac.Disjoint
