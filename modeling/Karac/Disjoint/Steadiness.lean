import Karac.Disjoint.Arrival

/-! The runs in which nothing upsets what the walk knows. -/

namespace Karac.Disjoint

open Ast Karac.Lib

namespace Event

/-- The event sets up or writes the variable. -/
def Touches (x : String) : Event → Prop
  | declared y => x = y
  | assigned y => x = y
  | bound names => x ∈ names
  | rebound names => x ∈ names
  | changed y _ _ _ => x = y
  | leaked _ _ => False
  | entered _ _ => False

/-- The walk may know something of the variable from there on. -/
def Records (x : String) : Event → Prop
  | declared y => x = y
  | assigned y => x = y
  | leaked y _ => x = y
  | _ => False

/-- The event gives the variable a new value. -/
def Gives (x : String) : Event → Prop
  | declared y => x = y
  | assigned y => x = y
  | _ => False

/-- The event shadows an induction variable, or it writes to it otherwise than the step of a counted loop does. -/
def Upsets (x : String) (counted : Bool) : Event → Prop
  | declared y => x = y
  | assigned y => x = y
  | bound names => x ∈ names
  | rebound names => x ∈ names
  | changed y _ _ own => x = y ∧ (own = false ∨ counted = false)
  | leaked _ _ => False
  | entered _ _ => False

theorem touches_of_gives {x : String} {e : Event} (h : e.Gives x) : e.Touches x := by
  cases e <;> first
    | exact h
    | exact h.elim

end Event

/-- What may happen after the events. -/
structure Allowed (before : List Event) (e : Event) : Prop where
  /-- A `let` that destructures binds names that the walk knows nothing of. -/
  unseen : ∀ names, e = .rebound names → ∀ x ∈ names, ∀ e' ∈ before, ¬ e'.Records x
  /-- What the walk keeps of an `else` block that was passed is about no variable in scope. -/
  outOfScope : ∀ x inScope, e = .leaked x inScope → inScope = false
  /-- An induction variable is left alone within its loop, and nothing is run after the step of a counted loop. -/
  settled : ∀ x counted, .entered x counted ∈ before → ¬ e.Upsets x counted

def Steady (t : List Event) : Prop := ∀ before e after, t = before ++ e :: after → Allowed before e

/-- The variable is not lowered. -/
def Kept (old new : Option ℤ) : Prop := ∀ v, new = some v → ∃ u, old = some u ∧ u ≤ v

/-- The variable was not lowered since a statement of a block around gave it its value. -/
def Unlowered (x : String) (t : List Event) : Prop :=
  ∀ before old new own after, t = before ++ .changed x old new own :: after → (∀ e ∈ after, ¬ e.Gives x) → Kept old new

/-- No assignment within a counted loop is to its counter, up to the step. -/
def Calm (t : List Event) : Prop :=
  ∀ before x old new after, t = before ++ .changed x old new true :: after → .entered x true ∉ before

section

variable {t t' : List Event}

theorem Steady.left (h : Steady (t ++ t')) : Steady t :=
  fun before e after he => h before e (after ++ t') (by rw [he, List.append_assoc, List.cons_append])

theorem Calm.left (h : Calm (t ++ t')) : Calm t :=
  fun before x old new after he => h before x old new (after ++ t') (by rw [he, List.append_assoc, List.cons_append])

theorem Unlowered.left {x : String} (h : Unlowered x (t ++ t')) (ht : ∀ e ∈ t', ¬ e.Gives x) : Unlowered x t := by
  intro before old new own after he hafter
  refine h before old new own (after ++ t') (by rw [he, List.append_assoc, List.cons_append]) fun e hmem => ?_
  rcases List.mem_append.mp hmem with hmem | hmem
  · exact hafter e hmem
  · exact ht e hmem

/-- Induction variables are not touched. -/
theorem not_touches_of_steady {before after : List Event} {e : Event} (hs : Steady (before ++ e :: after))
    (hc : Calm (before ++ e :: after)) {x : String} {counted : Bool} (hx : .entered x counted ∈ before) :
    ¬ e.Touches x := by
  intro htouches
  refine (hs before e after rfl).settled x counted hx ?_
  cases e with
  | changed y old new own =>
    refine ⟨htouches, ?_⟩
    obtain rfl : x = y := htouches
    by_contra hnot
    obtain ⟨hown, hcounted⟩ := not_or.mp hnot
    rw [Bool.not_eq_false] at hown hcounted
    subst hown hcounted
    exact hc before x old new after rfl hx
  | leaked y inScope => exact htouches.elim
  | entered y counted => exact htouches.elim
  | _ => exact htouches

theorem calm_append (h : Calm t) (h' : Calm t')
    (hcross : ∀ x old new, .changed x old new true ∈ t' → .entered x true ∉ t) : Calm (t ++ t') := by
  intro before x old new after he
  rcases List.append_eq_append_iff.mp he with ⟨rest, rfl, rfl⟩ | ⟨rest, rfl, hcons⟩
  · intro hmem
    rcases List.mem_append.mp hmem with hmem | hmem
    · exact hcross x old new (List.mem_append_right _ List.mem_cons_self) hmem
    · exact h' rest x old new after rfl hmem
  · cases rest with
    | nil =>
      rw [List.nil_append] at hcons
      intro hmem
      exact hcross x old new (hcons ▸ List.mem_cons_self) (List.mem_append_left _ hmem)
    | cons e rest =>
      obtain ⟨rfl, -⟩ := List.cons.inj hcons
      exact h before x old new rest rfl

theorem calm_of_not_entered (h : ∀ x, .entered x true ∉ t) : Calm t := by
  intro before x old new after he hmem
  exact h x (he ▸ List.mem_append_left _ hmem)

theorem calm_of_not_changed (h : ∀ x old new, .changed x old new true ∉ t) : Calm t := by
  intro before x old new after he
  exact absurd (he ▸ List.mem_append_right _ List.mem_cons_self) (h x old new)

/-- A statement of a block around does not assign an induction variable. -/
theorem assigned_notMem {x : String} {counted : Bool} (hs : Steady (t ++ t')) (hx : .entered x counted ∈ t) :
    .assigned x ∉ t' := by
  intro hmem
  obtain ⟨l, r, rfl⟩ := List.append_of_mem hmem
  exact (hs (t ++ l) (.assigned x) r (List.append_assoc _ _ _).symm).settled x counted (List.mem_append_left _ hx) rfl

end

/-! Where the events of a part come from. -/

/-- The name is assigned nowhere within the node. -/
def Still (x : String) (n : Node) : Prop := ∀ m, Node.Within m n → x ∉ assignedRoot m

theorem Still.child {x : String} {n c : Node} (h : Still x n) (hc : c ∈ n.children) : Still x c :=
  fun m hm => h m (.child hc hm)

/-- The event is no entry of a loop, and an assignment is one within the node. -/
structure From (n : Node) (e : Event) : Prop where
  assigns : ∀ x old new, e = .changed x old new true → ¬ Still x n
  enters : ∀ x counted, e ≠ .entered x counted

theorem From.child {n c : Node} {e : Event} (h : From c e) (hc : c ∈ n.children) : From n e :=
  ⟨fun x old new he hstill => h.assigns x old new he (hstill.child hc), h.enters⟩

theorem from_of_plain (n : Node) {e : Event} (hchanged : ∀ x old new, e ≠ .changed x old new true)
    (henters : ∀ x counted, e ≠ .entered x counted) : From n e :=
  ⟨fun x old new he => absurd he (hchanged x old new), henters⟩

theorem mem_assignedRoot {s : Stmt} {x : String} {old new : Option ℤ} (h : Assigns s x old new) :
    x ∈ assignedRoot (.stmt s) := by
  cases h with
  | assign hroot _ => simp [assignedRoot, hroot]
  | compound hroot _ => simp [assignedRoot, hroot]

section

variable {atom : String → Option ℤ} {fixed : String → Bool}

theorem from_of_effects {n : Node} {σ σ' : Store} {t : List Event} (h : Effects fixed n σ t σ') :
    ∀ e ∈ t, From n e := by
  induction h with
  | nil => exact fun e he => absurd he List.not_mem_nil
  | cons h _ ih =>
    refine List.forall_mem_cons.mpr ⟨?_, ih⟩
    cases h with
    | own hs hc hw ha =>
      refine ⟨fun x old new he hstill => ?_, fun _ _ => Event.noConfusion⟩
      cases he
      exact hstill _ hs (mem_assignedRoot ha)
    | foreign hx hc hw =>
      refine ⟨fun x old new he => ?_, fun _ _ => Event.noConfusion⟩
      cases he

theorem from_of_passes {s : Stmt} {σ σ' : Store} {t : List Event} (h : Passes atom fixed s σ t σ') :
    ∀ e ∈ t, From (.stmt s) e := by
  have happend : ∀ {c : Node} {t t' : List Event} {σ σ' : Store}, c ∈ (Node.stmt s).children → Effects fixed c σ t σ' →
      (∀ e ∈ t', From (.stmt s) e) → ∀ e ∈ t ++ t', From (.stmt s) e := by
    intro c t t' σ σ' hc he ht' e hmem
    rcases List.mem_append.mp hmem with hmem | hmem
    · exact (from_of_effects he e hmem).child hc
    · exact ht' e hmem
  cases h with
  | letName he hv =>
    refine happend List.mem_cons_self he (List.forall_mem_singleton.mpr ?_)
    exact from_of_plain _ (fun _ _ _ => Event.noConfusion) fun _ _ => Event.noConfusion
  | letPattern hp he hb =>
    refine happend List.mem_cons_self he (List.forall_mem_singleton.mpr ?_)
    exact from_of_plain _ (fun _ _ _ => Event.noConfusion) fun _ _ => Event.noConfusion
  | letUninit =>
    exact List.forall_mem_singleton.mpr
      (from_of_plain _ (fun _ _ _ => Event.noConfusion) fun _ _ => Event.noConfusion)
  | letElse he hb =>
    rw [List.append_assoc]
    refine happend List.mem_cons_self he fun e hmem => ?_
    rcases List.mem_append.mp hmem with hmem | hmem
    · obtain ⟨x, _, rfl⟩ := List.mem_map.mp hmem
      exact from_of_plain _ (fun _ _ _ => Event.noConfusion) fun _ _ => Event.noConfusion
    · rw [List.mem_singleton.mp hmem]
      exact from_of_plain _ (fun _ _ _ => Event.noConfusion) fun _ _ => Event.noConfusion
  | defer => exact fun e he => absurd he List.not_mem_nil
  | errDefer => exact fun e he => absurd he List.not_mem_nil
  | assign he hc hw hv =>
    refine happend (List.mem_cons_of_mem _ List.mem_cons_self) he (List.forall_mem_singleton.mpr ?_)
    exact from_of_plain _ (fun _ _ _ => Event.noConfusion) fun _ _ => Event.noConfusion
  | compound v he hc hw =>
    refine happend (List.mem_cons_of_mem _ List.mem_cons_self) he (List.forall_mem_singleton.mpr ?_)
    exact from_of_plain _ (fun _ _ _ => Event.noConfusion) fun _ _ => Event.noConfusion
  | other hs he => exact from_of_effects he

theorem from_of_passesAll {stmts : List Stmt} {σ σ' : Store} {t : List Event}
    (h : PassesAll atom fixed stmts σ t σ') : ∀ e ∈ t, ∃ s ∈ stmts, From (.stmt s) e := by
  induction h with
  | nil => exact fun e he => absurd he List.not_mem_nil
  | cons h _ ih =>
    intro e hmem
    rcases List.mem_append.mp hmem with hmem | hmem
    · exact ⟨_, List.mem_cons_self, from_of_passes h e hmem⟩
    · obtain ⟨s, hs, hfrom⟩ := ih e hmem
      exact ⟨s, List.mem_cons_of_mem _ hs, hfrom⟩

end

/-- Events from parts that do not assign the counters of the loops around. -/
theorem calm_of_from {before t : List Event} (hcalm : Calm before)
    (h : ∀ e ∈ t, ∃ n, From n e ∧ ∀ x, .entered x true ∈ before → Still x n) :
    Calm (before ++ t) ∧ ∀ x, .entered x true ∈ before ++ t → .entered x true ∈ before := by
  have hentered : ∀ x, .entered x true ∉ t := by
    intro x hmem
    obtain ⟨n, hfrom, _⟩ := h _ hmem
    exact hfrom.enters x true rfl
  refine ⟨calm_append hcalm (calm_of_not_entered hentered) fun x old new hmem hx => ?_, fun x hx => ?_⟩
  · obtain ⟨n, hfrom, hstill⟩ := h _ hmem
    exact hfrom.assigns x old new rfl (hstill x hx)
  · exact (List.mem_append.mp hx).resolve_right (hentered x)

/-- The counter of a loop that is entered is assigned by the trailing step only. -/
def StepsOnly (x : String) : Node → Prop
  | .block b => (∀ c ∈ (Node.block (.mk b.stmts.dropLast b.finalExpr)).children, Still x c) ∧
    ∀ last ∈ b.stmts.getLast?, Still x (.stmt last) ∨ isPositiveStep x last = true
  | .stmt s => Still x (.stmt s) ∨ isPositiveStep x s = true
  | n => Still x n

theorem stepsOnly_of_still {x : String} {n : Node} (h : Still x n) : StepsOnly x n := by
  cases n with
  | block b =>
    refine ⟨fun c hc => h.child ?_, fun last hlast => .inl (h.child ?_)⟩
    · rcases List.mem_append.mp hc with hc | hc
      · obtain ⟨s, hs, rfl⟩ := List.mem_map.mp hc
        exact List.mem_append_left _ (List.mem_map_of_mem (List.dropLast_subset _ hs))
      · exact List.mem_append_right _ hc
    · exact List.mem_append_left _ (List.mem_map_of_mem (List.mem_of_getLast? hlast))
  | stmt s => exact .inl h
  | _ => exact h

theorem StepsOnly.stmt {x : String} {b : Block} (h : StepsOnly x (.block b)) {s : Stmt} (hs : s ∈ b.stmts) :
    StepsOnly x (.stmt s) := by
  cases hlast : b.stmts.getLast? with
  | none =>
    rw [List.getLast?_eq_none_iff.mp hlast] at hs
    exact absurd hs List.not_mem_nil
  | some last =>
    rw [← List.dropLast_append_getLast? last hlast] at hs
    rcases List.mem_append.mp hs with hs | hs
    · exact .inl (h.1 _ (List.mem_append_left _ (List.mem_map_of_mem hs)))
    · rw [List.mem_singleton.mp hs]
      exact h.2 last hlast

/-! Parts that are arithmetic. -/

/-- Anything but arithmetic: what has effects, and what reads an element. -/
def Busy : Node → Prop
  | .expr (.whileLoop _ _ _) => True
  | .expr (.index _ _) => True
  | .expr _ => False
  | .arg _ => False
  | _ => True

/-- Nothing within is busy. -/
def Arithmetical (n : Node) : Prop := ∀ m, Node.Within m n → ¬ Busy m

theorem arithmetical_of_children {n : Node} (hn : ¬ Busy n) (h : ∀ c ∈ n.children, Arithmetical c) :
    Arithmetical n := by
  intro m hm
  cases hm with
  | refl => exact hn
  | child hc hw => exact h _ hc m hw

theorem arithmetical_leaf {e : Expr} (hn : ¬ Busy (.expr e)) (h : exprChildren e = []) : Arithmetical (.expr e) := by
  refine arithmetical_of_children hn fun c hc => ?_
  rw [Node.children, h] at hc
  exact absurd hc List.not_mem_nil

theorem arithmetical_arg {label : Option String} {mutMarker : Bool} {e : Expr} (h : Arithmetical (.expr e)) :
    Arithmetical (.arg (.mk label mutMarker e)) := by
  refine arithmetical_of_children id fun c hc => ?_
  rw [List.mem_singleton.mp hc]
  exact h

theorem arithmetical_call {segments : List String} {args : List CallArg} (h : ∀ a ∈ args, Arithmetical (.arg a)) :
    Arithmetical (.expr (.call (.path segments) args)) := by
  refine arithmetical_of_children id fun c hc => ?_
  rcases List.mem_cons.mp hc with rfl | hc
  · exact arithmetical_leaf id rfl
  · obtain ⟨a, ha, rfl⟩ := List.mem_map.mp hc
    exact h a ha

theorem arithmetical_binop {e l r : Expr} {op : IntOp} (h : asIntegerBinop e = some (op, l, r))
    (hl : Arithmetical (.expr l)) (hr : Arithmetical (.expr r)) : Arithmetical (.expr e) := by
  unfold asIntegerBinop at h
  split at h
  · obtain ⟨_, _, he⟩ := Option.map_eq_some_iff.mp h
    cases he
    exact arithmetical_of_children id (List.forall_mem_cons.mpr ⟨hl, List.forall_mem_singleton.mpr hr⟩)
  · obtain ⟨_, _, he⟩ := Option.map_eq_some_iff.mp h
    cases he
    exact arithmetical_call
      (List.forall_mem_cons.mpr ⟨arithmetical_arg hl, List.forall_mem_singleton.mpr (arithmetical_arg hr)⟩)
  · cases h

theorem arithmetical_increment {value : Expr} {counter : String} {k : I64} (h : incrementOf value counter = some k) :
    Arithmetical (.expr value) := by
  unfold incrementOf at h
  split at h
  · rename_i heq
    exact arithmetical_binop heq (arithmetical_leaf id rfl) (arithmetical_leaf id rfl)
  · rename_i heq
    exact arithmetical_binop heq (arithmetical_leaf id rfl) (arithmetical_leaf id rfl)
  · cases h

/-- Nothing happens in the step of a counted loop but the step. -/
theorem eq_of_busy_of_step {counter : String} {s : Stmt} (h : isPositiveStep counter s = true) {m : Node}
    (hm : Node.Within m (.stmt s)) (hbusy : Busy m) : m = .stmt s := by
  have hchildren : ∀ c ∈ (Node.stmt s).children, Arithmetical c := by
    unfold isPositiveStep at h
    split at h
    · obtain ⟨k, hk, _⟩ := (Option.any_eq_true _ _).mp ((Bool.and_eq_true _ _).mp h).2
      exact List.forall_mem_cons.mpr
        ⟨arithmetical_leaf id rfl, List.forall_mem_singleton.mpr (arithmetical_increment hk)⟩
    · exact List.forall_mem_cons.mpr
        ⟨arithmetical_leaf id rfl, List.forall_mem_singleton.mpr (arithmetical_leaf id rfl)⟩
    · cases h
  cases hm with
  | refl => rfl
  | child hc hw => exact absurd hbusy (hchildren _ hc m hw)

/-! Assignments in the bindings of a `providers` block are not collected. -/

def Quiet (n : Node) : Prop := ∀ m, Node.Within m n → BindingsSeen assignedRoot false m

theorem Quiet.child {n c : Node} (h : Quiet n) (hc : c ∈ n.children) : Quiet c := fun m hm => h m (.child hc hm)

theorem still_of_notMem {n : Node} (hq : Quiet n) {x : String} (h : x ∉ collectAssignedRoots n) : Still x n := by
  intro m hm hx
  refine h (mem_nodeNames_of_within hm (mem_nodeNames_self hx ⟨fun b hb => ?_, fun a ha => ?_⟩) hq)
  · subst hb
    exact absurd hx (Finset.notMem_empty x)
  · subst ha
    exact absurd hx (Finset.notMem_empty x)

theorem stepsOnly_of_trailing {b : Block} (hq : Quiet (.block b)) {counter : String}
    (h : singleTrailingPositiveStep b counter = true) : StepsOnly counter (.block b) := by
  unfold singleTrailingPositiveStep at h
  split at h
  · cases h
  · rename_i last hlast
    obtain ⟨hstep, hroots⟩ := (Bool.and_eq_true _ _).mp h
    refine ⟨fun c hc => (still_of_notMem ?_ (of_decide_eq_true hroots)).child hc, fun s hs => .inr ?_⟩
    · intro m hm
      cases hm with
      | refl => exact fun _ _ he => Node.noConfusion he
      | child hc hw =>
        refine hq m (.child ?_ hw)
        rcases List.mem_append.mp hc with hc | hc
        · obtain ⟨s, hs, rfl⟩ := List.mem_map.mp hc
          exact List.mem_append_left _ (List.mem_map_of_mem (List.dropLast_subset _ hs))
        · exact List.mem_append_right _ hc
    · rw [hlast] at hs
      cases hs
      exact hstep

theorem stepsOnly_of_entries {n c : Node} {i : ℕ} (hq : Quiet n) (hc : n.children[i]? = some c) {x : String}
    (hx : .entered x true ∈ entries n i) : StepsOnly x c := by
  unfold entries at hx
  split at hx
  · cases List.mem_singleton.mp hx
  · split at hx
    · split at hx
      · rename_i htrailing
        cases List.mem_singleton.mp hx
        cases hc
        exact stepsOnly_of_trailing (hq.child (List.mem_cons_of_mem _ List.mem_cons_self)) htrailing
      · exact absurd hx List.not_mem_nil
    · exact absurd hx List.not_mem_nil
  · exact absurd hx List.not_mem_nil

theorem changed_notMem_entries {n : Node} {i : ℕ} {x : String} {old new : Option ℤ} {own : Bool} :
    .changed x old new own ∉ entries n i := by
  unfold entries
  split
  · exact List.not_mem_cons_of_ne_of_not_mem Event.noConfusion List.not_mem_nil
  · split
    · split
      · exact List.not_mem_cons_of_ne_of_not_mem Event.noConfusion List.not_mem_nil
      · exact List.not_mem_nil
    · exact List.not_mem_nil
  · exact List.not_mem_nil

section

variable {atom : String → Option ℤ} {fixed : String → Bool}

/-- A step that is passed is an assignment of a block around. -/
theorem still_of_passes {s : Stmt} {σ σ' : Store} {t : List Event} (h : Passes atom fixed s σ t σ') {x : String}
    (hs : Still x (.stmt s) ∨ isPositiveStep x s = true) (hnot : .assigned x ∉ t) : Still x (.stmt s) := by
  refine hs.resolve_right fun hstep => ?_
  unfold isPositiveStep at hstep
  split at hstep
  · obtain rfl := of_decide_eq_true ((Bool.and_eq_true _ _).mp hstep).1
    cases h with
    | assign he hc hw hv => exact hnot (List.mem_append_right _ List.mem_cons_self)
    | other hother he => cases hother
  · obtain rfl := of_decide_eq_true ((Bool.and_eq_true _ _).mp hstep).1
    cases h with
    | compound v he hc hw => exact hnot (List.mem_append_right _ List.mem_cons_self)
    | other hother he => cases hother
  · cases hstep

theorem passes_of_mem {stmts : List Stmt} {σ σ' : Store} {t : List Event} (h : PassesAll atom fixed stmts σ t σ') :
    ∀ s ∈ stmts, ∃ σ₁ t₁ σ₂, Passes atom fixed s σ₁ t₁ σ₂ ∧ t₁ ⊆ t := by
  induction h with
  | nil => exact fun s hs => absurd hs List.not_mem_nil
  | cons h _ ih =>
    refine List.forall_mem_cons.mpr ⟨⟨_, _, _, h, List.subset_append_left _ _⟩, fun s hs => ?_⟩
    obtain ⟨σ₁, t₁, σ₂, hp, hsub⟩ := ih s hs
    exact ⟨σ₁, t₁, σ₂, hp, List.subset_append_of_subset_right _ hsub⟩

theorem within_of_arrives {n m : Node} {loc : List ℕ} {σ σ' : Store} {t : List Event}
    (h : Arrives atom fixed n loc m σ t σ') : Node.Within m n := by
  induction h with
  | here n σ => exact .refl n
  | stmt hs _ _ ih => exact .child (List.mem_append_left _ (List.mem_map_of_mem (List.mem_of_getElem? hs))) ih
  | final he _ _ ih =>
    refine .child (List.mem_append_right _ ?_) ih
    rw [he]
    exact List.mem_cons_self
  | part _ hc _ _ _ ih => exact .child (List.mem_of_getElem? hc) ih

/-- On the way to something that is not arithmetic, the counters of the loops around are left alone. -/
theorem calm_of_arrives {n m : Node} {loc : List ℕ} {σ σ' : Store} {t : List Event}
    (h : Arrives atom fixed n loc m σ t σ') (hbusy : Busy m) (hm : ∀ s, m ≠ .stmt s) (hq : Quiet n)
    {before : List Event} (hsteady : Steady (before ++ t)) (hcalm : Calm before)
    (hsteps : ∀ x, .entered x true ∈ before → StepsOnly x n) :
    Calm (before ++ t) ∧ ∀ x, .entered x true ∈ before ++ t → StepsOnly x m := by
  induction h generalizing before with
  | here n σ =>
    rw [List.append_nil]
    exact ⟨hcalm, hsteps⟩
  | @stmt b i s rest m σ₁ σ₂ σ₃ t t' hs hp _ ih =>
    rw [← List.append_assoc] at hsteady ⊢
    have hmem : s ∈ b.stmts := List.mem_of_getElem? hs
    obtain ⟨hcalm', hentered⟩ := calm_of_from hcalm fun e he => by
      obtain ⟨r, hr, hfrom⟩ := from_of_passesAll hp e he
      refine ⟨_, hfrom, fun x hx => (hsteps x hx).1 _ (List.mem_append_left _ (List.mem_map_of_mem ?_))⟩
      -- the statement comes before the last
      have hi : i ≤ b.stmts.length - 1 := Nat.le_sub_one_of_lt (List.getElem?_eq_some_iff.mp hs).1
      rw [Block.stmts, List.dropLast_eq_take]
      exact List.take_subset_take_left _ hi hr
    exact ih hbusy hm (hq.child (List.mem_append_left _ (List.mem_map_of_mem hmem))) hsteady hcalm' fun x hx =>
      (hsteps x (hentered x hx)).stmt hmem
  | @final b e rest m σ₁ σ₂ σ₃ t t' he hp _ ih =>
    rw [← List.append_assoc] at hsteady ⊢
    have hfinal : Node.expr e ∈ b.finalExpr.toList.map Node.expr := by
      rw [he]
      exact List.mem_cons_self
    obtain ⟨hcalm', hentered⟩ := calm_of_from hcalm fun ev hev => by
      obtain ⟨r, hr, hfrom⟩ := from_of_passesAll hp ev hev
      refine ⟨_, hfrom, fun x hx => ?_⟩
      obtain ⟨_, t₁, _, hpass, hsub⟩ := passes_of_mem hp r hr
      exact still_of_passes hpass ((hsteps x hx).stmt hr) fun hassigned =>
        assigned_notMem hsteady.left hx (hsub hassigned)
    exact ih hbusy hm (hq.child (List.mem_append_right _ hfinal)) hsteady hcalm' fun x hx =>
      (hsteps x (hentered x hx)).1 _ (List.mem_append_right _ hfinal)
  | @part n c m i rest σ₁ σ₂ σ₃ σ₄ t t' hn hc he hb harrives ih =>
    have hchild : c ∈ n.children := List.mem_of_getElem? hc
    have hstill : ∀ x, .entered x true ∈ before → Still x n := by
      intro x hx
      have hx := hsteps x hx
      cases n with
      | block b => exact absurd rfl (hn b)
      | stmt s =>
        refine hx.resolve_right fun hstep => ?_
        exact hm s (eq_of_busy_of_step hstep (.child hchild (within_of_arrives harrives)) hbusy)
      | _ => exact hx
    have happend : before ++ (t ++ .bound (boundNames n i) :: entries n i ++ t') =
        before ++ t ++ (.bound (boundNames n i) :: entries n i) ++ t' := by
      simp only [List.append_assoc]
    rw [happend] at hsteady ⊢
    obtain ⟨hcalm', hentered⟩ := calm_of_from hcalm fun e hmem => ⟨n, from_of_effects he e hmem, hstill⟩
    have hunchanged : ∀ x old new, .changed x old new true ∉ .bound (boundNames n i) :: entries n i :=
      fun x old new => List.not_mem_cons_of_ne_of_not_mem Event.noConfusion changed_notMem_entries
    refine ih hbusy hm (hq.child hchild) hsteady
      (calm_append hcalm' (calm_of_not_changed hunchanged) fun x old new hmem => absurd hmem (hunchanged x old new))
      fun x hx => ?_
    rcases List.mem_append.mp hx with hx | hx
    · exact stepsOnly_of_still ((hstill x (hentered x hx)).child hchild)
    · exact stepsOnly_of_entries hq hc ((List.mem_cons.mp hx).resolve_left Event.noConfusion)

end

end Karac.Disjoint
