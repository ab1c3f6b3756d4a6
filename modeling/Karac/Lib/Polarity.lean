import Mathlib

/-! Terms over operations that keep, reverse or demand the equivalence of their arguments, and what a term does
to an order on its variables: in every model it goes up exactly if each place of a variable in it agrees with
how the variable moves. -/

namespace Karac.Lib.Places

inductive Polarity
  | positive | negative | mixed
  deriving DecidableEq

/-- The polarity of a place inside a place. -/
def Polarity.comp : Polarity → Polarity → Polarity
  | .mixed, _ => .mixed
  | _, .mixed => .mixed
  | .positive, q => q
  | .negative, .positive => .negative
  | .negative, .negative => .positive

@[simp] theorem Polarity.positive_comp (p : Polarity) : Polarity.positive.comp p = p := by cases p <;> rfl

@[simp] theorem Polarity.comp_positive (p : Polarity) : p.comp .positive = p := by cases p <;> rfl

@[simp] theorem Polarity.mixed_comp (p : Polarity) : Polarity.mixed.comp p = .mixed := by cases p <;> rfl

@[simp] theorem Polarity.comp_mixed (p : Polarity) : p.comp .mixed = .mixed := by cases p <;> rfl

theorem Polarity.comp_assoc (p q r : Polarity) : (p.comp q).comp r = p.comp (q.comp r) := by
  cases p <;> cases q <;> cases r <;> rfl

section

variable {A : Type} [Preorder A]

/-- How two points compare at a place. -/
def Rel : Polarity → A → A → Prop
  | .positive, x, y => x ≤ y
  | .negative, x, y => y ≤ x
  | .mixed, x, y => x ≤ y ∧ y ≤ x

theorem Rel.of_mixed {x y : A} (h : Rel .mixed x y) (p : Polarity) : Rel p x y := by
  cases p with
  | positive => exact h.1
  | negative => exact h.2
  | mixed => exact h

theorem Rel.refl (p : Polarity) (x : A) : Rel p x x := Rel.of_mixed ⟨le_rfl, le_rfl⟩ p

/-- Lists of one length whose points compare place by place. -/
def RelAll : (ℕ → Polarity) → List A → List A → Prop
  | _, [], [] => True
  | slot, x :: xs, y :: ys => Rel (slot 0) x y ∧ RelAll (fun i => slot (i + 1)) xs ys
  | _, _, _ => False

theorem RelAll.reverse {slot : ℕ → Polarity} {xs ys : List A} (h : RelAll (fun i => Polarity.negative.comp (slot i)) xs ys) :
    RelAll slot ys xs := by
  induction xs generalizing slot ys with
  | nil =>
    cases ys with
    | nil => trivial
    | cons y ys => exact h.elim
  | cons x xs ih =>
    cases ys with
    | nil => exact h.elim
    | cons y ys =>
      refine ⟨?_, ih h.2⟩
      have hxy : Rel (Polarity.negative.comp (slot 0)) x y := h.1
      cases hslot : slot 0 <;> rw [hslot] at hxy
      · exact hxy
      · exact hxy
      · exact And.symm hxy

theorem RelAll.of_mixed {slot : ℕ → Polarity} {xs ys : List A} (h : RelAll (fun _ => .mixed) xs ys) : RelAll slot xs ys := by
  induction xs generalizing slot ys with
  | nil =>
    cases ys with
    | nil => trivial
    | cons y ys => exact h.elim
  | cons x xs ih =>
    cases ys with
    | nil => exact h.elim
    | cons y ys => exact ⟨Rel.of_mixed h.1 _, ih h.2⟩

theorem RelAll.symm_mixed {xs ys : List A} (h : RelAll (fun _ => .mixed) xs ys) : RelAll (fun _ => .mixed) ys xs :=
  RelAll.reverse h

end

inductive Term (Op Var : Type)
  | var (x : Var)
  | app (op : Op) (args : List (Term Op Var))

variable {Op Var : Type}

/-- An order with the operations in it, each monotone as its slots say. -/
structure Model (slot : Op → ℕ → Polarity) (A : Type) [Preorder A] where
  app : Op → List A → A
  mono : ∀ op xs ys, RelAll (slot op) xs ys → app op xs ≤ app op ys

mutual

def Term.eval {A : Type} (app : Op → List A → A) (env : Var → A) : Term Op Var → A
  | .var x => env x
  | .app op args => app op (Term.evalAll app env args)

def Term.evalAll {A : Type} (app : Op → List A → A) (env : Var → A) : List (Term Op Var) → List A
  | [] => []
  | t :: ts => t.eval app env :: Term.evalAll app env ts

end

mutual

/-- The places of the variables in a term that stands at a place of the given polarity. -/
def Term.places (slot : Op → ℕ → Polarity) (ctx : Polarity) : Term Op Var → List (Var × Polarity)
  | .var x => [(x, ctx)]
  | .app op args => Term.placesAll slot ctx (slot op) args

def Term.placesAll (slot : Op → ℕ → Polarity) (ctx : Polarity) (at_ : ℕ → Polarity) :
    List (Term Op Var) → List (Var × Polarity)
  | [] => []
  | t :: ts => t.places slot (ctx.comp (at_ 0)) ++ Term.placesAll slot ctx (fun i => at_ (i + 1)) ts

end

section

variable {slot : Op → ℕ → Polarity} {ctx : Polarity} {at_ : ℕ → Polarity}

theorem Term.placesAll_append (ts us : List (Term Op Var)) :
    Term.placesAll slot ctx at_ (ts ++ us) =
      Term.placesAll slot ctx at_ ts ++ Term.placesAll slot ctx (fun i => at_ (i + ts.length)) us := by
  induction ts generalizing at_ with
  | nil => rfl
  | cons t ts ih =>
    rw [List.cons_append, Term.placesAll, ih, Term.placesAll, List.append_assoc]
    simp only [List.length_cons, Nat.add_assoc]

theorem Term.placesAll_congr {at' : ℕ → Polarity} (ts : List (Term Op Var)) (hat : ∀ i < ts.length, at_ i = at' i) :
    Term.placesAll slot ctx at_ ts = Term.placesAll slot ctx at' ts := by
  induction ts generalizing at_ at' with
  | nil => rfl
  | cons t ts ih =>
    rw [Term.placesAll, Term.placesAll, hat 0 (by simp)]
    exact congrArg _ (ih fun i hi => hat (i + 1) (by simpa using hi))

/-- Arguments that stand at places of one polarity. -/
theorem Term.placesAll_of_eq {p : Polarity} (ts : List (Term Op Var)) (hat : ∀ i < ts.length, at_ i = p) :
    Term.placesAll slot ctx at_ ts = ts.flatMap (Term.places slot (ctx.comp p)) := by
  induction ts generalizing at_ with
  | nil => rfl
  | cons t ts ih =>
    rw [Term.placesAll, hat 0 (by simp), List.flatMap_cons]
    exact congrArg _ (ih fun i hi => hat (i + 1) (by simpa using hi))

end

section

variable {slot : Op → ℕ → Polarity} {A : Type} [Preorder A]

/-- An operation at a place of any polarity. -/
theorem Model.rel_app (M : Model slot A) {ctx : Polarity} {op : Op} {xs ys : List A}
    (h : RelAll (fun i => ctx.comp (slot op i)) xs ys) : Rel ctx (M.app op xs) (M.app op ys) := by
  cases ctx with
  | positive => exact M.mono op xs ys (by simpa only [Polarity.positive_comp] using h)
  | negative => exact M.mono op ys xs h.reverse
  | mixed =>
    have hmixed : RelAll (fun _ => .mixed) xs ys := by simpa only [Polarity.mixed_comp] using h
    exact ⟨M.mono op xs ys hmixed.of_mixed, M.mono op ys xs hmixed.symm_mixed.of_mixed⟩

mutual

/-- A term moves as its places do. -/
theorem Model.rel_eval (M : Model slot A) {env env' : Var → A} (ctx : Polarity) :
    ∀ t : Term Op Var, (∀ q ∈ t.places slot ctx, Rel q.2 (env q.1) (env' q.1)) →
      Rel ctx (t.eval M.app env) (t.eval M.app env')
  | .var x, h => by
    rw [Term.eval, Term.eval]
    exact h (x, ctx) (List.mem_singleton_self _)
  | .app op args, h => by
    rw [Term.eval, Term.eval]
    exact M.rel_app (M.rel_evalAll ctx (slot op) args h)

theorem Model.rel_evalAll (M : Model slot A) {env env' : Var → A} (ctx : Polarity) (at_ : ℕ → Polarity) :
    ∀ ts : List (Term Op Var), (∀ q ∈ Term.placesAll slot ctx at_ ts, Rel q.2 (env q.1) (env' q.1)) →
      RelAll (fun i => ctx.comp (at_ i)) (Term.evalAll M.app env ts) (Term.evalAll M.app env' ts)
  | [], _ => trivial
  | t :: ts, h =>
    ⟨M.rel_eval (ctx.comp (at_ 0)) t fun q hq => h q (List.mem_append_left _ hq),
      M.rel_evalAll ctx (fun i => at_ (i + 1)) ts fun q hq => h q (List.mem_append_right _ hq)⟩

end

end

/-! The order of leaves: a term as the list of what stands at its places. -/

/-- Points with the polarity of the place where each stands. -/
structure Leaves (A : Type) where
  leaves : List (A × Polarity)

namespace Leaves

variable {A : Type}

def scale (p : Polarity) (l : List (A × Polarity)) : List (A × Polarity) := l.map fun q => (q.1, p.comp q.2)

variable [Preorder A]

def Below (x y : A × Polarity) : Prop := x.2 = y.2 ∧ Rel x.2 x.1 y.1

theorem Below.trans {x y z : A × Polarity} (h : Below x y) (h' : Below y z) : Below x z := by
  obtain ⟨hp, hxy⟩ := h
  obtain ⟨hq, hyz⟩ := h'
  refine ⟨hp.trans hq, ?_⟩
  rw [← hp] at hyz
  cases hx : x.2 <;> rw [hx] at hxy hyz
  · exact hxy.trans hyz
  · exact le_trans hyz hxy
  · exact ⟨hxy.1.trans hyz.1, hyz.2.trans hxy.2⟩

theorem forall₂_trans {l l' l'' : List (A × Polarity)} (h : List.Forall₂ Below l l') (h' : List.Forall₂ Below l' l'') :
    List.Forall₂ Below l l'' := by
  induction h generalizing l'' with
  | nil => exact h'
  | cons hxy _ ih =>
    cases h' with
    | cons hyz hrest => exact List.Forall₂.cons (hxy.trans hyz) (ih hrest)

instance : Preorder (Leaves A) where
  le l l' := List.Forall₂ Below l.leaves l'.leaves
  le_refl l := List.forall₂_same.mpr fun q _ => ⟨rfl, Rel.refl q.2 q.1⟩
  le_trans _ _ _ h h' := forall₂_trans h h'

theorem Below.scale_negative {x y : A × Polarity} (h : Below y x) :
    Below (x.1, Polarity.negative.comp x.2) (y.1, Polarity.negative.comp y.2) := by
  obtain ⟨hp, hrel⟩ := h
  refine ⟨by simp only [hp], ?_⟩
  rw [hp] at hrel
  cases hx : x.2 <;> rw [hx] at hrel
  · exact hrel
  · exact hrel
  · exact And.symm hrel

theorem Below.scale_mixed {x y : A × Polarity} (h : Below x y) (h' : Below y x) :
    Below (x.1, Polarity.mixed.comp x.2) (y.1, Polarity.mixed.comp y.2) := by
  obtain ⟨hp, hxy⟩ := h
  obtain ⟨-, hyx⟩ := h'
  refine ⟨by simp only [Polarity.mixed_comp], ?_⟩
  rw [← hp] at hyx
  rw [Polarity.mixed_comp]
  cases hx : x.2 <;> rw [hx] at hxy hyx
  · exact ⟨hxy, hyx⟩
  · exact ⟨hyx, hxy⟩
  · exact hxy

theorem scale_below {p : Polarity} {l l' : Leaves A} (h : Rel p l l') :
    List.Forall₂ Below (scale p l.leaves) (scale p l'.leaves) := by
  unfold scale
  rw [List.forall₂_map_left_iff, List.forall₂_map_right_iff]
  cases p with
  | positive => exact List.Forall₂.imp (fun x y hxy => by simpa only [Polarity.positive_comp] using hxy) h
  | negative => exact List.Forall₂.imp (fun x y hyx => Below.scale_negative hyx) (List.Forall₂.flip h)
  | mixed => exact List.Forall₂.mp (fun x y hxy hyx => Below.scale_mixed hxy hyx) h.1 (List.Forall₂.flip h.2)

end Leaves

section

variable {A : Type}

/-- The leaves of the arguments in order, each at the place of its argument. -/
def gather : (ℕ → Polarity) → List (Leaves A) → List (A × Polarity)
  | _, [] => []
  | at_, l :: ls => Leaves.scale (at_ 0) l.leaves ++ gather (fun i => at_ (i + 1)) ls

theorem gather_below [Preorder A] {at_ : ℕ → Polarity} {ls ls' : List (Leaves A)} (h : RelAll at_ ls ls') :
    List.Forall₂ Leaves.Below (gather at_ ls) (gather at_ ls') := by
  induction ls generalizing at_ ls' with
  | nil =>
    cases ls' with
    | nil => exact List.Forall₂.nil
    | cons l' ls' => exact h.elim
  | cons l ls ih =>
    cases ls' with
    | nil => exact h.elim
    | cons l' ls' => exact List.rel_append (Leaves.scale_below h.1) (ih h.2)

def leavesModel (slot : Op → ℕ → Polarity) (A : Type) [Preorder A] : Model slot (Leaves A) where
  app op ls := ⟨gather (slot op) ls⟩
  mono _ _ _ h := gather_below h

def atPlaces (env : Var → A) (places : List (Var × Polarity)) : List (A × Polarity) := places.map fun q => (env q.1, q.2)

variable {slot : Op → ℕ → Polarity} [Preorder A]

omit [Preorder A] in
theorem scale_atPlaces (p : Polarity) (env : Var → A) (places : List (Var × Polarity)) :
    Leaves.scale p (atPlaces env places) = atPlaces env (places.map fun q => (q.1, p.comp q.2)) := by
  simp [Leaves.scale, atPlaces]

mutual

theorem Term.places_comp (p ctx : Polarity) :
    ∀ t : Term Op Var, t.places slot (p.comp ctx) = (t.places slot ctx).map fun q => (q.1, p.comp q.2)
  | .var x => by simp [Term.places]
  | .app op args => by rw [Term.places, Term.places, Term.placesAll_comp p ctx (slot op) args]

theorem Term.placesAll_comp (p ctx : Polarity) (at_ : ℕ → Polarity) :
    ∀ ts : List (Term Op Var),
      Term.placesAll slot (p.comp ctx) at_ ts = (Term.placesAll slot ctx at_ ts).map fun q => (q.1, p.comp q.2)
  | [] => rfl
  | t :: ts => by
    rw [Term.placesAll, Term.placesAll, List.map_append, Polarity.comp_assoc, Term.places_comp p (ctx.comp (at_ 0)) t,
      Term.placesAll_comp p ctx (fun i => at_ (i + 1)) ts]

end

theorem Term.places_eq_scale (p : Polarity) (t : Term Op Var) :
    t.places slot p = (t.places slot .positive).map fun q => (q.1, p.comp q.2) := by
  rw [← Term.places_comp, Polarity.comp_positive]

mutual

/-- In the order of leaves a term is what stands at its places. -/
theorem Term.eval_leaves (env : Var → A) :
    ∀ t : Term Op Var, t.eval (leavesModel slot A).app (fun x => ⟨[(env x, .positive)]⟩) =
      ⟨atPlaces env (t.places slot .positive)⟩
  | .var x => by
    rw [Term.eval, Term.places]
    rfl
  | .app op args => by
    rw [Term.eval, Term.places, ← Term.gather_evalAll env (slot op) args]
    rfl

theorem Term.gather_evalAll (env : Var → A) (at_ : ℕ → Polarity) :
    ∀ ts : List (Term Op Var),
      gather at_ (Term.evalAll (leavesModel slot A).app (fun x => ⟨[(env x, .positive)]⟩) ts) =
        atPlaces env (Term.placesAll slot .positive at_ ts)
  | [] => rfl
  | t :: ts => by
    rw [Term.evalAll, gather, Term.eval_leaves env t, Term.gather_evalAll env (fun i => at_ (i + 1)) ts, scale_atPlaces,
      ← Term.places_eq_scale, Term.placesAll, Polarity.positive_comp]
    simp [atPlaces]

end

theorem rel_places_of_below {env env' : Var → A} {t : Term Op Var}
    (h : t.eval (leavesModel slot A).app (fun x => ⟨[(env x, .positive)]⟩) ≤
      t.eval (leavesModel slot A).app (fun x => ⟨[(env' x, .positive)]⟩)) :
    ∀ q ∈ t.places slot .positive, Rel q.2 (env q.1) (env' q.1) := by
  rw [Term.eval_leaves, Term.eval_leaves] at h
  have hall : List.Forall₂ Leaves.Below (atPlaces env (t.places slot .positive)) (atPlaces env' (t.places slot .positive)) := h
  unfold atPlaces at hall
  rw [List.forall₂_map_left_iff, List.forall₂_map_right_iff, List.forall₂_same] at hall
  exact fun q hq => (hall q hq).2

theorem rel_places_of_rel {ctx : Polarity} {env env' : Var → A} {t : Term Op Var}
    (h : Rel ctx (t.eval (leavesModel slot A).app fun x => ⟨[(env x, .positive)]⟩)
      (t.eval (leavesModel slot A).app fun x => ⟨[(env' x, .positive)]⟩)) :
    ∀ q ∈ t.places slot ctx, Rel q.2 (env q.1) (env' q.1) := by
  rw [Term.places_eq_scale]
  intro q hq
  obtain ⟨⟨x, p⟩, hmem, rfl⟩ := List.mem_map.mp hq
  cases ctx with
  | positive => simpa only [Polarity.positive_comp] using rel_places_of_below h (x, p) hmem
  | negative =>
    have hrel : Rel p (env' x) (env x) := rel_places_of_below h (x, p) hmem
    cases p with
    | positive => exact hrel
    | negative => exact hrel
    | mixed => exact And.symm hrel
  | mixed =>
    have hrel : Rel p (env x) (env' x) := rel_places_of_below h.1 (x, p) hmem
    have hrel' : Rel p (env' x) (env x) := rel_places_of_below h.2 (x, p) hmem
    cases p with
    | positive => exact ⟨hrel, hrel'⟩
    | negative => exact ⟨hrel', hrel⟩
    | mixed => exact hrel

theorem rel_leaf {p : Polarity} {a b : A} (h : Rel p a b) :
    Rel p (⟨[(a, .positive)]⟩ : Leaves A) ⟨[(b, .positive)]⟩ := by
  have hleaf : ∀ x y : A, x ≤ y → (⟨[(x, .positive)]⟩ : Leaves A) ≤ ⟨[(y, .positive)]⟩ :=
    fun x y hxy => List.Forall₂.cons ⟨rfl, hxy⟩ List.Forall₂.nil
  cases p with
  | positive => exact hleaf a b h
  | negative => exact hleaf b a h
  | mixed => exact ⟨hleaf a b h.1, hleaf b a h.2⟩

end

/-- How a variable moves agrees with a place of it. One that moves both ways agrees with every place. -/
def Agrees (mark : Var → Polarity) (place : Var × Polarity) : Prop := mark place.1 = .mixed ∨ place.2 = mark place.1

theorem Agrees.rel {A : Type} [Preorder A] {mark : Var → Polarity} {place : Var × Polarity} {x y : A} (h : Agrees mark place)
    (hrel : Rel (mark place.1) x y) : Rel place.2 x y := by
  rcases h with hmixed | hsame
  · rw [hmixed] at hrel
    exact hrel.of_mixed place.2
  · rwa [hsame]

theorem eq_positive_of_rel {p : Polarity} (h : Rel p false true) : p = .positive := by
  cases p with
  | positive => rfl
  | negative => exact absurd (show true ≤ false from h) (by decide)
  | mixed => exact absurd h.2 (by decide)

theorem eq_negative_of_rel {p : Polarity} (h : Rel p true false) : p = .negative := by
  cases p with
  | positive => exact absurd (show true ≤ false from h) (by decide)
  | negative => rfl
  | mixed => exact absurd h.1 (by decide)

/-- A term moves in every model as it should if and only if each of its places agrees with how the variable moves. -/
theorem moves_iff {slot : Op → ℕ → Polarity} {ctx : Polarity} {mark : Var → Polarity} {t : Term Op Var} :
    (∀ (A : Type) [Preorder A] (M : Model slot A) (env env' : Var → A), (∀ x, Rel (mark x) (env x) (env' x)) →
      Rel ctx (t.eval M.app env) (t.eval M.app env')) ↔
    ∀ place ∈ t.places slot ctx, Agrees mark place := by
  classical
  constructor
  · intro h place hplace
    by_contra hnot
    obtain ⟨hmark, hne⟩ := not_or.mp hnot
    -- the variable moves from one truth value to the other, and nothing else does
    let env : Var → Bool := fun x => decide (x = place.1) && decide (mark x = .negative)
    let env' : Var → Bool := fun x => decide (x = place.1) && decide (mark x = .positive)
    have hmoves : ∀ x, Rel (mark x) (env x) (env' x) := by
      intro x
      by_cases hx : x = place.1
      · subst hx
        cases hm : mark place.1 <;> simp [env, env', hm, Rel]
      · simp only [env, env', hx, decide_false, Bool.false_and]
        exact Rel.refl _ _
    have hrel := rel_places_of_rel (h (Leaves Bool) (leavesModel slot Bool) _ _ fun x => rel_leaf (hmoves x)) place hplace
    cases hm : mark place.1 with
    | mixed => exact hmark hm
    | positive =>
      have henv : env place.1 = false ∧ env' place.1 = true := by simp [env, env', hm]
      rw [henv.1, henv.2] at hrel
      exact hne ((eq_positive_of_rel hrel).trans hm.symm)
    | negative =>
      have henv : env place.1 = true ∧ env' place.1 = false := by simp [env, env', hm]
      rw [henv.1, henv.2] at hrel
      exact hne ((eq_negative_of_rel hrel).trans hm.symm)
  · exact fun h A _ M env env' hrel => M.rel_eval ctx t fun place hplace => (h place hplace).rel (hrel place.1)

end Karac.Lib.Places
