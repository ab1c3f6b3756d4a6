import Karac.Disjoint.Frame
import Karac.Disjoint.Steadiness

/-! What the walk knows of the variables holds where an execution comes to. -/

namespace Karac.Disjoint

open Ast Karac.Lib

/-! A form has the value of the expression that it was built from. -/

def atomValue (atom : String → Option ℤ) (x : String) : ℤ := (atom x).getD 0

def Prover.IsIv (P : Prover) (x : String) : Prop := x = P.loopVar ∨ (P.ivs x).isSome

/-- The value is that of the form, whatever the names hold that are no induction variables. -/
def Denotes (atom : String → Option ℤ) (P : Prover) (σ : Store) (f : IndexForm) (v : ℤ) : Prop :=
  ∀ ι : String → ℤ, (∀ x, P.IsIv x → ι x = σ.integers x) → v = f.eval (atomValue atom) ι

/-- Of the variables that hold an integer. -/
structure Values (atom : String → Option ℤ) (fixed : String → Bool) (P : Prover) (σ : Store) : Prop where
  names : P.isInvariantName = fixed
  atoms : ∀ x, fixed x = true → σ.value x = atom x
  forms : ∀ x f, P.localForms x = some f → ∀ v, σ.value x = some v → Denotes atom P σ f v

section

variable {atom : String → Option ℤ} {fixed : String → Bool} {P : Prover} {σ : Store}

theorem denotes_atom (x : String) {v : ℤ} (h : atom x = some v) :
    Denotes atom P σ (IndexForm.invariant (SymPoly.atom x)) v := by
  intro ι _
  rw [IndexForm.eval_invariant, SymPoly.eval_atom, atomValue, h]
  rfl

theorem denotes_of_nameForm (h : Values atom fixed P σ) {x : String} {f : IndexForm} (hf : P.nameForm x = .ok f) {v : ℤ}
    (hv : σ.value x = some v) : Denotes atom P σ f v := by
  unfold Prover.nameForm at hf
  split at hf
  · rename_i hiv
    cases hf
    intro ι hι
    rw [IndexForm.eval_induction, hι x hiv, Store.integers, hv]
    rfl
  · split at hf
    · rename_i g hg
      cases hf
      exact h.forms x _ hg v hv
    · split at hf
      · rename_i hinv
        cases hf
        exact denotes_atom x ((h.atoms x (h.names ▸ hinv)).symm.trans hv)
      · split at hf <;> cases hf

theorem eq_some_of_orOverflow {α : Type} {o : Option α} {a : α} (h : orOverflow o = .ok a) : o = some a := by
  cases o with
  | none => cases h
  | some b => exact congrArg some (Except.ok.inj h)

theorem denotes_of_combineForms {op : IntOp} {l r f : IndexForm} (hf : combineForms op l r = .ok f) :
    ∃ g, arithmetic op = some g ∧
      ∀ a b, Denotes atom P σ l a → Denotes atom P σ r b → Denotes atom P σ f (g a b) := by
  cases op with
  | add =>
    refine ⟨_, rfl, fun a b ha hb ι hι => ?_⟩
    rw [IndexForm.eval_add _ _ (eq_some_of_orOverflow hf), ← ha ι hι, ← hb ι hι]
  | sub =>
    refine ⟨_, rfl, fun a b ha hb ι hι => ?_⟩
    rw [IndexForm.eval_sub _ _ (eq_some_of_orOverflow hf), ← ha ι hι, ← hb ι hι]
  | mul =>
    refine ⟨_, rfl, fun a b ha hb ι hι => ?_⟩
    simp only [combineForms] at hf
    split at hf
    · cases hf
    · rw [IndexForm.eval_mul _ _ (eq_some_of_orOverflow hf), ← ha ι hι, ← hb ι hι]
  | lt => cases hf
  | le => cases hf

theorem ok_of_built {b : Built} {k : Finset String → IndexForm → Built} {f : IndexForm} (h : (b.bind k).2 = .ok f) :
    ∃ g, b.2 = .ok g ∧ (k b.1 g).2 = .ok f := by
  obtain ⟨seen, result⟩ := b
  cases result with
  | error d => cases h
  | ok g => exact ⟨g, rfl, h⟩

/-- The value is known, and an integer among them is what the form denotes. -/
def KnownAs (atom : String → Option ℤ) (P : Prover) (σ : Store) (f : IndexForm) (o : Option (Option ℤ)) : Prop :=
  ∃ r, o = some r ∧ ∀ v, r = some v → Denotes atom P σ f v

theorem KnownAs.neg {f g : IndexForm} {o : Option (Option ℤ)} (h : KnownAs atom P σ g o)
    (hf : orOverflow g.neg = .ok f) : KnownAs atom P σ f (o.map (Option.map Neg.neg)) := by
  obtain ⟨r, rfl, hr⟩ := h
  refine ⟨r.map Neg.neg, rfl, fun v hv ι hι => ?_⟩
  obtain ⟨u, hu, rfl⟩ := Option.map_eq_some_iff.mp hv
  rw [IndexForm.eval_neg _ _ (eq_some_of_orOverflow hf), ← hr u hu ι hι]

theorem KnownAs.combine {op : IntOp} {l r f : IndexForm} {a b : Option (Option ℤ)} (ha : KnownAs atom P σ l a)
    (hb : KnownAs atom P σ r b) (hf : combineForms op l r = .ok f) :
    KnownAs atom P σ f (arithmeticValue (some op) a b) := by
  obtain ⟨u, rfl, hu⟩ := ha
  obtain ⟨w, rfl, hw⟩ := hb
  obtain ⟨g, hg, hdenotes⟩ : ∃ g, arithmetic op = some g ∧
      ∀ a b, Denotes atom P σ l a → Denotes atom P σ r b → Denotes atom P σ f (g a b) := denotes_of_combineForms hf
  refine ⟨Option.map₂ g u w, ?_, fun v hv => ?_⟩
  · simp only [arithmeticValue, Option.bind_some, hg]
    rfl
  · obtain ⟨x, y, hx, hy, rfl⟩ := Option.map₂_eq_some_iff.mp hv
    exact hdenotes x y (hu x hx) (hw y hy)

theorem KnownAs.place {suffix : String} {nonneg : Bool} {seen : Finset String} {object : Expr} {f : IndexForm}
    (hnames : P.isInvariantName = fixed) (hf : (P.placeForm seen suffix nonneg object).2 = .ok f) :
    KnownAs atom P σ f (placeValue atom fixed suffix object) := by
  subst hnames
  unfold Prover.placeForm at hf
  split at hf
  · split at hf
    · rename_i hinv
      cases hf
      refine ⟨_, if_pos hinv, fun v hv => denotes_atom _ hv⟩
    · cases hf
  · cases hf

theorem known_of_buildForm (h : Values atom fixed P σ) {e : Expr} {seen : Finset String} {f : IndexForm}
    (hf : (P.buildForm seen e).2 = .ok f) : KnownAs atom P σ f (knownValue atom fixed σ e) := by
  fun_induction Prover.buildForm P seen e generalizing f with
  | case1 seen n =>
    simp only at hf
    split at hf
    · rename_i c hc
      cases hf
      refine ⟨some n, rfl, fun v hv ι _ => ?_⟩
      rw [IndexForm.eval_constant, I64.val_of_checked hc]
      exact (Option.some.inj hv).symm
    · cases hf
  | case2 seen name => exact ⟨_, rfl, fun v hv => denotes_of_nameForm h hf hv⟩
  | case3 seen name => exact ⟨_, rfl, fun v hv => denotes_of_nameForm h hf hv⟩
  | case4 seen first second rest =>
    cases hf
    exact ⟨_, rfl, fun v hv => denotes_atom _ hv⟩
  | case5 seen operand ih =>
    obtain ⟨g, hg, hneg⟩ := ok_of_built hf
    exact (ih hg).neg hneg
  | case6 seen object method args hlen =>
    rw [knownValue, if_pos hlen]
    exact .place h.names hf
  | case8 seen object field => exact .place h.names hf
  | case10 seen typeName method label mutMarker operand hcall ih =>
    obtain ⟨g, hg, hneg⟩ := ok_of_built hf
    rw [knownValue, if_pos hcall]
    exact (ih hg).neg hneg
  | case13 seen op left right intOp hop ihLeft ihRight =>
    obtain ⟨l, hl, hrest⟩ := ok_of_built hf
    obtain ⟨r, hr, hcombine⟩ := ok_of_built hrest
    rw [knownValue, hop]
    exact (ihLeft hl).combine (ihRight _ hr) hcombine
  | case15 seen typeName method label mutMarker left label' mutMarker' right intOp hop ihLeft ihRight =>
    obtain ⟨l, hl, hrest⟩ := ok_of_built hf
    obtain ⟨r, hr, hcombine⟩ := ok_of_built hrest
    rw [knownValue, hop]
    exact (ihLeft hl).combine (ihRight _ hr) hcombine
  | _ => cases hf

theorem ok_of_toOption {α : Type} {x : Except DisjointDecline α} {a : α} (h : x.toOption = some a) : x = .ok a := by
  cases x with
  | error d => cases h
  | ok b => exact congrArg Except.ok (Option.some.inj h)

theorem ok_of_buildInvariant {e : Expr} {seen : Finset String} {p : SymPoly}
    (hp : (P.buildInvariant seen e).2 = some p) : ∃ f, (P.buildForm seen e).2 = .ok f ∧ f.asInvariant = some p := by
  obtain ⟨f, hf, hp⟩ := Option.bind_eq_some_iff.mp hp
  exact ⟨f, ok_of_toOption hf, hp⟩

theorem denotes_of_evaluates (h : Values atom fixed P σ) {e : Expr} {seen : Finset String} {f : IndexForm}
    (hf : (P.buildForm seen e).2 = .ok f) {v : ℤ} (hv : Evaluates atom fixed σ e (some v)) : Denotes atom P σ f v := by
  obtain ⟨r, hr, hdenotes⟩ := known_of_buildForm h hf
  exact hdenotes v (hv r hr).symm

theorem eval_of_evaluates (h : Values atom fixed P σ) {e : Expr} {seen : Finset String} {p : SymPoly}
    (hp : (P.buildInvariant seen e).2 = some p) {v : ℤ} (hv : Evaluates atom fixed σ e (some v)) :
    p.eval (atomValue atom) = v := by
  obtain ⟨f, hf, hinv⟩ := ok_of_buildInvariant hp
  rw [denotes_of_evaluates h hf hv σ.integers fun _ _ => rfl, IndexForm.eval_of_asInvariant _ _ hinv]

end

/-- What the walk knows when it comes to a part, where the execution comes to it. -/
structure Tracks (atom : String → Option ℤ) (fixed : String → Bool) (P : Prover) (σ : Store)
    (before : List Event) : Prop extends Values atom fixed P σ where
  frozen : ∀ x f, P.localForms x = some f → ∀ c, σ x = some c → ¬ c.Writable
  entered : ∀ x, P.IsIv x → ∃ counted, .entered x counted ∈ before
  recorded : ∀ x, (P.localForms x).isSome ∨ (P.mutInits x).isSome → ∃ e ∈ before, e.Records x
  lower : ∀ x p, P.mutInits x = some p → Unlowered x before → ∀ v, σ.value x = some v → p.eval (atomValue atom) ≤ v

/-- No more is known of the variable. -/
structure Fewer (P Q : Prover) (x : String) : Prop where
  form : ∀ f, Q.localForms x = some f → P.localForms x = some f
  init : ∀ p, Q.mutInits x = some p → P.mutInits x = some p

/-- What is known of a variable that was set up or written. -/
structure Renewed (atom : String → Option ℤ) (P P' : Prover) (σ σ' : Store) (after : List Event) (x : String) :
    Prop where
  form : ∀ f, P'.localForms x = some f → (∃ e ∈ after, e.Records x) ∧ (∀ c, σ' x = some c → ¬ c.Writable) ∧
    ∀ v, σ'.value x = some v → Denotes atom P σ f v
  init : ∀ p, P'.mutInits x = some p → (∃ e ∈ after, e.Records x) ∧
    (Unlowered x after → ∀ v, σ'.value x = some v → p.eval (atomValue atom) ≤ v)

section

variable {atom : String → Option ℤ} {fixed : String → Bool} {P P' Q : Prover} {σ σ' : Store} {before t : List Event}

theorem Fewer.refl (P : Prover) (x : String) : Fewer P P x := ⟨fun _ h => h, fun _ h => h⟩

theorem Fewer.trans {x : String} (h : Fewer P P' x) (h' : Fewer P' Q x) : Fewer P Q x :=
  ⟨fun f hf => h.form f (h'.form f hf), fun p hp => h.init p (h'.init p hp)⟩

theorem fewer_forget (P : Prover) (names : List String) (x : String) : Fewer P (P.forget names) x := by
  constructor
  · intro f hf
    simp only [Prover.forget] at hf
    split at hf
    · cases hf
    · exact hf
  · intro p hp
    simp only [Prover.forget] at hp
    split at hp
    · cases hp
    · exact hp

theorem isIv_iff (h : SameContext P P') (x : String) : P'.IsIv x ↔ P.IsIv x := by
  rw [Prover.IsIv, Prover.IsIv, h.loopVar, h.ivs]

theorem Denotes.congr {f : IndexForm} {v : ℤ} (h : Denotes atom P σ f v) (hctx : SameContext P P')
    (hσ : ∀ x, P.IsIv x → σ' x = σ x) : Denotes atom P' σ' f v := by
  intro ι hι
  refine h ι fun x hx => ?_
  rw [hι x ((isIv_iff hctx x).mpr hx), Store.integers, Store.integers, Store.value, Store.value, hσ x hx]

theorem Values.fewer (h : Values atom fixed P σ) (hctx : SameContext P P') (hfewer : ∀ x, Fewer P P' x) :
    Values atom fixed P' σ where
  names := hctx.isInvariantName.trans h.names
  atoms := h.atoms
  forms x f hf v hv := (h.forms x f ((hfewer x).form f hf) v hv).congr hctx fun _ _ => rfl

/-- Events that touch no variable, after which no more is known of the variables in scope. -/
theorem Tracks.untouched (h : Tracks atom fixed P σ before) (hctx : SameContext P P')
    (hforms : ∀ x, Fewer P P' x ∨ σ x = none ∧ ∃ e ∈ t, e.Records x) (ht : ∀ x, ∀ e ∈ t, ¬ e.Gives x) :
    Tracks atom fixed P' σ (before ++ t) where
  names := hctx.isInvariantName.trans h.names
  atoms := h.atoms
  forms x f hf v hv := by
    rcases hforms x with hfewer | ⟨hnone, _⟩
    · exact (h.forms x f (hfewer.form f hf) v hv).congr hctx fun _ _ => rfl
    · rw [Store.value, hnone] at hv
      cases hv
  frozen x f hf c hc := by
    rcases hforms x with hfewer | ⟨hnone, _⟩
    · exact h.frozen x f (hfewer.form f hf) c hc
    · rw [hnone] at hc
      cases hc
  entered x hx := by
    obtain ⟨counted, hmem⟩ := h.entered x ((isIv_iff hctx x).mp hx)
    exact ⟨counted, List.mem_append_left _ hmem⟩
  recorded x hx := by
    rcases hforms x with hfewer | ⟨_, e, he, hrec⟩
    · obtain ⟨e, he, hrec⟩ := h.recorded x (hx.imp
        (fun hf => by
          obtain ⟨f, hf⟩ := Option.isSome_iff_exists.mp hf
          exact Option.isSome_iff_exists.mpr ⟨f, hfewer.form f hf⟩)
        fun hp => by
          obtain ⟨p, hp⟩ := Option.isSome_iff_exists.mp hp
          exact Option.isSome_iff_exists.mpr ⟨p, hfewer.init p hp⟩)
      exact ⟨e, List.mem_append_left _ he, hrec⟩
    · exact ⟨e, List.mem_append_right _ he, hrec⟩
  lower x p hp hun v hv := by
    rcases hforms x with hfewer | ⟨hnone, _⟩
    · exact h.lower x p (hfewer.init p hp) (hun.left (ht x)) v hv
    · rw [Store.value, hnone] at hv
      cases hv

theorem Tracks.fewer (h : Tracks atom fixed P σ before) (hctx : SameContext P P') (hforms : ∀ x, Fewer P P' x) :
    Tracks atom fixed P' σ before := by
  have h' := h.untouched (t := []) hctx (fun x => .inl (hforms x)) fun _ _ he => absurd he List.not_mem_nil
  rwa [List.append_nil] at h'

/-- An event that sets up or writes variables. -/
theorem Tracks.step (h : Tracks atom fixed P σ before) {e : Event} (hctx : SameContext P P')
    (hiv : ∀ x counted, .entered x counted ∈ before → ¬ e.Touches x) (hfixed : ∀ x, e.Touches x → fixed x = false)
    (hother : ∀ x, ¬ e.Touches x → σ' x = σ x ∧ Fewer P P' x)
    (htouched : ∀ x, e.Touches x → Renewed atom P P' σ σ' (before ++ [e]) x) :
    Tracks atom fixed P' σ' (before ++ [e]) := by
  have hvalue : ∀ x, ¬ e.Touches x → σ'.value x = σ.value x := by
    intro x hx
    rw [Store.value, Store.value, (hother x hx).1]
  have hsame : ∀ x, P.IsIv x → σ' x = σ x := by
    intro x hx
    obtain ⟨counted, hmem⟩ := h.entered x hx
    exact (hother x (hiv x counted hmem)).1
  have hkept : ∀ x, ¬ e.Touches x → (P'.localForms x).isSome ∨ (P'.mutInits x).isSome →
      ∃ e' ∈ before ++ [e], e'.Records x := by
    intro x hx hsome
    obtain ⟨e', hmem, hrec⟩ := h.recorded x (hsome.imp
      (fun hf => by
        obtain ⟨f, hf⟩ := Option.isSome_iff_exists.mp hf
        exact Option.isSome_iff_exists.mpr ⟨f, (hother x hx).2.form f hf⟩)
      fun hp => by
        obtain ⟨p, hp⟩ := Option.isSome_iff_exists.mp hp
        exact Option.isSome_iff_exists.mpr ⟨p, (hother x hx).2.init p hp⟩)
    exact ⟨e', List.mem_append_left _ hmem, hrec⟩
  exact {
    names := hctx.isInvariantName.trans h.names
    atoms := fun x hx => by
      rw [hvalue x fun ht => by simp [hfixed x ht] at hx]
      exact h.atoms x hx
    forms := fun x f hf v hv => by
      by_cases hx : e.Touches x
      · exact (((htouched x hx).form f hf).2.2 v hv).congr hctx hsame
      · rw [hvalue x hx] at hv
        exact (h.forms x f ((hother x hx).2.form f hf) v hv).congr hctx hsame
    frozen := fun x f hf c hc => by
      by_cases hx : e.Touches x
      · exact ((htouched x hx).form f hf).2.1 c hc
      · rw [(hother x hx).1] at hc
        exact h.frozen x f ((hother x hx).2.form f hf) c hc
    entered := fun x hx => by
      obtain ⟨counted, hmem⟩ := h.entered x ((isIv_iff hctx x).mp hx)
      exact ⟨counted, List.mem_append_left _ hmem⟩
    recorded := fun x hsome => by
      by_cases hx : e.Touches x
      · rcases hsome with hf | hp
        · obtain ⟨f, hf⟩ := Option.isSome_iff_exists.mp hf
          exact ((htouched x hx).form f hf).1
        · obtain ⟨p, hp⟩ := Option.isSome_iff_exists.mp hp
          exact ((htouched x hx).init p hp).1
      · exact hkept x hx hsome
    lower := fun x p hp hun v hv => by
      by_cases hx : e.Touches x
      · exact ((htouched x hx).init p hp).2 hun v hv
      · rw [hvalue x hx] at hv
        refine h.lower x p ((hother x hx).2.init p hp) (hun.left fun e' he' hgives => ?_) v hv
        rw [List.mem_singleton.mp he'] at hgives
        exact hx (Event.touches_of_gives hgives) }

theorem value_declare (σ : Store) (x : String) (c : Cell) : (σ.declare x c).value x = c.value := by
  rw [Store.value, Store.declare, Function.update_self]
  rfl

theorem declare_of_ne (σ : Store) {x y : String} (c : Cell) (h : ¬ y = x) : (σ.declare x c) y = σ y :=
  Function.update_of_ne h _ _

/-- An assignment elsewhere, or a write through a reference. -/
theorem tracks_changed (h : Tracks atom fixed P σ before) {x : String} {c : Cell} {new : Option ℤ} {own : Bool}
    (hx : fixed x = false) (hc : σ x = some c) (hw : c.Writable)
    (hiv : ∀ y counted, .entered y counted ∈ before → ¬ y = x) :
    Tracks atom fixed P (σ.write x c new) (before ++ [.changed x c.value new own]) := by
  refine h.step (.refl P) hiv (fun y hy => ?_) (fun y hy => ⟨declare_of_ne σ _ hy, .refl P y⟩) fun y hy => ?_
  · obtain rfl : y = x := hy
    exact hx
  · obtain rfl : y = x := hy
    constructor
    · intro f hf
      exact absurd hw (h.frozen y f hf c hc)
    · intro p hp
      obtain ⟨e, he, hrec⟩ := h.recorded y (.inr (Option.isSome_iff_exists.mpr ⟨p, hp⟩))
      refine ⟨⟨e, List.mem_append_left _ he, hrec⟩, fun hun v hv => ?_⟩
      rw [Store.write, value_declare] at hv
      obtain ⟨u, hu, huv⟩ := hun before c.value new own [] rfl (fun _ he => absurd he List.not_mem_nil) v hv
      have hbefore : Unlowered y before := hun.left fun e he hgives => by
        rw [List.mem_singleton.mp he] at hgives
        exact hgives
      have hvalue : σ.value y = some u := by
        rw [Store.value, hc]
        exact hu
      exact (h.lower y p hp hbefore u hvalue).trans huv

/-- The walk has seen the names that the part declares or assigns. -/
structure Covers (P : Prover) (n : Node) : Prop where
  declared : ∀ m, Node.Within m n → ∀ x ∈ declaredName m, x ∈ P.declared
  assigned : ∀ m, Node.Within m n → ∀ x ∈ assignedRoot m, x ∈ P.mutated

theorem Covers.child {n c : Node} (h : Covers P n) (hc : c ∈ n.children) : Covers P c :=
  ⟨fun m hm => h.declared m (.child hc hm), fun m hm => h.assigned m (.child hc hm)⟩

theorem Covers.congr {n : Node} (h : Covers P n) (hnames : SameNames P P') : Covers P' n :=
  ⟨fun m hm x hx => hnames.declared ▸ h.declared m hm x hx, fun m hm x hx => hnames.mutated ▸ h.assigned m hm x hx⟩

theorem not_fixed_of_declared (h : Values atom fixed P σ) {x : String} (hx : x ∈ P.declared) : fixed x = false := by
  rw [← h.names, Prover.isInvariantName, decide_eq_false (not_not.mpr hx), Bool.false_and]

theorem not_fixed_of_mutated (h : Values atom fixed P σ) {x : String} (hx : x ∈ P.mutated) : fixed x = false := by
  rw [← h.names, Prover.isInvariantName, decide_eq_false (not_not.mpr hx), Bool.and_false]

theorem tracks_of_effects {n : Node} (he : Effects fixed n σ t σ') (h : Tracks atom fixed P σ before)
    (hcovers : Covers P n) (hsteady : Steady (before ++ t)) (hcalm : Calm (before ++ t)) :
    Tracks atom fixed P σ' (before ++ t) := by
  induction he generalizing before with
  | nil =>
    rw [List.append_nil]
    exact h
  | @cons σ₁ σ₂ σ₃ e t heffect _ ih =>
    have hiv : ∀ x counted, .entered x counted ∈ before → ¬ e.Touches x :=
      fun x counted hx => not_touches_of_steady hsteady hcalm hx
    rw [List.append_cons] at hsteady hcalm ⊢
    refine ih ?_ hsteady hcalm
    cases heffect with
    | own hs hc hw ha =>
      exact tracks_changed h (not_fixed_of_mutated h.toValues (hcovers.assigned _ hs _ (mem_assignedRoot ha))) hc hw hiv
    | foreign hx hc hw => exact tracks_changed h hx hc hw hiv

theorem binds_of_notMem {names : List String} (h : Binds names σ σ') {x : String} (hx : x ∉ names) : σ' x = σ x := by
  induction h with
  | nil => rfl
  | cons c _ ih =>
    obtain ⟨hne, hrest⟩ := not_or.mp (List.mem_cons.not.mp hx)
    rw [ih hrest, declare_of_ne _ c hne]

theorem tracks_bound (h : Tracks atom fixed P σ before) {names : List String} (hb : Binds names σ σ')
    (hdeclared : ∀ x ∈ names, x ∈ P.declared) (hiv : ∀ x counted, .entered x counted ∈ before → x ∉ names) :
    Tracks atom fixed (P.forget names) σ' (before ++ [.bound names]) := by
  refine h.step (sameContext_forget P names) hiv (fun x hx => not_fixed_of_declared h.toValues (hdeclared x hx))
    (fun x hx => ⟨binds_of_notMem hb hx, fewer_forget P names x⟩) fun x hx => ?_
  constructor
  · intro f hf
    simp only [Prover.forget, if_pos (show x ∈ names from hx)] at hf
    cases hf
  · intro p hp
    simp only [Prover.forget, if_pos (show x ∈ names from hx)] at hp
    cases hp

theorem tracks_rebound (h : Tracks atom fixed P σ before) {names : List String} (hb : Binds names σ σ')
    (hdeclared : ∀ x ∈ names, x ∈ P.declared) (hiv : ∀ x counted, .entered x counted ∈ before → x ∉ names)
    (hunseen : ∀ x ∈ names, ∀ e ∈ before, ¬ e.Records x) : Tracks atom fixed P σ' (before ++ [.rebound names]) := by
  refine h.step (.refl P) hiv (fun x hx => not_fixed_of_declared h.toValues (hdeclared x hx))
    (fun x hx => ⟨binds_of_notMem hb hx, .refl P x⟩) fun x hx => ?_
  have hnone : ¬ ((P.localForms x).isSome ∨ (P.mutInits x).isSome) := by
    intro hsome
    obtain ⟨e, he, hrec⟩ := h.recorded x hsome
    exact hunseen x hx e he hrec
  constructor
  · intro f hf
    exact absurd (.inl (Option.isSome_iff_exists.mpr ⟨f, hf⟩)) hnone
  · intro p hp
    exact absurd (.inr (Option.isSome_iff_exists.mpr ⟨p, hp⟩)) hnone

end

end Karac.Disjoint
