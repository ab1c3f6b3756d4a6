import Karac.Disjoint.Tracked

/-! The walk follows an execution: what it knows is right from statement to statement, and on the way into a part. -/

namespace Karac.Disjoint

open Ast Karac.Lib

section

variable {P Q : Prover}

theorem SameLocals.fewer (h : SameLocals P Q) (x : String) : Fewer P Q x := by
  constructor
  · intro f hf
    rwa [h.localForms] at hf
  · intro p hp
    rwa [h.mutInits] at hp

theorem fewer_bindLet (P : Prover) (isMut : Bool) {x name : String} (value : Expr) (hx : x ≠ name) :
    Fewer P (P.bindLet isMut name value) x := by
  refine (fewer_forget P [name] x).trans ?_
  cases isMut with
  | false =>
    refine ⟨fun f hf => ?_, fun _ hp => hp⟩
    simpa only [Prover.bindLet, Bool.false_eq_true, if_false, Function.update_of_ne hx] using hf
  | true =>
    refine ⟨fun _ hf => hf, fun p hp => ?_⟩
    simpa only [Prover.bindLet, if_true, Function.update_of_ne hx] using hp

theorem fewer_of_assignLocal (P : Prover) (name : String) (value : Expr) (compound : Bool) :
    Ends (fun R => ∀ x, x ≠ name ∨ compound = true → Fewer P R x) (P.assignLocal name value compound) := by
  unfold Prover.assignLocal
  split
  · trivial
  · intro x hx
    constructor
    · intro f hf
      by_cases he : x = name
      · subst he
        simp only [Function.update_self] at hf
        cases hf
      · simpa only [Function.update_of_ne he] using hf
    · intro p hp
      by_cases he : x = name
      · subst he
        simp only [Function.update_self, hx.resolve_left (not_not.mpr rfl), if_true] at hp
        cases hp
      · simpa only [Function.update_of_ne he] using hp

end

/-! The records that a block leaves behind. -/

mutual

theorem fewer_of_walkBlock : (b : Block) → ∀ P, Ends (fun R => ∀ x ∉ recordedNames b, Fewer P R x) (walkBlock P b)
  | .mk stmts finalExpr => fun P => by
    rw [walkBlock_eq]
    refine (fewer_of_walkStmts stmts P).bind fun Q hQ => ?_
    rw [← walkOption_eq]
    refine (ends_option (fun n _ => frames n) Q).mono fun R hR x hx => (hQ x ?_).trans (hR.fewer x)
    rwa [recordedNames] at hx

theorem fewer_of_walkStmts : (l : List Stmt) → ∀ P, Ends (fun R => ∀ x ∉ recordedIn l, Fewer P R x) (walkStmts P l)
  | [] => fun P x _ => .refl P x
  | s :: rest => fun P => by
    simp only [walkStmts]
    refine (fewer_of_walkStmt s P).bind fun Q hQ => ?_
    refine (fewer_of_walkStmts rest Q).mono fun R hR x hx => ?_
    rw [recordedIn, List.mem_append, not_or] at hx
    exact (hQ x hx.1).trans (hR x hx.2)

theorem fewer_of_walkStmt : (s : Stmt) → ∀ P, Ends (fun R => ∀ x ∉ recordedBy s, Fewer P R x) (walkStmt P s)
  | .letStmt isMut pattern value => fun P => by
    simp only [walkStmt]
    refine (frames (.expr value) P).bind fun Q hQ x hx => (hQ.fewer x).trans ?_
    cases pattern with
    | binding name => exact fewer_bindLet Q isMut value (List.mem_singleton.not.mp hx)
    | _ => exact .refl Q x
  | .letUninit _ name => fun P x _ => fewer_forget P [name] x
  | .letElse pattern value elseBlock => fun P => by
    simp only [walkStmt]
    refine (frames (.expr value) P).bind fun Q hQ => ?_
    refine (fewer_of_walkBlock elseBlock Q).bind fun R hR x hx => ?_
    exact ((hQ.fewer x).trans (hR x hx)).trans (fewer_forget R _ x)
  | .defer _ => fun _ => trivial
  | .errDefer _ _ => fun _ => trivial
  | .assign target value => fun P => by
    simp only [walkStmt]
    refine (frames (.expr value) P).bind fun Q hQ => ?_
    by_cases hname : ∃ name, target = .identifier name
    · obtain ⟨name, rfl⟩ := hname
      refine (fewer_of_assignLocal Q name value false).mono fun R hR x hx => (hQ.fewer x).trans (hR x (.inl ?_))
      exact List.mem_singleton.not.mp hx
    · have hassign := ends_walkAssign (fun m _ => frames m) (fun name he => hname ⟨name, he⟩) Q value false
      refine hassign.mono fun R hR x _ => ?_
      exact (hQ.fewer x).trans (hR.fewer x)
  | .compoundAssign target _ value => fun P => by
    simp only [walkStmt]
    refine (frames (.expr value) P).bind fun Q hQ => ?_
    by_cases hname : ∃ name, target = .identifier name
    · obtain ⟨name, rfl⟩ := hname
      exact (fewer_of_assignLocal Q name value true).mono fun R hR x _ => (hQ.fewer x).trans (hR x (.inr rfl))
    · have hassign := ends_walkAssign (fun m _ => frames m) (fun name he => hname ⟨name, he⟩) Q value true
      refine hassign.mono fun R hR x _ => ?_
      exact (hQ.fewer x).trans (hR.fewer x)
  | .expr e => fun P => (frames (.expr e) P).mono fun _ hR x _ => hR.fewer x

end

/-! Statement by statement. -/

section

variable {atom : String → Option ℤ} {fixed : String → Bool} {P : Prover} {σ σ' : Store} {before t : List Event}

theorem tracks_bindLet (h : Tracks atom fixed P σ before) {isMut : Bool} {x : String} {e : Expr} {v : Option ℤ}
    (hx : x ∈ P.declared) (hv : Evaluates atom fixed σ e v) (hiv : ∀ y counted, .entered y counted ∈ before → ¬ y = x) :
    Tracks atom fixed (P.bindLet isMut x e) (σ.declare x ⟨isMut, true, v⟩) (before ++ [.declared x]) := by
  have hvalues : Values atom fixed (P.forget [x]) σ := h.toValues.fewer (sameContext_forget P [x]) (fewer_forget P [x])
  refine h.step (sameContext_bindLet P isMut x e) hiv (fun y hy => ?_)
    (fun y hy => ⟨declare_of_ne σ _ hy, fewer_bindLet P isMut e hy⟩) fun y hy => ?_
  · obtain rfl : y = x := hy
    exact not_fixed_of_declared h.toValues hx
  · obtain rfl : y = x := hy
    have hrecords : ∃ e ∈ before ++ [.declared y], Event.Records y e :=
      ⟨_, List.mem_append_right _ List.mem_cons_self, rfl⟩
    cases isMut with
    | false =>
      constructor
      · intro f hf
        refine ⟨hrecords, fun c hc => ?_, fun u hu => ?_⟩
        · rw [Store.declare, Function.update_self] at hc
          cases hc
          exact fun hw => hw.elim Bool.noConfusion Bool.noConfusion
        · rw [value_declare] at hu
          obtain rfl : v = some u := hu
          have hform : ((P.forget [y]).buildForm (P.forget [y]).nonneg e).2.toOption = some f := by
            simpa only [Prover.bindLet, Bool.false_eq_true, if_false, Function.update_self] using hf
          have hdenotes := denotes_of_evaluates hvalues (ok_of_toOption hform) hv
          exact hdenotes.congr (P := P.forget [y]) ⟨⟨rfl, rfl, rfl⟩, rfl⟩ fun _ _ => rfl
      · intro p hp
        simp only [Prover.bindLet, Bool.false_eq_true, if_false, Prover.forget, List.mem_singleton, if_true] at hp
        cases hp
    | true =>
      constructor
      · intro f hf
        simp only [Prover.bindLet, if_true, Prover.forget, List.mem_singleton] at hf
        cases hf
      · intro p hp
        refine ⟨hrecords, fun _ u hu => ?_⟩
        rw [value_declare] at hu
        obtain rfl : v = some u := hu
        have hinit : ((P.forget [y]).buildInvariant (P.forget [y]).nonneg e).2 = some p := by
          simpa only [Prover.bindLet, if_true, Function.update_self] using hp
        exact (eval_of_evaluates hvalues hinit hv).le

theorem tracks_letUninit (h : Tracks atom fixed P σ before) {x : String} {c : Cell} (hx : x ∈ P.declared)
    (hiv : ∀ y counted, .entered y counted ∈ before → ¬ y = x) :
    Tracks atom fixed (P.forget [x]) (σ.declare x c) (before ++ [.declared x]) := by
  refine h.step (sameContext_forget P [x]) hiv (fun y hy => ?_)
    (fun y hy => ⟨declare_of_ne σ _ hy, fewer_forget P [x] y⟩) fun y hy => ?_
  · obtain rfl : y = x := hy
    exact not_fixed_of_declared h.toValues hx
  · obtain rfl : y = x := hy
    constructor
    · intro f hf
      simp only [Prover.forget, List.mem_singleton, if_true] at hf
      cases hf
    · intro p hp
      simp only [Prover.forget, List.mem_singleton, if_true] at hp
      cases hp

theorem tracks_assignLocal (h : Tracks atom fixed P σ before) {x : String} {e : Expr} {compound : Bool} {c : Cell}
    {v : Option ℤ} (hv : compound = false → Evaluates atom fixed σ e v)
    (hiv : ∀ y counted, .entered y counted ∈ before → ¬ y = x) :
    Ends (fun P' => Tracks atom fixed P' (σ.write x c v) (before ++ [.assigned x])) (P.assignLocal x e compound) := by
  unfold Prover.assignLocal
  split
  · trivial
  · rename_i hx
    rw [not_not] at hx
    have hvalues : Values atom fixed { P with localForms := Function.update P.localForms x none } σ := by
      refine h.toValues.fewer ⟨⟨rfl, rfl, rfl⟩, rfl⟩ fun y => ⟨fun f hf => ?_, fun _ hp => hp⟩
      by_cases hy : y = x
      · subst hy
        simp only [Function.update_self] at hf
        cases hf
      · simpa only [Function.update_of_ne hy] using hf
    refine h.step ⟨⟨rfl, rfl, rfl⟩, rfl⟩ hiv (fun y hy => ?_) (fun y hy => ⟨declare_of_ne σ _ hy, ?_⟩) fun y hy => ?_
    · obtain rfl : y = x := hy
      exact not_fixed_of_declared h.toValues hx
    · constructor
      · intro f hf
        simpa only [Function.update_of_ne hy] using hf
      · intro p hp
        simpa only [Function.update_of_ne hy] using hp
    · obtain rfl : y = x := hy
      constructor
      · intro f hf
        simp only [Function.update_self] at hf
        cases hf
      · intro p hp
        refine ⟨⟨_, List.mem_append_right _ List.mem_cons_self, rfl⟩, fun _ u hu => ?_⟩
        rw [Store.write, value_declare] at hu
        obtain rfl : v = some u := hu
        simp only [Function.update_self] at hp
        split at hp
        · cases hp
        · rename_i hcompound
          exact (eval_of_evaluates hvalues hp (hv (Bool.eq_false_of_not_eq_true hcompound))).le

/-- The last event. -/
theorem not_touches_of_last {e : Event} (hsteady : Steady (before ++ [e])) (hcalm : Calm (before ++ [e])) :
    ∀ x counted, .entered x counted ∈ before → ¬ e.Touches x :=
  fun _ _ hx => not_touches_of_steady hsteady hcalm hx

theorem ends_tracks_expr {e : Expr} (he : Effects fixed (.expr e) σ t σ') (h : Tracks atom fixed P σ before)
    (hcovers : Covers P (.expr e)) (hsteady : Steady (before ++ t)) (hcalm : Calm (before ++ t)) :
    Ends (fun Q => SameContext P Q ∧ Tracks atom fixed Q σ' (before ++ t)) (walkExpr P e) :=
  (frames (.expr e) P).mono fun _ hQ =>
    ⟨hQ.toSameContext, (tracks_of_effects he h hcovers hsteady hcalm).fewer hQ.toSameContext hQ.fewer⟩

/-- What is left of an `else` block that was passed is about variables that are not in scope. -/
theorem tracks_leaks (h : Tracks atom fixed P σ before) {elseBlock : Block}
    (hsteady : Steady (before ++ leaks σ elseBlock)) :
    Ends (fun Q => SameContext P Q ∧ Tracks atom fixed Q σ (before ++ leaks σ elseBlock)) (walkBlock P elseBlock) := by
  have hboth : Ends (fun Q => SameContext P Q ∧ ∀ x ∉ recordedNames elseBlock, Fewer P Q x) (walkBlock P elseBlock) :=
    Yields.and (frames (.block elseBlock) P) (fewer_of_walkBlock elseBlock P)
  refine hboth.mono fun Q ⟨hctx, hfewer⟩ => ⟨hctx, h.untouched hctx (fun x => ?_) fun x e he hgives => ?_⟩
  · by_cases hx : x ∈ recordedNames elseBlock
    · have hmem : .leaked x (σ x).isSome ∈ leaks σ elseBlock := List.mem_map_of_mem hx
      obtain ⟨l, r, hlr⟩ := List.append_of_mem hmem
      have hallowed := hsteady (before ++ l) (.leaked x (σ x).isSome) r (by rw [hlr, List.append_assoc])
      have hnone := hallowed.outOfScope x _ rfl
      exact .inr ⟨Option.not_isSome_iff_eq_none.mp (Bool.not_eq_true _ ▸ hnone), _, hmem, rfl⟩
    · exact .inl (hfewer x hx)
  · obtain ⟨y, _, rfl⟩ := List.mem_map.mp he
    exact hgives

/-- A statement that declares and assigns no variable is like an expression. -/
theorem ends_other {s : Stmt} (hs : isOther s = true) (P : Prover) : Ends (SameLocals P) (walkStmt P s) := by
  cases s with
  | assign target value =>
    refine ends_of_trans (frames (.expr value) P) fun Q =>
      ends_walkAssign (fun m _ => frames m) (fun name he => ?_) Q _ _
    subst he
    cases hs
  | compoundAssign target op value =>
    refine ends_of_trans (frames (.expr value) P) fun Q =>
      ends_walkAssign (fun m _ => frames m) (fun name he => ?_) Q _ _
    subst he
    cases hs
  | expr e => exact frames (.expr e) P
  | _ => cases hs

theorem tracks_of_passes {s : Stmt} (hp : Passes atom fixed s σ t σ') (h : Tracks atom fixed P σ before)
    (hcovers : Covers P (.stmt s)) (hsteady : Steady (before ++ t)) (hcalm : Calm (before ++ t)) :
    Ends (fun Q => Tracks atom fixed Q σ' (before ++ t)) (walkStmt P s) := by
  cases hp with
  | @letName isMut x e _ _ t v he hv =>
    rw [← List.append_assoc] at hsteady hcalm ⊢
    have hvalue := ends_tracks_expr he h (hcovers.child List.mem_cons_self) hsteady.left hcalm.left
    refine hvalue.bind fun Q ⟨hctx, hQ⟩ => ?_
    have hx : x ∈ Q.declared := by
      rw [hctx.declared]
      exact hcovers.declared _ (.refl _) x (by simp [declaredName, Pattern.bindingNames])
    exact tracks_bindLet hQ hx hv (not_touches_of_last hsteady hcalm)
  | @letPattern isMut pattern e _ σ₁ _ t hname he hb =>
    rw [← List.append_assoc] at hsteady hcalm ⊢
    have hvalue := ends_tracks_expr he h (hcovers.child List.mem_cons_self) hsteady.left hcalm.left
    refine hvalue.bind fun Q ⟨hctx, hQ⟩ => ?_
    rw [hname]
    refine tracks_rebound hQ hb (fun x hx => ?_) (not_touches_of_last hsteady hcalm)
      ((hsteady _ _ [] rfl).unseen _ rfl)
    rw [hctx.declared]
    exact hcovers.declared _ (.refl _) x (by simpa [declaredName] using hx)
  | @letUninit isMut x _ =>
    have hx : x ∈ P.declared := hcovers.declared _ (.refl _) x (by simp [declaredName])
    exact tracks_letUninit h hx (not_touches_of_last hsteady hcalm)
  | @letElse pattern value elseBlock _ σ₁ _ t he hb =>
    rw [← List.append_assoc, ← List.append_assoc] at hsteady hcalm ⊢
    simp only [walkStmt]
    refine (ends_tracks_expr he h (hcovers.child List.mem_cons_self) hsteady.left.left hcalm.left.left).bind
      fun Q ⟨hctx, hQ⟩ => ?_
    refine (tracks_leaks hQ hsteady.left).bind fun R ⟨hctx', hR⟩ => ?_
    refine tracks_bound hR hb (fun x hx => ?_) (not_touches_of_last hsteady hcalm)
    rw [hctx'.declared, hctx.declared]
    exact hcovers.declared _ (.refl _) x (by simpa [declaredName] using hx)
  | defer body => trivial
  | errDefer binding body => trivial
  | @assign x e _ σ₁ t c v he hc hw hv =>
    rw [← List.append_assoc] at hsteady hcalm ⊢
    have hvalue := hcovers.child (List.mem_cons_of_mem _ List.mem_cons_self)
    refine (ends_tracks_expr he h hvalue hsteady.left hcalm.left).bind fun Q ⟨_, hQ⟩ => ?_
    exact tracks_assignLocal hQ (fun _ => hv) (not_touches_of_last hsteady hcalm)
  | @compound x op e _ σ₁ t c v he hc hw =>
    rw [← List.append_assoc] at hsteady hcalm ⊢
    have hvalue := hcovers.child (List.mem_cons_of_mem _ List.mem_cons_self)
    refine (ends_tracks_expr he h hvalue hsteady.left hcalm.left).bind fun Q ⟨_, hQ⟩ => ?_
    exact tracks_assignLocal hQ Bool.noConfusion (not_touches_of_last hsteady hcalm)
  | other hs he =>
    have hend := tracks_of_effects he h hcovers hsteady hcalm
    exact (ends_other hs P).mono fun Q hQ => hend.fewer hQ.toSameContext hQ.fewer

theorem tracks_of_passesAll {stmts : List Stmt} (hp : PassesAll atom fixed stmts σ t σ')
    (h : Tracks atom fixed P σ before) (hcovers : ∀ s ∈ stmts, Covers P (.stmt s)) (hsteady : Steady (before ++ t))
    (hcalm : Calm (before ++ t)) : Ends (fun Q => Tracks atom fixed Q σ' (before ++ t)) (walkStmts P stmts) := by
  induction hp generalizing P before with
  | nil =>
    rw [List.append_nil]
    exact h
  | @cons s rest _ _ _ t t' hs _ ih =>
    rw [← List.append_assoc] at hsteady hcalm ⊢
    have hstep := tracks_of_passes hs h (hcovers s List.mem_cons_self) hsteady.left hcalm.left
    simp only [walkStmts]
    refine (hstep.and (frames (.stmt s) P)).bind fun Q ⟨hQ, hctx⟩ => ?_
    exact ih hQ (fun r hr => (hcovers r (List.mem_cons_of_mem s hr)).congr hctx.toSameNames) hsteady hcalm

end

/-! The way into a part, and down to a part at a list of positions. -/

/-- What the walk knows when it comes to a child. -/
structure Enters (P Q : Prover) (n : Node) (i : ℕ) : Prop where
  names : SameNames P Q
  ivs : ∀ x, (Q.ivs x).isSome → (P.ivs x).isSome ∨ ∃ counted, .entered x counted ∈ entries n i
  kept : ∀ x, (P.ivs x).isSome → (Q.ivs x).isSome
  fewer : ∀ x, Fewer (P.forget (boundNames n i)) Q x
  declared : ∀ x ∈ boundNames n i, x ∈ declaredName n

section

variable {P Q : Prover} {n : Node} {i : ℕ}

theorem enters_of_sameLocals (h : SameLocals (P.forget (boundNames n i)) Q)
    (hdeclared : ∀ x ∈ boundNames n i, x ∈ declaredName n) : Enters P Q n i where
  names := (sameContext_forget P _).toSameNames.trans h.toSameNames
  ivs x hx := .inl (by rwa [h.ivs] at hx)
  kept x hx := by rwa [h.ivs]
  fewer := h.fewer
  declared := hdeclared

theorem forget_nil (P : Prover) : P.forget [] = P := by
  simp [Prover.forget]

theorem enters_of_unbound (hnames : boundNames n i = []) (h : SameLocals P Q) : Enters P Q n i := by
  refine enters_of_sameLocals ?_ fun x hx => ?_
  · rwa [hnames, forget_nil]
  · rw [hnames] at hx
    exact absurd hx List.not_mem_nil

theorem Enters.after {R : Prover} (h : SameLocals P R) (h' : Enters R Q n i) : Enters P Q n i where
  names := h.toSameNames.trans h'.names
  ivs x hx := by
    rw [← h.ivs]
    exact h'.ivs x hx
  kept x hx := h'.kept x (by rwa [h.ivs])
  fewer x := by
    refine Fewer.trans ⟨fun f hf => ?_, fun p hp => ?_⟩ (h'.fewer x)
    · rwa [Prover.forget, h.localForms] at hf
    · rwa [Prover.forget, h.mutInits] at hp
  declared := h'.declared

theorem boundNames_of_plain {e : Expr} (h : isPlain e = true) (i : ℕ) : boundNames (.expr e) i = [] := by
  cases e <;> first
    | exact (Bool.false_ne_true h).elim
    | rfl

theorem enterLoop_ivs (P : Prover) (name : Option String) (bound : Option IvBound) (shadowed : List String) :
    (P.enterLoop name bound shadowed).ivs = name.elim P.ivs fun x => Function.update P.ivs x (some bound) := by
  have hpromote : (bound.elim (P.forget shadowed) (P.forget shadowed).promote).ivs = P.ivs := by
    cases bound with
    | none => rfl
    | some b => exact (sameLocals_promote (P.forget shadowed) b).ivs
  cases name with
  | none => exact hpromote
  | some x => exact congrArg (fun ivs => Function.update ivs x (some bound)) hpromote

theorem isSome_of_enterLoop {P : Prover} {name : Option String} {bound : Option IvBound} {shadowed : List String}
    {x : String} (hx : ((P.enterLoop name bound shadowed).ivs x).isSome) : (P.ivs x).isSome ∨ name = some x := by
  rw [enterLoop_ivs] at hx
  cases name with
  | none => exact .inl hx
  | some y =>
    by_cases he : x = y
    · exact .inr (congrArg some he.symm)
    · exact .inl (by simpa only [Option.elim_some, Function.update_of_ne he] using hx)

theorem enterLoop_kept (P : Prover) (name : Option String) (bound : Option IvBound) (shadowed : List String)
    {x : String} (hx : (P.ivs x).isSome) : ((P.enterLoop name bound shadowed).ivs x).isSome := by
  rw [enterLoop_ivs]
  cases name with
  | none => exact hx
  | some y =>
    by_cases he : x = y
    · subst he
      simp only [Option.elim_some, Function.update_self, Option.isSome_some]
    · simpa only [Option.elim_some, Function.update_of_ne he] using hx

theorem enterLoop_locals (P : Prover) (name : Option String) (bound : Option IvBound) (shadowed : List String) :
    (P.enterLoop name bound shadowed).localForms = (P.forget shadowed).localForms ∧
      (P.enterLoop name bound shadowed).mutInits = (P.forget shadowed).mutInits := by
  have hpromote : SameLocals (P.forget shadowed) (bound.elim (P.forget shadowed) (P.forget shadowed).promote) := by
    cases bound with
    | none => exact .refl _
    | some b => exact sameLocals_promote _ b
  cases name <;> exact ⟨hpromote.localForms, hpromote.mutInits⟩

/-- The loops that are accepted. -/
theorem accepted_of_counted {condition : Expr} {body : Block} {c : String} {bound : IvBound}
    (h : (P.countedWhileBound condition body).2 = some (c, bound)) :
    ∃ op right hi, asIntegerBinop condition = some (op, .identifier c, right) ∧
      (P.buildInvariant P.nonneg right).2 = some hi ∧
      Prover.exclusiveEnd op hi = some bound.hiExclusive ∧
      P.mutInits c = some bound.lo ∧ singleTrailingPositiveStep body c = true := by
  unfold Prover.countedWhileBound at h
  split at h
  · rename_i op counter right hcondition
    obtain ⟨hi, hhi, h⟩ := Option.bind_eq_some_iff.mp h
    obtain ⟨hiExclusive, hexclusive, h⟩ := Option.bind_eq_some_iff.mp h
    obtain ⟨lo, hlo, h⟩ := Option.bind_eq_some_iff.mp h
    split at h
    · rename_i htrailing
      cases h
      exact ⟨op, right, hi, hcondition, hhi, hexclusive, hlo, htrailing⟩
    · cases h
  · cases h

theorem entries_of_counted (label : Option String) {condition : Expr} {body : Block} {c : String} {bound : IvBound}
    (h : (P.countedWhileBound condition body).2 = some (c, bound)) :
    entries (.expr (.whileLoop label condition body)) 1 = [.entered c true] := by
  obtain ⟨op, right, hi, hcondition, -, -, -, htrailing⟩ := accepted_of_counted h
  simp only [entries, hcondition, htrailing, if_true]

theorem enters_body_of_for (P : Prover) (label : Option String) (pattern : Pattern) (iterable : Expr) (body : Block)
    (bound : Option IvBound) :
    Enters P (P.enterFor pattern body bound) (.expr (.forLoop label pattern iterable body)) 1 where
  names := sameNames_enterLoop P _ _ _
  ivs x hx := by
    refine (isSome_of_enterLoop hx).imp_right fun hname => ?_
    unfold Prover.loopName at hname
    split at hname
    · cases hname
      exact ⟨false, List.mem_cons_self⟩
    · cases hname
  kept x hx := enterLoop_kept P _ _ _ hx
  fewer x := by
    obtain ⟨hforms, hinits⟩ := enterLoop_locals P (Prover.loopName pattern) (Prover.usableBound pattern body bound)
      pattern.bindingNames
    constructor
    · intro f hf
      rwa [Prover.enterFor, hforms] at hf
    · intro p hp
      rwa [Prover.enterFor, hinits] at hp
  declared x hx := by simpa [declaredName, boundNames] using hx

theorem enters_body_of_while (P : Prover) (label : Option String) (condition : Expr) (body : Block) :
    Enters P (P.enterWhile condition body) (.expr (.whileLoop label condition body)) 1 where
  names := sameNames_enterWhile P condition body
  ivs x hx := by
    refine (isSome_of_enterLoop hx).imp_right fun hname => ?_
    obtain ⟨⟨c, bound⟩, hcounted, rfl⟩ := Option.map_eq_some_iff.mp hname
    exact ⟨true, by rw [entries_of_counted label hcounted]; exact List.mem_cons_self⟩
  kept x hx := enterLoop_kept _ _ _ _ hx
  fewer x := by
    have hlocals := enterLoop_locals { P with nonneg := (P.countedWhileBound condition body).1 }
      ((P.countedWhileBound condition body).2.map Prod.fst) ((P.countedWhileBound condition body).2.map Prod.snd) []
    constructor
    · intro f hf
      rwa [Prover.enterWhile, hlocals.1] at hf
    · intro p hp
      rwa [Prover.enterWhile, hlocals.2] at hp
  declared x hx := absurd hx List.not_mem_nil

theorem enters_of_exprChild {e : Expr} {c : Node} (hc : (exprChildren e)[i]? = some c) (P : Prover) :
    Ends (fun Q => Enters P Q (.expr e) i) (P.atExprChild i e) := by
  by_cases hplain : isPlain e = true
  · have hwalk : P.atExprChild i e = walkNodes P ((exprChildren e).take i) := by
      cases e <;> first
        | exact (Bool.false_ne_true hplain).elim
        | rfl
    rw [hwalk]
    refine Yields.mono (ends_of_frames (fun n _ => frames n) (fun n hn => ?_) P) fun Q hQ =>
      enters_of_unbound (boundNames_of_plain hplain i) hQ
    exact exprChildren_of_plain hplain (List.mem_of_mem_take hn)
  · cases e with
    | identifier name => cases hc
    | path segments => cases hc
    | block b => exact enters_of_unbound rfl (.refl P)
    | labeledBlock label b => exact enters_of_unbound rfl (.refl P)
    | ifThen condition thenBlock elseBranch =>
      match i with
      | 0 => exact enters_of_unbound rfl (.refl P)
      | 1 => exact (frames (.expr condition) P).mono fun Q hQ => enters_of_unbound rfl hQ
      | i + 2 =>
        refine (frames (.expr condition) P).bind fun Q hQ => ?_
        refine (frames (.block thenBlock) Q).bind fun R hR => ?_
        exact enters_of_unbound rfl (hQ.trans hR.leave)
    | ifLet pattern value thenBlock elseBranch =>
      match i with
      | 0 => exact enters_of_unbound rfl (.refl P)
      | 1 =>
        refine (frames (.expr value) P).bind fun Q hQ => Enters.after hQ ?_
        exact enters_of_sameLocals (.refl _) fun x hx => by simpa [declaredName, boundNames] using hx
      | i + 2 =>
        refine (frames (.expr value) P).bind fun Q hQ => ?_
        refine (frames (.block thenBlock) (Q.forget pattern.bindingNames)).bind fun R hR => ?_
        exact enters_of_unbound rfl (hQ.trans ((sameContext_forget Q _).trans hR).leave)
    | matchOn scrutinee arms =>
      match i with
      | 0 => exact enters_of_unbound rfl (.refl P)
      | i + 1 =>
        refine (frames (.expr scrutinee) P).bind fun Q hQ => ?_
        rw [walkArms_eq]
        refine Yields.mono (ends_of_frames (fun n _ => frames n) (fun n hn => ?_) Q) fun R hR =>
          enters_of_unbound rfl (hQ.trans hR)
        obtain ⟨a, _, rfl⟩ := List.mem_map.mp hn
        exact ⟨fun _ => Node.noConfusion, fun _ => Node.noConfusion⟩
    | forLoop label pattern iterable body =>
      match i with
      | 0 => exact enters_of_unbound rfl (.refl P)
      | 1 =>
        refine (frames (.expr iterable) P).bind fun Q hQ => ?_
        refine (yields_forBound Q pattern iterable).bind fun entry hentry => ?_
        exact Enters.after (hQ.trans hentry) (enters_body_of_for entry.1 label pattern iterable body entry.2)
      | i + 2 => cases hc
    | whileLoop label condition body =>
      match i with
      | 0 => exact enters_of_unbound rfl (.refl P)
      | 1 =>
        refine (frames (.expr condition) P).bind fun Q hQ => ?_
        exact Enters.after hQ (enters_body_of_while Q label condition body)
      | i + 2 => cases hc
    | whileLet label pattern value body =>
      match i with
      | 0 => exact enters_of_unbound rfl (.refl P)
      | 1 =>
        refine (frames (.expr value) P).bind fun Q hQ => Enters.after hQ ?_
        exact enters_of_sameLocals (sameLocals_deeper _) fun x hx => by simpa [declaredName, boundNames] using hx
      | i + 2 => cases hc
    | loop label body => exact enters_of_unbound rfl (sameLocals_deeper P)
    | breakExpr label value =>
      simp only [Prover.atExprChild]
      split
      · trivial
      · exact enters_of_unbound rfl (.refl P)
    | returnExpr value => trivial
    | question inner => trivial
    | closure params isMove body => trivial
    | unsafeBlock b => trivial
    | tryBlock b => trivial
    | seq b => trivial
    | par b => trivial
    | lock mutex innerName body => trivial
    | providers bound body => trivial
    | comptime b => trivial
    | _ => exact absurd rfl hplain

theorem enters_of_stmtChild {s : Stmt} {c : Node} (hc : (stmtChildren s)[i]? = some c) (P : Prover) :
    Ends (fun Q => Enters P Q (.stmt s) i) (P.atStmtChild i s) := by
  have htarget : ∀ target value, boundNames (.stmt s) i = [] →
      Ends (fun Q => Enters P Q (.stmt s) i) (P.atTarget target value i) := by
    intro target value hnames
    unfold Prover.atTarget
    split
    · exact enters_of_unbound hnames (.refl P)
    · split
      · refine (frames (.expr value) P).bind fun Q hQ => ?_
        split
        · exact enters_of_unbound hnames hQ
        · trivial
      · trivial
  cases s with
  | letStmt isMut pattern value => exact enters_of_unbound rfl (.refl P)
  | letUninit isMut name => cases hc
  | letElse pattern value elseBlock =>
    simp only [Prover.atStmtChild]
    split
    · exact enters_of_unbound rfl (.refl P)
    · exact (frames (.expr value) P).mono fun Q hQ => enters_of_unbound rfl hQ
  | defer body => trivial
  | errDefer binding body => trivial
  | assign target value => exact htarget target value rfl
  | compoundAssign target op value => exact htarget target value rfl
  | expr e => exact enters_of_unbound rfl (.refl P)

theorem enters_of_atChild {c : Node} (hn : ∀ b, n ≠ .block b) (hc : n.children[i]? = some c) (P : Prover) :
    Ends (fun Q => Enters P Q n i) (P.atChild i n) := by
  cases n with
  | expr e => exact enters_of_exprChild hc P
  | stmt s => exact enters_of_stmtChild hc P
  | block b => exact absurd rfl (hn b)
  | arg a => exact enters_of_unbound rfl (.refl P)
  | arm a =>
    simp only [Prover.atChild]
    have hdeclared : ∀ x ∈ boundNames (.arm a) i, x ∈ declaredName (.arm a) := by
      intro x hx
      simpa [declaredName, boundNames] using hx
    split
    · exact enters_of_sameLocals (.refl _) hdeclared
    · exact (ends_option (fun n _ => frames n) _).mono fun Q hQ => enters_of_sameLocals hQ hdeclared

end

/-! Down to a part. -/

section

variable {atom : String → Option ℤ} {fixed : String → Bool} {P Q : Prover} {σ σ' : Store} {before t : List Event}

theorem mem_entries {n : Node} {i : ℕ} {e : Event} (he : e ∈ entries n i) : ∃ x counted, e = .entered x counted := by
  unfold entries at he
  split at he
  · exact ⟨_, _, List.mem_singleton.mp he⟩
  · split at he
    · split at he
      · exact ⟨_, _, List.mem_singleton.mp he⟩
      · exact absurd he List.not_mem_nil
    · exact absurd he List.not_mem_nil
  · exact absurd he List.not_mem_nil

theorem Tracks.enter (h : Tracks atom fixed P σ before) {n : Node} {i : ℕ} (hnames : SameNames P Q)
    (hivs : ∀ x, (Q.ivs x).isSome → (P.ivs x).isSome ∨ ∃ counted, .entered x counted ∈ entries n i)
    (hkept : ∀ x, (P.ivs x).isSome → (Q.ivs x).isSome) (hfewer : ∀ x, Fewer P Q x) :
    Tracks atom fixed Q σ (before ++ entries n i) where
  names := hnames.isInvariantName.trans h.names
  atoms := h.atoms
  forms x f hf v hv ι hι := by
    refine h.forms x f ((hfewer x).form f hf) v hv ι fun y hy => hι y ?_
    rw [Prover.IsIv, hnames.loopVar]
    exact hy.imp_right (hkept y)
  frozen x f hf c hc := h.frozen x f ((hfewer x).form f hf) c hc
  entered x hx := by
    have hold : P.IsIv x → ∃ counted, .entered x counted ∈ before ++ entries n i := by
      intro hx
      obtain ⟨counted, hmem⟩ := h.entered x hx
      exact ⟨counted, List.mem_append_left _ hmem⟩
    rcases hx with hx | hx
    · exact hold (.inl (hx.trans hnames.loopVar))
    · rcases hivs x hx with hx | ⟨counted, hmem⟩
      · exact hold (.inr hx)
      · exact ⟨counted, List.mem_append_right _ hmem⟩
  recorded x hx := by
    obtain ⟨e, he, hrec⟩ := h.recorded x (hx.imp
      (fun hf => by
        obtain ⟨f, hf⟩ := Option.isSome_iff_exists.mp hf
        exact Option.isSome_iff_exists.mpr ⟨f, (hfewer x).form f hf⟩)
      fun hp => by
        obtain ⟨p, hp⟩ := Option.isSome_iff_exists.mp hp
        exact Option.isSome_iff_exists.mpr ⟨p, (hfewer x).init p hp⟩)
    exact ⟨e, List.mem_append_left _ he, hrec⟩
  lower x p hp hun v hv := by
    refine h.lower x p ((hfewer x).init p hp) (hun.left fun e he hgives => ?_) v hv
    obtain ⟨y, counted, rfl⟩ := mem_entries he
    exact hgives

theorem tracks_of_enters (h : Tracks atom fixed P σ before) {n : Node} {i : ℕ} (hb : Binds (boundNames n i) σ σ')
    (hQ : Enters P Q n i) (hcovers : Covers P n) (hsteady : Steady (before ++ .bound (boundNames n i) :: entries n i))
    (hcalm : Calm (before ++ .bound (boundNames n i) :: entries n i)) :
    Tracks atom fixed Q σ' (before ++ .bound (boundNames n i) :: entries n i) := by
  have hbound : Tracks atom fixed (P.forget (boundNames n i)) σ' (before ++ [.bound (boundNames n i)]) :=
    tracks_bound h hb (fun x hx => hcovers.declared n (.refl n) x (hQ.declared x hx))
      fun x counted hx => not_touches_of_steady hsteady hcalm hx
  rw [List.append_cons]
  exact hbound.enter ⟨hQ.names.loopVar, hQ.names.declared, hQ.names.mutated⟩ hQ.ivs hQ.kept hQ.fewer

theorem some_of_atPart {n m : Node} {i : ℕ} {rest : List ℕ} (h : P.atPart n (i :: rest) = some (m, Q)) :
    ∃ c R, n.children[i]? = some c ∧ P.atChild i n = .ok R ∧ R.atPart c rest = some (m, Q) := by
  obtain ⟨c, hc, h⟩ := Option.bind_eq_some_iff.mp h
  obtain ⟨R, hR, h⟩ := Option.bind_eq_some_iff.mp h
  exact ⟨c, R, hc, ok_of_toOption hR, h⟩

theorem children_of_stmt {b : Block} {i : ℕ} {s : Stmt} (h : b.stmts[i]? = some s) :
    (Node.block b).children[i]? = some (.stmt s) := by
  have hi : i < b.stmts.length := (List.getElem?_eq_some_iff.mp h).1
  rw [Node.children, List.getElem?_append_left (by rwa [List.length_map]), List.getElem?_map, h]
  rfl

theorem children_of_final {b : Block} {e : Expr} (h : b.finalExpr = some e) :
    (Node.block b).children[b.stmts.length]? = some (.expr e) := by
  rw [Node.children, List.getElem?_append_right (by rw [List.length_map]), List.length_map, Nat.sub_self, h]
  rfl

theorem tracks_of_stmts {stmts : List Stmt} (hp : PassesAll atom fixed stmts σ t σ') (h : Tracks atom fixed P σ before)
    (hcovers : ∀ s ∈ stmts, Covers P (.stmt s)) (hsteady : Steady (before ++ t)) (hcalm : Calm (before ++ t))
    (hQ : walkStmts P stmts = .ok Q) : Tracks atom fixed Q σ' (before ++ t) ∧ SameNames P Q := by
  have hboth := (tracks_of_passesAll hp h hcovers hsteady hcalm).and (ends_walkStmts P fun r _ => frames (.stmt r))
  obtain ⟨htracks, hctx⟩ := hboth.of_ok hQ
  exact ⟨htracks, hctx.toSameNames⟩

theorem tracks_of_arrives {n m m' : Node} {loc : List ℕ} (h : Arrives atom fixed n loc m σ t σ')
    (hP : Tracks atom fixed P σ before) (hcovers : Covers P n) (hsteady : Steady (before ++ t))
    (hcalm : Calm (before ++ t)) (hQ : P.atPart n loc = some (m', Q)) :
    Tracks atom fixed Q σ' (before ++ t) ∧ Covers Q m ∧ m' = m := by
  induction h generalizing P before with
  | here n σ =>
    cases hQ
    rw [List.append_nil]
    exact ⟨hP, hcovers, rfl⟩
  | @stmt b i s rest m _ _ _ t t' hs hp _ ih =>
    rw [← List.append_assoc] at hsteady hcalm ⊢
    obtain ⟨c, R, hc, hR, hrest⟩ := some_of_atPart hQ
    obtain rfl : c = .stmt s := Option.some.inj (hc.symm.trans (children_of_stmt hs))
    have hwalk := tracks_of_stmts hp hP (fun r hr => hcovers.child
      (List.mem_append_left _ (List.mem_map_of_mem (List.mem_of_mem_take hr)))) hsteady.left hcalm.left hR
    exact ih hwalk.1 ((hcovers.child (List.mem_of_getElem? hc)).congr hwalk.2) hsteady hcalm hrest
  | @final b e rest m _ _ _ t t' he hp _ ih =>
    rw [← List.append_assoc] at hsteady hcalm ⊢
    obtain ⟨c, R, hc, hR, hrest⟩ := some_of_atPart hQ
    obtain rfl : c = .expr e := Option.some.inj (hc.symm.trans (children_of_final he))
    rw [Prover.atChild, List.take_length] at hR
    have hwalk := tracks_of_stmts hp hP (fun r hr => hcovers.child
      (List.mem_append_left _ (List.mem_map_of_mem hr))) hsteady.left hcalm.left hR
    exact ih hwalk.1 ((hcovers.child (List.mem_of_getElem? hc)).congr hwalk.2) hsteady hcalm hrest
  | @part n c m i rest _ _ _ _ t t' hn hc he hb _ ih =>
    have happend : before ++ (t ++ .bound (boundNames n i) :: entries n i ++ t') =
        before ++ t ++ (.bound (boundNames n i) :: entries n i) ++ t' := by
      simp only [List.append_assoc]
    rw [happend] at hsteady hcalm ⊢
    obtain ⟨c', R, hc', hR, hrest⟩ := some_of_atPart hQ
    obtain rfl : c' = c := Option.some.inj (hc'.symm.trans hc)
    have henters := (enters_of_atChild hn hc P).of_ok hR
    have heffects := tracks_of_effects he hP hcovers hsteady.left.left hcalm.left.left
    refine ih (tracks_of_enters heffects hb henters hcovers hsteady.left hcalm.left) ?_ hsteady hcalm hrest
    exact (hcovers.child (List.mem_of_getElem? hc)).congr henters.names

end

end Karac.Disjoint
