import Karac.Disjoint.Prover
import Karac.Lib.Computations

/-! What the walk over a part of the body leaves as it is. An expression leaves all that is known of the variables, a
statement or a block the induction variables. -/

namespace Karac.Disjoint

open Ast Karac.Lib

structure SameNames (P Q : Prover) : Prop where
  loopVar : Q.loopVar = P.loopVar
  declared : Q.declared = P.declared
  mutated : Q.mutated = P.mutated

structure SameContext (P Q : Prover) : Prop extends SameNames P Q where
  ivs : Q.ivs = P.ivs

structure SameLocals (P Q : Prover) : Prop extends SameContext P Q where
  localForms : Q.localForms = P.localForms
  mutInits : Q.mutInits = P.mutInits

theorem SameNames.refl (P : Prover) : SameNames P P := ⟨rfl, rfl, rfl⟩

theorem SameContext.refl (P : Prover) : SameContext P P := ⟨.refl P, rfl⟩

theorem SameLocals.refl (P : Prover) : SameLocals P P := ⟨.refl P, rfl, rfl⟩

section

variable {P Q R : Prover}

theorem SameNames.trans (h : SameNames P Q) (h' : SameNames Q R) : SameNames P R :=
  ⟨h'.loopVar.trans h.loopVar, h'.declared.trans h.declared, h'.mutated.trans h.mutated⟩

theorem SameContext.trans (h : SameContext P Q) (h' : SameContext Q R) : SameContext P R :=
  ⟨h.toSameNames.trans h'.toSameNames, h'.ivs.trans h.ivs⟩

theorem SameLocals.trans (h : SameLocals P Q) (h' : SameLocals Q R) : SameLocals P R :=
  ⟨h.toSameContext.trans h'.toSameContext, h'.localForms.trans h.localForms, h'.mutInits.trans h.mutInits⟩

theorem SameNames.isInvariantName (h : SameNames P Q) : Q.isInvariantName = P.isInvariantName := by
  funext x
  rw [Prover.isInvariantName, Prover.isInvariantName, h.declared, h.mutated]

/-- The state after a scope knows of the variables what the state before it knew. -/
theorem SameContext.leave (h : SameContext P Q) : SameLocals P (P.leave Q) :=
  ⟨⟨⟨h.loopVar, h.declared, h.mutated⟩, h.ivs⟩, rfl, rfl⟩

/-- So does the state after a loop. -/
theorem SameNames.leaveLoop (h : SameNames P Q) : SameLocals P (P.leaveLoop Q) :=
  ⟨⟨⟨h.loopVar, h.declared, h.mutated⟩, rfl⟩, rfl, rfl⟩

end

section

variable (P : Prover)

theorem sameContext_forget (names : List String) : SameContext P (P.forget names) := ⟨⟨rfl, rfl, rfl⟩, rfl⟩

theorem sameContext_bindLet (isMut : Bool) (name : String) (value : Expr) :
    SameContext P (P.bindLet isMut name value) := by
  cases isMut <;> exact ⟨⟨rfl, rfl, rfl⟩, rfl⟩

theorem sameLocals_promote (bound : IvBound) : SameLocals P (P.promote bound) := by
  unfold Prover.promote
  split
  · split
    · exact ⟨⟨⟨rfl, rfl, rfl⟩, rfl⟩, rfl, rfl⟩
    · exact .refl P
  · exact .refl P

theorem sameNames_enterLoop (name : Option String) (bound : Option IvBound) (shadowed : List String) :
    SameNames P (P.enterLoop name bound shadowed) := by
  have hbound : SameNames P (bound.elim (P.forget shadowed) (P.forget shadowed).promote) := by
    cases bound with
    | none => exact (sameContext_forget P shadowed).toSameNames
    | some b => exact (sameContext_forget P shadowed).toSameNames.trans (sameLocals_promote _ b).toSameNames
  cases name <;> exact ⟨hbound.loopVar, hbound.declared, hbound.mutated⟩

theorem sameNames_enterWhile (condition : Expr) (body : Block) : SameNames P (P.enterWhile condition body) := by
  have h : SameNames P { P with nonneg := (P.countedWhileBound condition body).1 } := ⟨rfl, rfl, rfl⟩
  exact h.trans (sameNames_enterLoop _ _ _ _)

theorem sameLocals_deeper : SameLocals P P.deeper := ⟨⟨⟨rfl, rfl, rfl⟩, rfl⟩, rfl, rfl⟩

theorem sameLocals_shallower : SameLocals P P.shallower := ⟨⟨⟨rfl, rfl, rfl⟩, rfl⟩, rfl, rfl⟩

end

/-- The walk declines, or it ends in a state with the property. -/
abbrev Ends (S : Prover → Prop) (x : Except DisjointDecline Prover) : Prop := Yields (fun _ => True) S x

theorem ends_of_trans {P : Prover} {x : Except DisjointDecline Prover} {f : Prover → Except DisjointDecline Prover}
    (hx : Ends (SameLocals P) x) (hf : ∀ Q, Ends (SameLocals Q) (f Q)) : Ends (SameLocals P) (x >>= f) :=
  hx.bind fun Q hQ => (hf Q).mono fun _ hR => hQ.trans hR

theorem yields_anything {α : Type} (x : Except DisjointDecline α) : Yields (fun _ => True) (fun _ => True) x := by
  cases x <;> trivial

/-! The walks over lists of children. -/

section

variable (P : Prover)

@[simp] theorem bind_ok (x : Except DisjointDecline Prover) : (x >>= fun Q => Except.ok Q) = x := bind_pure x

@[simp] theorem walkNodes_singleton (n : Node) : walkNodes P [n] = walkNode P n := by
  simp only [walkNodes]
  exact bind_pure (walkNode P n)

theorem walkNodes_append (l m : List Node) : walkNodes P (l ++ m) = walkNodes P l >>= fun Q => walkNodes Q m := by
  induction l generalizing P with
  | nil => rfl
  | cons n l ih =>
    simp only [List.cons_append, walkNodes, bind_assoc]
    exact congrArg (walkNode P n >>= ·) (funext fun Q => ih Q)

@[simp] theorem walkOption_eq (o : Option Expr) : walkOption P o = walkNodes P (o.toList.map .expr) := by
  cases o with
  | none => rfl
  | some e => exact (walkNodes_singleton P (.expr e)).symm

@[simp] theorem walkExprs_eq (l : List Expr) : walkExprs P l = walkNodes P (l.map .expr) := by
  induction l generalizing P with
  | nil => rfl
  | cons e l ih =>
    simp only [walkExprs, ih, List.map_cons, walkNodes, walkNode]

@[simp] theorem walkArgs_eq (l : List CallArg) : walkArgs P l = walkNodes P (l.map .arg) := by
  induction l generalizing P with
  | nil => rfl
  | cons a l ih =>
    obtain ⟨label, mutMarker, value⟩ := a
    simp only [walkArgs, ih, List.map_cons, walkNodes, walkNode, CallArg.value]

@[simp] theorem walkChainArgs_eq (o : Option (List CallArg)) :
    walkChainArgs P o = walkNodes P ((o.getD []).map .arg) := by
  cases o with
  | none => rfl
  | some l => exact walkArgs_eq P l

@[simp] theorem walkPairs_eq (l : List (Expr × Expr)) :
    walkPairs P l = walkNodes P (l.flatMap fun p => [.expr p.1, .expr p.2]) := by
  induction l generalizing P with
  | nil => rfl
  | cons p l ih =>
    simp only [walkPairs, ih, List.flatMap_cons, List.cons_append, List.nil_append, walkNodes, walkNode]

@[simp] theorem walkFields_eq (l : List FieldInit) : walkFields P l = walkNodes P (l.map fun f => .expr f.value) := by
  induction l generalizing P with
  | nil => rfl
  | cons f l ih =>
    obtain ⟨name, value⟩ := f
    simp only [walkFields, ih, List.map_cons, walkNodes, walkNode, FieldInit.value]

@[simp] theorem walkParts_eq (l : List InterpolationPart) :
    walkParts P l = walkNodes P (l.flatMap interpolatedNodes) := by
  induction l generalizing P with
  | nil => rfl
  | cons part l ih =>
    cases part with
    | text s => simp only [walkParts, ih, List.flatMap_cons, interpolatedNodes, List.nil_append]
    | expr e =>
      simp only [walkParts, ih, List.flatMap_cons, interpolatedNodes, List.cons_append, List.nil_append, walkNodes,
        walkNode]

/-- The state is the same before every arm. -/
theorem walkArms_cons (a : MatchArm) (l : List MatchArm) :
    walkArms P (a :: l) = walkArms P [a] >>= fun Q => walkArms Q l := by
  obtain ⟨pattern, guard, body⟩ := a
  simp only [walkArms, bind_assoc]
  rfl

theorem walkArms_eq (l : List MatchArm) : walkArms P l = walkNodes P (l.map .arm) := by
  induction l generalizing P with
  | nil => rfl
  | cons a l ih =>
    rw [walkArms_cons, List.map_cons, walkNodes]
    exact congrArg (walkArms P [a] >>= ·) (funext ih)

theorem walkBlock_eq (b : Block) :
    walkBlock P b = walkStmts P b.stmts >>= fun Q => walkNodes Q (b.finalExpr.toList.map .expr) := by
  obtain ⟨stmts, finalExpr⟩ := b
  simp only [walkBlock, walkOption_eq, Block.stmts, Block.finalExpr]

end

/-- The walk visits the children one after the other, and nothing else. -/
def isPlain : Expr → Bool
  | .identifier _ => false
  | .path _ => false
  | .block _ => false
  | .labeledBlock _ _ => false
  | .ifThen _ _ _ => false
  | .ifLet _ _ _ _ => false
  | .matchOn _ _ => false
  | .forLoop _ _ _ _ => false
  | .whileLoop _ _ _ => false
  | .whileLet _ _ _ _ => false
  | .loop _ _ => false
  | .breakExpr _ _ => false
  | .returnExpr _ => false
  | .question _ => false
  | .closure _ _ _ => false
  | .unsafeBlock _ => false
  | .tryBlock _ => false
  | .seq _ => false
  | .par _ => false
  | .lock _ _ _ => false
  | .providers _ _ => false
  | .comptime _ => false
  | _ => true

theorem walkExpr_of_plain (P : Prover) {e : Expr} (h : isPlain e = true) :
    walkExpr P e = walkNodes P (exprChildren e) := by
  cases e <;> first
    | exact (Bool.false_ne_true h).elim
    | simp [walkExpr, exprChildren, walkNodes, walkNode, walkNodes_append]

section

variable (P : Prover)

theorem ends_checkRead (name : String) : Ends (SameLocals P) (P.checkRead name) := by
  unfold Prover.checkRead
  split
  · trivial
  · exact SameLocals.refl P

theorem ends_assignLocal (name : String) (value : Expr) (compound : Bool) :
    Ends (SameContext P) (P.assignLocal name value compound) := by
  unfold Prover.assignLocal
  split
  · trivial
  · exact ⟨⟨rfl, rfl, rfl⟩, rfl⟩

theorem ends_proveWrite (target : String) (index : Expr) : Ends (SameLocals P) (P.proveWrite target index) := by
  unfold Prover.proveWrite
  refine (yields_anything _).bind fun form _ => ?_
  dsimp only
  split
  · trivial
  · split
    · trivial
    · refine (yields_anything _).bind fun range _ => ?_
      split
      · trivial
      · exact ⟨⟨⟨rfl, rfl, rfl⟩, rfl⟩, rfl, rfl⟩

theorem yields_forBound (pattern : Pattern) (iterable : Expr) :
    Yields (fun _ => True) (fun r => SameLocals P r.1) (P.forBound pattern iterable) := by
  unfold Prover.forBound
  split
  · dsimp only
    split
    · split
      · refine (yields_anything _).bind fun hi _ => ?_
        exact ⟨⟨⟨rfl, rfl, rfl⟩, rfl⟩, rfl, rfl⟩
      · exact ⟨⟨⟨rfl, rfl, rfl⟩, rfl⟩, rfl, rfl⟩
    · exact ⟨⟨⟨rfl, rfl, rfl⟩, rfl⟩, rfl, rfl⟩
  · exact SameLocals.refl P

theorem ends_walkNodes {l : List Node} (h : ∀ n ∈ l, ∀ P, Ends (SameLocals P) (walkNode P n)) :
    Ends (SameLocals P) (walkNodes P l) := by
  induction l generalizing P with
  | nil => exact SameLocals.refl P
  | cons n l ih =>
    exact ends_of_trans (h n List.mem_cons_self P) fun Q => ih Q fun m hm => h m (List.mem_cons_of_mem n hm)

theorem ends_walkStmts {l : List Stmt} (h : ∀ s ∈ l, ∀ P, Ends (SameContext P) (walkStmt P s)) :
    Ends (SameContext P) (walkStmts P l) := by
  induction l generalizing P with
  | nil => exact SameContext.refl P
  | cons s l ih =>
    simp only [walkStmts]
    refine (h s List.mem_cons_self P).bind fun Q hQ => ?_
    exact (ih Q fun r hr => h r (List.mem_cons_of_mem s hr)).mono fun _ hR => hQ.trans hR

end

/-- What the walk over a node leaves as it is. -/
def Frames : Node → Prop
  | .expr e => ∀ P, Ends (SameLocals P) (walkExpr P e)
  | .arg a => ∀ P, Ends (SameLocals P) (walkExpr P a.value)
  | .arm a => ∀ P, Ends (SameLocals P) (walkArms P [a])
  | .stmt s => ∀ P, Ends (SameContext P) (walkStmt P s)
  | .block b => ∀ P, Ends (SameContext P) (walkBlock P b)

/-- A list of children without statements and blocks. -/
theorem ends_of_frames {l : List Node} (h : ∀ n ∈ l, Frames n) (hl : ∀ n ∈ l, (∀ s, n ≠ .stmt s) ∧ ∀ b, n ≠ .block b)
    (P : Prover) : Ends (SameLocals P) (walkNodes P l) := by
  refine ends_walkNodes P fun n hn => ?_
  have hframes := h n hn
  cases n with
  | expr e => exact hframes
  | arg a => exact hframes
  | arm a => exact hframes
  | stmt s => exact absurd rfl ((hl _ hn).1 s)
  | block b => exact absurd rfl ((hl _ hn).2 b)

theorem ends_option {o : Option Expr} (h : ∀ n ∈ o.toList.map Node.expr, Frames n) (P : Prover) :
    Ends (SameLocals P) (walkOption P o) := by
  rw [walkOption_eq]
  refine ends_of_frames h (fun n hn => ?_) P
  obtain ⟨e, _, rfl⟩ := List.mem_map.mp hn
  exact ⟨fun _ => Node.noConfusion, fun _ => Node.noConfusion⟩

theorem exprChildren_of_plain {e : Expr} (h : isPlain e = true) {n : Node} (hn : n ∈ exprChildren e) :
    (∀ s, n ≠ .stmt s) ∧ ∀ b, n ≠ .block b := by
  revert hn
  cases e <;> first
    | exact (Bool.false_ne_true h).elim
    | (simp only [exprChildren, List.mem_flatMap, interpolatedNodes.eq_def]; grind)

theorem frames_block {b : Block} (h : ∀ c ∈ (Node.block b).children, Frames c) : Frames (.block b) := by
  intro P
  rw [walkBlock_eq]
  have hstmts := ends_walkStmts P fun s hs => h (.stmt s) (List.mem_append_left _ (List.mem_map_of_mem hs))
  refine hstmts.bind fun Q hQ => ?_
  rw [← walkOption_eq]
  exact (ends_option (fun n hn => h n (List.mem_append_right _ hn)) Q).mono fun _ hR => hQ.trans hR.toSameContext

theorem frames_arm {a : MatchArm} (h : ∀ c ∈ (Node.arm a).children, Frames c) : Frames (.arm a) := by
  intro P
  obtain ⟨pattern, guard, body⟩ := a
  simp only [walkArms]
  refine (ends_option (fun n hn => h n (List.mem_append_left _ hn)) _).bind fun Q hQ => ?_
  refine (h (.expr body) (List.mem_append_right _ List.mem_cons_self) Q).bind fun R hR => ?_
  exact ((sameContext_forget P _).trans (hQ.trans hR).toSameContext).leave

/-- An assignment to an element. -/
theorem ends_walkAssign {target : Expr} (h : ∀ m, Node.Within m (.expr target) → Frames m)
    (hne : ∀ name, target ≠ .identifier name) (P : Prover) (value : Expr) (compound : Bool) :
    Ends (SameLocals P) (walkAssign P value compound target) := by
  unfold walkAssign
  split
  · exact absurd rfl (hne _)
  · split
    · exact h (.expr _) (.child (List.mem_cons_of_mem _ List.mem_cons_self) (.refl _)) P
    · exact ends_proveWrite P _ _
  · trivial

theorem frames_assign {target value : Expr} (htarget : ∀ m, Node.Within m (.expr target) → Frames m)
    (hvalue : Frames (.expr value)) (P : Prover) (compound : Bool) :
    Ends (SameContext P) (walkExpr P value >>= fun Q => walkAssign Q value compound target) := by
  refine (hvalue P).bind fun Q hQ => ?_
  refine Yields.mono (Q := SameContext Q) ?_ fun _ hR => hQ.toSameContext.trans hR
  by_cases hname : ∃ name, target = .identifier name
  · obtain ⟨name, rfl⟩ := hname
    simp only [walkAssign]
    exact ends_assignLocal Q name value compound
  · exact (ends_walkAssign htarget (fun name he => hname ⟨name, he⟩) Q value compound).mono fun _ hR => hR.toSameContext

theorem frames_stmt {s : Stmt} (h : ∀ c ∈ (Node.stmt s).children, ∀ m, Node.Within m c → Frames m) :
    Frames (.stmt s) := by
  have hchild : ∀ c ∈ (Node.stmt s).children, Frames c := fun c hc => h c hc c (.refl c)
  intro P
  cases s with
  | letStmt isMut pattern value =>
    simp only [walkStmt]
    refine (hchild (.expr value) List.mem_cons_self P).bind fun Q hQ => hQ.toSameContext.trans ?_
    cases Prover.loopName pattern with
    | none => exact .refl Q
    | some name => exact sameContext_bindLet Q isMut name value
  | letUninit isMut name => exact sameContext_forget P [name]
  | letElse pattern value elseBlock =>
    simp only [walkStmt]
    refine (hchild (.expr value) List.mem_cons_self P).bind fun Q hQ => ?_
    refine (hchild (.block elseBlock) (List.mem_cons_of_mem _ List.mem_cons_self) Q).bind fun R hR => ?_
    exact (hQ.toSameContext.trans hR).trans (sameContext_forget R _)
  | defer body => trivial
  | errDefer binding body => trivial
  | assign target value =>
    exact frames_assign (h (.expr target) List.mem_cons_self)
      (hchild (.expr value) (List.mem_cons_of_mem _ List.mem_cons_self)) P false
  | compoundAssign target op value =>
    exact frames_assign (h (.expr target) List.mem_cons_self)
      (hchild (.expr value) (List.mem_cons_of_mem _ List.mem_cons_self)) P true
  | expr e => exact (hchild (.expr e) List.mem_cons_self P).mono fun _ hQ => hQ.toSameContext

/-- A block between what comes before it and what comes after it. -/
theorem ends_scope {P Q : Prover} {x : Except DisjointDecline Prover} {f : Prover → Except DisjointDecline Prover}
    (hctx : SameContext P Q) (hx : Ends (SameContext Q) x) (hf : ∀ R, Ends (SameLocals R) (f R)) :
    Ends (SameLocals P) (x >>= fun R => f (P.leave R)) :=
  hx.bind fun R hR => (hf (P.leave R)).mono fun _ hS => (hctx.trans hR).leave.trans hS

theorem frames_expr {e : Expr} (h : ∀ c ∈ (Node.expr e).children, Frames c) : Frames (.expr e) := by
  intro P
  by_cases hplain : isPlain e = true
  · rw [walkExpr_of_plain P hplain]
    exact ends_of_frames h (fun n hn => exprChildren_of_plain hplain hn) P
  · cases e with
    | identifier name => exact ends_checkRead P name
    | path segments =>
      unfold walkExpr
      split
      all_goals first
        | exact ends_checkRead P _
        | exact SameLocals.refl P
        | contradiction
    | block b =>
      simp only [walkExpr]
      exact ends_scope (.refl P) (h (.block b) List.mem_cons_self P) SameLocals.refl
    | labeledBlock label b =>
      simp only [walkExpr]
      exact ends_scope (.refl P) (h (.block b) List.mem_cons_self P) SameLocals.refl
    | ifThen condition thenBlock elseBranch =>
      simp only [walkExpr]
      refine ends_of_trans (h (.expr condition) List.mem_cons_self P) fun Q => ?_
      refine ends_scope (f := fun R => walkOption R elseBranch) (.refl Q)
        (h (.block thenBlock) (List.mem_cons_of_mem _ List.mem_cons_self) Q) fun R => ?_
      exact ends_option (fun n hn => h n (List.mem_cons_of_mem _ (List.mem_cons_of_mem _ hn))) R
    | ifLet pattern value thenBlock elseBranch =>
      simp only [walkExpr]
      refine ends_of_trans (h (.expr value) List.mem_cons_self P) fun Q => ?_
      refine ends_scope (f := fun R => walkOption R elseBranch) (sameContext_forget Q pattern.bindingNames)
        (h (.block thenBlock) (List.mem_cons_of_mem _ List.mem_cons_self) _) fun R => ?_
      exact ends_option (fun n hn => h n (List.mem_cons_of_mem _ (List.mem_cons_of_mem _ hn))) R
    | matchOn scrutinee arms =>
      simp only [walkExpr, walkArms_eq]
      refine ends_of_trans (h (.expr scrutinee) List.mem_cons_self P) fun Q => ?_
      refine ends_of_frames (fun n hn => h n (List.mem_cons_of_mem _ hn)) (fun n hn => ?_) Q
      obtain ⟨a, _, rfl⟩ := List.mem_map.mp hn
      exact ⟨fun _ => Node.noConfusion, fun _ => Node.noConfusion⟩
    | forLoop label pattern iterable body =>
      simp only [walkExpr]
      refine ends_of_trans (h (.expr iterable) List.mem_cons_self P) fun Q => ?_
      refine (yields_forBound Q pattern iterable).bind fun entry hentry => ?_
      refine (h (.block body) (List.mem_cons_of_mem _ List.mem_cons_self) _).bind fun R hR => ?_
      exact hentry.trans ((sameNames_enterLoop entry.1 _ _ _).trans hR.toSameNames).leaveLoop
    | whileLoop label condition body =>
      simp only [walkExpr]
      refine ends_of_trans (h (.expr condition) List.mem_cons_self P) fun Q => ?_
      refine (h (.block body) (List.mem_cons_of_mem _ List.mem_cons_self) _).bind fun R hR => ?_
      have hnames := (sameNames_enterWhile Q condition body).trans hR.toSameNames
      exact ⟨⟨⟨hnames.loopVar, hnames.declared, hnames.mutated⟩, rfl⟩, rfl, rfl⟩
    | whileLet label pattern value body =>
      simp only [walkExpr]
      refine ends_of_trans (h (.expr value) List.mem_cons_self P) fun Q => ?_
      refine (h (.block body) (List.mem_cons_of_mem _ List.mem_cons_self) _).bind fun R hR => ?_
      have hctx : SameContext Q R :=
        ((sameContext_forget Q pattern.bindingNames).trans (sameLocals_deeper _).toSameContext).trans hR
      exact hctx.leave.trans (sameLocals_shallower _)
    | loop label body =>
      simp only [walkExpr]
      refine (h (.block body) List.mem_cons_self _).bind fun R hR => ?_
      exact ((sameLocals_deeper P).toSameContext.trans hR).leave.trans (sameLocals_shallower _)
    | breakExpr label value =>
      simp only [walkExpr]
      split
      · trivial
      · exact ends_option (fun n hn => h n hn) P
    | returnExpr value => trivial
    | question inner => trivial
    | closure params isMove body => trivial
    | unsafeBlock b => trivial
    | tryBlock b => trivial
    | seq b => trivial
    | par b => trivial
    | lock mutex innerName body => trivial
    | providers bound body => trivial
    | comptime b => trivial
    | _ => exact absurd rfl hplain

theorem frames (n : Node) : Frames n := by
  suffices hall : ∀ m, Node.Within m n → Frames m from hall n (.refl n)
  induction n using Node.childInduction with
  | h n ih =>
    have hself : Frames n := by
      have hchild : ∀ c ∈ n.children, Frames c := fun c hc => ih c hc c (.refl c)
      cases n with
      | expr e => exact frames_expr hchild
      | stmt s => exact frames_stmt ih
      | block b => exact frames_block hchild
      | arg a => exact hchild (.expr a.value) List.mem_cons_self
      | arm a => exact frames_arm hchild
    intro m hm
    cases hm with
    | refl => exact hself
    | child hc hw => exact ih _ hc m hw

end Karac.Disjoint
