import Karac.Ast

/-! The nodes of a syntax tree and their children. A walk over the whole tree visits every node within it, and
an induction on the children reaches every node. -/

namespace Karac.Ast

inductive Node
  | expr (e : Expr)
  | stmt (s : Stmt)
  | block (b : Block)
  | arg (a : CallArg)
  | arm (a : MatchArm)

def interpolatedNodes : InterpolationPart → List Node
  | .text _ => []
  | .expr e => [.expr e]

def exprChildren : Expr → List Node
  | .interpolatedStringLit parts => parts.flatMap interpolatedNodes
  | .binary _ left right => [.expr left, .expr right]
  | .unary _ operand => [.expr operand]
  | .question inner => [.expr inner]
  | .optionalChain object _ args => .expr object :: (args.getD []).map .arg
  | .nilCoalesce left right => [.expr left, .expr right]
  | .call callee args => .expr callee :: args.map .arg
  | .methodCall object _ args => .expr object :: args.map .arg
  | .fieldAccess object _ => [.expr object]
  | .tupleIndex object _ => [.expr object]
  | .index object index => [.expr object, .expr index]
  | .block b => [.block b]
  | .comptime b => [.block b]
  | .ifThen condition thenBlock elseBranch => .expr condition :: .block thenBlock :: elseBranch.toList.map .expr
  | .ifLet _ value thenBlock elseBranch => .expr value :: .block thenBlock :: elseBranch.toList.map .expr
  | .matchOn scrutinee arms => .expr scrutinee :: arms.map .arm
  | .whileLoop _ condition body => [.expr condition, .block body]
  | .whileLet _ _ value body => [.expr value, .block body]
  | .forLoop _ _ iterable body => [.expr iterable, .block body]
  | .loop _ body => [.block body]
  | .labeledBlock _ body => [.block body]
  | .closure _ _ body => [.expr body]
  | .returnExpr value => value.toList.map .expr
  | .breakExpr _ value => value.toList.map .expr
  | .tuple elems => elems.map .expr
  | .arrayLiteral elems => elems.map .expr
  | .prefixCollectionLiteral _ items => items.map .expr
  | .repeatLiteral _ value count => [.expr value, .expr count]
  | .mapLiteral pairs => pairs.flatMap fun p => [.expr p.1, .expr p.2]
  | .structLiteral _ fields spread => (fields.map fun f => .expr f.value) ++ spread.toList.map .expr
  | .pipe left right => [.expr left, .expr right]
  | .cast e => [.expr e]
  | .range start stop _ => start.toList.map .expr ++ stop.toList.map .expr
  | .unsafeBlock body => [.block body]
  | .tryBlock body => [.block body]
  | .seq body => [.block body]
  | .par body => [.block body]
  | .lock _ _ body => [.block body]
  | .providers bindings body => (bindings.map fun b => .expr b.value) ++ [.block body]
  | _ => []

def stmtChildren : Stmt → List Node
  | .letStmt _ _ value => [.expr value]
  | .letUninit _ _ => []
  | .letElse _ value elseBlock => [.expr value, .block elseBlock]
  | .defer body => [.block body]
  | .errDefer _ body => [.block body]
  | .assign target value => [.expr target, .expr value]
  | .compoundAssign target _ value => [.expr target, .expr value]
  | .expr e => [.expr e]

def Node.children : Node → List Node
  | .expr e => exprChildren e
  | .stmt s => stmtChildren s
  | .block b => b.stmts.map .stmt ++ b.finalExpr.toList.map .expr
  | .arg a => [.expr a.value]
  | .arm a => a.guard.toList.map .expr ++ [.expr a.body]

/-- The first node occurs in the tree of the second. -/
inductive Node.Within : Node → Node → Prop
  | refl (n : Node) : Within n n
  | child {m c n : Node} (hc : c ∈ n.children) (h : Within m c) : Within m n

/-! Every child is smaller than its parent. -/

noncomputable def Node.size : Node → ℕ
  | .expr e => sizeOf e
  | .stmt s => sizeOf s
  | .block b => sizeOf b
  | .arg a => sizeOf a
  | .arm a => sizeOf a

namespace Node

@[simp] theorem size_expr (e : Expr) : (Node.expr e).size = sizeOf e := rfl

@[simp] theorem size_stmt (s : Stmt) : (Node.stmt s).size = sizeOf s := rfl

@[simp] theorem size_block (b : Block) : (Node.block b).size = sizeOf b := rfl

@[simp] theorem size_arg (a : CallArg) : (Node.arg a).size = sizeOf a := rfl

@[simp] theorem size_arm (a : MatchArm) : (Node.arm a).size = sizeOf a := rfl

end Node

theorem value_lt_of_callArg (a : CallArg) : sizeOf a.value < sizeOf a := by
  cases a with
  | mk label mutMarker value =>
    simp only [CallArg.value, CallArg.mk.sizeOf_spec]
    omega

theorem value_lt_of_fieldInit (f : FieldInit) : sizeOf f.value < sizeOf f := by
  cases f with
  | mk name value =>
    simp only [FieldInit.value, FieldInit.mk.sizeOf_spec]
    omega

theorem value_lt_of_binding (b : ProviderBinding) : sizeOf b.value < sizeOf b := by
  cases b with
  | mk resource value =>
    simp only [ProviderBinding.value, ProviderBinding.mk.sizeOf_spec]
    omega

/-- Every node of the list is smaller than `k`. -/
def Below (k : ℕ) (ns : List Node) : Prop := ∀ n ∈ ns, n.size < k

@[simp] theorem below_nil (k : ℕ) : Below k [] := by
  intro n hn
  cases hn

@[simp] theorem below_cons (k : ℕ) (n : Node) (ns : List Node) : Below k (n :: ns) ↔ n.size < k ∧ Below k ns :=
  List.forall_mem_cons

@[simp] theorem below_append (k : ℕ) (ns ms : List Node) : Below k (ns ++ ms) ↔ Below k ns ∧ Below k ms :=
  List.forall_mem_append

theorem below_flatMap {α : Type} [SizeOf α] {l : List α} {f : α → List Node} {k : ℕ}
    (hf : ∀ x, Below (sizeOf x) (f x)) (hl : sizeOf l < k) : Below k (l.flatMap f) := by
  intro n hn
  obtain ⟨x, hx, hnx⟩ := List.mem_flatMap.mp hn
  have hlist := List.sizeOf_lt_of_mem hx
  have hnode := hf x n hnx
  omega

theorem below_map {α : Type} [SizeOf α] {l : List α} {f : α → Node} {k : ℕ}
    (hf : ∀ x, (f x).size ≤ sizeOf x) (hl : sizeOf l < k) : Below k (l.map f) := by
  intro n hn
  obtain ⟨x, hx, rfl⟩ := List.mem_map.mp hn
  have hlist := List.sizeOf_lt_of_mem hx
  have hnode := hf x
  omega

theorem below_exprs {l : List Expr} {k : ℕ} (hl : sizeOf l < k) : Below k (l.map .expr) :=
  below_map (fun e => le_refl (sizeOf e)) hl

theorem below_args {l : List CallArg} {k : ℕ} (hl : sizeOf l < k) : Below k (l.map .arg) :=
  below_map (fun a => le_refl (sizeOf a)) hl

theorem below_arms {l : List MatchArm} {k : ℕ} (hl : sizeOf l < k) : Below k (l.map .arm) :=
  below_map (fun a => le_refl (sizeOf a)) hl

theorem below_fields {l : List FieldInit} {k : ℕ} (hl : sizeOf l < k) : Below k (l.map fun f => .expr f.value) :=
  below_map (fun f => (value_lt_of_fieldInit f).le) hl

theorem below_bindings {l : List ProviderBinding} {k : ℕ} (hl : sizeOf l < k) :
    Below k (l.map fun b => .expr b.value) :=
  below_map (fun b => (value_lt_of_binding b).le) hl

theorem below_option {o : Option Expr} {k : ℕ} (ho : sizeOf o < k) : Below k (o.toList.map .expr) := by
  cases o with
  | none => exact below_nil k
  | some e =>
    simp only [Option.some.sizeOf_spec] at ho
    simp only [Option.toList_some, List.map_cons, List.map_nil, below_cons, Node.size_expr, below_nil, and_true]
    omega

theorem below_chainArgs {o : Option (List CallArg)} {k : ℕ} (ho : sizeOf o < k) :
    Below k ((o.getD []).map .arg) := by
  cases o with
  | none => exact below_nil k
  | some l =>
    simp only [Option.some.sizeOf_spec] at ho
    exact below_args (Nat.lt_of_le_of_lt (Nat.le_add_left _ 1) ho)

theorem below_interpolated (part : InterpolationPart) : Below (sizeOf part) (interpolatedNodes part) := by
  cases part with
  | text text => exact below_nil _
  | expr e => simp [interpolatedNodes]

theorem below_pair (p : Expr × Expr) : Below (sizeOf p) [.expr p.1, .expr p.2] := by
  obtain ⟨key, value⟩ := p
  simp only [below_cons, Node.size_expr, below_nil, and_true, Prod.mk.sizeOf_spec]
  omega

theorem below_exprChildren (e : Expr) : Below (sizeOf e) (exprChildren e) := by
  cases e with
  | interpolatedStringLit l => exact below_flatMap below_interpolated (by simp)
  | mapLiteral l => exact below_flatMap below_pair (by simp)
  | tuple elems => exact below_exprs (by simp)
  | arrayLiteral elems => exact below_exprs (by simp)
  | prefixCollectionLiteral typeName items => exact below_exprs (by simp)
  | returnExpr value => exact below_option (by simp)
  | breakExpr label value => exact below_option (by simp)
  | call callee args => simpa [exprChildren] using ⟨by omega, below_args (by omega)⟩
  | methodCall object method args => simpa [exprChildren] using ⟨by omega, below_args (by omega)⟩
  | optionalChain object name args => simpa [exprChildren] using ⟨by omega, below_chainArgs (by omega)⟩
  | matchOn scrutinee arms => simpa [exprChildren] using ⟨by omega, below_arms (by omega)⟩
  | ifThen condition thenBlock elseBranch =>
    simpa [exprChildren] using ⟨by omega, by omega, below_option (by omega)⟩
  | ifLet pattern value thenBlock elseBranch =>
    simpa [exprChildren] using ⟨by omega, by omega, below_option (by omega)⟩
  | structLiteral path fields spread =>
    simpa [exprChildren] using ⟨below_fields (by omega), below_option (by omega)⟩
  | range start stop inclusive =>
    simpa [exprChildren] using ⟨below_option (by omega), below_option (by omega)⟩
  | providers bindings body =>
    apply (below_append _ _ _).mpr
    refine ⟨below_bindings ?_, ?_⟩
    · simp only [Expr.providers.sizeOf_spec]
      omega
    · simp
  | _ => simp [exprChildren] <;> omega

theorem below_children (n : Node) : Below n.size n.children := by
  cases n with
  | expr e => exact below_exprChildren e
  | stmt s => cases s <;> simp [Node.children, stmtChildren] <;> omega
  | block b =>
    cases b with
    | mk stmts finalExpr =>
      simpa [Node.children, Block.stmts, Block.finalExpr] using
        ⟨below_map (fun s => le_refl (sizeOf s)) (by omega), below_option (by omega)⟩
  | arg a => simpa [Node.children] using value_lt_of_callArg a
  | arm a =>
    cases a with
    | mk pattern guard body =>
      apply (below_append _ _ _).mpr
      refine ⟨below_option ?_, ?_⟩
      · simp only [MatchArm.guard, Node.size_arm, MatchArm.mk.sizeOf_spec]
        omega
      · simp [MatchArm.body]

/-- Induction on the children. -/
theorem Node.childInduction {P : Node → Prop} (h : ∀ n : Node, (∀ c ∈ n.children, P c) → P n) (n : Node) : P n := by
  apply h
  intro c hc
  have hlt := below_children n c hc
  exact childInduction h c
termination_by n.size

/-! Walks over lists of parts: a pass has one function for each kind of list, which treats its elements in turn. -/

/-- A walk that carries a state. -/
theorem walk_eq_foldl {σ α : Type} {walk : σ → List α → σ} {f : σ → α → σ} (hnil : ∀ s, walk s [] = s)
    (hcons : ∀ s x l, walk s (x :: l) = walk (f s x) l) (l : List α) : ∀ s, walk s l = l.foldl f s := by
  induction l with
  | nil => exact hnil
  | cons x rest ih =>
    intro s
    rw [hcons, ih, List.foldl_cons]

/-- A walk that looks for an element. -/
theorem walk_eq_any {α : Type} {walk : List α → Bool} {f : α → Bool} (hnil : walk [] = false)
    (hcons : ∀ x l, walk (x :: l) = (f x || walk l)) (l : List α) : walk l = l.any f := by
  induction l with
  | nil => exact hnil
  | cons x rest ih => rw [hcons, ih, List.any_cons]

/-- A walk that gathers what it finds in each element. -/
theorem mem_walk {α : Type} {walk : List α → Finset String} {f : α → Finset String} (hnil : walk [] = ∅)
    (hcons : ∀ x l, walk (x :: l) = f x ∪ walk l) {name : String} {l : List α} :
    name ∈ walk l ↔ ∃ x ∈ l, name ∈ f x := by
  induction l with
  | nil => simp [hnil]
  | cons x rest ih => simp [hcons, ih]

end Karac.Ast
