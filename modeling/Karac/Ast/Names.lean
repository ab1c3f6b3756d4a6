import Karac.Ast.Nodes

/-! The names that a pass over a syntax tree collects. Every node adds its own names, and the passes differ in what
those are and in whether they look at the bindings of a `providers` block. -/

namespace Karac.Ast

section

variable (own : Node → Finset String) (bindings : Bool)

mutual

def exprNames (e : Expr) : Finset String := own (.expr e) ∪ match e with
  | .interpolatedStringLit parts => partNames parts
  | .binary _ left right => exprNames left ∪ exprNames right
  | .unary _ operand => exprNames operand
  | .question inner => exprNames inner
  | .optionalChain object _ args => exprNames object ∪ chainArgNames args
  | .nilCoalesce left right => exprNames left ∪ exprNames right
  | .call callee args => exprNames callee ∪ argNames args
  | .methodCall object _ args => exprNames object ∪ argNames args
  | .fieldAccess object _ => exprNames object
  | .tupleIndex object _ => exprNames object
  | .index object index => exprNames object ∪ exprNames index
  | .block b => blockNames b
  | .comptime b => blockNames b
  | .ifThen condition thenBlock elseBranch => exprNames condition ∪ blockNames thenBlock ∪ optionNames elseBranch
  | .ifLet _ value thenBlock elseBranch => exprNames value ∪ blockNames thenBlock ∪ optionNames elseBranch
  | .matchOn scrutinee arms => exprNames scrutinee ∪ armNames arms
  | .whileLoop _ condition body => exprNames condition ∪ blockNames body
  | .whileLet _ _ value body => exprNames value ∪ blockNames body
  | .forLoop _ _ iterable body => exprNames iterable ∪ blockNames body
  | .loop _ body => blockNames body
  | .labeledBlock _ body => blockNames body
  | .closure _ _ body => exprNames body
  | .returnExpr value => optionNames value
  | .breakExpr _ value => optionNames value
  | .tuple elems => listNames elems
  | .arrayLiteral elems => listNames elems
  | .prefixCollectionLiteral _ items => listNames items
  | .repeatLiteral _ value count => exprNames value ∪ exprNames count
  | .mapLiteral pairs => pairNames pairs
  | .structLiteral _ fields spread => fieldNames fields ∪ optionNames spread
  | .pipe left right => exprNames left ∪ exprNames right
  | .cast inner => exprNames inner
  | .range start stop _ => optionNames start ∪ optionNames stop
  | .unsafeBlock b => blockNames b
  | .tryBlock b => blockNames b
  | .seq b => blockNames b
  | .par b => blockNames b
  | .lock _ _ body => blockNames body
  | .providers bound body => (if bindings then bindingNames bound else ∅) ∪ blockNames body
  | _ => ∅

def blockNames : Block → Finset String
  | .mk stmts finalExpr => stmtListNames stmts ∪ optionNames finalExpr

def stmtListNames : List Stmt → Finset String
  | [] => ∅
  | s :: rest => stmtNames s ∪ stmtListNames rest

def stmtNames (s : Stmt) : Finset String := own (.stmt s) ∪ match s with
  | .letStmt _ _ value => exprNames value
  | .letUninit _ _ => ∅
  | .letElse _ value elseBlock => exprNames value ∪ blockNames elseBlock
  | .assign target value => exprNames target ∪ exprNames value
  | .compoundAssign target _ value => exprNames target ∪ exprNames value
  | .expr e => exprNames e
  | .defer body => blockNames body
  | .errDefer _ body => blockNames body

def optionNames : Option Expr → Finset String
  | none => ∅
  | some e => exprNames e

def listNames : List Expr → Finset String
  | [] => ∅
  | e :: rest => exprNames e ∪ listNames rest

def argNames : List CallArg → Finset String
  | [] => ∅
  | .mk _ _ value :: rest => exprNames value ∪ argNames rest

def chainArgNames : Option (List CallArg) → Finset String
  | none => ∅
  | some args => argNames args

def armNames : List MatchArm → Finset String
  | [] => ∅
  | .mk pattern guard body :: rest =>
    own (.arm (.mk pattern guard body)) ∪ optionNames guard ∪ exprNames body ∪ armNames rest

def partNames : List InterpolationPart → Finset String
  | [] => ∅
  | .text _ :: rest => partNames rest
  | .expr e :: rest => exprNames e ∪ partNames rest

def pairNames : List (Expr × Expr) → Finset String
  | [] => ∅
  | (k, v) :: rest => exprNames k ∪ exprNames v ∪ pairNames rest

def fieldNames : List FieldInit → Finset String
  | [] => ∅
  | .mk _ value :: rest => exprNames value ∪ fieldNames rest

def bindingNames : List ProviderBinding → Finset String
  | [] => ∅
  | .mk _ value :: rest => exprNames value ∪ bindingNames rest

end

def nodeNames : Node → Finset String
  | .expr e => exprNames own bindings e
  | .stmt s => stmtNames own bindings s
  | .block b => blockNames own bindings b
  | .arg a => exprNames own bindings a.value
  | .arm a => own (.arm a) ∪ optionNames own bindings a.guard ∪ exprNames own bindings a.body

end

/-! Every node of a tree adds its names. -/

section

variable {own : Node → Finset String} {bindings : Bool} {name : String}

@[simp] theorem mem_optionNames {o : Option Expr} :
    name ∈ optionNames own bindings o ↔ ∃ e ∈ o, name ∈ exprNames own bindings e := by
  cases o <;> simp [optionNames]

@[simp] theorem mem_listNames {l : List Expr} :
    name ∈ listNames own bindings l ↔ ∃ e ∈ l, name ∈ exprNames own bindings e :=
  mem_walk rfl fun _ _ => rfl

@[simp] theorem mem_stmtListNames {l : List Stmt} :
    name ∈ stmtListNames own bindings l ↔ ∃ s ∈ l, name ∈ stmtNames own bindings s :=
  mem_walk rfl fun _ _ => rfl

@[simp] theorem mem_argNames {l : List CallArg} :
    name ∈ argNames own bindings l ↔ ∃ a ∈ l, name ∈ exprNames own bindings a.value :=
  mem_walk rfl fun a _ => by cases a; rfl

@[simp] theorem mem_chainArgNames {o : Option (List CallArg)} :
    name ∈ chainArgNames own bindings o ↔ ∃ a ∈ o.getD [], name ∈ exprNames own bindings a.value := by
  cases o <;> simp [chainArgNames]

@[simp] theorem mem_armNames {l : List MatchArm} :
    name ∈ armNames own bindings l ↔ ∃ a ∈ l, name ∈ nodeNames own bindings (.arm a) :=
  mem_walk rfl fun a _ => by cases a; rfl

@[simp] theorem mem_partNames {l : List InterpolationPart} :
    name ∈ partNames own bindings l ↔ ∃ part ∈ l, ∃ n ∈ interpolatedNodes part, name ∈ nodeNames own bindings n := by
  induction l with
  | nil => simp [partNames]
  | cons part rest ih => cases part <;> simp [partNames, ih, interpolatedNodes, nodeNames]

@[simp] theorem mem_pairNames {l : List (Expr × Expr)} :
    name ∈ pairNames own bindings l ↔ ∃ p ∈ l, name ∈ exprNames own bindings p.1 ∪ exprNames own bindings p.2 :=
  mem_walk rfl fun _ _ => rfl

@[simp] theorem mem_fieldNames {l : List FieldInit} :
    name ∈ fieldNames own bindings l ↔ ∃ f ∈ l, name ∈ exprNames own bindings f.value :=
  mem_walk rfl fun f _ => by cases f; rfl

@[simp] theorem mem_bindingNames {l : List ProviderBinding} :
    name ∈ bindingNames own bindings l ↔ ∃ b ∈ l, name ∈ exprNames own bindings b.value :=
  mem_walk rfl fun b _ => by cases b; rfl

theorem mem_nodeNames_self {n : Node} (h : name ∈ own n) (hn : (∀ b, n ≠ .block b) ∧ ∀ a, n ≠ .arg a) :
    name ∈ nodeNames own bindings n := by
  cases n with
  | expr e =>
    rw [nodeNames, exprNames.eq_def]
    exact Finset.mem_union_left _ h
  | stmt s =>
    rw [nodeNames, stmtNames.eq_def]
    exact Finset.mem_union_left _ h
  | block b => exact absurd rfl (hn.1 b)
  | arg a => exact absurd rfl (hn.2 a)
  | arm a => exact Finset.mem_union_left _ (Finset.mem_union_left _ h)

/-- Nothing is missed in the bindings of a `providers` block. -/
abbrev BindingsSeen (own : Node → Finset String) (bindings : Bool) (n : Node) : Prop :=
  ∀ bound body, n = .expr (.providers bound body) → bindings = true ∨ bindingNames own bindings bound = ∅

theorem mem_exprNames_of_child {e : Expr} {c : Node} (hc : c ∈ exprChildren e) (h : name ∈ nodeNames own bindings c)
    (hseen : BindingsSeen own bindings (.expr e)) : name ∈ exprNames own bindings e := by
  rw [exprNames.eq_def]
  apply Finset.mem_union_right
  have hex : ∃ c ∈ exprChildren e, name ∈ nodeNames own bindings c := ⟨c, hc, h⟩
  clear hc h
  revert hex
  cases e with
  | providers bound body =>
    have hbound : name ∈ bindingNames own bindings bound →
        name ∈ if bindings then bindingNames own bindings bound else ∅ := by
      intro hname
      rcases hseen bound body rfl with rfl | hnone
      · exact hname
      · rw [hnone] at hname
        exact absurd hname (Finset.notMem_empty name)
    simp [exprChildren, nodeNames] at hbound ⊢
    grind
  | _ => simp [exprChildren, nodeNames] <;> grind

theorem mem_nodeNames_of_child {n c : Node} (hc : c ∈ n.children) (h : name ∈ nodeNames own bindings c)
    (hseen : BindingsSeen own bindings n) : name ∈ nodeNames own bindings n := by
  cases n with
  | expr e => exact mem_exprNames_of_child hc h hseen
  | stmt s =>
    rw [nodeNames, stmtNames.eq_def]
    apply Finset.mem_union_right
    revert hc h
    cases s <;> simp [Node.children, stmtChildren, nodeNames] <;> grind
  | block b =>
    cases b with
    | mk stmts finalExpr =>
      revert hc h
      simp [Node.children, Block.stmts, Block.finalExpr, nodeNames, blockNames]
      grind
  | arg a =>
    cases List.mem_singleton.mp hc
    exact h
  | arm a =>
    revert hc h
    simp [Node.children, nodeNames]
    grind

theorem Node.Within.trans {m n k : Node} (h : m.Within n) (h' : n.Within k) : m.Within k := by
  induction h' with
  | refl => exact h
  | child hc _ ih => exact .child hc ih

/-- What a node within adds is collected. -/
theorem mem_nodeNames_of_within {n m : Node} (h : Node.Within m n) (hm : name ∈ nodeNames own bindings m)
    (hseen : ∀ c, Node.Within c n → BindingsSeen own bindings c) : name ∈ nodeNames own bindings n := by
  induction h with
  | refl => exact hm
  | child hc _ ih => exact mem_nodeNames_of_child hc (ih fun c hw => hseen c (.child hc hw)) (hseen _ (.refl _))

end

end Karac.Ast
