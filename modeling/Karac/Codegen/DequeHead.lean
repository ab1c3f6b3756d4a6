import Karac.Ast.Nodes

/-! The queues of a function that keep a counter for their front: names bound by `let mut` at the top level to an empty
`VecDeque` of plain elements, and mentioned only as the receivers of four methods. -/

namespace Karac.Codegen

open Ast

mutual

inductive TypeExpr
  | path (segments : List String) (genericArgs : Option (List GenericArg))
  | tuple (elems : List TypeExpr)
  | other

inductive GenericArg
  | type (ty : TypeExpr)
  | other

end

/-- A statement of a function body, and the annotation if it is a `let`. -/
structure FnStmt where
  ty : Option TypeExpr
  stmt : Stmt

structure FnDecl where
  name : String
  params : List Pattern
  stmts : List FnStmt
  finalExpr : Option Expr

def FnDecl.body (f : FnDecl) : Block := .mk (f.stmts.map FnStmt.stmt) f.finalExpr

def headIndexMethods : List String := ["push_back", "pop_front", "len", "is_empty"]

def podScalars : List String :=
  ["i8", "i16", "i32", "i64", "isize", "u8", "u16", "u32", "u64", "usize", "f32", "f64", "bool", "char"]

mutual

def typeIsPod : TypeExpr → Bool
  | .path [segment] none => decide (segment ∈ podScalars)
  | .path [segment] (some []) => decide (segment ∈ podScalars)
  | .tuple elems => typesArePod elems
  | _ => false

def typesArePod : List TypeExpr → Bool
  | [] => true
  | ty :: rest => typeIsPod ty && typesArePod rest

end

def dequeElemIsPod : Option TypeExpr → Bool
  | some (.path segments (some [.type elem])) => decide (segments.getLast? = some "VecDeque") && typeIsPod elem
  | _ => false

/-- `VecDeque.new()` or `VecDeque.with_capacity(n)` -/
def isDequeInit : Expr → Bool
  | .call (.path [ty, method]) _ => decide (ty = "VecDeque") && decide (method = "new" ∨ method = "with_capacity")
  | _ => false

def candidate : FnStmt → Option String
  | ⟨ty, .letStmt true (.binding name) value⟩ => if isDequeInit value && dequeElemIsPod ty then some name else none
  | _ => none

/-! The walk that disqualifies names. It visits an expression through the blocks that hang off it and through its
children. -/

section

variable (cands : Finset String)

def mention (name : String) : Finset String := if name ∈ cands then {name} else ∅

/-- An assignment to a whole name. -/
def assigned : Stmt → Finset String
  | .assign (.identifier name) _ => mention cands name
  | .compoundAssign (.identifier name) _ _ => mention cands name
  | _ => ∅

def receiver (isolated : Bool) (name method : String) : Finset String :=
  if name ∈ cands ∧ (isolated = true ∨ method ∉ headIndexMethods) then {name} else ∅

mutual

def walkBlock (isolated : Bool) : Block → Finset String
  | .mk stmts finalExpr => walkBlockStmts isolated stmts ∪ walkOption isolated finalExpr

def walkBlockStmts (isolated : Bool) : List Stmt → Finset String
  | [] => ∅
  | s :: rest => walkStmtChildren isolated s ∪ assigned cands s ∪ walkBlockStmts isolated rest

def walkStmtChildren (isolated : Bool) : Stmt → Finset String
  | .letStmt _ _ value => walkExpr isolated value
  | .expr e => walkExpr isolated e
  | .letElse _ value elseBlock => walkExpr isolated value ∪ blk isolated elseBlock
  | .letUninit _ _ => ∅
  | .defer body => blk isolated body
  | .errDefer _ body => blk isolated body
  | .assign target value => walkExpr isolated target ∪ walkExpr isolated value
  | .compoundAssign target _ value => walkExpr isolated target ∪ walkExpr isolated value

/-- The children of a block, without the check of its assignments. -/
def blk (isolated : Bool) : Block → Finset String
  | .mk stmts finalExpr => blkStmts isolated stmts ∪ walkOption isolated finalExpr

def blkStmts (isolated : Bool) : List Stmt → Finset String
  | [] => ∅
  | s :: rest => walkStmtChildren isolated s ∪ blkStmts isolated rest

def walkOption (isolated : Bool) : Option Expr → Finset String
  | none => ∅
  | some e => walkExpr isolated e

def walkExprs (isolated : Bool) : List Expr → Finset String
  | [] => ∅
  | e :: rest => walkExpr isolated e ∪ walkExprs isolated rest

def walkArgs (isolated : Bool) : List CallArg → Finset String
  | [] => ∅
  | .mk _ _ value :: rest => walkExpr isolated value ∪ walkArgs isolated rest

def walkChainArgs (isolated : Bool) : Option (List CallArg) → Finset String
  | none => ∅
  | some args => walkArgs isolated args

def walkArms (isolated : Bool) : List MatchArm → Finset String
  | [] => ∅
  | .mk _ guard body :: rest => walkOption isolated guard ∪ walkExpr isolated body ∪ walkArms isolated rest

def walkParts (isolated : Bool) : List InterpolationPart → Finset String
  | [] => ∅
  | .text _ :: rest => walkParts isolated rest
  | .expr e :: rest => walkExpr isolated e ∪ walkParts isolated rest

def walkPairs (isolated : Bool) : List (Expr × Expr) → Finset String
  | [] => ∅
  | (k, v) :: rest => walkExpr isolated k ∪ walkExpr isolated v ∪ walkPairs isolated rest

def walkFields (isolated : Bool) : List FieldInit → Finset String
  | [] => ∅
  | .mk _ value :: rest => walkExpr isolated value ∪ walkFields isolated rest

def walkBindings (isolated : Bool) : List ProviderBinding → Finset String
  | [] => ∅
  | .mk _ value :: rest => walkExpr isolated value ∪ walkBindings isolated rest

/-- `f_expr_block` -/
def exprBlock (isolated : Bool) : Expr → Finset String
  | .block b => walkBlock isolated b
  | _ => ∅

def optionBlock (isolated : Bool) : Option Expr → Finset String
  | none => ∅
  | some e => exprBlock isolated e

def armBlocks (isolated : Bool) : List MatchArm → Finset String
  | [] => ∅
  | .mk _ _ body :: rest => exprBlock isolated body ∪ armBlocks isolated rest

def walkExpr (isolated : Bool) : Expr → Finset String
  | .methodCall (.identifier name) method args => receiver cands isolated name method ∪ walkArgs isolated args
  | .methodCall object _ args => walkExpr isolated object ∪ walkArgs isolated args
  | .identifier name => mention cands name
  -- the queue would be copied to another frame or task
  | .closure _ _ body => exprBlock true body ∪ walkExpr true body
  | .par b => walkBlock true b ∪ blk true b
  | .block b => walkBlock isolated b ∪ blk isolated b
  | .loop _ body => walkBlock isolated body ∪ blk isolated body
  | .ifThen condition thenBlock elseBranch =>
    walkBlock isolated thenBlock ∪ optionBlock isolated elseBranch ∪
      (walkExpr isolated condition ∪ blk isolated thenBlock ∪ walkOption isolated elseBranch)
  | .ifLet _ value thenBlock elseBranch =>
    walkBlock isolated thenBlock ∪ optionBlock isolated elseBranch ∪
      (walkExpr isolated value ∪ blk isolated thenBlock ∪ walkOption isolated elseBranch)
  | .whileLoop _ condition body => walkBlock isolated body ∪ (walkExpr isolated condition ∪ blk isolated body)
  | .forLoop _ _ iterable body => walkBlock isolated body ∪ (walkExpr isolated iterable ∪ blk isolated body)
  | .matchOn scrutinee arms => armBlocks isolated arms ∪ (walkExpr isolated scrutinee ∪ walkArms isolated arms)
  | .interpolatedStringLit parts => walkParts isolated parts
  | .binary _ left right => walkExpr isolated left ∪ walkExpr isolated right
  | .nilCoalesce left right => walkExpr isolated left ∪ walkExpr isolated right
  | .pipe left right => walkExpr isolated left ∪ walkExpr isolated right
  | .unary _ operand => walkExpr isolated operand
  | .question inner => walkExpr isolated inner
  | .cast e => walkExpr isolated e
  | .fieldAccess object _ => walkExpr isolated object
  | .tupleIndex object _ => walkExpr isolated object
  | .index object index => walkExpr isolated object ∪ walkExpr isolated index
  | .call callee args => walkExpr isolated callee ∪ walkArgs isolated args
  | .optionalChain object _ args => walkExpr isolated object ∪ walkChainArgs isolated args
  | .comptime b => blk isolated b
  | .unsafeBlock b => blk isolated b
  | .tryBlock b => blk isolated b
  | .seq b => blk isolated b
  | .labeledBlock _ body => blk isolated body
  | .whileLet _ _ value body => walkExpr isolated value ∪ blk isolated body
  | .returnExpr value => walkOption isolated value
  | .breakExpr _ value => walkOption isolated value
  | .tuple elems => walkExprs isolated elems
  | .arrayLiteral elems => walkExprs isolated elems
  | .prefixCollectionLiteral _ items => walkExprs isolated items
  | .repeatLiteral _ value count => walkExpr isolated value ∪ walkExpr isolated count
  | .mapLiteral pairs => walkPairs isolated pairs
  | .structLiteral _ fields spread => walkFields isolated fields ∪ walkOption isolated spread
  | .range start stop _ => walkOption isolated start ∪ walkOption isolated stop
  | .lock mutex _ body => (mutex.root.elim ∅ (mention cands)) ∪ blk isolated body
  | .providers bindings body => walkBindings isolated bindings ∪ blk isolated body
  | _ => ∅

end

end

def analyzeFn (f : FnDecl) : Finset String :=
  let candidates := (f.stmts.filterMap candidate).toFinset
  if candidates = ∅ then ∅ else candidates \ walkBlock candidates false f.body

def insertFn (out : String → Finset String) (f : FnDecl) : String → Finset String :=
  if analyzeFn f = ∅ then out else Function.update out f.name (analyzeFn f)

/-- The eligible names by the name of the function. `off` is the escape hatch of the environment. -/
def eligibleDequeLocals (off : Bool) (program : List FnDecl) : String → Finset String :=
  if off then fun _ => ∅ else program.foldl insertFn fun _ => ∅

/-! The uses of a name, and that the walk sees them all. -/

/-- A method of the name, perhaps in another frame or task, or anything else. -/
inductive Use
  | method (method : String) (isolated : Bool)
  | other

/-- What a node itself does with the name. -/
def ownUse (name : String) (isolated : Bool) : Node → Option Use
  | .expr (.methodCall (.identifier n) method _) => if n = name then some (.method method isolated) else none
  | .expr (.identifier n) => if n = name then some .other else none
  | .expr (.lock mutex _ _) => if mutex.root = some name then some .other else none
  | _ => none

/-- The parts of a node, but for the name whose method is called. -/
def usedParts (name : String) : Node → List Node
  | .expr (.methodCall (.identifier n) method args) =>
    if n = name then args.map .arg else exprChildren (.methodCall (.identifier n) method args)
  | n => n.children

def entersFrame : Node → Bool
  | .expr (.closure _ _ _) => true
  | .expr (.par _) => true
  | _ => false

inductive Used (name : String) : Bool → Node → Use → Prop
  | here {isolated : Bool} {n : Node} {u : Use} (h : ownUse name isolated n = some u) : Used name isolated n u
  | part {isolated : Bool} {n c : Node} {u : Use} (hc : c ∈ usedParts name n)
      (h : Used name (isolated || entersFrame n) c u) : Used name isolated n u

/-- A method of the rewrite, called in the function's own frame. -/
def Use.Plain (u : Use) : Prop := ∃ method ∈ headIndexMethods, u = .method method false

section

variable {cands : Finset String} {name : String} {isolated : Bool}

def walkNode (cands : Finset String) (isolated : Bool) : Node → Finset String
  | .expr e => walkExpr cands isolated e
  | .stmt s => walkStmtChildren cands isolated s
  | .block b => blk cands isolated b
  | .arg a => walkExpr cands isolated a.value
  | .arm a => walkOption cands isolated a.guard ∪ walkExpr cands isolated a.body

def walkNodes (cands : Finset String) (isolated : Bool) : List Node → Finset String
  | [] => ∅
  | n :: rest => walkNode cands isolated n ∪ walkNodes cands isolated rest

theorem mem_walkNodes {l : List Node} :
    name ∈ walkNodes cands isolated l ↔ ∃ n ∈ l, name ∈ walkNode cands isolated n :=
  mem_walk rfl fun _ _ => rfl

theorem walkNodes_append (l m : List Node) :
    walkNodes cands isolated (l ++ m) = walkNodes cands isolated l ∪ walkNodes cands isolated m := by
  induction l with
  | nil => simp [walkNodes]
  | cons n rest ih => simp [walkNodes, ih, Finset.union_assoc]

/-- A walk of a list of parts is the walk of their nodes. -/
theorem eq_walkNodes {α : Type} {walk : List α → Finset String} {nodes : α → List Node} (hnil : walk [] = ∅)
    (hcons : ∀ x l, walk (x :: l) = walkNodes cands isolated (nodes x) ∪ walk l) (l : List α) :
    walk l = walkNodes cands isolated (l.flatMap nodes) := by
  ext name
  simp only [mem_walk hnil hcons, mem_walkNodes, List.mem_flatMap]
  constructor
  · rintro ⟨x, hx, n, hn, hname⟩
    exact ⟨n, ⟨x, hx, hn⟩, hname⟩
  · rintro ⟨n, ⟨x, hx, hn⟩, hname⟩
    exact ⟨x, hx, n, hn, hname⟩

theorem eq_walkNodes_map {α : Type} {walk : List α → Finset String} {node : α → Node} (hnil : walk [] = ∅)
    (hcons : ∀ x l, walk (x :: l) = walkNode cands isolated (node x) ∪ walk l) (l : List α) :
    walk l = walkNodes cands isolated (l.map node) := by
  have hnodes : ∀ x l, walk (x :: l) = walkNodes cands isolated [node x] ∪ walk l := by
    intro x l
    simp [hcons, walkNodes]
  rw [eq_walkNodes hnil hnodes, List.map_eq_flatMap]

theorem blkStmts_eq (l : List Stmt) : blkStmts cands isolated l = walkNodes cands isolated (l.map .stmt) :=
  eq_walkNodes_map rfl (fun _ _ => rfl) l

theorem walkOption_eq (o : Option Expr) :
    walkOption cands isolated o = walkNodes cands isolated (o.toList.map .expr) := by
  cases o with
  | none => rfl
  | some e => simp [walkOption, walkNodes, walkNode]

theorem walkExprs_eq (l : List Expr) : walkExprs cands isolated l = walkNodes cands isolated (l.map .expr) :=
  eq_walkNodes_map rfl (fun _ _ => rfl) l

theorem walkArgs_eq (l : List CallArg) : walkArgs cands isolated l = walkNodes cands isolated (l.map .arg) :=
  eq_walkNodes_map rfl (fun a _ => by cases a; rfl) l

theorem walkChainArgs_eq (o : Option (List CallArg)) :
    walkChainArgs cands isolated o = walkNodes cands isolated ((o.getD []).map .arg) := by
  cases o with
  | none => rfl
  | some args => exact walkArgs_eq args

theorem walkArms_eq (l : List MatchArm) : walkArms cands isolated l = walkNodes cands isolated (l.map .arm) :=
  eq_walkNodes_map rfl (fun a _ => by cases a; rfl) l

theorem walkParts_eq (l : List InterpolationPart) :
    walkParts cands isolated l = walkNodes cands isolated (l.flatMap interpolatedNodes) := by
  apply eq_walkNodes rfl
  intro part l
  cases part <;> simp [walkParts, interpolatedNodes, walkNodes, walkNode]

theorem walkPairs_eq (l : List (Expr × Expr)) :
    walkPairs cands isolated l = walkNodes cands isolated (l.flatMap fun p => [.expr p.1, .expr p.2]) := by
  apply eq_walkNodes rfl
  intro pair l
  simp [walkPairs, walkNodes, walkNode]

theorem walkFields_eq (l : List FieldInit) :
    walkFields cands isolated l = walkNodes cands isolated (l.map fun f => .expr f.value) :=
  eq_walkNodes_map rfl (fun field _ => by cases field; rfl) l

theorem walkBindings_eq (l : List ProviderBinding) :
    walkBindings cands isolated l = walkNodes cands isolated (l.map fun b => .expr b.value) :=
  eq_walkNodes_map rfl (fun binding _ => by cases binding; rfl) l

theorem blk_eq (b : Block) : blk cands isolated b = walkNodes cands isolated (Node.block b).children := by
  cases b with
  | mk stmts finalExpr =>
    rw [blk, blkStmts_eq, walkOption_eq, ← walkNodes_append]
    rfl

theorem not_mem_mention {n : String} (h : n ≠ name) : name ∉ mention cands n := by
  unfold mention
  split
  · exact fun hmem => h (Finset.mem_singleton.mp hmem).symm
  · exact Finset.notMem_empty name

/-- What the walk finds in a part it finds in the expression. -/
theorem mem_walkExpr_of_parts (e : Expr)
    (h : name ∈ walkNodes cands (isolated || entersFrame (.expr e)) (usedParts name (.expr e))) :
    name ∈ walkExpr cands isolated e := by
  revert h
  cases e with
  | methodCall object method args =>
    cases object with
    | identifier n =>
      by_cases hn : n = name
      · simpa [walkExpr, usedParts, hn, entersFrame, walkArgs_eq] using Or.inr
      · simpa [walkExpr, usedParts, hn, entersFrame, walkArgs_eq, exprChildren, walkNodes, walkNode,
          not_mem_mention hn] using Or.inr
    | _ => simp [walkExpr, usedParts, entersFrame, walkArgs_eq, Node.children, exprChildren, walkNodes, walkNode]
  | _ => simp [walkExpr, usedParts, entersFrame, Node.children, exprChildren, walkNodes, walkNode, walkNodes_append,
      walkOption_eq, walkExprs_eq, walkArgs_eq, walkChainArgs_eq, walkArms_eq, walkParts_eq, walkPairs_eq,
      walkFields_eq, walkBindings_eq] <;> tauto

/-- What the walk finds in a part it finds in the node. -/
theorem mem_walkNode_of_part {n c : Node} (hc : c ∈ usedParts name n)
    (h : name ∈ walkNode cands (isolated || entersFrame n) c) : name ∈ walkNode cands isolated n := by
  have hparts : name ∈ walkNodes cands (isolated || entersFrame n) (usedParts name n) := mem_walkNodes.mpr ⟨c, hc, h⟩
  cases n with
  | expr e => exact mem_walkExpr_of_parts e hparts
  | stmt s =>
    revert hparts
    cases s <;>
      simp [walkNode, walkNodes, walkStmtChildren, usedParts, entersFrame, Node.children, stmtChildren, blk_eq]
  | block b => simpa [walkNode, usedParts, entersFrame, blk_eq] using hparts
  | arg a => simpa [walkNode, walkNodes, usedParts, entersFrame, Node.children] using hparts
  | arm a =>
    simpa [walkNode, walkNodes, walkNodes_append, walkOption_eq, usedParts, entersFrame, Node.children] using hparts

theorem mem_receiver {method : String} (hname : name ∈ cands) (h : ¬(Use.method method isolated).Plain) :
    name ∈ receiver cands isolated name method := by
  have hbad : isolated = true ∨ method ∉ headIndexMethods := by
    by_contra hnot
    obtain ⟨hisolated, hmethod⟩ := not_or.mp hnot
    rw [Bool.not_eq_true] at hisolated
    exact h ⟨method, not_not.mp hmethod, by rw [hisolated]⟩
  rw [receiver, if_pos ⟨hname, hbad⟩]
  exact Finset.mem_singleton_self name

theorem mem_mention (hname : name ∈ cands) : name ∈ mention cands name := by
  rw [mention, if_pos hname]
  exact Finset.mem_singleton_self name

/-- The walk finds a name with another use. -/
theorem mem_walkNode_of_used {n : Node} {u : Use} (h : Used name isolated n u) (hname : name ∈ cands) (hu : ¬u.Plain) :
    name ∈ walkNode cands isolated n := by
  induction h with
  | here h =>
    unfold ownUse at h
    split at h
    · split at h
      · rename_i hn
        subst hn
        cases h
        exact Finset.mem_union_left _ (mem_receiver hname hu)
      · cases h
    · split at h
      · rename_i hn
        subst hn
        exact mem_mention hname
      · cases h
    · split at h
      · rename_i hroot
        simp [walkNode, walkExpr, hroot, mem_mention hname]
      · cases h
    · cases h
  | part hc _ ih => exact mem_walkNode_of_part hc (ih hu)

theorem walkNode_subset_walkBlock (b : Block) : walkNode cands isolated (.block b) ⊆ walkBlock cands isolated b := by
  cases b with
  | mk stmts finalExpr =>
    have hstmts : blkStmts cands isolated stmts ⊆ walkBlockStmts cands isolated stmts := by
      induction stmts with
      | nil => exact Finset.Subset.refl _
      | cons s rest ih => exact Finset.union_subset_union Finset.subset_union_left ih
    exact Finset.union_subset_union hstmts (Finset.Subset.refl _)

/-- An eligible name has a candidate's `let`, and all its uses are plain. -/
theorem of_mem_analyzeFn {f : FnDecl} (h : name ∈ analyzeFn f) :
    (∃ s ∈ f.stmts, candidate s = some name) ∧ ∀ u, Used name false (.block f.body) u → u.Plain := by
  simp only [analyzeFn] at h
  split at h
  · exact absurd h (Finset.notMem_empty name)
  · obtain ⟨hcand, hnot⟩ := Finset.mem_sdiff.mp h
    refine ⟨by simpa using hcand, fun u hu => ?_⟩
    by_contra hplain
    exact hnot (walkNode_subset_walkBlock f.body (mem_walkNode_of_used hu hcand hplain))

end

end Karac.Codegen
