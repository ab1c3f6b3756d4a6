import Karac.Ast.Nodes

/-! The names that a block binds once, to an ASCII literal, and never writes: a loop over the characters of such a
string reads a byte for a character. The scan leaves out some kinds of expression. -/

namespace Karac.Codegen

open Ast

/-- The name at the root of an assignment target: `c` for `c`, `c.f`, `c[i]` and `c.0`. -/
def assignTargetRoot : Expr → Option String
  | .identifier name => some name
  | .fieldAccess object _ => assignTargetRoot object
  | .tupleIndex object _ => assignTargetRoot object
  | .index object _ => assignTargetRoot object
  | _ => none

def isAscii (s : String) : Bool := s.toList.all fun c => decide (c.val < 0x80)

/-- The names of qualifying `let`s, and the disqualified names. -/
structure Scan where
  asciiLets : Finset String := ∅
  poisoned : Finset String := ∅

namespace Scan

def poison (s : Scan) (name : String) : Scan := ⟨s.asciiLets.erase name, insert name s.poisoned⟩

def isAsciiLiteral : Option Expr → Bool
  | some (.stringLit literal) => isAscii literal
  | _ => false

def noteLet (s : Scan) (pattern : Pattern) (value : Option Expr) : Scan :=
  match pattern with
  | .binding name =>
    -- a second binding of the name is a shadow, and neither is a stable constant
    if name ∈ s.asciiLets ∨ isAsciiLiteral value = false then s.poison name
    else { s with asciiLets := insert name s.asciiLets }
  | _ => s

/-- `mut` before an argument. -/
def noteMarker (s : Scan) (mutMarker : Bool) (value : Expr) : Scan :=
  match mutMarker, assignTargetRoot value with
  | true, some root => s.poison root
  | _, _ => s

mutual

def block (s : Scan) : Block → Scan
  | .mk stmts finalExpr => option (stmtList s stmts) finalExpr

def stmtList (s : Scan) : List Stmt → Scan
  | [] => s
  | stmt :: rest => stmtList (stmtScan s stmt) rest

def stmtScan (s : Scan) : Stmt → Scan
  | .letStmt _ pattern value => (expr s value).noteLet pattern (some value)
  | .letElse pattern value elseBlock => (block (expr s value) elseBlock).noteLet pattern none
  | .letUninit _ name => s.poison name
  | .assign target value => expr (expr s target) value
  | .compoundAssign target _ value => expr (expr s target) value
  | .defer body => block s body
  | .errDefer _ body => block s body
  | .expr e => expr s e

def option (s : Scan) : Option Expr → Scan
  | none => s
  | some e => expr s e

def exprs (s : Scan) : List Expr → Scan
  | [] => s
  | e :: rest => exprs (expr s e) rest

def callArg (s : Scan) : CallArg → Scan
  | .mk _ mutMarker value => expr (s.noteMarker mutMarker value) value

def callArgs (s : Scan) : List CallArg → Scan
  | [] => s
  | a :: rest => callArgs (callArg s a) rest

def matchArm (s : Scan) : MatchArm → Scan
  | .mk _ guard body => expr (option s guard) body

def matchArms (s : Scan) : List MatchArm → Scan
  | [] => s
  | a :: rest => matchArms (matchArm s a) rest

def parts (s : Scan) : List InterpolationPart → Scan
  | [] => s
  | .text _ :: rest => parts s rest
  | .expr e :: rest => parts (expr s e) rest

def fields (s : Scan) : List FieldInit → Scan
  | [] => s
  | .mk _ value :: rest => fields (expr s value) rest

def expr (s : Scan) : Expr → Scan
  | .call callee args => callArgs (expr s callee) args
  | .methodCall object _ args => callArgs (expr s object) args
  | .interpolatedStringLit l => parts s l
  | .binary _ left right => expr (expr s left) right
  | .nilCoalesce left right => expr (expr s left) right
  | .pipe left right => expr (expr s left) right
  | .unary _ operand => expr s operand
  | .fieldAccess object _ => expr s object
  | .tupleIndex object _ => expr s object
  | .index object index => expr (expr s object) index
  | .block b => block s b
  | .comptime b => block s b
  | .unsafeBlock b => block s b
  | .tryBlock b => block s b
  | .par b => block s b
  | .seq b => block s b
  | .ifThen condition thenBlock elseBranch => option (block (expr s condition) thenBlock) elseBranch
  | .ifLet _ value thenBlock elseBranch => option (block (expr s value) thenBlock) elseBranch
  | .whileLoop _ condition body => block (expr s condition) body
  | .whileLet _ _ value body => block (expr s value) body
  | .loop _ body => block s body
  | .labeledBlock _ body => block s body
  | .forLoop _ _ iterable body => block (expr s iterable) body
  | .matchOn scrutinee arms => matchArms (expr s scrutinee) arms
  | .closure _ _ body => expr s body
  | .question inner => expr s inner
  | .cast inner => expr s inner
  | .lock _ _ body => block s body
  | .tuple items => exprs s items
  | .arrayLiteral items => exprs s items
  | .prefixCollectionLiteral _ items => exprs s items
  | .structLiteral _ inits spread => option (fields s inits) spread
  | _ => s

end

end Scan

/-- The names of stable ASCII constants. The names of assigned roots and of mutating receivers are collected by two
walks over the block. -/
def asciiConstStringLets (assignedRoots mutMethodReceiverRoots : Block → Finset String) (b : Block) : Finset String :=
  let scan := Scan.block {} b
  if scan.asciiLets = ∅ then ∅
  else scan.asciiLets \ (scan.poisoned ∪ assignedRoots b ∪ mutMethodReceiverRoots b)

/-! What the scan walks, and that it walks all of it. -/

/-- The catch-all arm leaves out the parts of seven kinds of expression. -/
def walkedParts : Expr → List Node
  | .optionalChain _ _ _ => []
  | .returnExpr _ => []
  | .breakExpr _ _ => []
  | .repeatLiteral _ _ _ => []
  | .mapLiteral _ => []
  | .range _ _ _ => []
  | .providers _ _ => []
  | e => exprChildren e

def walked : Node → List Node
  | .expr e => walkedParts e
  | n => n.children

/-- The scan of the second node comes to the first. -/
inductive Walked : Node → Node → Prop
  | refl (n : Node) : Walked n n
  | child {m c n : Node} (hc : c ∈ walked n) (h : Walked m c) : Walked m n

theorem walkedParts_subset (e : Expr) : walkedParts e ⊆ exprChildren e := by
  cases e <;> simp [walkedParts]

theorem walked_subset (n : Node) : walked n ⊆ n.children := by
  cases n with
  | expr e => exact walkedParts_subset e
  | _ => exact List.Subset.refl _

namespace Scan

def scanNode (s : Scan) : Node → Scan
  | .expr e => expr s e
  | .stmt stmt => stmtScan s stmt
  | .block b => block s b
  | .arg a => callArg s a
  | .arm a => matchArm s a

/-- What is noted before the parts of a node are walked. -/
def enter (s : Scan) : Node → Scan
  | .arg a => s.noteMarker a.mutMarker a.value
  | .stmt (.letUninit _ name) => s.poison name
  | _ => s

/-- What is noted after the parts of a node are walked. -/
def leave (s : Scan) : Node → Scan
  | .stmt (.letStmt _ pattern value) => s.noteLet pattern (some value)
  | .stmt (.letElse pattern _ _) => s.noteLet pattern none
  | _ => s

theorem stmtList_eq (l : List Stmt) : ∀ s, stmtList s l = l.foldl stmtScan s :=
  walk_eq_foldl (fun _ => rfl) (fun _ _ _ => rfl) l

theorem option_eq (s : Scan) (o : Option Expr) : option s o = o.toList.foldl expr s := by
  cases o <;> rfl

theorem exprs_eq (l : List Expr) : ∀ s, exprs s l = l.foldl expr s :=
  walk_eq_foldl (fun _ => rfl) (fun _ _ _ => rfl) l

theorem callArgs_eq (l : List CallArg) : ∀ s, callArgs s l = l.foldl callArg s :=
  walk_eq_foldl (fun _ => rfl) (fun _ _ _ => rfl) l

theorem matchArms_eq (l : List MatchArm) : ∀ s, matchArms s l = l.foldl matchArm s :=
  walk_eq_foldl (fun _ => rfl) (fun _ _ _ => rfl) l

theorem parts_eq (l : List InterpolationPart) (s : Scan) :
    parts s l = (l.flatMap interpolatedNodes).foldl scanNode s := by
  rw [List.foldl_flatMap]
  exact walk_eq_foldl (fun _ => rfl) (fun _ part _ => by cases part <;> rfl) l s

theorem fields_eq (l : List FieldInit) : ∀ s, fields s l = l.foldl (fun s f => expr s f.value) s :=
  walk_eq_foldl (fun _ => rfl) (fun _ field _ => by cases field; rfl) l

theorem expr_eq (s : Scan) (e : Expr) : expr s e = (walkedParts e).foldl scanNode s := by
  cases e with
  | interpolatedStringLit l => exact parts_eq l s
  | _ => simp [expr, walkedParts, exprChildren, scanNode, List.foldl_map, option_eq, exprs_eq, callArgs_eq,
      matchArms_eq, fields_eq]

/-- The scan of a node notes what the node asks for around the scan of its parts. -/
theorem scanNode_eq (s : Scan) (n : Node) : scanNode s n = leave ((walked n).foldl scanNode (enter s n)) n := by
  cases n with
  | expr e => exact expr_eq s e
  | stmt stmt => cases stmt <;> simp [scanNode, walked, enter, leave, Node.children, stmtChildren, stmtScan]
  | block b =>
    cases b with
    | mk stmts finalExpr =>
      simp [scanNode, walked, enter, leave, Node.children, block, Block.stmts, Block.finalExpr, List.foldl_map,
        stmtList_eq, option_eq]
  | arg a =>
    cases a with
    | mk label mutMarker value =>
      simp [scanNode, walked, enter, leave, Node.children, callArg, CallArg.value, CallArg.mutMarker]
  | arm a =>
    cases a with
    | mk pattern guard body =>
      simp [scanNode, walked, enter, leave, Node.children, matchArm, MatchArm.guard, MatchArm.body, List.foldl_map,
        option_eq]

/-! A disqualified name stays disqualified. -/

theorem poisoned_poison (s : Scan) (name : String) : s.poisoned ⊆ (s.poison name).poisoned :=
  Finset.subset_insert name s.poisoned

theorem poisoned_noteLet (s : Scan) (pattern : Pattern) (value : Option Expr) :
    s.poisoned ⊆ (s.noteLet pattern value).poisoned := by
  cases pattern with
  | binding name =>
    simp only [noteLet]
    split
    · exact poisoned_poison s name
    · exact Finset.Subset.refl _
  | _ => exact Finset.Subset.refl _

theorem poisoned_noteMarker (s : Scan) (mutMarker : Bool) (value : Expr) :
    s.poisoned ⊆ (s.noteMarker mutMarker value).poisoned := by
  unfold noteMarker
  split
  · exact poisoned_poison s _
  · exact Finset.Subset.refl _

theorem poisoned_enter (s : Scan) (n : Node) : s.poisoned ⊆ (enter s n).poisoned := by
  unfold enter
  split
  · exact poisoned_noteMarker s _ _
  · exact poisoned_poison s _
  · exact Finset.Subset.refl _

theorem poisoned_leave (s : Scan) (n : Node) : s.poisoned ⊆ (leave s n).poisoned := by
  unfold leave
  split
  · exact poisoned_noteLet s _ _
  · exact poisoned_noteLet s _ _
  · exact Finset.Subset.refl _

theorem poisoned_foldl {l : List Node} (hl : ∀ n ∈ l, ∀ s, s.poisoned ⊆ (scanNode s n).poisoned) :
    ∀ s, s.poisoned ⊆ (l.foldl scanNode s).poisoned := by
  induction l with
  | nil => exact fun s => Finset.Subset.refl _
  | cons n rest ih =>
    intro s
    obtain ⟨hn, hrest⟩ := List.forall_mem_cons.mp hl
    exact (hn s).trans (ih hrest (scanNode s n))

theorem poisoned_scanNode (n : Node) : ∀ s, s.poisoned ⊆ (scanNode s n).poisoned := by
  induction n using Node.childInduction with
  | h n ih =>
    intro s
    have hparts := poisoned_foldl (fun c hc => ih c (walked_subset n hc)) (enter s n)
    rw [scanNode_eq]
    exact (poisoned_enter s n).trans (hparts.trans (poisoned_leave _ n))

theorem poisoned_part {n c : Node} {name : String} (hc : c ∈ walked n)
    (h : ∀ s, name ∈ (scanNode s c).poisoned) (s : Scan) : name ∈ (scanNode s n).poisoned := by
  obtain ⟨before, after, hsplit⟩ := List.append_of_mem hc
  rw [scanNode_eq, hsplit, List.foldl_append, List.foldl_cons]
  apply poisoned_leave
  exact poisoned_foldl (fun m _ => poisoned_scanNode m) _ (h _)

/-- The root of a marked argument that the scan comes to is disqualified. -/
theorem poisoned_of_walked {a : CallArg} {n : Node} {name : String} (h : Walked (.arg a) n) (hmut : a.mutMarker = true)
    (hroot : assignTargetRoot a.value = some name) : ∀ s, name ∈ (scanNode s n).poisoned := by
  induction h with
  | refl =>
    intro s
    rw [scanNode_eq]
    apply poisoned_leave
    apply poisoned_foldl fun m _ => poisoned_scanNode m
    simp only [enter, noteMarker, hmut, hroot]
    exact Finset.mem_insert_self _ _
  | child hc _ ih => exact poisoned_part hc ih

end Scan

/-- A stable constant is not disqualified, and neither walk collects it. -/
theorem not_mem_of_mem_asciiConstStringLets {assignedRoots mutMethodReceiverRoots : Block → Finset String} {b : Block}
    {name : String} (h : name ∈ asciiConstStringLets assignedRoots mutMethodReceiverRoots b) :
    name ∉ (Scan.block {} b).poisoned ∧ name ∉ assignedRoots b ∧ name ∉ mutMethodReceiverRoots b := by
  simp only [asciiConstStringLets] at h
  split at h
  · exact absurd h (Finset.notMem_empty _)
  · obtain ⟨-, hnot⟩ := Finset.mem_sdiff.mp h
    simpa [not_or, and_assoc] using hnot

end Karac.Codegen
