import Karac.Ast.Nodes
import Karac.Concurrency.Groups

/-! Early exits of statements: the walker that keeps a statement out of the parallel groups, and the exits
that it misses. -/

namespace Karac.Concurrency

open Ast

/-! The walker. -/

/-- `process.exit` -/
def isProcessExit (object : Expr) (method : String) : Bool :=
  decide (method = "exit") && match object with
    | .identifier name => decide (name = "process")
    | _ => false

mutual

def stmtExits (loopJumps : Bool) : Stmt → Bool
  | .letStmt _ _ value => exprExits loopJumps value
  | .assign _ value => exprExits loopJumps value
  | .compoundAssign _ _ value => exprExits loopJumps value
  | .expr value => exprExits loopJumps value
  | .letElse _ value elseBlock => exprExits loopJumps value || blockExits loopJumps elseBlock
  | .defer body => blockExits loopJumps body
  | .errDefer _ body => blockExits loopJumps body
  | .letUninit _ _ => false

def blockExits (loopJumps : Bool) : Block → Bool
  | .mk stmts finalExpr => stmtsExit loopJumps stmts || optionExits loopJumps finalExpr

def stmtsExit (loopJumps : Bool) : List Stmt → Bool
  | [] => false
  | s :: rest => stmtExits loopJumps s || stmtsExit loopJumps rest

def optionExits (loopJumps : Bool) : Option Expr → Bool
  | none => false
  | some e => exprExits loopJumps e

def exprsExit (loopJumps : Bool) : List Expr → Bool
  | [] => false
  | e :: rest => exprExits loopJumps e || exprsExit loopJumps rest

def argExits (loopJumps : Bool) : CallArg → Bool
  | .mk _ _ value => exprExits loopJumps value

def argsExit (loopJumps : Bool) : List CallArg → Bool
  | [] => false
  | a :: rest => argExits loopJumps a || argsExit loopJumps rest

def armExits (loopJumps : Bool) : MatchArm → Bool
  | .mk _ _ body => exprExits loopJumps body

def armsExit (loopJumps : Bool) : List MatchArm → Bool
  | [] => false
  | a :: rest => armExits loopJumps a || armsExit loopJumps rest

def exprExits (loopJumps : Bool) : Expr → Bool
  | .returnExpr _ => true
  | .breakExpr _ _ => loopJumps
  | .continueExpr _ => loopJumps
  | .question _ => true
  | .block b => blockExits loopJumps b
  | .ifThen condition thenBlock elseBranch =>
    exprExits loopJumps condition || blockExits loopJumps thenBlock || optionExits loopJumps elseBranch
  | .ifLet _ value thenBlock elseBranch =>
    exprExits loopJumps value || blockExits loopJumps thenBlock || optionExits loopJumps elseBranch
  | .matchOn scrutinee arms => exprExits loopJumps scrutinee || armsExit loopJumps arms
  | .whileLoop _ condition body => exprExits loopJumps condition || blockExits loopJumps body
  | .forLoop _ _ iterable body => exprExits loopJumps iterable || blockExits loopJumps body
  | .loop _ body => blockExits loopJumps body
  | .binary _ left right => exprExits loopJumps left || exprExits loopJumps right
  | .pipe left right => exprExits loopJumps left || exprExits loopJumps right
  | .nilCoalesce left right => exprExits loopJumps left || exprExits loopJumps right
  | .unary _ operand => exprExits loopJumps operand
  | .call callee args => exprExits loopJumps callee || argsExit loopJumps args
  | .methodCall object method args =>
    isProcessExit object method || exprExits loopJumps object || argsExit loopJumps args
  | .fieldAccess object _ => exprExits loopJumps object
  | .tupleIndex object _ => exprExits loopJumps object
  | .index object index => exprExits loopJumps object || exprExits loopJumps index
  | .tuple elems => exprsExit loopJumps elems
  | _ => false

end

def stmtHasEarlyExit (s : Stmt) : Bool := stmtExits true s

/-! The exits of a statement. -/

/-- What a part of a node adds to the targets of the jumps in it. -/
inductive Place
  | plain
  | loopBody (label : Option String)
  | labeled (label : String)
  | tryBody

/-- A part that is evaluated with a node, and whether the walker looks at it. -/
structure Part where
  node : Node
  seen : Bool
  place : Place := .plain

def seenExpr (e : Expr) : Part := ⟨.expr e, true, .plain⟩

def seenBlock (b : Block) : Part := ⟨.block b, true, .plain⟩

def missedExpr (e : Expr) : Part := ⟨.expr e, false, .plain⟩

def missedBlock (b : Block) : Part := ⟨.block b, false, .plain⟩

def seenArg (a : CallArg) : Part := ⟨.arg a, true, .plain⟩

def missedArg (a : CallArg) : Part := ⟨.arg a, false, .plain⟩

def seenArm (a : MatchArm) : Part := ⟨.arm a, true, .plain⟩

def interpolated : InterpolationPart → List Part
  | .text _ => []
  | .expr e => [missedExpr e]

/-- What is evaluated with an expression. The body of a closure is not, and a `comptime` block is evaluated by
the compiler. -/
def exprParts : Expr → List Part
  | .interpolatedStringLit parts => parts.flatMap interpolated
  | .binary _ left right => [seenExpr left, seenExpr right]
  | .unary _ operand => [seenExpr operand]
  | .question inner => [missedExpr inner]
  | .optionalChain object _ args => missedExpr object :: (args.getD []).map missedArg
  | .nilCoalesce left right => [seenExpr left, seenExpr right]
  | .call callee args => seenExpr callee :: args.map seenArg
  | .methodCall object _ args => seenExpr object :: args.map seenArg
  | .fieldAccess object _ => [seenExpr object]
  | .tupleIndex object _ => [seenExpr object]
  | .index object index => [seenExpr object, seenExpr index]
  | .block b => [seenBlock b]
  | .ifThen condition thenBlock elseBranch =>
    seenExpr condition :: seenBlock thenBlock :: elseBranch.toList.map seenExpr
  | .ifLet _ value thenBlock elseBranch => seenExpr value :: seenBlock thenBlock :: elseBranch.toList.map seenExpr
  | .matchOn scrutinee arms => seenExpr scrutinee :: arms.map seenArm
  | .whileLoop label condition body => [seenExpr condition, ⟨.block body, true, .loopBody label⟩]
  | .whileLet label _ value body => [missedExpr value, ⟨.block body, false, .loopBody label⟩]
  | .forLoop label _ iterable body => [seenExpr iterable, ⟨.block body, true, .loopBody label⟩]
  | .loop label body => [⟨.block body, true, .loopBody label⟩]
  | .labeledBlock label body => [⟨.block body, false, .labeled label⟩]
  | .returnExpr value => value.toList.map missedExpr
  | .breakExpr _ value => value.toList.map missedExpr
  | .tuple elems => elems.map seenExpr
  | .arrayLiteral elems => elems.map missedExpr
  | .prefixCollectionLiteral _ items => items.map missedExpr
  | .repeatLiteral _ value count => [missedExpr value, missedExpr count]
  | .mapLiteral pairs => pairs.flatMap fun p => [missedExpr p.1, missedExpr p.2]
  | .structLiteral _ fields spread => (fields.map fun f => missedExpr f.value) ++ spread.toList.map missedExpr
  | .pipe left right => [seenExpr left, seenExpr right]
  | .cast e => [missedExpr e]
  | .range start stop _ => start.toList.map missedExpr ++ stop.toList.map missedExpr
  | .unsafeBlock body => [missedBlock body]
  | .tryBlock body => [⟨.block body, false, .tryBody⟩]
  | .seq body => [missedBlock body]
  | .par body => [missedBlock body]
  | .lock _ _ body => [missedBlock body]
  | .providers bindings body => (bindings.map fun b => missedExpr b.value) ++ [missedBlock body]
  | _ => []

def stmtParts : Stmt → List Part
  | .letStmt _ _ value => [seenExpr value]
  | .letUninit _ _ => []
  | .letElse _ value elseBlock => [seenExpr value, seenBlock elseBlock]
  | .defer body => [seenBlock body]
  | .errDefer _ body => [seenBlock body]
  | .assign target value => [missedExpr target, seenExpr value]
  | .compoundAssign target _ value => [missedExpr target, seenExpr value]
  | .expr e => [seenExpr e]

def parts : Node → List Part
  | .expr e => exprParts e
  | .stmt s => stmtParts s
  | .block b => (b.stmts.map fun s => ⟨.stmt s, true, .plain⟩) ++ b.finalExpr.toList.map seenExpr
  | .arg a => [seenExpr a.value]
  | .arm a => a.guard.toList.map missedExpr ++ [seenExpr a.body]

/-- What the jumps in a part can reach without leaving the statement. -/
structure Targets where
  inLoop : Bool := false
  labels : List String := []
  inTry : Bool := false

def Place.enter (t : Targets) : Place → Targets
  | .plain => t
  | .loopBody label => { t with inLoop := true, labels := label.toList ++ t.labels }
  | .labeled label => { t with labels := label :: t.labels }
  | .tryBody => { t with inTry := true }

def leavesLoop (t : Targets) : Option String → Prop
  | none => t.inLoop = false
  | some label => label ∉ t.labels

/-- A `return`, a `?`, or a `break` or `continue` whose target is not in the statement. -/
def IsExit (t : Targets) : Node → Prop
  | .expr (.returnExpr _) => True
  | .expr (.question _) => t.inTry = false
  | .expr (.breakExpr label _) => leavesLoop t label
  | .expr (.continueExpr label) => leavesLoop t label
  | _ => False

/-- Some expression evaluated with the node leaves the statement. -/
inductive Leaves : Targets → Node → Prop
  | here {t : Targets} {n : Node} (h : IsExit t n) : Leaves t n
  | part {t : Targets} {n : Node} {p : Part} (hp : p ∈ parts n) (h : Leaves (p.place.enter t) p.node) : Leaves t n

/-- Any jump, or a call that ends the process. -/
def isJump : Node → Bool
  | .expr (.returnExpr _) => true
  | .expr (.question _) => true
  | .expr (.breakExpr _ _) => true
  | .expr (.continueExpr _) => true
  | .expr (.methodCall object method _) => isProcessExit object method
  | _ => false

/-- A jump with no missed part above it. -/
inductive Seen : Node → Prop
  | here {n : Node} (h : isJump n = true) : Seen n
  | part {n : Node} {p : Part} (hp : p ∈ parts n) (hseen : p.seen = true) (h : Seen p.node) : Seen n

def nodeExits : Node → Bool
  | .expr e => exprExits true e
  | .stmt s => stmtExits true s
  | .block b => blockExits true b
  | .arg a => argExits true a
  | .arm a => armExits true a

theorem stmtsExit_eq (l : List Stmt) : stmtsExit true l = l.any (stmtExits true) :=
  walk_eq_any rfl (fun _ _ => rfl) l

theorem optionExits_eq (o : Option Expr) : optionExits true o = o.toList.any (exprExits true) := by
  cases o with
  | none => rfl
  | some e => simp [optionExits]

theorem exprsExit_eq (l : List Expr) : exprsExit true l = l.any (exprExits true) :=
  walk_eq_any rfl (fun _ _ => rfl) l

theorem argsExit_eq (l : List CallArg) : argsExit true l = l.any (argExits true) :=
  walk_eq_any rfl (fun _ _ => rfl) l

theorem armsExit_eq (l : List MatchArm) : armsExit true l = l.any (armExits true) :=
  walk_eq_any rfl (fun _ _ => rfl) l

/-- What a part adds to the walker's answer. -/
def partExits (p : Part) : Bool := p.seen && nodeExits p.node

@[simp] theorem partExits_seenExpr (e : Expr) : partExits (seenExpr e) = exprExits true e := rfl

@[simp] theorem partExits_seenArg (a : CallArg) : partExits (seenArg a) = argExits true a := rfl

@[simp] theorem partExits_seenArm (a : MatchArm) : partExits (seenArm a) = armExits true a := rfl

@[simp] theorem partExits_seenStmt (s : Stmt) (place : Place) :
    partExits ⟨.stmt s, true, place⟩ = stmtExits true s := rfl

@[simp] theorem partExits_seenBlock (b : Block) (place : Place) :
    partExits ⟨.block b, true, place⟩ = blockExits true b := rfl

@[simp] theorem partExits_missed (n : Node) (place : Place) : partExits ⟨n, false, place⟩ = false := rfl

@[simp] theorem partExits_missedExpr (e : Expr) : partExits (missedExpr e) = false := rfl

@[simp] theorem partExits_missedArg (a : CallArg) : partExits (missedArg a) = false := rfl

@[simp] theorem partExits_interpolated (part : InterpolationPart) : (interpolated part).any partExits = false := by
  cases part <;> rfl

@[simp] theorem any_missed (l : List Expr) : (l.map missedExpr).any partExits = false := by
  induction l with
  | nil => rfl
  | cons e rest ih => rw [List.map_cons, List.any_cons, ih, partExits_missedExpr, Bool.or_false]

theorem any_flatMap_missed {α : Type} {f : α → List Part} (hf : ∀ x, (f x).any partExits = false) (l : List α) :
    (l.flatMap f).any partExits = false := by
  rw [List.any_flatMap]
  exact List.any_eq_false.mpr fun x _ => by simp [hf x]

/-- The walker sees an expression that is a jump, and looks at the parts that are not missed. -/
theorem exprExits_eq (e : Expr) : exprExits true e = (isJump (.expr e) || (exprParts e).any partExits) := by
  cases e with
  | interpolatedStringLit l =>
    unfold exprParts
    rw [any_flatMap_missed partExits_interpolated]
    rfl
  | mapLiteral l =>
    unfold exprParts
    rw [any_flatMap_missed fun _ => rfl]
    rfl
  | structLiteral path fields spread =>
    unfold exprParts
    rw [List.any_append, any_missed, List.any_map]
    simp [exprExits, isJump, Function.comp_def]
  | _ => simp [exprExits, isJump, exprParts, seenBlock, missedBlock, optionExits_eq, argsExit_eq, exprsExit_eq,
      armsExit_eq, Bool.or_assoc, Function.comp_def]

theorem nodeExits_eq (n : Node) : nodeExits n = (isJump n || (parts n).any partExits) := by
  cases n with
  | expr e => exact exprExits_eq e
  | stmt s => cases s <;> simp [nodeExits, parts, stmtParts, isJump, stmtExits, seenBlock]
  | block b =>
    cases b with
    | mk stmts finalExpr =>
      simp [nodeExits, parts, isJump, blockExits, stmtsExit_eq, optionExits_eq, Block.stmts, Block.finalExpr,
        Function.comp_def]
  | arg a =>
    cases a with
    | mk label mutMarker value => simp [nodeExits, parts, isJump, argExits, CallArg.value]
  | arm a =>
    cases a with
    | mk pattern guard body => simp [nodeExits, parts, isJump, armExits, MatchArm.guard, MatchArm.body]

/-! The walker answers true exactly when it reaches a jump. -/

theorem nodes_interpolated (part : InterpolationPart) : (interpolated part).map Part.node = interpolatedNodes part := by
  cases part <;> rfl

theorem nodes_exprParts (e : Expr) : (exprParts e).map Part.node ⊆ exprChildren e := by
  cases e with
  | closure params captureMode body => exact List.nil_subset _
  | comptime b => exact List.nil_subset _
  | interpolatedStringLit l =>
    unfold exprParts
    rw [List.map_flatMap, funext nodes_interpolated]
    exact List.Subset.refl _
  | _ => simp [exprParts, exprChildren, List.map_flatMap, seenExpr, missedExpr, seenBlock, missedBlock, seenArg,
      missedArg, seenArm, Function.comp_def]

/-- The parts of a node are among its children. -/
theorem node_of_part {n : Node} {p : Part} (hp : p ∈ parts n) : p.node ∈ n.children := by
  have hnode : p.node ∈ (parts n).map Part.node := List.mem_map_of_mem hp
  cases n with
  | expr e => exact nodes_exprParts e hnode
  | stmt s =>
    cases s with
    | letUninit isMut name => cases hp
    | _ => simpa [parts, stmtParts, Node.children, stmtChildren, seenExpr, missedExpr, seenBlock] using hnode
  | block b => simpa [parts, Node.children, seenExpr, Function.comp_def] using hnode
  | arg a => simpa [parts, Node.children, seenExpr] using hnode
  | arm a => simpa [parts, Node.children, seenExpr, missedExpr, Function.comp_def] using hnode

theorem seen_of_nodeExits (n : Node) (h : nodeExits n = true) : Seen n := by
  rw [nodeExits_eq, Bool.or_eq_true] at h
  rcases h with hjump | hany
  · exact Seen.here hjump
  · obtain ⟨p, hp, hexits⟩ := List.any_eq_true.mp hany
    obtain ⟨hseen, hnode⟩ := Bool.and_eq_true_iff.mp hexits
    have hlt := below_children n p.node (node_of_part hp)
    exact Seen.part hp hseen (seen_of_nodeExits p.node hnode)
termination_by n.size

theorem nodeExits_of_seen {n : Node} (h : Seen n) : nodeExits n = true := by
  induction h with
  | here hjump => rw [nodeExits_eq, hjump, Bool.true_or]
  | part hp hseen _ ih =>
    rw [nodeExits_eq, Bool.or_eq_true]
    right
    apply List.any_eq_true.mpr
    exact ⟨_, hp, Bool.and_eq_true_iff.mpr ⟨hseen, ih⟩⟩

theorem stmtHasEarlyExit_iff_seen (s : Stmt) : stmtHasEarlyExit s = true ↔ Seen (.stmt s) :=
  ⟨seen_of_nodeExits (.stmt s), nodeExits_of_seen⟩

/-! No statement with an early exit is in a parallel group. -/

/-- The `i`-th statement that the pass groups is `s`. -/
structure StmtAt (inp : GroupInput) (i : ℕ) (s : Stmt) : Prop where
  bound : i < inp.n
  hasEarlyExit : (inp.info i).hasEarlyExit = stmtHasEarlyExit s

theorem excluded_of_early_exit {inp : GroupInput} {i : ℕ} (h : (inp.info i).hasEarlyExit = true) :
    excluded inp i = true := by
  unfold excluded
  rw [h]
  simp

theorem early_exit_in_no_group {inp : GroupInput} {i : ℕ} (h : (inp.info i).hasEarlyExit = true)
    {g : ParallelGroup} (hg : g ∈ findParallelGroups inp) : i ∉ g.statementIndices := by
  intro hi
  obtain ⟨start, len, _, hinv, hindices⟩ := findParallelGroups_runs inp g hg
  rw [hindices, List.mem_range'_1] at hi
  have heligible := hinv.eligible i hi.1 hi.2
  rw [excluded_of_early_exit h] at heligible
  cases heligible

/-- If something evaluated with the statement leaves it, then the walker says so, and the statement is in no
group. -/
def EarlyExitDetected (s : Stmt) : Prop :=
  Leaves {} (.stmt s) → stmtHasEarlyExit s = true ∧
    ∀ inp i, StmtAt inp i s → ∀ g ∈ findParallelGroups inp, i ∉ g.statementIndices

/-- The walker misses the exits of a statement only when every jump in it is under a missed part. -/
theorem early_exit_detected_iff (s : Stmt) : EarlyExitDetected s ↔ (Leaves {} (.stmt s) → Seen (.stmt s)) := by
  constructor
  · intro hdetected hleaves
    exact (stmtHasEarlyExit_iff_seen s).mp (hdetected hleaves).1
  · intro hseen hleaves
    have hexits := (stmtHasEarlyExit_iff_seen s).mpr (hseen hleaves)
    refine ⟨hexits, ?_⟩
    intro inp i hat g hg
    exact early_exit_in_no_group (hat.hasEarlyExit.trans hexits) hg

/-- `let xs = [f()?];` -/
def questionInArray : Stmt :=
  .letStmt false (.binding "xs") (.arrayLiteral [.question (.call (.identifier "f") [])])

/-- The statement with another one that neither conflicts with it nor leaves. -/
def questionInArrayInput : GroupInput where
  infos := [{ hasEarlyExit := stmtHasEarlyExit questionInArray }, {}]
  graph := ⟨[∅, ∅]⟩
  containerLocals := ∅
  consumingHazardReads := []
  movingHazardReads := []
  enclosingFn := "main"

theorem question_in_array_leaves : Leaves {} (.stmt questionInArray) := by
  apply Leaves.part (p := seenExpr _) (List.mem_singleton_self _)
  apply Leaves.part (p := missedExpr _) (List.mem_singleton_self _)
  exact Leaves.here rfl

theorem question_in_array_missed : stmtHasEarlyExit questionInArray = false := by
  simp [stmtHasEarlyExit, questionInArray, stmtExits, exprExits]

theorem question_in_array_eligible (i : ℕ) : excluded questionInArrayInput i = false := by
  match i with
  | 0 => simp [excluded, hazardProducer, questionInArrayInput, GroupInput.info, effectsMarkCoroutineBoundary,
      question_in_array_missed, sortedNames]
  | 1 => simp [excluded, hazardProducer, questionInArrayInput, GroupInput.info, effectsMarkCoroutineBoundary,
      sortedNames]
  | n + 2 => simp [excluded, hazardProducer, questionInArrayInput, GroupInput.info, effectsMarkCoroutineBoundary,
      sortedNames]

theorem question_in_array_grouped :
    ∃ g ∈ findParallelGroups questionInArrayInput, g.statementIndices = [0, 1] := by
  have hn : questionInArrayInput.n = 2 := rfl
  have hindependent : questionInArrayInput.graph.conflicts 1 0 = false := rfl
  have hrec : isSelfRecursive questionInArrayInput [0, 1] = false := rfl
  refine ⟨mkParallelGroup questionInArrayInput [0, 1], ?_, rfl⟩
  simp [findParallelGroups, hn, List.range_succ, seedGroup, question_in_array_eligible, extendGroup, hindependent,
    hrec]

/-- The walker misses the `?` of `let xs = [f()?];`, and the statement is in a group with the next one. -/
theorem early_exit_not_detected : ¬ ∀ s, EarlyExitDetected s := by
  intro h
  have hat : StmtAt questionInArrayInput 0 questionInArray := ⟨Nat.zero_lt_two, rfl⟩
  obtain ⟨g, hg, hindices⟩ := question_in_array_grouped
  have hfree := (h questionInArray question_in_array_leaves).2 questionInArrayInput 0 hat g hg
  apply hfree
  rw [hindices]
  exact List.mem_cons_self

end Karac.Concurrency
