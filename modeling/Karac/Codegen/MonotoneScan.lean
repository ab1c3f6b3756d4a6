import Karac.Ast.Nodes
import Karac.Lib.SortedMap

/-! The scan of a loop for monotone counters: names that are only written as `x = x + c` or only as `x = x - c`,
with `c` a literal. Any other write, alias or rebinding poisons the name. -/

namespace Karac.Codegen

open Ast Lib

inductive MonotoneDir
  | increasing | decreasing
  deriving DecidableEq

/-- The names with a recognized update and its direction, and the disqualified names. -/
structure MonotoneScan where
  dirs : SortedMap String MonotoneDir := .empty
  poisoned : List String := []

namespace MonotoneScan

def poison (s : MonotoneScan) (name : String) : MonotoneScan := { s with poisoned := name :: s.poisoned }

def record (s : MonotoneScan) (name : String) (dir : MonotoneDir) : MonotoneScan :=
  match s.dirs.get name with
  | none => { s with dirs := s.dirs.insert name dir }
  | some d => if d = dir then s else s.poison name

def poisonAll (s : MonotoneScan) (names : List String) : MonotoneScan := names.foldl poison s

end MonotoneScan

def literalDir (c : ℤ) (dir : MonotoneDir) : Option MonotoneDir := if 0 ≤ c then some dir else none

/-- The direction of a call `T.add` or `T.sub`, the form that lowering gives to an operator. -/
def methodDir (method : String) : Option MonotoneDir :=
  if method = "add" then some .increasing else if method = "sub" then some .decreasing else none

/-- `x + c`, `c + x` or `x - c`, with `c` a literal that is not negative. -/
def classifyMonotoneRhs (x : String) : Expr → Option MonotoneDir
  | .binary .add (.identifier l) (.integer c) => if l = x then literalDir c .increasing else none
  | .binary .add (.integer c) (.identifier r) => if r = x then literalDir c .increasing else none
  | .binary .sub (.identifier l) (.integer c) => if l = x then literalDir c .decreasing else none
  | .call (.path [_, method]) [.mk _ _ (.identifier l), .mk _ _ (.integer c)] =>
    if l = x then (methodDir method).bind (literalDir c) else none
  | .call (.path [_, method]) [.mk _ _ (.integer c), .mk _ _ (.identifier r)] =>
    -- the sum is commutative, the difference is not
    if r = x ∧ method = "add" then literalDir c .increasing else none
  | _ => none

def compoundDir (op : CompoundOp) (value : Expr) : Option MonotoneDir :=
  match op, value with
  | .add, .integer c => literalDir c .increasing
  | .sub, .integer c => literalDir c .decreasing
  | _, _ => none

/-- The local at the root of a place expression. -/
def placeRootIdent : Expr → Option String
  | .identifier name => some name
  | .fieldAccess object _ => placeRootIdent object
  | .tupleIndex object _ => placeRootIdent object
  | .index object _ => placeRootIdent object
  | .optionalChain object _ _ => placeRootIdent object
  | .unary _ operand => placeRootIdent operand
  | .question inner => placeRootIdent inner
  | _ => none

namespace MonotoneScan

def poisonRoot (s : MonotoneScan) (place : Expr) : MonotoneScan := s.poisonAll (placeRootIdent place).toList

def mark (s : MonotoneScan) (name : String) (dir : Option MonotoneDir) : MonotoneScan :=
  match dir with
  | some d => s.record name d
  | none => s.poison name

end MonotoneScan

def isPtrBuiltin : Expr → Bool
  | .path (first :: _) => decide (first = "ptr")
  | _ => false

mutual

def monoScanBlock (s : MonotoneScan) : Block → MonotoneScan
  | .mk stmts finalExpr => monoScanOption (monoScanStmts s stmts) finalExpr

def monoScanStmts (s : MonotoneScan) : List Stmt → MonotoneScan
  | [] => s
  | stmt :: rest => monoScanStmts (monoScanStmt s stmt) rest

def monoScanOption (s : MonotoneScan) : Option Expr → MonotoneScan
  | none => s
  | some e => monoScanExpr s e

def monoScanExprs (s : MonotoneScan) : List Expr → MonotoneScan
  | [] => s
  | e :: rest => monoScanExprs (monoScanExpr s e) rest

def monoScanStmt (s : MonotoneScan) : Stmt → MonotoneScan
  | .letStmt _ pattern value => monoScanExpr (s.poisonAll pattern.bindingNames) value
  | .letUninit _ name => s.poison name
  | .letElse pattern value elseBlock =>
    monoScanBlock (monoScanExpr (s.poisonAll pattern.bindingNames) value) elseBlock
  | .defer body => monoScanBlock s body
  | .errDefer binding body => monoScanBlock (s.poisonAll binding.toList) body
  | .assign (.identifier x) value => monoScanExpr (s.mark x (classifyMonotoneRhs x value)) value
  | .assign target value => monoScanExpr (monoScanExpr (s.poisonRoot target) target) value
  | .compoundAssign (.identifier x) op value => monoScanExpr (s.mark x (compoundDir op value)) value
  | .compoundAssign target _ value => monoScanExpr (monoScanExpr (s.poisonRoot target) target) value
  | .expr e => monoScanExpr s e

def monoScanCallArg (s : MonotoneScan) : CallArg → MonotoneScan
  | .mk _ mutMarker value => monoScanExpr (if mutMarker then s.poisonRoot value else s) value

def monoScanCallArgs (s : MonotoneScan) : List CallArg → MonotoneScan
  | [] => s
  | a :: rest => monoScanCallArgs (monoScanCallArg s a) rest

def monoScanChainArgs (s : MonotoneScan) : Option (List CallArg) → MonotoneScan
  | none => s
  | some args => monoScanCallArgs s args

def monoScanArm (s : MonotoneScan) : MatchArm → MonotoneScan
  | .mk pattern guard body => monoScanExpr (monoScanOption (s.poisonAll pattern.bindingNames) guard) body

def monoScanArms (s : MonotoneScan) : List MatchArm → MonotoneScan
  | [] => s
  | a :: rest => monoScanArms (monoScanArm s a) rest

def monoScanParts (s : MonotoneScan) : List InterpolationPart → MonotoneScan
  | [] => s
  | .text _ :: rest => monoScanParts s rest
  | .expr e :: rest => monoScanParts (monoScanExpr s e) rest

def monoScanPairs (s : MonotoneScan) : List (Expr × Expr) → MonotoneScan
  | [] => s
  | (k, v) :: rest => monoScanPairs (monoScanExpr (monoScanExpr s k) v) rest

def monoScanFields (s : MonotoneScan) : List FieldInit → MonotoneScan
  | [] => s
  | .mk _ value :: rest => monoScanFields (monoScanExpr s value) rest

def monoScanBindings (s : MonotoneScan) : List ProviderBinding → MonotoneScan
  | [] => s
  | .mk _ value :: rest => monoScanBindings (monoScanExpr s value) rest

def monoScanExpr (s : MonotoneScan) : Expr → MonotoneScan
  | .integer _ => s
  | .float => s
  | .charLit _ => s
  | .byteLit _ => s
  | .byteStringLit _ => s
  | .stringLit _ => s
  | .multiStringLit _ => s
  | .cStringLit _ => s
  | .bool _ => s
  | .identifier _ => s
  | .path _ => s
  | .selfValue => s
  | .selfType => s
  | .pipePlaceholder => s
  | .continueExpr _ => s
  | .error => s
  | .interpolatedStringLit parts => monoScanParts s parts
  | .binary _ left right => monoScanExpr (monoScanExpr s left) right
  | .unary _ operand => monoScanExpr s operand
  | .question inner => monoScanExpr s inner
  | .optionalChain object _ args => monoScanChainArgs (monoScanExpr (s.poisonRoot object) object) args
  | .nilCoalesce left right => monoScanExpr (monoScanExpr s left) right
  | .call callee args =>
    -- a `ptr` builtin can take the address of a local and write through it later
    monoScanCallArgs (monoScanExpr (if isPtrBuiltin callee then
      s.poisonAll (args.filterMap fun a => placeRootIdent a.value) else s) callee) args
  | .methodCall object _ args => monoScanCallArgs (monoScanExpr (s.poisonRoot object) object) args
  | .fieldAccess object _ => monoScanExpr s object
  | .tupleIndex object _ => monoScanExpr s object
  | .index object index => monoScanExpr (monoScanExpr s object) index
  | .block b => monoScanBlock s b
  | .comptime b => monoScanBlock s b
  | .ifThen condition thenBlock elseBranch =>
    monoScanOption (monoScanBlock (monoScanExpr s condition) thenBlock) elseBranch
  | .ifLet pattern value thenBlock elseBranch =>
    monoScanOption (monoScanBlock (monoScanExpr (s.poisonAll pattern.bindingNames) value) thenBlock) elseBranch
  | .matchOn scrutinee arms => monoScanArms (monoScanExpr s scrutinee) arms
  | .whileLoop _ condition body => monoScanBlock (monoScanExpr s condition) body
  | .whileLet _ pattern value body => monoScanBlock (monoScanExpr (s.poisonAll pattern.bindingNames) value) body
  | .forLoop _ pattern iterable body =>
    monoScanBlock (monoScanExpr (s.poisonAll pattern.bindingNames) iterable) body
  | .loop _ body => monoScanBlock s body
  | .labeledBlock _ body => monoScanBlock s body
  | .closure params _ body => monoScanExpr (s.poisonAll (params.flatMap Pattern.bindingNames)) body
  | .returnExpr value => monoScanOption s value
  | .breakExpr _ value => monoScanOption s value
  | .tuple elems => monoScanExprs s elems
  | .arrayLiteral elems => monoScanExprs s elems
  | .prefixCollectionLiteral _ items => monoScanExprs s items
  | .repeatLiteral _ value count => monoScanExpr (monoScanExpr s value) count
  | .mapLiteral pairs => monoScanPairs s pairs
  | .structLiteral _ fields spread => monoScanOption (monoScanFields s fields) spread
  | .pipe left right => monoScanExpr (monoScanExpr s left) right
  | .cast e => monoScanExpr s e
  | .offsetOf _ => s
  | .range start stop _ => monoScanOption (monoScanOption s start) stop
  | .unsafeBlock body => monoScanBlock s body
  | .tryBlock body => monoScanBlock s body
  | .seq body => monoScanBlock s body
  | .par body => monoScanBlock s body
  | .lock _ _ body => monoScanBlock s body
  | .providers bindings body => monoScanBlock (monoScanBindings s bindings) body

end

/-- The monotone variables of a loop in the order of their names. -/
def collectMonotoneVars (guard : Option Expr) (body : Block) : List (String × MonotoneDir) :=
  let scan := monoScanBlock (monoScanOption {} guard) body
  scan.dirs.entries.filter fun entry => decide (entry.1 ∉ scan.poisoned)

/-! What the scan does at a node, and that it does it at every node of the tree. -/

inductive ScanOp
  | poison (name : String)
  | record (name : String) (dir : MonotoneDir)

def ScanOp.apply (s : MonotoneScan) : ScanOp → MonotoneScan
  | .poison name => s.poison name
  | .record name dir => s.record name dir

def poisonOps (names : List String) : List ScanOp := names.map .poison

def rootOps (place : Expr) : List ScanOp := poisonOps (placeRootIdent place).toList

def markOp (name : String) : Option MonotoneDir → ScanOp
  | some d => .record name d
  | none => .poison name

def exprOps : Expr → List ScanOp
  | .optionalChain object _ _ => rootOps object
  | .call callee args => if isPtrBuiltin callee then poisonOps (args.filterMap fun a => placeRootIdent a.value) else []
  | .methodCall object _ _ => rootOps object
  | .ifLet pattern _ _ _ => poisonOps pattern.bindingNames
  | .whileLet _ pattern _ _ => poisonOps pattern.bindingNames
  | .forLoop _ pattern _ _ => poisonOps pattern.bindingNames
  | .closure params _ _ => poisonOps (params.flatMap Pattern.bindingNames)
  | _ => []

def stmtOps : Stmt → List ScanOp
  | .letStmt _ pattern _ => poisonOps pattern.bindingNames
  | .letUninit _ name => [.poison name]
  | .letElse pattern _ _ => poisonOps pattern.bindingNames
  | .defer _ => []
  | .errDefer binding _ => poisonOps binding.toList
  | .assign (.identifier x) value => [markOp x (classifyMonotoneRhs x value)]
  | .assign target _ => rootOps target
  | .compoundAssign (.identifier x) op value => [markOp x (compoundDir op value)]
  | .compoundAssign target _ _ => rootOps target
  | .expr _ => []

def nodeOps : Node → List ScanOp
  | .expr e => exprOps e
  | .stmt s => stmtOps s
  | .block _ => []
  | .arg a => if a.mutMarker then rootOps a.value else []
  | .arm a => poisonOps a.pattern.bindingNames

def scanNode (s : MonotoneScan) : Node → MonotoneScan
  | .expr e => monoScanExpr s e
  | .stmt stmt => monoScanStmt s stmt
  | .block b => monoScanBlock s b
  | .arg a => monoScanCallArg s a
  | .arm a => monoScanArm s a

@[simp] theorem foldl_poisonOps (s : MonotoneScan) (names : List String) :
    (poisonOps names).foldl ScanOp.apply s = s.poisonAll names := by
  rw [poisonOps, List.foldl_map]
  rfl

@[simp] theorem foldl_rootOps (s : MonotoneScan) (place : Expr) :
    (rootOps place).foldl ScanOp.apply s = s.poisonRoot place := by
  rw [rootOps, foldl_poisonOps]
  rfl

@[simp] theorem apply_markOp (s : MonotoneScan) (name : String) (dir : Option MonotoneDir) :
    (markOp name dir).apply s = s.mark name dir := by
  cases dir <;> rfl

theorem monoScanStmts_eq (l : List Stmt) : ∀ s, monoScanStmts s l = l.foldl monoScanStmt s :=
  walk_eq_foldl (fun _ => rfl) (fun _ _ _ => rfl) l

theorem monoScanExprs_eq (l : List Expr) : ∀ s, monoScanExprs s l = l.foldl monoScanExpr s :=
  walk_eq_foldl (fun _ => rfl) (fun _ _ _ => rfl) l

theorem monoScanOption_eq (s : MonotoneScan) (o : Option Expr) : monoScanOption s o = o.toList.foldl monoScanExpr s := by
  cases o <;> rfl

theorem monoScanCallArgs_eq (l : List CallArg) : ∀ s, monoScanCallArgs s l = l.foldl monoScanCallArg s :=
  walk_eq_foldl (fun _ => rfl) (fun _ _ _ => rfl) l

theorem monoScanChainArgs_eq (s : MonotoneScan) (o : Option (List CallArg)) :
    monoScanChainArgs s o = (o.getD []).foldl monoScanCallArg s := by
  cases o with
  | none => rfl
  | some args => exact monoScanCallArgs_eq args s

theorem monoScanArms_eq (l : List MatchArm) : ∀ s, monoScanArms s l = l.foldl monoScanArm s :=
  walk_eq_foldl (fun _ => rfl) (fun _ _ _ => rfl) l

theorem monoScanParts_eq (l : List InterpolationPart) (s : MonotoneScan) :
    monoScanParts s l = (l.flatMap interpolatedNodes).foldl scanNode s := by
  rw [List.foldl_flatMap]
  exact walk_eq_foldl (fun _ => rfl) (fun _ part _ => by cases part <;> rfl) l s

theorem monoScanPairs_eq (l : List (Expr × Expr)) (s : MonotoneScan) :
    monoScanPairs s l = (l.flatMap fun p => [.expr p.1, .expr p.2]).foldl scanNode s := by
  rw [List.foldl_flatMap]
  exact walk_eq_foldl (fun _ => rfl) (fun _ _ _ => rfl) l s

theorem monoScanFields_eq (l : List FieldInit) :
    ∀ s, monoScanFields s l = l.foldl (fun s f => monoScanExpr s f.value) s :=
  walk_eq_foldl (fun _ => rfl) (fun _ field _ => by cases field; rfl) l

theorem monoScanBindings_eq (l : List ProviderBinding) :
    ∀ s, monoScanBindings s l = l.foldl (fun s b => monoScanExpr s b.value) s :=
  walk_eq_foldl (fun _ => rfl) (fun _ binding _ => by cases binding; rfl) l

theorem monoScanExpr_eq (s : MonotoneScan) (e : Expr) :
    monoScanExpr s e = (exprChildren e).foldl scanNode ((exprOps e).foldl ScanOp.apply s) := by
  cases e with
  | interpolatedStringLit l => exact monoScanParts_eq l s
  | mapLiteral l => exact monoScanPairs_eq l s
  | call callee args =>
    by_cases hptr : isPtrBuiltin callee = true <;>
      simp [monoScanExpr, exprChildren, exprOps, monoScanCallArgs_eq, List.foldl_map, scanNode, hptr]
  | _ => simp [monoScanExpr, exprChildren, exprOps, scanNode, List.foldl_map, monoScanOption_eq, monoScanExprs_eq,
      monoScanCallArgs_eq, monoScanChainArgs_eq, monoScanArms_eq, monoScanFields_eq, monoScanBindings_eq]

theorem monoScanStmt_eq (s : MonotoneScan) (stmt : Stmt) :
    monoScanStmt s stmt = (stmtChildren stmt).foldl scanNode ((stmtOps stmt).foldl ScanOp.apply s) := by
  cases stmt with
  | assign target value => cases target <;> simp [monoScanStmt, stmtChildren, stmtOps, scanNode, monoScanExpr]
  | compoundAssign target op value => cases target <;> simp [monoScanStmt, stmtChildren, stmtOps, scanNode, monoScanExpr]
  | letUninit isMut name => rfl
  | _ => simp [monoScanStmt, stmtChildren, stmtOps, scanNode]

/-- The scan of a node first does what the node asks for, then scans its children. -/
theorem scanNode_eq (s : MonotoneScan) (n : Node) :
    scanNode s n = n.children.foldl scanNode ((nodeOps n).foldl ScanOp.apply s) := by
  cases n with
  | expr e => exact monoScanExpr_eq s e
  | stmt stmt => exact monoScanStmt_eq s stmt
  | block b =>
    cases b with
    | mk stmts finalExpr =>
      simp [scanNode, nodeOps, Node.children, monoScanBlock, Block.stmts, Block.finalExpr, List.foldl_map,
        monoScanStmts_eq, monoScanOption_eq]
  | arg a =>
    cases a with
    | mk label mutMarker value =>
      cases mutMarker <;> simp [scanNode, nodeOps, Node.children, monoScanCallArg, CallArg.value, CallArg.mutMarker]
  | arm a =>
    cases a with
    | mk pattern guard body =>
      simp [scanNode, nodeOps, Node.children, monoScanArm, MatchArm.pattern, MatchArm.guard, MatchArm.body,
        List.foldl_map, monoScanOption_eq]

/-- The scan has done the operation: a recorded name has the direction or is disqualified. -/
def Covers (s : MonotoneScan) : ScanOp → Prop
  | .poison name => name ∈ s.poisoned
  | .record name dir => name ∈ s.poisoned ∨ s.dirs.get name = some dir

theorem covers_poison {s : MonotoneScan} {op : ScanOp} (h : Covers s op) (name : String) :
    Covers (s.poison name) op := by
  cases op with
  | poison other => exact List.mem_cons_of_mem _ h
  | record other dir => exact h.imp_left (List.mem_cons_of_mem _)

theorem covers_record {s : MonotoneScan} {op : ScanOp} (h : Covers s op) (name : String) (dir : MonotoneDir) :
    Covers (s.record name dir) op := by
  unfold MonotoneScan.record
  cases hget : s.dirs.get name with
  | none =>
    cases op with
    | poison other => exact h
    | record other d =>
      apply h.imp_right
      intro hother
      have hne : other ≠ name := by
        rintro rfl
        rw [hget] at hother
        cases hother
      rw [SortedMap.get_insert_of_ne _ hne]
      exact hother
  | some d =>
    by_cases hd : d = dir
    · simpa only [hd, if_true] using h
    · simpa only [hd, if_false] using covers_poison h name

theorem covers_apply {s : MonotoneScan} {op : ScanOp} (h : Covers s op) (next : ScanOp) :
    Covers (next.apply s) op := by
  cases next with
  | poison name => exact covers_poison h name
  | record name dir => exact covers_record h name dir

theorem covers_apply_self (s : MonotoneScan) (op : ScanOp) : Covers (op.apply s) op := by
  cases op with
  | poison name => exact List.mem_cons_self
  | record name dir =>
    simp only [ScanOp.apply, MonotoneScan.record]
    cases hget : s.dirs.get name with
    | none => exact Or.inr (SortedMap.get_insert_self _ _ _)
    | some d =>
      by_cases hd : d = dir
      · subst hd
        simp only [if_true]
        exact Or.inr hget
      · simp only [hd, if_false]
        exact Or.inl List.mem_cons_self

theorem covers_foldl_apply {op : ScanOp} (ops : List ScanOp) :
    ∀ s, (Covers s op ∨ op ∈ ops) → Covers (ops.foldl ScanOp.apply s) op := by
  induction ops with
  | nil =>
    intro s h
    exact h.resolve_right List.not_mem_nil
  | cons next rest ih =>
    intro s h
    apply ih
    rcases h with h | h
    · exact Or.inl (covers_apply h next)
    · rcases List.mem_cons.mp h with rfl | h
      · exact Or.inl (covers_apply_self s op)
      · exact Or.inr h

theorem covers_foldl_scan {op : ScanOp} (ns : List Node)
    (hkeep : ∀ n ∈ ns, ∀ s, Covers s op → Covers (scanNode s n) op) :
    ∀ s, Covers s op → Covers (ns.foldl scanNode s) op := by
  induction ns with
  | nil => intro s h; exact h
  | cons n rest ih =>
    intro s h
    apply ih
    · intro m hm
      exact hkeep m (List.mem_cons_of_mem _ hm)
    · exact hkeep n List.mem_cons_self s h

theorem covers_scanNode {op : ScanOp} (n : Node) : ∀ s, Covers s op → Covers (scanNode s n) op := by
  induction n using Node.childInduction with
  | h n ih =>
    intro s h
    rw [scanNode_eq]
    exact covers_foldl_scan n.children ih _ (covers_foldl_apply _ s (Or.inl h))

/-- The scan of a tree does what every node in it asks for. -/
theorem covers_of_within {op : ScanOp} {m n : Node} (h : m.Within n) (hop : op ∈ nodeOps m) (s : MonotoneScan) :
    Covers (scanNode s n) op := by
  induction h generalizing s with
  | refl =>
    rw [scanNode_eq]
    apply covers_foldl_scan m.children (fun c _ => covers_scanNode c)
    exact covers_foldl_apply _ s (Or.inr hop)
  | @child c n hc _ ih =>
    rw [scanNode_eq]
    obtain ⟨front, back, hsplit⟩ := List.append_of_mem hc
    rw [hsplit, List.foldl_append, List.foldl_cons]
    exact covers_foldl_scan back (fun d _ => covers_scanNode d) _ (ih _)

/-- The node occurs in the guard or in the body of the loop. -/
def InLoop (guard : Option Expr) (body : Block) (n : Node) : Prop :=
  (∃ g ∈ guard, n.Within (.expr g)) ∨ n.Within (.block body)

theorem covers_of_inLoop {guard : Option Expr} {body : Block} {n : Node} (h : InLoop guard body n) {op : ScanOp}
    (hop : op ∈ nodeOps n) : Covers (monoScanBlock (monoScanOption {} guard) body) op := by
  rcases h with ⟨g, hg, hn⟩ | hn
  · obtain rfl := Option.mem_def.mp hg
    exact covers_scanNode (.block body) _ (covers_of_within hn hop {})
  · exact covers_of_within hn hop _

/-- A reported name is poisoned nowhere in the loop. -/
theorem not_poisoned_of_collected {guard : Option Expr} {body : Block} {x : String} {dir : MonotoneDir}
    (hx : (x, dir) ∈ collectMonotoneVars guard body) {n : Node} (hn : InLoop guard body n) :
    ScanOp.poison x ∉ nodeOps n := by
  intro hop
  have hpoisoned := covers_of_inLoop hn hop
  have hclean := (List.mem_filter.mp hx).2
  exact of_decide_eq_true hclean hpoisoned

/-- Every recognized update of a reported name has the reported direction. -/
theorem dir_of_collected {guard : Option Expr} {body : Block} {x : String} {dir d : MonotoneDir}
    (hx : (x, dir) ∈ collectMonotoneVars guard body) {n : Node} (hn : InLoop guard body n)
    (hop : ScanOp.record x d ∈ nodeOps n) : d = dir := by
  obtain ⟨hentry, hclean⟩ := List.mem_filter.mp hx
  have hget := SortedMap.get_eq_some_iff.mpr hentry
  rcases covers_of_inLoop hn hop with hpoisoned | hd
  · exact absurd hpoisoned (of_decide_eq_true hclean)
  · rw [hget] at hd
    exact (Option.some.inj hd).symm

end Karac.Codegen
