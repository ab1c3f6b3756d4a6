import Karac.Ast.Names
import Karac.Disjoint.IndexForm

/-! The walk over the body of an outer loop that proves its indexed writes disjoint. It keeps the forms of the immutable
locals and the initialisers of the mutable ones, and takes the bounds of the inner loops from them. -/

namespace Karac.Disjoint

open Ast Karac.Lib

inductive DisjointDecline
  | unsupportedLoopForm
  | loopVarMutated
  | noIndexedWrite
  | complexWriteTarget
  | indirectIndex
  | nonAffineIndex
  | indexNotInvariant
  | invariantWriteSlot
  | unboundedInnerLoop
  | coefficientSignUnknown
  | strideMismatch
  | readsWrittenTarget
  | otherOuterWrite
  | opaqueBodyConstruct
  | earlyExit
  | symbolicOverflow
  /-- The panic on a literal past `i64`. -/
  | internalError
  deriving DecidableEq

/-! Names. -/

/-- The root binding of an assignment target. -/
def assignTargetRoot : Expr → Option String
  | .identifier n => some n
  | .fieldAccess object _ => assignTargetRoot object
  | .tupleIndex object _ => assignTargetRoot object
  | .index object _ => assignTargetRoot object
  | _ => none

def assignedRoot : Node → Finset String
  | .stmt (.assign target _) => (assignTargetRoot target).elim ∅ fun root => {root}
  | .stmt (.compoundAssign target _ _) => (assignTargetRoot target).elim ∅ fun root => {root}
  | _ => ∅

-- the bindings of a `providers` block are not looked at
def collectAssignedRoots (n : Node) : Finset String := nodeNames assignedRoot false n

def declaredName : Node → Finset String
  | .stmt (.letStmt _ pattern _) => pattern.bindingNames.toFinset
  | .stmt (.letElse pattern _ _) => pattern.bindingNames.toFinset
  | .stmt (.letUninit _ name) => {name}
  | .expr (.forLoop _ pattern _ _) => pattern.bindingNames.toFinset
  | .expr (.ifLet pattern _ _ _) => pattern.bindingNames.toFinset
  | .expr (.whileLet _ pattern _ _) => pattern.bindingNames.toFinset
  | .arm a => a.pattern.bindingNames.toFinset
  | .expr (.closure params _ _) => (params.flatMap Pattern.bindingNames).toFinset
  | .expr (.lock _ innerName _) => innerName.toList.toFinset
  | _ => ∅

def collectDeclaredNames (n : Node) : Finset String := nodeNames declaredName true n

def indexedWriteTarget : Node → Finset String
  | .stmt (.assign (.index (.identifier name) _) _) => {name}
  | .stmt (.compoundAssign (.index (.identifier name) _) _ _) => {name}
  | _ => ∅

def collectIndexedWriteTargets (n : Node) (declared : Finset String) : Finset String :=
  nodeNames indexedWriteTarget true n \ declared

/-! Operators. -/

inductive IntOp
  | add | sub | mul | lt | le
  deriving DecidableEq

def isIntegerPrimitive (name : String) : Bool :=
  decide (name ∈ ["i8", "i16", "i32", "i64", "u8", "u16", "u32", "u64", "usize", "isize"])

def binaryOp : BinOp → Option IntOp
  | .add => some .add
  | .sub => some .sub
  | .mul => some .mul
  | .lt => some .lt
  | .ltEq => some .le
  | _ => none

def methodOp (typeName method : String) : Option IntOp :=
  if !isIntegerPrimitive typeName then none
  else if method = "add" then some .add
  else if method = "sub" then some .sub
  else if method = "mul" then some .mul
  else if method = "lt" then some .lt
  else if method = "le" then some .le
  else none

/-- `a OP b`, before and after lowering. -/
def asIntegerBinop : Expr → Option (IntOp × Expr × Expr)
  | .binary op left right => (binaryOp op).map fun op => (op, left, right)
  | .call (.path [typeName, method]) [.mk _ _ left, .mk _ _ right] =>
    (methodOp typeName method).map fun op => (op, left, right)
  | _ => none

def isNegCall (typeName method : String) : Bool := decide (method = "neg") && isIntegerPrimitive typeName

/-- Nothing where the source panics. -/
def narrowLiteralToI64 (n : ℤ) : Option I64 := I64.checked n

/-- `counter + K` or `K + counter`. -/
def incrementOf (value : Expr) (counter : String) : Option I64 :=
  match asIntegerBinop value with
  | some (.add, .identifier n, .integer k) => if n = counter then narrowLiteralToI64 k else none
  | some (.add, .integer k, .identifier n) => if n = counter then narrowLiteralToI64 k else none
  | _ => none

def isPositiveStep (counter : String) : Stmt → Bool
  | .assign (.identifier n) value => decide (n = counter) && (incrementOf value counter).any fun k => decide (0 < k.val)
  | .compoundAssign (.identifier n) .add (.integer k) => decide (n = counter) && decide (0 < k)
  | _ => false

/-- The only write to the counter is the last statement, a positive step. -/
def singleTrailingPositiveStep (block : Block) (counter : String) : Bool :=
  match block.stmts.getLast? with
  | none => false
  | some last => isPositiveStep counter last &&
    decide (counter ∉ collectAssignedRoots (.block (.mk block.stmts.dropLast block.finalExpr)))

/-! The state of the walk. -/

/-- Bounds `[lo, hi)` on an induction variable. -/
structure IvBound where
  lo : SymPoly
  hiExclusive : SymPoly

structure Extent where
  lo : SymPoly
  hi : SymPoly
  nonneg : Finset String
  positive : Finset String

structure Prover where
  loopVar : String
  declared : Finset String
  mutated : Finset String
  targets : Finset String
  ivs : String → Option (Option IvBound)
  localForms : String → Option IndexForm
  mutInits : String → Option SymPoly
  nonneg : Finset String
  positive : Finset String
  strides : SortedMap String SymPoly
  extents : SortedMap String (List Extent)
  writeCounts : SortedMap String ℕ
  innerLoopDepth : ℕ

/-- A form, or why there is none, with the atoms that were seen to be non-negative on the way. -/
abbrev Built := Finset String × Except DisjointDecline IndexForm

def Built.bind (b : Built) (k : Finset String → IndexForm → Built) : Built :=
  match b with
  | (known, .ok form) => k known form
  | (known, .error d) => (known, .error d)

def orOverflow {α : Type} (o : Option α) : Except DisjointDecline α := o.elim (.error .symbolicOverflow) .ok

def combineForms (op : IntOp) (l r : IndexForm) : Except DisjointDecline IndexForm :=
  match op with
  | .add => orOverflow (l.add r)
  | .sub => orOverflow (l.sub r)
  | .mul => if l.asInvariant.isNone && r.asInvariant.isNone then .error .nonAffineIndex else orOverflow (l.mul r)
  | .lt => .error .nonAffineIndex
  | .le => .error .nonAffineIndex

namespace Prover

/-- Free in the body and never assigned in it. -/
def isInvariantName (P : Prover) (name : String) : Bool := decide (name ∉ P.declared) && decide (name ∉ P.mutated)

def nameForm (P : Prover) (name : String) : Except DisjointDecline IndexForm :=
  if name = P.loopVar ∨ (P.ivs name).isSome then .ok (IndexForm.induction name)
  else match P.localForms name with
    | some form => .ok form
    | none =>
      if P.isInvariantName name then .ok (IndexForm.invariant (SymPoly.atom name))
      else if name ∈ P.mutated then .error .unboundedInnerLoop
      else .error .indexNotInvariant

/-- A length or a field of an invariant name. -/
def placeForm (P : Prover) (known : Finset String) (suffix : String) (nonneg : Bool) : Expr → Built
  | .identifier recv =>
    if P.isInvariantName recv then
      (if nonneg then insert (recv ++ suffix) known else known,
        .ok (IndexForm.invariant (SymPoly.atom (recv ++ suffix))))
    else (known, .error .indexNotInvariant)
  | _ => (known, .error .nonAffineIndex)

def buildForm (P : Prover) (known : Finset String) : Expr → Built
  | .integer n => (known, match narrowLiteralToI64 n with
    | some c => .ok (IndexForm.constant c)
    | none => .error .internalError)
  | .identifier name => (known, P.nameForm name)
  | .path [name] => (known, P.nameForm name)
  | .path (first :: second :: rest) =>
    (known, .ok (IndexForm.invariant (SymPoly.atom (".".intercalate (first :: second :: rest)))))
  | .unary .neg operand => (P.buildForm known operand).bind fun known form => (known, orOverflow form.neg)
  | .methodCall object method args =>
    if method = "len" ∧ args.isEmpty then P.placeForm known ".len()" true object
    else (known, .error .nonAffineIndex)
  | .fieldAccess object field => P.placeForm known ("." ++ field) false object
  | .index _ _ => (known, .error .indirectIndex)
  | .call (.path [typeName, method]) [.mk _ _ operand] =>
    if isNegCall typeName method then
      (P.buildForm known operand).bind fun known form => (known, orOverflow form.neg)
    else (known, .error .nonAffineIndex)
  | .binary op left right => match binaryOp op with
    | none => (known, .error .nonAffineIndex)
    | some op => (P.buildForm known left).bind fun known l =>
      (P.buildForm known right).bind fun known r => (known, combineForms op l r)
  | .call (.path [typeName, method]) [.mk _ _ left, .mk _ _ right] => match methodOp typeName method with
    | none => (known, .error .nonAffineIndex)
    | some op => (P.buildForm known left).bind fun known l =>
      (P.buildForm known right).bind fun known r => (known, combineForms op l r)
  | _ => (known, .error .nonAffineIndex)

/-- A form that has to be loop-invariant. A literal past `i64`, which nothing brings here, has none. -/
def buildInvariant (P : Prover) (known : Finset String) (e : Expr) : Finset String × Option SymPoly :=
  ((P.buildForm known e).1, (P.buildForm known e).2.toOption.bind IndexForm.asInvariant)

def forget (P : Prover) (names : List String) : Prover :=
  { P with
    localForms := fun x => if x ∈ names then none else P.localForms x
    mutInits := fun x => if x ∈ names then none else P.mutInits x }

/-- `let name = value` and `let mut name = value`. -/
def bindLet (P : Prover) (isMut : Bool) (name : String) (value : Expr) : Prover :=
  let P := P.forget [name]
  if isMut then
    { P with
      nonneg := (P.buildInvariant P.nonneg value).1
      mutInits := Function.update P.mutInits name (P.buildInvariant P.nonneg value).2 }
  else
    { P with
      nonneg := (P.buildForm P.nonneg value).1
      localForms := Function.update P.localForms name (P.buildForm P.nonneg value).2.toOption }

def assignLocal (P : Prover) (name : String) (value : Expr) (compound : Bool) : Except DisjointDecline Prover :=
  if name ∉ P.declared then .error .otherOuterWrite
  else
    let P := { P with localForms := Function.update P.localForms name none }
    .ok { P with
      nonneg := (P.buildInvariant P.nonneg value).1
      mutInits := Function.update P.mutInits name (if compound then none else (P.buildInvariant P.nonneg value).2) }

/-- The residual's ends after one induction variable more. -/
def addExtremes (P : Prover) (range : SymPoly × SymPoly) (e : String × SymPoly) :
    Except DisjointDecline (SymPoly × SymPoly) :=
  if e.1 = P.loopVar then .ok range
  else match P.ivs e.1 with
    | some (some bound) =>
      if !e.2.provablyNonneg P.nonneg P.positive then .error .coefficientSignUnknown
      else do
        let hiInclusive ← orOverflow (bound.hiExclusive.sub (SymPoly.constant I64.one))
        let loTerm ← orOverflow (e.2.mul bound.lo)
        let hiTerm ← orOverflow (e.2.mul hiInclusive)
        let rMin ← orOverflow (range.1.add loTerm)
        let rMax ← orOverflow (range.2.add hiTerm)
        return (rMin, rMax)
    | _ => .error .unboundedInnerLoop

def recordWrite (P : Prover) (target : String) (stride : SymPoly) (range : SymPoly × SymPoly) : Prover :=
  { P with
    strides := P.strides.insert target stride
    extents := P.extents.insert target ((P.extents.get target).getD [] ++ [⟨range.1, range.2, P.nonneg, P.positive⟩])
    writeCounts := P.writeCounts.insert target ((P.writeCounts.get target).getD 0 + 1) }

def proveWrite (P : Prover) (target : String) (index : Expr) : Except DisjointDecline Prover := do
  let form ← (P.buildForm P.nonneg index).2
  let P := { P with nonneg := (P.buildForm P.nonneg index).1 }
  match form.iv.get P.loopVar with
  | none => .error .invariantWriteSlot
  | some stride =>
    if stride.isZero then .error .invariantWriteSlot
    else do
      let range ← form.iv.entries.foldlM P.addExtremes (form.base, form.base)
      if (P.strides.get target).any fun s => s.terms.entries ≠ stride.terms.entries then .error .strideMismatch
      else return P.recordWrite target stride range

def checkRead (P : Prover) (name : String) : Except DisjointDecline Prover :=
  if name ∈ P.targets then .error .readsWrittenTarget else .ok P

/-- After a scope: the forms and initialisers from before it. -/
def leave (P Q : Prover) : Prover := { Q with localForms := P.localForms, mutInits := P.mutInits }

/-- The bounds of `for v in a..b`. -/
def forBound (P : Prover) : Pattern → Expr → Except DisjointDecline (Prover × Option IvBound)
  | .binding _, .range (some start) (some stop) inclusive =>
    let lo := P.buildInvariant P.nonneg start
    let hi := P.buildInvariant lo.1 stop
    let P := { P with nonneg := hi.1 }
    match lo.2, hi.2 with
    | some lo, some hi =>
      if inclusive then do
        let hi ← orOverflow (hi.add (SymPoly.constant I64.one))
        return (P, some ⟨lo, hi⟩)
      else .ok (P, some ⟨lo, hi⟩)
    | _, _ => .ok (P, none)
  | _, _ => .ok (P, none)

def loopName : Pattern → Option String
  | .binding n => some n
  | _ => none

/-- The bound, where the body does not assign the variable. -/
def usableBound (pattern : Pattern) (body : Block) (bound : Option IvBound) : Option IvBound :=
  if (loopName pattern).any fun n => decide (n ∉ collectAssignedRoots (.block body)) then bound else none

/-- The body runs, so that `lo < hi`. -/
def promote (P : Prover) (bound : IvBound) : Prover :=
  match bound.lo.asConst, bound.hiExclusive.asBareAtom with
  | some lo, some atom =>
    if 0 ≤ lo.val then { P with nonneg := insert atom P.nonneg, positive := insert atom P.positive } else P
  | _, _ => P

def enterLoop (P : Prover) (name : Option String) (bound : Option IvBound) (shadowed : List String) : Prover :=
  let P := P.forget shadowed
  let P := bound.elim P P.promote
  let P := name.elim P fun n => { P with ivs := Function.update P.ivs n (some bound) }
  { P with innerLoopDepth := P.innerLoopDepth + 1 }

def leaveLoop (P Q : Prover) : Prover :=
  { Q with
    ivs := P.ivs
    positive := P.positive
    nonneg := P.nonneg
    localForms := P.localForms
    mutInits := P.mutInits
    innerLoopDepth := Q.innerLoopDepth - 1 }

/-- The end of a range, where the condition compares with it. -/
def exclusiveEnd (op : IntOp) (hi : SymPoly) : Option SymPoly :=
  match op with
  | .lt => some hi
  | .le => hi.add (SymPoly.constant I64.one)
  | _ => none

def countedWhileBound (P : Prover) (condition : Expr) (body : Block) : Finset String × Option (String × IvBound) :=
  match asIntegerBinop condition with
  | some (op, .identifier counter, right) =>
    ((P.buildInvariant P.nonneg right).1, do
      let hi ← (P.buildInvariant P.nonneg right).2
      let hiExclusive ← exclusiveEnd op hi
      let lo ← P.mutInits counter
      if singleTrailingPositiveStep body counter then some (counter, ⟨lo, hiExclusive⟩) else none)
  | _ => (P.nonneg, none)

def enterWhile (P : Prover) (condition : Expr) (body : Block) : Prover :=
  let counted := P.countedWhileBound condition body
  { P with nonneg := counted.1 }.enterLoop (counted.2.map Prod.fst) (counted.2.map Prod.snd) []

def enterFor (P : Prover) (pattern : Pattern) (body : Block) (bound : Option IvBound) : Prover :=
  P.enterLoop (loopName pattern) (usableBound pattern body bound) pattern.bindingNames

def deeper (P : Prover) : Prover := { P with innerLoopDepth := P.innerLoopDepth + 1 }

def shallower (P : Prover) : Prover := { P with innerLoopDepth := P.innerLoopDepth - 1 }

end Prover

/-! The walk. -/

open Prover

mutual

def walkBlock (P : Prover) : Block → Except DisjointDecline Prover
  | .mk stmts finalExpr => do
    let P ← walkStmts P stmts
    walkOption P finalExpr

def walkStmts (P : Prover) : List Stmt → Except DisjointDecline Prover
  | [] => .ok P
  | s :: rest => do
    let P ← walkStmt P s
    walkStmts P rest

def walkStmt (P : Prover) : Stmt → Except DisjointDecline Prover
  | .letStmt isMut pattern value => do
    let P ← walkExpr P value
    -- a pattern that destructures leaves what is known of its names as it is
    return (loopName pattern).elim P fun name => P.bindLet isMut name value
  | .letUninit _ name => .ok (P.forget [name])
  | .letElse pattern value elseBlock => do
    let P ← walkExpr P value
    let P ← walkBlock P elseBlock
    return P.forget pattern.bindingNames
  | .defer _ => .error .opaqueBodyConstruct
  | .errDefer _ _ => .error .opaqueBodyConstruct
  | .assign target value => do
    let P ← walkExpr P value
    walkAssign P value false target
  | .compoundAssign target _ value => do
    let P ← walkExpr P value
    walkAssign P value true target
  | .expr e => walkExpr P e

def walkAssign (P : Prover) (value : Expr) (compound : Bool) : Expr → Except DisjointDecline Prover
  | .identifier name => P.assignLocal name value compound
  | .index (.identifier name) index => if name ∈ P.declared then walkExpr P index else P.proveWrite name index
  | _ => .error .complexWriteTarget

def walkOption (P : Prover) : Option Expr → Except DisjointDecline Prover
  | none => .ok P
  | some e => walkExpr P e

def walkExprs (P : Prover) : List Expr → Except DisjointDecline Prover
  | [] => .ok P
  | e :: rest => do
    let P ← walkExpr P e
    walkExprs P rest

def walkArgs (P : Prover) : List CallArg → Except DisjointDecline Prover
  | [] => .ok P
  | .mk _ _ value :: rest => do
    let P ← walkExpr P value
    walkArgs P rest

def walkChainArgs (P : Prover) : Option (List CallArg) → Except DisjointDecline Prover
  | none => .ok P
  | some args => walkArgs P args

def walkPairs (P : Prover) : List (Expr × Expr) → Except DisjointDecline Prover
  | [] => .ok P
  | (k, v) :: rest => do
    let P ← walkExpr P k
    let P ← walkExpr P v
    walkPairs P rest

def walkFields (P : Prover) : List FieldInit → Except DisjointDecline Prover
  | [] => .ok P
  | .mk _ value :: rest => do
    let P ← walkExpr P value
    walkFields P rest

def walkParts (P : Prover) : List InterpolationPart → Except DisjointDecline Prover
  | [] => .ok P
  | .text _ :: rest => walkParts P rest
  | .expr e :: rest => do
    let P ← walkExpr P e
    walkParts P rest

def walkArms (P : Prover) : List MatchArm → Except DisjointDecline Prover
  | [] => .ok P
  | .mk pattern guard body :: rest => do
    let Q ← walkOption (P.forget pattern.bindingNames) guard
    let Q ← walkExpr Q body
    walkArms (P.leave Q) rest

def walkExpr (P : Prover) : Expr → Except DisjointDecline Prover
  | .identifier name => P.checkRead name
  | .path [name] => P.checkRead name
  | .binary _ left right => do
    let P ← walkExpr P left
    walkExpr P right
  | .nilCoalesce left right => do
    let P ← walkExpr P left
    walkExpr P right
  | .pipe left right => do
    let P ← walkExpr P left
    walkExpr P right
  | .unary _ operand => walkExpr P operand
  | .cast inner => walkExpr P inner
  | .call callee args => do
    let P ← walkExpr P callee
    walkArgs P args
  | .methodCall object _ args => do
    let P ← walkExpr P object
    walkArgs P args
  | .optionalChain object _ args => do
    let P ← walkExpr P object
    walkChainArgs P args
  | .fieldAccess object _ => walkExpr P object
  | .tupleIndex object _ => walkExpr P object
  | .index object index => do
    let P ← walkExpr P object
    walkExpr P index
  | .tuple elems => walkExprs P elems
  | .arrayLiteral elems => walkExprs P elems
  | .prefixCollectionLiteral _ items => walkExprs P items
  | .repeatLiteral _ value count => do
    let P ← walkExpr P value
    walkExpr P count
  | .mapLiteral pairs => walkPairs P pairs
  | .structLiteral _ fields spread => do
    let P ← walkFields P fields
    walkOption P spread
  | .interpolatedStringLit parts => walkParts P parts
  | .range start stop _ => do
    let P ← walkOption P start
    walkOption P stop
  | .block b => do
    let Q ← walkBlock P b
    return P.leave Q
  | .labeledBlock _ b => do
    let Q ← walkBlock P b
    return P.leave Q
  | .ifThen condition thenBlock elseBranch => do
    let P ← walkExpr P condition
    let Q ← walkBlock P thenBlock
    walkOption (P.leave Q) elseBranch
  | .ifLet pattern value thenBlock elseBranch => do
    let P ← walkExpr P value
    let Q ← walkBlock (P.forget pattern.bindingNames) thenBlock
    walkOption (P.leave Q) elseBranch
  | .matchOn scrutinee arms => do
    let P ← walkExpr P scrutinee
    walkArms P arms
  | .forLoop _ pattern iterable body => do
    let P ← walkExpr P iterable
    let entry ← P.forBound pattern iterable
    let Q ← walkBlock (entry.1.enterFor pattern body entry.2) body
    return entry.1.leaveLoop Q
  | .whileLoop _ condition body => do
    let P ← walkExpr P condition
    let Q ← walkBlock (P.enterWhile condition body) body
    return { P with nonneg := (P.countedWhileBound condition body).1 }.leaveLoop Q
  | .whileLet _ pattern value body => do
    let P ← walkExpr P value
    let Q ← walkBlock (P.forget pattern.bindingNames).deeper body
    return (P.leave Q).shallower
  | .loop _ body => do
    let Q ← walkBlock P.deeper body
    return (P.leave Q).shallower
  | .breakExpr label value =>
    if label.isSome ∨ P.innerLoopDepth = 0 then .error .earlyExit else walkOption P value
  | .returnExpr _ => .error .earlyExit
  | .question _ => .error .earlyExit
  | .closure _ _ _ => .error .opaqueBodyConstruct
  | .unsafeBlock _ => .error .opaqueBodyConstruct
  | .tryBlock _ => .error .opaqueBodyConstruct
  | .seq _ => .error .opaqueBodyConstruct
  | .par _ => .error .opaqueBodyConstruct
  | .lock _ _ _ => .error .opaqueBodyConstruct
  | .providers _ _ => .error .opaqueBodyConstruct
  | .comptime _ => .error .opaqueBodyConstruct
  -- literals and other leaves
  | _ => .ok P

end

/-- Where the walk over the body of a loop begins. -/
def beginWalk : Expr → Except DisjointDecline (Prover × Block)
  | .forLoop _ (.binding loopVar) (.range (some _) (some _) _) body =>
    let mutated := collectAssignedRoots (.block body)
    let declared := insert loopVar (collectDeclaredNames (.block body))
    let targets := collectIndexedWriteTargets (.block body) declared
    if loopVar ∈ mutated then .error .loopVarMutated
    else if targets = ∅ then .error .noIndexedWrite
    else .ok ({
      loopVar := loopVar
      declared := declared
      mutated := mutated
      targets := targets
      ivs := fun _ => none
      localForms := fun _ => none
      mutInits := fun _ => none
      nonneg := ∅
      positive := ∅
      strides := SortedMap.empty
      extents := SortedMap.empty
      writeCounts := SortedMap.empty
      innerLoopDepth := 0 }, body)
  | _ => .error .unsupportedLoopForm

/-! The state in which the walk comes to a part of the body. A part is given by the positions of the children that lead
to it. -/

def walkNode (P : Prover) : Node → Except DisjointDecline Prover
  | .expr e => walkExpr P e
  | .stmt s => walkStmt P s
  | .block b => walkBlock P b
  | .arg a => walkExpr P a.value
  | .arm a => walkArms P [a]

def walkNodes (P : Prover) : List Node → Except DisjointDecline Prover
  | [] => .ok P
  | n :: rest => do
    let P ← walkNode P n
    walkNodes P rest

namespace Prover

def atTarget (P : Prover) (target value : Expr) (i : ℕ) : Except DisjointDecline Prover :=
  if i = 1 then .ok P
  else match target with
    | .index (.identifier name) _ => do
      let P ← walkExpr P value
      if name ∈ P.declared then .ok P else .error .complexWriteTarget
    | _ => .error .complexWriteTarget

def atStmtChild (P : Prover) (i : ℕ) : Stmt → Except DisjointDecline Prover
  | .letStmt _ _ _ => .ok P
  | .letUninit _ _ => .ok P
  | .letElse _ value _ => if i = 0 then .ok P else walkExpr P value
  | .assign target value => P.atTarget target value i
  | .compoundAssign target _ value => P.atTarget target value i
  | .expr _ => .ok P
  | .defer _ => .error .opaqueBodyConstruct
  | .errDefer _ _ => .error .opaqueBodyConstruct

def atExprChild (P : Prover) (i : ℕ) : Expr → Except DisjointDecline Prover
  | .block _ => .ok P
  | .labeledBlock _ _ => .ok P
  | .ifThen condition thenBlock _ => match i with
    | 0 => .ok P
    | 1 => walkExpr P condition
    | _ => do
      let P ← walkExpr P condition
      let Q ← walkBlock P thenBlock
      return P.leave Q
  | .ifLet pattern value thenBlock _ => match i with
    | 0 => .ok P
    | 1 => do
      let P ← walkExpr P value
      return P.forget pattern.bindingNames
    | _ => do
      let P ← walkExpr P value
      let Q ← walkBlock (P.forget pattern.bindingNames) thenBlock
      return P.leave Q
  | .matchOn scrutinee arms => match i with
    | 0 => .ok P
    | i + 1 => do
      let P ← walkExpr P scrutinee
      walkArms P (arms.take i)
  | .forLoop _ pattern iterable body => match i with
    | 0 => .ok P
    | _ => do
      let P ← walkExpr P iterable
      let entry ← P.forBound pattern iterable
      return entry.1.enterFor pattern body entry.2
  | .whileLoop _ condition body => match i with
    | 0 => .ok P
    | _ => do
      let P ← walkExpr P condition
      return P.enterWhile condition body
  | .whileLet _ pattern value _ => match i with
    | 0 => .ok P
    | _ => do
      let P ← walkExpr P value
      return (P.forget pattern.bindingNames).deeper
  | .loop _ _ => .ok P.deeper
  | .breakExpr label _ => if label.isSome ∨ P.innerLoopDepth = 0 then .error .earlyExit else .ok P
  | .returnExpr _ => .error .earlyExit
  | .question _ => .error .earlyExit
  | .closure _ _ _ => .error .opaqueBodyConstruct
  | .unsafeBlock _ => .error .opaqueBodyConstruct
  | .tryBlock _ => .error .opaqueBodyConstruct
  | .seq _ => .error .opaqueBodyConstruct
  | .par _ => .error .opaqueBodyConstruct
  | .lock _ _ _ => .error .opaqueBodyConstruct
  | .providers _ _ => .error .opaqueBodyConstruct
  | .comptime _ => .error .opaqueBodyConstruct
  | e => walkNodes P ((exprChildren e).take i)

def atChild (P : Prover) (i : ℕ) : Node → Except DisjointDecline Prover
  | .block b => walkStmts P (b.stmts.take i)
  | .stmt s => P.atStmtChild i s
  | .arg _ => .ok P
  | .arm a => if i < a.guard.toList.length then .ok (P.forget a.pattern.bindingNames)
    else walkOption (P.forget a.pattern.bindingNames) a.guard
  | .expr e => P.atExprChild i e

/-- The part at the positions, and the state in which the walk comes to it. -/
def atPart (P : Prover) (n : Node) : List ℕ → Option (Node × Prover)
  | [] => some (n, P)
  | i :: rest => do
    let c ← n.children[i]?
    let P ← (P.atChild i n).toOption
    P.atPart c rest

end Prover

end Karac.Disjoint
