import Karac.Ast

/-! Pre-sizing: the `let` of an empty collection that a counted loop fills is given the loop's bound as its capacity. -/

namespace Karac.Lowering

open Karac.Ast

/-- Upper bound on a constant-literal capacity hint. -/
def maxLiteralBound : ℤ := 2 ^ 20

inductive Coll
  | vec | string
  deriving DecidableEq

def Coll.typeName : Coll → String
  | .vec => "Vec"
  | .string => "String"

/-! ## Names in an expression -/

mutual

/-- All identifier names; `none` on a form that is not understood. -/
def collectIdents : Expr → Option (List String)
  | .integer _ | .float | .bool _ | .charLit _ | .byteLit _ | .byteStringLit _ | .stringLit _ => some []
  | .identifier n => some [n]
  | .binary _ left right => do return (← collectIdents left) ++ (← collectIdents right)
  | .unary _ operand => collectIdents operand
  | .index object index => do return (← collectIdents object) ++ (← collectIdents index)
  | .fieldAccess object _ => collectIdents object
  | .tupleIndex object _ => collectIdents object
  | .methodCall object _ args => do return (← collectIdents object) ++ (← collectArgIdents args)
  | .call callee args => do return (← collectIdents callee) ++ (← collectArgIdents args)
  | .range start stop _ => do return (← collectOptionIdents start) ++ (← collectOptionIdents stop)
  | .path [n] => some [n]
  | _ => none

def collectArgIdents : List CallArg → Option (List String)
  | [] => some []
  | .mk _ _ value :: rest => do return (← collectIdents value) ++ (← collectArgIdents rest)

def collectOptionIdents : Option Expr → Option (List String)
  | none => some []
  | some e => collectIdents e

end

mutual

/-- Unknown shapes count as a mention. -/
def mentionsIdent (name : String) : Expr → Bool
  | .integer _ | .float | .bool _ | .charLit _ | .byteLit _ | .byteStringLit _ | .stringLit _ => false
  | .identifier n => n = name
  | .path segments => segments.head? = some name
  | .binary _ left right => mentionsIdent name left || mentionsIdent name right
  | .unary _ operand => mentionsIdent name operand
  | .index object index => mentionsIdent name object || mentionsIdent name index
  | .fieldAccess object _ => mentionsIdent name object
  | .tupleIndex object _ => mentionsIdent name object
  | .methodCall object _ args => mentionsIdent name object || argMentionsIdent name args
  | .call callee args => mentionsIdent name callee || argMentionsIdent name args
  | .range start stop _ => optionMentionsIdent name start || optionMentionsIdent name stop
  | _ => true

def argMentionsIdent (name : String) : List CallArg → Bool
  | [] => false
  | .mk _ _ value :: rest => mentionsIdent name value || argMentionsIdent name rest

def optionMentionsIdent (name : String) : Option Expr → Bool
  | none => false
  | some e => mentionsIdent name e

end

def stmtMentionsIdent (name : String) : Stmt → Bool
  | .letStmt _ _ value => mentionsIdent name value
  | .assign target value => mentionsIdent name target || mentionsIdent name value
  | .compoundAssign target _ value => mentionsIdent name target || mentionsIdent name value
  | .expr e => mentionsIdent name e
  | _ => true

def blockMentionsIdent (name : String) (b : Block) : Bool :=
  b.stmts.any (stmtMentionsIdent name) || b.finalExpr.any (mentionsIdent name)

def countIdentInExpr (name : String) (e : Expr) : Option ℕ := (collectIdents e).map fun idents => idents.count name

def countIdentInStmt (name : String) : Stmt → Option ℕ
  | .letStmt _ _ value => countIdentInExpr name value
  | .assign target value => do return (← countIdentInExpr name target) + (← countIdentInExpr name value)
  | .compoundAssign target _ value => do return (← countIdentInExpr name target) + (← countIdentInExpr name value)
  | .expr e => countIdentInExpr name e
  | _ => none

def countIdentInStmts (name : String) : List Stmt → Option ℕ
  | [] => some 0
  | s :: rest => do return (← countIdentInStmt name s) + (← countIdentInStmts name rest)

def countIdentInBlock (name : String) (b : Block) : Option ℕ := do
  let total ← countIdentInStmts name b.stmts
  match b.finalExpr with
  | none => return total
  | some e => return total + (← countIdentInExpr name e)

def assignTargetRootIs (name : String) : Expr → Bool
  | .identifier n => n = name
  | .index object _ => assignTargetRootIs name object
  | .fieldAccess object _ => assignTargetRootIs name object
  | .tupleIndex object _ => assignTargetRootIs name object
  | _ => false

def isIdent (name : String) : Expr → Bool
  | .identifier n => n = name
  | _ => false

mutual

/-- Assigned, or the receiver of a method call; unanalyzed forms might mutate. -/
def exprMutatesIdent (name : String) : Expr → Bool
  | .integer _ | .float | .bool _ | .charLit _ | .byteLit _ | .byteStringLit _ | .stringLit _ => false
  | .identifier _ | .path _ => false
  | .binary _ left right => exprMutatesIdent name left || exprMutatesIdent name right
  | .unary _ operand => exprMutatesIdent name operand
  | .index object index => exprMutatesIdent name object || exprMutatesIdent name index
  | .fieldAccess object _ => exprMutatesIdent name object
  | .tupleIndex object _ => exprMutatesIdent name object
  | .methodCall object _ args => isIdent name object || exprMutatesIdent name object || argMutatesIdent name args
  | .call callee args => exprMutatesIdent name callee || argMutatesIdent name args
  | .range start stop _ => optionMutatesIdent name start || optionMutatesIdent name stop
  | .ifThen condition thenBlock elseBranch =>
    exprMutatesIdent name condition || identMutatedInBlock name thenBlock || optionMutatesIdent name elseBranch
  | .block b => identMutatedInBlock name b
  | _ => true

def argMutatesIdent (name : String) : List CallArg → Bool
  | [] => false
  | .mk _ _ value :: rest => exprMutatesIdent name value || argMutatesIdent name rest

def optionMutatesIdent (name : String) : Option Expr → Bool
  | none => false
  | some e => exprMutatesIdent name e

def stmtMutatesIdent (name : String) : Stmt → Bool
  | .assign target value =>
    assignTargetRootIs name target || exprMutatesIdent name target || exprMutatesIdent name value
  | .compoundAssign target _ value =>
    assignTargetRootIs name target || exprMutatesIdent name target || exprMutatesIdent name value
  | .letStmt _ _ value => exprMutatesIdent name value
  | .expr e => exprMutatesIdent name e
  | _ => true

def stmtsMutateIdent (name : String) : List Stmt → Bool
  | [] => false
  | s :: rest => stmtMutatesIdent name s || stmtsMutateIdent name rest

def identMutatedInBlock (name : String) : Block → Bool
  | .mk stmts finalExpr => stmtsMutateIdent name stmts || optionMutatesIdent name finalExpr

end

/-! ## The fill -/

def exprHasEarlyExit : Expr → Bool
  | .breakExpr _ _ | .continueExpr _ | .returnExpr _ => true
  | _ => false

def stmtHasEarlyExit : Stmt → Bool
  | .expr e => exprHasEarlyExit e
  | .letStmt _ _ value => exprHasEarlyExit value
  | .assign target value => exprHasEarlyExit target || exprHasEarlyExit value
  | .compoundAssign target _ value => exprHasEarlyExit target || exprHasEarlyExit value
  | _ => false

def blockHasEarlyExit (b : Block) : Bool := b.stmts.any stmtHasEarlyExit || b.finalExpr.any exprHasEarlyExit

def isPushTo (v : String) : Expr → Bool
  | .methodCall object method _ => isIdent v object && method ∈ ["push", "push_str", "push_back"]
  | _ => false

/-- The leftmost leaf of a chain of `+`. -/
def addChainRoot : Expr → Expr
  | .binary .add left _ => addChainRoot left
  | e => e

def addChainRootIs (v : String) : Expr → Bool
  | .binary .add left _ => isIdent v (addChainRoot left)
  | _ => false

/-- The three spellings of an append: `v.push(x)`, `v = v + x` and `v += x`. -/
def stmtAppendsTo (v : String) : Stmt → Bool
  | .expr e => isPushTo v e
  | .assign target value => isIdent v target && addChainRootIs v value
  | .compoundAssign target op _ => op = .add && isIdent v target
  | _ => false

def topLevelPushCount (body : Block) (v : String) : ℕ :=
  body.stmts.countP (stmtAppendsTo v) + if body.finalExpr.any (isPushTo v) then 1 else 0

def armPushesVOnce (block : Block) (v : String) : Bool :=
  !blockHasEarlyExit block && (countIdentInBlock v block).isSome && topLevelPushCount block v = 1

def isBalancedIfPush (v : String) : Expr → Bool
  | .ifThen condition thenBlock elseBranch =>
    !mentionsIdent v condition && armPushesVOnce thenBlock v && match elseBranch with
      | some (.block b) => armPushesVOnce b v
      | _ => false
  | _ => false

def stmtIsBalancedIfPush (v : String) : Stmt → Bool
  | .expr e => isBalancedIfPush v e
  | _ => false

/-- The only mention of `v` is one balanced `if`. -/
def balancedIfFillsOnce (body : Block) (v : String) : Bool :=
  let mentioning := body.stmts.filter (stmtMentionsIdent v)
  let final := body.finalExpr.filter (mentionsIdent v)
  mentioning.all (stmtIsBalancedIfPush v) && final.all (isBalancedIfPush v) &&
    mentioning.length + final.toList.length = 1

def bodyFillsOnce (body : Block) (v : String) : Bool :=
  !blockHasEarlyExit body &&
    if (countIdentInBlock v body).isSome then topLevelPushCount body v = 1 else balancedIfFillsOnce body v

/-- Only a huge constant is refused. -/
def isGiantLiteral : Expr → Bool
  | .integer k => k < 0 || maxLiteralBound < k
  | _ => false

def fillLoopOk (body : Block) (v : String) (iv : Option String) (bound : Expr) (boundBetween : List String) : Bool :=
  bodyFillsOnce body v && match collectIdents bound with
    | none => false
    | some boundIdents =>
      !(boundIdents.any fun n => n = v || some n = iv) && !isGiantLiteral bound &&
        !(boundIdents.any fun n => n ∈ boundBetween) && !(boundIdents.any fun n => identMutatedInBlock n body)

/-! ## The search for the fill loop -/

inductive LoopVerdict
  | skip
  | bail
  | presize (bound : Expr)

def loopTouchesVVerdict (header : Expr) (body : Block) (v : String) : LoopVerdict :=
  if mentionsIdent v header || blockMentionsIdent v body then .bail else .skip

def addConst (e : Expr) (k : ℤ) : Expr := .binary .add e (.integer k)

/-- The counter and the bound of `while IV < BOUND` and `while IV <= BOUND`, and whether it is inclusive. -/
def countedCondition : Expr → Option (String × Expr × Bool)
  | .binary .lt (.identifier iv) right => some (iv, right, false)
  | .binary .ltEq (.identifier iv) right => some (iv, right, true)
  | _ => none

def analyzeWhile (condition : Expr) (body : Block) (v : String) (boundBetween : List String) : LoopVerdict :=
  match countedCondition condition with
  | some (iv, right, inclusive) =>
    if iv ≠ v && fillLoopOk body v (some iv) right boundBetween then
      .presize (if inclusive then addConst right 1 else right)
    else loopTouchesVVerdict condition body v
  | none => loopTouchesVVerdict condition body v

/-- An expression that may be evaluated twice. -/
def isPlaceExpr : Expr → Bool
  | .identifier _ | .selfValue => true
  | .fieldAccess object _ => isPlaceExpr object
  | .tupleIndex object _ => isPlaceExpr object
  | _ => false

def iterableLenBound : Expr → Option Expr
  | .methodCall object method [] =>
    if method ∈ ["chars", "bytes"] && isPlaceExpr object then some (.methodCall object "len" []) else none
  | _ => none

/-- The bounds that a `for` may fill to. -/
def forBound : Expr → Option Expr
  | .range _ (some stop) _ => some stop
  | iterable => iterableLenBound iterable

def bindingName : Pattern → Option String
  | .binding n => some n
  | _ => none

def analyzeFor (pattern : Pattern) (iterable : Expr) (body : Block) (v : String) (boundBetween : List String) :
    LoopVerdict :=
  match forBound iterable with
  | some bound =>
    if fillLoopOk body v (bindingName pattern) bound boundBetween then .presize bound
    else loopTouchesVVerdict iterable body v
  | none => loopTouchesVVerdict iterable body v

def collectLetBoundNames : Stmt → List String
  | .letStmt _ pattern _ => (bindingName pattern).toList
  | .letUninit _ name => [name]
  | _ => []

/-- What the search makes of one statement: it goes on with more names bound and more appends counted, or ends. -/
inductive Scanned
  | next (bound : List String) (appends : ℤ)
  | done (bound : Option Expr)

def LoopVerdict.scanned : LoopVerdict → List String → ℤ → Scanned
  | .skip, boundBetween, appends => .next boundBetween appends
  | .bail, _, _ => .done none
  | .presize bound, _, appends => .done (some (if 0 < appends then addConst bound appends else bound))

def scanExprStmt (v : String) (e : Expr) (boundBetween : List String) (appends : ℤ) : Scanned :=
  match e with
  | .whileLoop _ condition body => (analyzeWhile condition body v boundBetween).scanned boundBetween appends
  | .forLoop _ pattern iterable body => (analyzeFor pattern iterable body v boundBetween).scanned boundBetween appends
  | e =>
    if isPushTo v e then .next boundBetween (appends + 1)
    else if mentionsIdent v e then .done none
    else .next boundBetween appends

def scanStmt (v : String) (stmt : Stmt) (boundBetween : List String) (appends : ℤ) : Scanned :=
  match stmt with
  | .expr e => scanExprStmt v e boundBetween appends
  | stmt =>
    if stmtAppendsTo v stmt then .next boundBetween (appends + 1)
    else if stmtMentionsIdent v stmt then .done none
    else .next (boundBetween ++ collectLetBoundNames stmt) appends

def scanFill (v : String) : List Stmt → List String → ℤ → Option Expr
  | [], _, _ => none
  | stmt :: rest, boundBetween, appends =>
    match scanStmt v stmt boundBetween appends with
    | .next boundBetween' appends' => scanFill v rest boundBetween' appends'
    | .done bound => bound

/-- The capacity of the fill of `v` that the statements after its `let` hold. -/
def findFillBound (rest : List Stmt) (v : String) : Option Expr := scanFill v rest [] 0

/-! ## The rewrite -/

def emptyColl : Expr → Option Coll
  | .stringLit "" => some .string
  | .call (.path ["Vec", "new"]) [] => some .vec
  | .call (.path ["String", "new"]) [] => some .string
  | _ => none

def presizableLet : Stmt → Option (String × Coll)
  | .letStmt true (.binding name) value => (emptyColl value).map fun coll => (name, coll)
  | _ => none

def withCapacity (coll : Coll) (bound : Expr) : Expr :=
  .call (.path [coll.typeName, "with_capacity"]) [.mk none false bound]

/-- The bound that the statement's collection is given, with the collection's name and kind. -/
def presizedTo (stmt : Stmt) (rest : List Stmt) : Option (String × Coll × Expr) := do
  let (v, coll) ← presizableLet stmt
  return (v, coll, ← findFillBound rest v)

def rewriteToWithCapacity (stmt : Stmt) (rest : List Stmt) : Stmt :=
  match presizedTo stmt rest with
  | some (v, coll, bound) => .letStmt true (.binding v) (withCapacity coll bound)
  | none => stmt

/-- Statements are rewritten in order, each with those after it as they were. -/
def presizeStmts : List Stmt → List Stmt
  | [] => []
  | stmt :: rest => rewriteToWithCapacity stmt rest :: presizeStmts rest

def presizeBlock : Block → Block
  | .mk stmts finalExpr => .mk (presizeStmts stmts) finalExpr

end Karac.Lowering

/-! What a block does when it is run. The meaning of expressions and statements is a parameter, of which a structure
says what pre-sizing touches: `let`, the empty collections, `with_capacity`, and the forms of a plain bound. -/

namespace Karac.Lowering

open Karac.Ast

/-- How a run ends otherwise than with a value. -/
inductive Stop (V : Type*)
  | returned (value : V)
  | broke (label : Option String) (value : Option V)
  | continued (label : Option String)
  | trapped (message : String)
  deriving DecidableEq

inductive Outcome (σ V α : Type*)
  | value (a : α) (s : σ)
  | stopped (r : Stop V) (s : σ)
  | diverges
  deriving DecidableEq

namespace Outcome

variable {σ V α β γ : Type*}

def bind (o : Outcome σ V α) (k : α → σ → Outcome σ V β) : Outcome σ V β :=
  match o with
  | .value a s => k a s
  | .stopped r s => .stopped r s
  | .diverges => .diverges

@[simp] theorem value_bind (a : α) (s : σ) (k : α → σ → Outcome σ V β) : (value a s).bind k = k a s := rfl

@[simp] theorem bind_value (o : Outcome σ V α) : (o.bind fun a s => .value a s) = o := by
  cases o <;> rfl

theorem bind_congr {o : Outcome σ V α} {k k' : α → σ → Outcome σ V β} (h : ∀ a s, o = .value a s → k a s = k' a s) :
    o.bind k = o.bind k' := by
  cases o with
  | value a s => exact h a s rfl
  | stopped r s => rfl
  | diverges => rfl

end Outcome

/-- The state holds the variables, the heap and what has been output. -/
structure Language (σ V : Type*) where
  eval : Expr → σ → Outcome σ V V
  exec : Stmt → σ → Outcome σ V Unit
  /-- What leaving a block does to its outcome: its deferred blocks and the drops of its locals. -/
  leave : Outcome σ V V → Outcome σ V V
  unit : V
  ofInt : ℤ → V
  asInt : V → Option ℤ
  /-- The integer is in the range of the value's type. -/
  Fits : V → ℤ → Prop
  lookup : String → σ → Option V
  declare : String → V → σ → σ
  /-- The length of the collection that a place holds. -/
  length : Expr → σ → Option ℕ
  /-- The checked sum. -/
  plus : V → V → σ → Outcome σ V V
  empty : Coll → V
  /-- `with_capacity`, once its argument has a value. -/
  allocate : Coll → V → σ → Outcome σ V V
  /-- The values that `with_capacity` makes an empty collection of. -/
  IsCapacity : V → Prop
  asInt_ofInt : ∀ n, asInt (ofInt n) = some n
  exec_let : ∀ x e s, exec (.letStmt true (.binding x) e) s = (eval e s).bind fun v s => .value () (declare x v s)
  eval_empty : ∀ e c s, emptyColl e = some c → eval e s = .value (empty c) s
  eval_with_capacity : ∀ c e s, eval (withCapacity c e) s = (eval e s).bind (allocate c)
  allocate_iff : ∀ c v s s', allocate c v s = .value (empty c) s' ↔ IsCapacity v ∧ s' = s
  capacity_of_nonneg : ∀ v n, asInt v = some n → 0 ≤ n → IsCapacity v
  eval_integer : ∀ k s, eval (.integer k) s = .value (ofInt k) s
  eval_identifier : ∀ x v n s, lookup x s = some v → asInt v = some n → eval (.identifier x) s = .value v s
  eval_len : ∀ e n s, isPlaceExpr e = true → length e s = some n →
    eval (.methodCall e "len" []) s = .value (ofInt n) s
  eval_add : ∀ l r s, eval (.binary .add l r) s = (eval l s).bind fun a s => (eval r s).bind fun b s => plus a b s
  plus_of_fits : ∀ a b m n s, asInt a = some m → asInt b = some n → Fits a (m + n) →
    ∃ v, plus a b s = .value v s ∧ asInt v = some (m + n)

namespace Language

variable {σ V : Type*} (L : Language σ V)

def runStmts : List Stmt → σ → Outcome σ V Unit
  | [], s => .value () s
  | stmt :: rest, s => (L.exec stmt s).bind fun _ s => runStmts rest s

def runBlock : Block → σ → Outcome σ V V
  | .mk stmts finalExpr, s => L.leave <| (L.runStmts stmts s).bind fun _ s =>
    match finalExpr with
    | none => .value L.unit s
    | some e => L.eval e s

/-- Evaluating the expression has no effect, does not stop the run, and yields a capacity. -/
def Quiet (e : Expr) (s : σ) : Prop := ∃ v, L.eval e s = .value v s ∧ L.IsCapacity v

/-- Wherever the run comes to a collection that is given a capacity, evaluating the capacity is quiet. -/
def Settled : List Stmt → σ → Prop
  | [], _ => True
  | stmt :: rest, s => (∀ p ∈ presizedTo stmt rest, L.Quiet p.2.2 s) ∧
    ∀ s', L.exec stmt s = .value () s' → Settled rest s'

/-- A sum of literals, of names and of lengths of places that fits its type, with its value in `s`. -/
inductive Plain (s : σ) : Expr → ℤ → Prop
  | integer (k : ℤ) : Plain s (.integer k) k
  | identifier {x : String} {v : V} {n : ℤ} (hx : L.lookup x s = some v) (hv : L.asInt v = some n) :
    Plain s (.identifier x) n
  | len {object : Expr} {n : ℕ} (hplace : isPlaceExpr object = true) (hn : L.length object s = some n) :
    Plain s (.methodCall object "len" []) n
  | add {left right : Expr} {m n : ℤ} (hleft : Plain s left m) (hright : Plain s right n)
    (hfits : ∀ v, L.eval left s = .value v s → L.Fits v (m + n)) : Plain s (.binary .add left right) (m + n)

end Language

end Karac.Lowering
