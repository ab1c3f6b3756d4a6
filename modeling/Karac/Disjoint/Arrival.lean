import Karac.Disjoint.Prover

/-! How an execution of the body of a loop comes to one of its parts. The statements before the part, in the blocks
around it, are run one by one. Whatever else is run on the way is only known by its effects: each is an assignment of a
statement within it, or a write through a reference. -/

namespace Karac.Disjoint

open Ast Karac.Lib

/-! The variables of the body. -/

/-- The place of a variable. What is not an integer has no value here. -/
structure Cell where
  isMut : Bool
  initialized : Bool
  value : Option ℤ

/-- An immutable variable is written once. -/
def Cell.Writable (c : Cell) : Prop := c.isMut = true ∨ c.initialized = false

/-- The variable that each name stands for. On the way to a part no scope is left, so that a variable that was shadowed
is not seen again. -/
abbrev Store := String → Option Cell

namespace Store

def value (σ : Store) (x : String) : Option ℤ := (σ x).bind Cell.value

/-- The integers, with zero for what is none. -/
def integers (σ : Store) (x : String) : ℤ := (σ.value x).getD 0

def declare (σ : Store) (x : String) (c : Cell) : Store := Function.update σ x (some c)

def write (σ : Store) (x : String) (c : Cell) (v : Option ℤ) : Store :=
  σ.declare x { c with initialized := true, value := v }

end Store

/-! What happens on the way. -/

inductive Event
  /-- A `let` of a block around declares the variable. -/
  | declared (x : String)
  /-- A statement of a block around assigns the variable. -/
  | assigned (x : String)
  /-- A pattern binds the names. -/
  | bound (names : List String)
  /-- A `let` that destructures binds the names. -/
  | rebound (names : List String)
  /-- The `else` block of a `let` that was passed has a statement that declares or assigns the name. -/
  | leaked (x : String) (inScope : Bool)
  /-- An assignment elsewhere, or a write through a reference (`own` is false). -/
  | changed (x : String) (old new : Option ℤ) (own : Bool)
  /-- The body of a loop is entered whose induction variable this is, `counted` where the loop is a `while`. -/
  | entered (x : String) (counted : Bool)

section

-- what the names and places outside of the loop hold, and the names that the body neither declares nor assigns
variable (atom : String → Option ℤ) (fixed : String → Bool)

def placeValue (suffix : String) : Expr → Option (Option ℤ)
  | .identifier recv => if fixed recv then some (atom (recv ++ suffix)) else none
  | _ => none

def arithmetic : IntOp → Option (ℤ → ℤ → ℤ)
  | .add => some (· + ·)
  | .sub => some (· - ·)
  | .mul => some (· * ·)
  | .lt => none
  | .le => none

def arithmeticValue (op : Option IntOp) (left right : Option (Option ℤ)) : Option (Option ℤ) := do
  let f ← op.bind arithmetic
  return Option.map₂ f (← left) (← right)

/-- The value of an expression that is arithmetic on literals, names and places outside. Overflow traps, so that a value
is the exact one. -/
def knownValue (σ : Store) : Expr → Option (Option ℤ)
  | .integer n => some (some n)
  | .identifier name => some (σ.value name)
  | .path [name] => some (σ.value name)
  | .path (first :: second :: rest) => some (atom (".".intercalate (first :: second :: rest)))
  | .unary .neg operand => (knownValue σ operand).map (Option.map Neg.neg)
  | .methodCall object method args =>
    if method = "len" ∧ args.isEmpty then placeValue atom fixed ".len()" object else none
  | .fieldAccess object field => placeValue atom fixed ("." ++ field) object
  | .call (.path [typeName, method]) [.mk _ _ operand] =>
    if isNegCall typeName method then (knownValue σ operand).map (Option.map Neg.neg) else none
  | .binary op left right => arithmeticValue (binaryOp op) (knownValue σ left) (knownValue σ right)
  | .call (.path [typeName, method]) [.mk _ _ left, .mk _ _ right] =>
    arithmeticValue (methodOp typeName method) (knownValue σ left) (knownValue σ right)
  | _ => none

/-- Any other expression may have any value. -/
def Evaluates (σ : Store) (e : Expr) (v : Option ℤ) : Prop := ∀ r, knownValue atom fixed σ e = some r → v = r

/-- A literal that is added is added. -/
inductive Assigns : Stmt → String → Option ℤ → Option ℤ → Prop
  | assign {target value : Expr} {x : String} {old new : Option ℤ} (hroot : assignTargetRoot target = some x)
    (hstep : ∀ k, target = .identifier x → incrementOf value x = some k → new = old.map (· + k.val)) :
    Assigns (.assign target value) x old new
  | compound {target value : Expr} {op : CompoundOp} {x : String} {old new : Option ℤ}
    (hroot : assignTargetRoot target = some x)
    (hstep : ∀ k, target = .identifier x → op = .add → value = .integer k → new = old.map (· + k)) :
    Assigns (.compoundAssign target op value) x old new

/-- What a part does to the variables around it. -/
inductive Effect (n : Node) (σ : Store) : Event → Store → Prop
  | own {s : Stmt} {x : String} {c : Cell} {new : Option ℤ} (hs : Node.Within (.stmt s) n) (hc : σ x = some c)
    (hw : c.Writable) (ha : Assigns s x c.value new) : Effect n σ (.changed x c.value new true) (σ.write x c new)
  /-- Nothing outside of the loop is written through a reference: its callers see to that. -/
  | foreign {x : String} {c : Cell} {new : Option ℤ} (hx : fixed x = false) (hc : σ x = some c) (hw : c.Writable) :
    Effect n σ (.changed x c.value new false) (σ.write x c new)

inductive Effects (n : Node) : Store → List Event → Store → Prop
  | nil (σ : Store) : Effects n σ [] σ
  | cons {σ σ' σ'' : Store} {e : Event} {t : List Event} (h : Effect fixed n σ e σ') (hs : Effects n σ' t σ'') :
    Effects n σ (e :: t) σ''

inductive Binds : List String → Store → Store → Prop
  | nil (σ : Store) : Binds [] σ σ
  | cons {x : String} {rest : List String} {σ σ' : Store} (c : Cell) (h : Binds rest (σ.declare x c) σ') :
    Binds (x :: rest) σ σ'

mutual

/-- The names that the statements of a block declare or assign, those of nested `else` blocks included. -/
def recordedNames : Block → List String
  | .mk stmts _ => recordedIn stmts

def recordedIn : List Stmt → List String
  | [] => []
  | s :: rest => recordedBy s ++ recordedIn rest

def recordedBy : Stmt → List String
  | .letStmt _ (.binding x) _ => [x]
  | .assign (.identifier x) _ => [x]
  | .letElse _ _ elseBlock => recordedNames elseBlock
  | _ => []

end

def leaks (σ : Store) (elseBlock : Block) : List Event :=
  (recordedNames elseBlock).map fun x => .leaked x (σ x).isSome

def isOther : Stmt → Bool
  | .assign (.identifier _) _ => false
  | .compoundAssign (.identifier _) _ _ => false
  | .assign _ _ => true
  | .compoundAssign _ _ _ => true
  | .expr _ => true
  | _ => false

/-- A statement is run to its end. -/
inductive Passes : Stmt → Store → List Event → Store → Prop
  | letName {isMut : Bool} {x : String} {e : Expr} {σ σ' : Store} {t : List Event} {v : Option ℤ}
    (he : Effects fixed (.expr e) σ t σ') (hv : Evaluates atom fixed σ' e v) :
    Passes (.letStmt isMut (.binding x) e) σ (t ++ [.declared x]) (σ'.declare x ⟨isMut, true, v⟩)
  | letPattern {isMut : Bool} {pattern : Pattern} {e : Expr} {σ σ' σ'' : Store} {t : List Event}
    (hp : Prover.loopName pattern = none) (he : Effects fixed (.expr e) σ t σ')
    (hb : Binds pattern.bindingNames σ' σ'') :
    Passes (.letStmt isMut pattern e) σ (t ++ [.rebound pattern.bindingNames]) σ''
  | letUninit {isMut : Bool} {x : String} (σ : Store) :
    Passes (.letUninit isMut x) σ [.declared x] (σ.declare x ⟨isMut, false, none⟩)
  -- the `else` block is left by a jump, and not passed
  | letElse {pattern : Pattern} {value : Expr} {elseBlock : Block} {σ σ' σ'' : Store} {t : List Event}
    (he : Effects fixed (.expr value) σ t σ') (hb : Binds pattern.bindingNames σ' σ'') :
    Passes (.letElse pattern value elseBlock) σ (t ++ leaks σ' elseBlock ++ [.bound pattern.bindingNames]) σ''
  | defer (body : Block) (σ : Store) : Passes (.defer body) σ [] σ
  | errDefer (binding : Option String) (body : Block) (σ : Store) : Passes (.errDefer binding body) σ [] σ
  | assign {x : String} {e : Expr} {σ σ' : Store} {t : List Event} {c : Cell} {v : Option ℤ}
    (he : Effects fixed (.expr e) σ t σ') (hc : σ' x = some c) (hw : c.Writable) (hv : Evaluates atom fixed σ' e v) :
    Passes (.assign (.identifier x) e) σ (t ++ [.assigned x]) (σ'.write x c v)
  | compound {x : String} {op : CompoundOp} {e : Expr} {σ σ' : Store} {t : List Event} {c : Cell} (v : Option ℤ)
    (he : Effects fixed (.expr e) σ t σ') (hc : σ' x = some c) (hw : c.Writable) :
    Passes (.compoundAssign (.identifier x) op e) σ (t ++ [.assigned x]) (σ'.write x c v)
  | other {s : Stmt} {σ σ' : Store} {t : List Event} (hs : isOther s = true) (he : Effects fixed (.stmt s) σ t σ') :
    Passes s σ t σ'

inductive PassesAll : List Stmt → Store → List Event → Store → Prop
  | nil (σ : Store) : PassesAll [] σ [] σ
  | cons {s : Stmt} {rest : List Stmt} {σ σ' σ'' : Store} {t t' : List Event} (h : Passes atom fixed s σ t σ')
    (hs : PassesAll rest σ' t' σ'') : PassesAll (s :: rest) σ (t ++ t') σ''

/-- The names that are bound in the child at a position. -/
def boundNames : Node → ℕ → List String
  | .expr (.ifLet pattern _ _ _), 1 => pattern.bindingNames
  | .expr (.whileLet _ pattern _ _), 1 => pattern.bindingNames
  | .expr (.forLoop _ pattern _ _), 1 => pattern.bindingNames
  | .expr (.closure params _ _), _ => params.flatMap Pattern.bindingNames
  | .expr (.lock _ innerName _), _ => innerName.toList
  | .stmt (.errDefer binding _), _ => binding.toList
  | .arm a, _ => a.pattern.bindingNames
  | _, _ => []

/-- A loop whose body is the child at a position is entered. -/
def entries : Node → ℕ → List Event
  | .expr (.forLoop _ (.binding x) _ _), 1 => [.entered x false]
  | .expr (.whileLoop _ condition body), 1 => match asIntegerBinop condition with
    | some (_, .identifier c, _) => if singleTrailingPositiveStep body c then [.entered c true] else []
    | _ => []
  | _, _ => []

/-- An execution of a part comes to the part of it at the positions. -/
inductive Arrives : Node → List ℕ → Node → Store → List Event → Store → Prop
  | here (n : Node) (σ : Store) : Arrives n [] n σ [] σ
  | stmt {b : Block} {i : ℕ} {s : Stmt} {rest : List ℕ} {m : Node} {σ σ' σ'' : Store} {t t' : List Event}
    (hs : b.stmts[i]? = some s) (hp : PassesAll atom fixed (b.stmts.take i) σ t σ')
    (h : Arrives (.stmt s) rest m σ' t' σ'') : Arrives (.block b) (i :: rest) m σ (t ++ t') σ''
  | final {b : Block} {e : Expr} {rest : List ℕ} {m : Node} {σ σ' σ'' : Store} {t t' : List Event}
    (he : b.finalExpr = some e) (hp : PassesAll atom fixed b.stmts σ t σ') (h : Arrives (.expr e) rest m σ' t' σ'') :
    Arrives (.block b) (b.stmts.length :: rest) m σ (t ++ t') σ''
  -- the rest of the part may have had its effects, such as those of iterations that are over
  | part {n c m : Node} {i : ℕ} {rest : List ℕ} {σ σ' σ'' σ''' : Store} {t t' : List Event} (hn : ∀ b, n ≠ .block b)
    (hc : n.children[i]? = some c) (he : Effects fixed n σ t σ') (hb : Binds (boundNames n i) σ' σ'')
    (h : Arrives c rest m σ'' t' σ''') :
    Arrives n (i :: rest) m σ (t ++ .bound (boundNames n i) :: entries n i ++ t') σ'''

/-! The runs of a `while` loop. -/

def compares : IntOp → ℤ → ℤ → Prop
  | .lt, a, b => a < b
  | .le, a, b => a ≤ b
  | _, _, _ => True

/-- The condition holds: an integer is compared with an integer. -/
def Holds (σ : Store) (condition : Expr) : Prop :=
  ∀ op left right, asIntegerBinop condition = some (op, left, right) →
    ∀ a, knownValue atom fixed σ left = some (some a) → ∃ b, Evaluates atom fixed σ right (some b) ∧ compares op a b

/-- Iterations from one test of the condition to another. -/
inductive Iterates (condition : Expr) (body : Block) : Store → List Event → Store → Prop
  | none (σ : Store) : Iterates condition body σ [] σ
  | again {σ σ' σ'' σ''' : Store} {t t' t'' : List Event} (hc : Effects fixed (.expr condition) σ t σ')
    (hh : Holds atom fixed σ' condition) (hb : Effects fixed (.block body) σ' t' σ'')
    (h : Iterates condition body σ'' t'' σ''') : Iterates condition body σ (t ++ t' ++ t'') σ'''

/-- A run of the loop comes to a part of its condition or of its body. -/
inductive ArrivesIn (label : Option String) (condition : Expr) (body : Block) :
    Node → Store → List Event → Store → Prop
  | condition {loc : List ℕ} {m : Node} {σ σ' σ'' : Store} {t t' : List Event}
    (hi : Iterates atom fixed condition body σ t σ') (h : Arrives atom fixed (.expr condition) loc m σ' t' σ'') :
    ArrivesIn label condition body m σ (t ++ t') σ''
  | body {loc : List ℕ} {m : Node} {σ σ' σ'' σ''' : Store} {t t' t'' : List Event}
    (hi : Iterates atom fixed condition body σ t σ') (hc : Effects fixed (.expr condition) σ' t' σ'')
    (hh : Holds atom fixed σ'' condition) (h : Arrives atom fixed (.block body) loc m σ'' t'' σ''') :
    ArrivesIn label condition body m σ (t ++ t' ++ (entries (.expr (.whileLoop label condition body)) 1 ++ t'')) σ'''

end

end Karac.Disjoint
