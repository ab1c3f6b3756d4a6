import Karac.Effects.EffectVariables

/-! The check of named effect variables: two arguments in slots of one variable have the same effects. The walk that
looks for the calls has no arm for six forms of expression. -/

namespace Karac.Effects

open Ast
open Concurrency (EffectVerbKind effectVerbLabel)

/-- Where a node stands: its function, and the indices of the children on the way to it. -/
structure Address where
  place : Place
  path : List ℕ
  deriving DecidableEq, Repr

namespace Address

def child (a : Address) (i : ℕ) : Address := ⟨a.place, a.path ++ [i]⟩

/-- The value of argument `i` of the call at an address, after its callee or receiver. -/
def arg (a : Address) (i : ℕ) : Address := (a.child (i + 1)).child 0

theorem arg_injective {a b : Address} {i j : ℕ} (h : a.arg i = b.arg j) : a = b := by
  obtain ⟨place, path⟩ := a
  obtain ⟨place', path'⟩ := b
  simp only [arg, child, Address.mk.injEq] at h
  obtain ⟨rfl, hpath⟩ := h
  rw [(List.append_inj' (List.append_inj' hpath rfl).1 rfl).1]

end Address

/-- An `EffectVariableConflict`. -/
structure VariableConflict where
  message : String
  span : Address
  deriving DecidableEq, Repr

/-- What the check reads. The side table has the callee of a method call. -/
structure UnificationProgram where
  items : List Item
  checker : EffectChecker
  inferredEffects : EffectMap
  methodCalleeTypes : Address → Option Symbol
  /-- `collect_calls_in_expr` of the body of the closure there. -/
  closureCalls : Address → List Symbol
  transparentEffects : Finset String

section

variable (prog : UnificationProgram)

def isTransparentVerb (verb : EffectVerbKind) : Bool := decide (effectVerbLabel verb ∈ prog.transparentEffects)

/-- Only names of functions and closures have effects. -/
def getArgEffects (a : Address) : Expr → List Effect
  | .identifier name => (calleeEffectSets prog.checker prog.inferredEffects name).iter
  | .closure _ _ _ => (prog.closureCalls a).flatMap fun callee => (calleeEffectSets prog.checker prog.inferredEffects callee).iter
  | _ => []

def concreteEffects (a : Address) (arg : Expr) : List Effect :=
  ((getArgEffects prog a arg).filter fun e => !isTransparentVerb prog e.verb).dedup

/-- As a set. -/
def argConcrete (a : Address) (arg : Expr) : Finset Effect := (concreteEffects prog a arg).toFinset

def renderEffect (e : Effect) : String := effectVerbLabel e.verb ++ "(" ++ e.resource ++ ")"

def renderEffects (effects : List Effect) : String :=
  "\x7b" ++ ", ".intercalate (effects.map renderEffect).mergeSort ++ "\x7d"

def variableConflict (name : String) (firstIdx : ℕ) (first : List Effect) (idx : ℕ) (set : List Effect)
    (span : Address) : VariableConflict where
  message := "effect variable `" ++ name ++ "` is bound to " ++ renderEffects first ++ " at argument " ++
    toString firstIdx ++ " but " ++ renderEffects set ++ " at argument " ++ toString idx ++ "; `with " ++ name ++
    "` requires every slot to agree"
  span := span

/-- The slots of one variable: the first argument there binds it. -/
def checkSlots (a : Address) (args : List CallArg) (name : String) :
    Option (ℕ × List Effect) → List ℕ → List VariableConflict
  | _, [] => []
  | binding, idx :: indices =>
    match args[idx]? with
    | none => checkSlots a args name binding indices
    | some arg =>
      let set := concreteEffects prog (a.arg idx) arg.value
      match binding with
      | none => checkSlots a args name (some (idx, set)) indices
      | some (firstIdx, first) =>
        (if first.toFinset ≠ set.toFinset then [variableConflict name firstIdx first idx set (a.arg idx)] else []) ++
          checkSlots a args name (some (firstIdx, first)) indices

/-- A variable in one slot is free. -/
def checkCallWithEUnification (key : Symbol) (a : Address) (args : List CallArg) : List VariableConflict :=
  match buildFnEffectVarPositions prog.items key with
  | none => []
  | some positions =>
    positions.flatMap fun entry => if entry.2.length < 2 then [] else checkSlots prog a args entry.1 none entry.2

def extractCalleeName : Expr → Option Symbol
  | .identifier name => some name
  | .path [head, last] => some (dotted head last)
  | .path segments => segments.getLast?
  | _ => none

/-- The key and the arguments of a call. -/
def calleeOf (a : Address) : Expr → Option (Symbol × List CallArg)
  | .call callee args => (extractCalleeName callee).map fun key => (key, args)
  | .methodCall _ _ args => (prog.methodCalleeTypes a).map fun key => (key, args)
  | _ => none

def checkNode (a : Address) : Node → List VariableConflict
  | .expr e =>
    match calleeOf prog a e with
    | some (key, args) => checkCallWithEUnification prog key a args
    | none => []
  | _ => []

end

/-- The parts that the walk enters, form by form. -/
def walkedParts : Expr → List Node
  | .call callee args => .expr callee :: args.map .arg
  | .methodCall object _ args => .expr object :: args.map .arg
  | .binary _ left right => [.expr left, .expr right]
  | .pipe left right => [.expr left, .expr right]
  | .nilCoalesce left right => [.expr left, .expr right]
  | .unary _ operand => [.expr operand]
  | .question operand => [.expr operand]
  | .fieldAccess object _ => [.expr object]
  | .tupleIndex object _ => [.expr object]
  | .index object index => [.expr object, .expr index]
  | .tuple es => es.map .expr
  | .arrayLiteral es => es.map .expr
  | .prefixCollectionLiteral _ items => items.map .expr
  | .repeatLiteral _ value count => [.expr value, .expr count]
  | .mapLiteral pairs => pairs.flatMap fun p => [.expr p.1, .expr p.2]
  | .block b => [.block b]
  | .unsafeBlock b => [.block b]
  | .tryBlock b => [.block b]
  | .seq b => [.block b]
  | .par b => [.block b]
  | .lock _ _ body => [.block body]
  | .ifThen condition thenBlock elseBranch => .expr condition :: .block thenBlock :: elseBranch.toList.map .expr
  | .ifLet _ value thenBlock elseBranch => .expr value :: .block thenBlock :: elseBranch.toList.map .expr
  | .matchOn scrutinee arms => .expr scrutinee :: arms.map .arm
  | .whileLoop _ condition body => [.expr condition, .block body]
  | .whileLet _ _ value body => [.expr value, .block body]
  | .forLoop _ _ iterable body => [.expr iterable, .block body]
  | .loop _ body => [.block body]
  | .closure _ _ body => [.expr body]
  | .returnExpr (some e) => [.expr e]
  | .breakExpr _ (some e) => [.expr e]
  | .cast e => [.expr e]
  | .optionalChain object _ (some args) => .expr object :: args.map .arg
  | .optionalChain object _ none => [.expr object]
  | _ => []

def walked : Node → List Node
  | .expr e => walkedParts e
  | n => n.children

/-- The forms with parts for which the walk has no arm. -/
def skipped : Node → Bool
  | .expr (.interpolatedStringLit _) => true
  | .expr (.comptime _) => true
  | .expr (.labeledBlock _ _) => true
  | .expr (.structLiteral _ _ _) => true
  | .expr (.range _ _ _) => true
  | .expr (.providers _ _) => true
  | _ => false

theorem walked_of_skipped (n : Node) (h : skipped n = true) : walked n = [] := by
  cases n with
  | expr e => cases e <;> first | rfl | cases h
  | _ => cases h

theorem walked_of_entered (n : Node) (h : skipped n = false) : walked n = n.children := by
  cases n with
  | expr e =>
    cases e with
    | returnExpr value => cases value <;> rfl
    | breakExpr label value => cases value <;> rfl
    | optionalChain object name args => cases args <;> rfl
    | _ => first | rfl | cases h
  | _ => rfl

theorem walked_subset (n c : Node) (h : c ∈ walked n) : c ∈ n.children := by
  cases hn : skipped n with
  | true =>
    rw [walked_of_skipped n hn] at h
    cases h
  | false => rwa [← walked_of_entered n hn]

section

variable (prog : UnificationProgram)

/-- `check_with_e_in_block`, `check_with_e_in_stmt` and `check_with_e_in_expr`: a call before its parts. -/
def checkWithE (a : Address) (n : Node) : List VariableConflict :=
  checkNode prog a n ++ (walked n).zipIdx.attach.flatMap fun c => checkWithE (a.child c.1.2) c.1.1
termination_by n.size
decreasing_by exact below_children n _ (walked_subset n _ (List.fst_mem_of_mem_zipIdx c.2))

/-- A table has one function for a key, the last. -/
def insertBody (table : List Declaration) (d : Declaration) : List Declaration :=
  table.filter (fun e => e.key ≠ d.key) ++ [d]

def Declaration.hasBody (d : Declaration) (isMethod : Bool) : Bool := d.isMethod == isMethod && d.function.body.isSome

/-- `function_bodies` or `method_bodies`. -/
def bodiesTable (isMethod : Bool) : List Declaration :=
  (declarations prog.items).foldl (fun table d => if d.hasBody isMethod then insertBody table d else table) []

def checkFunctionBody (d : Declaration) : List VariableConflict :=
  match d.function.body with
  | some body => checkWithE prog ⟨d.place, []⟩ (.block body)
  | none => []

def checkWithEUnification : List VariableConflict :=
  (bodiesTable prog false ++ bodiesTable prog true).flatMap (checkFunctionBody prog)

/-! The visited nodes. -/

/-- `m` stands in `n` at `path`, and no node before it is skipped. -/
inductive Visited : Node → List ℕ → Node → Prop
  | here (n : Node) : Visited n [] n
  | down {n c m : Node} {i : ℕ} {path : List ℕ} : skipped n = false → n.children[i]? = some c → Visited c path m →
      Visited n (i :: path) m

theorem mem_checkWithE {a : Address} {n : Node} {err : VariableConflict} :
    err ∈ checkWithE prog a n ↔ ∃ path m, Visited n path m ∧ err ∈ checkNode prog ⟨a.place, a.path ++ path⟩ m := by
  induction n using Node.childInduction generalizing a with
  | h n ih =>
    rw [checkWithE, List.mem_append]
    constructor
    · rintro (hhere | hdown)
      · exact ⟨[], n, .here n, by rwa [List.append_nil]⟩
      · obtain ⟨⟨⟨c, i⟩, hc⟩, -, herr⟩ := List.mem_flatMap.mp hdown
        have hwalked := List.mk_mem_zipIdx_iff_getElem?.mp hc
        have hentered : skipped n = false := by
          rw [← Bool.not_eq_true]
          intro hskipped
          rw [walked_of_skipped n hskipped] at hwalked
          cases hwalked
        rw [walked_of_entered n hentered] at hwalked
        obtain ⟨path, m, hvisited, herr⟩ := (ih c (List.mem_of_getElem? hwalked)).mp herr
        exact ⟨i :: path, m, .down hentered hwalked hvisited, by simpa [Address.child] using herr⟩
    · rintro ⟨path, m, hvisited, herr⟩
      cases hvisited with
      | here => exact .inl (by rwa [List.append_nil] at herr)
      | @down _ c _ i path hentered hat hvisited =>
        refine .inr (List.mem_flatMap.mpr ⟨⟨(c, i), ?_⟩, List.mem_attach _ _, ?_⟩)
        · rw [List.mk_mem_zipIdx_iff_getElem?, walked_of_entered n hentered]
          exact hat
        · exact (ih c (List.mem_of_getElem? hat)).mpr ⟨path, m, hvisited, by simpa [Address.child] using herr⟩

/-! The check of one call. -/

theorem span_of_checkSlots {a : Address} {args : List CallArg} {name : String} {binding : Option (ℕ × List Effect)}
    {indices : List ℕ} {err : VariableConflict} (h : err ∈ checkSlots prog a args name binding indices) :
    ∃ i, err.span = a.arg i := by
  induction indices generalizing binding with
  | nil => cases h
  | cons idx indices ih =>
    rw [checkSlots] at h
    cases harg : args[idx]? with
    | none =>
      rw [harg] at h
      exact ih h
    | some arg =>
      cases binding with
      | none =>
        simp only [harg] at h
        exact ih h
      | some first =>
        simp only [harg, List.mem_append] at h
        rcases h with h | h
        · split at h
          · obtain rfl := List.mem_singleton.mp h
            exact ⟨idx, rfl⟩
          · cases h
        · exact ih h

theorem span_of_checkNode {a : Address} {n : Node} {err : VariableConflict} (h : err ∈ checkNode prog a n) :
    ∃ i, err.span = a.arg i := by
  cases n with
  | expr e =>
    rw [checkNode] at h
    split at h
    · rw [checkCallWithEUnification] at h
      split at h
      · cases h
      · obtain ⟨entry, -, h⟩ := List.mem_flatMap.mp h
        split at h
        · cases h
        · exact span_of_checkSlots prog h
    · cases h
  | _ => cases h

/-- The effects of the argument in a slot, where there is one. -/
def slotEffects (a : Address) (args : List CallArg) (i : ℕ) : Option (Finset Effect) :=
  (args[i]?).map fun arg => argConcrete prog (a.arg i) arg.value

/-- Two of the slots have arguments with different effects. -/
def Disagree (a : Address) (args : List CallArg) (indices : List ℕ) : Prop :=
  ∃ i ∈ indices, ∃ j ∈ indices, ∃ s t, slotEffects prog a args i = some s ∧ slotEffects prog a args j = some t ∧ s ≠ t

theorem checkSlots_bound (a : Address) (args : List CallArg) (name : String) (firstIdx : ℕ) (first : List Effect)
    (indices : List ℕ) :
    checkSlots prog a args name (some (firstIdx, first)) indices ≠ [] ↔
      ∃ i ∈ indices, ∃ s, slotEffects prog a args i = some s ∧ first.toFinset ≠ s := by
  induction indices with
  | nil => simp [checkSlots]
  | cons idx indices ih =>
    rw [checkSlots, List.exists_mem_cons_iff, ← ih, slotEffects]
    cases harg : args[idx]? with
    | none => simp
    | some arg =>
      simp only [argConcrete]
      by_cases hset : first.toFinset = (concreteEffects prog (a.arg idx) arg.value).toFinset
      · simp [hset]
      · simp [hset]

theorem checkSlots_free (a : Address) (args : List CallArg) (name : String) (indices : List ℕ) :
    checkSlots prog a args name none indices ≠ [] ↔ Disagree prog a args indices := by
  induction indices with
  | nil => simp [checkSlots, Disagree]
  | cons idx indices ih =>
    rw [checkSlots]
    cases harg : args[idx]? with
    | none =>
      have hfree : slotEffects prog a args idx = none := by rw [slotEffects, harg, Option.map_none]
      simp only [ih, Disagree, List.exists_mem_cons_iff, hfree]
      simp
    | some arg =>
      have hbound : slotEffects prog a args idx = some (argConcrete prog (a.arg idx) arg.value) := by
        rw [slotEffects, harg, Option.map_some]
      simp only [checkSlots_bound, ← argConcrete.eq_1]
      constructor
      · rintro ⟨j, hj, s, hs, hne⟩
        exact ⟨idx, List.mem_cons_self, j, List.mem_cons_of_mem _ hj, _, s, hbound, hs, hne⟩
      · rintro ⟨i, hi, j, hj, s, t, hs, ht, hne⟩
        -- one of the two differs from the first
        by_cases hfirst : argConcrete prog (a.arg idx) arg.value = s
        · refine ⟨j, List.mem_of_ne_of_mem ?_ hj, t, ht, hfirst ▸ hne⟩
          rintro rfl
          exact hne (hfirst.symm.trans (Option.some.inj (hbound.symm.trans ht)))
        · refine ⟨i, List.mem_of_ne_of_mem ?_ hi, s, hs, hfirst⟩
          rintro rfl
          exact hfirst (Option.some.inj (hbound.symm.trans hs))

end

end Karac.Effects
