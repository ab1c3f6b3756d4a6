import Karac.Runtime.LazyFold

/-! Lazy plans, and `fold_plan`, which accepts a plan and gives its optimized form. -/

namespace Karac.Runtime.Lazy

/-- The rows of columns of one length. -/
def colsHeight {F : Type} : List (FrameCol F) → ℕ
  | [] => 0
  | c :: _ => c.valid.length

/-- A source frame: its columns have one length. -/
structure Frame (F : Type) where
  cols : List (FrameCol F)
  height : ∀ c ∈ cols, c.valid.length = colsHeight cols

mutual

inductive PlanOp (F : Type)
  | select (cols : List String)
  | limit (n : ℤ)
  | filter (e : ExprNode F)
  | sort (keys : List (ExprNode F))
  | groupBy (keys aggs : List (ExprNode F))
  | join (right : LazyPlan F) (on : List String)
  | withColumns (exprs : List (ExprNode F))

inductive LazyPlan (F : Type)
  | mk (frame : Frame F) (ops : List (PlanOp F))

end

structure OptimizedPlan (F : Type) where
  scanCols : Option (List String)
  steps : List (PlanOp F)
  projection : Option (List String)
  finalSchema : List String

def names {F : Type} (cols : List (FrameCol F)) : List String := cols.map FrameCol.name

/-- A key is a column, which may have another name in the output. -/
def groupKeyName {F : Type} : ExprNode F → Except LazyError String
  | .col n => .ok n
  | .aliased name (.col _) => .ok name
  | _ => .error .keyNotColumn

def groupKeyInnerCol {F : Type} : ExprNode F → Option String
  | .col n => some n
  | .aliased _ (.col n) => some n
  | _ => none

def aggOutputName {F : Type} : ExprNode F → Except LazyError String
  | .aliased name (.agg _ _) => .ok name
  | .aliased _ _ => .error .notAggregate
  | .agg op (.col c) => .ok (c ++ "_" ++ op.name)
  | .agg _ _ => .error .argumentNotColumn
  | _ => .error .notAggregate

def withColumnsOutput {F : Type} : ExprNode F → Except LazyError (String × ExprNode F)
  | .aliased name expr => .ok (name, expr)
  | .col n => .ok (n, .col n)
  | _ => .error .noOutputName

/-- The plan so far. Past a grouping the scan is no longer read, and a join reads every column. -/
structure FoldState (F : Type) where
  visible : List String
  projection : Option (List String) := none
  needed : List String := []
  steps : List (PlanOp F) := []
  pastGroupBy : Bool := false
  pastJoin : Bool := false

def checkVisible (step : String) (visible : List String) : List String → Except LazyError Unit
  | [] => .ok ()
  | c :: cols => if c ∈ visible then checkVisible step visible cols else .error (.unknownColumn step c)

section

variable {F : Type}

namespace FoldState

def need (st : FoldState F) (cols : List String) : FoldState F :=
  if st.pastGroupBy then st else { st with needed := cols.foldl (fun needed c => pushCol c needed) st.needed }

def foldSelect (st : FoldState F) (cols : List String) : Except LazyError (FoldState F) := do
  checkVisible "LazyFrame.select" st.visible cols
  return { st with visible := cols, projection := some cols }

def foldLimit (st : FoldState F) (n : ℤ) : FoldState F :=
  { st with steps := match st.steps.getLast? with
    | some (.limit m) => st.steps.dropLast ++ [.limit (min m n)]
    | _ => st.steps ++ [.limit n] }

/-- A filter after a filter becomes one with it. -/
def fuseFilter [F64 F] (steps : List (PlanOp F)) (folded : ExprNode F) : List (PlanOp F) :=
  match steps.getLast? with
  | some (.filter prev) => steps.dropLast ++ [.filter (foldExpr (.and prev folded))]
  | _ => steps ++ [.filter folded]

def foldFilter [F64 F] (st : FoldState F) (e : ExprNode F) : Except LazyError (FoldState F) := do
  checkVisible "LazyFrame.filter" st.visible (exprCols e)
  let folded := foldExpr e
  let st := st.need (exprCols folded)
  match folded with
  | .litBool true => return st
  | _ => return { st with steps := fuseFilter st.steps folded }

def foldSortKeys : List (ExprNode F) → FoldState F → Except LazyError (FoldState F)
  | [], st => .ok st
  | k :: keys, st => do
    checkVisible "LazyFrame.sort" st.visible (exprCols k)
    foldSortKeys keys (st.need (exprCols k))

def foldSort (st : FoldState F) (keys : List (ExprNode F)) : Except LazyError (FoldState F) := do
  let st ← foldSortKeys keys st
  return { st with steps := st.steps ++ [.sort keys] }

def foldGroupKeys : List (ExprNode F) → FoldState F → List String → Except LazyError (FoldState F × List String)
  | [], st, out => .ok (st, out)
  | k :: keys, st, out => do
    let name ← groupKeyName k
    checkVisible "LazyFrame.group_by" st.visible [name]
    foldGroupKeys keys (st.need [name]) (out ++ [name])

def foldAggs : List (ExprNode F) → FoldState F → List String → Except LazyError (FoldState F × List String)
  | [], st, out => .ok (st, out)
  | a :: aggs, st, out => do
    checkVisible "LazyGroupBy.agg" st.visible (exprCols a)
    let name ← aggOutputName a
    foldAggs aggs (st.need (exprCols a)) (out ++ [name])

def foldGroupBy (st : FoldState F) (keys aggs : List (ExprNode F)) : Except LazyError (FoldState F) := do
  let (st, out) ← foldGroupKeys keys st []
  let (st, out) ← foldAggs aggs st out
  return { st with
    visible := out
    projection := none
    pastGroupBy := true
    steps := st.steps ++ [.groupBy keys aggs] }

def checkKeys (left right : List String) : List String → Except LazyError Unit
  | [] => .ok ()
  | k :: on =>
    if k ∉ left then .error (.unknownLeftKey k)
    else if k ∉ right then .error (.unknownRightKey k)
    else checkKeys left right on

/-- The columns of the right side behind those of the left: the name of one that is there already gets a suffix. -/
def joinSchema (on : List String) : List String → List String → List String
  | [], out => out
  | rc :: right, out =>
    joinSchema on right (if rc ∈ on then out else if rc ∈ out then out ++ [rc ++ "_right"] else out ++ [rc])

/-- A pending projection becomes a step of its own. -/
def flush (st : FoldState F) : FoldState F :=
  match st.projection with
  | some p => { st with visible := p, steps := st.steps ++ [.select p] }
  | none => st

def foldJoin (st : FoldState F) (right : LazyPlan F) (rightSchema on : List String) : Except LazyError (FoldState F) := do
  checkKeys st.visible rightSchema on
  let st := st.flush
  return { st with
    visible := joinSchema on rightSchema st.visible
    projection := none
    pastJoin := true
    steps := st.steps ++ [.join right on] }

def foldOutputs : List (ExprNode F) → FoldState F → List String → Except LazyError (FoldState F × List String)
  | [], st, outs => .ok (st, outs)
  | e :: exprs, st, outs => do
    let (name, _) ← withColumnsOutput e
    checkVisible "LazyFrame.with_columns" st.visible (exprCols e)
    if name ∈ outs then .error (.duplicateOutput name)
    else foldOutputs exprs (st.need (exprCols e)) (outs ++ [name])

/-- The columns of a pending projection go on to the output. -/
def flushNeeded (st : FoldState F) : FoldState F :=
  match st.projection with
  | some p => { st.flush.need p with projection := none }
  | none => st

def foldWithColumns [F64 F] (st : FoldState F) (exprs : List (ExprNode F)) : Except LazyError (FoldState F) := do
  let (st, outs) ← foldOutputs exprs st []
  let st := st.flushNeeded
  return { st with
    visible := outs.foldl (fun visible name => pushCol name visible) st.visible
    steps := st.steps ++ [.withColumns (exprs.map foldExpr)] }

def hasFilters (steps : List (PlanOp F)) : Bool :=
  steps.any fun
    | .filter _ => true
    | .sort _ => true
    | .groupBy _ _ => true
    | .join _ _ => true
    | .withColumns _ => true
    | .select _ => false
    | .limit _ => false

def scanCols (sourceOrder : List String) (st : FoldState F) : Option (List String) :=
  if st.pastJoin then none
  else if st.pastGroupBy then
    if st.needed = [] then none else some (sourceOrder.filter fun n => n ∈ st.needed)
  else if st.projection = none ∧ st.needed = [] then none
  else if hasFilters st.steps then some (sourceOrder.filter fun n => n ∈ st.projection.getD [] ++ st.needed)
  else st.projection

def finish (sourceOrder : List String) (st : FoldState F) : OptimizedPlan F where
  scanCols := st.scanCols sourceOrder
  steps := st.steps
  projection := st.projection
  finalSchema := st.projection.getD st.visible

end FoldState

variable [F64 F]

mutual

def foldOp (st : FoldState F) : PlanOp F → Except LazyError (FoldState F)
  | .select cols => st.foldSelect cols
  | .limit n => .ok (st.foldLimit n)
  | .filter e => st.foldFilter e
  | .sort keys => st.foldSort keys
  | .groupBy keys aggs => st.foldGroupBy keys aggs
  | .join right on => do
    let rightPlan ← foldPlan right
    st.foldJoin right rightPlan.finalSchema on
  | .withColumns exprs => st.foldWithColumns exprs

def foldOps (st : FoldState F) : List (PlanOp F) → Except LazyError (FoldState F)
  | [] => .ok st
  | op :: ops => do
    let st ← foldOp st op
    foldOps st ops

def foldPlan : LazyPlan F → Except LazyError (OptimizedPlan F)
  | .mk frame ops => do
    let st ← foldOps { visible := names frame.cols } ops
    return st.finish (names frame.cols)

end

end

end Karac.Runtime.Lazy
