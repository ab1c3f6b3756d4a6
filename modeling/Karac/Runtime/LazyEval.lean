import Karac.Runtime.LazyPlan

/-! `eval_ops`: the steps of a plan over the columns of its frame. Rows are selected by their indices; a grouping, a join
and computed columns make new columns. -/

namespace Karac.Runtime.Lazy

/-- A sort key: its rank is 0 for a value, 1 for a NaN and 2 where there is none. -/
inductive SortVal (F : Type)
  | null
  | nan
  | i (v : Int64)
  | f (v : F)
  | s (v : String)
  | b (v : Bool)

abbrev SortKey (F : Type) := ℕ × SortVal F

variable {F : Type} [F64 F]

def sortKeyOf : Option (Scalar F) → SortKey F
  | none => (2, .null)
  | some (.f v) => if F64.isNan v then (1, .nan) else (0, .f v)
  | some (.i v) => (0, .i v)
  | some (.s v) => (0, .s v)
  | some (.b v) => (0, .b v)

omit [F64 F] in
def stripDesc : ExprNode F → ExprNode F
  | .desc x => x
  | e => e

omit [F64 F] in
def isDesc : ExprNode F → Bool
  | .desc _ => true
  | _ => false

def evalSortKey (cols : List (FrameCol F)) (row : ℕ) (key : ExprNode F) : Except LazyError (SortKey F) := do
  let cell ← evalScalar cols row (stripDesc key)
  return sortKeyOf cell

omit [F64 F] in
def sortValTag : SortVal F → ℕ
  | .b _ => 0
  | .i _ => 1
  | .f _ => 2
  | .s _ => 3
  | .nan => 4
  | .null => 5

def compareSortVals : SortVal F → SortVal F → Ordering
  | .i x, .i y => compare x y
  | .f x, .f y => (F64.partialCmp x y).getD .eq
  | .i x, .f y => (F64.partialCmp (F64.ofInt x) y).getD .eq
  | .f x, .i y => (F64.partialCmp x (F64.ofInt y)).getD .eq
  | .s x, .s y => compare x y
  | .b x, .b y => compare x y
  | x, y => compare (sortValTag x) (sortValTag y)

/-- Ranks keep their order under `desc`. -/
def compareKey (desc : Bool) (a b : SortKey F) : Ordering :=
  match compare a.1 b.1 with
  | .eq =>
    if a.1 = 0 then
      if desc then (compareSortVals a.2 b.2).swap else compareSortVals a.2 b.2
    else .eq
  | other => other

def cmpSortKeys : List (ExprNode F) → List (SortKey F) → List (SortKey F) → Ordering
  | key :: keys, a :: as, b :: bs => (compareKey (isDesc key) a b).then (cmpSortKeys keys as bs)
  | _, _, _ => .eq

def sortValsEqual : SortVal F → SortVal F → Bool
  | .i x, .i y => x == y
  | .f x, .f y => F64.beq x y
  | .i x, .f y => F64.beq (F64.ofInt x) y
  | .f x, .i y => F64.beq x (F64.ofInt y)
  | .s x, .s y => x == y
  | .b x, .b y => x == y
  | .nan, .nan => true
  | .null, .null => true
  | _, _ => false

/-- In keys of groups and joins a NaN equals a NaN. -/
def sortKeysEqual : List (SortKey F) → List (SortKey F) → Bool
  | [], [] => true
  | a :: as, b :: bs => decide (a.1 = b.1) && sortValsEqual a.2 b.2 && sortKeysEqual as bs
  | _, _ => false

def sortKeyScalar : SortKey F → Option (Scalar F)
  | (2, _) => none
  | (_, .null) => none
  | (_, .nan) => some (.f F64.nan)
  | (_, .i v) => some (.i v)
  | (_, .f v) => some (.f v)
  | (_, .s v) => some (.s v)
  | (_, .b v) => some (.b v)

/-! Columns from rows and from cells. -/

/-- The rows of a column; every index is one of it. -/
def ColData.gather (rows : List ℕ) : ColData F → ColData F
  | .i64 v => .i64 (rows.map fun i => v.getD i 0)
  | .f64 v => .f64 (rows.map fun i => v.getD i F64.zero)
  | .bool v => .bool (rows.map fun i => v.getD i false)
  | .str v => .str (rows.map fun i => v.getD i "")

theorem ColData.length_gather (rows : List ℕ) (d : ColData F) : (d.gather rows).length = rows.length := by
  cases d <;> exact List.length_map _

def gatherCol (c : FrameCol F) (rows : List ℕ) : FrameCol F where
  name := c.name
  data := c.data.gather rows
  valid := rows.map fun i => c.valid.getD i false
  kind := c.kind
  elemSize := c.elemSize
  length_eq := by rw [ColData.length_gather, List.length_map]

def materializeCols (cur : List (FrameCol F)) (indices : List ℕ) (projection : Option (List String)) (rowOps : Bool) :
    Except LazyError (List (FrameCol F)) :=
  (projection.getD (names cur)).mapM fun name =>
    match cur.find? fun c => c.name = name with
    | some c => .ok (if rowOps then gatherCol c indices else c)
    | none => .error (.noSuchColumn "LazyFrame.collect" name)

omit [F64 F] in
def Scalar.isS : Scalar F → Bool
  | .s _ => true
  | _ => false

omit [F64 F] in
def Scalar.isB : Scalar F → Bool
  | .b _ => true
  | _ => false

omit [F64 F] in
def Scalar.isF : Scalar F → Bool
  | .f _ => true
  | _ => false

omit [F64 F] in
def strCell : Option (Scalar F) → String
  | some (.s v) => v
  | _ => ""

omit [F64 F] in
def boolOfCell : Option (Scalar F) → Bool
  | some (.b true) => true
  | _ => false

def floatCell : Option (Scalar F) → F
  | some (.f v) => v
  | some (.i v) => F64.ofInt v
  | _ => F64.zero

omit [F64 F] in
def intCell : Option (Scalar F) → Int64
  | some (.i v) => v
  | _ => 0

/-- The type of a new column is that of its cells, an integer's where none has a value. -/
def cellData (cells : List (Option (Scalar F))) : ColData F :=
  if cells.any fun c => c.any Scalar.isS then .str (cells.map strCell)
  else if cells.any fun c => c.any Scalar.isB then .bool (cells.map boolOfCell)
  else if cells.any fun c => c.any Scalar.isF then .f64 (cells.map floatCell)
  else .i64 (cells.map intCell)

omit [F64 F] in
/-- The tag and the width of the cells. -/
def ColData.dtype : ColData F → ℤ × ℤ
  | .str _ => (4, 24)
  | .bool _ => (0, 1)
  | .f64 _ => (3, 8)
  | .i64 _ => (1, 8)

theorem length_cellData (cells : List (Option (Scalar F))) : (cellData cells).length = cells.length := by
  unfold cellData
  split_ifs <;> exact List.length_map _

def buildFrameCol (name : String) (cells : List (Option (Scalar F))) : FrameCol F where
  name := name
  data := cellData cells
  valid := cells.map Option.isSome
  kind := (cellData cells).dtype.1
  elemSize := (cellData cells).dtype.2
  length_eq := by rw [length_cellData, List.length_map]

/-! Groups. -/

omit [F64 F] in
def ints (vals : List (Scalar F)) : List Int64 := vals.filterMap fun
  | .i v => some v
  | _ => none

omit [F64 F] in
def floats (vals : List (Scalar F)) : List F := vals.filterMap fun
  | .f v => some v
  | _ => none

omit [F64 F] in
def strs (vals : List (Scalar F)) : List String := vals.filterMap fun
  | .s v => some v
  | _ => none

/-- The values that a group has, with its floats before its integers. -/
def floatVals (vals : List (Scalar F)) : List F := floats vals ++ (ints vals).map F64.ofInt

def aggregateStrings (op : AggOp) (vals : List (Scalar F)) : Except LazyError (Option (Scalar F)) :=
  if ints vals ≠ [] ∨ floats vals ≠ [] then .error .mixedAggregate
  else match op with
    | .min => .ok ((strs vals).min?.map .s)
    | .max => .ok ((strs vals).max?.map .s)
    | op => .error (.aggregateNeedsNumeric op)

def aggregateNumbers (op : AggOp) (vals : List (Scalar F)) : Option (Scalar F) :=
  if floatVals vals = [] then none
  else if floats vals = [] then
    match op with
    | .sum => some (.i ((ints vals).foldl (· + ·) 0))
    | .min => (ints vals).min?.map .i
    | .max => (ints vals).max?.map .i
    | _ => some (.f (F64.div (F64.sum (floatVals vals)) (F64.ofInt (.ofNat (floatVals vals).length))))
  else
    match op with
    | .sum => some (.f (F64.sum (floatVals vals)))
    | .min => some (.f ((floatVals vals).foldl F64.min F64.infinity))
    | .max => some (.f ((floatVals vals).foldl F64.max F64.negInfinity))
    | _ => some (.f (F64.div (F64.sum (floatVals vals)) (F64.ofInt (.ofNat (floatVals vals).length))))

def aggregate (op : AggOp) (vals : List (Scalar F)) : Except LazyError (Option (Scalar F)) :=
  if op = .count then .ok (some (.i (.ofNat vals.length)))
  else if strs vals ≠ [] then aggregateStrings op vals
  else .ok (aggregateNumbers op vals)

def evalAgg (op : AggOp) (arg : ExprNode F) (cur : List (FrameCol F)) (rows : List ℕ) :
    Except LazyError (Option (Scalar F)) := do
  let cells ← rows.mapM fun row => evalScalar cur row arg
  aggregate op (cells.filterMap id)

abbrev Groups (F : Type) := List (List (SortKey F) × List ℕ)

def addToGroup (kt : List (SortKey F)) (row : ℕ) : Groups F → Groups F
  | [] => [(kt, [row])]
  | (g, rows) :: groups => if sortKeysEqual g kt then (g, rows ++ [row]) :: groups else (g, rows) :: addToGroup kt row groups

def groupRows (keys : List (ExprNode F)) (cur : List (FrameCol F)) : List ℕ → Groups F → Except LazyError (Groups F)
  | [], groups => .ok groups
  | row :: rows, groups => do
    let kt ← keys.mapM (evalSortKey cur row)
    groupRows keys cur rows (addToGroup kt row groups)

/-- A key column keeps the type of the column it reads. -/
def withDtypeOf (cur : List (FrameCol F)) (source : Option String) (c : FrameCol F) : FrameCol F :=
  match source.bind fun inner => cur.find? fun c => c.name = inner with
  | some src => { c with kind := src.kind, elemSize := src.elemSize }
  | none => c

def keyColumn (cur : List (FrameCol F)) (groups : Groups F) (k : ExprNode F) (ki : ℕ) :
    Except LazyError (FrameCol F) := do
  let name ← groupKeyName k
  return withDtypeOf cur (groupKeyInnerCol k) (buildFrameCol name (groups.map fun g => sortKeyScalar (g.1.getD ki (2, .null))))

omit [F64 F] in
/-- The aggregate of an entry, under its alias. -/
def aggregateOf : ExprNode F → Option (AggOp × ExprNode F)
  | .aliased _ (.agg op arg) => some (op, arg)
  | .agg op arg => some (op, arg)
  | _ => none

def aggColumn (cur : List (FrameCol F)) (groups : Groups F) (a : ExprNode F) : Except LazyError (FrameCol F) := do
  let name ← aggOutputName a
  match aggregateOf a with
  | some (op, arg) =>
    let cells ← groups.mapM fun g => evalAgg op arg cur g.2
    return buildFrameCol name cells
  -- `agg_output_name` has found an aggregate
  | none => .error .notAggregate

def evalGroupBy (keys aggs : List (ExprNode F)) (cur : List (FrameCol F)) (indices : List ℕ) :
    Except LazyError (List (FrameCol F)) := do
  let groups ← groupRows keys cur indices []
  let keyCols ← keys.zipIdx.mapM fun k => keyColumn cur groups k.1 k.2
  let aggCols ← aggs.mapM (aggColumn cur groups)
  return keyCols ++ aggCols

/-! Joins. -/

omit [F64 F] in
def family : SortVal F → ℕ
  | .s _ => 1
  | .b _ => 2
  | _ => 0

/-- Of the first row that has a value. -/
def keyFamily (cols : List (FrameCol F)) (k : String) : List ℕ → Except LazyError (Option ℕ)
  | [] => .ok none
  | row :: rows => do
    let key ← evalSortKey cols row (.col k)
    if key.1 = 2 then keyFamily cols k rows else return some (family key.2)

def checkFamilies (left right : List (FrameCol F)) : List String → Except LazyError Unit
  | [] => .ok ()
  | k :: on => do
    let lf ← keyFamily left k (List.range (colsHeight left))
    let rf ← keyFamily right k (List.range (colsHeight right))
    match lf, rf with
    | some lf, some rf => if lf ≠ rf then .error (.keyTypes k) else checkFamilies left right on
    | _, _ => checkFamilies left right on

/-- The keys of a row, none where one of them has no value. -/
def keyTuple (cols : List (FrameCol F)) (row : ℕ) : List String → Except LazyError (Option (List (SortKey F)))
  | [] => .ok (some [])
  | k :: on => do
    let key ← evalSortKey cols row (.col k)
    if key.1 = 2 then return none
    let rest ← keyTuple cols row on
    return rest.map (key :: ·)

def matchRight (right : List (FrameCol F)) (on : List String) (lk : List (SortKey F)) :
    List ℕ → Except LazyError (List ℕ)
  | [] => .ok []
  | rrow :: rrows => do
    let rk ← keyTuple right rrow on
    let rest ← matchRight right on lk rrows
    return if rk.any fun rk => sortKeysEqual lk rk then rrow :: rest else rest

def matchRows (left right : List (FrameCol F)) (on : List String) : List ℕ → Except LazyError (List (ℕ × ℕ))
  | [] => .ok []
  | lrow :: lrows => do
    let found ← match ← keyTuple left lrow on with
      | some lk => matchRight right on lk (List.range (colsHeight right))
      | none => pure []
    let rest ← matchRows left right on lrows
    return found.map (fun rrow => (lrow, rrow)) ++ rest

/-- A right column with the name of a left one gets a suffix. -/
def rightColumn (leftNames : List String) (rrows : List ℕ) (c : FrameCol F) : FrameCol F :=
  if c.name ∈ leftNames then { gatherCol c rrows with name := c.name ++ "_right" } else gatherCol c rrows

def evalJoin (left right : List (FrameCol F)) (on : List String) : Except LazyError (List (FrameCol F)) := do
  checkFamilies left right on
  let rows ← matchRows left right on (List.range (colsHeight left))
  return left.map (fun c => gatherCol c (rows.map Prod.fst)) ++
    (right.filter fun c => c.name ∉ on).map (rightColumn (names left) (rows.map Prod.snd))

/-! The steps. -/

structure EvalState (F : Type) where
  cur : List (FrameCol F)
  indices : List ℕ
  projection : Option (List String)
  rowOps : Bool

omit [F64 F] in
/-- All the rows of some columns. -/
def EvalState.start (cols : List (FrameCol F)) : EvalState F := ⟨cols, List.range (colsHeight cols), none, false⟩

def EvalState.materialize (st : EvalState F) : Except LazyError (List (FrameCol F)) :=
  materializeCols st.cur st.indices st.projection true

def filterRows (keep : ℕ → Except LazyError Bool) : List ℕ → Except LazyError (List ℕ)
  | [] => .ok []
  | row :: rows => do
    let b ← keep row
    let kept ← filterRows keep rows
    return if b then row :: kept else kept

def evalFilter (st : EvalState F) (e : ExprNode F) : Except LazyError (EvalState F) := do
  let kept ← filterRows (fun row => evalPred st.cur row e) st.indices
  return { st with indices := kept, rowOps := true }

/-- The sort is stable. -/
def evalSort (st : EvalState F) (keys : List (ExprNode F)) : Except LazyError (EvalState F) := do
  let keyed ← st.indices.mapM fun row => do
    let kvs ← keys.mapM (evalSortKey st.cur row)
    return (row, kvs)
  let sorted := keyed.mergeSort fun a b => cmpSortKeys keys a.2 b.2 != .gt
  return { st with indices := sorted.map Prod.fst, rowOps := true }

def computedColumn (cur : List (FrameCol F)) (e : ExprNode F) : Except LazyError (FrameCol F) := do
  let (name, inner) ← withColumnsOutput e
  let cells ← (List.range (colsHeight cur)).mapM fun row => evalScalar cur row inner
  return buildFrameCol name cells

omit [F64 F] in
/-- In the place of the first column of its name, or behind all. -/
def putColumn (col : FrameCol F) : List (FrameCol F) → List (FrameCol F)
  | [] => [col]
  | c :: cols => if c.name = col.name then col :: cols else c :: putColumn col cols

def evalWithColumns (st : EvalState F) (exprs : List (ExprNode F)) : Except LazyError (EvalState F) := do
  let cur ← st.materialize
  let computed ← exprs.mapM (computedColumn cur)
  let rows := List.range (colsHeight cur)
  return ⟨computed.foldl (fun cur col => putColumn col cur) cur, rows, none, false⟩

mutual

def evalOp (st : EvalState F) : PlanOp F → Except LazyError (EvalState F)
  | .select cols => .ok { st with projection := some cols }
  | .limit n => .ok { st with indices := st.indices.take (max n 0).toNat, rowOps := true }
  | .filter e => evalFilter st e
  | .sort keys => evalSort st keys
  | .groupBy keys aggs => do
    let cur ← evalGroupBy keys aggs st.cur st.indices
    return .start cur
  | .join right on => do
    let left ← st.materialize
    let rightCols ← evalPlan right
    let cur ← evalJoin left rightCols on
    return .start cur
  | .withColumns exprs => evalWithColumns st exprs

def evalSteps (st : EvalState F) : List (PlanOp F) → Except LazyError (EvalState F)
  | [] => .ok st
  | op :: ops => do
    let st ← evalOp st op
    evalSteps st ops

/-- The columns that come out. -/
def evalPlan : LazyPlan F → Except LazyError (List (FrameCol F))
  | .mk frame ops => do
    let st ← evalSteps (.start frame.cols) ops
    materializeCols st.cur st.indices st.projection st.rowOps

end

def evalOps (source : List (FrameCol F)) (ops : List (PlanOp F)) : Except LazyError (List (FrameCol F)) := do
  let st ← evalSteps (.start source) ops
  materializeCols st.cur st.indices st.projection st.rowOps

end Karac.Runtime.Lazy
