import Karac.Runtime.LazyScan

/-! The names and the height of the columns along a run that ends without an error, and along the optimized steps. -/

namespace Karac.Runtime.Lazy

open Lib (mapM_ok)

variable {F : Type} [F64 F]

/-! Of one step. -/

theorem materializeCols_columns {cols out : List (FrameCol F)} {indices : List ℕ} {projection : Option (List String)}
    (h : materializeCols cols indices projection true = .ok out) :
    Columns (projection.getD (names cols)) indices.length out := by
  have hcols : List.Forall₂ (fun n (c : FrameCol F) => c.name = n ∧ c.valid.length = indices.length)
      (projection.getD (names cols)) out := by
    refine (mapM_ok h).imp fun n c hc => ?_
    split at hc
    · next c' hfind =>
      obtain rfl := Except.ok.inj hc
      have hname : c'.name = n := by simpa using List.find?_some hfind
      exact ⟨hname, List.length_map _⟩
    · cases hc
  simpa using columns_of_forall₂ (f := id) hcols

theorem evalGroupBy_columns {keys aggs : List (ExprNode F)} {cols out : List (FrameCol F)} {indices : List ℕ}
    (h : evalGroupBy keys aggs cols indices = .ok out) : ∃ height, Columns ((keys ++ aggs).map outputName) height out := by
  obtain ⟨groups, -, h⟩ := Lib.ok_of_bind h
  obtain ⟨keyCols, hkeys, h⟩ := Lib.ok_of_bind h
  obtain ⟨aggCols, haggs, h⟩ := Lib.ok_of_bind h
  obtain rfl : keyCols ++ aggCols = out := Except.ok.inj h
  have hkeyCols : Columns (keys.map outputName) groups.length keyCols := by
    have hnames : keys.zipIdx.map (outputName ∘ Prod.fst) = keys.map outputName := by
      rw [← List.map_map, List.zipIdx_map_fst]
    rw [← hnames]
    refine columns_of_forall₂ ((mapM_ok hkeys).imp fun k c hc => ?_)
    obtain ⟨name, hname, hc⟩ := Lib.ok_of_bind hc
    obtain rfl := (groupKeyName_eq hname).1
    obtain rfl := Except.ok.inj hc
    obtain ⟨hsame, hvalid⟩ := withDtypeOf_column cols (groupKeyInnerCol k.1)
      (buildFrameCol (outputName k.1) (groups.map fun g => sortKeyScalar (g.1.getD k.2 (2, .null))))
    refine ⟨hsame, ?_⟩
    rw [hvalid]
    simp [buildFrameCol]
  have haggCols : Columns (aggs.map outputName) groups.length aggCols := by
    refine columns_of_forall₂ ((mapM_ok haggs).imp fun a c hc => ?_)
    obtain ⟨name, hname, hc⟩ := Lib.ok_of_bind hc
    obtain ⟨rfl, op, arg, hop⟩ := aggOutputName_eq hname
    simp only [hop] at hc
    obtain ⟨cells, hcells, hc⟩ := Lib.ok_of_bind hc
    obtain rfl := Except.ok.inj hc
    refine ⟨rfl, ?_⟩
    rw [buildFrameCol, List.length_map, ← (mapM_ok hcells).length_eq]
  refine ⟨groups.length, ?_⟩
  rw [List.map_append]
  exact hkeyCols.append haggCols

theorem evalJoin_columns {left right out : List (FrameCol F)} {on : List String} (h : evalJoin left right on = .ok out) :
    ∃ ns height, Columns ns height out := by
  obtain ⟨⟨⟩, -, h⟩ := Lib.ok_of_bind h
  obtain ⟨rows, -, h⟩ := Lib.ok_of_bind h
  obtain rfl := Except.ok.inj h
  have hl := gatherCol_columns left (rows.map Prod.fst)
  have hr := rightColumn_columns right (names left) on (rows.map Prod.snd)
  rw [List.length_map] at hl hr
  exact ⟨_, _, hl.append hr⟩

theorem computedColumns_columns {exprs : List (ExprNode F)} {cols computed : List (FrameCol F)}
    (h : exprs.mapM (computedColumn cols) = .ok computed) :
    Columns (exprs.map outputName) (colsHeight cols) computed := by
  refine columns_of_forall₂ ((mapM_ok h).imp fun e c hc => ?_)
  obtain ⟨⟨name, inner⟩, hname, hc⟩ := Lib.ok_of_bind hc
  obtain ⟨cells, hcells, hc⟩ := Lib.ok_of_bind hc
  obtain rfl := Except.ok.inj hc
  refine ⟨withColumnsOutput_eq hname, ?_⟩
  rw [buildFrameCol, List.length_map, ← (mapM_ok hcells).length_eq, List.length_range]

/-- The columns have one length, and all rows are in order where none was selected. -/
structure Even (es : EvalState F) : Prop where
  columns : ∀ c ∈ es.cur, c.valid.length = colsHeight es.cur
  rows : es.rowOps = false → es.indices = List.range (colsHeight es.cur)

omit [F64 F] in
theorem even_start {ns : List String} {height : ℕ} {cols : List (FrameCol F)} (h : Columns ns height cols) :
    Even (.start cols) where
  columns := (columns_height h).length
  rows _ := rfl

omit [F64 F] in
/-- The height of columns in the place of some of which others are put. -/
theorem colsHeight_put {outs : List String} {cols cols' : List (FrameCol F)}
    (h : Columns (outs.foldl (fun ns name => pushCol name ns) (names cols)) (colsHeight cols) cols') :
    colsHeight cols' = colsHeight cols := by
  cases cols' with
  | nil =>
    cases cols with
    | nil => rfl
    | cons c cols =>
      have hmem : c.name ∈ outs.foldl (fun ns name => pushCol name ns) (names (c :: cols)) :=
        (FoldState.mem_foldl_pushCol _ _ _).mpr (.inl List.mem_cons_self)
      rw [← h.names] at hmem
      exact absurd hmem List.not_mem_nil
  | cons c cols' => exact h.length c List.mem_cons_self

theorem even_evalOp {es es' : EvalState F} {op : PlanOp F} (h : evalOp es op = .ok es') (heven : Even es) : Even es' := by
  cases op with
  | select cols =>
    obtain rfl := Except.ok.inj h
    exact ⟨heven.columns, heven.rows⟩
  | limit n =>
    obtain rfl := Except.ok.inj h
    exact ⟨heven.columns, by simp⟩
  | filter e =>
    obtain ⟨kept, -, h⟩ := Lib.ok_of_bind h
    obtain rfl := Except.ok.inj h
    exact ⟨heven.columns, by simp⟩
  | sort keys =>
    obtain ⟨keyed, -, h⟩ := Lib.ok_of_bind h
    obtain rfl := Except.ok.inj h
    exact ⟨heven.columns, by simp⟩
  | groupBy keys aggs =>
    obtain ⟨cur, hcur, h⟩ := Lib.ok_of_bind h
    obtain rfl := Except.ok.inj h
    obtain ⟨height, hcolumns⟩ := evalGroupBy_columns hcur
    exact even_start hcolumns
  | join right on =>
    obtain ⟨left, -, h⟩ := Lib.ok_of_bind h
    obtain ⟨rightCols, -, h⟩ := Lib.ok_of_bind h
    obtain ⟨cur, hcur, h⟩ := Lib.ok_of_bind h
    obtain rfl := Except.ok.inj h
    obtain ⟨ns, height, hcolumns⟩ := evalJoin_columns hcur
    exact even_start hcolumns
  | withColumns exprs =>
    obtain ⟨cur, hcur, h⟩ := Lib.ok_of_bind h
    obtain ⟨computed, hcomputed, h⟩ := Lib.ok_of_bind h
    obtain rfl := Except.ok.inj h
    have hmat := materializeCols_columns hcur
    rw [← hmat.names] at hmat
    have hput := foldl_putColumn (columns_height hmat) (computedColumns_columns hcomputed)
    have hheight := colsHeight_put hput
    refine ⟨?_, ?_⟩
    · rw [hheight]
      exact hput.length
    · intro _
      rw [hheight]

theorem names_evalOp {es es' : EvalState F} {op : PlanOp F} (h : evalOp es op = .ok es') (hjoin : op.isJoin = false) :
    es'.projection.getD (names es'.cur) = opNames (es.projection.getD (names es.cur)) op := by
  cases op with
  | select cols =>
    obtain rfl := Except.ok.inj h
    rfl
  | limit n =>
    obtain rfl := Except.ok.inj h
    rfl
  | filter e =>
    obtain ⟨kept, -, h⟩ := Lib.ok_of_bind h
    obtain rfl := Except.ok.inj h
    rfl
  | sort keys =>
    obtain ⟨keyed, -, h⟩ := Lib.ok_of_bind h
    obtain rfl := Except.ok.inj h
    rfl
  | groupBy keys aggs =>
    obtain ⟨cur, hcur, h⟩ := Lib.ok_of_bind h
    obtain rfl := Except.ok.inj h
    obtain ⟨height, hcolumns⟩ := evalGroupBy_columns hcur
    exact hcolumns.names
  | join right on => cases hjoin
  | withColumns exprs =>
    obtain ⟨cur, hcur, h⟩ := Lib.ok_of_bind h
    obtain ⟨computed, hcomputed, h⟩ := Lib.ok_of_bind h
    obtain rfl := Except.ok.inj h
    have hmat := columns_height (materializeCols_columns hcur)
    have hput := foldl_putColumn hmat (computedColumns_columns hcomputed)
    rw [List.foldl_map] at hput
    exact hput.names

/-! Of the steps that are folded. -/

theorem names_evalSteps {es es' : EvalState F} {ops : List (PlanOp F)} (h : evalSteps es ops = .ok es')
    (hjoin : ops.any PlanOp.isJoin = false) :
    es'.projection.getD (names es'.cur) = opsNames (es.projection.getD (names es.cur)) ops := by
  induction ops generalizing es with
  | nil =>
    obtain rfl := Except.ok.inj h
    rfl
  | cons op ops ih =>
    obtain ⟨mid, hop, h⟩ := Lib.ok_of_bind h
    rw [List.any_cons, Bool.or_eq_false_iff] at hjoin
    rw [ih h hjoin.2, names_evalOp hop hjoin.1, opsNames]

omit [F64 F] in
theorem opsNames_append (ns : List String) (ops ops' : List (PlanOp F)) :
    opsNames ns (ops ++ ops') = opsNames (opsNames ns ops) ops' := by
  induction ops generalizing ns with
  | nil => rfl
  | cons op ops ih => rw [List.cons_append, opsNames, ih, opsNames]

theorem withColumnsOutput_foldExpr {e inner : ExprNode F} {name : String}
    (h : withColumnsOutput e = .ok (name, inner)) : withColumnsOutput (foldExpr e) = .ok (name, foldExpr inner) := by
  unfold withColumnsOutput at h
  split at h
  · cases h
    rw [foldExpr_aliased]
    rfl
  · cases h
    rfl
  · cases h

namespace FoldState

theorem names_stepsAfter (ns : List String) {st st' : FoldState F} {op : PlanOp F} (h : foldOp st op = .ok st')
    (hjoin : op.isJoin = false) :
    st'.projection.getD (opsNames ns st'.steps) = opNames (st.projection.getD (opsNames ns st.steps)) op := by
  have hfolds := foldOp_folds h
  rw [hfolds.projection, hfolds.steps]
  cases op with
  | select cols => rfl
  | limit n =>
    rw [stepsAfter]
    rcases foldLimit_steps st n with ⟨front, m, hfront, heq⟩ | heq
    · rw [heq, hfront, opsNames_append, opsNames_append]
      rfl
    · rw [heq, opsNames_append]
      rfl
  | filter e =>
    rw [stepsAfter]
    split
    · rfl
    · obtain ⟨front, p, heq, hfront⟩ := fuseFilter_ends st.steps (foldExpr e)
      rw [heq, opsNames_append]
      rcases hfront with rfl | ⟨q, hq⟩
      · rfl
      · rw [← hq, opsNames_append]
        rfl
  | sort keys =>
    rw [stepsAfter, opsNames_append]
    rfl
  | groupBy keys aggs =>
    rw [stepsAfter, opsNames_append]
    rfl
  | join right on => cases hjoin
  | withColumns exprs =>
    obtain ⟨-, -, hexprs⟩ := foldWithColumns_ok h
    have hflush : opsNames ns st.flush.steps = st.projection.getD (opsNames ns st.steps) := by
      rw [(flush_eq st).2.2.2.2, opsNames_append]
      cases st.projection <;> rfl
    have hnames : (exprs.map foldExpr).map outputName = exprs.map outputName := by
      rw [List.map_map]
      refine List.map_congr_left fun e he => ?_
      obtain ⟨inner, hinner⟩ := (hexprs e he).1
      exact (withColumnsOutput_eq (withColumnsOutput_foldExpr hinner)).symm
    have hfoldl : ∀ (es : List (ExprNode F)) (before : List String),
        es.foldl (fun ns e => pushCol (outputName e) ns) before =
          (es.map outputName).foldl (fun ns name => pushCol name ns) before := by
      intro es before
      rw [List.foldl_map]
    rw [stepsAfter, opsNames_append, hflush, opsNames, opsNames, opSelect, Option.getD_none, opNames, opNames, hfoldl,
      hnames, ← hfoldl]

theorem join_stepsAfter {st st' : FoldState F} {op : PlanOp F} (h : foldOp st op = .ok st') :
    st'.steps.any PlanOp.isJoin = (st.steps.any PlanOp.isJoin || op.isJoin) := by
  have hflush : st.flush.steps.any PlanOp.isJoin = st.steps.any PlanOp.isJoin := by
    rw [(flush_eq st).2.2.2.2]
    cases st.projection <;> simp [PlanOp.isJoin]
  rw [(foldOp_folds h).steps]
  cases op with
  | limit n =>
    rw [stepsAfter]
    rcases foldLimit_steps st n with ⟨front, m, hfront, heq⟩ | heq
    · rw [heq, hfront]
      simp [PlanOp.isJoin]
    · rw [heq]
      simp [PlanOp.isJoin]
  | filter e =>
    rw [stepsAfter]
    split
    · simp [PlanOp.isJoin]
    · obtain ⟨front, p, heq, hfront⟩ := fuseFilter_ends st.steps (foldExpr e)
      rw [heq]
      rcases hfront with rfl | ⟨q, hq⟩
      · simp [PlanOp.isJoin]
      · rw [← hq]
        simp [PlanOp.isJoin]
  | _ => simp [stepsAfter, hflush, PlanOp.isJoin]

end FoldState

/-- The steps have the schema of the operations, with the projection that is pending. -/
theorem names_foldOps (ns : List String) {st st' : FoldState F} {ops : List (PlanOp F)} (h : foldOps st ops = .ok st')
    (hjoin : ops.any PlanOp.isJoin = false) (hsteps : st.steps.any PlanOp.isJoin = false) :
    st'.projection.getD (opsNames ns st'.steps) = opsNames (st.projection.getD (opsNames ns st.steps)) ops ∧
      st'.steps.any PlanOp.isJoin = false := by
  induction ops generalizing st with
  | nil =>
    obtain rfl := Except.ok.inj h
    exact ⟨rfl, hsteps⟩
  | cons op ops ih =>
    obtain ⟨mid, hop, h⟩ := Lib.ok_of_bind h
    rw [List.any_cons, Bool.or_eq_false_iff] at hjoin
    have hmid : mid.steps.any PlanOp.isJoin = false := by rw [FoldState.join_stepsAfter hop, hsteps, hjoin.1, Bool.false_or]
    obtain ⟨hnames, hlast⟩ := ih h hjoin.2 hmid
    rw [hnames, FoldState.names_stepsAfter ns hop hjoin.1, opsNames]
    exact ⟨rfl, hlast⟩

end Karac.Runtime.Lazy
