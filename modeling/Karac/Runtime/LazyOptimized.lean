import Karac.Runtime.LazyShape

/-! The optimized form of a plan has the columns of the plan, unless a fold changes the value of an expression or the scan
leaves out a column that comes out. -/

namespace Karac.Runtime.Lazy

open Lib (mapM_ok mapM_ok_imp)

variable {F : Type}

/-! Columns that are the same to some names. -/

/-- The name is of the same column, or of none, in both. -/
def SameColumn (cols cols' : List (FrameCol F)) (n : String) : Prop :=
  (cols'.find? fun c => c.name = n) = cols.find? fun c => c.name = n

variable [F64 F] {cols cols' : List (FrameCol F)}

omit [F64 F] in
theorem readColumn_congr {n : String} (row : ℕ) (h : SameColumn cols cols' n) :
    readColumn cols' row n = readColumn cols row n := by
  rw [readColumn, h]
  rfl

theorem eval_congr (row : ℕ) {e : ExprNode F} (h : ∀ n, e.Reads n → SameColumn cols cols' n) :
    evalScalar cols' row e = evalScalar cols row e ∧ evalPred cols' row e = evalPred cols row e := by
  have htest : ∀ e : ExprNode F, e.IsTest = true → evalPred cols' row e = evalPred cols row e →
      evalScalar cols' row e = evalScalar cols row e ∧ evalPred cols' row e = evalPred cols row e := by
    intro e he hpred
    rw [evalScalar_of_isTest cols' row he, evalScalar_of_isTest cols row he, hpred]
    exact ⟨rfl, rfl⟩
  induction e with
  | col n =>
    have hread := readColumn_congr row (h n rfl)
    rw [evalScalar, evalScalar, evalPred, evalPred, hread]
    exact ⟨rfl, rfl⟩
  | cmp op l r ihl ihr =>
    refine htest _ rfl ?_
    rw [evalPred, evalPred, (ihl fun n hn => h n (.inl hn)).1, (ihr fun n hn => h n (.inr hn)).1]
  | and a b iha ihb =>
    refine htest _ rfl ?_
    rw [evalPred, evalPred, (iha fun n hn => h n (.inl hn)).2, (ihb fun n hn => h n (.inr hn)).2]
  | or a b iha ihb =>
    refine htest _ rfl ?_
    rw [evalPred, evalPred, (iha fun n hn => h n (.inl hn)).2, (ihb fun n hn => h n (.inr hn)).2]
  | not x ih =>
    refine htest _ rfl ?_
    rw [evalPred, evalPred, (ih h).2]
  | arith op l r ihl ihr =>
    rw [evalScalar, evalScalar, (ihl fun n hn => h n (.inl hn)).1, (ihr fun n hn => h n (.inr hn)).1]
    exact ⟨rfl, rfl⟩
  | _ => exact ⟨rfl, rfl⟩

theorem evalSortKey_congr (row : ℕ) {key : ExprNode F} (h : ∀ n, key.Reads n → SameColumn cols cols' n) :
    evalSortKey cols' row key = evalSortKey cols row key := by
  have hstrip : ∀ n, (stripDesc key).Reads n → SameColumn cols cols' n := by
    cases key with
    | desc x => exact h
    | _ => exact h
  rw [evalSortKey, evalSortKey, (eval_congr row hstrip).1]

theorem mapM_evalSortKey_congr (row : ℕ) {keys : List (ExprNode F)}
    (h : ∀ k ∈ keys, ∀ n, k.Reads n → SameColumn cols cols' n) :
    keys.mapM (evalSortKey cols' row) = keys.mapM (evalSortKey cols row) :=
  Lib.mapM_congr fun k hk => evalSortKey_congr row (h k hk)

theorem groupRows_congr {keys : List (ExprNode F)} (h : ∀ k ∈ keys, ∀ n, k.Reads n → SameColumn cols cols' n)
    (rows : List ℕ) (groups : Groups F) : groupRows keys cols' rows groups = groupRows keys cols rows groups := by
  induction rows generalizing groups with
  | nil => rfl
  | cons row rows ih =>
    rw [groupRows, groupRows, mapM_evalSortKey_congr row h]
    exact bind_congr fun kt => ih _

omit [F64 F] in
theorem reads_of_innerCol {k : ExprNode F} {n : String} (h : groupKeyInnerCol k = some n) : k.Reads n := by
  unfold groupKeyInnerCol at h
  split at h
  · cases h
    exact rfl
  · cases h
    exact rfl
  · cases h

theorem keyColumn_congr {groups : Groups F} {k : ExprNode F} {ki : ℕ} (h : ∀ n, k.Reads n → SameColumn cols cols' n) :
    keyColumn cols' groups k ki = keyColumn cols groups k ki := by
  have hdtype : ∀ c, withDtypeOf cols' (groupKeyInnerCol k) c = withDtypeOf cols (groupKeyInnerCol k) c := by
    intro c
    rw [withDtypeOf, withDtypeOf]
    cases hinner : groupKeyInnerCol k with
    | none => rfl
    | some n =>
      have hsame := h n (reads_of_innerCol hinner)
      rw [Option.bind_some, Option.bind_some, hsame]
  rw [keyColumn, keyColumn]
  refine bind_congr fun name => ?_
  rw [hdtype]

theorem aggColumn_congr {groups : Groups F} {a : ExprNode F} (h : ∀ n, a.Reads n → SameColumn cols cols' n) :
    aggColumn cols' groups a = aggColumn cols groups a := by
  rw [aggColumn, aggColumn]
  refine bind_congr fun name => ?_
  cases hop : aggregateOf a with
  | none => rfl
  | some opArg =>
    obtain ⟨op, arg⟩ := opArg
    have hcell : ∀ row, evalScalar cols' row arg = evalScalar cols row arg := fun row =>
      (eval_congr row fun n hn => h n (reads_of_aggregateOf hop hn)).1
    simp only [evalAgg, hcell]

theorem evalGroupBy_congr {keys aggs : List (ExprNode F)} (hkeys : ∀ k ∈ keys, ∀ n, k.Reads n → SameColumn cols cols' n)
    (haggs : ∀ a ∈ aggs, ∀ n, a.Reads n → SameColumn cols cols' n) (indices : List ℕ) :
    evalGroupBy keys aggs cols' indices = evalGroupBy keys aggs cols indices := by
  rw [evalGroupBy, evalGroupBy, groupRows_congr hkeys]
  refine bind_congr fun groups => ?_
  have hkeyCols : (keys.zipIdx.mapM fun k => keyColumn cols' groups k.1 k.2) =
      keys.zipIdx.mapM fun k => keyColumn cols groups k.1 k.2 :=
    Lib.mapM_congr fun k hk => keyColumn_congr (hkeys k.1 (List.fst_mem_of_mem_zipIdx hk))
  have haggCols : aggs.mapM (aggColumn cols' groups) = aggs.mapM (aggColumn cols groups) :=
    Lib.mapM_congr fun a ha => aggColumn_congr (haggs a ha)
  rw [hkeyCols, haggCols]

/-! Rows. -/

theorem filterRows_imp {keep keep' : ℕ → Except LazyError Bool} {rows kept : List ℕ}
    (himp : ∀ row b, keep row = .ok b → keep' row = .ok b) (h : filterRows keep rows = .ok kept) :
    filterRows keep' rows = .ok kept := by
  induction rows generalizing kept with
  | nil => exact h
  | cons row rows ih =>
    obtain ⟨b, hb, h⟩ := Lib.ok_of_bind h
    obtain ⟨rest, hrest, h⟩ := Lib.ok_of_bind h
    rw [filterRows, himp row b hb, ih hrest]
    exact h

/-- A filter after another, as one. -/
theorem filterRows_fused {first next both : ℕ → Except LazyError Bool} {rows mid kept : List ℕ}
    (hstop : ∀ row, first row = .ok false → both row = .ok false)
    (hgo : ∀ row b, first row = .ok true → next row = .ok b → both row = .ok b)
    (hfirst : filterRows first rows = .ok mid) (hnext : filterRows next mid = .ok kept) :
    filterRows both rows = .ok kept := by
  induction rows generalizing mid kept with
  | nil =>
    obtain rfl := Except.ok.inj hfirst
    exact hnext
  | cons row rows ih =>
    obtain ⟨b, hb, hfirst⟩ := Lib.ok_of_bind hfirst
    obtain ⟨rest, hrest, hfirst⟩ := Lib.ok_of_bind hfirst
    obtain rfl := Except.ok.inj hfirst
    cases b with
    | false =>
      rw [filterRows, hstop row hb, ih hrest hnext]
      rfl
    | true =>
      obtain ⟨b', hb', hnext⟩ := Lib.ok_of_bind hnext
      obtain ⟨rest', hrest', hnext⟩ := Lib.ok_of_bind hnext
      obtain rfl := Except.ok.inj hnext
      rw [filterRows, hgo row b' hb hb', ih hrest hrest']
      rfl

theorem filterRows_true (rows : List ℕ) : filterRows (fun _ => .ok true) rows = .ok rows := by
  induction rows with
  | nil => rfl
  | cons row rows ih =>
    rw [filterRows, ih]
    rfl

theorem filterRows_nil {keep : ℕ → Except LazyError Bool} {rows kept : List ℕ} (h : filterRows keep rows = .ok kept) :
    rows = [] → kept = [] := by
  rintro rfl
  exact (Except.ok.inj h).symm

/-! Columns that are made. -/

omit [F64 F] in
theorem map_getD_range {α : Type} (v : List α) (a : α) : (List.range v.length).map (fun i => v.getD i a) = v := by
  refine List.ext_getElem (by simp) fun i _ hi => ?_
  simp [List.getElem?_eq_getElem hi]

theorem gatherCol_range (c : FrameCol F) : gatherCol c (List.range c.valid.length) = c := by
  have hdata : c.data.gather (List.range c.valid.length) = c.data := by
    rw [← c.length_eq]
    cases c.data with
    | i64 v => exact congrArg ColData.i64 (map_getD_range v 0)
    | f64 v => exact congrArg ColData.f64 (map_getD_range v F64.zero)
    | bool v => exact congrArg ColData.bool (map_getD_range v false)
    | str v => exact congrArg ColData.str (map_getD_range v "")
  have hvalid := map_getD_range c.valid false
  cases c
  simp only [gatherCol] at hvalid hdata ⊢
  simp only [hvalid, hdata]

/-- Columns of which all rows come out are as they were. -/
theorem Even.materialize {es : EvalState F} (h : Even es) :
    materializeCols es.cur es.indices es.projection es.rowOps = es.materialize := by
  cases hrows : es.rowOps with
  | true =>
    rw [EvalState.materialize]
  | false =>
    rw [EvalState.materialize, materializeCols, materializeCols, h.rows hrows]
    refine Lib.mapM_congr fun n _ => ?_
    cases hfind : es.cur.find? fun c => c.name = n with
    | none => rfl
    | some c =>
      have hgather := gatherCol_range c
      rw [h.columns c (List.mem_of_find?_eq_some hfind)] at hgather
      exact congrArg Except.ok hgather.symm

theorem materializeCols_congr {p : List String} {projection projection' : Option (List String)}
    (hp : projection.getD (names cols) = p) (hp' : projection'.getD (names cols') = p)
    (h : ∀ n ∈ p, SameColumn cols cols' n) (indices : List ℕ) (rowOps : Bool) :
    materializeCols cols' indices projection' rowOps = materializeCols cols indices projection rowOps := by
  rw [materializeCols, materializeCols, hp, hp']
  refine Lib.mapM_congr fun n hn => ?_
  rw [h n hn]

/-- A column that comes out is the one of its name, with the rows that are selected. -/
theorem find_materialize {out : List (FrameCol F)} {indices : List ℕ} {projection : Option (List String)}
    (h : materializeCols cols indices projection true = .ok out) (n : String) :
    (out.find? fun c => c.name = n) =
      if n ∈ projection.getD (names cols) then (cols.find? fun c => c.name = n).map fun c => gatherCol c indices
      else none := by
  have hout := mapM_ok h
  clear h
  generalize projection.getD (names cols) = ns at hout
  induction hout with
  | nil => simp
  | @cons m c ms out hc hrest ih =>
    have hread : (cols.find? fun c => c.name = m).map (fun c => gatherCol c indices) = some c ∧ c.name = m := by
      split at hc
      · next c' hfind =>
        obtain rfl := Except.ok.inj hc
        have hname : c'.name = m := by simpa using List.find?_some hfind
        exact ⟨by rw [hfind]; rfl, hname⟩
      · cases hc
    by_cases hm : m = n
    · subst hm
      rw [List.find?_cons_of_pos (by simpa using hread.2), if_pos List.mem_cons_self, hread.1]
    · have hne : c.name ≠ n := by
        rw [hread.2]
        exact hm
      rw [List.find?_cons_of_neg (by simpa using hne), ih]
      simp [Ne.symm hm]

omit [F64 F] in
theorem find_putColumn (col : FrameCol F) (cols : List (FrameCol F)) (n : String) :
    ((putColumn col cols).find? fun c => c.name = n) = if col.name = n then some col else cols.find? fun c => c.name = n := by
  induction cols with
  | nil =>
    rw [putColumn, List.find?_cons]
    split_ifs with hn
    · simp [hn]
    · simp [hn]
  | cons c cols ih =>
    rw [putColumn]
    by_cases hc : c.name = col.name
    · rw [if_pos hc, List.find?_cons, List.find?_cons, hc]
      by_cases hn : col.name = n
      · simp [hn]
      · simp [hn]
    · rw [if_neg hc, List.find?_cons, List.find?_cons, ih]
      by_cases hn : c.name = n
      · have hne : col.name ≠ n := fun h => hc (hn.trans h.symm)
        simp [hn, hne]
      · simp [hn]

/-! The run of the optimized steps beside that of the operations. -/

/-- Every column that was scanned, or made since, is the one of its name. -/
def Agree (unread : String → Prop) (cols cols' : List (FrameCol F)) : Prop :=
  ∀ n, ¬ unread n ∨ n ∈ names cols' → SameColumn cols cols' n

/-- Columns were left out; no join is to come, and none of them is read. -/
structure Spares (pruned : Prop) (unread : String → Prop) (pending : Option (List String)) (ops : List (PlanOp F)) :
    Prop where
  pruned : pruned
  join : ops.any PlanOp.isJoin = false
  read : ∀ n ∈ opsRead pending ops, ¬ unread n
  keys : ∀ n ∈ keySources ops, ¬ unread n

/-- The columns are the same, or the operations to come need no others than those that agree. -/
def Follows (pruned : Prop) (unread : String → Prop) (pending : Option (List String)) (ops : List (PlanOp F))
    (cols cols' : List (FrameCol F)) : Prop :=
  cols' = cols ∨ Spares pruned unread pending ops ∧ Agree unread cols cols'

section

variable {pruned : Prop} {unread : String → Prop} {pending : Option (List String)} {op : PlanOp F} {ops : List (PlanOp F)}

theorem Spares.tail (h : Spares pruned unread pending (op :: ops)) (hgroup : op.isGroupBy = false) :
    Spares pruned unread (opSelect pending op) ops := by
  have hjoin := h.join
  rw [List.any_cons, Bool.or_eq_false_iff] at hjoin
  refine ⟨h.pruned, hjoin.2, fun n hn => h.read n ?_, fun n hn => h.keys n ?_⟩
  · rw [opsRead, hgroup, if_neg Bool.false_ne_true]
    exact List.mem_append_right _ hn
  · cases op with
    | groupBy keys aggs => cases hgroup
    | _ => exact hn

theorem Follows.tail (h : Follows pruned unread pending (op :: ops) cols cols') (hgroup : op.isGroupBy = false) :
    Follows pruned unread (opSelect pending op) ops cols cols' :=
  h.imp_right fun hagree => ⟨hagree.1.tail hgroup, hagree.2⟩

theorem Follows.same (h : Follows pruned unread pending (op :: ops) cols cols') {n : String} (hn : n ∈ opRead pending op) :
    SameColumn cols cols' n := by
  rcases h with rfl | ⟨hspares, hagree⟩
  · exact rfl
  · refine hagree n (.inl (hspares.read n ?_))
    rw [opsRead]
    exact List.mem_append_left _ hn

/-- The optimized steps so far give the rows of the operations so far, from columns that follow. -/
structure Sim (pruned : Prop) (unread : String → Prop) (source : List (FrameCol F)) (ops : List (PlanOp F))
    (st : FoldState F) (es es' : EvalState F) : Prop where
  run : evalSteps (.start source) st.steps = .ok es'
  pending : es.projection = st.projection
  settled : es'.projection = none
  indices : es'.indices = es.indices
  follows : Follows pruned unread st.projection ops es.cur es'.cur
  empty : es'.cur = [] → es.indices = []
  even : Even es

variable {source : List (FrameCol F)} {st st' : FoldState F} {es es' next : EvalState F}

/-- After a step that only selects rows. -/
theorem Sim.rows (hs : Sim pruned unread source (op :: ops) st es es') (hfold : foldOp st op = .ok st')
    (hsame : opSelect st.projection op = st.projection) (hgroup : op.isGroupBy = false) {rows : List ℕ}
    (hempty : es.indices = [] → rows = []) {next' : EvalState F}
    (hrun : evalSteps (.start source) st'.steps = .ok next') (hcur : next'.cur = es'.cur)
    (hsettled : next'.projection = none) (hindices : next'.indices = rows) :
    Sim pruned unread source ops st' { es with indices := rows, rowOps := true } next' := by
  have hprojection := (FoldState.foldOp_folds hfold).projection
  have hfollows := hs.follows.tail hgroup
  rw [← hprojection] at hfollows
  rw [hsame] at hprojection
  constructor
  case run => exact hrun
  case pending => exact hs.pending.trans hprojection.symm
  case settled => exact hsettled
  case indices => exact hindices
  case follows => rwa [hcur]
  case empty =>
    rw [hcur]
    exact fun hnil => hempty (hs.empty hnil)
  case even => exact ⟨hs.even.columns, by simp⟩

theorem evalSteps_concat {start mid last : EvalState F} {steps : List (PlanOp F)} {op : PlanOp F}
    (hsteps : evalSteps start steps = .ok mid) (hop : evalOp mid op = .ok last) :
    evalSteps start (steps ++ [op]) = .ok last := by
  rw [evalSteps_append, hsteps]
  show (evalOp mid op >>= fun st => evalSteps st []) = _
  rw [hop]
  rfl

/-- The last step of a run. -/
theorem evalSteps_last {start last : EvalState F} {steps : List (PlanOp F)} {op : PlanOp F}
    (h : evalSteps start (steps ++ [op]) = .ok last) :
    ∃ mid, evalSteps start steps = .ok mid ∧ evalOp mid op = .ok last := by
  rw [evalSteps_append] at h
  obtain ⟨mid, hmid, h⟩ := Lib.ok_of_bind h
  obtain ⟨last', hop, h⟩ := Lib.ok_of_bind h
  obtain rfl := Except.ok.inj h
  exact ⟨mid, hmid, hop⟩

theorem Sim.filter {e : ExprNode F} (hs : Sim pruned unread source (.filter e :: ops) st es es')
    (hfold : foldOp st (.filter e) = .ok st') (hexact : opExact (lastFilter st.steps) (.filter e))
    (hnormal : ∀ p, lastFilter st.steps = some p → Normal p) (heval : evalOp es (.filter e) = .ok next) :
    ∃ next', Sim pruned unread source ops st' next next' := by
  obtain ⟨kept, hkept, heval⟩ := Lib.ok_of_bind heval
  obtain rfl := Except.ok.inj heval
  have hfolded : ∀ row b, evalPred es.cur row e = .ok b → evalPred es'.cur row (foldExpr e) = .ok b := by
    intro row b hb
    rw [(eval_congr row fun n hn => hs.follows.same ((mem_exprCols n _).mpr hn)).2]
    exact (foldExpr_sound es.cur row e).2 hexact.1 b hb
  have hkept' := filterRows_imp hfolded hkept
  have hsteps := (FoldState.foldOp_folds hfold).steps
  rw [FoldState.stepsAfter] at hsteps
  split at hsteps
  · next htrue =>
    -- nothing is left of a filter that is always true
    rw [htrue] at hkept'
    obtain rfl := Except.ok.inj ((filterRows_true es.indices).symm.trans hkept')
    refine ⟨es', hs.rows hfold rfl rfl id ?_ rfl hs.settled hs.indices⟩
    rw [hsteps]
    exact hs.run
  · refine ⟨{ es' with indices := kept, rowOps := true },
      hs.rows hfold rfl rfl (filterRows_nil hkept) ?_ rfl hs.settled rfl⟩
    rw [hsteps]
    rcases FoldState.lastFilter_cases st.steps with ⟨front, p, hfront, hlast⟩ | ⟨hlast, -⟩
    · have hrun := hs.run
      rw [hfront] at hrun ⊢
      rw [FoldState.fuseFilter_append]
      obtain ⟨mid, hmid, hop⟩ := evalSteps_last hrun
      obtain ⟨mids, hmids, hop⟩ := Lib.ok_of_bind hop
      obtain rfl := Except.ok.inj hop
      obtain rfl : mids = es.indices := hs.indices
      have hp := (foldExpr_of_normal (hnormal p hlast)).1
      have hf := foldExpr_foldExpr e
      have hdistinct : Distinct (spine true (foldExpr p) ++ spine true (foldExpr (foldExpr e))) := by
        rw [hp, hf]
        exact hexact.2 p hlast
      have hboth : ∀ row v, evalPred mid.cur row (.and p (foldExpr e)) = .ok v →
          evalPred mid.cur row (foldExpr (.and p (foldExpr e))) = .ok v := fun row v =>
        evalPred_foldExpr_chain true hdistinct (fun x hx => by rwa [hp]) fun x hx => by rwa [hf]
      have hfused : filterRows (fun row => evalPred mid.cur row (foldExpr (.and p (foldExpr e)))) mid.indices = .ok kept := by
        refine filterRows_fused ?_ ?_ hmids hkept'
        · intro row hrow
          refine hboth row false ?_
          rw [evalPred, hrow]
          rfl
        · intro row b hrow hb
          refine hboth row b ?_
          rw [evalPred, hrow]
          exact hb
      refine evalSteps_concat hmid ?_
      rw [evalOp, evalFilter, hfused]
      rfl
    · rw [FoldState.fuseFilter_of_none hlast]
      refine evalSteps_concat hs.run ?_
      rw [evalOp, evalFilter, hs.indices, hkept']
      rfl

theorem Sim.select {names : List String} (hs : Sim pruned unread source (.select names :: ops) st es es')
    (hfold : foldOp st (.select names) = .ok st') (heval : evalOp es (.select names) = .ok next) :
    Sim pruned unread source ops st' next es' := by
  obtain rfl := Except.ok.inj heval
  have hfolds := FoldState.foldOp_folds hfold
  have hfollows := hs.follows.tail rfl
  rw [← hfolds.projection] at hfollows
  constructor
  case run =>
    rw [hfolds.steps]
    exact hs.run
  case pending => exact hfolds.projection.symm
  case settled => exact hs.settled
  case indices => exact hs.indices
  case follows => exact hfollows
  case empty => exact hs.empty
  case even => exact ⟨hs.even.columns, hs.even.rows⟩

/-- The smaller of two limits. -/
theorem take_limit (rows : List ℕ) (m n : ℤ) :
    (rows.take (max m 0).toNat).take (max n 0).toNat = rows.take (max (min m n) 0).toNat := by
  rw [List.take_take]
  congr 1
  omega

theorem Sim.limit {n : ℤ} (hs : Sim pruned unread source (.limit n :: ops) st es es') (hfold : foldOp st (.limit n) = .ok st')
    (heval : evalOp es (.limit n) = .ok next) : ∃ next', Sim pruned unread source ops st' next next' := by
  obtain rfl := Except.ok.inj heval
  refine ⟨{ es' with indices := es.indices.take (max n 0).toNat, rowOps := true }, hs.rows hfold rfl rfl ?_ ?_ rfl
    hs.settled rfl⟩
  · intro hnil
    rw [hnil, List.take_nil]
  · rw [(FoldState.foldOp_folds hfold).steps, FoldState.stepsAfter]
    rcases FoldState.foldLimit_steps st n with ⟨front, m, hfront, heq⟩ | heq
    · have hrun := hs.run
      rw [hfront] at hrun
      obtain ⟨mid, hmid, hop⟩ := evalSteps_last hrun
      obtain rfl := Except.ok.inj hop
      have hindices : mid.indices.take (max m 0).toNat = es.indices := hs.indices
      rw [heq]
      refine evalSteps_concat hmid ?_
      rw [evalOp, ← take_limit, hindices]
    · rw [heq]
      refine evalSteps_concat hs.run ?_
      rw [evalOp, hs.indices]

theorem Sim.sort {keys : List (ExprNode F)} (hs : Sim pruned unread source (.sort keys :: ops) st es es')
    (hfold : foldOp st (.sort keys) = .ok st') (heval : evalOp es (.sort keys) = .ok next) :
    ∃ next', Sim pruned unread source ops st' next next' := by
  obtain ⟨keyed, hkeyed, heval⟩ := Lib.ok_of_bind heval
  obtain rfl := Except.ok.inj heval
  have hkeys : ∀ k ∈ keys, ∀ n, k.Reads n → SameColumn es.cur es'.cur n := fun k hk n hn =>
    hs.follows.same (List.mem_flatMap.mpr ⟨k, hk, (mem_exprCols n k).mpr hn⟩)
  have hrows : ∀ row, keys.mapM (evalSortKey es'.cur row) = keys.mapM (evalSortKey es.cur row) := fun row =>
    mapM_evalSortKey_congr row hkeys
  have hempty : es.indices = [] → (keyed.mergeSort fun a b => cmpSortKeys keys a.2 b.2 != .gt).map Prod.fst = [] := by
    intro hnil
    rw [hnil, List.mapM_nil] at hkeyed
    obtain rfl := Except.ok.inj hkeyed
    simp
  have heval' : evalSort es' keys = .ok { es' with
      indices := (keyed.mergeSort fun a b => cmpSortKeys keys a.2 b.2 != .gt).map Prod.fst, rowOps := true } := by
    simp only [evalSort, hrows, hs.indices]
    rw [hkeyed]
    rfl
  generalize (keyed.mergeSort fun a b => cmpSortKeys keys a.2 b.2 != .gt).map Prod.fst = sorted at hempty heval' ⊢
  refine ⟨{ es' with indices := sorted, rowOps := true }, hs.rows hfold rfl rfl hempty ?_ rfl hs.settled rfl⟩
  rw [(FoldState.foldOp_folds hfold).steps, FoldState.stepsAfter]
  exact evalSteps_concat hs.run heval'

/-- After a step that makes new columns, the same in both runs. -/
theorem Sim.start {cur : List (FrameCol F)} (hprojection : st'.projection = none)
    (hrun : evalSteps (.start source) st'.steps = .ok (.start cur)) (heven : Even (.start cur)) :
    Sim pruned unread source ops st' (.start cur) (.start cur) := by
  constructor
  case run => exact hrun
  case pending => exact hprojection.symm
  case settled => rfl
  case indices => rfl
  case follows => exact .inl rfl
  case empty =>
    intro hnil
    have hcur : cur = [] := hnil
    rw [hcur]
    rfl
  case even => exact heven

theorem Sim.groupBy {keys aggs : List (ExprNode F)} (hs : Sim pruned unread source (.groupBy keys aggs :: ops) st es es')
    (hfold : foldOp st (.groupBy keys aggs) = .ok st') (heval : evalOp es (.groupBy keys aggs) = .ok next) :
    ∃ next', Sim pruned unread source ops st' next next' := by
  have heven := even_evalOp heval hs.even
  obtain ⟨cur, hcur, heval⟩ := Lib.ok_of_bind heval
  obtain rfl := Except.ok.inj heval
  have hfolds := FoldState.foldOp_folds hfold
  have hkeys : ∀ k ∈ keys, ∀ n, k.Reads n → SameColumn es.cur es'.cur n := by
    intro k hk n hn
    have hname := ((FoldState.foldGroupBy_ok hfold).2.2.1 k hk).1
    have hinner : groupKeyInnerCol k = some n := by
      unfold groupKeyName at hname
      split at hname
      · exact congrArg some hn.symm
      · exact congrArg some hn.symm
      · cases hname
    rcases hs.follows with heq | ⟨hspares, hagree⟩
    · rw [heq]
      exact rfl
    · exact hagree n (.inl (hspares.keys n (List.mem_filterMap.mpr ⟨k, hk, hinner⟩)))
  have haggs : ∀ a ∈ aggs, ∀ n, a.Reads n → SameColumn es.cur es'.cur n := fun a ha n hn =>
    hs.follows.same (List.mem_append_right _ (List.mem_flatMap.mpr ⟨a, ha, (mem_exprCols n a).mpr hn⟩))
  refine ⟨.start cur, Sim.start hfolds.projection ?_ heven⟩
  rw [hfolds.steps, FoldState.stepsAfter]
  refine evalSteps_concat hs.run ?_
  rw [evalOp, evalGroupBy_congr hkeys haggs, hs.indices, hcur]
  rfl

/-- With the pending projection as a step. -/
theorem Sim.flush (hs : Sim pruned unread source ops st es es') :
    evalSteps (.start source) st.flush.steps = .ok { es' with projection := es.projection } := by
  rw [(FoldState.flush_eq st).2.2.2.2, hs.pending]
  cases hp : st.projection with
  | none =>
    rw [Option.map_none, Option.toList_none, List.append_nil, hs.run, ← hs.settled]
  | some p => exact evalSteps_concat hs.run rfl

theorem Sim.join {right : LazyPlan F} {on : List String} (hs : Sim pruned unread source (.join right on :: ops) st es es')
    (hfold : foldOp st (.join right on) = .ok st') (heval : evalOp es (.join right on) = .ok next) :
    ∃ next', Sim pruned unread source ops st' next next' := by
  have heven := even_evalOp heval hs.even
  have hcols : es'.cur = es.cur := hs.follows.resolve_right fun h => absurd h.1.join (by simp [PlanOp.isJoin])
  have hsame : evalOp { es' with projection := es.projection } (.join right on) = evalOp es (.join right on) := by
    rw [evalOp, evalOp, EvalState.materialize, EvalState.materialize, hcols, hs.indices]
  have heval' := hsame.trans heval
  obtain ⟨left, -, heval⟩ := Lib.ok_of_bind heval
  obtain ⟨rightCols, -, heval⟩ := Lib.ok_of_bind heval
  obtain ⟨cur, -, heval⟩ := Lib.ok_of_bind heval
  obtain rfl := Except.ok.inj heval
  have hfolds := FoldState.foldOp_folds hfold
  refine ⟨.start cur, Sim.start hfolds.projection ?_ heven⟩
  rw [hfolds.steps, FoldState.stepsAfter]
  exact evalSteps_concat hs.flush heval'

omit [F64 F] in
theorem Agree.putColumn {unread : String → Prop} (h : Agree unread cols cols') (col : FrameCol F) :
    Agree unread (putColumn col cols) (Lazy.putColumn col cols') := by
  intro n hn
  rw [SameColumn, find_putColumn, find_putColumn]
  by_cases hname : col.name = n
  · rw [if_pos hname, if_pos hname]
  · rw [if_neg hname, if_neg hname]
    refine h n (hn.imp_right fun hmem => ?_)
    rw [names_putColumn, mem_pushCol] at hmem
    exact hmem.resolve_right fun heq => hname heq.symm

omit [F64 F] in
theorem Agree.putColumns {unread : String → Prop} (h : Agree unread cols cols') (computed : List (FrameCol F)) :
    Agree unread (computed.foldl (fun cur col => Lazy.putColumn col cur) cols)
      (computed.foldl (fun cur col => Lazy.putColumn col cur) cols') := by
  induction computed generalizing cols cols' with
  | nil => exact h
  | cons col computed ih => exact ih (h.putColumn col)

omit [F64 F] in
/-- Where columns agree, those that are there are among them. -/
theorem Agree.subset (h : Agree unread cols cols') : ∀ n ∈ names cols', n ∈ names cols := by
  intro n hn
  have hsame := h n (.inr hn)
  obtain ⟨c, hc, hname⟩ := List.mem_map.mp hn
  rw [SameColumn] at hsame
  cases hfind : cols.find? fun c => c.name = n with
  | none =>
    rw [hfind, List.find?_eq_none] at hsame
    exact absurd (decide_eq_true hname) (hsame c hc)
  | some c' =>
    have hname' : c'.name = n := by simpa using List.find?_some hfind
    exact List.mem_map.mpr ⟨c', List.mem_of_find?_eq_some hfind, hname'⟩

theorem materialize_total (cols : List (FrameCol F)) (indices : List ℕ) :
    ∃ out, materializeCols cols indices none true = .ok out := by
  refine Lib.mapM_total fun n hn => ?_
  obtain ⟨c, hc, hname⟩ := List.mem_map.mp hn
  cases hfind : cols.find? fun c => c.name = n with
  | none =>
    rw [List.find?_eq_none] at hfind
    exact absurd (decide_eq_true hname) (hfind c hc)
  | some c' => exact ⟨_, rfl⟩

theorem find_materialize_all {out : List (FrameCol F)} {indices : List ℕ}
    (h : materializeCols cols indices none true = .ok out) (n : String) :
    (out.find? fun c => c.name = n) = (cols.find? fun c => c.name = n).map fun c => gatherCol c indices := by
  rw [find_materialize h]
  split
  · rfl
  · next hn =>
    cases hfind : cols.find? fun c => c.name = n with
    | none => rfl
    | some c =>
      have hname : c.name = n := by simpa using List.find?_some hfind
      exact absurd (List.mem_map.mpr ⟨c, List.mem_of_find?_eq_some hfind, hname⟩) hn

omit [F64 F] in
theorem Columns.height_eq {ns : List String} {h : ℕ} (hcols : Columns ns h cols) :
    colsHeight cols = if ns = [] then 0 else h := by
  obtain ⟨rfl, hlength⟩ := hcols
  cases cols with
  | nil => rfl
  | cons c cols => exact hlength c List.mem_cons_self

/-- The rows of columns that agree, of all of them. -/
theorem Agree.materialize (h : Agree unread cols cols') {out : List (FrameCol F)} {indices : List ℕ}
    (hempty : cols' = [] → indices = []) (hout : materializeCols cols indices none true = .ok out) :
    ∃ out', materializeCols cols' indices none true = .ok out' ∧ Agree unread out out' ∧
      colsHeight out' = colsHeight out := by
  obtain ⟨out', hout'⟩ := materialize_total cols' indices
  have hcolumns := materializeCols_columns hout
  have hcolumns' := materializeCols_columns hout'
  rw [Option.getD_none] at hcolumns hcolumns'
  refine ⟨out', hout', ?_, ?_⟩
  · intro n hn
    rw [hcolumns'.names] at hn
    have hsame := h n hn
    rw [SameColumn, find_materialize_all hout, find_materialize_all hout', hsame]
  · rw [hcolumns.height_eq, hcolumns'.height_eq]
    by_cases hnil : names cols' = []
    · rw [if_pos hnil, hempty (List.map_eq_nil_iff.mp hnil), List.length_nil, ite_self]
    · have hne : names cols ≠ [] := by
        obtain ⟨n, hn⟩ := List.exists_mem_of_ne_nil _ hnil
        exact List.ne_nil_of_mem (h.subset n hn)
      rw [if_neg hnil, if_neg hne]

/-- The columns to compute from. -/
theorem Sim.materialize {exprs : List (ExprNode F)} (hs : Sim pruned unread source (.withColumns exprs :: ops) st es es')
    {mat : List (FrameCol F)} (hmat : es.materialize = .ok mat) :
    ∃ mat', EvalState.materialize { es' with projection := es.projection } = .ok mat' ∧
      colsHeight mat' = colsHeight mat ∧ (∀ n ∈ exprs.flatMap exprCols, SameColumn mat mat' n) ∧
      Follows pruned unread none ops mat mat' := by
  have hsame : materializeCols es'.cur es'.indices es.projection true = es.materialize →
      ∃ mat', EvalState.materialize { es' with projection := es.projection } = .ok mat' ∧
        colsHeight mat' = colsHeight mat ∧ (∀ n ∈ exprs.flatMap exprCols, SameColumn mat mat' n) ∧
        Follows pruned unread none ops mat mat' := fun heq =>
    ⟨mat, heq.trans hmat, rfl, fun _ _ => rfl, .inl rfl⟩
  rcases hs.follows with heq | ⟨hspares, hagree⟩
  · refine hsame ?_
    rw [heq, hs.indices]
    rfl
  · cases hp : st.projection with
    | some p =>
      -- the pending columns are read
      refine hsame ?_
      rw [hs.indices, hs.pending, hp, EvalState.materialize, hs.pending, hp]
      refine materializeCols_congr (F := F) (p := p) rfl rfl (fun n hn => ?_) _ _
      refine hs.follows.same (List.mem_append_right _ ?_)
      rwa [hp]
    | none =>
      rw [EvalState.materialize, hs.pending, hp] at hmat
      obtain ⟨mat', hmat', hagree', hheight⟩ := hagree.materialize hs.empty hmat
      refine ⟨mat', ?_, hheight, fun n hn => ?_, .inr ⟨hspares.tail rfl, hagree'⟩⟩
      · rw [EvalState.materialize, hs.pending, hp, hs.indices]
        exact hmat'
      · refine hagree' n (.inl (hspares.read n ?_))
        rw [opsRead]
        exact List.mem_append_left _ (List.mem_append_left _ hn)

theorem computedColumn_folded {mat mat' : List (FrameCol F)} (hheight : colsHeight mat' = colsHeight mat) {e : ExprNode F}
    (hexact : ∀ name inner, withColumnsOutput e = .ok (name, inner) → ScalarExact inner)
    (hsame : ∀ n, e.Reads n → SameColumn mat mat' n) {c : FrameCol F} (h : computedColumn mat e = .ok c) :
    computedColumn mat' (foldExpr e) = .ok c := by
  obtain ⟨⟨name, inner⟩, hname, h⟩ := Lib.ok_of_bind h
  obtain ⟨cells, hcells, h⟩ := Lib.ok_of_bind h
  have hcells' : (List.range (colsHeight mat)).mapM (fun row => evalScalar mat' row (foldExpr inner)) = .ok cells := by
    refine mapM_ok_imp (fun row _ cell hcell => ?_) hcells
    have hreads : ∀ n, (foldExpr inner).Reads n → SameColumn mat mat' n := fun n hn =>
      hsame n (reads_of_withColumnsOutput hname (reads_foldExpr hn))
    rw [(eval_congr row hreads).1]
    exact (foldExpr_sound mat row inner).1 (hexact name inner hname) cell hcell
  rw [computedColumn, withColumnsOutput_foldExpr hname, hheight]
  show ((List.range (colsHeight mat)).mapM (fun row => evalScalar mat' row (foldExpr inner)) >>= _) = _
  rw [hcells']
  exact h

theorem Sim.withColumns {exprs : List (ExprNode F)} (hs : Sim pruned unread source (.withColumns exprs :: ops) st es es')
    (hfold : foldOp st (.withColumns exprs) = .ok st') (hexact : opExact (lastFilter st.steps) (.withColumns exprs))
    (heval : evalOp es (.withColumns exprs) = .ok next) : ∃ next', Sim pruned unread source ops st' next next' := by
  have heven := even_evalOp heval hs.even
  obtain ⟨mat, hmat, heval⟩ := Lib.ok_of_bind heval
  obtain ⟨computed, hcomputed, heval⟩ := Lib.ok_of_bind heval
  obtain rfl := Except.ok.inj heval
  obtain ⟨mat', hmat', hheight, hsame, hfollows⟩ := hs.materialize hmat
  have hfolds := FoldState.foldOp_folds hfold
  have hcomputed' : (exprs.map foldExpr).mapM (computedColumn mat') = .ok computed := by
    rw [List.mapM_map]
    refine mapM_ok_imp (fun e he c hc => ?_) hcomputed
    refine computedColumn_folded hheight (hexact e he) (fun n hn => hsame n ?_) hc
    exact List.mem_flatMap.mpr ⟨e, he, (mem_exprCols n e).mpr hn⟩
  have heval' : evalOp { es' with projection := es.projection } (.withColumns (exprs.map foldExpr)) =
      .ok ⟨computed.foldl (fun cur col => putColumn col cur) mat', List.range (colsHeight mat), none, false⟩ := by
    rw [evalOp, evalWithColumns, hmat']
    show ((exprs.map foldExpr).mapM (computedColumn mat') >>= _) = _
    rw [hcomputed', ← hheight]
    rfl
  refine ⟨⟨computed.foldl (fun cur col => putColumn col cur) mat', List.range (colsHeight mat), none, false⟩, ?_⟩
  constructor
  case run =>
    rw [hfolds.steps, FoldState.stepsAfter]
    exact evalSteps_concat hs.flush heval'
  case pending => exact hfolds.projection.symm
  case settled => rfl
  case indices => rfl
  case follows =>
    rw [hfolds.projection]
    rcases hfollows with rfl | ⟨hspares, hagree⟩
    · exact .inl rfl
    · exact .inr ⟨hspares, hagree.putColumns computed⟩
  case empty =>
    intro hnil
    have hcolumns := materializeCols_columns hmat'
    rw [← hcolumns.names] at hcolumns
    have hzero := colsHeight_put (foldl_putColumn (columns_height hcolumns) (computedColumns_columns hcomputed'))
    have hcur : computed.foldl (fun cur col => putColumn col cur) mat' = [] := hnil
    rw [hcur, hheight] at hzero
    show List.range (colsHeight mat) = []
    rw [← hzero]
    rfl
  case even => exact heven

theorem Sim.step (hs : Sim pruned unread source (op :: ops) st es es') (hfold : foldOp st op = .ok st')
    (hexact : opExact (lastFilter st.steps) op) (hnormal : ∀ p, lastFilter st.steps = some p → Normal p)
    (heval : evalOp es op = .ok next) : ∃ next', Sim pruned unread source ops st' next next' := by
  cases op with
  | select names => exact ⟨es', hs.select hfold heval⟩
  | limit n => exact hs.limit hfold heval
  | filter e => exact hs.filter hfold hexact hnormal heval
  | sort keys => exact hs.sort hfold heval
  | groupBy keys aggs => exact hs.groupBy hfold heval
  | join right on => exact hs.join hfold heval
  | withColumns exprs => exact hs.withColumns hfold hexact heval

theorem Sim.steps (hs : Sim pruned unread source ops st es es') (hfold : foldOps st ops = .ok st')
    (hexact : opsExact (lastFilter st.steps) ops) (hnormal : ∀ p, lastFilter st.steps = some p → Normal p)
    (heval : evalSteps es ops = .ok next) : ∃ next', Sim pruned unread source [] st' next next' := by
  induction ops generalizing st es es' with
  | nil =>
    obtain rfl := Except.ok.inj hfold
    obtain rfl := Except.ok.inj heval
    exact ⟨es', hs⟩
  | cons op ops ih =>
    obtain ⟨mid, hop, hfold⟩ := Lib.ok_of_bind hfold
    obtain ⟨emid, hev, heval⟩ := Lib.ok_of_bind heval
    obtain ⟨emid', hmid⟩ := hs.step hop hexact.1 hnormal hev
    have hlast := FoldState.lastFilter_foldOp hop
    refine ih hmid hfold ?_ ?_ heval
    · rw [hlast]
      exact hexact.2
    · rw [hlast]
      exact FoldState.normal_nextFilter hnormal

end

/-! The source of the scan. -/

omit [F64 F] in
theorem find_restrictCols (cols : List (FrameCol F)) (scan : List String) (n : String) :
    ((restrictCols cols scan).find? fun c => c.name = n) = if n ∈ scan then cols.find? fun c => c.name = n else none := by
  induction scan with
  | nil => rfl
  | cons m scan ih =>
    rw [restrictCols] at ih ⊢
    cases hfind : cols.find? fun c => c.name = m with
    | none =>
      rw [List.filterMap_cons_none (f := fun n => cols.find? fun c => c.name = n) hfind, ih]
      by_cases hm : n = m
      · subst hm
        rw [hfind, if_pos List.mem_cons_self, ite_self]
      · simp [hm]
    | some c =>
      have hname : c.name = m := by simpa using List.find?_some hfind
      rw [List.filterMap_cons_some (f := fun n => cols.find? fun c => c.name = n) hfind, List.find?_cons, ih, hname]
      by_cases hm : m = n
      · subst hm
        simp [hfind]
      · simp [hm, Ne.symm hm]

omit [F64 F] in
theorem mem_restrictCols {cols : List (FrameCol F)} {scan : List String} {c : FrameCol F}
    (hc : c ∈ restrictCols cols scan) : c ∈ cols ∧ c.name ∈ scan := by
  obtain ⟨n, hn, hfind⟩ := List.mem_filterMap.mp hc
  have hname : c.name = n := by simpa using List.find?_some hfind
  exact ⟨List.mem_of_find?_eq_some hfind, hname ▸ hn⟩

omit [F64 F] in
theorem names_restrictCols {cols : List (FrameCol F)} {scan : List String} (h : ∀ n ∈ scan, n ∈ names cols) :
    names (restrictCols cols scan) = scan := by
  induction scan with
  | nil => rfl
  | cons n scan ih =>
    obtain ⟨hn, hscan⟩ := List.forall_mem_cons.mp h
    obtain ⟨c, hc, hname⟩ := List.mem_map.mp hn
    cases hfind : cols.find? fun c => c.name = n with
    | none =>
      rw [List.find?_eq_none] at hfind
      exact absurd (decide_eq_true hname) (hfind c hc)
    | some c' =>
      have hname' : c'.name = n := by simpa using List.find?_some hfind
      have hrest := ih hscan
      rw [restrictCols] at hrest ⊢
      rw [List.filterMap_cons_some (f := fun n => cols.find? fun c => c.name = n) hfind, names, List.map_cons, hname', ← names, hrest]

/-- The columns that are scanned, of those of the source. -/
def Unread (source scan : List String) (n : String) : Prop := n ∈ source ∧ n ∉ scan

omit [F64 F] in
theorem agree_restrictCols (cols : List (FrameCol F)) (scan : List String) :
    Agree (Unread (names cols) scan) cols (restrictCols cols scan) := by
  intro n hn
  rw [SameColumn, find_restrictCols]
  split
  · rfl
  · next hscan =>
    rcases hn with hread | hmem
    · cases hfind : cols.find? fun c => c.name = n with
      | none => rfl
      | some c =>
        have hname : c.name = n := by simpa using List.find?_some hfind
        exact absurd ⟨List.mem_map.mpr ⟨c, List.mem_of_find?_eq_some hfind, hname⟩, hscan⟩ hread
    · obtain ⟨c, hc, rfl⟩ := List.mem_map.mp hmem
      exact absurd (mem_restrictCols hc).2 hscan

omit [F64 F] in
theorem mem_names_restrictCols {cols : List (FrameCol F)} {scan : List String} {n : String} (hn : n ∈ names cols)
    (hscan : n ∈ scan) : n ∈ names (restrictCols cols scan) := by
  obtain ⟨c, hc, hname⟩ := List.mem_map.mp hn
  have hfind := find_restrictCols cols scan n
  rw [if_pos hscan] at hfind
  cases hfound : cols.find? fun c => c.name = n with
  | none =>
    rw [List.find?_eq_none] at hfound
    exact absurd (decide_eq_true hname) (hfound c hc)
  | some c' =>
    rw [hfound] at hfind
    have hname' : c'.name = n := by simpa using List.find?_some hfind
    exact List.mem_map.mpr ⟨c', List.mem_of_find?_eq_some hfind, hname'⟩

omit [F64 F] in
theorem columns_restrictCols (frame : Frame F) (scan : List String) :
    Columns (names (restrictCols frame.cols scan)) (colsHeight frame.cols) (restrictCols frame.cols scan) :=
  ⟨rfl, fun c hc => frame.height c (mem_restrictCols hc).1⟩

/-- Folding changes no value, and the scan does not lose the rows or the type of a key. -/
structure Keeps (frame : Frame F) (ops : List (PlanOp F)) : Prop where
  exact : opsExact none ops
  rows : scanned (names frame.cols) ops = [] → colsHeight frame.cols = 0
  keys : ∀ n ∈ keySources ops, n ∈ names frame.cols → n ∈ scanned (names frame.cols) ops

theorem sim_start {frame : Frame F} {ops : List (PlanOp F)} {opt : OptimizedPlan F}
    (h : foldPlan (.mk frame ops) = .ok opt) (hkeeps : Keeps frame ops) :
    Sim (¬ ReadsAll ops) (Unread (names frame.cols) (scanned (names frame.cols) ops)) (opt.source frame) ops
        { visible := names frame.cols } (.start frame.cols) (.start (opt.source frame)) ∧
      Even (.start (opt.source frame)) := by
  have heven : Even (.start frame.cols) := even_start ⟨rfl, frame.height⟩
  rcases scanCols_eq h with ⟨hscan, hall⟩ | ⟨scan, hscan, hall, hread, -⟩
  · have hsource : opt.source frame = frame.cols := by rw [OptimizedPlan.source, hscan]
    rw [hsource]
    exact ⟨Sim.start rfl rfl heven, heven⟩
  · have hsource : opt.source frame = restrictCols frame.cols scan := by rw [OptimizedPlan.source, hscan]
    have hscanned : ∀ n ∈ names frame.cols, n ∈ scanned (names frame.cols) ops ↔ n ∈ scan := by
      intro n hn
      rw [scanned, if_neg hall, List.mem_filter, decide_eq_true_iff, hread n hn]
      exact and_iff_right hn
    have hzero : names (restrictCols frame.cols scan) = [] → colsHeight frame.cols = 0 := by
      intro hnil
      refine hkeeps.rows (List.eq_nil_iff_forall_not_mem.mpr fun n hn => ?_)
      have hmem : n ∈ names frame.cols := by
        rw [scanned, if_neg hall] at hn
        exact List.mem_of_mem_filter hn
      have hrestricted := mem_names_restrictCols hmem ((hscanned n hmem).mp hn)
      rw [hnil] at hrestricted
      exact List.not_mem_nil hrestricted
    have hcolumns := columns_restrictCols frame scan
    have hheight : colsHeight (restrictCols frame.cols scan) = colsHeight frame.cols := by
      rw [hcolumns.height_eq]
      split
      · next hnil => exact (hzero hnil).symm
      · rfl
    rw [hsource]
    refine ⟨?_, even_start hcolumns⟩
    constructor
    case run => rfl
    case pending => rfl
    case settled => rfl
    case indices => exact congrArg List.range hheight
    case follows =>
      refine .inr ⟨⟨hall, ?_, ?_, ?_⟩, ?_⟩
      · rw [← Bool.not_eq_true]
        exact fun hjoin => hall (.inl hjoin)
      · rintro n hn ⟨hmem, hnot⟩
        exact hnot ((hscanned n hmem).mpr ((hread n hmem).mpr hn))
      · rintro n hn ⟨hmem, hnot⟩
        exact hnot (hkeeps.keys n hn hmem)
      · intro n hn
        refine agree_restrictCols frame.cols scan n (hn.imp_left fun hread hunread => hread ?_)
        exact ⟨hunread.1, fun hmem => hunread.2 ((hscanned n hunread.1).mp hmem)⟩
    case empty =>
      intro hnil
      have hcols : restrictCols frame.cols scan = [] := hnil
      show List.range (colsHeight frame.cols) = []
      rw [hzero (by rw [hcols]; rfl)]
      rfl
    case even => exact heven

theorem even_evalSteps {es es' : EvalState F} {ops : List (PlanOp F)} (h : evalSteps es ops = .ok es') (heven : Even es) :
    Even es' := by
  induction ops generalizing es with
  | nil =>
    obtain rfl := Except.ok.inj h
    exact heven
  | cons op ops ih =>
    obtain ⟨mid, hop, h⟩ := Lib.ok_of_bind h
    exact ih h (even_evalOp hop heven)

/-- The schema of the optimized run where columns are left out. -/
theorem names_optimized {frame : Frame F} {ops : List (PlanOp F)} {opt : OptimizedPlan F} {st : FoldState F}
    {es es' : EvalState F} (h : foldPlan (.mk frame ops) = .ok opt) (hall : ¬ ReadsAll ops)
    (hfold : foldOps { visible := names frame.cols } ops = .ok st) (hprojection : opt.projection = st.projection)
    (hs : Sim (¬ ReadsAll ops) (Unread (names frame.cols) (scanned (names frame.cols) ops)) (opt.source frame) [] st es es') :
    es.projection.getD (names es'.cur) = opsNames (scanned (names frame.cols) ops) ops := by
  obtain ⟨scan, hscan, -, -, hfilter⟩ := (scanCols_eq h).resolve_left fun hleft => hall hleft.2
  have hjoin : ops.any PlanOp.isJoin = false := by
    rw [← Bool.not_eq_true]
    exact fun hjoin => hall (.inl hjoin)
  have hfolded : ∀ ns, st.projection.getD (opsNames ns st.steps) = opsNames ns ops := fun ns =>
    (names_foldOps ns hfold hjoin rfl).1
  have hsteps := (names_foldOps [] hfold hjoin rfl).2
  have hcur := names_evalSteps hs.run hsteps
  rw [hs.settled, Option.getD_none] at hcur
  rw [hs.pending, hcur, ← hfolded]
  cases hp : st.projection with
  | some p => rfl
  | none =>
    have hsource : opt.source frame = restrictCols frame.cols scan := by rw [OptimizedPlan.source, hscan]
    have hscanned : scan = scanned (names frame.cols) ops := by
      rw [hfilter (hprojection.trans hp), scanned, if_neg hall]
    rw [Option.getD_none, Option.getD_none, hsource, ← hscanned]
    have hnames : names (restrictCols frame.cols scan) = scan := by
      refine names_restrictCols fun n hn => ?_
      rw [hscanned, scanned, if_neg hall] at hn
      exact List.mem_of_mem_filter hn
    show opsNames (names (restrictCols frame.cols scan)) st.steps = _
    rw [hnames]

/-- With the schema of all columns of the source, the scan has the columns that come out, and only so. -/
theorem evalOptimized_iff {frame : Frame F} {ops : List (PlanOp F)} {opt : OptimizedPlan F} {out : List (FrameCol F)}
    (h : foldPlan (.mk frame ops) = .ok opt) (hout : evalOps frame.cols ops = .ok out) (hkeeps : Keeps frame ops) :
    evalOptimized frame opt = .ok out ↔
      opsNames (scanned (names frame.cols) ops) ops = opsNames (names frame.cols) ops := by
  obtain ⟨hstart, heven⟩ := sim_start h hkeeps
  obtain ⟨st, hfold, hopt⟩ := Lib.ok_of_bind h
  obtain ⟨es, hes, hout⟩ := Lib.ok_of_bind hout
  obtain ⟨es', hs⟩ := hstart.steps hfold hkeeps.exact (fun p hp => by cases hp) hes
  rw [hs.even.materialize] at hout
  have hsteps : opt.allSteps = st.flush.steps := by
    obtain rfl := Except.ok.inj hopt
    exact (FoldState.flush_eq st).2.2.2.2.symm
  have hprojection : opt.projection = st.projection := by
    obtain rfl := Except.ok.inj hopt
    rfl
  -- the optimized run ends with the columns of the final projection
  have hoptimized : evalOptimized frame opt = materializeCols es'.cur es.indices es.projection true := by
    have hrun := hs.flush
    rw [← hsteps] at hrun
    rw [evalOptimized, evalOps, hrun]
    refine (even_evalSteps hrun heven).materialize.trans ?_
    rw [EvalState.materialize, hs.indices]
  have hcolumns := materializeCols_columns hout
  rw [hoptimized]
  by_cases hall : ReadsAll ops
  · have hcur : es'.cur = es.cur := hs.follows.resolve_right fun hright => hright.1.pruned hall
    rw [hcur, scanned, if_pos hall]
    exact iff_of_true hout rfl
  · have hjoin : ops.any PlanOp.isJoin = false := by
      rw [← Bool.not_eq_true]
      exact fun hjoin => hall (.inl hjoin)
    have hnames : es.projection.getD (names es.cur) = opsNames (names frame.cols) ops := names_evalSteps hes hjoin
    have hnames' := names_optimized h hall hfold hprojection hs
    rw [← hnames, ← hnames']
    constructor
    · intro hout'
      rw [← hcolumns.names, ← (materializeCols_columns hout').names]
    · intro hschema
      rw [← hout, EvalState.materialize]
      rcases hs.follows with hcur | ⟨hspares, hagree⟩
      · rw [hcur]
      · refine materializeCols_congr (F := F) rfl hschema (fun n hn => ?_) _ _
        cases hp : es.projection with
        | some p =>
          rw [hp] at hn
          refine hagree n (.inl (hspares.read n ?_))
          rw [← hs.pending, hp]
          exact hn
        | none =>
          rw [hp] at hschema hn
          refine hagree n (.inr ?_)
          rw [Option.getD_none] at hschema hn
          rwa [hschema]

theorem optimized_plan_iff :
    (∀ (frame : Frame F) (ops : List (PlanOp F)) (opt : OptimizedPlan F) (out : List (FrameCol F)),
      foldPlan (.mk frame ops) = .ok opt → evalOps frame.cols ops = .ok out → Keeps frame ops →
        (evalOptimized frame opt = .ok out ↔
          opsNames (scanned (names frame.cols) ops) ops = opsNames (names frame.cols) ops)) ∧
      ∀ (cols : List (FrameCol F)) (row : ℕ) (e : ExprNode F),
        (ScalarExact e → ∀ c, evalScalar cols row e = .ok c → evalScalar cols row (foldExpr e) = .ok c) ∧
          (PredExact e → ∀ v, evalPred cols row e = .ok v → evalPred cols row (foldExpr e) = .ok v) :=
  ⟨fun _ _ _ _ h hout hkeeps => evalOptimized_iff h hout hkeeps, foldExpr_sound⟩

/-- A plan whose scan leaves out a column. -/
def filterAndSelect : List (PlanOp Float) := [.filter (.cmp .gt (.col "x") (.litInt 1)), .select ["k"]]

theorem filterAndSelect_optimized :
    ∃ opt out, foldPlan (.mk keyValueAndSuffixed filterAndSelect) = .ok opt ∧ opt.scanCols = some ["k", "x"] ∧
      evalOps keyValueAndSuffixed.cols filterAndSelect = .ok out ∧ evalOptimized keyValueAndSuffixed opt = .ok out := by
  obtain ⟨opt, hopt, hscan⟩ : ∃ opt, foldPlan (.mk keyValueAndSuffixed filterAndSelect) = .ok opt ∧
      opt.scanCols = some ["k", "x"] := ⟨_, rfl, by decide⟩
  obtain ⟨out, hout⟩ : ∃ out, evalOps keyValueAndSuffixed.cols filterAndSelect = .ok out := ⟨_, rfl⟩
  have hscanned : scanned (names keyValueAndSuffixed.cols) filterAndSelect = ["k", "x"] := by decide
  have hkeeps : Keeps keyValueAndSuffixed filterAndSelect := by
    refine ⟨?_, ?_, ?_⟩
    · simp [filterAndSelect, opsExact, opExact, PredExact, ScalarExact]
    · rw [hscanned]
      simp
    · simp [filterAndSelect, keySources]
  refine ⟨opt, out, hopt, hscan, hout, ?_⟩
  rw [optimized_plan_iff.1 _ _ _ _ hopt hout hkeeps, hscanned]
  decide

/-- A column that has no value. -/
def nullFlag : FrameCol Float := ⟨"b", .bool [false], [false], 0, 1, rfl⟩

/-- A computed column that reads none, and is all that comes out. -/
def selectComputed : List (PlanOp Float) := [.withColumns [.aliased "y" (.litInt 1)], .select ["y"]]

theorem optimized_plans_differ :
    (∃ opt out out', foldPlan (.mk keyAndValue [.filter (.cmp .gt (.col "x") (.litInt 1))]) = .ok opt ∧
        evalOps keyAndValue.cols [.filter (.cmp .gt (.col "x") (.litInt 1))] = .ok out ∧ names out = ["k", "x"] ∧
        evalOptimized keyAndValue opt = .ok out' ∧ names out' = ["x"]) ∧
      (∃ opt out out', foldPlan (.mk keyAndValue selectComputed) = .ok opt ∧
        evalOps keyAndValue.cols selectComputed = .ok out ∧ colsHeight out = 1 ∧
        evalOptimized keyAndValue opt = .ok out' ∧ colsHeight out' = 0) ∧
      evalScalar [nullFlag] 0 (.and (.col "b") (.litBool true)) = .ok (some (.b false)) ∧
        evalScalar [nullFlag] 0 (foldExpr (.and (.col "b") (.litBool true))) = .ok none := by
  refine ⟨⟨_, _, _, rfl, rfl, ?_, rfl, ?_⟩, ⟨_, _, _, rfl, rfl, ?_, rfl, ?_⟩, rfl, rfl⟩
  · decide
  · decide
  · rfl
  · rfl

end Karac.Runtime.Lazy
