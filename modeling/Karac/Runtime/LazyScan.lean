import Karac.Runtime.LazyAccepted
import Karac.Runtime.LazyFoldSound

/-! What the optimized form of a plan reads from its source, and the steps and the schema that it has, step by step with
the plan. -/

namespace Karac.Runtime.Lazy

variable {F : Type}

/-! What a folded expression reads. -/

theorem reads_connect {isAnd : Bool} {a b : ExprNode F} {n : String} :
    (connect isAnd a b).Reads n ↔ a.Reads n ∨ b.Reads n := by
  cases isAnd <;> exact Iff.rfl

theorem reads_foldl_connect {isAnd : Bool} {first : ExprNode F} {rest : List (ExprNode F)} {n : String} :
    (rest.foldl (connect isAnd) first).Reads n ↔ first.Reads n ∨ ∃ leaf ∈ rest, leaf.Reads n := by
  induction rest generalizing first with
  | nil => simp
  | cons leaf rest ih =>
    rw [List.foldl_cons, ih, reads_connect, or_assoc]
    simp only [List.mem_cons, exists_eq_or_imp]

theorem reads_of_mem_spine {isAnd : Bool} {e leaf : ExprNode F} {n : String} (hleaf : leaf ∈ spine isAnd e)
    (hn : leaf.Reads n) : e.Reads n := by
  induction e using spineInduction isAnd with
  | leaf e he =>
    rw [spine_leaf he] at hleaf
    rwa [List.mem_singleton.mp hleaf] at hn
  | link a b iha ihb =>
    rw [spine_connect, List.mem_append] at hleaf
    exact reads_connect.mpr (hleaf.imp iha ihb)

section

variable [F64 F]

theorem reads_rebuildChain {isAnd : Bool} {leaves : List (ExprNode F)} {n : String}
    (h : (rebuildChain isAnd leaves).Reads n) : ∃ leaf ∈ leaves, leaf.Reads n := by
  rw [rebuildChain] at h
  split at h
  · next kept hkept =>
    obtain ⟨-, hmem⟩ := clean_keptLeaves hkept ⟨by simp, List.Pairwise.nil⟩
    have hread : ∃ leaf ∈ kept, leaf.Reads n := by
      cases kept with
      | nil => exact absurd h not_false
      | cons first rest =>
        simp only [List.mem_cons, exists_eq_or_imp]
        exact reads_foldl_connect.mp h
    obtain ⟨leaf, hleaf, hn⟩ := hread
    exact ⟨leaf, (hmem leaf hleaf).resolve_left List.not_mem_nil, hn⟩
  · exact absurd h not_false

/-- Nothing is read that was not read before. -/
theorem reads_foldExpr {e : ExprNode F} {n : String} (h : (foldExpr e).Reads n) : e.Reads n := by
  have hchain : ∀ (isAnd : Bool) {a b : ExprNode F}, ((foldExpr a).Reads n → a.Reads n) →
      ((foldExpr b).Reads n → b.Reads n) → (foldExpr (connect isAnd a b)).Reads n → a.Reads n ∨ b.Reads n := by
    intro isAnd a b ha hb h
    rw [foldExpr_chain] at h
    obtain ⟨leaf, hleaf, hn⟩ := reads_rebuildChain h
    rcases List.mem_append.mp hleaf with hleft | hright
    · exact .inl (ha (reads_of_mem_spine hleft hn))
    · exact .inr (hb (reads_of_mem_spine hright hn))
  induction e with
  | cmp op l r ihl ihr =>
    rw [foldExpr_cmp, foldCmp] at h
    split at h
    · exact absurd h not_false
    · exact h.imp ihl ihr
  | arith op l r ihl ihr =>
    rw [foldExpr_arith, foldArith] at h
    cases hlit : literalArith op (foldExpr l) (foldExpr r) with
    | none =>
      rw [hlit, Option.getD_none] at h
      exact h.imp ihl ihr
    | some e =>
      rw [hlit, Option.getD_some] at h
      unfold literalArith at hlit
      split at hlit
      · split_ifs at hlit
        obtain ⟨v, -, rfl⟩ := Option.map_eq_some_iff.mp hlit
        exact absurd h not_false
      all_goals
        cases hlit
        try exact absurd h not_false
  | and a b iha ihb => exact hchain true iha ihb h
  | or a b iha ihb => exact hchain false iha ihb h
  | not x ih =>
    rw [foldExpr_not] at h
    refine ih ?_
    unfold foldNot at h
    split at h
    · exact absurd h not_false
    · next hx =>
      rw [hx]
      exact h
    · exact h
  | desc x ih =>
    rw [foldExpr_desc] at h
    exact ih h
  | agg op x ih =>
    rw [foldExpr_agg] at h
    exact ih h
  | aliased name x ih =>
    rw [foldExpr_aliased] at h
    exact ih h
  | _ => exact h

end

/-! The optimized form. -/

/-- The columns that are scanned, in the order of the scan. -/
def restrictCols (cols : List (FrameCol F)) (scan : List String) : List (FrameCol F) :=
  scan.filterMap fun n => cols.find? fun c => c.name = n

def OptimizedPlan.source (opt : OptimizedPlan F) (frame : Frame F) : List (FrameCol F) :=
  match opt.scanCols with
  | some scan => restrictCols frame.cols scan
  | none => frame.cols

/-- The final projection is the last step. -/
def OptimizedPlan.allSteps (opt : OptimizedPlan F) : List (PlanOp F) :=
  opt.steps ++ (opt.projection.map PlanOp.select).toList

def evalOptimized [F64 F] (frame : Frame F) (opt : OptimizedPlan F) : Except LazyError (List (FrameCol F)) :=
  evalOps (opt.source frame) opt.allSteps

/-! What the steps of a plan read. -/

def PlanOp.isJoin : PlanOp F → Bool
  | .join _ _ => true
  | _ => false

def PlanOp.isGroupBy : PlanOp F → Bool
  | .groupBy _ _ => true
  | _ => false

/-- The select that is pending after a step. -/
def opSelect (pending : Option (List String)) : PlanOp F → Option (List String)
  | .select cols => some cols
  | .limit _ => pending
  | .filter _ => pending
  | .sort _ => pending
  | .groupBy _ _ => none
  | .join _ _ => none
  | .withColumns _ => none

def finalSelect (pending : Option (List String)) (ops : List (PlanOp F)) : Option (List String) := ops.foldl opSelect pending

/-- A filter reads what is left of its predicate; computed columns read the columns of a pending select too. -/
def opRead [F64 F] (pending : Option (List String)) : PlanOp F → List String
  | .filter e => exprCols (foldExpr e)
  | .sort keys => keys.flatMap exprCols
  | .groupBy keys aggs => keys.map outputName ++ aggs.flatMap exprCols
  | .withColumns exprs => exprs.flatMap exprCols ++ pending.getD []
  | _ => []

/-- Up to the first grouping, or to the columns that are selected last. -/
def opsRead [F64 F] : Option (List String) → List (PlanOp F) → List String
  | pending, [] => pending.getD []
  | pending, op :: ops => opRead pending op ++ if op.isGroupBy then [] else opsRead (opSelect pending op) ops

/-- A plan with a join reads all columns, and so does one that names no column. -/
def ReadsAll [F64 F] (ops : List (PlanOp F)) : Prop :=
  ops.any PlanOp.isJoin = true ∨
    opsRead none ops = [] ∧ (ops.any PlanOp.isGroupBy = true ∨ finalSelect none ops = none)

instance [F64 F] (ops : List (PlanOp F)) : Decidable (ReadsAll ops) :=
  inferInstanceAs (Decidable (_ ∨ _ ∧ (_ ∨ _)))

/-- The columns of the source that are read. -/
def scanned [F64 F] (source : List String) (ops : List (PlanOp F)) : List String :=
  if ReadsAll ops then source else source.filter fun n => n ∈ opsRead none ops

/-- The columns that the keys of the first grouping take their types from. -/
def keySources : List (PlanOp F) → List String
  | [] => []
  | .groupBy keys _ :: _ => keys.filterMap groupKeyInnerCol
  | _ :: ops => keySources ops

/-! Filters that come together. -/

def lastFilter (steps : List (PlanOp F)) : Option (ExprNode F) :=
  match steps.getLast? with
  | some (.filter p) => some p
  | _ => none

section

variable [F64 F]

/-- The filter that a next one is fused with. -/
def nextFilter (prev : Option (ExprNode F)) : PlanOp F → Option (ExprNode F)
  | .select _ => prev
  | .filter e =>
    match foldExpr e with
    | .litBool true => prev
    | folded => some (prev.elim folded fun p => foldExpr (.and p folded))
  | _ => none

/-- The expressions of a step keep their values when they are folded, and a filter when it is fused. -/
def opExact (prev : Option (ExprNode F)) : PlanOp F → Prop
  | .filter e => PredExact e ∧ ∀ p, prev = some p → Distinct (spine true p ++ spine true (foldExpr e))
  | .withColumns exprs => ∀ e ∈ exprs, ∀ name inner, withColumnsOutput e = .ok (name, inner) → ScalarExact inner
  | _ => True

def opsExact : Option (ExprNode F) → List (PlanOp F) → Prop
  | _, [] => True
  | prev, op :: ops => opExact prev op ∧ opsExact (nextFilter prev op) ops

end

/-! What the fold does in a step. -/

namespace FoldState

variable {st st' : FoldState F}

theorem mem_foldl_pushCol (n : String) (cols needed : List String) :
    n ∈ cols.foldl (fun needed c => pushCol c needed) needed ↔ n ∈ needed ∨ n ∈ cols := by
  induction cols generalizing needed with
  | nil => simp
  | cons c cols ih => rw [List.foldl_cons, ih, mem_pushCol, List.mem_cons, or_assoc]

theorem mem_need (st : FoldState F) (n : String) (cols : List String) :
    n ∈ (st.need cols).needed ↔ n ∈ st.needed ∨ st.pastGroupBy = false ∧ n ∈ cols := by
  rw [need]
  cases hpast : st.pastGroupBy with
  | true => simp
  | false => simp [mem_foldl_pushCol]

/-- All but the columns that are needed is as before. -/
structure Needs (cols : List String) (st st' : FoldState F) : Prop where
  needed : ∀ n, n ∈ st'.needed ↔ n ∈ st.needed ∨ st.pastGroupBy = false ∧ n ∈ cols
  projection : st'.projection = st.projection
  steps : st'.steps = st.steps
  pastGroupBy : st'.pastGroupBy = st.pastGroupBy
  pastJoin : st'.pastJoin = st.pastJoin

theorem needs_need (st : FoldState F) (cols : List String) : Needs cols st (st.need cols) := by
  refine ⟨fun n => mem_need st n cols, need_projection st cols, ?_, ?_, ?_⟩
  all_goals
    rw [need]
    split <;> rfl

theorem Needs.refl (st : FoldState F) : Needs [] st st := ⟨by simp, rfl, rfl, rfl, rfl⟩

theorem Needs.trans {cols cols' : List String} {a b c : FoldState F} (h : Needs cols a b) (h' : Needs cols' b c) :
    Needs (cols ++ cols') a c where
  needed n := by
    rw [h'.needed, h.needed, h.pastGroupBy, List.mem_append]
    tauto
  projection := h'.projection.trans h.projection
  steps := h'.steps.trans h.steps
  pastGroupBy := h'.pastGroupBy.trans h.pastGroupBy
  pastJoin := h'.pastJoin.trans h.pastJoin

theorem foldSortKeys_needs {keys : List (ExprNode F)} (h : foldSortKeys keys st = .ok st') :
    Needs (keys.flatMap exprCols) st st' := by
  induction keys generalizing st with
  | nil =>
    cases h
    exact .refl _
  | cons k keys ih =>
    obtain ⟨⟨⟩, -, h⟩ := Lib.ok_of_bind h
    exact (needs_need st _).trans (ih h)

theorem foldGroupKeys_needs {keys : List (ExprNode F)} {out out' : List String}
    (h : foldGroupKeys keys st out = .ok (st', out')) : Needs (keys.map outputName) st st' := by
  induction keys generalizing st out with
  | nil =>
    cases h
    exact .refl _
  | cons k keys ih =>
    obtain ⟨name, hname, h⟩ := Lib.ok_of_bind h
    obtain ⟨⟨⟩, -, h⟩ := Lib.ok_of_bind h
    obtain rfl := (groupKeyName_eq hname).1
    exact (needs_need st _).trans (ih h)

theorem foldAggs_needs {aggs : List (ExprNode F)} {out out' : List String}
    (h : foldAggs aggs st out = .ok (st', out')) : Needs (aggs.flatMap exprCols) st st' := by
  induction aggs generalizing st out with
  | nil =>
    cases h
    exact .refl _
  | cons a aggs ih =>
    obtain ⟨⟨⟩, -, h⟩ := Lib.ok_of_bind h
    obtain ⟨name, -, h⟩ := Lib.ok_of_bind h
    exact (needs_need st _).trans (ih h)

theorem foldOutputs_needs {exprs : List (ExprNode F)} {outs outs' : List String}
    (h : foldOutputs exprs st outs = .ok (st', outs')) : Needs (exprs.flatMap exprCols) st st' := by
  induction exprs generalizing st outs with
  | nil =>
    cases h
    exact .refl _
  | cons e exprs ih =>
    obtain ⟨⟨name, inner⟩, -, h⟩ := Lib.ok_of_bind h
    obtain ⟨⟨⟩, -, h⟩ := Lib.ok_of_bind h
    split at h
    · cases h
    · exact (needs_need st _).trans (ih h)

section

variable [F64 F]

/-- The steps with those of one more operation. -/
def stepsAfter (st : FoldState F) : PlanOp F → List (PlanOp F)
  | .select _ => st.steps
  | .limit n => (st.foldLimit n).steps
  | .filter e =>
    match foldExpr e with
    | .litBool true => st.steps
    | folded => fuseFilter st.steps folded
  | .sort keys => st.steps ++ [.sort keys]
  | .groupBy keys aggs => st.steps ++ [.groupBy keys aggs]
  | .join right on => st.flush.steps ++ [.join right on]
  | .withColumns exprs => st.flush.steps ++ [.withColumns (exprs.map foldExpr)]

/-- What one operation adds. -/
structure Folds (op : PlanOp F) (st st' : FoldState F) : Prop where
  needed : ∀ n, n ∈ st'.needed ↔ n ∈ st.needed ∨ st.pastGroupBy = false ∧ n ∈ opRead st.projection op
  projection : st'.projection = opSelect st.projection op
  steps : st'.steps = st.stepsAfter op
  pastGroupBy : st'.pastGroupBy = (st.pastGroupBy || op.isGroupBy)
  pastJoin : st'.pastJoin = (st.pastJoin || op.isJoin)

omit [F64 F] in
theorem flush_eq (st : FoldState F) :
    st.flush.needed = st.needed ∧ st.flush.projection = st.projection ∧ st.flush.pastGroupBy = st.pastGroupBy ∧
      st.flush.pastJoin = st.pastJoin ∧ st.flush.steps = st.steps ++ (st.projection.map PlanOp.select).toList := by
  unfold flush
  split
  · next p hp => simp [hp]
  · next hp => simp [hp]

omit [F64 F] in
theorem flushNeeded_needs {mid : FoldState F} (st : FoldState F) (hmid : mid = st.flushNeeded) :
    (∀ n, n ∈ mid.needed ↔ n ∈ st.needed ∨ st.pastGroupBy = false ∧ n ∈ st.projection.getD []) ∧
      mid.projection = none ∧ mid.pastGroupBy = st.pastGroupBy ∧ mid.pastJoin = st.pastJoin ∧
      mid.steps = st.flush.steps := by
  subst hmid
  obtain ⟨hneeded, -, hgroup, hjoin, -⟩ := flush_eq st
  unfold flushNeeded
  split
  · next p hp =>
    have hneed := needs_need st.flush p
    refine ⟨fun n => ?_, rfl, hneed.pastGroupBy.trans hgroup, hneed.pastJoin.trans hjoin, hneed.steps⟩
    have hmem := hneed.needed n
    rw [hneeded, hgroup] at hmem
    simpa [hp] using hmem
  · next hp =>
    refine ⟨by simp [hp], hp, rfl, rfl, ?_⟩
    rw [flush, hp]

theorem foldFilter_folds {st st' : FoldState F} {e : ExprNode F} (h : st.foldFilter e = .ok st') :
    Folds (.filter e) st st' := by
  obtain ⟨⟨⟩, -, h⟩ := Lib.ok_of_bind h
  have hneed := needs_need st (exprCols (foldExpr e))
  have hsame : ∀ steps, steps = st.stepsAfter (.filter e) →
      Folds (.filter e) st { st.need (exprCols (foldExpr e)) with steps } := fun steps hsteps =>
    ⟨hneed.needed, hneed.projection, hsteps, by simpa [PlanOp.isGroupBy] using hneed.pastGroupBy,
      by simpa [PlanOp.isJoin] using hneed.pastJoin⟩
  simp only [] at h
  split at h
  · next hfold =>
    cases h
    refine hsame (st.need (exprCols (foldExpr e))).steps ?_
    rw [hneed.steps, stepsAfter, hfold]
  · next hfold =>
    cases h
    refine hsame (fuseFilter (st.need (exprCols (foldExpr e))).steps (foldExpr e)) ?_
    rw [hneed.steps, stepsAfter]
    split
    · next htrue => exact absurd htrue hfold
    · rfl

theorem foldOp_folds {st st' : FoldState F} {op : PlanOp F} (h : foldOp st op = .ok st') : Folds op st st' := by
  cases op with
  | select cols =>
    obtain ⟨⟨⟩, -, h⟩ := Lib.ok_of_bind h
    cases h
    exact ⟨by simp [opRead], rfl, rfl, by simp [PlanOp.isGroupBy], by simp [PlanOp.isJoin]⟩
  | limit n =>
    cases h
    exact ⟨by simp [opRead, foldLimit], rfl, rfl, by simp [PlanOp.isGroupBy, foldLimit], by simp [PlanOp.isJoin, foldLimit]⟩
  | filter e => exact foldFilter_folds h
  | sort keys =>
    obtain ⟨mid, hkeys, h⟩ := Lib.ok_of_bind h
    cases h
    have hneed := foldSortKeys_needs hkeys
    refine ⟨hneed.needed, hneed.projection, ?_, by simpa [PlanOp.isGroupBy] using hneed.pastGroupBy,
      by simpa [PlanOp.isJoin] using hneed.pastJoin⟩
    rw [stepsAfter, hneed.steps]
  | groupBy keys aggs =>
    obtain ⟨⟨mid, out⟩, hkeys, h⟩ := Lib.ok_of_bind h
    obtain ⟨⟨last, out'⟩, haggs, h⟩ := Lib.ok_of_bind h
    cases h
    have hneed := (foldGroupKeys_needs hkeys).trans (foldAggs_needs haggs)
    refine ⟨hneed.needed, rfl, ?_, by simp [PlanOp.isGroupBy], by simpa [PlanOp.isJoin] using hneed.pastJoin⟩
    rw [stepsAfter, ← hneed.steps]
  | join right on =>
    obtain ⟨rightPlan, -, h⟩ := Lib.ok_of_bind h
    obtain ⟨⟨⟩, -, h⟩ := Lib.ok_of_bind h
    cases h
    obtain ⟨hneeded, -, hgroup, -, -⟩ := flush_eq st
    exact ⟨by simp [opRead, hneeded], rfl, rfl, by simpa [PlanOp.isGroupBy] using hgroup, by simp [PlanOp.isJoin]⟩
  | withColumns exprs =>
    obtain ⟨⟨mid, outs⟩, houts, h⟩ := Lib.ok_of_bind h
    cases h
    have hneed := foldOutputs_needs houts
    obtain ⟨hneeded, hprojection, hgroup, hjoin, hsteps⟩ := flushNeeded_needs mid rfl
    constructor
    case needed =>
      intro n
      simp only [hneeded, hneed.needed, hneed.pastGroupBy, hneed.projection, opRead, List.mem_append]
      tauto
    case projection => exact hprojection
    case steps =>
      show mid.flushNeeded.steps ++ _ = _
      rw [stepsAfter, hsteps, (flush_eq mid).2.2.2.2, (flush_eq st).2.2.2.2, hneed.steps, hneed.projection]
    case pastGroupBy => simpa [PlanOp.isGroupBy] using hgroup.trans hneed.pastGroupBy
    case pastJoin => simpa [PlanOp.isJoin] using hjoin.trans hneed.pastJoin

omit [F64 F] in
/-- The last filter, or none. -/
theorem lastFilter_cases (steps : List (PlanOp F)) :
    (∃ front p, steps = front ++ [.filter p] ∧ lastFilter steps = some p) ∨
      ((∀ p, steps.getLast? ≠ some (.filter p)) ∧ lastFilter steps = none) := by
  unfold lastFilter
  split
  · next p hp =>
    obtain ⟨front, hfront⟩ := List.getLast?_eq_some_iff.mp hp
    exact .inl ⟨front, p, hfront, rfl⟩
  · next hlast => exact .inr ⟨hlast, rfl⟩

theorem fuseFilter_append (front : List (PlanOp F)) (p folded : ExprNode F) :
    fuseFilter (front ++ [.filter p]) folded = front ++ [.filter (foldExpr (.and p folded))] := by
  rw [fuseFilter, List.getLast?_concat, List.dropLast_concat]

theorem fuseFilter_of_none {steps : List (PlanOp F)} (h : ∀ p, steps.getLast? ≠ some (.filter p)) (folded : ExprNode F) :
    fuseFilter steps folded = steps ++ [.filter folded] := by
  unfold fuseFilter
  split
  · next p hp => exact absurd hp (h p)
  · rfl

/-- The steps before a filter stay, and one filter is last. -/
theorem fuseFilter_ends (steps : List (PlanOp F)) (folded : ExprNode F) :
    ∃ front p, fuseFilter steps folded = front ++ [.filter p] ∧ (front = steps ∨ ∃ q, front ++ [.filter q] = steps) := by
  rcases lastFilter_cases steps with ⟨front, p, rfl, -⟩ | ⟨hlast, -⟩
  · exact ⟨front, _, fuseFilter_append front p folded, .inr ⟨p, rfl⟩⟩
  · exact ⟨steps, _, fuseFilter_of_none hlast folded, .inl rfl⟩

omit [F64 F] in
theorem foldLimit_steps (st : FoldState F) (n : ℤ) :
    (∃ front m, st.steps = front ++ [.limit m] ∧ (st.foldLimit n).steps = front ++ [.limit (min m n)]) ∨
      (st.foldLimit n).steps = st.steps ++ [.limit n] := by
  unfold foldLimit
  split
  · next m hm =>
    obtain ⟨front, hfront⟩ := List.getLast?_eq_some_iff.mp hm
    exact .inl ⟨front, m, hfront, by rw [hfront, List.dropLast_concat]⟩
  · exact .inr rfl

/-- A column is needed for a step that is not a select or a limit. -/
theorem hasFilters_of_needed {st st' : FoldState F} {op : PlanOp F} (h : Folds op st st')
    (hst : st.needed ≠ [] → hasFilters st.steps = true) : st'.needed ≠ [] → hasFilters st'.steps = true := by
  have hflush : hasFilters st.flush.steps = hasFilters st.steps := by
    rw [(flush_eq st).2.2.2.2]
    cases st.projection <;> simp [hasFilters]
  have hneeded : opRead st.projection op = [] → st'.needed ≠ [] → hasFilters st.steps = true := by
    intro hread hne
    obtain ⟨n, hn⟩ := List.exists_mem_of_ne_nil _ hne
    rw [h.needed, hread] at hn
    exact hst (List.ne_nil_of_mem (hn.resolve_right fun hr => List.not_mem_nil hr.2))
  rw [h.steps]
  cases op with
  | select cols => exact hneeded rfl
  | limit n =>
    intro hne
    have hold := hneeded rfl hne
    rw [stepsAfter]
    rcases foldLimit_steps st n with ⟨front, m, hfront, heq⟩ | heq
    · rw [heq]
      rw [hfront] at hold
      simpa [hasFilters] using hold
    · rw [heq]
      simpa [hasFilters] using hold
  | filter e =>
    intro hne
    rw [stepsAfter]
    split
    · next hfold =>
      refine hneeded ?_ hne
      rw [opRead, hfold]
      rfl
    · obtain ⟨front, p, heq, -⟩ := fuseFilter_ends st.steps (foldExpr e)
      rw [heq]
      simp [hasFilters]
  | _ =>
    intro _
    simp [stepsAfter, hasFilters]

/-- The last filter is the one to fuse with. -/
theorem lastFilter_foldOp {st st' : FoldState F} {op : PlanOp F} (h : foldOp st op = .ok st') :
    lastFilter st'.steps = nextFilter (lastFilter st.steps) op := by
  have hconcat : ∀ (front : List (PlanOp F)) (op : PlanOp F), (∀ p, op ≠ .filter p) →
      lastFilter (front ++ [op]) = none := by
    intro front op hop
    rcases lastFilter_cases (front ++ [op]) with ⟨front', p, heq, -⟩ | ⟨-, hnone⟩
    · exact absurd (List.append_inj_right' heq rfl) (by simpa using hop p)
    · exact hnone
  have hfilter : ∀ (front : List (PlanOp F)) (p : ExprNode F), lastFilter (front ++ [.filter p]) = some p := by
    intro front p
    rw [lastFilter, List.getLast?_concat]
  rw [(foldOp_folds h).steps]
  cases op with
  | select cols => rfl
  | limit n =>
    rw [stepsAfter]
    rcases foldLimit_steps st n with ⟨front, m, -, heq⟩ | heq
    · rw [heq, hconcat _ _ (by simp)]
      rfl
    · rw [heq, hconcat _ _ (by simp)]
      rfl
  | filter e =>
    rw [stepsAfter, nextFilter]
    split
    · rfl
    · rcases lastFilter_cases st.steps with ⟨front, p, heq, hlast⟩ | ⟨hnone, hlast⟩
      · rw [hlast, heq, fuseFilter_append, hfilter]
        rfl
      · rw [hlast, fuseFilter_of_none hnone, hfilter]
        rfl
  | _ => exact hconcat _ _ (by simp)

theorem normal_nextFilter {prev : Option (ExprNode F)} {op : PlanOp F} (h : ∀ p, prev = some p → Normal p) :
    ∀ p, nextFilter prev op = some p → Normal p := by
  intro p hp
  cases op with
  | select cols => exact h p hp
  | filter e =>
    rw [nextFilter] at hp
    split at hp
    · exact h p hp
    · obtain rfl := Option.some.inj hp
      cases prev with
      | none => exact normal_foldExpr e
      | some q => exact normal_foldExpr _
  | _ => cases hp

/-- What the operations of a run add. -/
structure Ran (ops : List (PlanOp F)) (st st' : FoldState F) : Prop where
  projection : st'.projection = finalSelect st.projection ops
  pastGroupBy : st'.pastGroupBy = (st.pastGroupBy || ops.any PlanOp.isGroupBy)
  pastJoin : st'.pastJoin = (st.pastJoin || ops.any PlanOp.isJoin)
  filters : (st.needed ≠ [] → hasFilters st.steps = true) → st'.needed ≠ [] → hasFilters st'.steps = true
  derived : st.pastGroupBy = true → ∀ n, n ∈ st'.needed ↔ n ∈ st.needed
  needed : st.pastGroupBy = false → ∀ n, n ∈ st'.needed ∨ st'.pastGroupBy = false ∧ n ∈ st'.projection.getD [] ↔
    n ∈ st.needed ∨ n ∈ opsRead st.projection ops

theorem foldOps_ran {ops : List (PlanOp F)} {st st' : FoldState F} (h : foldOps st ops = .ok st') : Ran ops st st' := by
  induction ops generalizing st with
  | nil =>
    cases h
    refine ⟨rfl, by simp, by simp, id, fun _ _ => Iff.rfl, fun hpast n => ?_⟩
    rw [opsRead]
    tauto
  | cons op ops ih =>
    obtain ⟨mid, hop, h⟩ := Lib.ok_of_bind h
    have hfolds := foldOp_folds hop
    obtain ⟨hprojection, hgroup, hjoin, hfilters, hderived, hneeded⟩ := ih h
    constructor
    case projection =>
      rw [hprojection, hfolds.projection]
      rfl
    case pastGroupBy => rw [hgroup, hfolds.pastGroupBy, List.any_cons, Bool.or_assoc]
    case pastJoin => rw [hjoin, hfolds.pastJoin, List.any_cons, Bool.or_assoc]
    case filters => exact fun hst => hfilters (hasFilters_of_needed hfolds hst)
    case derived =>
      intro hpast n
      have hmid : mid.pastGroupBy = true := by rw [hfolds.pastGroupBy, hpast, Bool.true_or]
      rw [hderived hmid, hfolds.needed, hpast]
      simp
    case needed =>
      intro hpast n
      have hmid : mid.pastGroupBy = op.isGroupBy := by rw [hfolds.pastGroupBy, hpast, Bool.false_or]
      have hread := hfolds.needed n
      rw [hpast] at hread
      rw [opsRead]
      cases hop : op.isGroupBy with
      | true =>
        rw [hop] at hmid
        rw [hgroup, hmid, hderived hmid, hread]
        simp
      | false =>
        rw [hop] at hmid
        rw [hneeded hmid, hread, hfolds.projection]
        simp [or_assoc]

end

end FoldState

/-! The scan. -/

section

variable [F64 F]

/-- The code reads all columns, or among the columns of the source those that the steps read. -/
theorem scanCols_eq {frame : Frame F} {ops : List (PlanOp F)} {opt : OptimizedPlan F}
    (h : foldPlan (.mk frame ops) = .ok opt) :
    (opt.scanCols = none ∧ ReadsAll ops) ∨
      ∃ scan, opt.scanCols = some scan ∧ ¬ ReadsAll ops ∧ (∀ n ∈ names frame.cols, n ∈ scan ↔ n ∈ opsRead none ops) ∧
        (opt.projection = none → scan = (names frame.cols).filter fun n => n ∈ opsRead none ops) := by
  obtain ⟨st, hops, h⟩ := Lib.ok_of_bind h
  cases h
  obtain ⟨hprojection, hgroup, hjoin, hfilters, -, hneeded⟩ := FoldState.foldOps_ran hops
  have hneeded := hneeded rfl
  have hfilters := hfilters fun hne => absurd rfl hne
  simp only [List.not_mem_nil, false_or] at hneeded
  rw [Bool.false_or] at hgroup hjoin
  have hnil : opsRead none ops = [] ↔ st.needed = [] ∧ (st.pastGroupBy = false → st.projection.getD [] = []) := by
    simp only [List.eq_nil_iff_forall_not_mem, ← hneeded]
    constructor
    · intro hall
      exact ⟨fun n hn => hall n (.inl hn), fun hpast n hn => hall n (.inr ⟨hpast, hn⟩)⟩
    · rintro ⟨hneed, hproj⟩ n (hn | ⟨hpast, hn⟩)
      · exact hneed n hn
      · exact hproj hpast n hn
  unfold ReadsAll
  rw [← hjoin, ← hgroup, ← hprojection, hnil]
  simp only [FoldState.finish, FoldState.scanCols]
  cases hpastJoin : st.pastJoin with
  | true => simp
  | false =>
    cases hpast : st.pastGroupBy with
    | true =>
      by_cases hn : st.needed = []
      · simp [hn]
      · refine .inr ⟨(names frame.cols).filter fun n => n ∈ st.needed, by simp [hn], by simp [hn], ?_, ?_⟩
        · intro n hsource
          rw [← hneeded, hpast]
          simp [hsource]
        · intro _
          simp [← hneeded, hpast]
    | false =>
      rw [hpast] at hneeded
      by_cases hn : st.needed = []
      · cases hp : st.projection with
        | none => simp [hn]
        | some p =>
          rw [hp, hn] at hneeded
          cases hf : FoldState.hasFilters st.steps with
          | true =>
            refine .inr ⟨(names frame.cols).filter fun n => n ∈ p, by simp [hn], by simp, ?_, by simp⟩
            intro n hsource
            rw [← hneeded]
            simp [hsource]
          | false =>
            -- nothing but the projection is read
            refine .inr ⟨p, by simp [hn], by simp, ?_, by simp⟩
            intro n _
            rw [← hneeded]
            simp
      · refine .inr ⟨(names frame.cols).filter fun n => n ∈ st.projection.getD [] ++ st.needed,
          by simp [hn, hfilters hn], by simp [hn], ?_, ?_⟩
        · intro n hsource
          rw [← hneeded]
          simp [hsource, or_comm]
        · intro hnone
          simp [← hneeded, hnone]

end

end Karac.Runtime.Lazy
