import Karac.Runtime.LazySchema

/-! Accepted plans: what `fold_plan` checks of each step, and the run of the steps under it. -/

namespace Karac.Runtime.Lazy

open Lib (Yields yields_mapM)

variable {F : Type}

/-! Joins and computed columns. -/

/-- The columns of the right side that go to the output, under the names that they have there. -/
def rightNames (left right on : List String) : List String :=
  (right.filter fun c => c ∉ on).map fun c => if c ∈ left then c ++ "_right" else c

/-- No column of the right side has the name of an output column made from one before it. -/
def JoinClear (left right on : List String) : Prop :=
  ∀ before c after, right = before ++ c :: after → c ∉ on → c ∈ rightNames left before on → c ∈ left

theorem rightNames_append (left before after on : List String) :
    rightNames left (before ++ after) on = rightNames left before on ++ rightNames left after on := by
  rw [rightNames, List.filter_append, List.map_append, rightNames, rightNames]

theorem rightNames_cons (left : List String) (c : String) (right on : List String) :
    rightNames left (c :: right) on =
      (if c ∈ on then [] else [if c ∈ left then c ++ "_right" else c]) ++ rightNames left right on := by
  rw [← List.singleton_append, rightNames_append]
  by_cases hc : c ∈ on
  · simp [rightNames, hc]
  · simp [rightNames, hc]

theorem append_right_ne (c : String) : c ++ "_right" ≠ c := by
  intro h
  have hlength := congrArg String.length h
  rw [String.length_append] at hlength
  have hsuffix : "_right".length = 6 := by decide
  omega

namespace FoldState

theorem prefix_joinSchema (on right out : List String) : out <+: joinSchema on right out := by
  induction right generalizing out with
  | nil => exact List.prefix_refl out
  | cons c right ih =>
    rw [joinSchema]
    split_ifs
    · exact ih out
    · exact (List.prefix_append _ _).trans (ih _)
    · exact (List.prefix_append _ _).trans (ih _)

/-- The clauses of a clear join from some column of the right side on. -/
theorem clear_cons {left on before right : List String} {c : String}
    (hc : c ∉ on → c ∈ rightNames left before on → c ∈ left) :
    (∀ mid c' after, c :: right = mid ++ c' :: after → c' ∉ on → c' ∈ rightNames left (before ++ mid) on → c' ∈ left) ↔
      ∀ mid c' after, right = mid ++ c' :: after → c' ∉ on →
        c' ∈ rightNames left (before ++ [c] ++ mid) on → c' ∈ left := by
  constructor
  · intro h mid c' after hright hon hmem
    refine h (c :: mid) c' after (by rw [hright, List.cons_append]) hon ?_
    rwa [List.append_assoc, List.singleton_append] at hmem
  · intro h mid c' after hright hon hmem
    cases mid with
    | nil =>
      obtain ⟨rfl, -⟩ := List.cons.inj hright
      rw [List.append_nil] at hmem
      exact hc hon hmem
    | cons m mid =>
      obtain ⟨rfl, htail⟩ := List.cons.inj hright
      refine h mid c' after htail hon ?_
      rwa [List.append_assoc, List.singleton_append]

/-- From some column of the right side on. -/
theorem joinSchema_from (left on before right : List String) :
    joinSchema on right (left ++ rightNames left before on) = left ++ rightNames left (before ++ right) on ↔
      ∀ mid c after, right = mid ++ c :: after → c ∉ on → c ∈ rightNames left (before ++ mid) on → c ∈ left := by
  induction right generalizing before with
  | nil => simp [joinSchema]
  | cons c right ih =>
    have hnext := ih (before ++ [c])
    have hback : before ++ c :: right = before ++ [c] ++ right := by simp
    rw [rightNames_append left before [c], rightNames_cons] at hnext
    rw [joinSchema, hback]
    by_cases hon : c ∈ on
    · rw [if_pos hon, clear_cons fun h => absurd hon h, ← hnext, if_pos hon]
      simp [rightNames]
    · rw [if_neg hon]
      by_cases hleft : c ∈ left
      · rw [if_pos (List.mem_append_left _ hleft), clear_cons fun _ _ => hleft, ← hnext, if_neg hon, if_pos hleft]
        simp [rightNames]
      · by_cases hbefore : c ∈ rightNames left before on
        · rw [if_pos (List.mem_append_right _ hbefore)]
          refine iff_of_false ?_ ?_
          · intro heq
            -- the code adds the suffix, the columns do not have it
            have hp := prefix_joinSchema on right (left ++ rightNames left before on ++ [c ++ "_right"])
            rw [heq, List.append_assoc, List.prefix_append_right_inj, List.append_assoc, rightNames_append,
              List.prefix_append_right_inj, List.singleton_append, rightNames_cons, if_neg hon, if_neg hleft,
              List.singleton_append, List.cons_prefix_cons] at hp
            exact append_right_ne c hp.1
          · intro h
            refine hleft (h [] c right rfl hon ?_)
            rwa [List.append_nil]
        · have hout : c ∉ left ++ rightNames left before on := by
            rw [List.mem_append]
            tauto
          rw [if_neg hout, clear_cons fun _ h => absurd h hbefore, ← hnext, if_neg hon, if_neg hleft]
          simp [rightNames]

/-- The schema of `fold_plan` is that of the columns just where the join is clear. -/
theorem joinSchema_iff (left right on : List String) :
    joinSchema on right left = left ++ rightNames left right on ↔ JoinClear left right on := by
  have h := joinSchema_from left on [] right
  simpa [rightNames, JoinClear] using h

end FoldState

section

variable [F64 F] {cols left right : List (FrameCol F)}

theorem keyFamily_fine {k : String} (hk : k ∈ names cols) (rows : List ℕ) :
    Fine (fun _ => True) (keyFamily cols k rows) := by
  induction rows with
  | nil => trivial
  | cons row rows ih =>
    rw [keyFamily]
    refine (evalSortKey_col_fine hk row).bind fun key _ => ?_
    split
    · exact ih
    · trivial

theorem checkFamilies_fine {on : List String} (hleft : ∀ k ∈ on, k ∈ names left) (hright : ∀ k ∈ on, k ∈ names right) :
    Fine (fun _ => True) (checkFamilies left right on) := by
  induction on with
  | nil => trivial
  | cons k on ih =>
    have hrest := ih (fun k hk => hleft k (List.mem_cons_of_mem _ hk)) fun k hk => hright k (List.mem_cons_of_mem _ hk)
    rw [checkFamilies]
    refine (keyFamily_fine (hleft k List.mem_cons_self) _).bind fun lf _ => ?_
    refine (keyFamily_fine (hright k List.mem_cons_self) _).bind fun rf _ => ?_
    split
    · split_ifs
      · exact not_false
      · exact hrest
    · exact hrest

theorem keyTuple_fine {on : List String} (h : ∀ k ∈ on, k ∈ names cols) (row : ℕ) :
    Fine (fun _ => True) (keyTuple cols row on) := by
  induction on with
  | nil => trivial
  | cons k on ih =>
    rw [keyTuple]
    refine (evalSortKey_col_fine (h k List.mem_cons_self) row).bind fun key _ => ?_
    split
    · trivial
    · exact (ih fun k hk => h k (List.mem_cons_of_mem _ hk)).bind fun rest _ => trivial

theorem matchRight_fine {on : List String} (h : ∀ k ∈ on, k ∈ names right) (lk : List (SortKey F)) (rows : List ℕ) :
    Fine (fun _ => True) (matchRight right on lk rows) := by
  induction rows with
  | nil => trivial
  | cons row rows ih =>
    rw [matchRight]
    exact (keyTuple_fine h row).bind fun rk _ => ih.bind fun rest _ => trivial

theorem matchRows_fine {on : List String} (hleft : ∀ k ∈ on, k ∈ names left) (hright : ∀ k ∈ on, k ∈ names right)
    (rows : List ℕ) : Fine (fun _ => True) (matchRows left right on rows) := by
  induction rows with
  | nil => trivial
  | cons row rows ih =>
    rw [matchRows]
    refine (keyTuple_fine hleft row).bind fun lk _ => ?_
    cases lk with
    | none => exact ih.bind fun rest _ => trivial
    | some lk => exact (matchRight_fine hright lk _).bind fun found _ => ih.bind fun rest _ => trivial

theorem gatherCol_columns (cols : List (FrameCol F)) (rows : List ℕ) :
    Columns (names cols) rows.length (cols.map fun c => gatherCol c rows) := by
  refine columns_of_forall₂ (f := FrameCol.name) ?_
  rw [List.forall₂_map_right_iff, List.forall₂_same]
  intro c _
  exact ⟨rfl, List.length_map _⟩

theorem rightColumn_columns (right : List (FrameCol F)) (leftNames on : List String) (rows : List ℕ) :
    Columns (rightNames leftNames (names right) on) rows.length
      ((right.filter fun c => c.name ∉ on).map (rightColumn leftNames rows)) := by
  have hnames : rightNames leftNames (names right) on = (right.filter fun c => c.name ∉ on).map
      fun c => if c.name ∈ leftNames then c.name ++ "_right" else c.name := by
    rw [rightNames, names, List.filter_map, List.map_map]
    rfl
  rw [hnames]
  refine columns_of_forall₂ ?_
  rw [List.forall₂_map_right_iff, List.forall₂_same]
  intro c _
  rw [rightColumn]
  split
  · exact ⟨rfl, List.length_map _⟩
  · exact ⟨rfl, List.length_map _⟩

theorem evalJoin_fine {on : List String} (hleft : ∀ k ∈ on, k ∈ names left) (hright : ∀ k ∈ on, k ∈ names right) :
    Fine (fun out => ∃ h, Columns (names left ++ rightNames (names left) (names right) on) h out)
      (evalJoin left right on) := by
  rw [evalJoin]
  refine (checkFamilies_fine hleft hright).bind fun _ _ => ?_
  refine (matchRows_fine hleft hright _).bind fun rows _ => ?_
  refine ⟨rows.length, ?_⟩
  have hl := gatherCol_columns left (rows.map Prod.fst)
  have hr := rightColumn_columns right (names left) on (rows.map Prod.snd)
  rw [List.length_map] at hl hr
  exact hl.append hr

omit [F64 F] in
theorem names_putColumn (col : FrameCol F) (cols : List (FrameCol F)) :
    names (putColumn col cols) = pushCol col.name (names cols) := by
  induction cols with
  | nil => rfl
  | cons c cols ih =>
    rw [putColumn]
    by_cases hname : c.name = col.name
    · rw [if_pos hname, pushCol, if_pos (by simp [names, hname])]
      simp [names, hname]
    · rw [if_neg hname, names, List.map_cons, ← names, ih, pushCol, pushCol]
      have hmem : col.name ∈ names (c :: cols) ↔ col.name ∈ names cols := by
        simp only [names, List.map_cons, List.mem_cons]
        exact ⟨fun h => h.resolve_left (Ne.symm hname), Or.inr⟩
      simp only [hmem]
      split <;> rfl

omit [F64 F] in
theorem putColumn_columns {ns : List String} {h : ℕ} {col : FrameCol F} (hcols : Columns ns h cols)
    (hcol : col.valid.length = h) : Columns (pushCol col.name ns) h (putColumn col cols) := by
  refine ⟨by rw [names_putColumn, hcols.names], ?_⟩
  have hlength := hcols.length
  clear hcols
  induction cols with
  | nil => simpa [putColumn] using hcol
  | cons c cols ih =>
    obtain ⟨hc, hrest⟩ := List.forall_mem_cons.mp hlength
    rw [putColumn]
    split
    · exact List.forall_mem_cons.mpr ⟨hcol, hrest⟩
    · exact List.forall_mem_cons.mpr ⟨hc, ih hrest⟩

omit [F64 F] in
theorem foldl_putColumn {ns outs : List String} {h : ℕ} {computed : List (FrameCol F)} (hcols : Columns ns h cols)
    (hcomputed : Columns outs h computed) :
    Columns (outs.foldl (fun ns name => pushCol name ns) ns) h (computed.foldl (fun cols col => putColumn col cols) cols) := by
  obtain ⟨rfl, hlength⟩ := hcomputed
  induction computed generalizing ns cols with
  | nil => exact hcols
  | cons col computed ih =>
    obtain ⟨hcol, hrest⟩ := List.forall_mem_cons.mp hlength
    exact ih (putColumn_columns hcols hcol) hrest

/-- An entry of `with_columns` that is computed. -/
structure Computed (cols : List (FrameCol F)) (e : ExprNode F) : Prop where
  output : ∃ inner, withColumnsOutput e = .ok (outputName e, inner)
  known : Known cols e
  noAlias : ∀ name inner, withColumnsOutput e = .ok (name, inner) → ¬ inner.AliasRead

omit [F64 F] in
theorem reads_of_withColumnsOutput {e inner : ExprNode F} {name : String} (h : withColumnsOutput e = .ok (name, inner))
    {n : String} (hn : inner.Reads n) : e.Reads n := by
  unfold withColumnsOutput at h
  split at h
  · cases h
    exact hn
  · cases h
    exact hn
  · cases h

theorem computedColumn_fine {e : ExprNode F} (he : Computed cols e) :
    Fine (fun c => c.name = outputName e ∧ c.valid.length = colsHeight cols) (computedColumn cols e) := by
  obtain ⟨inner, hinner⟩ := he.output
  have hknown : Known cols inner := fun n hn =>
    he.known.reads (reads_of_withColumnsOutput hinner ((mem_exprCols n inner).mp hn))
  have hcells := yields_mapM (f := fun row => evalScalar cols row inner) (l := List.range (colsHeight cols))
    fun row _ => evalScalar_fine hknown (he.noAlias _ _ hinner) row
  rw [computedColumn, hinner]
  refine hcells.bind fun cells hlength => ⟨rfl, ?_⟩
  rw [buildFrameCol, List.length_map, ← hlength.length_eq, List.length_range]

omit [F64 F] in
/-- The height of columns of one length, unless there are none. -/
theorem columns_height {ns : List String} {h : ℕ} (hcols : Columns ns h cols) : Columns ns (colsHeight cols) cols := by
  cases cols with
  | nil => exact ⟨hcols.names, by simp⟩
  | cons c cols =>
    have hheight : colsHeight (c :: cols) = h := hcols.length c List.mem_cons_self
    rwa [hheight]

end

/-! What `fold_plan` checks of a step. -/

namespace FoldState

theorem checkVisible_ok {step : String} {visible cols : List String} (h : checkVisible step visible cols = .ok ()) :
    ∀ c ∈ cols, c ∈ visible := by
  induction cols with
  | nil => simp
  | cons c cols ih =>
    rw [checkVisible] at h
    split at h
    · next hc => exact List.forall_mem_cons.mpr ⟨hc, ih h⟩
    · cases h

theorem checkKeys_ok {left right on : List String} (h : checkKeys left right on = .ok ()) :
    (∀ k ∈ on, k ∈ left) ∧ ∀ k ∈ on, k ∈ right := by
  induction on with
  | nil => simp
  | cons k on ih =>
    rw [checkKeys] at h
    split_ifs at h with hl hr
    obtain ⟨hleft, hright⟩ := ih h
    exact ⟨List.forall_mem_cons.mpr ⟨hl, hleft⟩, List.forall_mem_cons.mpr ⟨hr, hright⟩⟩

@[simp] theorem need_visible (st : FoldState F) (cols : List String) : (st.need cols).visible = st.visible := by
  rw [need]
  split <;> rfl

@[simp] theorem need_projection (st : FoldState F) (cols : List String) :
    (st.need cols).projection = st.projection := by
  rw [need]
  split <;> rfl

/-- Two states with the same schema. -/
structure Same (st st' : FoldState F) : Prop where
  visible : st'.visible = st.visible
  projection : st'.projection = st.projection

theorem same_need (st : FoldState F) (cols : List String) : Same st (st.need cols) :=
  ⟨need_visible st cols, need_projection st cols⟩

theorem Same.trans {a b c : FoldState F} (h : Same a b) (h' : Same b c) : Same a c :=
  ⟨h'.visible.trans h.visible, h'.projection.trans h.projection⟩

theorem foldFilter_ok [F64 F] {st st' : FoldState F} {e : ExprNode F} (h : st.foldFilter e = .ok st') :
    Same st st' ∧ ∀ n ∈ exprCols e, n ∈ st.visible := by
  obtain ⟨⟨⟩, hcheck, h⟩ := Lib.ok_of_bind h
  refine ⟨?_, checkVisible_ok hcheck⟩
  simp only [] at h
  split at h
  · cases h
    exact same_need st _
  · cases h
    exact ⟨need_visible st _, need_projection st _⟩

theorem foldSortKeys_ok {keys : List (ExprNode F)} {st st' : FoldState F} (h : foldSortKeys keys st = .ok st') :
    Same st st' ∧ ∀ k ∈ keys, ∀ n ∈ exprCols k, n ∈ st.visible := by
  induction keys generalizing st with
  | nil =>
    cases h
    exact ⟨⟨rfl, rfl⟩, by simp⟩
  | cons k keys ih =>
    obtain ⟨⟨⟩, hcheck, h⟩ := Lib.ok_of_bind h
    obtain ⟨hsame, hkeys⟩ := ih h
    rw [need_visible] at hkeys
    exact ⟨(same_need st _).trans hsame, List.forall_mem_cons.mpr ⟨checkVisible_ok hcheck, hkeys⟩⟩

theorem foldSort_ok {st st' : FoldState F} {keys : List (ExprNode F)} (h : st.foldSort keys = .ok st') :
    Same st st' ∧ ∀ k ∈ keys, ∀ n ∈ exprCols k, n ∈ st.visible := by
  obtain ⟨mid, hkeys, h⟩ := Lib.ok_of_bind h
  cases h
  obtain ⟨hsame, hknown⟩ := foldSortKeys_ok hkeys
  exact ⟨⟨hsame.visible, hsame.projection⟩, hknown⟩

theorem foldGroupKeys_ok {keys : List (ExprNode F)} {st st' : FoldState F} {out out' : List String}
    (h : foldGroupKeys keys st out = .ok (st', out')) :
    Same st st' ∧ out' = out ++ keys.map outputName ∧
      ∀ k ∈ keys, groupKeyName k = .ok (outputName k) ∧ outputName k ∈ st.visible := by
  induction keys generalizing st out with
  | nil =>
    cases h
    exact ⟨⟨rfl, rfl⟩, by simp, by simp⟩
  | cons k keys ih =>
    obtain ⟨name, hname, h⟩ := Lib.ok_of_bind h
    obtain ⟨⟨⟩, hcheck, h⟩ := Lib.ok_of_bind h
    obtain rfl := (groupKeyName_eq hname).1
    obtain ⟨hsame, rfl, hkeys⟩ := ih h
    rw [need_visible] at hkeys
    refine ⟨(same_need st _).trans hsame, by simp, List.forall_mem_cons.mpr ⟨⟨hname, ?_⟩, hkeys⟩⟩
    exact checkVisible_ok hcheck _ List.mem_cons_self

theorem foldAggs_ok {aggs : List (ExprNode F)} {st st' : FoldState F} {out out' : List String}
    (h : foldAggs aggs st out = .ok (st', out')) :
    out' = out ++ aggs.map outputName ∧
      ∀ a ∈ aggs, aggOutputName a = .ok (outputName a) ∧ ∀ n ∈ exprCols a, n ∈ st.visible := by
  induction aggs generalizing st out with
  | nil =>
    cases h
    simp
  | cons a aggs ih =>
    obtain ⟨⟨⟩, hcheck, h⟩ := Lib.ok_of_bind h
    obtain ⟨name, hname, h⟩ := Lib.ok_of_bind h
    obtain rfl := (aggOutputName_eq hname).1
    obtain ⟨rfl, haggs⟩ := ih h
    rw [need_visible] at haggs
    exact ⟨by simp, List.forall_mem_cons.mpr ⟨⟨hname, checkVisible_ok hcheck⟩, haggs⟩⟩

theorem foldGroupBy_ok {st st' : FoldState F} {keys aggs : List (ExprNode F)} (h : st.foldGroupBy keys aggs = .ok st') :
    st'.visible = (keys ++ aggs).map outputName ∧ st'.projection = none ∧
      (∀ k ∈ keys, groupKeyName k = .ok (outputName k) ∧ outputName k ∈ st.visible) ∧
      ∀ a ∈ aggs, aggOutputName a = .ok (outputName a) ∧ ∀ n ∈ exprCols a, n ∈ st.visible := by
  obtain ⟨⟨mid, out⟩, hkeys, h⟩ := Lib.ok_of_bind h
  obtain ⟨⟨last, out'⟩, haggs, h⟩ := Lib.ok_of_bind h
  cases h
  obtain ⟨hsame, rfl, hk⟩ := foldGroupKeys_ok hkeys
  obtain ⟨rfl, ha⟩ := foldAggs_ok haggs
  rw [hsame.visible] at ha
  exact ⟨by simp, rfl, hk, ha⟩

theorem foldOutputs_ok {exprs : List (ExprNode F)} {st st' : FoldState F} {outs outs' : List String}
    (h : foldOutputs exprs st outs = .ok (st', outs')) :
    Same st st' ∧ outs' = outs ++ exprs.map outputName ∧ ∀ e ∈ exprs,
      (∃ inner, withColumnsOutput e = .ok (outputName e, inner)) ∧ ∀ n ∈ exprCols e, n ∈ st.visible := by
  induction exprs generalizing st outs with
  | nil =>
    cases h
    exact ⟨⟨rfl, rfl⟩, by simp, by simp⟩
  | cons e exprs ih =>
    obtain ⟨⟨name, inner⟩, hname, h⟩ := Lib.ok_of_bind h
    obtain ⟨⟨⟩, hcheck, h⟩ := Lib.ok_of_bind h
    obtain rfl := withColumnsOutput_eq hname
    split at h
    · cases h
    · obtain ⟨hsame, rfl, hexprs⟩ := ih h
      rw [need_visible] at hexprs
      exact ⟨(same_need st _).trans hsame, by simp,
        List.forall_mem_cons.mpr ⟨⟨⟨inner, hname⟩, checkVisible_ok hcheck⟩, hexprs⟩⟩

theorem foldWithColumns_ok [F64 F] {st st' : FoldState F} {exprs : List (ExprNode F)}
    (h : st.foldWithColumns exprs = .ok st') :
    st'.visible = exprs.foldl (fun ns e => pushCol (outputName e) ns) (st.projection.getD st.visible) ∧
      st'.projection = none ∧ ∀ e ∈ exprs,
      (∃ inner, withColumnsOutput e = .ok (outputName e, inner)) ∧ ∀ n ∈ exprCols e, n ∈ st.visible := by
  obtain ⟨⟨mid, outs⟩, houts, h⟩ := Lib.ok_of_bind h
  cases h
  obtain ⟨hsame, rfl, hexprs⟩ := foldOutputs_ok houts
  refine ⟨?_, ?_, hexprs⟩
  · rw [List.nil_append, List.foldl_map, flushNeeded, hsame.projection]
    cases hp : st.projection with
    | none => simp [hsame.visible]
    | some p => simp [flush, hsame.projection, hp]
  · simp only [flushNeeded]
    split
    · rfl
    · next hp => exact hp

theorem foldJoin_ok {st st' : FoldState F} {right : LazyPlan F} {rightSchema on : List String}
    (h : st.foldJoin right rightSchema on = .ok st') :
    st'.visible = joinSchema on rightSchema (st.projection.getD st.visible) ∧ st'.projection = none ∧
      (∀ k ∈ on, k ∈ st.visible) ∧ ∀ k ∈ on, k ∈ rightSchema := by
  obtain ⟨⟨⟩, hcheck, h⟩ := Lib.ok_of_bind h
  cases h
  refine ⟨?_, rfl, checkKeys_ok hcheck⟩
  simp only [flush]
  cases st.projection <;> rfl

end FoldState

/-! The names of the columns, step by step. -/

mutual

def opNames (before : List String) : PlanOp F → List String
  | .select cols => cols
  | .limit _ => before
  | .filter _ => before
  | .sort _ => before
  | .groupBy keys aggs => (keys ++ aggs).map outputName
  | .join right on => before ++ rightNames before (planNames right) on
  | .withColumns exprs => exprs.foldl (fun ns e => pushCol (outputName e) ns) before

def opsNames (before : List String) : List (PlanOp F) → List String
  | [] => before
  | op :: ops => opsNames (opNames before op) ops

def planNames : LazyPlan F → List String
  | .mk frame ops => opsNames (names frame.cols) ops

end

mutual

/-- No expression of the step comes to an alias, and a join is clear. -/
def opClear (before : List String) : PlanOp F → Prop
  | .select _ => True
  | .limit _ => True
  | .filter e => ¬ e.AliasTested
  | .sort keys => ∀ k ∈ keys, ¬ (stripDesc k).AliasRead
  | .groupBy keys aggs =>
    (∀ k ∈ keys, ¬ (stripDesc k).AliasRead) ∧ ∀ a ∈ aggs, ∀ op arg, aggregateOf a = some (op, arg) → ¬ arg.AliasRead
  | .join right on => planClear right ∧ JoinClear before (planNames right) on
  | .withColumns exprs => ∀ e ∈ exprs, ∀ name inner, withColumnsOutput e = .ok (name, inner) → ¬ inner.AliasRead

def opsClear (before : List String) : List (PlanOp F) → Prop
  | [] => True
  | op :: ops => opClear before op ∧ opsClear (opNames before op) ops

def planClear : LazyPlan F → Prop
  | .mk frame ops => opsClear (names frame.cols) ops

end

/-- The schema of the fold is that of the columns, with the projection that is pending. -/
structure Tracks (ns : List String) (fs : FoldState F) (es : EvalState F) : Prop where
  visible : fs.visible = ns
  projection : fs.projection = es.projection
  current : es.projection.getD (names es.cur) = ns
  subset : ∀ n ∈ ns, n ∈ names es.cur
  length : ∃ h, ∀ c ∈ es.cur, c.valid.length = h

section

variable [F64 F] {ns : List String} {fs fs' : FoldState F} {es : EvalState F}

omit [F64 F] in
theorem tracks_start {cols : List (FrameCol F)} {h : ℕ} (hcols : Columns ns h cols) (hvisible : fs.visible = ns)
    (hprojection : fs.projection = none) : Tracks ns fs (.start cols) where
  visible := hvisible
  projection := hprojection
  current := hcols.names
  subset n hn := by rwa [EvalState.start, hcols.names]
  length := ⟨h, hcols.length⟩

omit [F64 F] in
theorem Tracks.rows (ht : Tracks ns fs es) (hsame : fs.Same fs') (indices : List ℕ) (rowOps : Bool) :
    Tracks ns fs' { es with indices := indices, rowOps := rowOps } where
  visible := hsame.visible.trans ht.visible
  projection := hsame.projection.trans ht.projection
  current := ht.current
  subset := ht.subset
  length := ht.length

omit [F64 F] in
theorem Tracks.known (ht : Tracks ns fs es) {e : ExprNode F} (h : ∀ n ∈ exprCols e, n ∈ fs.visible) :
    Known es.cur e := by
  intro n hn
  have hvisible := h n hn
  rw [ht.visible] at hvisible
  exact ht.subset n hvisible

omit [F64 F] in
/-- A pending projection is the schema of the fold. -/
theorem Tracks.getD_projection (ht : Tracks ns fs es) : fs.projection.getD fs.visible = ns := by
  rw [ht.projection, ht.visible]
  cases hp : es.projection with
  | none => rfl
  | some p =>
    have hcurrent := ht.current
    rwa [hp] at hcurrent

theorem Tracks.materialize (ht : Tracks ns fs es) :
    Fine (fun cols => ∃ h, Columns ns h cols) es.materialize := by
  obtain ⟨h, hlength⟩ := ht.length
  have hnames : ∀ n ∈ es.projection.getD (names es.cur), n ∈ names es.cur := by
    rw [ht.current]
    exact ht.subset
  have hfine := materializeCols_fine es.indices true hnames hlength
  rw [ht.current] at hfine
  exact hfine.mono fun cols hcols => ⟨_, hcols⟩

omit [F64 F] in
theorem select_tracks {cols : List String} (h : fs.foldSelect cols = .ok fs') (ht : Tracks ns fs es) :
    Tracks cols fs' { es with projection := some cols } := by
  obtain ⟨⟨⟩, hcheck, h⟩ := Lib.ok_of_bind h
  cases h
  have hvisible := FoldState.checkVisible_ok hcheck
  rw [ht.visible] at hvisible
  exact ⟨rfl, rfl, rfl, fun n hn => ht.subset n (hvisible n hn), ht.length⟩

theorem filter_tracks {e : ExprNode F} (h : fs.foldFilter e = .ok fs') (hclear : ¬ e.AliasTested)
    (ht : Tracks ns fs es) : Fine (Tracks ns fs') (evalFilter es e) := by
  obtain ⟨hsame, hknown⟩ := FoldState.foldFilter_ok h
  have hrows : ∀ rows, Fine (fun _ => True) (filterRows (fun row => evalPred es.cur row e) rows) := by
    intro rows
    induction rows with
    | nil => trivial
    | cons row rows ih =>
      rw [filterRows]
      exact (evalPred_fine (ht.known hknown) hclear row).bind fun b _ => ih.bind fun kept _ => trivial
  rw [evalFilter]
  exact (hrows es.indices).bind fun kept _ => ht.rows hsame kept true

theorem sort_tracks {keys : List (ExprNode F)} (h : fs.foldSort keys = .ok fs')
    (hclear : ∀ k ∈ keys, ¬ (stripDesc k).AliasRead) (ht : Tracks ns fs es) :
    Fine (Tracks ns fs') (evalSort es keys) := by
  obtain ⟨hsame, hknown⟩ := FoldState.foldSort_ok h
  rw [evalSort]
  refine (yields_mapM (Q := fun _ _ => True) ?_).bind fun keyed _ => ht.rows hsame _ true
  intro row _
  have hkeys := yields_mapM (f := evalSortKey es.cur row) (l := keys) fun k hk =>
    evalSortKey_fine (ht.known (hknown k hk)) (hclear k hk) row
  exact hkeys.bind fun kvs _ => trivial

theorem groupBy_tracks {keys aggs : List (ExprNode F)} (h : fs.foldGroupBy keys aggs = .ok fs')
    (hkeys : ∀ k ∈ keys, ¬ (stripDesc k).AliasRead)
    (haggs : ∀ a ∈ aggs, ∀ op arg, aggregateOf a = some (op, arg) → ¬ arg.AliasRead) (ht : Tracks ns fs es) :
    Fine (Tracks ((keys ++ aggs).map outputName) fs')
      (evalGroupBy keys aggs es.cur es.indices >>= fun cur => .ok (.start cur)) := by
  obtain ⟨hvisible, hprojection, hk, ha⟩ := FoldState.foldGroupBy_ok h
  refine (evalGroupBy_fine ?_ ?_ es.indices).bind fun cur hcur => ?_
  · intro k hmem
    obtain ⟨hname, hout⟩ := hk k hmem
    refine ⟨hname, ht.known ?_, hkeys k hmem⟩
    -- a key without an alias is a column
    rcases (groupKeyName_eq hname).2 with hcol | halias
    · intro n hn
      rw [hcol] at hn
      obtain rfl : n = outputName k := (mem_exprCols n _).mp hn
      exact hout
    · have hstrip : stripDesc k = k := by
        cases k with
        | desc x => cases hname
        | _ => rfl
      have hno := hkeys k hmem
      rw [hstrip] at hno
      exact absurd halias hno
  · intro a hmem
    exact ⟨(ha a hmem).1, ht.known (ha a hmem).2, haggs a hmem⟩
  · obtain ⟨height, hcols⟩ := hcur
    exact tracks_start hcols hvisible hprojection

theorem withColumns_tracks {exprs : List (ExprNode F)} (h : fs.foldWithColumns exprs = .ok fs')
    (hclear : ∀ e ∈ exprs, ∀ name inner, withColumnsOutput e = .ok (name, inner) → ¬ inner.AliasRead)
    (ht : Tracks ns fs es) :
    Fine (Tracks (exprs.foldl (fun ns e => pushCol (outputName e) ns) ns) fs') (evalWithColumns es exprs) := by
  obtain ⟨hvisible, hprojection, hexprs⟩ := FoldState.foldWithColumns_ok h
  rw [ht.getD_projection] at hvisible
  rw [evalWithColumns]
  refine ht.materialize.bind fun cur hcur => ?_
  obtain ⟨height, hcur⟩ := hcur
  have hcomputed : Fine (Columns (exprs.map outputName) (colsHeight cur)) (exprs.mapM (computedColumn cur)) := by
    refine (yields_mapM ?_).mono fun out => columns_of_forall₂
    intro e he
    refine computedColumn_fine ⟨(hexprs e he).1, ?_, hclear e he⟩
    intro n hn
    have hmem := (hexprs e he).2 n hn
    rw [ht.visible] at hmem
    rwa [hcur.names]
  refine hcomputed.bind fun computed hc => ?_
  have hput := foldl_putColumn (columns_height hcur) hc
  rw [List.foldl_map] at hput
  exact ⟨hvisible, hprojection, hput.names, fun n hn => by rwa [hput.names], ⟨_, hput.length⟩⟩

/-- A pending projection is what is visible. -/
structure Schema (ns : List String) (fs : FoldState F) : Prop where
  visible : fs.visible = ns
  projection : fs.projection.getD fs.visible = ns

omit [F64 F] in
theorem Schema.same (hs : Schema ns fs) (hsame : fs.Same fs') : Schema ns fs' where
  visible := hsame.visible.trans hs.visible
  projection := by rw [hsame.projection, hsame.visible, hs.projection]

omit [F64 F] in
theorem schema_of_none (hvisible : fs.visible = ns) (hprojection : fs.projection = none) : Schema ns fs where
  visible := hvisible
  projection := by rw [hprojection, hvisible, Option.getD_none]

mutual

theorem op_schema {ns : List String} {fs fs' : FoldState F} (op : PlanOp F) (h : foldOp fs op = .ok fs')
    (hclear : opClear ns op) (hs : Schema ns fs) : Schema (opNames ns op) fs' := by
  cases op with
  | select cols =>
    obtain ⟨-, -, h⟩ := Lib.ok_of_bind h
    cases h
    exact ⟨rfl, rfl⟩
  | limit n =>
    cases h
    exact hs.same ⟨rfl, rfl⟩
  | filter e => exact hs.same (FoldState.foldFilter_ok h).1
  | sort keys => exact hs.same (FoldState.foldSort_ok h).1
  | groupBy keys aggs =>
    obtain ⟨hvisible, hprojection, -⟩ := FoldState.foldGroupBy_ok h
    exact schema_of_none hvisible hprojection
  | withColumns exprs =>
    obtain ⟨hvisible, hprojection, -⟩ := FoldState.foldWithColumns_ok h
    rw [hs.projection] at hvisible
    exact schema_of_none hvisible hprojection
  | join right on =>
    obtain ⟨rightPlan, hright, h⟩ := Lib.ok_of_bind h
    obtain ⟨hvisible, hprojection, -⟩ := FoldState.foldJoin_ok h
    rw [hs.projection, plan_schema right hright hclear.1, (FoldState.joinSchema_iff _ _ _).mpr hclear.2] at hvisible
    exact schema_of_none hvisible hprojection

theorem ops_schema {ns : List String} {fs fs' : FoldState F} (ops : List (PlanOp F)) (h : foldOps fs ops = .ok fs')
    (hclear : opsClear ns ops) (hs : Schema ns fs) : Schema (opsNames ns ops) fs' := by
  cases ops with
  | nil =>
    cases h
    exact hs
  | cons op ops =>
    obtain ⟨mid, hop, h⟩ := Lib.ok_of_bind h
    exact ops_schema ops h hclear.2 (op_schema op hop hclear.1 hs)

theorem plan_schema {opt : OptimizedPlan F} (plan : LazyPlan F) (h : foldPlan plan = .ok opt) (hclear : planClear plan) :
    opt.finalSchema = planNames plan := by
  cases plan with
  | mk frame ops =>
    obtain ⟨fs, hops, h⟩ := Lib.ok_of_bind h
    cases h
    exact (ops_schema ops hops hclear ⟨rfl, rfl⟩).projection

end

mutual

theorem op_tracks {ns : List String} {fs fs' : FoldState F} {es : EvalState F} (op : PlanOp F)
    (h : foldOp fs op = .ok fs') (hclear : opClear ns op) (ht : Tracks ns fs es) :
    Fine (Tracks (opNames ns op) fs') (evalOp es op) := by
  cases op with
  | select cols => exact select_tracks h ht
  | limit n =>
    cases h
    have hsame : fs.Same (fs.foldLimit n) := ⟨rfl, rfl⟩
    exact ht.rows hsame (es.indices.take (max n 0).toNat) true
  | filter e => exact filter_tracks h hclear ht
  | sort keys => exact sort_tracks h hclear ht
  | groupBy keys aggs => exact groupBy_tracks h hclear.1 hclear.2 ht
  | withColumns exprs => exact withColumns_tracks h hclear ht
  | join right on =>
    obtain ⟨rightPlan, hright, h⟩ := Lib.ok_of_bind h
    have hschema := plan_schema right hright hclear.1
    obtain ⟨hvisible, hprojection, hon, honRight⟩ := FoldState.foldJoin_ok h
    rw [ht.getD_projection, hschema, (FoldState.joinSchema_iff _ _ _).mpr hclear.2] at hvisible
    rw [hschema] at honRight
    rw [ht.visible] at hon
    rw [evalOp]
    refine ht.materialize.bind fun left hleft => ?_
    refine (plan_fine right hright hclear.1).bind fun rightCols hcols => ?_
    obtain ⟨_, hleft⟩ := hleft
    obtain ⟨_, hcols⟩ := hcols
    rw [← hleft.names] at hon
    rw [← hcols.names] at honRight
    have hjoin := evalJoin_fine hon honRight
    rw [hleft.names, hcols.names] at hjoin
    refine hjoin.bind fun cur hcur => ?_
    obtain ⟨height, hcur⟩ := hcur
    exact tracks_start hcur hvisible hprojection

theorem ops_tracks {ns : List String} {fs fs' : FoldState F} {es : EvalState F} (ops : List (PlanOp F))
    (h : foldOps fs ops = .ok fs') (hclear : opsClear ns ops) (ht : Tracks ns fs es) :
    Fine (Tracks (opsNames ns ops) fs') (evalSteps es ops) := by
  cases ops with
  | nil =>
    cases h
    exact ht
  | cons op ops =>
    obtain ⟨mid, hop, h⟩ := Lib.ok_of_bind h
    rw [evalSteps]
    exact (op_tracks op hop hclear.1 ht).bind fun es' ht' => ops_tracks ops h hclear.2 ht'

theorem plan_fine {opt : OptimizedPlan F} (plan : LazyPlan F) (h : foldPlan plan = .ok opt) (hclear : planClear plan) :
    Fine (fun out => ∃ h, Columns (planNames plan) h out) (evalPlan plan) := by
  cases plan with
  | mk frame ops =>
    obtain ⟨fs, hops, -⟩ := Lib.ok_of_bind h
    have hstart : Tracks (names frame.cols) { visible := names frame.cols } (.start frame.cols) :=
      tracks_start ⟨rfl, frame.height⟩ rfl rfl
    rw [evalPlan]
    refine (ops_tracks ops hops hclear hstart).bind fun es ht => ?_
    obtain ⟨height, hlength⟩ := ht.length
    have hnames : ∀ n ∈ es.projection.getD (names es.cur), n ∈ names es.cur := by
      rw [ht.current]
      exact ht.subset
    have hout := materializeCols_fine es.indices es.rowOps hnames hlength
    rw [ht.current] at hout
    exact hout.mono fun out hcols => ⟨_, hcols⟩

end

theorem accepted_plan_sound {plan : LazyPlan F} {opt : OptimizedPlan F} (h : foldPlan plan = .ok opt)
    (hclear : planClear plan) :
    (∀ err, evalPlan plan = .error err → ¬ err.FromSchema) ∧
      ∀ out, evalPlan plan = .ok out → names out = opt.finalSchema ∧
        (∃ height, ∀ c ∈ out, c.valid.length = height) ∧ (opt.finalSchema.Nodup → (names out).Nodup) := by
  have hfine := plan_fine plan h hclear
  have hschema := plan_schema plan h hclear
  refine ⟨?_, ?_⟩
  · intro err herr
    rw [herr] at hfine
    exact hfine
  · intro out hout
    obtain ⟨height, hcols⟩ := hfine.of_ok hout
    rw [hcols.names, hschema]
    exact ⟨rfl, ⟨height, hcols.length⟩, id⟩

theorem foldOps_append (fs : FoldState F) (ops ops' : List (PlanOp F)) :
    foldOps fs (ops ++ ops') = foldOps fs ops >>= fun fs => foldOps fs ops' := by
  induction ops generalizing fs with
  | nil => rfl
  | cons op ops ih =>
    rw [List.cons_append, foldOps, foldOps, bind_assoc]
    exact bind_congr ih

theorem evalSteps_append (es : EvalState F) (ops ops' : List (PlanOp F)) :
    evalSteps es (ops ++ ops') = evalSteps es ops >>= fun es => evalSteps es ops' := by
  induction ops generalizing es with
  | nil => rfl
  | cons op ops ih =>
    rw [List.cons_append, evalSteps, evalSteps, bind_assoc]
    exact bind_congr ih

/-- Of a join after clear steps. -/
theorem join_names_iff {frame : Frame F} {ops : List (PlanOp F)} {right : LazyPlan F} {on : List String}
    {opt : OptimizedPlan F} {out : List (FrameCol F)} (h : foldPlan (.mk frame (ops ++ [.join right on])) = .ok opt)
    (hops : opsClear (names frame.cols) ops) (hright : planClear right)
    (hout : evalPlan (.mk frame (ops ++ [.join right on])) = .ok out) :
    names out = opt.finalSchema ↔ JoinClear (opsNames (names frame.cols) ops) (planNames right) on := by
  have hstart : Tracks (names frame.cols) { visible := names frame.cols } (.start frame.cols) :=
    tracks_start ⟨rfl, frame.height⟩ rfl rfl
  obtain ⟨last, hfold, h⟩ := Lib.ok_of_bind h
  cases h
  rw [foldOps_append] at hfold
  obtain ⟨fs, hfs, hfold⟩ := Lib.ok_of_bind hfold
  obtain ⟨last', hjoin, hfold⟩ := Lib.ok_of_bind hfold
  cases hfold
  obtain ⟨rightPlan, hrightPlan, hjoin⟩ := Lib.ok_of_bind hjoin
  obtain ⟨hvisible, hprojection, hon, honRight⟩ := FoldState.foldJoin_ok hjoin
  rw [evalPlan, evalSteps_append] at hout
  obtain ⟨_, hsteps, hout⟩ := Lib.ok_of_bind hout
  obtain ⟨es, hes, hsteps⟩ := Lib.ok_of_bind hsteps
  obtain ⟨es', hop, hsteps⟩ := Lib.ok_of_bind hsteps
  cases hsteps
  obtain ⟨left, hleft, hop⟩ := Lib.ok_of_bind hop
  obtain ⟨rightCols, hcols, hop⟩ := Lib.ok_of_bind hop
  obtain ⟨cur, hcur, hop⟩ := Lib.ok_of_bind hop
  cases hop
  have ht := (ops_tracks ops hfs hops hstart).of_ok hes
  obtain ⟨_, hl⟩ := ht.materialize.of_ok hleft
  obtain ⟨_, hr⟩ := (plan_fine right hrightPlan hright).of_ok hcols
  rw [ht.getD_projection, plan_schema right hrightPlan hright] at hvisible
  rw [plan_schema right hrightPlan hright, ← hr.names] at honRight
  rw [ht.visible, ← hl.names] at hon
  obtain ⟨_, hc⟩ := (evalJoin_fine hon honRight).of_ok hcur
  have hnames : ∀ n ∈ (none : Option (List String)).getD (names cur), n ∈ names cur := fun _ => id
  obtain ⟨hmaterialized, -⟩ := (materializeCols_fine _ _ hnames hc.length).of_ok hout
  rw [hmaterialized, FoldState.finish, hprojection, hvisible, Option.getD_none, Option.getD_none, hc.names, hl.names,
    hr.names, eq_comm]
  exact FoldState.joinSchema_iff _ _ _

end

/-! A frame of one row, for plans over it. -/

def column (name : String) (v : Int64) : FrameCol Float := ⟨name, .i64 [v], [true], 1, 8, rfl⟩

def keyAndValue : Frame Float := ⟨[column "k" 1, column "x" 2], by simp [column, colsHeight]⟩

/-- The right side has what the suffix makes of a name of the left one. -/
def keyValueAndSuffixed : Frame Float :=
  ⟨[column "k" 1, column "x" 3, column "x_right" 4], by simp [column, colsHeight]⟩

def filterAndCount : LazyPlan Float :=
  .mk keyAndValue [.filter (.cmp .gt (.col "x") (.litInt 1)), .groupBy [.col "k"] [.agg .count (.col "x")]]

theorem filterAndCount_sound : ∃ out, evalPlan filterAndCount = .ok out ∧ names out = ["k", "x_count"] := by
  obtain ⟨opt, hopt, hschema⟩ : ∃ opt, foldPlan filterAndCount = .ok opt ∧ opt.finalSchema = ["k", "x_count"] :=
    ⟨_, rfl, by decide⟩
  have hclear : planClear filterAndCount := by
    simp [filterAndCount, planClear, opsClear, opClear, ExprNode.AliasTested, ExprNode.AliasRead, stripDesc, aggregateOf]
  obtain ⟨out, hout⟩ : ∃ out, evalPlan filterAndCount = .ok out := ⟨_, rfl⟩
  refine ⟨out, hout, ?_⟩
  rw [((accepted_plan_sound hopt hclear).2 out hout).1, hschema]

def groupByAlias : LazyPlan Float :=
  .mk keyAndValue [.groupBy [.aliased "x" (.col "k")] [.agg .count (.col "x")]]

def joinSuffixed : LazyPlan Float := .mk keyAndValue [.join (.mk keyValueAndSuffixed []) ["k"]]

theorem accepted_plans_fail :
    (∃ opt, foldPlan groupByAlias = .ok opt) ∧ evalPlan groupByAlias = .error .misplacedAlias ∧
      (∃ opt, foldPlan joinSuffixed = .ok opt ∧ opt.finalSchema = ["k", "x", "x_right", "x_right_right"]) ∧
      ∃ out, evalPlan joinSuffixed = .ok out ∧ names out = ["k", "x", "x_right", "x_right"] := by
  refine ⟨⟨_, rfl⟩, rfl, ⟨_, rfl, ?_⟩, _, rfl, ?_⟩
  · decide
  · decide

end Karac.Runtime.Lazy
