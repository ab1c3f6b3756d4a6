import Karac.Lib.Computations
import Karac.Runtime.LazyEval

/-! The schema that `fold_plan` tracks is that of the columns that come out, where no alias is read and no column of the
right side of a join has the name of an output column that is none of the left side. -/

namespace Karac.Runtime.Lazy

open Lib (Yields yields_mapM)

/-- The errors that an accepted plan must not end with. -/
def LazyError.FromSchema : LazyError → Prop
  | .noSuchColumn _ _ => True
  | .misplacedAlias => True
  | _ => False

def LazyError.Other (err : LazyError) : Prop := ¬ err.FromSchema

/-- The evaluation ends with an error of another kind, or with a value that `Q` has. -/
abbrev Fine {α : Type} (Q : α → Prop) (x : Except LazyError α) : Prop := Yields LazyError.Other Q x

variable {F : Type}

/-! Expressions. -/

namespace ExprNode

/-- The expression has the column somewhere. -/
def Reads (n : String) : ExprNode F → Prop
  | .col m => n = m
  | .cmp _ l r => l.Reads n ∨ r.Reads n
  | .arith _ l r => l.Reads n ∨ r.Reads n
  | .and a b => a.Reads n ∨ b.Reads n
  | .or a b => a.Reads n ∨ b.Reads n
  | .not x => x.Reads n
  | .desc x => x.Reads n
  | .agg _ x => x.Reads n
  | .aliased _ x => x.Reads n
  | _ => False

mutual

/-- The evaluation of a scalar can come to an alias. -/
def AliasRead : ExprNode F → Prop
  | .aliased _ _ => True
  | .arith _ l r => l.AliasRead ∨ r.AliasRead
  | .cmp _ l r => l.AliasRead ∨ r.AliasRead
  | .and a b => a.AliasTested ∨ b.AliasTested
  | .or a b => a.AliasTested ∨ b.AliasTested
  | .not x => x.AliasTested
  | _ => False

/-- The evaluation of a predicate can come to an alias. -/
def AliasTested : ExprNode F → Prop
  | .cmp _ l r => l.AliasRead ∨ r.AliasRead
  | .and a b => a.AliasTested ∨ b.AliasTested
  | .or a b => a.AliasTested ∨ b.AliasTested
  | .not x => x.AliasTested
  | _ => False

end

end ExprNode

theorem mem_pushCol (n c : String) (out : List String) : n ∈ pushCol c out ↔ n ∈ out ∨ n = c := by
  rw [pushCol]
  split
  · next hc =>
    constructor
    · exact Or.inl
    · rintro (hn | rfl)
      · exact hn
      · exact hc
  · simp

theorem mem_exprColsInto (n : String) (e : ExprNode F) (out : List String) :
    n ∈ exprColsInto e out ↔ n ∈ out ∨ e.Reads n := by
  induction e generalizing out with
  | col m => exact mem_pushCol n m out
  | cmp op l r ihl ihr => rw [exprColsInto, ihr, ihl, ExprNode.Reads, or_assoc]
  | arith op l r ihl ihr => rw [exprColsInto, ihr, ihl, ExprNode.Reads, or_assoc]
  | and a b iha ihb => rw [exprColsInto, ihb, iha, ExprNode.Reads, or_assoc]
  | or a b iha ihb => rw [exprColsInto, ihb, iha, ExprNode.Reads, or_assoc]
  | not x ih => exact ih out
  | desc x ih => exact ih out
  | agg op x ih => exact ih out
  | aliased name x ih => exact ih out
  | _ => simp [exprColsInto, ExprNode.Reads]

theorem mem_exprCols (n : String) (e : ExprNode F) : n ∈ exprCols e ↔ e.Reads n := by
  rw [exprCols, mem_exprColsInto]
  simp

variable [F64 F] {cols : List (FrameCol F)}

omit [F64 F] in
theorem readColumn_of_mem {n : String} (h : n ∈ names cols) (row : ℕ) :
    ∃ cell, readColumn cols row n = .ok cell := by
  obtain ⟨c, hc, rfl⟩ := List.mem_map.mp h
  rw [readColumn]
  cases hfind : cols.find? fun c' => c'.name = c.name with
  | none =>
    rw [List.find?_eq_none] at hfind
    exact absurd (decide_eq_true rfl) (hfind c hc)
  | some c' => exact ⟨_, rfl⟩

theorem arithScalars_fine (op : ArithOp) (a b : Scalar F) : Fine (fun _ => True) (arithScalars op a b) := by
  unfold arithScalars
  split
  · split_ifs
    · exact not_false
    · split
      · trivial
      · exact not_false
  all_goals first | trivial | exact not_false

theorem arithCells_fine (op : ArithOp) (a b : Option (Scalar F)) : Fine (fun _ => True) (arithCells op a b) := by
  cases a with
  | none => trivial
  | some a =>
    cases b with
    | none => trivial
    | some b =>
      rw [arithCells]
      have h := arithScalars_fine op a b
      cases hx : arithScalars op a b with
      | ok v => trivial
      | error err => rwa [hx] at h

theorem compareScalars_fine (op : CmpOp) (a b : Scalar F) : Fine (fun _ => True) (compareScalars op a b) := by
  unfold compareScalars
  split
  all_goals first | trivial | exact not_false | skip
  split_ifs
  · trivial
  · exact not_false

theorem compareCells_fine (op : CmpOp) (a b : Option (Scalar F)) : Fine (fun _ => True) (compareCells op a b) := by
  cases a with
  | none => trivial
  | some a =>
    cases b with
    | none => trivial
    | some b =>
      rw [compareCells]
      have h := compareScalars_fine op a b
      cases hx : compareScalars op a b with
      | ok v => trivial
      | error err => rwa [hx] at h

omit [F64 F] in
theorem predicateCell_fine (cell : Option (Scalar F)) : Fine (fun _ => True) (predicateCell cell) := by
  unfold predicateCell
  split
  all_goals first | trivial | exact not_false

/-- A predicate gives a scalar. -/
theorem fine_of_isTest {row : ℕ} {e : ExprNode F} (he : e.IsTest = true)
    (h : Fine (fun _ => True) (evalPred cols row e)) : Fine (fun _ => True) (evalScalar cols row e) := by
  rw [evalScalar_of_isTest cols row he]
  exact h.map fun _ _ => trivial

/-- A scalar and a predicate whose columns are there and that come to no alias. -/
theorem eval_fine (row : ℕ) (e : ExprNode F) (hcols : ∀ n, e.Reads n → n ∈ names cols) :
    (¬ e.AliasRead → Fine (fun _ => True) (evalScalar cols row e)) ∧
      (¬ e.AliasTested → Fine (fun _ => True) (evalPred cols row e)) := by
  induction e with
  | col n =>
    obtain ⟨cell, hcell⟩ := readColumn_of_mem (hcols n rfl) row
    refine ⟨fun _ => ?_, fun _ => ?_⟩
    · rw [evalScalar, hcell]
      trivial
    · rw [evalPred, hcell]
      exact predicateCell_fine cell
  | cmp op l r ihl ihr =>
    have hpred : ¬ (l.AliasRead ∨ r.AliasRead) → Fine (fun _ => True) (evalPred cols row (.cmp op l r)) := by
      intro h
      rw [not_or] at h
      rw [evalPred]
      exact ((ihl fun n hn => hcols n (.inl hn)).1 h.1).bind fun a _ =>
        ((ihr fun n hn => hcols n (.inr hn)).1 h.2).bind fun b _ => compareCells_fine op a b
    exact ⟨fun h => fine_of_isTest rfl (hpred h), hpred⟩
  | and a b iha ihb =>
    have hpred : ¬ (a.AliasTested ∨ b.AliasTested) → Fine (fun _ => True) (evalPred cols row (.and a b)) := by
      intro h
      rw [not_or] at h
      rw [evalPred]
      refine ((iha fun n hn => hcols n (.inl hn)).2 h.1).bind fun x _ => ?_
      split
      · exact (ihb fun n hn => hcols n (.inr hn)).2 h.2
      · trivial
    exact ⟨fun h => fine_of_isTest rfl (hpred h), hpred⟩
  | or a b iha ihb =>
    have hpred : ¬ (a.AliasTested ∨ b.AliasTested) → Fine (fun _ => True) (evalPred cols row (.or a b)) := by
      intro h
      rw [not_or] at h
      rw [evalPred]
      refine ((iha fun n hn => hcols n (.inl hn)).2 h.1).bind fun x _ => ?_
      split
      · trivial
      · exact (ihb fun n hn => hcols n (.inr hn)).2 h.2
    exact ⟨fun h => fine_of_isTest rfl (hpred h), hpred⟩
  | not x ih =>
    have hpred : ¬ x.AliasTested → Fine (fun _ => True) (evalPred cols row (.not x)) := by
      intro h
      rw [evalPred]
      exact ((ih hcols).2 h).bind fun v _ => trivial
    exact ⟨fun h => fine_of_isTest rfl (hpred h), hpred⟩
  | arith op l r ihl ihr =>
    refine ⟨fun h => ?_, fun _ => not_false⟩
    rw [ExprNode.AliasRead, not_or] at h
    rw [evalScalar]
    exact ((ihl fun n hn => hcols n (.inl hn)).1 h.1).bind fun a _ =>
      ((ihr fun n hn => hcols n (.inr hn)).1 h.2).bind fun b _ => arithCells_fine op a b
  | desc x ih => exact ⟨fun _ => not_false, fun _ => not_false⟩
  | agg op x ih => exact ⟨fun _ => not_false, fun _ => not_false⟩
  | aliased name x ih => exact ⟨fun h => absurd trivial h, fun _ => not_false⟩
  | litBool b => exact ⟨fun _ => trivial, fun _ => trivial⟩
  | _ => exact ⟨fun _ => trivial, fun _ => not_false⟩

/-- The columns that an expression has are there. -/
def Known (cols : List (FrameCol F)) (e : ExprNode F) : Prop := ∀ n ∈ exprCols e, n ∈ names cols

omit [F64 F] in
theorem Known.reads {e : ExprNode F} (h : Known cols e) {n : String} (hn : e.Reads n) : n ∈ names cols :=
  h n ((mem_exprCols n e).mpr hn)

theorem evalScalar_fine {e : ExprNode F} (hknown : Known cols e) (halias : ¬ e.AliasRead) (row : ℕ) :
    Fine (fun _ => True) (evalScalar cols row e) :=
  (eval_fine row e fun _ hn => hknown.reads hn).1 halias

theorem evalPred_fine {e : ExprNode F} (hknown : Known cols e) (halias : ¬ e.AliasTested) (row : ℕ) :
    Fine (fun _ => True) (evalPred cols row e) :=
  (eval_fine row e fun _ hn => hknown.reads hn).2 halias

theorem evalSortKey_fine {key : ExprNode F} (hknown : Known cols key) (halias : ¬ (stripDesc key).AliasRead) (row : ℕ) :
    Fine (fun _ => True) (evalSortKey cols row key) := by
  have hstrip : Known cols (stripDesc key) := by
    cases key with
    | desc x => exact hknown
    | _ => exact hknown
  rw [evalSortKey]
  exact (evalScalar_fine hstrip halias row).bind fun _ _ => trivial

theorem evalSortKey_col_fine {n : String} (hn : n ∈ names cols) (row : ℕ) :
    Fine (fun _ => True) (evalSortKey cols row (.col n)) := by
  have halias : ¬ (stripDesc (.col n : ExprNode F)).AliasRead := id
  refine evalSortKey_fine ?_ halias row
  intro m hm
  obtain rfl : m = n := (mem_exprCols m _).mp hm
  exact hn

/-! The columns that a step makes. -/

/-- The names of the columns, and the length of all of them. -/
structure Columns (ns : List String) (h : ℕ) (cols : List (FrameCol F)) : Prop where
  names : names cols = ns
  length : ∀ c ∈ cols, c.valid.length = h

omit [F64 F] in
theorem columns_of_forall₂ {α : Type} {f : α → String} {h : ℕ} {l : List α}
    (hcols : List.Forall₂ (fun a (c : FrameCol F) => c.name = f a ∧ c.valid.length = h) l cols) :
    Columns (l.map f) h cols := by
  induction hcols with
  | nil => exact ⟨rfl, by simp⟩
  | cons hc _ ih =>
    refine ⟨?_, List.forall_mem_cons.mpr ⟨hc.2, ih.length⟩⟩
    rw [Lazy.names, List.map_cons, List.map_cons, hc.1]
    exact congrArg _ ih.names

omit [F64 F] in
theorem Columns.append {ns ms : List String} {h : ℕ} {cs ds : List (FrameCol F)} (hc : Columns ns h cs)
    (hd : Columns ms h ds) : Columns (ns ++ ms) h (cs ++ ds) := by
  refine ⟨?_, List.forall_mem_append.mpr ⟨hc.length, hd.length⟩⟩
  rw [Lazy.names, List.map_append]
  exact congrArg₂ _ hc.names hd.names

theorem materializeCols_fine (indices : List ℕ) (rowOps : Bool) {projection : Option (List String)} {h : ℕ}
    (hnames : ∀ n ∈ projection.getD (names cols), n ∈ names cols) (hlength : ∀ c ∈ cols, c.valid.length = h) :
    Fine (Columns (projection.getD (names cols)) (if rowOps then indices.length else h))
      (materializeCols cols indices projection rowOps) := by
  rw [materializeCols]
  refine (yields_mapM (Q := fun n (c : FrameCol F) => c.name = n ∧
    c.valid.length = if rowOps then indices.length else h) ?_).mono ?_
  · intro n hn
    cases hfind : cols.find? fun c => c.name = n with
    | none =>
      obtain ⟨c, hc, hname⟩ := List.mem_map.mp (hnames n hn)
      rw [List.find?_eq_none] at hfind
      exact absurd (decide_eq_true hname) (hfind c hc)
    | some c =>
      have hname : c.name = n := by simpa using List.find?_some hfind
      cases rowOps with
      | true => exact ⟨hname, List.length_map _⟩
      | false => exact ⟨hname, hlength c (List.mem_of_find?_eq_some hfind)⟩
  · intro out hout
    simpa using columns_of_forall₂ (f := id) hout

theorem groupRows_fine {keys : List (ExprNode F)}
    (hkeys : ∀ k ∈ keys, Known cols k ∧ ¬ (stripDesc k).AliasRead) (rows : List ℕ) (groups : Groups F) :
    Fine (fun _ => True) (groupRows keys cols rows groups) := by
  induction rows generalizing groups with
  | nil => trivial
  | cons row rows ih =>
    rw [groupRows]
    have hkt := yields_mapM (f := evalSortKey cols row) (l := keys) fun k hk =>
      evalSortKey_fine (hkeys k hk).1 (hkeys k hk).2 row
    exact hkt.bind fun kt _ => ih _

theorem aggregate_fine (op : AggOp) (vals : List (Scalar F)) : Fine (fun _ => True) (aggregate op vals) := by
  unfold aggregate aggregateStrings
  split_ifs
  · trivial
  · exact not_false
  · cases op <;> first | trivial | exact not_false
  · trivial

theorem evalAgg_fine {arg : ExprNode F} (op : AggOp) (hknown : Known cols arg) (halias : ¬ arg.AliasRead)
    (rows : List ℕ) : Fine (fun _ => True) (evalAgg op arg cols rows) := by
  rw [evalAgg]
  have hcells := yields_mapM (f := fun row => evalScalar cols row arg) (l := rows) fun row _ =>
    evalScalar_fine hknown halias row
  exact hcells.bind fun cells _ => aggregate_fine op _

/-- The output name of a key, an aggregate or a computed column. -/
def outputName : ExprNode F → String
  | .col n => n
  | .aliased name _ => name
  | .agg op (.col c) => c ++ "_" ++ op.name
  | _ => ""

omit [F64 F] in
theorem groupKeyName_eq {k : ExprNode F} {name : String} (h : groupKeyName k = .ok name) :
    name = outputName k ∧ (k = .col name ∨ k.AliasRead) := by
  unfold groupKeyName at h
  split at h
  · cases h
    exact ⟨rfl, .inl rfl⟩
  · cases h
    exact ⟨rfl, .inr trivial⟩
  · cases h

omit [F64 F] in
theorem aggOutputName_eq {a : ExprNode F} {name : String} (h : aggOutputName a = .ok name) :
    name = outputName a ∧ ∃ op arg, aggregateOf a = some (op, arg) := by
  unfold aggOutputName at h
  split at h
  · cases h
    exact ⟨rfl, _, _, rfl⟩
  · cases h
  · cases h
    exact ⟨rfl, _, _, rfl⟩
  · cases h
  · cases h

omit [F64 F] in
theorem reads_of_aggregateOf {a arg : ExprNode F} {op : AggOp} (h : aggregateOf a = some (op, arg)) {n : String}
    (hn : arg.Reads n) : a.Reads n := by
  unfold aggregateOf at h
  split at h
  · cases h
    exact hn
  · cases h
    exact hn
  · cases h

omit [F64 F] in
theorem withColumnsOutput_eq {e inner : ExprNode F} {name : String} (h : withColumnsOutput e = .ok (name, inner)) :
    name = outputName e := by
  unfold withColumnsOutput at h
  split at h
  · cases h
    rfl
  · cases h
    rfl
  · cases h

omit [F64 F] in
theorem withDtypeOf_column (cols : List (FrameCol F)) (source : Option String) (c : FrameCol F) :
    (withDtypeOf cols source c).name = c.name ∧ (withDtypeOf cols source c).valid = c.valid := by
  unfold withDtypeOf
  split <;> exact ⟨rfl, rfl⟩

/-- A key that is grouped by. -/
structure GroupKey (cols : List (FrameCol F)) (k : ExprNode F) : Prop where
  name : groupKeyName k = .ok (outputName k)
  known : Known cols k
  noAlias : ¬ (stripDesc k).AliasRead

structure Aggregate (cols : List (FrameCol F)) (a : ExprNode F) : Prop where
  name : aggOutputName a = .ok (outputName a)
  known : Known cols a
  noAlias : ∀ op arg, aggregateOf a = some (op, arg) → ¬ arg.AliasRead

theorem evalGroupBy_fine {keys aggs : List (ExprNode F)} (hkeys : ∀ k ∈ keys, GroupKey cols k)
    (haggs : ∀ a ∈ aggs, Aggregate cols a) (indices : List ℕ) :
    Fine (fun out => ∃ h, Columns ((keys ++ aggs).map outputName) h out) (evalGroupBy keys aggs cols indices) := by
  rw [evalGroupBy]
  refine (groupRows_fine (fun k hk => ⟨(hkeys k hk).known, (hkeys k hk).noAlias⟩) indices []).bind fun groups _ => ?_
  have hkeyCols : Fine (Columns (keys.map outputName) groups.length)
      (keys.zipIdx.mapM fun k => keyColumn cols groups k.1 k.2) := by
    refine (yields_mapM (Q := fun (k : ExprNode F × ℕ) (c : FrameCol F) => c.name = outputName k.1 ∧
      c.valid.length = groups.length) ?_).mono ?_
    · intro k hk
      rw [keyColumn, (hkeys k.1 (List.fst_mem_of_mem_zipIdx hk)).name]
      obtain ⟨hname, hvalid⟩ := withDtypeOf_column cols (groupKeyInnerCol k.1)
        (buildFrameCol (outputName k.1) (groups.map fun g => sortKeyScalar (g.1.getD k.2 (2, .null))))
      refine ⟨hname, ?_⟩
      rw [hvalid]
      simp [buildFrameCol]
    · intro out hout
      have hnames : keys.zipIdx.map (outputName ∘ Prod.fst) = keys.map outputName := by
        rw [← List.map_map, List.zipIdx_map_fst]
      rw [← hnames]
      exact columns_of_forall₂ hout
  have haggCols : Fine (Columns (aggs.map outputName) groups.length) (aggs.mapM (aggColumn cols groups)) := by
    refine (yields_mapM (Q := fun a (c : FrameCol F) => c.name = outputName a ∧ c.valid.length = groups.length)
      ?_).mono fun out => columns_of_forall₂
    intro a ha
    obtain ⟨-, op, arg, hop⟩ := aggOutputName_eq (haggs a ha).name
    have hknown : Known cols arg := fun n hn =>
      (haggs a ha).known.reads (reads_of_aggregateOf hop ((mem_exprCols n arg).mp hn))
    have hcells := yields_mapM (f := fun g : List (SortKey F) × List ℕ => evalAgg op arg cols g.2) (l := groups)
      fun g _ => evalAgg_fine op hknown ((haggs a ha).noAlias op arg hop) g.2
    rw [aggColumn, (haggs a ha).name]
    simp only [hop]
    refine hcells.bind fun cells hlength => ?_
    refine ⟨rfl, ?_⟩
    rw [buildFrameCol, List.length_map, hlength.length_eq]
  refine hkeyCols.bind fun keyCols hk => haggCols.bind fun aggCols ha => ?_
  refine ⟨groups.length, ?_⟩
  rw [List.map_append]
  exact hk.append ha

end Karac.Runtime.Lazy
