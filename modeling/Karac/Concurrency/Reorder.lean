import Karac.Lib.Chunks
import Karac.Lib.Slice
import Karac.Concurrency.Serializable

/-! The reorder advisory `find_reorder_opportunities`: which statement is to be moved next to which, and what the move does
to the order of the conflicting statements and to the meaning of the body. The meaning has the drops of the locals at the
end of the scope in it, the last one introduced first. -/

namespace Karac.Concurrency

open Karac.Lib

structure ReorderOpportunity where
  statementIndices : List ℕ
  movableStatement : ℕ
  reason : String

def reorderEligible (info : StmtInfo) : Bool :=
  !info.hasEarlyExit && !info.hasChannelOp && !info.hasConsoleOutput && !info.isSeq &&
    (!effectsMarkCoroutineBoundary info.effects || info.isTimerSuspend || info.isSafeNetworkFanout)

def reorderReason (i j movable stationary : ℕ) : String :=
  "statements " ++ toString i ++ " and " ++ toString j ++ " are independent but separated by " ++ toString (j - i - 1) ++
    " intervening statement" ++ (if j - i - 1 = 1 then "" else "s") ++ "; moving statement " ++ toString movable ++
    " adjacent to statement " ++ toString stationary ++ " would let them parallelize"

section

variable (infos : List StmtInfo) (graph : ConflictGraph) (n : ℕ) (groups : List ParallelGroup)

/-- The statement is in a group. -/
def grouped (idx : ℕ) : Bool := groups.any fun g => decide (idx ∈ g.statementIndices)

/-- The body of the scan over the pairs. -/
def pairOpportunity (i j : ℕ) : Option ReorderOpportunity :=
  if !reorderEligible (infos.getD j {}) then none
  else if graph.conflicts i j then none
  else if grouped groups i && grouped groups j then none
  else
    let jSlidesLeft := (between (i + 1) j).all fun k => !graph.conflicts j k
    let iSlidesRight := (between (i + 1) j).all fun k => !graph.conflicts i k
    if jSlidesLeft then some ⟨[i, j], j, reorderReason i j j i⟩
    else if iSlidesRight then some ⟨[i, j], i, reorderReason i j i j⟩
    else none

def findReorderOpportunities : List ReorderOpportunity :=
  (List.range n).flatMap fun i =>
    if !reorderEligible (infos.getD i {}) then []
    else (List.range' (i + 2) (n - (i + 2))).filterMap fun j => pairOpportunity infos graph groups i j

end

/-- The body's order after the move. -/
def ReorderOpportunity.reordered (o : ReorderOpportunity) (n : ℕ) : List ℕ :=
  match o.statementIndices with
  | [i, j] =>
    if o.movableStatement = j then between 0 (i + 1) ++ j :: (between (i + 1) j ++ between (j + 1) n)
    else between 0 i ++ (between (i + 1) j ++ i :: between j n)
  | _ => List.range n

/-- The statements that the moved one passes. -/
def ReorderOpportunity.passed (o : ReorderOpportunity) : List ℕ :=
  match o.statementIndices with
  | [i, j] => between (i + 1) j
  | _ => []

/-! What a report says. -/

/-- The two moves. -/
inductive Slide (infos : List StmtInfo) (i j : ℕ) : ReorderOpportunity → Prop
  | left {reason : String}
      (hfree : ∀ k ∈ between (i + 1) j, statementsConflict (infos.getD j {}) (infos.getD k {}) = false) :
      Slide infos i j ⟨[i, j], j, reason⟩
  | right {reason : String}
      (hfree : ∀ k ∈ between (i + 1) j, statementsConflict (infos.getD i {}) (infos.getD k {}) = false) :
      Slide infos i j ⟨[i, j], i, reason⟩

theorem conflicts_eq {infos : List StmtInfo} {i j : ℕ} (hi : i < infos.length) (hj : j < infos.length) (hne : i ≠ j) :
    (buildConflictGraph infos).1.conflicts i j = statementsConflict (infos.getD i {}) (infos.getD j {}) := by
  rw [Bool.eq_iff_iff, graph_conflicts_iff infos hi, mem_edges, mem_edges]
  have hcomm : conflictAt infos j i = statementsConflict (infos.getD i {}) (infos.getD j {}) :=
    statements_conflict_comm _ _
  have hat : conflictAt infos i j = statementsConflict (infos.getD i {}) (infos.getD j {}) := rfl
  rw [hcomm, hat]
  constructor
  · rintro (⟨-, -, h⟩ | ⟨-, -, h⟩) <;> exact h
  · intro h
    rcases Nat.lt_or_gt_of_ne hne with hlt | hgt
    · exact Or.inl ⟨hlt, hj, h⟩
    · exact Or.inr ⟨hgt, hi, h⟩

theorem slide_of_reported {infos : List StmtInfo} {groups : List ParallelGroup} {o : ReorderOpportunity}
    (h : o ∈ findReorderOpportunities infos (buildConflictGraph infos).1 infos.length groups) :
    ∃ i j, i + 1 < j ∧ j < infos.length ∧ reorderEligible (infos.getD i {}) = true ∧
      reorderEligible (infos.getD j {}) = true ∧ Slide infos i j o := by
  obtain ⟨i, hi, ho⟩ := List.mem_flatMap.mp h
  split at ho
  · exact absurd ho (by simp)
  · rename_i hseed
    obtain ⟨j, hj, ho⟩ := List.mem_filterMap.mp ho
    rw [List.mem_range'_1] at hj
    have hseed' : reorderEligible (infos.getD i {}) = true := by simpa using hseed
    have hfree {m : ℕ} (hm : m < infos.length) (hout : ∀ k ∈ between (i + 1) j, m ≠ k)
        (hall : ((between (i + 1) j).all fun k => !(buildConflictGraph infos).1.conflicts m k) = true) :
        ∀ k ∈ between (i + 1) j, statementsConflict (infos.getD m {}) (infos.getD k {}) = false := by
      intro k hk
      have hkj := mem_between.mp hk
      rw [← conflicts_eq hm (by omega) (hout k hk)]
      simpa using List.all_eq_true.mp hall k hk
    unfold pairOpportunity at ho
    split at ho
    · exact absurd ho (by simp)
    · rename_i hcandidate
      have hcandidate' : reorderEligible (infos.getD j {}) = true := by simpa using hcandidate
      refine ⟨i, j, by omega, by omega, hseed', hcandidate', ?_⟩
      split at ho
      · exact absurd ho (by simp)
      · split at ho
        · exact absurd ho (by simp)
        · dsimp only at ho
          split at ho
          · obtain rfl := Option.some.inj ho
            refine .left (hfree (by omega) (fun k hk => ?_) ‹_›)
            have hkj := mem_between.mp hk
            omega
          · split at ho
            · obtain rfl := Option.some.inj ho
              refine .right (hfree (by omega) (fun k hk => ?_) ‹_›)
              have hkj := mem_between.mp hk
              omega
            · exact absurd ho (by simp)

/-! The order. -/

section

variable {n i j : ℕ}

theorem between_cons (h : i < n) : between i n = i :: between (i + 1) n := by
  rw [between, between, show n - i = n - (i + 1) + 1 by omega, List.range'_succ]

theorem range_split_left (hij : i + 1 < j) (hj : j < n) :
    List.range n = between 0 (i + 1) ++ (between (i + 1) j ++ j :: between (j + 1) n) := by
  rw [← between_zero, ← between_cons hj, between_append (by omega) (by omega), between_append (by omega) (by omega)]

theorem range_split_right (hij : i + 1 < j) (hj : j < n) :
    List.range n = between 0 i ++ i :: (between (i + 1) j ++ between j n) := by
  rw [← between_zero, between_append (by omega) (by omega), ← between_cons (by omega), between_append (by omega) (by omega)]

variable {infos : List StmtInfo} {o : ReorderOpportunity}

theorem reordered_left {reason : String} :
    ReorderOpportunity.reordered ⟨[i, j], j, reason⟩ n =
      between 0 (i + 1) ++ j :: (between (i + 1) j ++ between (j + 1) n) :=
  if_pos rfl

theorem reordered_right {reason : String} (hij : i + 1 < j) :
    ReorderOpportunity.reordered ⟨[i, j], i, reason⟩ n = between 0 i ++ (between (i + 1) j ++ i :: between j n) :=
  if_neg (by dsimp only; omega)

theorem Slide.perm (h : Slide infos i j o) (hij : i + 1 < j) (hj : j < n) : (o.reordered n).Perm (List.range n) := by
  cases h with
  | left =>
    rw [reordered_left, range_split_left hij hj]
    exact perm_slide
  | right =>
    rw [reordered_right hij, range_split_right hij hj]
    exact perm_slide.symm

/-- An earlier statement that a later one conflicts with. -/
def Precedes (infos : List StmtInfo) (x y : ℕ) : Prop :=
  x < y ∧ statementsConflict (infos.getD x {}) (infos.getD y {}) = true

/-- No conflicting pair is turned round. -/
theorem Slide.pairwise (h : Slide infos i j o) (hij : i + 1 < j) (hj : j < n) :
    (o.reordered n).Pairwise fun x y => ¬Precedes infos y x := by
  have hrange : (List.range n).Pairwise fun x y => ¬Precedes infos y x := by
    refine List.pairwise_lt_range.imp ?_
    intro x y hlt hprecedes
    exact lt_asymm hlt hprecedes.1
  cases h with
  | left hfree =>
    rw [range_split_left hij hj] at hrange
    rw [reordered_left]
    refine pairwise_slide_left hrange fun k hk hprecedes => ?_
    have hconflict := hprecedes.2
    rw [statements_conflict_comm, hfree k hk] at hconflict
    exact absurd hconflict (by simp)
  | right hfree =>
    rw [range_split_right hij hj] at hrange
    rw [reordered_right hij]
    refine pairwise_slide_right hrange fun k hk hprecedes => ?_
    have hconflict := hprecedes.2
    rw [hfree k hk] at hconflict
    exact absurd hconflict (by simp)

theorem Slide.idxOf_lt (h : Slide infos i j o) (hij : i + 1 < j) (hj : j < n) {a b : ℕ} (hb : b < n)
    (hab : Precedes infos a b) : (o.reordered n).idxOf a < (o.reordered n).idxOf b := by
  have hmem {x : ℕ} (hx : x < n) : x ∈ o.reordered n := (h.perm hij hj).mem_iff.mpr (List.mem_range.mpr hx)
  exact idxOf_lt_of_pairwise (h.pairwise hij hj) (hmem (lt_trans hab.1 hb)) (hmem hb) hab.1.ne hab

end

/-! The meaning. -/

section

variable {Val : Type}

/-- What dropping the locals of a statement does; it prints, and fails when the process dies in it. -/
abbrev DropSem (Val : Type) := Action Cell Val (List (String × String))

variable (stmts : ℕ → StmtSem Val) (drops : ℕ → DropSem Val)

/-- Run a statement in its turn. Its locals are live from then on, unless it left the function. -/
def scopeStep (st : Option (Machine Val × List ℕ)) (i : ℕ) : Option (Machine Val × List ℕ) :=
  st.bind fun p =>
    if p.1.exited then some p else (runStmt stmts (some p.1) i).map fun m => (m, if m.exited then p.2 else i :: p.2)

def runDrop (m : Option (Machine Val)) (i : ℕ) : Option (Machine Val) :=
  m.bind fun m => (drops i m.store).map fun r => ⟨Update.apply r.1 m.store, m.console ++ r.2, m.exited⟩

/-- The statements of a body in some order, and the drops of the locals that are live at the end. -/
def runScope (order : List ℕ) (m : Machine Val) : Option (Machine Val) :=
  (order.foldl (scopeStep stmts) (some (m, []))).bind fun p => p.2.foldl (runDrop drops) (some p.1)

end

/-- An action never prints. -/
def Silent {Val Res : Type} (out : Res → List (String × String)) (f : Action Cell Val Res) : Prop :=
  ∀ s r, f s = some r → out r.2 = []

/-- Neither action sees the other's writes, and not both print. -/
structure Apart {Val Res : Type} (out : Res → List (String × String)) (f g : Action Cell Val Res) : Prop where
  footprints : ∃ Rf Wf Rg Wg, HasFootprint f Rf Wf ∧ HasFootprint g Rg Wg ∧ Independent Rf Wf Rg Wg
  silent : Silent out f ∨ Silent out g

section

variable {Val Res : Type} {out : Res → List (String × String)} {f g : Action Cell Val Res}

/-- An action on a store and what has been printed. -/
def emit (out : Res → List (String × String)) (f : Action Cell Val Res)
    (p : Option ((Cell → Val) × List (String × String))) : Option ((Cell → Val) × List (String × String)) :=
  p.bind fun p => (f p.1).map fun r => (Update.apply r.1 p.1, p.2 ++ out r.2)

theorem Apart.emit_comm (h : Apart out f g) (s : Cell → Val) (c : List (String × String)) :
    emit out g (emit out f (some (s, c))) = emit out f (emit out g (some (s, c))) := by
  obtain ⟨Rf, Wf, Rg, Wg, hf, hg, hind⟩ := h.footprints
  simp only [emit, Option.bind_some]
  cases hfs : f s with
  | none =>
    cases hgs : g s with
    | none => rfl
    | some q =>
      have hback := hg.frame hf hind.readWrite hgs
      simp [hback, hfs]
  | some r =>
    have hfwd := hf.frame hg hind.writeRead hfs
    cases hgs : g s with
    | none => simp [hfwd, hgs]
    | some q =>
      have hback := hg.frame hf hind.readWrite hgs
      have hcomm := hf.apply_comm hg hind.writeWrite hfs hgs s
      have hout : out r.2 ++ out q.2 = out q.2 ++ out r.2 := by
        rcases h.silent with hsilent | hsilent
        · rw [hsilent s r hfs, List.nil_append, List.append_nil]
        · rw [hsilent s q hgs, List.nil_append, List.append_nil]
      simp only [Option.map_some, Option.bind_some, hfwd, hback, hfs, hgs, hcomm, List.append_assoc, hout]

end

section

variable {Val : Type} {stmts : ℕ → StmtSem Val} {drops : ℕ → DropSem Val} {a b : ℕ}

/-- Two statements next to each other can be swapped. -/
structure Swappable (stmts : ℕ → StmtSem Val) (drops : ℕ → DropSem Val) (a b : ℕ) : Prop where
  stays : ∀ i, i = a ∨ i = b → ∀ s r, stmts i s = some r → r.2.exits = false
  apart : Apart StmtResult.output (stmts a) (stmts b)
  drops : Apart id (drops a) (drops b)

theorem runStmt_eq_emit {i : ℕ} (hstays : ∀ s r, stmts i s = some r → r.2.exits = false) (s : Cell → Val)
    (c : List (String × String)) : runStmt stmts (some ⟨s, c, false⟩) i =
      (emit StmtResult.output (stmts i) (some (s, c))).map fun p => ⟨p.1, p.2, false⟩ := by
  cases hr : stmts i s with
  | none => simp [runStmt, emit, hr]
  | some r => simp [runStmt, emit, hr, hstays s r hr]

theorem scopeStep_eq_emit {i : ℕ} (hstays : ∀ s r, stmts i s = some r → r.2.exits = false) (s : Cell → Val)
    (c : List (String × String)) (live : List ℕ) : scopeStep stmts (some (⟨s, c, false⟩, live)) i =
      (emit StmtResult.output (stmts i) (some (s, c))).map fun p => (⟨p.1, p.2, false⟩, i :: live) := by
  rw [scopeStep, Option.bind_some, if_neg (by simp), runStmt_eq_emit hstays, Option.map_map]
  rfl

theorem runDrop_eq_emit (s : Cell → Val) (c : List (String × String)) (e : Bool) (i : ℕ) :
    runDrop drops (some ⟨s, c, e⟩) i = (emit id (drops i) (some (s, c))).map fun p => ⟨p.1, p.2, e⟩ := by
  rw [runDrop, emit, Option.bind_some, Option.bind_some, Option.map_map]
  rfl

theorem runDrop_comm (h : Apart id (drops a) (drops b)) (m : Option (Machine Val)) :
    runDrop drops (runDrop drops m a) b = runDrop drops (runDrop drops m b) a := by
  cases m with
  | none => rfl
  | some m =>
    obtain ⟨s, c, e⟩ := m
    have hpair {x y : ℕ} : runDrop drops (runDrop drops (some ⟨s, c, e⟩) x) y =
        (emit id (drops y) (emit id (drops x) (some (s, c)))).map fun p => ⟨p.1, p.2, e⟩ := by
      rw [runDrop_eq_emit]
      cases emit id (drops x) (some (s, c)) with
      | none => rfl
      | some p => exact runDrop_eq_emit _ _ _ _
    rw [hpair, hpair, h.emit_comm]

theorem scopeStep_exited {m : Machine Val} (h : m.exited = true) (live l : List ℕ) :
    l.foldl (scopeStep stmts) (some (m, live)) = some (m, live) := by
  induction l with
  | nil => rfl
  | cons i l ih =>
    rw [List.foldl_cons, scopeStep, Option.bind_some, if_pos h]
    exact ih

theorem scopeStep_none (l : List ℕ) : l.foldl (scopeStep stmts) none = none := by
  induction l with
  | nil => rfl
  | cons i l ih => exact ih

/-- The locals of the statements so far stay under those of the statements to come. -/
theorem foldl_scopeStep_live (l : List ℕ) (m : Machine Val) (live : List ℕ) :
    l.foldl (scopeStep stmts) (some (m, live)) =
      (l.foldl (scopeStep stmts) (some (m, []))).map fun p => (p.1, p.2 ++ live) := by
  induction l generalizing m live with
  | nil => rfl
  | cons i l ih =>
    have hstep (live : List ℕ) : scopeStep stmts (some (m, live)) i =
        (scopeStep stmts (some (m, [])) i).map fun p => (p.1, p.2 ++ live) := by
      rw [scopeStep, scopeStep, Option.bind_some, Option.bind_some]
      dsimp only
      split
      · rfl
      · rw [Option.map_map]
        refine congrArg (Option.map · _) (funext fun m' => ?_)
        dsimp only [Function.comp_apply]
        split <;> rfl
    rw [List.foldl_cons, List.foldl_cons, hstep]
    cases scopeStep stmts (some (m, [])) i with
    | none => rw [Option.map_none, scopeStep_none, Option.map_none]
    | some p =>
      rw [Option.map_some, ih, ih p.1 p.2, Option.map_map]
      refine congrArg (Option.map · _) (funext fun q => ?_)
      dsimp only [Function.comp_apply]
      rw [List.append_assoc]

theorem scopeStep_pair (h : Swappable stmts drops a b) (s : Cell → Val) (c : List (String × String)) (live : List ℕ) :
    scopeStep stmts (scopeStep stmts (some (⟨s, c, false⟩, live)) a) b =
      (emit StmtResult.output (stmts b) (emit StmtResult.output (stmts a) (some (s, c)))).map
        fun p => (⟨p.1, p.2, false⟩, b :: a :: live) := by
  rw [scopeStep_eq_emit (h.stays a (Or.inl rfl))]
  cases emit StmtResult.output (stmts a) (some (s, c)) with
  | none => rfl
  | some p => exact scopeStep_eq_emit (h.stays b (Or.inr rfl)) _ _ _

theorem Apart.symm {Res : Type} {out : Res → List (String × String)} {f g : Action Cell Val Res} (h : Apart out f g) :
    Apart out g f := by
  obtain ⟨Rf, Wf, Rg, Wg, hf, hg, hind⟩ := h.footprints
  exact ⟨⟨Rg, Wg, Rf, Wf, hg, hf, hind.readWrite, hind.writeWrite.symm, hind.writeRead⟩, h.silent.symm⟩

theorem Swappable.symm (h : Swappable stmts drops a b) : Swappable stmts drops b a :=
  ⟨fun i hi => h.stays i hi.symm, h.apart.symm, h.drops.symm⟩

theorem runScope_swap (h : Swappable stmts drops a b) (before after : List ℕ) (m : Machine Val) :
    runScope stmts drops (before ++ a :: b :: after) m = runScope stmts drops (before ++ b :: a :: after) m := by
  rw [runScope, runScope, List.foldl_append, List.foldl_append]
  cases before.foldl (scopeStep stmts) (some (m, [])) with
  | none => rw [scopeStep_none, scopeStep_none]
  | some p =>
    obtain ⟨⟨s, c, e⟩, live⟩ := p
    cases e with
    | true => rw [scopeStep_exited rfl, scopeStep_exited rfl]
    | false =>
      rw [List.foldl_cons, List.foldl_cons, List.foldl_cons, List.foldl_cons, scopeStep_pair h, scopeStep_pair h.symm,
        h.apart.emit_comm]
      cases emit StmtResult.output (stmts a) (emit StmtResult.output (stmts b) (some (s, c))) with
      | none => rfl
      | some q =>
        rw [Option.map_some, Option.map_some, foldl_scopeStep_live, foldl_scopeStep_live after _ (a :: b :: live)]
        -- the two ways differ in the order of two locals under those of the rest
        cases after.foldl (scopeStep stmts) (some (⟨q.1, q.2, false⟩, [])) with
        | none => rfl
        | some t =>
          simp only [Option.map_some, Option.bind_some, List.foldl_append, List.foldl_cons]
          rw [runDrop_comm h.drops]

/-- A statement that can be swapped with all that it passes can be moved past them. -/
theorem runScope_slide {before between after : List ℕ} (h : ∀ k ∈ between, Swappable stmts drops a k) (m : Machine Val) :
    runScope stmts drops (before ++ a :: (between ++ after)) m =
      runScope stmts drops (before ++ (between ++ a :: after)) m :=
  slide_eq (f := fun l => runScope stmts drops l m) (fun _ _ _ _ hswap => runScope_swap hswap _ _ m) h

/-- What the conflict graph does not say of a statement that is passed: it does not leave the function, it does not use
channels if the moved one does, not both print, and the drops of their locals are apart. -/
structure Undisturbed (infos : List StmtInfo) (stmts : ℕ → StmtSem Val) (drops : ℕ → DropSem Val) (moved passed : ℕ) :
    Prop where
  stays : (infos.getD passed {}).hasEarlyExit = false
  channels : ¬(usesChannel (infos.getD moved {}) = true ∧ usesChannel (infos.getD passed {}) = true)
  silent : Silent StmtResult.output (stmts moved) ∨ Silent StmtResult.output (stmts passed)
  drops : Apart id (drops moved) (drops passed)

theorem Undisturbed.swappable {infos : List StmtInfo} (h : Undisturbed infos stmts drops a b) (hne : a ≠ b)
    (ha : CorrectInfo a (infos.getD a {}) (stmts a)) (hb : CorrectInfo b (infos.getD b {}) (stmts b))
    (helig : reorderEligible (infos.getD a {}) = true)
    (hfree : statementsConflict (infos.getD a {}) (infos.getD b {}) = false) : Swappable stmts drops a b := by
  have hstay : (infos.getD a {}).hasEarlyExit = false := by
    unfold reorderEligible at helig
    simp only [Bool.and_eq_true, Bool.not_eq_true'] at helig
    exact helig.1.1.1.1
  refine ⟨fun i hi s r hr => ?_, ⟨⟨_, _, _, _, ha.footprint, hb.footprint, ?_⟩, h.silent⟩, h.drops⟩
  · rw [← Bool.not_eq_true]
    intro hexits
    rcases hi with rfl | rfl
    · exact Bool.false_ne_true (hstay.symm.trans (ha.exits s r hr hexits))
    · exact Bool.false_ne_true (h.stays.symm.trans (hb.exits s r hr hexits))
  · exact independent_of_not_conflict hne hfree h.channels

end

/-- A reported move turns no conflicting pair round, and where the infos are right and none of the statements that are
passed leaves the function, prints or uses a channel with the moved one, or has locals whose drops meet, the body means
what it did. -/
theorem reorder_opportunities_legal {infos : List StmtInfo} {groups : List ParallelGroup} {o : ReorderOpportunity}
    (ho : o ∈ findReorderOpportunities infos (buildConflictGraph infos).1 infos.length groups) :
    (o.reordered infos.length).Perm (List.range infos.length) ∧
    (∀ a b, b < infos.length → Precedes infos a b →
      (o.reordered infos.length).idxOf a < (o.reordered infos.length).idxOf b) ∧
    ∀ (Val : Type) (stmts : ℕ → StmtSem Val) (drops : ℕ → DropSem Val),
      (∀ i < infos.length, CorrectInfo i (infos.getD i {}) (stmts i)) →
      (∀ k ∈ o.passed, Undisturbed infos stmts drops o.movableStatement k) →
      ∀ m, runScope stmts drops (o.reordered infos.length) m = runScope stmts drops (List.range infos.length) m := by
  obtain ⟨i, j, hij, hj, hi', hj', hslide⟩ := slide_of_reported ho
  refine ⟨hslide.perm hij hj, fun a b hb hab => hslide.idxOf_lt hij hj hb hab, fun Val stmts drops hcorrect hpassed m => ?_⟩
  cases hslide with
  | left hfree =>
    rw [reordered_left, range_split_left hij hj]
    refine runScope_slide (fun k hk => ?_) m
    have hkj := mem_between.mp hk
    have hne : j ≠ k := by omega
    exact (hpassed k hk).swappable hne (hcorrect j hj) (hcorrect k (by omega)) hj' (hfree k hk)
  | right hfree =>
    rw [reordered_right hij, range_split_right hij hj]
    refine (runScope_slide (fun k hk => ?_) m).symm
    have hkj := mem_between.mp hk
    have hne : i ≠ k := by omega
    exact (hpassed k hk).swappable hne (hcorrect i (by omega)) (hcorrect k (by omega)) hi' (hfree k hk)

/-! Bodies of three statements. -/

section

variable {x y z : StmtInfo}

/-- The third statement is to be moved to the first. -/
def thirdToFirst : ReorderOpportunity := ⟨[0, 2], 2, reorderReason 0 2 2 0⟩

theorem thirdToFirst_reported (hx : reorderEligible x = true) (hz : reorderEligible z = true)
    (hxz : statementsConflict x z = false) (hzy : statementsConflict z y = false) :
    thirdToFirst ∈ findReorderOpportunities [x, y, z] (buildConflictGraph [x, y, z]).1 3 [] := by
  have hpair : (buildConflictGraph [x, y, z]).1.conflicts 0 2 = false :=
    (conflicts_eq (by decide : 0 < 3) (by decide : 2 < 3) (by decide)).trans hxz
  have hpassed : (buildConflictGraph [x, y, z]).1.conflicts 2 1 = false :=
    (conflicts_eq (by decide : 2 < 3) (by decide : 1 < 3) (by decide)).trans hzy
  have hthird : reorderEligible ([x, y, z].getD 2 {}) = true := hz
  have hbetween : between (0 + 1) 2 = [1] := rfl
  refine List.mem_flatMap.mpr ⟨0, by decide, ?_⟩
  rw [if_neg (by simpa using hx)]
  refine List.mem_filterMap.mpr ⟨2, by decide, ?_⟩
  simp [pairOpportunity, hthird, hpair, hpassed, hbetween, grouped, thirdToFirst, -List.getD_eq_getElem?_getD]

end

/-- Two definitions of different locals, with one in between. -/
def threeDefinitions : List StmtInfo := [defineInfo "a", defineInfo "b", defineInfo "c"]

def dropNothing (_ : ℕ) : DropSem ℕ := fun _ => some (fun _ => none, [])

theorem dropNothing_apart (a b : ℕ) : Apart id (dropNothing a) (dropNothing b) := by
  have hfootprint (i : ℕ) : HasFootprint (dropNothing i) ∅ ∅ := by
    refine ⟨fun _ _ _ => rfl, fun s r hr c hc => ?_⟩
    obtain rfl := Option.some.inj hr
    exact absurd hc (by simp)
  refine ⟨⟨∅, ∅, ∅, ∅, hfootprint a, hfootprint b, by simp, by simp, by simp⟩, Or.inl fun s r hr => ?_⟩
  obtain rfl := Option.some.inj hr
  rfl

theorem reorder_opportunities_legal_definitions :
    thirdToFirst ∈ findReorderOpportunities threeDefinitions (buildConflictGraph threeDefinitions).1 3 [] ∧
    thirdToFirst.reordered 3 = [0, 2, 1] ∧
    ∀ m, runScope (fun i => assignLocal (["a", "b", "c"].getD i "")) dropNothing [0, 2, 1] m =
      runScope (fun i => assignLocal (["a", "b", "c"].getD i "")) dropNothing [0, 1, 2] m := by
  have hreported : thirdToFirst ∈ findReorderOpportunities threeDefinitions (buildConflictGraph threeDefinitions).1 3 [] :=
    thirdToFirst_reported (by decide) (by decide) (by decide) (by decide)
  refine ⟨hreported, rfl, fun m => ?_⟩
  refine (reorder_opportunities_legal hreported).2.2 ℕ _ dropNothing (fun i hi => ?_) (fun k hk => ?_) m
  · obtain rfl | rfl | rfl : i = 0 ∨ i = 1 ∨ i = 2 := by
      have hlt : i < 3 := hi
      omega
    · exact assignLocal_correct 0 "a"
    · exact assignLocal_correct 1 "b"
    · exact assignLocal_correct 2 "c"
  · obtain rfl : k = 1 := List.mem_singleton.mp hk
    refine ⟨rfl, by decide, Or.inl fun s r hr => ?_, dropNothing_apart _ _⟩
    obtain rfl := Option.some.inj hr
    rfl

/-- The move keeps what the body means. -/
def KeepsMeaning (infos : List StmtInfo) (o : ReorderOpportunity) : Prop :=
  ∀ (stmts : ℕ → StmtSem ℕ) (drops : ℕ → DropSem ℕ), (∀ i < infos.length, CorrectInfo i (infos.getD i {}) (stmts i)) →
    ∀ m, runScope stmts drops (o.reordered infos.length) m = runScope stmts drops (List.range infos.length) m

/-- Calls of a function that prints. -/
def printIndex (i : ℕ) : StmtSem ℕ := fun _ => some (fun _ => none, ⟨[("stdout", toString i)], false⟩)

theorem printIndex_correct (i : ℕ) (info : StmtInfo) : CorrectInfo i info (printIndex i) := by
  refine ⟨⟨fun _ _ _ => rfl, fun s r hr c hc => ?_⟩, fun s r hr hexits => ?_⟩
  · obtain rfl := Option.some.inj hr
    exact absurd hc (by simp)
  · obtain rfl := Option.some.inj hr
    exact absurd hexits (by simp)

def returnInfo : StmtInfo := { hasEarlyExit := true }

/-- An assignment, a `return` and an assignment. -/
def assignReturnAssign (i : ℕ) : StmtSem ℕ :=
  if i = 1 then fun _ => some (fun _ => none, ⟨[], true⟩) else assignLocal (if i = 0 then "a" else "b")

theorem assignReturnAssign_correct (i : ℕ) (hi : i < 3) :
    CorrectInfo i ([defineInfo "a", returnInfo, defineInfo "b"].getD i {}) (assignReturnAssign i) := by
  obtain rfl | rfl | rfl : i = 0 ∨ i = 1 ∨ i = 2 := by omega
  · exact assignLocal_correct 0 "a"
  · refine ⟨⟨fun _ _ _ => rfl, fun s r hr c hc => ?_⟩, fun _ _ _ _ => rfl⟩
    obtain rfl := Option.some.inj hr
    exact absurd hc (by simp)
  · exact assignLocal_correct 2 "b"

/-- A move past a call that prints turns the output round, and a move past a `return` runs what was not to be run. -/
theorem reorder_changes_meaning :
    (thirdToFirst ∈ findReorderOpportunities [{}, {}, {}] (buildConflictGraph [{}, {}, {}]).1 3 [] ∧
      ¬KeepsMeaning [{}, {}, {}] thirdToFirst) ∧
    thirdToFirst ∈ findReorderOpportunities [defineInfo "a", returnInfo, defineInfo "b"]
        (buildConflictGraph [defineInfo "a", returnInfo, defineInfo "b"]).1 3 [] ∧
      ¬KeepsMeaning [defineInfo "a", returnInfo, defineInfo "b"] thirdToFirst := by
  refine ⟨⟨thirdToFirst_reported rfl rfl (by decide) (by decide), fun h => ?_⟩,
    thirdToFirst_reported rfl rfl (by decide) (by decide), fun h => ?_⟩
  · have heq := h printIndex dropNothing (fun i _ => printIndex_correct i _) ⟨fun _ => 0, [], false⟩
    have hconsole := congrArg (fun m => m.map (·.console)) heq
    exact absurd hconsole (by decide)
  · have heq := h assignReturnAssign dropNothing assignReturnAssign_correct ⟨fun _ => 0, [], false⟩
    have hlocal := congrArg (fun m => m.map fun m => m.store (.loc "b")) heq
    exact absurd hlocal (by decide)

end Karac.Concurrency
