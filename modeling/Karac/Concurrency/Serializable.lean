import Karac.Lib.Footprint
import Karac.Concurrency.Groups

/-! What the infos mean, and why the groups are serializable. A statement acts on a store of cells:
the locals, and for every resource the state that `reads`/`writes` track, the two directions of
communication that `sends`/`receives` track, and one lane for each user-defined verb. An info is
correct when the statement's footprint lies in the cells its sets and effects name. Members of one
group then have independent footprints, with one exception the conflict table makes on purpose:
two statements that communicate over channels. -/

namespace Karac.Concurrency

open Karac.Lib

/-- The component of a resource that a verb touches. Channel sends and receives share the queue. -/
inductive Lane where
  | state
  | outbox
  | inbox
  | queue
  | verb (name : String)
deriving DecidableEq

/-- Which connection of the `Network` resource a cell belongs to. -/
inductive Conn where
  | shared
  | fresh (stmt : ℕ)
  | receiver (root : String)
deriving DecidableEq

inductive Cell where
  | loc (name : String)
  | res (resource : String) (lane : Lane) (part : Option String) (conn : Conn)
deriving DecidableEq

/-- The lane an effect touches; console writes are captured output, and the informational and
execution verbs touch nothing. -/
def effectLane (e : StmtEffect) : Option Lane :=
  match e.verb with
  | .reads => some .state
  | .writes => if isConsoleResource e.resource then none else some .state
  | .sends => some (if e.resource = channelResourceCanonical then .queue else .outbox)
  | .receives => some (if e.resource = channelResourceCanonical then .queue else .inbox)
  | .userDefined v => some (.verb v)
  | _ => none

/-- An ephemeral fan-out works on a connection it opens itself, a method fan-out on the one its
receiver owns. -/
def ownConn (i : ℕ) (info : StmtInfo) (c : Conn) : Prop :=
  if info.isEphemeralNetworkFanout then c = .fresh i
  else ∀ root, info.methodFanoutReceiverRoot = some root → c = .receiver root

/-- The cells an effect of statement `i` may touch: a literal partition key names one partition. -/
def accesses (i : ℕ) (info : StmtInfo) (e : StmtEffect) : Cell → Prop
  | .loc _ => False
  | .res r l p c => r = e.resource ∧ effectLane e = some l ∧ (∀ k, e.key = some k → p = some k) ∧
      (r = "Network" → ownConn i info c)

/-- The cells statement `i` may read according to its info. -/
def readCells (i : ℕ) (info : StmtInfo) : Set Cell :=
  {c | (∃ x ∈ info.reads, c = .loc x) ∨ (∃ e ∈ info.effects, accesses i info e c) ∨
    (info.callsPolymorphic = true ∧ ∃ r l p k, c = .res r l p k)}

/-- The cells statement `i` may write according to its info. -/
def writeCells (i : ℕ) (info : StmtInfo) : Set Cell :=
  {c | (∃ x ∈ info.defines, c = .loc x) ∨
    (∃ e ∈ info.effects, e.verb ≠ .reads ∧ accesses i info e c) ∨
    (info.callsPolymorphic = true ∧ ∃ r l p k, c = .res r l p k)}

/-- What a statement leaves besides its update: the console text it printed, and whether it left
the function. -/
structure StmtResult where
  output : List (String × String)
  exits : Bool

/-- The meaning of one statement; it fails when the process dies in it. -/
abbrev StmtSem (Val : Type) := Action Cell Val StmtResult

/-- `info` describes the statement at index `i` truthfully. -/
structure CorrectInfo {Val : Type} (i : ℕ) (info : StmtInfo) (f : StmtSem Val) : Prop where
  footprint : HasFootprint f (readCells i info) (writeCells i info)
  exits : ∀ s r, f s = some r → r.2.exits = true → info.hasEarlyExit = true

structure Machine (Val : Type) where
  store : Cell → Val
  console : List (String × String)
  exited : Bool

section Runs

variable {Val : Type} (stmts : ℕ → StmtSem Val)

/-- Run statement `i` in its turn. -/
def runStmt (m : Option (Machine Val)) (i : ℕ) : Option (Machine Val) :=
  m.bind fun m =>
    if m.exited then some m
    else (stmts i m.store).map fun r => ⟨Update.apply r.1 m.store, m.console ++ r.2.output, r.2.exits⟩

/-- The body in source order. -/
def runBody (n : ℕ) (m : Machine Val) : Option (Machine Val) :=
  (List.range n).foldl (runStmt stmts) (some m)

def capturedOutput (results : ℕ → Option StmtResult) (i : ℕ) : List (String × String) :=
  ((results i).map (·.output)).getD []

/-- `karac_par_run`: the members run in the order `order`, each with its console output captured,
and the join replays the captures in source order. -/
def runFanout (members order : List ℕ) (m : Option (Machine Val)) : Option (Machine Val) :=
  m.bind fun m =>
    if m.exited then some m
    else (order.foldl (perform stmts) (some (m.store, fun _ => none))).map fun p =>
      ⟨p.1, m.console ++ members.flatMap (capturedOutput p.2),
        members.any fun i => ((p.2 i).map (·.exits)).getD false⟩

/-- The body cut at its groups: each group is one segment, every other statement its own. -/
def bodySegments (n : ℕ) : ℕ → List (List ℕ) → List (List ℕ)
  | i, [] => (List.range' i (n - i)).map fun k => [k]
  | i, g :: gs => ((List.range' i (g.headD i - i)).map fun k => [k]) ++ g ::
      bodySegments n (g.headD i + g.length) gs

/-- Run the segments one after another, the members of each in the given order. -/
def runSchedule (segments orders : List (List ℕ)) (m : Machine Val) : Option (Machine Val) :=
  (segments.zip orders).foldl (fun m so => runFanout stmts so.1 so.2 m) (some m)

end Runs

/-! Members of a group have independent footprints. -/

/-- The statement sends on or receives from channels through a callee. -/
def usesChannel (info : StmtInfo) : Bool :=
  info.effects.any fun e => (decide (e.verb = .sends) || decide (e.verb = .receives)) &&
    decide (e.resource = channelResourceCanonical)

section Independence

variable {i j : ℕ} {a b : StmtInfo}

/-- Two effects on one cell, not both reads, are in the conflict table unless the cell is a
channel queue. -/
theorem two_effects_conflict_of_shared_cell {e e' : StmtEffect} {r : String} {l : Lane}
    {p : Option String} {c : Conn} (he : accesses i a e (.res r l p c))
    (he' : accesses j b e' (.res r l p c)) (hw : e.verb ≠ .reads ∨ e'.verb ≠ .reads) (hl : l ≠ .queue) :
    twoEffectsConflict e e' = true := by
  obtain ⟨hr, hlane, hkey, -⟩ := he
  obtain ⟨hr', hlane', hkey', -⟩ := he'
  have hres : e.resource = e'.resource := hr.symm.trans hr'
  have hkeys : ∀ k k', e.key = some k → e'.key = some k' → k = k' := by
    intro k k' hk hk'
    exact Option.some.inj ((hkey k hk).symm.trans (hkey' k' hk'))
  have hsame : twoEffectsConflict e e' = twoEffectsConflict { e with key := none } e' := by
    unfold twoEffectsConflict
    cases hk : e.key with
    | none => rfl
    | some k =>
      cases hk' : e'.key with
      | none => rfl
      | some k' => simp [hkeys k k' hk hk']
  rw [hsame]
  unfold twoEffectsConflict
  unfold effectLane at hlane hlane'
  rw [hres] at hlane
  simp only [hres, ne_eq, not_true_eq_false, if_false, Bool.false_eq_true]
  -- the lane of each effect is computed from its verb; the shared lane rules out the other pairs
  clear hsame hkeys
  replace hlane := hlane.symm
  replace hlane' := hlane'.symm
  cases hv : e.verb <;> cases hv' : e'.verb <;> simp only [hv, hv'] at hlane hlane' hw ⊢ <;>
    first
    | (split_ifs at hlane hlane' <;> simp_all)
    | simp_all

/-- Two statements of different index that share a connection do not get the network relaxation. -/
theorem skip_network_of_shared_conn {c : Conn} (hij : i ≠ j) (ha : ownConn i a c)
    (hb : ownConn j b c) : skipNetwork a b = false := by
  unfold ownConn at ha hb
  unfold skipNetwork
  cases hea : a.isEphemeralNetworkFanout <;> cases heb : b.isEphemeralNetworkFanout <;>
    simp only [hea, heb, if_true, if_false, Bool.false_eq_true] at ha hb
  · cases hra : a.methodFanoutReceiverRoot with
    | none => simp
    | some ra =>
      cases hrb : b.methodFanoutReceiverRoot with
      | none => simp
      | some rb =>
        have heq : Conn.receiver ra = Conn.receiver rb := (ha ra hra).symm.trans (hb rb hrb)
        simp [Conn.receiver.inj heq]
  · cases hra : a.methodFanoutReceiverRoot with
    | none => simp
    | some ra => exact absurd ((ha ra hra).symm.trans hb) (by simp)
  · cases hrb : b.methodFanoutReceiverRoot with
    | none => cases a.methodFanoutReceiverRoot <;> simp
    | some rb => exact absurd ((hb rb hrb).symm.trans ha) (by simp)
  · exact absurd (Conn.fresh.inj (ha.symm.trans hb)) hij

theorem effects_clash_of_shared_cell {e e' : StmtEffect} {x : Cell} (hij : i ≠ j)
    (hea : e ∈ a.effects) (heb : e' ∈ b.effects) (he : accesses i a e x) (he' : accesses j b e' x)
    (hw : e.verb ≠ .reads ∨ e'.verb ≠ .reads) :
    effectsClash a b = true ∨ (usesChannel a = true ∧ usesChannel b = true) := by
  cases x with
  | loc _ => exact he.elim
  | res r l p c =>
    by_cases hl : l = .queue
    · subst hl
      have huse : ∀ (k : ℕ) (d : StmtInfo) (f : StmtEffect), f ∈ d.effects →
          accesses k d f (.res r .queue p c) → usesChannel d = true := by
        intro k d f hf hacc
        obtain ⟨-, hlane, -⟩ := hacc
        refine List.any_eq_true.mpr ⟨f, hf, ?_⟩
        unfold effectLane at hlane
        cases hv : f.verb <;> simp only [hv] at hlane <;> first | (split_ifs at hlane <;> simp_all) | simp_all
      exact Or.inr ⟨huse i a e hea he, huse j b e' heb he'⟩
    · left
      have hconf := two_effects_conflict_of_shared_cell he he' hw hl
      unfold effectsClash effectsConflict effectsConflictExcludingNetwork
      split_ifs with hskip
      · have hnet : ¬ (e.resource = "Network" ∧ e'.resource = "Network") := by
          rintro ⟨hn, -⟩
          have hrn : r = "Network" := he.1.trans hn
          rw [skip_network_of_shared_conn hij (he.2.2.2 hrn) (he'.2.2.2 hrn)] at hskip
          exact absurd hskip (by simp)
        exact List.any_eq_true.mpr ⟨e, hea, List.any_eq_true.mpr ⟨e', heb, by rw [if_neg hnet]; exact hconf⟩⟩
      · exact List.any_eq_true.mpr ⟨e, hea, List.any_eq_true.mpr ⟨e', heb, hconf⟩⟩

/-- A cell written by one statement and touched by the other is a reason to conflict. -/
theorem conflict_of_shared_cell {x : Cell} (hij : i ≠ j) (hw : x ∈ writeCells i a)
    (ht : x ∈ readCells j b ∨ x ∈ writeCells j b) :
    statementsConflict a b = true ∨ (usesChannel a = true ∧ usesChannel b = true) := by
  have hpoly : ∀ {a b : StmtInfo} {j : ℕ} {e : StmtEffect}, a.callsPolymorphic = true →
      e ∈ b.effects → statementsConflict a b = true := by
    intro a b j e hp he
    refine (statements_conflict_iff a b).mpr (Or.inr (Or.inr (Or.inr (Or.inl ?_))))
    have hne : b.effects.isEmpty = false := by
      cases hb : b.effects with
      | nil => simp [hb] at he
      | cons _ _ => rfl
    simp [polymorphicClash, hp, hne]
  have hboth : ∀ {a b : StmtInfo}, a.callsPolymorphic = true → b.callsPolymorphic = true →
      statementsConflict a b = true := by
    intro a b ha hb
    exact (statements_conflict_iff a b).mpr (Or.inr (Or.inr (Or.inr (Or.inl (by simp [polymorphicClash, ha, hb])))))
  have heff : ∀ {e e' : StmtEffect}, e ∈ a.effects → e' ∈ b.effects → accesses i a e x →
      accesses j b e' x → e.verb ≠ .reads →
      statementsConflict a b = true ∨ (usesChannel a = true ∧ usesChannel b = true) := by
    intro e e' hea heb he he' hv
    rcases effects_clash_of_shared_cell hij hea heb he he' (Or.inl hv) with h | h
    · exact Or.inl ((statements_conflict_iff a b).mpr (Or.inr (Or.inr (Or.inr (Or.inr h)))))
    · exact Or.inr h
  rcases hw with ⟨v, hv, rfl⟩ | ⟨e, hea, hve, he⟩ | ⟨hp, r, l, p, k, rfl⟩
  · left
    refine (statements_conflict_iff a b).mpr ?_
    rcases ht with (⟨w, hw, hwv⟩ | ⟨e', -, he'⟩ | ⟨-, _, _, _, _, hc⟩) |
      (⟨w, hw, hwv⟩ | ⟨e', -, -, he'⟩ | ⟨-, _, _, _, _, hc⟩)
    · obtain rfl := Cell.loc.inj hwv
      exact Or.inr (Or.inl (Or.inl (Finset.not_disjoint_iff.mpr ⟨v, hv, hw⟩)))
    · exact he'.elim
    · exact absurd hc (by simp)
    · obtain rfl := Cell.loc.inj hwv
      exact Or.inr (Or.inr (Or.inl (Finset.not_disjoint_iff.mpr ⟨v, hv, hw⟩)))
    · exact he'.elim
    · exact absurd hc (by simp)
  · rcases ht with (⟨w, hw, rfl⟩ | ⟨e', heb, he'⟩ | ⟨hpb, -⟩) |
      (⟨w, hw, rfl⟩ | ⟨e', heb, -, he'⟩ | ⟨hpb, -⟩)
    · exact he.elim
    · exact heff hea heb he he' hve
    · exact Or.inl (statements_conflict_comm a b ▸ hpoly (j := i) hpb hea)
    · exact he.elim
    · exact heff hea heb he he' hve
    · exact Or.inl (statements_conflict_comm a b ▸ hpoly (j := i) hpb hea)
  · left
    rcases ht with (⟨w, hw, hc⟩ | ⟨e', heb, he'⟩ | ⟨hpb, -⟩) |
      (⟨w, hw, hc⟩ | ⟨e', heb, -, he'⟩ | ⟨hpb, -⟩)
    · exact absurd hc (by simp)
    · exact hpoly (j := j) hp heb
    · exact hboth hp hpb
    · exact absurd hc (by simp)
    · exact hpoly (j := j) hp heb
    · exact hboth hp hpb

/-- Statements that do not conflict, and do not both communicate over channels, have independent
footprints. -/
theorem independent_of_not_conflict (hij : i ≠ j) (h : statementsConflict a b = false)
    (hch : ¬ (usesChannel a = true ∧ usesChannel b = true)) :
    Independent (readCells i a) (writeCells i a) (readCells j b) (writeCells j b) := by
  have hfwd : ∀ x ∈ writeCells i a, ¬ (x ∈ readCells j b ∨ x ∈ writeCells j b) := by
    intro x hx ht
    rcases conflict_of_shared_cell hij hx ht with hc | hc
    · rw [h] at hc; exact absurd hc (by simp)
    · exact hch hc
  have hbwd : ∀ x ∈ writeCells j b, x ∉ readCells i a := by
    intro x hx ht
    rcases conflict_of_shared_cell (Ne.symm hij) hx (Or.inl ht) with hc | hc
    · rw [statements_conflict_comm, h] at hc; exact absurd hc (by simp)
    · exact hch ⟨hc.2, hc.1⟩
  exact ⟨Set.disjoint_left.mpr fun x hx hr => hfwd x hx (Or.inl hr),
    Set.disjoint_left.mpr fun x hx hw => hfwd x hx (Or.inr hw),
    Set.disjoint_left.mpr hbwd⟩

end Independence

/-! A fan-out in source order is the sequential run, and the segments cover the body. -/

section Schedules

variable {Val : Type} {stmts : ℕ → StmtSem Val}

theorem runStmt_foldl_none (l : List ℕ) : l.foldl (runStmt stmts) none = none := by
  induction l with
  | nil => rfl
  | cons i l ih => exact ih

theorem runStmt_foldl_exited {m : Machine Val} (hm : m.exited = true) (l : List ℕ) :
    l.foldl (runStmt stmts) (some m) = some m := by
  induction l with
  | nil => rfl
  | cons i l ih => simpa [runStmt, hm] using ih

/-- Running statements none of which exits is performing them and joining their captures. -/
theorem runStmt_foldl_eq_perform {l : List ℕ} (hnd : l.Nodup)
    (hex : ∀ i ∈ l, ∀ s r, stmts i s = some r → r.2.exits = false) (s : Cell → Val)
    (c : List (String × String)) (out : ℕ → Option StmtResult) :
    l.foldl (runStmt stmts) (some ⟨s, c, false⟩) =
      (l.foldl (perform stmts) (some (s, out))).map fun p =>
        ⟨p.1, c ++ l.flatMap (capturedOutput p.2),
          l.any fun i => ((p.2 i).map (·.exits)).getD false⟩ := by
  induction l generalizing s c out with
  | nil => simp
  | cons i l ih =>
    obtain ⟨hi, hnd⟩ := List.nodup_cons.mp hnd
    rw [List.foldl_cons, List.foldl_cons]
    cases hr : stmts i s with
    | none => simp [runStmt, perform, hr, runStmt_foldl_none, perform_foldl_none]
    | some r =>
      have hexit : r.2.exits = false := hex i List.mem_cons_self s r hr
      have hrun : runStmt stmts (some ⟨s, c, false⟩) i =
          some ⟨Update.apply r.1 s, c ++ r.2.output, false⟩ := by simp [runStmt, hr, hexit]
      have hperf : perform stmts (some (s, out)) i =
          some (Update.apply r.1 s, Function.update out i (some r.2)) := by simp [perform, hr]
      rw [hrun, hperf, ih hnd (fun j hj => hex j (List.mem_cons_of_mem _ hj))
        (Update.apply r.1 s) (c ++ r.2.output) (Function.update out i (some r.2))]
      cases hp : l.foldl (perform stmts)
          (some (Update.apply r.1 s, Function.update out i (some r.2))) with
      | none => rfl
      | some p =>
        have hfiled : p.2 i = some r.2 := by
          rw [perform_foldl_result_of_notMem stmts hi hp]
          exact Function.update_self i (some r.2) out
        simp [capturedOutput, hfiled, hexit]

/-- In source order a fan-out does what the sequential body does. -/
theorem runFanout_source_order {l : List ℕ} (hnd : l.Nodup)
    (hex : (∃ i, l = [i]) ∨ ∀ i ∈ l, ∀ s r, stmts i s = some r → r.2.exits = false)
    (m : Option (Machine Val)) : runFanout stmts l l m = l.foldl (runStmt stmts) m := by
  cases m with
  | none => rw [runStmt_foldl_none]; rfl
  | some m =>
    obtain ⟨s, c, ex⟩ := m
    cases ex with
    | true => rw [runStmt_foldl_exited rfl]; rfl
    | false =>
      rcases hex with ⟨i, rfl⟩ | hex
      · cases hr : stmts i s <;> simp [runFanout, runStmt, perform, capturedOutput, hr]
      · rw [runStmt_foldl_eq_perform hnd hex s c fun _ => none]
        rfl

/-- The order of the members does not matter when their footprints are independent. -/
theorem runFanout_perm {l l' : List ℕ} (hp : l.Perm l') {R W : ℕ → Set Cell}
    (hfp : ∀ i ∈ l, HasFootprint (stmts i) (R i) (W i))
    (hind : ∀ i ∈ l, ∀ j ∈ l, i ≠ j → Independent (R i) (W i) (R j) (W j))
    (m : Option (Machine Val)) : runFanout stmts l l' m = runFanout stmts l l m := by
  unfold runFanout
  cases m with
  | none => rfl
  | some m => simp only [Option.bind_some, perform_perm stmts hp hfp hind]

/-- If each segment fans out to its sequential run, so does the schedule. -/
theorem runSchedule_eq_flatten {segments orders : List (List ℕ)}
    (h : List.Forall₂ (fun seg order => ∀ m, runFanout stmts seg order m =
      seg.foldl (runStmt stmts) m) segments orders) (m : Option (Machine Val)) :
    (segments.zip orders).foldl (fun m so => runFanout stmts so.1 so.2 m) m =
      segments.flatten.foldl (runStmt stmts) m := by
  induction h generalizing m with
  | nil => rfl
  | cons hseg _ ih =>
    rw [List.zip_cons_cons, List.foldl_cons, List.flatten_cons, List.foldl_append, hseg]
    exact ih _

end Schedules

/-- `gs` are consecutive runs of indices from `i` on, below `n`. -/
def RunsFrom (n : ℕ) : ℕ → List (List ℕ) → Prop
  | i, [] => i ≤ n
  | i, g :: gs => ∃ start len, g = List.range' start len ∧ i ≤ start ∧ 1 ≤ len ∧ start + len ≤ n ∧
      RunsFrom n (start + len) gs

theorem mem_bodySegments {n i : ℕ} {gs : List (List ℕ)} {seg : List ℕ}
    (h : seg ∈ bodySegments n i gs) : seg ∈ gs ∨ ∃ k, seg = [k] := by
  induction gs generalizing i with
  | nil =>
    obtain ⟨k, -, rfl⟩ := List.mem_map.mp h
    exact Or.inr ⟨k, rfl⟩
  | cons g gs ih =>
    rcases List.mem_append.mp h with h | h
    · obtain ⟨k, -, rfl⟩ := List.mem_map.mp h
      exact Or.inr ⟨k, rfl⟩
    · rcases List.mem_cons.mp h with rfl | h
      · exact Or.inl List.mem_cons_self
      · rcases ih h with h | h
        · exact Or.inl (List.mem_cons_of_mem _ h)
        · exact Or.inr h

theorem flatten_map_singleton (l : List ℕ) : (l.map fun k => [k]).flatten = l := by
  induction l with
  | nil => rfl
  | cons x l ih => simp [ih]

/-- The segments are the body, cut into pieces. -/
theorem bodySegments_flatten {n : ℕ} : ∀ {i : ℕ} {gs : List (List ℕ)}, RunsFrom n i gs →
    (bodySegments n i gs).flatten = List.range' i (n - i) := by
  intro i gs h
  induction gs generalizing i with
  | nil => exact flatten_map_singleton _
  | cons g gs ih =>
    obtain ⟨start, len, rfl, hi, hlen, hn, hrest⟩ := h
    have hhead : (List.range' start len).headD i = start := by
      obtain ⟨k, rfl⟩ : ∃ k, len = k + 1 := ⟨len - 1, by omega⟩
      rfl
    simp only [bodySegments, hhead, List.length_range', List.flatten_append, List.flatten_cons,
      flatten_map_singleton, ih hrest]
    have hjoin : ∀ a b : ℕ, List.range' i (start - i) ++ (List.range' start a ++
        List.range' (start + a) b) = List.range' i (start - i + (a + b)) := by
      intro a b
      have h1 : List.range' start a ++ List.range' (start + a) b = List.range' start (a + b) :=
        List.range'_append_1
      have h2 : List.range' i (start - i) ++ List.range' (i + (start - i)) (a + b) =
          List.range' i (start - i + (a + b)) := List.range'_append_1
      rw [show i + (start - i) = start by omega] at h2
      rw [h1, h2]
    rw [hjoin]
    congr 1
    omega

theorem runsFrom_of_runs {inp : GroupInput} : ∀ {i : ℕ} {gs : List ParallelGroup},
    (∀ g ∈ gs, IsRun inp g) → gs.Pairwise Before → i ≤ inp.n →
    (∀ g ∈ gs, ∀ k ∈ g.statementIndices, i ≤ k) →
    RunsFrom inp.n i (gs.map (·.statementIndices)) := by
  intro i gs hruns hord hi hlow
  induction gs generalizing i with
  | nil => exact hi
  | cons g gs ih =>
    obtain ⟨start, len, hlen, hinv, hg⟩ := hruns g List.mem_cons_self
    obtain ⟨hbefore, hord⟩ := List.pairwise_cons.mp hord
    have hstart : start ∈ g.statementIndices := by rw [hg, List.mem_range'_1]; omega
    have hlast : start + len - 1 ∈ g.statementIndices := by rw [hg, List.mem_range'_1]; omega
    refine ⟨start, len, hg, hlow g List.mem_cons_self start hstart, by omega, hinv.bound, ?_⟩
    refine ih (fun g' hg' => hruns g' (List.mem_cons_of_mem _ hg')) hord hinv.bound ?_
    intro g' hg' k hk
    have := hbefore g' hg' (start + len - 1) hlast k hk
    omega

/-- The schedule the groups induce on the body. -/
def groupSegments (inp : GroupInput) : List (List ℕ) :=
  bodySegments inp.n 0 ((findParallelGroups inp).map (·.statementIndices))

/-- No two members of the group both communicate over channels. -/
def ChannelFree (inp : GroupInput) (g : ParallelGroup) : Prop :=
  ∀ i ∈ g.statementIndices, ∀ j ∈ g.statementIndices, i ≠ j →
    ¬ (usesChannel (inp.info i) = true ∧ usesChannel (inp.info j) = true)

section Groups

variable {inp : GroupInput} (hgraph : inp.graph = (buildConflictGraph inp.infos).1)
include hgraph

/-- The graph's edges are the conflicts, so the members of a group do not conflict. -/
theorem group_members_not_conflict {g : ParallelGroup} (hg : IsRun inp g) :
    ∀ i ∈ g.statementIndices, ∀ j ∈ g.statementIndices, i ≠ j →
      statementsConflict (inp.info i) (inp.info j) = false := by
  obtain ⟨start, len, -, hinv, hidx⟩ := hg
  have hlt : ∀ i j, start ≤ i → i < j → j < start + len →
      statementsConflict (inp.info j) (inp.info i) = false := by
    intro i j h1 h2 h3
    have hno := hinv.independent i j h1 h2 h3
    have hn : start + len ≤ inp.infos.length := hinv.bound
    rw [hgraph] at hno
    cases hc : statementsConflict (inp.info j) (inp.info i) with
    | false => rfl
    | true =>
      have hedge : (i, j) ∈ edges inp.infos :=
        mem_edges.mpr ⟨h2, by omega, by rw [statements_conflict_comm] at hc; exact hc⟩
      have hyes := (graph_conflicts_iff inp.infos (i := j) (j := i) (by omega)).mpr (Or.inr hedge)
      rw [hno] at hyes
      exact absurd hyes (by simp)
  intro i hi j hj hij
  rw [hidx, List.mem_range'_1] at hi hj
  rcases Nat.lt_or_gt_of_ne hij with h | h
  · rw [statements_conflict_comm]
    exact hlt i j hi.1 h hj.2
  · exact hlt j i hj.1 h hi.2

/-- A group may run in any order: the result is that of the sequential run of its members. -/
theorem runFanout_group {Val : Type} {stmts : ℕ → StmtSem Val}
    (hcorrect : ∀ i < inp.n, CorrectInfo i (inp.info i) (stmts i)) {g : ParallelGroup}
    (hg : IsRun inp g) (hch : ChannelFree inp g) {order : List ℕ}
    (hp : g.statementIndices.Perm order) (m : Option (Machine Val)) :
    runFanout stmts g.statementIndices order m = g.statementIndices.foldl (runStmt stmts) m := by
  have hconf := group_members_not_conflict hgraph hg
  obtain ⟨start, len, -, hinv, hidx⟩ := hg
  have hmem : ∀ i ∈ g.statementIndices, start ≤ i ∧ i < start + len := by
    intro i hi
    rw [hidx] at hi
    exact List.mem_range'_1.mp hi
  have hlt : ∀ i ∈ g.statementIndices, i < inp.n := fun i hi =>
    lt_of_lt_of_le (hmem i hi).2 hinv.bound
  have hind : ∀ i ∈ g.statementIndices, ∀ j ∈ g.statementIndices, i ≠ j →
      Independent (readCells i (inp.info i)) (writeCells i (inp.info i))
        (readCells j (inp.info j)) (writeCells j (inp.info j)) := by
    intro i hi j hj hij
    exact independent_of_not_conflict hij (hconf i hi j hj hij) (hch i hi j hj hij)
  rw [runFanout_perm hp (fun i hi => (hcorrect i (hlt i hi)).footprint) hind]
  refine runFanout_source_order (by rw [hidx]; exact List.nodup_range') (Or.inr ?_) m
  -- an early exit would have excluded the statement from the group
  intro i hi s r hr
  have hexcl := hinv.eligible i (hmem i hi).1 (hmem i hi).2
  cases hexit : r.2.exits with
  | false => rfl
  | true =>
    have hearly := (hcorrect i (hlt i hi)).exits s r hr hexit
    simp [excluded, hearly] at hexcl

end Groups

/-- The groups are contiguous runs of at least two statements, disjoint, free of conflicts inside,
and, as long as no group has two members that communicate over channels, every order of the members
of the groups runs like the body in source order: the same store, console output and exit. -/
theorem find_parallel_groups_serializable (inp : GroupInput)
    (hgraph : inp.graph = (buildConflictGraph inp.infos).1) :
    (∀ g ∈ findParallelGroups inp, ∃ start len, 2 ≤ len ∧ start + len ≤ inp.n ∧
      g.statementIndices = List.range' start len) ∧
    (findParallelGroups inp).Pairwise (fun g h => g.statementIndices.Disjoint h.statementIndices) ∧
    (∀ g ∈ findParallelGroups inp, ∀ i ∈ g.statementIndices, ∀ j ∈ g.statementIndices, i ≠ j →
      statementsConflict (inp.info i) (inp.info j) = false) ∧
    ∀ (Val : Type) (stmts : ℕ → StmtSem Val),
      (∀ i < inp.n, CorrectInfo i (inp.info i) (stmts i)) →
      (∀ g ∈ findParallelGroups inp, ChannelFree inp g) →
      ∀ orders, List.Forall₂ List.Perm (groupSegments inp) orders →
      ∀ m, runSchedule stmts (groupSegments inp) orders m = runBody stmts inp.n m := by
  have hruns := findParallelGroups_runs inp
  have hord := findParallelGroups_ordered inp
  refine ⟨?_, ?_, fun g hg => group_members_not_conflict hgraph (hruns g hg), ?_⟩
  · intro g hg
    obtain ⟨start, len, hlen, hinv, hidx⟩ := hruns g hg
    exact ⟨start, len, hlen, hinv.bound, hidx⟩
  · refine hord.imp fun {g h} hbefore i hi hj => ?_
    exact absurd (hbefore i hi i hj) (lt_irrefl i)
  · intro Val stmts hcorrect hch orders horders m
    have hfrom : RunsFrom inp.n 0 ((findParallelGroups inp).map (·.statementIndices)) :=
      runsFrom_of_runs hruns hord (Nat.zero_le _) fun _ _ _ _ => Nat.zero_le _
    have hsegs : List.Forall₂ (fun seg order => ∀ m, runFanout stmts seg order m =
        seg.foldl (runStmt stmts) m) (groupSegments inp) orders := by
      refine ((List.forall₂_and_left (p := (· ∈ groupSegments inp)) _ _).mpr ⟨fun _ hseg => hseg, horders⟩).imp ?_
      intro seg order h m
      obtain ⟨hseg, hp⟩ := h
      rcases mem_bodySegments hseg with hmem | ⟨k, rfl⟩
      · obtain ⟨g, hg, rfl⟩ := List.mem_map.mp hmem
        exact runFanout_group hgraph hcorrect (hruns g hg) (hch g hg) hp m
      · rw [← List.singleton_perm.mp hp]
        exact runFanout_source_order (List.nodup_singleton k) (Or.inl ⟨k, rfl⟩) m
    unfold runSchedule runBody
    rw [runSchedule_eq_flatten hsegs, groupSegments, bodySegments_flatten hfrom]
    rw [Nat.sub_zero, ← List.range_eq_range']

section TwoStatements

/-- A body of two statements, with no moves between them. -/
def pairInput (a b : StmtInfo) : GroupInput where
  infos := [a, b]
  graph := (buildConflictGraph [a, b]).1
  containerLocals := ∅
  consumingHazardReads := [∅, ∅]
  movingHazardReads := [∅, ∅]
  enclosingFn := "main"

/-- None of the guards applies to the statement. -/
structure Plain (info : StmtInfo) : Prop where
  letIntroduced : info.letIntroduced = ∅
  calledFnNames : info.calledFnNames = ∅
  hasEarlyExit : info.hasEarlyExit = false
  hasChannelOp : info.hasChannelOp = false
  coroutine : effectsMarkCoroutineBoundary info.effects = false

variable {a b : StmtInfo}

theorem pairInput_cases {P : ℕ → Prop} (h0 : P 0) (h1 : P 1) : ∀ i < (pairInput a b).n, P i := by
  intro i hi
  rcases Nat.lt_succ_iff_lt_or_eq.mp hi with h | rfl
  · rwa [Nat.lt_one_iff.mp h]
  · exact h1

theorem pairInput_segments (ha : Plain a) (hb : Plain b) (h : statementsConflict a b = false) :
    groupSegments (pairInput a b) = [[0, 1]] := by
  have hconf : (pairInput a b).graph.conflicts 1 0 = false := by
    rw [← Bool.not_eq_true, show (pairInput a b).graph = (buildConflictGraph [a, b]).1 from rfl,
      graph_conflicts_iff _ (by simp), mem_edges, mem_edges]
    simp [conflictAt, h]
  have hex : ∀ i < (pairInput a b).n, excluded (pairInput a b) i = false := by
    have hplain : ∀ i, Plain ((pairInput a b).info i) →
        (pairInput a b).consumingHazardReads.getD i ∅ = ∅ → excluded (pairInput a b) i = false := by
      intro i hi hhaz
      rw [excluded, hazardProducer, hi.letIntroduced, hi.hasEarlyExit, hi.hasChannelOp, hi.coroutine, hhaz]
      simp
    exact pairInput_cases (hplain 0 ha rfl) (hplain 1 hb rfl)
  have hrec : isSelfRecursive (pairInput a b) [0, 1] = false := by
    simp [isSelfRecursive, pairInput, GroupInput.info, ha.calledFnNames, hb.calledFnNames]
  have hn : (pairInput a b).n = 2 := rfl
  rw [hn] at hex
  simp [groupSegments, findParallelGroups, hn, List.range_succ, seedGroup, hex, extendGroup, hconf,
    hrec, mkParallelGroup, bodySegments]

theorem swap_forall₂ (h : groupSegments (pairInput a b) = [[0, 1]]) :
    List.Forall₂ List.Perm (groupSegments (pairInput a b)) [[1, 0]] := by
  rw [h]
  exact List.Forall₂.cons (List.Perm.swap 1 0 []) List.Forall₂.nil

/-- A statement that defines the local `name`. -/
def defineInfo (name : String) : StmtInfo := { defines := {name} }

def assignLocal (name : String) : StmtSem ℕ := fun _ =>
  some (fun c => if c = .loc name then some 1 else none, ⟨[], false⟩)

theorem assignLocal_correct (i : ℕ) (name : String) :
    CorrectInfo i (defineInfo name) (assignLocal name) := by
  refine ⟨⟨fun _ _ _ => rfl, fun s r hr c hc => ?_⟩, fun s r hr => ?_⟩
  · obtain rfl := Option.some.inj hr
    refine Or.inl ⟨name, Finset.mem_singleton_self name, ?_⟩
    by_contra hne
    simp [hne] at hc
  · obtain rfl := Option.some.inj hr
    simp

theorem defineInfo_plain (name : String) : Plain (defineInfo name) := ⟨rfl, rfl, rfl, rfl, rfl⟩

theorem defineInfo_segments : groupSegments (pairInput (defineInfo "a") (defineInfo "b")) = [[0, 1]] :=
  pairInput_segments (defineInfo_plain "a") (defineInfo_plain "b")
    (by simp [statementsConflict, defineInfo, effectsConflict])

/-- Two definitions of different locals form a group, and run in the other order alike. -/
theorem two_definitions_serializable :
    groupSegments (pairInput (defineInfo "a") (defineInfo "b")) = [[0, 1]] ∧
    runSchedule (fun i => assignLocal (if i = 0 then "a" else "b"))
        (groupSegments (pairInput (defineInfo "a") (defineInfo "b"))) [[1, 0]] ⟨fun _ => 0, [], false⟩ =
      runBody (fun i => assignLocal (if i = 0 then "a" else "b")) 2 ⟨fun _ => 0, [], false⟩ := by
  refine ⟨defineInfo_segments, ?_⟩
  refine (find_parallel_groups_serializable (pairInput (defineInfo "a") (defineInfo "b")) rfl).2.2.2 ℕ _ ?_
    ?_ [[1, 0]] (swap_forall₂ defineInfo_segments) _
  · exact pairInput_cases (assignLocal_correct 0 "a") (assignLocal_correct 1 "b")
  · intro g hg i hi j hj hij hboth
    have hnone : ∀ k, usesChannel ((pairInput (defineInfo "a") (defineInfo "b")).info k) = false := by
      intro k
      match k with
      | 0 => rfl
      | 1 => rfl
      | _ + 2 => rfl
    rw [hnone i] at hboth
    exact absurd hboth.1 (by simp)

/-- A statement whose only effect is a send on a channel through a callee. -/
def sendInfo : StmtInfo := { effects := [{ verb := .sends, resource := channelResourceCanonical }] }

def queueCell : Cell := .res channelResourceCanonical .queue none .shared

/-- Statement `i` appends the digit `i + 1` to the queue. -/
def sendDigit (i : ℕ) : StmtSem ℕ := fun s =>
  some (fun c => if c = queueCell then some (10 * s queueCell + (i + 1)) else none, ⟨[], false⟩)

theorem accesses_queueCell (i : ℕ) :
    accesses i sendInfo { verb := .sends, resource := channelResourceCanonical } queueCell := by
  simp [accesses, queueCell, effectLane, channelResourceCanonical]

theorem sendDigit_correct (i : ℕ) : CorrectInfo i sendInfo (sendDigit i) := by
  refine ⟨⟨fun s t h => ?_, fun s r hr c hc => ?_⟩, fun s r hr => ?_⟩
  · have hq : s queueCell = t queueCell :=
      h queueCell (Or.inr (Or.inl ⟨_, List.mem_singleton_self _, accesses_queueCell i⟩))
    simp [sendDigit, hq]
  · obtain rfl := Option.some.inj hr
    have hcq : c = queueCell := by
      by_contra hne
      simp [hne] at hc
    rw [hcq]
    exact Or.inr (Or.inl ⟨_, List.mem_singleton_self _, by simp, accesses_queueCell i⟩)
  · obtain rfl := Option.some.inj hr
    simp

/-- Sends on one channel do not conflict, so two senders share a group, and the order in which
they run decides the order of the messages in the queue. -/
theorem two_sends_not_serializable :
    ¬ ∀ inp : GroupInput, inp.graph = (buildConflictGraph inp.infos).1 →
      ∀ stmts : ℕ → StmtSem ℕ, (∀ i < inp.n, CorrectInfo i (inp.info i) (stmts i)) →
      ∀ orders, List.Forall₂ List.Perm (groupSegments inp) orders →
      ∀ m, (runSchedule stmts (groupSegments inp) orders m).map (·.store) =
        (runBody stmts inp.n m).map (·.store) := by
  intro h
  have hplain : Plain sendInfo := ⟨rfl, rfl, rfl, rfl, by
    simp [sendInfo, effectsMarkCoroutineBoundary, channelResourceCanonical]⟩
  have hsegs : groupSegments (pairInput sendInfo sendInfo) = [[0, 1]] :=
    pairInput_segments hplain hplain
      (by simp [statementsConflict, sendInfo, effectsConflict, twoEffectsConflict])
  have heq := h (pairInput sendInfo sendInfo) rfl sendDigit
    (pairInput_cases (sendDigit_correct 0) (sendDigit_correct 1)) [[1, 0]] (swap_forall₂ hsegs)
    ⟨fun _ => 0, [], false⟩
  rw [hsegs] at heq
  have hq := congrArg (fun o => (o.map (· queueCell)).getD 0) heq
  simp [runSchedule, runFanout, runBody, runStmt, perform, sendDigit, Update.apply,
    show (pairInput sendInfo sendInfo).n = 2 from rfl, List.range_succ] at hq

end TwoStatements

end Karac.Concurrency
