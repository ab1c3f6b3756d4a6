import Karac.Concurrency.ConflictGraph

/-! The grouping pass `find_parallel_groups`: a greedy scan that seeds a group at the first
unassigned statement and extends it while the next statement is eligible and independent of every
member. The assigned statements always form a prefix of the body, which is what makes the groups
contiguous and disjoint. -/

namespace Karac.Concurrency

structure ParallelGroup where
  statementIndices : List ℕ
  reason : String
  isTrivial : Bool
  capturedMutations : Finset String
  capturedContainerMutations : Finset String
  branchesMayHideWork : Bool

/-- The arguments of `find_parallel_groups`. -/
structure GroupInput where
  infos : List StmtInfo
  graph : ConflictGraph
  containerLocals : Finset String
  consumingHazardReads : List (Finset String)
  movingHazardReads : List (Finset String)
  enclosingFn : String

namespace GroupInput

variable (inp : GroupInput)

def n : ℕ := inp.infos.length

def info (i : ℕ) : StmtInfo := inp.infos.getD i {}

end GroupInput

def effectsMarkCoroutineBoundary (effects : List StmtEffect) : Bool :=
  effects.any fun e => decide (e.verb = .suspends) ||
    ((decide (e.verb = .sends) || decide (e.verb = .receives)) && decide (e.resource = "Network"))

/-- A statement that introduces a binding some later statement consumes by a move. -/
def hazardProducer (inp : GroupInput) (i : ℕ) : Bool :=
  (sortedNames (inp.info i).letIntroduced).any fun name =>
    (List.range' (i + 1) (inp.n - (i + 1))).any fun j =>
      decide (name ∈ inp.movingHazardReads.getD j ∅)

/-- The guards that keep a statement out of every group, as a seed and as a candidate alike. -/
def excluded (inp : GroupInput) (i : ℕ) : Bool :=
  hazardProducer inp i ||
  (inp.info i).hasEarlyExit ||
  (effectsMarkCoroutineBoundary (inp.info i).effects && !(inp.info i).isTimerSuspend &&
    !(inp.info i).isSafeNetworkFanout && (inp.info i).methodFanoutReceiverRoot.isNone) ||
  (inp.info i).hasChannelOp ||
  decide (inp.consumingHazardReads.getD i ∅ ≠ ∅)

/-- Add subsequent statements until one is assigned, excluded, or conflicts with a member. -/
def extendGroup (inp : GroupInput) : List ℕ → List ℕ → List Bool → List ℕ × List Bool
  | [], group, assigned => (group, assigned)
  | candidate :: rest, group, assigned =>
      if assigned.getD candidate false then (group, assigned)
      else if excluded inp candidate then (group, assigned)
      else if group.all fun g => !inp.graph.conflicts candidate g then
        extendGroup inp rest (group ++ [candidate]) (assigned.set candidate true)
      else (group, assigned)

def isSelfRecursive (inp : GroupInput) (group : List ℕ) : Bool :=
  group.any fun i => decide (inp.enclosingFn ∈ (inp.info i).calledFnNames)

def describeGroupReason (inp : GroupInput) (indices : List ℕ) : String :=
  let effects := indices.flatMap fun i => (inp.info i).effects
  let resources := effects.map (·.resource)
  if indices.all fun i => (inp.info i).effects.isEmpty then "pure computations"
  else if effects.all fun e => decide (e.verb = .reads) then
    if resources.toFinset.card > 1 then "independent reads on different resources"
    else "concurrent reads on same resource"
  else if resources.toFinset.card = resources.length ∧ resources.toFinset.card > 1 then
    "independent effects on different resources"
  else "no data or effect dependencies"

def isTrivialGroup (inp : GroupInput) (group : List ℕ) : Bool :=
  (group.all fun i => ((inp.info i).effects.all fun e => isConsoleResource e.resource) &&
    !(inp.info i).callsPolymorphic) ||
  decide ((group.filter fun i => !(inp.info i).isConstantInit).length ≤ 1)

def branchesMayHideWork (inp : GroupInput) (group : List ℕ) : Bool :=
  group.any fun i => (inp.info i).callsPolymorphic ||
    (inp.info i).effects.any fun e =>
      !(decide (e.verb = .allocates) || decide (e.verb = .panics)) && !isConsoleResource e.resource

/-- Captured locals some member mutates without introducing them. -/
def capturedMutations (inp : GroupInput) (group : List ℕ) : Finset String :=
  group.foldl (fun acc i => acc ∪ ((inp.info i).defines \ (inp.info i).letIntroduced)) ∅

def mkParallelGroup (inp : GroupInput) (group : List ℕ) : ParallelGroup where
  statementIndices := group
  reason := describeGroupReason inp group
  isTrivial := isTrivialGroup inp group
  capturedMutations := capturedMutations inp group
  capturedContainerMutations := capturedMutations inp group ∩ inp.containerLocals
  branchesMayHideWork := branchesMayHideWork inp group

/-- One round of the outer loop: try to seed a group at `start`. -/
def seedGroup (inp : GroupInput) (st : List ParallelGroup × List Bool) (start : ℕ) :
    List ParallelGroup × List Bool :=
  if st.2.getD start false then st
  else if excluded inp start then (st.1, st.2.set start true)
  else
    let r := extendGroup inp (List.range' (start + 1) (inp.n - (start + 1))) [start]
      (st.2.set start true)
    if decide (r.1.length > 1) && !isSelfRecursive inp r.1 then
      (st.1 ++ [mkParallelGroup inp r.1], r.2)
    else (st.1, r.2)

def findParallelGroups (inp : GroupInput) : List ParallelGroup :=
  ((List.range inp.n).foldl (seedGroup inp) ([], List.replicate inp.n false)).1

/-! The assigned statements form a prefix. -/

/-- The assignment vector in which exactly the first `m` of `n` statements are assigned. -/
def assignedPrefix (n m : ℕ) : List Bool := List.replicate m true ++ List.replicate (n - m) false

theorem assignedPrefix_getD (n m i : ℕ) :
    (assignedPrefix n m).getD i false = decide (i < m) := by
  unfold assignedPrefix
  by_cases h : i < m
  · rw [List.getD_append _ _ _ _ (by simpa using h)]
    simp [h]
  · rw [List.getD_append_right _ _ _ _ (by simpa using h), List.length_replicate]
    simp only [h, decide_false, List.getD_eq_getElem?_getD, List.getElem?_replicate]
    split_ifs <;> rfl

theorem assignedPrefix_set {n m : ℕ} (hm : m < n) :
    (assignedPrefix n m).set m true = assignedPrefix n (m + 1) := by
  unfold assignedPrefix
  rw [List.set_append_right _ _ (by simp), List.length_replicate, Nat.sub_self]
  obtain ⟨d, hd⟩ : ∃ d, n - m = d + 1 := ⟨n - m - 1, by omega⟩
  rw [hd, show n - (m + 1) = d by omega, List.replicate_succ, List.set_cons_zero,
    List.replicate_succ', List.append_assoc]
  rfl

/-- What the pass guarantees of the members of a group. -/
structure GroupInvariant (inp : GroupInput) (start len : ℕ) : Prop where
  bound : start + len ≤ inp.n
  eligible : ∀ i, start ≤ i → i < start + len → excluded inp i = false
  independent : ∀ i j, start ≤ i → i < j → j < start + len → inp.graph.conflicts j i = false

/-- Extension keeps the group a run whose end is the end of the assigned prefix. -/
theorem extendGroup_spec (inp : GroupInput) (start : ℕ) :
    ∀ rem len, start + len + rem = inp.n → 1 ≤ len → GroupInvariant inp start len →
      ∃ len', len ≤ len' ∧ GroupInvariant inp start len' ∧
        extendGroup inp (List.range' (start + len) rem) (List.range' start len)
          (assignedPrefix inp.n (start + len)) =
        (List.range' start len', assignedPrefix inp.n (start + len')) := by
  intro rem
  induction rem with
  | zero =>
    intro len _ _ hinv
    exact ⟨len, le_rfl, hinv, by simp [extendGroup]⟩
  | succ rem ih =>
    intro len hn hlen hinv
    have hlt : start + len < inp.n := by omega
    rw [List.range'_succ]
    unfold extendGroup
    rw [assignedPrefix_getD]
    simp only [lt_irrefl, decide_false, Bool.false_eq_true, if_false]
    cases hex : excluded inp (start + len) with
    | true => exact ⟨len, le_rfl, hinv, by simp⟩
    | false =>
      simp only [Bool.false_eq_true, if_false]
      split_ifs with hall
      · -- the candidate joins: the run grows by one and so does the prefix
        have hinv' : GroupInvariant inp start (len + 1) := by
          refine ⟨by omega, fun i h1 h2 => ?_, fun i j h1 h2 h3 => ?_⟩
          · rcases Nat.lt_or_ge i (start + len) with h | h
            · exact hinv.eligible i h1 h
            · rw [show i = start + len by omega]
              exact hex
          · rcases Nat.lt_or_ge j (start + len) with h | h
            · exact hinv.independent i j h1 h2 h
            · have hj : j = start + len := by omega
              have hi : i ∈ List.range' start len := by
                rw [List.mem_range'_1]; omega
              have := List.all_eq_true.mp hall i hi
              rw [hj]
              simpa using this
        obtain ⟨len', hle, hgood, heq⟩ := ih (len + 1) (by omega) (by omega) hinv'
        refine ⟨len', by omega, hgood, ?_⟩
        rw [assignedPrefix_set hlt]
        have hrange : List.range' start len ++ [start + len] = List.range' start (len + 1) := by
          rw [List.range'_1_concat]
        rw [hrange]
        exact heq
      · exact ⟨len, le_rfl, hinv, rfl⟩

/-- A reported group: a run of at least two statements with the invariant. -/
def IsRun (inp : GroupInput) (g : ParallelGroup) : Prop :=
  ∃ start len, 2 ≤ len ∧ GroupInvariant inp start len ∧ g.statementIndices = List.range' start len

/-- Every member of `g` comes before every member of `h`. -/
def Before (g h : ParallelGroup) : Prop :=
  ∀ i ∈ g.statementIndices, ∀ j ∈ h.statementIndices, i < j

/-- The state of the outer loop before statement `t` is tried. -/
structure LoopInvariant (inp : GroupInput) (t : ℕ) (st : List ParallelGroup × List Bool) : Prop where
  assigned : ∃ m, t ≤ m ∧ m ≤ inp.n ∧ st.2 = assignedPrefix inp.n m ∧
    ∀ g ∈ st.1, ∀ i ∈ g.statementIndices, i < m
  runs : ∀ g ∈ st.1, IsRun inp g
  ordered : st.1.Pairwise Before

theorem seedGroup_invariant (inp : GroupInput) {t : ℕ} (ht : t < inp.n)
    {st : List ParallelGroup × List Bool} (h : LoopInvariant inp t st) :
    LoopInvariant inp (t + 1) (seedGroup inp st t) := by
  obtain ⟨⟨m, htm, hmn, hst, hbelow⟩, hruns, hord⟩ := h
  unfold seedGroup
  rw [hst, assignedPrefix_getD]
  by_cases htlt : t < m
  · simp only [htlt, decide_true, if_true]
    exact ⟨⟨m, by omega, hmn, hst, hbelow⟩, hruns, hord⟩
  have hmt : m = t := by omega
  subst hmt
  simp only [lt_irrefl, decide_false, Bool.false_eq_true, if_false]
  rw [assignedPrefix_set ht]
  cases hex : excluded inp m with
  | true =>
    simp only [if_true]
    exact ⟨⟨m + 1, le_rfl, ht, rfl, fun g hg i hi => Nat.lt_succ_of_lt (hbelow g hg i hi)⟩, hruns, hord⟩
  | false =>
    simp only [Bool.false_eq_true, if_false]
    have hseed : GroupInvariant inp m 1 :=
      ⟨by omega, fun i h1 h2 => by rw [show i = m by omega]; exact hex,
        fun i j h1 h2 h3 => by omega⟩
    obtain ⟨len, hlen, hgood, heq⟩ := extendGroup_spec inp m (inp.n - (m + 1)) 1 (by omega) le_rfl hseed
    have hsingle : List.range' m 1 = [m] := rfl
    rw [hsingle] at heq
    rw [heq]
    split_ifs with hemit
    · have hlen2 : 2 ≤ len := by
        have hgt : (List.range' m len).length > 1 := of_decide_eq_true (Bool.and_eq_true _ _ ▸ hemit).1
        rw [List.length_range'] at hgt
        exact hgt
      refine ⟨⟨m + len, by omega, hgood.bound, rfl, ?_⟩, ?_, ?_⟩
      · intro g hg i hi
        rcases List.mem_append.mp hg with hg | hg
        · have := hbelow g hg i hi
          omega
        · obtain rfl := List.mem_singleton.mp hg
          have := List.mem_range'_1.mp hi
          omega
      · intro g hg
        rcases List.mem_append.mp hg with hg | hg
        · exact hruns g hg
        · obtain rfl := List.mem_singleton.mp hg
          exact ⟨m, len, hlen2, hgood, rfl⟩
      · rw [List.pairwise_append]
        refine ⟨hord, List.pairwise_singleton _ _, ?_⟩
        intro g hg g' hg' i hi j hj
        obtain rfl := List.mem_singleton.mp hg'
        have h1 := hbelow g hg i hi
        have h2 := List.mem_range'_1.mp hj
        omega
    · exact ⟨⟨m + len, by omega, hgood.bound, rfl, fun g hg i hi => by
        have := hbelow g hg i hi; omega⟩, hruns, hord⟩

theorem findParallelGroups_invariant (inp : GroupInput) :
    ∀ t, t ≤ inp.n → LoopInvariant inp t
      ((List.range t).foldl (seedGroup inp) ([], List.replicate inp.n false)) := by
  intro t
  induction t with
  | zero =>
    intro _
    exact ⟨⟨0, le_rfl, Nat.zero_le _, by simp [assignedPrefix], by simp⟩, by simp, by simp⟩
  | succ t ih =>
    intro ht
    rw [List.range_succ, List.foldl_append]
    exact seedGroup_invariant inp ht (ih (by omega))

/-- Every reported group is a contiguous run of at least two statements. -/
theorem findParallelGroups_runs (inp : GroupInput) : ∀ g ∈ findParallelGroups inp, IsRun inp g :=
  (findParallelGroups_invariant inp inp.n le_rfl).runs

/-- The groups are disjoint and reported in source order. -/
theorem findParallelGroups_ordered (inp : GroupInput) : (findParallelGroups inp).Pairwise Before :=
  (findParallelGroups_invariant inp inp.n le_rfl).ordered

end Karac.Concurrency
