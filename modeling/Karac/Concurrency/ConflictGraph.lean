import Karac.Concurrency.Conflicts

/-! The sparse conflict graph. `build_conflict_graph` only tests the candidate pairs it draws from
inverted indices (per binding, per resource, `seq` and polymorphic statements); the file proves
that no conflicting pair is missed, so the graph and the serialization points are those of the
all-pairs loop. -/

namespace Karac.Concurrency

structure ConflictGraph where
  neighbors : List (Finset ℕ)

def ConflictGraph.conflicts (g : ConflictGraph) (i j : ℕ) : Bool :=
  decide (j ∈ g.neighbors.getD i ∅)

/-- A map from names to the statements filed under them. -/
abbrev Buckets := List (String × List ℕ)

/-- `buckets.entry(k).or_default().push(i)` -/
def pushBucket (k : String) (i : ℕ) : Buckets → Buckets
  | [] => [(k, [i])]
  | (k', is) :: rest => if k' = k then (k', is ++ [i]) :: rest else (k', is) :: pushBucket k i rest

/-- File every statement, in order, under each of its keys. -/
def bucketize (keys : StmtInfo → List String) (infos : List StmtInfo) : Buckets :=
  infos.zipIdx.foldl (fun b p => (keys p.1).foldl (fun b k => pushBucket k p.2 b) b) []

def varDefiners : List StmtInfo → Buckets := bucketize fun info => sortedNames info.defines
def varReaders : List StmtInfo → Buckets := bucketize fun info => sortedNames info.reads
def resourceStmts : List StmtInfo → Buckets := bucketize fun info => info.effects.map (·.resource)

/-- The indices, in order, of the statements with a flag set. -/
def flagged (flag : StmtInfo → Bool) (infos : List StmtInfo) : List ℕ :=
  (infos.zipIdx.filter fun p => flag p.1).map (·.2)

def seqStmts : List StmtInfo → List ℕ := flagged (·.isSeq)
def polyStmts : List StmtInfo → List ℕ := flagged (·.callsPolymorphic)
def effectfulStmts : List StmtInfo → List ℕ := flagged fun info => !info.effects.isEmpty

/-- The pairs `(l[a], l[b])` with `a < b`. -/
def pairsOf : List ℕ → List (ℕ × ℕ)
  | [] => []
  | x :: xs => xs.map (x, ·) ++ pairsOf xs

/-- The arguments of the calls of `add`, in the source's order. -/
def proposedPairs (infos : List StmtInfo) : List (ℕ × ℕ) :=
  ((seqStmts infos).flatMap fun s => (List.range infos.length).map (s, ·)) ++
  ((varDefiners infos).flatMap fun p => pairsOf p.2 ++
    match (varReaders infos).lookup p.1 with
    | some readers => p.2.flatMap fun d => readers.map (d, ·)
    | none => []) ++
  pairsOf (polyStmts infos) ++
  ((polyStmts infos).flatMap fun p => (effectfulStmts infos).map (p, ·)) ++
  ((resourceStmts infos).flatMap fun p => pairsOf p.2)

/-- Candidate pairs are stored `(lo, hi)` with `lo < hi`. -/
def addCandidate (candidates : Finset (ℕ × ℕ)) (p : ℕ × ℕ) : Finset (ℕ × ℕ) :=
  if p.1 ≠ p.2 then insert (min p.1 p.2, max p.1 p.2) candidates else candidates

def candidates (infos : List StmtInfo) : Finset (ℕ × ℕ) :=
  (proposedPairs infos).foldl addCandidate ∅

/-- The emission order of the all-pairs loop: later index first, then the earlier one. -/
def edgeLE (p q : ℕ × ℕ) : Prop := p.2 < q.2 ∨ (p.2 = q.2 ∧ p.1 ≤ q.1)

instance : DecidableRel edgeLE := fun p q =>
  inferInstanceAs (Decidable (p.2 < q.2 ∨ (p.2 = q.2 ∧ p.1 ≤ q.1)))

instance : IsTrans (ℕ × ℕ) edgeLE := ⟨fun p q r hpq hqr => by unfold edgeLE at *; omega⟩

instance : Std.Antisymm edgeLE := ⟨fun p q hpq hqp => by
  unfold edgeLE at *; exact Prod.ext (by omega) (by omega)⟩

instance : Std.Total edgeLE := ⟨fun p q => by unfold edgeLE; omega⟩

/-- Do the statements at `lo` and `hi` conflict? -/
def conflictAt (infos : List StmtInfo) (lo hi : ℕ) : Bool :=
  statementsConflict (infos.getD lo {}) (infos.getD hi {})

/-- The confirmed candidates in emission order. -/
def edges (infos : List StmtInfo) : List (ℕ × ℕ) :=
  ((candidates infos).filter fun p => conflictAt infos p.1 p.2).sort edgeLE

def addEdge (neighbors : List (Finset ℕ)) (e : ℕ × ℕ) : List (Finset ℕ) :=
  (neighbors.modify e.1 (insert e.2)).modify e.2 (insert e.1)

/-- The report for one edge, with its statement indices filled in. -/
def serializationPoint (infos : List StmtInfo) (lo hi : ℕ) : Option SerializationPoint :=
  (conflictDetail (infos.getD lo {}) (infos.getD hi {})).map fun sp =>
    { sp with statementIndices := [lo, hi] }

def buildConflictGraph (infos : List StmtInfo) : ConflictGraph × List SerializationPoint :=
  (⟨(edges infos).foldl addEdge (List.replicate infos.length ∅)⟩,
   (edges infos).filterMap fun e => serializationPoint infos e.1 e.2)

/-! The all-pairs loop the sparse builder replaces. -/

/-- Every pair `lo < hi` of statements, outer index ascending, inner index ascending. -/
def densePairs (n : ℕ) : List (ℕ × ℕ) :=
  (List.range n).flatMap fun hi => (List.range hi).map fun lo => (lo, hi)

def denseSerializationPoints (infos : List StmtInfo) : List SerializationPoint :=
  ((densePairs infos.length).filter fun e => conflictAt infos e.1 e.2).filterMap fun e =>
    serializationPoint infos e.1 e.2

theorem mem_densePairs {n : ℕ} {e : ℕ × ℕ} : e ∈ densePairs n ↔ e.1 < e.2 ∧ e.2 < n := by
  simp only [densePairs, List.mem_flatMap, List.mem_map, List.mem_range]
  constructor
  · rintro ⟨hi, hhi, lo, hlo, rfl⟩
    exact ⟨hlo, hhi⟩
  · rintro ⟨h1, h2⟩
    exact ⟨e.2, h2, e.1, h1, rfl⟩

theorem densePairs_sorted (n : ℕ) : (densePairs n).Pairwise edgeLE := by
  induction n with
  | zero => simp [densePairs]
  | succ n ih =>
    have hsplit : densePairs (n + 1) = densePairs n ++ (List.range n).map fun lo => (lo, n) := by
      simp [densePairs, List.range_succ]
    rw [hsplit, List.pairwise_append]
    refine ⟨ih, ?_, ?_⟩
    · rw [List.pairwise_map]
      exact List.pairwise_lt_range.imp fun h => Or.inr ⟨rfl, h.le⟩
    · intro p hp q hq
      obtain ⟨lo, -, rfl⟩ := List.mem_map.mp hq
      exact Or.inl (mem_densePairs.mp hp).2

theorem densePairs_nodup (n : ℕ) : (densePairs n).Nodup := by
  refine List.nodup_flatMap.mpr ⟨fun hi _ => ?_, ?_⟩
  · exact List.nodup_range.map fun a b h => (Prod.mk.inj h).1
  · refine List.nodup_range.imp ?_
    intro a b hab p hpa hpb
    obtain ⟨x, -, rfl⟩ := List.mem_map.mp hpa
    obtain ⟨y, -, hy⟩ := List.mem_map.mp hpb
    exact hab (Prod.mk.inj hy).2.symm

/-! What the inverted indices hold. -/

theorem lookup_pushBucket (k k' : String) (i : ℕ) (b : Buckets) :
    (pushBucket k i b).lookup k' =
      if k' = k then some ((b.lookup k).getD [] ++ [i]) else b.lookup k' := by
  induction b with
  | nil => by_cases h : k' = k <;> simp [pushBucket, h]
  | cons p b ih =>
    obtain ⟨kp, is⟩ := p
    by_cases hk : kp = k
    · subst hk
      by_cases h : k' = kp
      · simp [pushBucket, h]
      · simp [pushBucket, List.lookup_cons, h, beq_eq_false_iff_ne.mpr h]
    · have hk' : (k == kp) = false := beq_eq_false_iff_ne.mpr (Ne.symm hk)
      rw [pushBucket, if_neg hk, List.lookup_cons, List.lookup_cons, List.lookup_cons, ih, hk']
      by_cases h : k' = kp
      · subst h
        simp [hk]
      · simp [beq_eq_false_iff_ne.mpr h]

theorem mem_pushBucket {k : String} {i j : ℕ} {b : Buckets} {p : String × List ℕ}
    (hp : p ∈ pushBucket k i b) (hj : j ∈ p.2) : j = i ∨ ∃ q ∈ b, j ∈ q.2 := by
  induction b with
  | nil =>
    obtain rfl := List.mem_singleton.mp hp
    exact Or.inl (List.mem_singleton.mp hj)
  | cons q b ih =>
    unfold pushBucket at hp
    split_ifs at hp with hq
    · rcases List.mem_cons.mp hp with rfl | hp
      · rcases List.mem_append.mp hj with hj | hj
        · exact Or.inr ⟨q, by simp, hj⟩
        · exact Or.inl (List.mem_singleton.mp hj)
      · exact Or.inr ⟨p, List.mem_cons_of_mem _ hp, hj⟩
    · rcases List.mem_cons.mp hp with rfl | hp
      · exact Or.inr ⟨_, List.mem_cons_self, hj⟩
      · rcases ih hp with h | ⟨r, hr, hjr⟩
        · exact Or.inl h
        · exact Or.inr ⟨r, List.mem_cons_of_mem _ hr, hjr⟩

/-- The statements filed under `k`. -/
def filed (b : Buckets) (k : String) : List ℕ := (b.lookup k).getD []

theorem mem_filed_push_all (ks : List String) (i j : ℕ) (k : String) (b : Buckets) :
    j ∈ filed (ks.foldl (fun b k => pushBucket k i b) b) k ↔ j ∈ filed b k ∨ (j = i ∧ k ∈ ks) := by
  induction ks generalizing b with
  | nil => simp
  | cons k0 ks ih =>
    rw [List.foldl_cons, ih]
    have hstep : j ∈ filed (pushBucket k0 i b) k ↔ j ∈ filed b k ∨ (j = i ∧ k = k0) := by
      unfold filed
      rw [lookup_pushBucket]
      by_cases h : k = k0
      · subst h; simp
      · simp [h]
    rw [hstep, List.mem_cons]
    tauto

theorem mem_filed_bucketize (keys : StmtInfo → List String) (infos : List StmtInfo) (i : ℕ)
    (k : String) :
    i ∈ filed (bucketize keys infos) k ↔ ∃ info, infos[i]? = some info ∧ k ∈ keys info := by
  have hgen : ∀ (l : List (StmtInfo × ℕ)) (b : Buckets),
      i ∈ filed (l.foldl (fun b p => (keys p.1).foldl (fun b k => pushBucket k p.2 b) b) b) k ↔
        i ∈ filed b k ∨ ∃ p ∈ l, p.2 = i ∧ k ∈ keys p.1 := by
    intro l
    induction l with
    | nil => simp
    | cons p l ih =>
      intro b
      rw [List.foldl_cons, ih, mem_filed_push_all]
      simp only [List.mem_cons, exists_eq_or_imp, eq_comm (a := i)]
      tauto
  rw [bucketize, hgen]
  constructor
  · rintro (h | ⟨⟨info, j⟩, hp, rfl, hk⟩)
    · simp [filed] at h
    · exact ⟨info, List.mk_mem_zipIdx_iff_getElem?.mp hp, hk⟩
  · rintro ⟨info, hi, hk⟩
    exact Or.inr ⟨(info, i), List.mk_mem_zipIdx_iff_getElem?.mpr hi, rfl, hk⟩

theorem bucketize_bound (keys : StmtInfo → List String) (infos : List StmtInfo) :
    ∀ p ∈ bucketize keys infos, ∀ j ∈ p.2, j < infos.length := by
  have hinner : ∀ (n i : ℕ) (ks : List String) (b : Buckets), i < n →
      (∀ p ∈ b, ∀ j ∈ p.2, j < n) →
      ∀ p ∈ ks.foldl (fun b k => pushBucket k i b) b, ∀ j ∈ p.2, j < n := by
    intro n i ks
    induction ks with
    | nil => intro b _ hb; exact hb
    | cons k ks ih =>
      intro b hi hb
      refine ih _ hi ?_
      intro p hp j hj
      rcases mem_pushBucket hp hj with rfl | ⟨q, hq, hjq⟩
      · exact hi
      · exact hb q hq j hjq
  have houter : ∀ (n : ℕ) (l : List (StmtInfo × ℕ)) (b : Buckets), (∀ p ∈ l, p.2 < n) →
      (∀ p ∈ b, ∀ j ∈ p.2, j < n) →
      ∀ p ∈ l.foldl (fun b p => (keys p.1).foldl (fun b k => pushBucket k p.2 b) b) b,
        ∀ j ∈ p.2, j < n := by
    intro n l
    induction l with
    | nil => intro b _ hb; exact hb
    | cons q l ih =>
      intro b hl hb
      exact ih _ (fun p hp => hl p (List.mem_cons_of_mem _ hp))
        (hinner n q.2 (keys q.1) b (hl q List.mem_cons_self) hb)
  refine houter infos.length _ [] ?_ (by simp)
  rintro ⟨info, i⟩ hp
  exact List.snd_lt_of_mem_zipIdx hp

theorem mem_of_mem_filed {b : Buckets} {k : String} {i : ℕ} (h : i ∈ filed b k) :
    (k, filed b k) ∈ b := by
  induction b with
  | nil => simp [filed] at h
  | cons p b ih =>
    obtain ⟨kp, is⟩ := p
    unfold filed at h ⊢
    rw [List.lookup_cons] at h ⊢
    by_cases hk : k = kp
    · subst hk; simp
    · simp only [beq_eq_false_iff_ne.mpr hk] at h ⊢
      exact List.mem_cons_of_mem _ (ih h)

theorem mem_flagged {flag : StmtInfo → Bool} {infos : List StmtInfo} {i : ℕ} :
    i ∈ flagged flag infos ↔ ∃ info, infos[i]? = some info ∧ flag info = true := by
  simp only [flagged, List.mem_map, List.mem_filter]
  constructor
  · rintro ⟨⟨info, j⟩, ⟨hp, hf⟩, rfl⟩
    exact ⟨info, List.mk_mem_zipIdx_iff_getElem?.mp hp, hf⟩
  · rintro ⟨info, hi, hf⟩
    exact ⟨(info, i), ⟨List.mk_mem_zipIdx_iff_getElem?.mpr hi, hf⟩, rfl⟩

/-! Every conflicting pair is a candidate. -/

theorem mem_pairsOf {x y : ℕ} {l : List ℕ} (hx : x ∈ l) (hy : y ∈ l) (hne : x ≠ y) :
    (x, y) ∈ pairsOf l ∨ (y, x) ∈ pairsOf l := by
  induction l with
  | nil => simp at hx
  | cons z l ih =>
    simp only [pairsOf, List.mem_append, List.mem_map]
    rcases List.mem_cons.mp hx with rfl | hxl <;> rcases List.mem_cons.mp hy with rfl | hyl
    · exact absurd rfl hne
    · exact Or.inl (Or.inl ⟨y, hyl, rfl⟩)
    · exact Or.inr (Or.inl ⟨x, hxl, rfl⟩)
    · rcases ih hxl hyl with h | h
      · exact Or.inl (Or.inr h)
      · exact Or.inr (Or.inr h)

theorem pairsOf_subset {l : List ℕ} {q : ℕ × ℕ} (hq : q ∈ pairsOf l) : q.1 ∈ l ∧ q.2 ∈ l := by
  induction l with
  | nil => simp [pairsOf] at hq
  | cons z l ih =>
    rcases List.mem_append.mp hq with h | h
    · obtain ⟨y, hy, rfl⟩ := List.mem_map.mp h
      exact ⟨List.mem_cons_self, List.mem_cons_of_mem _ hy⟩
    · exact ⟨List.mem_cons_of_mem _ (ih h).1, List.mem_cons_of_mem _ (ih h).2⟩

theorem mem_candidates {infos : List StmtInfo} {p : ℕ × ℕ} :
    p ∈ candidates infos ↔
      ∃ q ∈ proposedPairs infos, q.1 ≠ q.2 ∧ p = (min q.1 q.2, max q.1 q.2) := by
  have hgen : ∀ (l : List (ℕ × ℕ)) (c : Finset (ℕ × ℕ)),
      p ∈ l.foldl addCandidate c ↔
        p ∈ c ∨ ∃ q ∈ l, q.1 ≠ q.2 ∧ p = (min q.1 q.2, max q.1 q.2) := by
    intro l
    induction l with
    | nil => simp
    | cons q l ih =>
      intro c
      rw [List.foldl_cons, ih]
      simp only [List.mem_cons, exists_eq_or_imp]
      unfold addCandidate
      split_ifs with h
      · rw [Finset.mem_insert]
        tauto
      · tauto
  rw [candidates, hgen]
  simp

theorem flagged_bound {flag : StmtInfo → Bool} {infos : List StmtInfo} {i : ℕ}
    (h : i ∈ flagged flag infos) : i < infos.length := by
  obtain ⟨info, hi, -⟩ := mem_flagged.mp h
  exact (List.getElem?_eq_some_iff.mp hi).1

theorem lookup_readers_bound {infos : List StmtInfo} {k : String} {readers : List ℕ}
    (h : (varReaders infos).lookup k = some readers) : ∀ r ∈ readers, r < infos.length := by
  intro r hr
  have hf : r ∈ filed (varReaders infos) k := by simpa [filed, h] using hr
  exact bucketize_bound _ infos _ (mem_of_mem_filed hf) r hf

theorem proposed_bound {infos : List StmtInfo} {q : ℕ × ℕ} (hq : q ∈ proposedPairs infos) :
    q.1 < infos.length ∧ q.2 < infos.length := by
  simp only [proposedPairs, List.mem_append] at hq
  rcases hq with (((hq | hq) | hq) | hq) | hq
  · obtain ⟨s, hs, hq⟩ := List.mem_flatMap.mp hq
    obtain ⟨o, ho, rfl⟩ := List.mem_map.mp hq
    exact ⟨flagged_bound hs, List.mem_range.mp ho⟩
  · obtain ⟨b, hb, hq⟩ := List.mem_flatMap.mp hq
    have hbd := bucketize_bound _ infos b hb
    rcases List.mem_append.mp hq with hq | hq
    · have := pairsOf_subset hq
      exact ⟨hbd _ this.1, hbd _ this.2⟩
    · split at hq
      · rename_i readers hlook
        obtain ⟨d, hd, hq⟩ := List.mem_flatMap.mp hq
        obtain ⟨r, hr, rfl⟩ := List.mem_map.mp hq
        exact ⟨hbd d hd, lookup_readers_bound hlook r hr⟩
      · simp at hq
  · have := pairsOf_subset hq
    exact ⟨flagged_bound this.1, flagged_bound this.2⟩
  · obtain ⟨s, hs, hq⟩ := List.mem_flatMap.mp hq
    obtain ⟨o, ho, rfl⟩ := List.mem_map.mp hq
    exact ⟨flagged_bound hs, flagged_bound ho⟩
  · obtain ⟨b, hb, hq⟩ := List.mem_flatMap.mp hq
    have := pairsOf_subset hq
    exact ⟨bucketize_bound _ infos b hb _ this.1, bucketize_bound _ infos b hb _ this.2⟩

/-- A pair is proposed in one of its two orders. -/
def Proposed (infos : List StmtInfo) (i j : ℕ) : Prop :=
  (i, j) ∈ proposedPairs infos ∨ (j, i) ∈ proposedPairs infos

theorem Proposed.symm {infos : List StmtInfo} {i j : ℕ} (h : Proposed infos i j) :
    Proposed infos j i := Or.symm h

theorem candidate_of_proposed {infos : List StmtInfo} {i j : ℕ} (hij : i < j)
    (h : Proposed infos i j) : (i, j) ∈ candidates infos := by
  rw [mem_candidates]
  rcases h with h | h
  · exact ⟨(i, j), h, by simp; omega, by simp; omega⟩
  · exact ⟨(j, i), h, by simp; omega, by simp; omega⟩

section Proposals

variable {infos : List StmtInfo} {i j : ℕ} {a b : StmtInfo}

theorem proposed_seq (ha : infos[i]? = some a) (hj : j < infos.length) (hseq : a.isSeq = true) :
    Proposed infos i j := by
  left
  simp only [proposedPairs, List.mem_append]
  refine Or.inl (Or.inl (Or.inl (Or.inl ?_)))
  exact List.mem_flatMap.mpr ⟨i, mem_flagged.mpr ⟨a, ha, hseq⟩,
    List.mem_map.mpr ⟨j, List.mem_range.mpr hj, rfl⟩⟩

theorem proposed_def_read (ha : infos[i]? = some a) (hb : infos[j]? = some b) {v : String}
    (hva : v ∈ a.defines) (hvb : v ∈ b.reads) : Proposed infos i j := by
  have hd : i ∈ filed (varDefiners infos) v :=
    (mem_filed_bucketize _ _ _ _).mpr ⟨a, ha, mem_sortedNames.mpr hva⟩
  have hr : j ∈ filed (varReaders infos) v :=
    (mem_filed_bucketize _ _ _ _).mpr ⟨b, hb, mem_sortedNames.mpr hvb⟩
  left
  simp only [proposedPairs, List.mem_append]
  refine Or.inl (Or.inl (Or.inl (Or.inr ?_)))
  refine List.mem_flatMap.mpr ⟨_, mem_of_mem_filed hd, List.mem_append_right _ ?_⟩
  cases hl : (varReaders infos).lookup v with
  | none => simp [filed, hl] at hr
  | some readers =>
    have hjr : j ∈ readers := by simpa [filed, hl] using hr
    exact List.mem_flatMap.mpr ⟨i, hd, List.mem_map.mpr ⟨j, hjr, rfl⟩⟩

theorem proposed_def_def (ha : infos[i]? = some a) (hb : infos[j]? = some b) (hij : i ≠ j)
    {v : String} (hva : v ∈ a.defines) (hvb : v ∈ b.defines) : Proposed infos i j := by
  have hd : i ∈ filed (varDefiners infos) v :=
    (mem_filed_bucketize _ _ _ _).mpr ⟨a, ha, mem_sortedNames.mpr hva⟩
  have hd' : j ∈ filed (varDefiners infos) v :=
    (mem_filed_bucketize _ _ _ _).mpr ⟨b, hb, mem_sortedNames.mpr hvb⟩
  have hlift : ∀ q ∈ pairsOf (filed (varDefiners infos) v), q ∈ proposedPairs infos := by
    intro q hq
    simp only [proposedPairs, List.mem_append]
    exact Or.inl (Or.inl (Or.inl (Or.inr
      (List.mem_flatMap.mpr ⟨_, mem_of_mem_filed hd, List.mem_append_left _ hq⟩))))
  exact (mem_pairsOf hd hd' hij).imp (hlift _) (hlift _)

theorem proposed_resource (ha : infos[i]? = some a) (hb : infos[j]? = some b) (hij : i ≠ j)
    {ae be : StmtEffect} (hae : ae ∈ a.effects) (hbe : be ∈ b.effects)
    (hr : ae.resource = be.resource) : Proposed infos i j := by
  have hd : i ∈ filed (resourceStmts infos) ae.resource :=
    (mem_filed_bucketize _ _ _ _).mpr ⟨a, ha, List.mem_map.mpr ⟨ae, hae, rfl⟩⟩
  have hd' : j ∈ filed (resourceStmts infos) ae.resource :=
    (mem_filed_bucketize _ _ _ _).mpr ⟨b, hb, List.mem_map.mpr ⟨be, hbe, hr.symm⟩⟩
  have hlift : ∀ q ∈ pairsOf (filed (resourceStmts infos) ae.resource), q ∈ proposedPairs infos := by
    intro q hq
    simp only [proposedPairs, List.mem_append]
    exact Or.inr (List.mem_flatMap.mpr ⟨_, mem_of_mem_filed hd, hq⟩)
  exact (mem_pairsOf hd hd' hij).imp (hlift _) (hlift _)

theorem proposed_poly_poly (ha : infos[i]? = some a) (hb : infos[j]? = some b) (hij : i ≠ j)
    (hpa : a.callsPolymorphic = true) (hpb : b.callsPolymorphic = true) : Proposed infos i j := by
  have hlift : ∀ q ∈ pairsOf (polyStmts infos), q ∈ proposedPairs infos := by
    intro q hq
    simp only [proposedPairs, List.mem_append]
    exact Or.inl (Or.inl (Or.inr hq))
  exact (mem_pairsOf (mem_flagged.mpr ⟨a, ha, hpa⟩) (mem_flagged.mpr ⟨b, hb, hpb⟩) hij).imp
    (hlift _) (hlift _)

theorem proposed_poly_effectful (ha : infos[i]? = some a) (hb : infos[j]? = some b)
    (hpa : a.callsPolymorphic = true) (hpb : (!b.effects.isEmpty) = true) : Proposed infos i j := by
  left
  simp only [proposedPairs, List.mem_append]
  refine Or.inl (Or.inr ?_)
  exact List.mem_flatMap.mpr ⟨i, mem_flagged.mpr ⟨a, ha, hpa⟩,
    List.mem_map.mpr ⟨j, mem_flagged.mpr ⟨b, hb, hpb⟩, rfl⟩⟩

theorem proposed_polymorphic_clash (ha : infos[i]? = some a) (hb : infos[j]? = some b) (hij : i ≠ j)
    (h : polymorphicClash a b = true) : Proposed infos i j := by
  unfold polymorphicClash at h
  rcases Bool.or_eq_true _ _ ▸ h with h | h
  · obtain ⟨hpa, h⟩ := Bool.and_eq_true _ _ ▸ h
    rcases Bool.or_eq_true _ _ ▸ h with hpb | hpb
    · exact proposed_poly_poly ha hb hij hpa hpb
    · exact proposed_poly_effectful ha hb hpa hpb
  · obtain ⟨hpb, hpa⟩ := Bool.and_eq_true _ _ ▸ h
    exact (proposed_poly_effectful hb ha hpb hpa).symm

theorem two_effects_conflict_resource {ae be : StmtEffect} (h : twoEffectsConflict ae be = true) :
    ae.resource = be.resource := by
  by_contra hne
  simp [twoEffectsConflict, hne] at h

theorem effects_clash_resource (h : effectsClash a b = true) :
    ∃ ae ∈ a.effects, ∃ be ∈ b.effects, ae.resource = be.resource := by
  unfold effectsClash effectsConflict effectsConflictExcludingNetwork at h
  split at h
  · obtain ⟨ae, hae, h⟩ := List.any_eq_true.mp h
    obtain ⟨be, hbe, h⟩ := List.any_eq_true.mp h
    split at h
    · simp at h
    · exact ⟨ae, hae, be, hbe, two_effects_conflict_resource h⟩
  · obtain ⟨ae, hae, h⟩ := List.any_eq_true.mp h
    obtain ⟨be, hbe, h⟩ := List.any_eq_true.mp h
    exact ⟨ae, hae, be, hbe, two_effects_conflict_resource h⟩

/-- Each of the five reasons of `statements_conflict` has a bucket that proposes the pair. -/
theorem proposed_of_conflict (ha : infos[i]? = some a) (hb : infos[j]? = some b) (hij : i ≠ j)
    (h : statementsConflict a b = true) : Proposed infos i j := by
  rcases (statements_conflict_iff a b).mp h with (h | h) | (h | h) | h | h | h
  · exact proposed_seq ha (List.getElem?_eq_some_iff.mp hb).1 h
  · exact (proposed_seq hb (List.getElem?_eq_some_iff.mp ha).1 h).symm
  · obtain ⟨v, hv, hv'⟩ := Finset.not_disjoint_iff.mp h
    exact proposed_def_read ha hb hv hv'
  · obtain ⟨v, hv, hv'⟩ := Finset.not_disjoint_iff.mp h
    exact (proposed_def_read hb ha hv hv').symm
  · obtain ⟨v, hv, hv'⟩ := Finset.not_disjoint_iff.mp h
    exact proposed_def_def ha hb hij hv hv'
  · exact proposed_polymorphic_clash ha hb hij h
  · obtain ⟨ae, hae, be, hbe, hr⟩ := effects_clash_resource h
    exact proposed_resource ha hb hij hae hbe hr

end Proposals

theorem getElem?_of_lt {infos : List StmtInfo} {i : ℕ} (h : i < infos.length) :
    infos[i]? = some (infos.getD i {}) := by
  rw [List.getD_eq_getElem _ _ h, List.getElem?_eq_getElem h]

/-- The confirmed candidates are exactly the conflicting pairs. -/
theorem mem_confirmed (infos : List StmtInfo) (e : ℕ × ℕ) :
    e ∈ (candidates infos).filter (fun p => conflictAt infos p.1 p.2) ↔
      e ∈ (densePairs infos.length).filter fun p => conflictAt infos p.1 p.2 := by
  rw [Finset.mem_filter, List.mem_filter, mem_densePairs]
  constructor
  · rintro ⟨hc, h⟩
    obtain ⟨q, hq, hne, rfl⟩ := mem_candidates.mp hc
    have hb := proposed_bound hq
    exact ⟨by simp only; omega, h⟩
  · rintro ⟨⟨hlt, hn⟩, h⟩
    refine ⟨candidate_of_proposed hlt ?_, h⟩
    exact proposed_of_conflict (getElem?_of_lt (by omega)) (getElem?_of_lt hn) (by omega) h

/-- The sparse edge list is the dense one, in the dense order. -/
theorem edges_eq_dense (infos : List StmtInfo) :
    edges infos = (densePairs infos.length).filter fun e => conflictAt infos e.1 e.2 := by
  have hset : (candidates infos).filter (fun p => conflictAt infos p.1 p.2) =
      ((densePairs infos.length).filter fun p => conflictAt infos p.1 p.2).toFinset := by
    ext e
    rw [mem_confirmed, List.mem_toFinset]
  rw [edges, hset]
  exact (List.toFinset_sort edgeLE ((densePairs_nodup _).filter _)).mpr
    ((densePairs_sorted _).filter _)

theorem addEdge_length (nb : List (Finset ℕ)) (e : ℕ × ℕ) : (addEdge nb e).length = nb.length := by
  simp [addEdge]

theorem mem_modify_insert {nb : List (Finset ℕ)} {i j x y : ℕ} (hi : i < nb.length) :
    j ∈ (nb.modify x (insert y)).getD i ∅ ↔ j ∈ nb.getD i ∅ ∨ (i = x ∧ j = y) := by
  have hi' : i < (nb.modify x (insert y)).length := by simpa using hi
  rw [List.getD_eq_getElem _ _ hi', List.getD_eq_getElem _ _ hi, List.getElem_modify]
  by_cases h : x = i
  · simp [h, Finset.mem_insert, or_comm]
  · simp [h, Ne.symm h]

theorem mem_addEdge {nb : List (Finset ℕ)} {e : ℕ × ℕ} {i j : ℕ} (hi : i < nb.length) :
    j ∈ (addEdge nb e).getD i ∅ ↔ j ∈ nb.getD i ∅ ∨ (i, j) = e ∨ (j, i) = e := by
  obtain ⟨lo, hi'⟩ := e
  unfold addEdge
  rw [mem_modify_insert (by simpa using hi), mem_modify_insert hi, or_assoc]
  simp only [Prod.mk.injEq, and_comm (a := i = hi')]

theorem mem_fold_addEdge (es : List (ℕ × ℕ)) (nb : List (Finset ℕ)) {i j : ℕ} (hi : i < nb.length) :
    j ∈ (es.foldl addEdge nb).getD i ∅ ↔ j ∈ nb.getD i ∅ ∨ (i, j) ∈ es ∨ (j, i) ∈ es := by
  induction es generalizing nb with
  | nil => simp
  | cons e es ih =>
    rw [List.foldl_cons, ih _ (by rwa [addEdge_length]), mem_addEdge hi]
    simp only [List.mem_cons]
    tauto

theorem graph_conflicts_iff (infos : List StmtInfo) {i j : ℕ} (hi : i < infos.length) :
    (buildConflictGraph infos).1.conflicts i j = true ↔ (i, j) ∈ edges infos ∨ (j, i) ∈ edges infos := by
  unfold buildConflictGraph ConflictGraph.conflicts
  rw [decide_eq_true_iff, mem_fold_addEdge _ _ (by simpa using hi), List.getD_eq_getElem _ _ (by simpa using hi)]
  simp

theorem mem_edges {infos : List StmtInfo} {i j : ℕ} :
    (i, j) ∈ edges infos ↔ i < j ∧ j < infos.length ∧ conflictAt infos i j = true := by
  rw [edges_eq_dense, List.mem_filter, mem_densePairs, and_assoc]

/-- For every list of statement infos the sparse graph is the dense one: an edge for a pair of
distinct statements exactly when `statements_conflict` holds of them in source order; edges and
the predicate are symmetric; `conflict_detail` explains exactly the conflicting pairs; and the
serialization points are those of the all-pairs loop, one for each conflicting pair in its order. -/
theorem build_conflict_graph_eq_dense (infos : List StmtInfo) :
    (∀ i j, i < infos.length → j < infos.length → i ≠ j →
      ((buildConflictGraph infos).1.conflicts i j = true ↔
        statementsConflict (infos.getD (min i j) {}) (infos.getD (max i j) {}) = true)) ∧
    (∀ i j, i < infos.length → j < infos.length →
      (buildConflictGraph infos).1.conflicts i j = (buildConflictGraph infos).1.conflicts j i) ∧
    (∀ a b, statementsConflict a b = statementsConflict b a) ∧
    (∀ a b, (conflictDetail a b).isSome = statementsConflict a b) ∧
    (buildConflictGraph infos).2 = denseSerializationPoints infos ∧
    (buildConflictGraph infos).2.map (·.statementIndices) =
      ((densePairs infos.length).filter fun e => conflictAt infos e.1 e.2).map fun e => [e.1, e.2] := by
  have hpoints : (buildConflictGraph infos).2 = denseSerializationPoints infos := by
    unfold buildConflictGraph denseSerializationPoints
    rw [edges_eq_dense]
  refine ⟨?_, ?_, statements_conflict_comm, conflict_detail_isSome, hpoints, ?_⟩
  · intro i j hi hj hij
    rw [graph_conflicts_iff infos hi, mem_edges, mem_edges]
    rcases Nat.lt_or_gt_of_ne hij with h | h
    · rw [Nat.min_eq_left h.le, Nat.max_eq_right h.le]
      exact ⟨fun hc => (hc.resolve_right fun hr => by omega).2.2, fun hc => Or.inl ⟨h, hj, hc⟩⟩
    · rw [Nat.min_eq_right h.le, Nat.max_eq_left h.le]
      exact ⟨fun hc => (hc.resolve_left fun hr => by omega).2.2, fun hc => Or.inr ⟨h, hi, hc⟩⟩
  · intro i j hi hj
    rw [Bool.eq_iff_iff, graph_conflicts_iff infos hi, graph_conflicts_iff infos hj]
    exact or_comm
  · rw [hpoints, denseSerializationPoints, List.map_filterMap]
    -- every surviving pair conflicts, so its report exists and carries its indices
    refine List.filterMap_eq_map_iff_forall_eq_some.mpr ?_
    intro e he
    have hc : conflictAt infos e.1 e.2 = true := (List.mem_filter.mp he).2
    have hs := conflict_detail_isSome (infos.getD e.1 {}) (infos.getD e.2 {})
    rw [show statementsConflict (infos.getD e.1 {}) (infos.getD e.2 {}) = true from hc] at hs
    obtain ⟨sp, hsp⟩ := Option.isSome_iff_exists.mp hs
    simp only [serializationPoint, hsp, Option.map_some]

theorem build_conflict_graph_write_read :
    (buildConflictGraph [{ defines := {"x"} }, { reads := {"x"} }]).1.conflicts 1 0 = true :=
  ((build_conflict_graph_eq_dense [{ defines := {"x"} }, { reads := {"x"} }]).1 1 0
    (by decide) (by decide) (by decide)).mpr (by decide)

end Karac.Concurrency
