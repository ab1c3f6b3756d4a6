import Mathlib

/-! The pairwise dependency tests of the auto-parallelizer: `statements_conflict`, the
effect-conflict table, and the serialization-point report `conflict_detail`. The two predicates
are written separately in the source; this file proves that they accept the same pairs. -/

namespace Karac.Concurrency

inductive EffectVerbKind where
  | reads
  | writes
  | sends
  | receives
  | allocates
  | panics
  | blocks
  | suspends
  | userDefined (name : String)
deriving DecidableEq, Repr

/-- An effect of a statement. `key` is the partition key of a parameterized resource when it is a
compile-time literal at the call site. -/
structure StmtEffect where
  verb : EffectVerbKind
  resource : String
  sourceCallee : Option String := none
  key : Option String := none
deriving DecidableEq, Repr

/-- The per-statement metadata `analyze_stmt` extracts. -/
structure StmtInfo where
  defines : Finset String := ∅
  letIntroduced : Finset String := ∅
  reads : Finset String := ∅
  calledFnNames : Finset String := ∅
  effects : List StmtEffect := []
  callsPolymorphic : Bool := false
  isSeq : Bool := false
  hasEarlyExit : Bool := false
  hasChannelOp : Bool := false
  hasConsoleOutput : Bool := false
  isTimerSuspend : Bool := false
  isSafeNetworkFanout : Bool := false
  isEphemeralNetworkFanout : Bool := false
  methodFanoutReceiverRoot : Option String := none
  isConstantInit : Bool := false

def isConsoleResource (resource : String) : Bool :=
  resource == "Stdout" || resource == "Stderr"

def channelResourceCanonical : String := "Channel"

/-- Do two effects conflict? Different resources never do, nor do two distinct literal partition
keys of one resource; otherwise the verbs decide. -/
def twoEffectsConflict (a b : StmtEffect) : Bool :=
  if a.resource ≠ b.resource then false
  else if (match a.key, b.key with
      | some ka, some kb => decide (ka ≠ kb)
      | _, _ => false) then false
  else match a.verb, b.verb with
    | .reads, .reads => false
    | .reads, .writes => true
    | .writes, .reads => true
    -- console writes are captured per branch and replayed in source order at the join
    | .writes, .writes => !isConsoleResource a.resource
    | .sends, .sends => !decide (a.resource = channelResourceCanonical)
    | .receives, .receives => !decide (a.resource = channelResourceCanonical)
    | .sends, .receives => false
    | .receives, .sends => false
    | .allocates, .allocates => false
    | .panics, .panics => false
    | .blocks, .blocks => false
    | .suspends, .suspends => false
    | .userDefined va, .userDefined vb => decide (va = vb)
    | _, _ => false

def effectsConflict (aEffects bEffects : List StmtEffect) : Bool :=
  aEffects.any fun a => bEffects.any fun b => twoEffectsConflict a b

/-- `effects_conflict` without the pairs in which both sides touch `Network`. -/
def effectsConflictExcludingNetwork (aEffects bEffects : List StmtEffect) : Bool :=
  aEffects.any fun a => bEffects.any fun b =>
    if a.resource = "Network" ∧ b.resource = "Network" then false else twoEffectsConflict a b

def statementsConflict (a b : StmtInfo) : Bool :=
  if a.isSeq || b.isSeq then true
  else if ¬ Disjoint a.defines b.reads ∨ ¬ Disjoint b.defines a.reads then true
  else if ¬ Disjoint a.defines b.defines then true
  else if a.callsPolymorphic && (b.callsPolymorphic || !b.effects.isEmpty) then true
  else if b.callsPolymorphic && !a.effects.isEmpty then true
  else if a.isEphemeralNetworkFanout && b.isEphemeralNetworkFanout then
    effectsConflictExcludingNetwork a.effects b.effects
  else match a.methodFanoutReceiverRoot, b.methodFanoutReceiverRoot with
    | some ra, some rb =>
        if ra ≠ rb then effectsConflictExcludingNetwork a.effects b.effects
        else effectsConflict a.effects b.effects
    | _, _ => effectsConflict a.effects b.effects

inductive DataDepKind where
  | raw
  | war
  | writeWrite
deriving DecidableEq, Repr

inductive SerializationCause where
  | seqOrdering
  | dataDependency (kind : DataDepKind) (vars : List String)
  | polymorphicEffect
  | effectConflict (resource : String) (verbs : EffectVerbKind × EffectVerbKind)
deriving DecidableEq, Repr

structure SerializationPoint where
  statementIndices : List ℕ := []
  reason : String
  resource : String
  blockingCallees : List String
  cause : SerializationCause
deriving DecidableEq, Repr

def effectVerbLabel : EffectVerbKind → String
  | .reads => "reads"
  | .writes => "writes"
  | .sends => "sends"
  | .receives => "receives"
  | .allocates => "allocates"
  | .panics => "panics"
  | .blocks => "blocks"
  | .suspends => "suspends"
  | .userDefined s => s

/-- Names in back quotes, comma separated, as the reasons print them. -/
def quotedNames (names : List String) : String :=
  ", ".intercalate (names.map fun s => "`" ++ s ++ "`")

/-- The state of `conflict_detail`'s scan over effect pairs: the resource and verbs of the first
conflicting pair, and the callees of every conflicting pair on that resource. -/
structure EffectScan where
  resource : String := ""
  verbs : Option (EffectVerbKind × EffectVerbKind) := none
  callees : Finset String := ∅

def optionSet : Option String → Finset String
  | some c => {c}
  | none => ∅

def scanEffectPair (skipNetwork : Bool) (ae be : StmtEffect) (st : EffectScan) : EffectScan :=
  if skipNetwork && decide (ae.resource = "Network") && decide (be.resource = "Network") then st
  else if twoEffectsConflict ae be then
    let st := match st.verbs with
      | none => { st with resource := ae.resource, verbs := some (ae.verb, be.verb) }
      | some _ => st
    if ae.resource = be.resource ∧ ae.resource = st.resource then
      { st with callees := st.callees ∪ optionSet ae.sourceCallee ∪ optionSet be.sourceCallee }
    else st
  else st

def scanEffects (skipNetwork : Bool) (aEffects bEffects : List StmtEffect) : EffectScan :=
  aEffects.foldl (fun st ae => bEffects.foldl (fun st be => scanEffectPair skipNetwork ae be st) st) {}

/-- Whether the pair gets the `Network`-to-`Network` relaxation: two ephemeral fan-outs, or two
method fan-outs on different receivers. -/
def skipNetwork (a b : StmtInfo) : Bool :=
  (a.isEphemeralNetworkFanout && b.isEphemeralNetworkFanout) ||
    match a.methodFanoutReceiverRoot, b.methodFanoutReceiverRoot with
    | some ra, some rb => decide (ra ≠ rb)
    | _, _ => false

/-- Names in the order in which they are reported. -/
def sortedNames (names : Finset String) : List String := names.sort

/-- Explain a conflicting pair (`a` the earlier statement). The caller fills in
`statementIndices`. -/
def conflictDetail (a b : StmtInfo) : Option SerializationPoint :=
  if a.isSeq || b.isSeq then
    some { reason := "explicit seq ordering", resource := "", blockingCallees := [],
           cause := .seqOrdering }
  else
    let dep := sortedNames (a.defines ∩ b.reads ∪ b.defines ∩ a.reads)
    if dep ≠ [] then
      let kind := if (a.defines ∩ b.reads).Nonempty then DataDepKind.raw else DataDepKind.war
      some { reason := "data dependency on " ++ quotedNames dep, resource := "",
             blockingCallees := [], cause := .dataDependency kind dep }
    else
      let ww := sortedNames (a.defines ∩ b.defines)
      if ww ≠ [] then
        some { reason := "both assign " ++ quotedNames ww, resource := "", blockingCallees := [],
               cause := .dataDependency .writeWrite ww }
      else if (a.callsPolymorphic && (b.callsPolymorphic || !b.effects.isEmpty)) ||
          (b.callsPolymorphic && !a.effects.isEmpty) then
        some { reason := "polymorphic-effect call — effects unknown at analysis time",
               resource := "", blockingCallees := [], cause := .polymorphicEffect }
      else
        let st := scanEffects (skipNetwork a b) a.effects b.effects
        match st.verbs with
        | some (va, vb) =>
            some { reason := effectVerbLabel va ++ "(" ++ st.resource ++ ") conflicts with " ++
                     effectVerbLabel vb ++ "(" ++ st.resource ++ ")",
                   resource := st.resource, blockingCallees := sortedNames st.callees,
                   cause := .effectConflict st.resource (va, vb) }
        | none => none

/-! Symmetry of the predicates. -/

theorem two_effects_conflict_comm (a b : StmtEffect) :
    twoEffectsConflict a b = twoEffectsConflict b a := by
  unfold twoEffectsConflict
  by_cases hr : a.resource = b.resource
  · have hkey : (match a.key, b.key with
        | some ka, some kb => decide (ka ≠ kb)
        | _, _ => false) = (match b.key, a.key with
        | some ka, some kb => decide (ka ≠ kb)
        | _, _ => false) := by
      cases a.key <;> cases b.key <;> first | rfl | exact decide_eq_decide.mpr ne_comm
    rw [hkey, hr]
    cases a.verb <;> cases b.verb <;>
      first | rfl | simp only [eq_comm]
  · simp [hr, Ne.symm hr]

theorem any_any_comm {α : Type} (f g : α → α → Bool) (hfg : ∀ x y, f x y = g y x)
    (xs ys : List α) :
    (xs.any fun x => ys.any fun y => f x y) = (ys.any fun y => xs.any fun x => g y x) := by
  rw [Bool.eq_iff_iff]
  simp only [List.any_eq_true, hfg]
  exact ⟨fun ⟨x, hx, y, hy, h⟩ => ⟨y, hy, x, hx, h⟩, fun ⟨y, hy, x, hx, h⟩ => ⟨x, hx, y, hy, h⟩⟩

theorem effects_conflict_comm (xs ys : List StmtEffect) :
    effectsConflict xs ys = effectsConflict ys xs :=
  any_any_comm _ _ two_effects_conflict_comm xs ys

theorem effects_conflict_excluding_network_comm (xs ys : List StmtEffect) :
    effectsConflictExcludingNetwork xs ys = effectsConflictExcludingNetwork ys xs := by
  refine any_any_comm _ _ (fun x y => ?_) xs ys
  rw [two_effects_conflict_comm x y]
  simp only [and_comm]

theorem skip_network_comm (a b : StmtInfo) : skipNetwork a b = skipNetwork b a := by
  unfold skipNetwork
  cases a.methodFanoutReceiverRoot <;> cases b.methodFanoutReceiverRoot <;>
    simp [eq_comm, Bool.and_comm]

/-- The effect test both predicates end in. -/
def effectsClash (a b : StmtInfo) : Bool :=
  if skipNetwork a b then effectsConflictExcludingNetwork a.effects b.effects
  else effectsConflict a.effects b.effects

/-- One of the two statements has unknown effects and the other some effect activity. -/
def polymorphicClash (a b : StmtInfo) : Bool :=
  (a.callsPolymorphic && (b.callsPolymorphic || !b.effects.isEmpty)) ||
    (b.callsPolymorphic && !a.effects.isEmpty)

theorem effects_clash_comm (a b : StmtInfo) : effectsClash a b = effectsClash b a := by
  unfold effectsClash
  rw [skip_network_comm, effects_conflict_comm, effects_conflict_excluding_network_comm]

theorem polymorphic_clash_comm (a b : StmtInfo) : polymorphicClash a b = polymorphicClash b a := by
  unfold polymorphicClash
  cases a.callsPolymorphic <;> cases b.callsPolymorphic <;> simp

/-- `statements_conflict` as one disjunction of its five reasons. -/
theorem statements_conflict_iff (a b : StmtInfo) :
    statementsConflict a b = true ↔
      (a.isSeq = true ∨ b.isSeq = true) ∨
      (¬ Disjoint a.defines b.reads ∨ ¬ Disjoint b.defines a.reads) ∨
      ¬ Disjoint a.defines b.defines ∨ polymorphicClash a b = true ∨ effectsClash a b = true := by
  have htail : (if a.isEphemeralNetworkFanout && b.isEphemeralNetworkFanout then
      effectsConflictExcludingNetwork a.effects b.effects
    else match a.methodFanoutReceiverRoot, b.methodFanoutReceiverRoot with
      | some ra, some rb =>
          if ra ≠ rb then effectsConflictExcludingNetwork a.effects b.effects
          else effectsConflict a.effects b.effects
      | _, _ => effectsConflict a.effects b.effects) = effectsClash a b := by
    unfold effectsClash skipNetwork
    cases a.isEphemeralNetworkFanout && b.isEphemeralNetworkFanout <;>
      cases a.methodFanoutReceiverRoot <;> cases b.methodFanoutReceiverRoot <;> simp
  unfold statementsConflict
  rw [htail]
  unfold polymorphicClash
  split_ifs with h1 h2 h3 h4 h5 <;> simp_all

theorem statements_conflict_comm (a b : StmtInfo) :
    statementsConflict a b = statementsConflict b a := by
  rw [Bool.eq_iff_iff, statements_conflict_iff, statements_conflict_iff,
    polymorphic_clash_comm, effects_clash_comm]
  constructor
  · rintro (h | h | h | h)
    · exact Or.inl h.symm
    · exact Or.inr (Or.inl h.symm)
    · exact Or.inr (Or.inr (Or.inl fun hd => h hd.symm))
    · exact Or.inr (Or.inr (Or.inr h))
  · rintro (h | h | h | h)
    · exact Or.inl h.symm
    · exact Or.inr (Or.inl h.symm)
    · exact Or.inr (Or.inr (Or.inl fun hd => h hd.symm))
    · exact Or.inr (Or.inr (Or.inr h))

/-! The scan of `conflict_detail` finds a pair exactly when the effect test succeeds. -/

/-- A pair the scan looks at and finds in conflict. -/
def pairClash (skip : Bool) (ae be : StmtEffect) : Bool :=
  !(skip && decide (ae.resource = "Network") && decide (be.resource = "Network")) &&
    twoEffectsConflict ae be

theorem scan_effect_pair_verbs (skip : Bool) (ae be : StmtEffect) (st : EffectScan) :
    (scanEffectPair skip ae be st).verbs.isSome = (st.verbs.isSome || pairClash skip ae be) := by
  unfold scanEffectPair pairClash
  cases (skip && decide (ae.resource = "Network") && decide (be.resource = "Network")) with
  | true => simp
  | false =>
    cases twoEffectsConflict ae be with
    | false => simp
    | true => cases hv : st.verbs <;> simp only [] <;> split_ifs <;> simp_all

theorem scan_inner_verbs (skip : Bool) (ae : StmtEffect) (bs : List StmtEffect) (st : EffectScan) :
    (bs.foldl (fun st be => scanEffectPair skip ae be st) st).verbs.isSome =
      (st.verbs.isSome || bs.any fun be => pairClash skip ae be) := by
  induction bs generalizing st with
  | nil => simp
  | cons be bs ih =>
    rw [List.foldl_cons, ih, scan_effect_pair_verbs, List.any_cons, Bool.or_assoc]

theorem scan_effects_verbs (skip : Bool) (as bs : List StmtEffect) :
    (scanEffects skip as bs).verbs.isSome = as.any fun ae => bs.any fun be => pairClash skip ae be := by
  have hgen : ∀ (as : List StmtEffect) (st : EffectScan),
      (as.foldl (fun st ae => bs.foldl (fun st be => scanEffectPair skip ae be st) st) st).verbs.isSome =
        (st.verbs.isSome || as.any fun ae => bs.any fun be => pairClash skip ae be) := by
    intro as
    induction as with
    | nil => intro st; simp
    | cons ae as ih =>
      intro st
      rw [List.foldl_cons, ih, scan_inner_verbs, List.any_cons, Bool.or_assoc]
  rw [scanEffects, hgen]
  simp

theorem scan_effects_clash (a b : StmtInfo) :
    (scanEffects (skipNetwork a b) a.effects b.effects).verbs.isSome = effectsClash a b := by
  rw [scan_effects_verbs]
  unfold effectsClash pairClash effectsConflict effectsConflictExcludingNetwork
  cases skipNetwork a b with
  | false => simp
  | true =>
    simp only [Bool.true_and, if_true]
    congr 1; funext ae; congr 1; funext be
    by_cases h1 : ae.resource = "Network" <;> by_cases h2 : be.resource = "Network" <;> simp [h1, h2]

@[simp] theorem mem_sortedNames {name : String} {names : Finset String} :
    name ∈ sortedNames names ↔ name ∈ names :=
  Finset.mem_sort _

theorem sortedNames_ne_nil (s : Finset String) : sortedNames s ≠ [] ↔ s.Nonempty := by
  unfold sortedNames
  rw [Finset.nonempty_iff_ne_empty, not_iff_not]
  constructor
  · intro h
    rw [← Finset.sort_toFinset s (· ≤ ·), h]
    rfl
  · rintro rfl
    simp

/-- The two predicates agree: a pair is explained exactly when it conflicts. -/
theorem conflict_detail_isSome (a b : StmtInfo) :
    (conflictDetail a b).isSome = statementsConflict a b := by
  rw [Bool.eq_iff_iff, statements_conflict_iff, ← scan_effects_clash]
  simp only [Finset.not_disjoint_iff_nonempty_inter]
  unfold conflictDetail
  simp only [sortedNames_ne_nil, Finset.union_nonempty]
  rw [show ((a.callsPolymorphic && (b.callsPolymorphic || !b.effects.isEmpty)) ||
    (b.callsPolymorphic && !a.effects.isEmpty)) = polymorphicClash a b from rfl]
  by_cases h1 : (a.isSeq || b.isSeq) = true
  · rw [if_pos h1]
    simpa using Or.inl (by simpa using h1)
  rw [if_neg h1]
  have hseq : ¬ (a.isSeq = true ∨ b.isSeq = true) := by simpa using h1
  by_cases h2 : (a.defines ∩ b.reads).Nonempty ∨ (b.defines ∩ a.reads).Nonempty
  · rw [if_pos h2]
    simp [h2]
  rw [if_neg h2]
  by_cases h3 : (a.defines ∩ b.defines).Nonempty
  · rw [if_pos h3]
    simp [h3]
  rw [if_neg h3]
  by_cases h4 : polymorphicClash a b = true
  · rw [if_pos h4]
    simp [h4]
  rw [if_neg h4]
  cases hv : (scanEffects (skipNetwork a b) a.effects b.effects).verbs <;> simp [hseq, h2, h3, h4]

end Karac.Concurrency
