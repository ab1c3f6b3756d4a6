import Karac.Flow.Cfg
import Karac.Lib.Worklist

/-! The predicates over the use sites of a binding: consumes and uses in blocks neither of which
dominates the other, uses after a consume, and consumes in natural loops. -/

namespace Karac.Flow

/-- A use with its block and its index in it. -/
structure Site where
  block : BlockId
  idx : ℕ
  use : UseSite
  deriving DecidableEq, Repr

structure RcWitness where
  binding : String
  consumeSpan : Span
  otherUseSpan : Span
  consumeBlock : BlockId
  otherBlock : BlockId
  consumeOrigin : ConsumeOrigin
  deriving DecidableEq, Repr

structure UamWitness where
  binding : String
  consumeSpan : Span
  otherUseSpan : Span
  consumeBlock : BlockId
  otherBlock : BlockId
  deriving DecidableEq, Repr

def blockSites (b : BasicBlock) : List Site := b.uses.zipIdx.map fun ui => ⟨b.id, ui.2, ui.1⟩

def allSites (cfg : Cfg) : List Site := cfg.blocks.flatMap blockSites

/-- The bindings with their bucket of sites, in block and source order. -/
def collectUseSites (cfg : Cfg) : List (String × List Site) :=
  ((allSites cfg).map fun s => s.use.binding).dedup.map fun x =>
    (x, (allSites cfg).filter fun s => s.use.binding == x)

section Kills

variable (dominates : BlockId → BlockId → Bool) (uses : List Site)

def precedes (a b : Site) : Bool := if a.block = b.block then decide (a.idx < b.idx) else dominates a.block b.block

/-- Some reassignment of the consumed place stands between the two in the precedence order. -/
def reassignKills (c u : Site) : Bool :=
  uses.any fun r =>
    r.use.kind == .reassign && placeRebindCovers r.use.place c.use.place && precedes dominates c r && precedes dominates r u

def isRebind (consumed : PlacePath) (u : UseSite) : Bool :=
  (u.kind == .reassign || u.kind == .define) && placeRebindCovers u.place consumed

variable (cfg : Cfg)

def successorsOf (b : BlockId) : List BlockId := (cfg.block b).successors

/-- Forward reachability past the blocked blocks; the fuel covers every pop. -/
def reach (blocked : Finset BlockId) (start target : BlockId) : Bool :=
  let stack := (successorsOf cfg start).reverse
  let fuel := Lib.Worklist.searchCost (successorsOf cfg) (Finset.range cfg.numBlocks) ∅ stack + 1
  (Lib.Worklist.search (successorsOf cfg) (fun n => decide (n ∈ blocked)) target fuel ∅ stack).getD false

/-- Every path from the consume to the use passes a rebind of what was consumed. -/
def reassignKillsByReachability (c u : Site) : Bool :=
  let rebinds := uses.filter fun r => isRebind c.use.place r.use
  if rebinds.any fun r => decide (r.block = c.block ∧ r.idx > c.idx) then true
  else if rebinds.any fun r => decide (r.block = u.block ∧ r.idx < u.idx) then true
  else
    let forbidden := ((rebinds.filter fun r => decide (r.block ≠ c.block ∧ r.block ≠ u.block)).map Site.block).toFinset
    if forbidden = ∅ then false
    else reach cfg ∅ c.block u.block && !reach cfg forbidden c.block u.block

def cfgReaches (source target : BlockId) : Bool := reach cfg ∅ source target

end Kills

section Rc

variable (dominates : BlockId → BlockId → Bool) (uses : List Site) (cfg : Cfg)

/-- A covering rebind, or a use of a disjoint place, is no partner of the consume. -/
def notPartner (c u : Site) : Bool :=
  ((u.use.kind == .reassign || u.use.kind == .define) && placeRebindCovers u.use.place c.use.place) ||
    placePathsDisjoint c.use.place u.use.place

/-- The block of the consume leaves the function. -/
def cTerminates (c : Site) : Bool :=
  let succ := successorsOf cfg c.block
  !succ.isEmpty && succ.all fun s => decide (s = cfg.exit)

/-- The pairs `first_witness` passes over. -/
def rcSkips (c u : Site) : Bool :=
  notPartner c u || (dominates c.block u.block || dominates u.block c.block) || reassignKills dominates uses c u ||
    reassignKillsByReachability uses cfg c u ||
    (c.use.consumeOrigin == .direct && cTerminates cfg c && !decide (u.block ∈ cfg.closureBodyBlocks)) ||
    (c.use.consumeOrigin == .direct && !decide (c.block ∈ cfg.closureBodyBlocks) &&
      !decide (u.block ∈ cfg.closureBodyBlocks) && !cfgReaches cfg c.block u.block)

def firstWitness (binding : String) : Option RcWitness :=
  uses.zipIdx.findSome? fun ci =>
    if ci.1.use.kind ≠ .consume then none
    else
      (uses.zipIdx.find? fun uj => decide (ci.2 ≠ uj.2) && !rcSkips dominates uses cfg ci.1 uj.1).map fun uj =>
        ⟨binding, ci.1.use.span, uj.1.use.span, ci.1.block, uj.1.block, ci.1.use.consumeOrigin⟩

/-- One witness a binding. -/
def rcCandidates : List RcWitness :=
  (collectUseSites cfg).filterMap fun bucket => firstWitness dominates bucket.2 cfg bucket.1

/-- The witness of one consume: the first use after it. -/
def uamWitness (binding : String) (ci : Site × ℕ) : Option UamWitness :=
  (uses.zipIdx.find? fun uj =>
    decide (ci.2 ≠ uj.2) && !notPartner ci.1 uj.1 && precedes dominates ci.1 uj.1 &&
      !reassignKills dominates uses ci.1 uj.1).map fun uj =>
        ⟨binding, ci.1.use.span, uj.1.use.span, ci.1.block, uj.1.block⟩

def uamWitnessesFrom (binding : String) (firstOnly : Bool) : List (Site × ℕ) → List UamWitness → List UamWitness
  | [], out => out
  | ci :: rest, out =>
    if ci.1.use.kind ≠ .consume then uamWitnessesFrom binding firstOnly rest out
    else
      let out := out ++ (uamWitness dominates uses binding ci).toList
      if firstOnly && !out.isEmpty then out else uamWitnessesFrom binding firstOnly rest out

def uamWitnessesForBinding (binding : String) (firstOnly : Bool) : List UamWitness :=
  uamWitnessesFrom dominates uses binding firstOnly uses.zipIdx []

def firstUamWitness (binding : String) : Option UamWitness := (uamWitnessesForBinding dominates uses binding true).head?

def directUamCandidates : List UamWitness :=
  (collectUseSites cfg).filterMap fun bucket => firstUamWitness dominates bucket.2 bucket.1

def directUamAllConsumeSites : List Span :=
  (collectUseSites cfg).flatMap fun bucket =>
    (uamWitnessesForBinding dominates bucket.2 bucket.1 false).map UamWitness.consumeSpan

/-- The blocks of the natural loop of a back edge from `b` to `v`; the fuel covers every pop. -/
def loopBody (b v : BlockId) : Finset BlockId :=
  let fuel := Lib.Worklist.collectCost (Finset.range cfg.numBlocks) {v, b} [b] + 1
  (Lib.Worklist.collect cfg.predecessors (fun n => decide (n = v)) fuel {v, b} [b]).getD ∅

def naturalLoops : List (Finset BlockId) :=
  (List.range cfg.numBlocks).flatMap fun b =>
    (successorsOf cfg b).filterMap fun v => if dominates v b then some (loopBody cfg b v) else none

/-- Some loop holds the consume and no rebind of what it consumes. -/
def loopFires (loops : List (Finset BlockId)) (c : Site) : Bool :=
  loops.any fun nloop =>
    decide (c.block ∈ nloop) && !uses.any fun r => isRebind c.use.place r.use && decide (r.block ∈ nloop)

def loopOfConsumeCandidates : List RcWitness :=
  let loops := naturalLoops dominates cfg
  if loops = [] then []
  else
    (collectUseSites cfg).filterMap fun bucket =>
      (bucket.2.find? fun c => c.use.kind == .consume && loopFires bucket.2 loops c).map fun c =>
        ⟨bucket.1, c.use.span, c.use.span, c.block, c.block, c.use.consumeOrigin⟩

end Rc

end Karac.Flow
