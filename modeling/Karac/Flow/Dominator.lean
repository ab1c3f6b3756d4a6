import Karac.Flow.Cfg

/-! The dominator tree of a control-flow graph: depth-first postorder, and parents met over the
predecessors until a sweep changes nothing. Loops run on fuel; running out is `none`. -/

namespace Karac.Flow

/-- Position of an unreachable block. -/
def UNDEFINED : ℕ := 2 ^ 64 - 1

structure DominatorTree where
  idoms : List (Option BlockId)
  rpo : List BlockId
  rpoIndex : List ℕ
  deriving DecidableEq, Repr

/-- The stack holds the open blocks, innermost first, each with its next successor. -/
structure DfsState where
  stack : List (BlockId × ℕ)
  visited : List Bool
  postorder : List BlockId
  deriving DecidableEq, Repr

section Postorder

variable (cfg : Cfg)

def dfsStart : DfsState :=
  ⟨[(cfg.entry, 0)], (List.replicate cfg.numBlocks false).set cfg.entry true, []⟩

/-- One turn of the depth-first loop, `none` on an empty stack. -/
def dfsStep (st : DfsState) : Option DfsState :=
  match st.stack with
  | [] => none
  | (b, idx) :: rest =>
    match (cfg.block b).successors[idx]? with
    | some s =>
      if st.visited[s]? = some true then some { st with stack := (b, idx + 1) :: rest }
      else some ⟨(s, 0) :: (b, idx + 1) :: rest, st.visited.set s true, st.postorder⟩
    | none => some ⟨rest, st.visited, st.postorder ++ [b]⟩

def dfsLoop : ℕ → DfsState → Option DfsState
  | 0, _ => none
  | fuel + 1, st =>
    match dfsStep cfg st with
    | some st' => dfsLoop fuel st'
    | none => some st

/-- Numbers the blocks from position `i` on. -/
def indexFrom : ℕ → List BlockId → List ℕ → List ℕ
  | _, [], index => index
  | i, b :: bs, index => indexFrom (i + 1) bs (index.set b i)

def reversePostorder (fuel : ℕ) : Option (List BlockId × List ℕ) :=
  (dfsLoop cfg fuel (dfsStart cfg)).map fun st =>
    let rpo := st.postorder.reverse
    (rpo, indexFrom 0 rpo (List.replicate cfg.numBlocks UNDEFINED))

end Postorder

section Intersect

variable (idom : List (Option BlockId)) (rpoIndex : List ℕ)

/-- The parent assigned so far. -/
def idomOf (b : BlockId) : Option BlockId := (idom[b]?).join

def position (b : BlockId) : ℕ := rpoIndex.getD b UNDEFINED

/-- The inner loop: the first finger goes up while it is deeper than the second. -/
def climb : ℕ → BlockId → BlockId → Option BlockId
  | 0, _, _ => none
  | fuel + 1, b1, b2 =>
    if position rpoIndex b1 > position rpoIndex b2 then
      (idomOf idom b1).bind fun d => climb fuel d b2
    else some b1

def intersect : ℕ → BlockId → BlockId → Option BlockId
  | 0, _, _ => none
  | fuel + 1, b1, b2 =>
    if b1 = b2 then some b1
    else
      (climb idom rpoIndex fuel b1 b2).bind fun c1 =>
        (climb idom rpoIndex fuel b2 c1).bind fun c2 => intersect fuel c1 c2

/-- `new_idom` met with every other processed predecessor. -/
def intersectPreds (fuel : ℕ) : List BlockId → BlockId → Option BlockId
  | [], newIdom => some newIdom
  | p :: preds, newIdom =>
    if p = newIdom then intersectPreds fuel preds newIdom
    else if (idomOf idom p).isSome then
      (intersect idom rpoIndex fuel p newIdom).bind fun met => intersectPreds fuel preds met
    else intersectPreds fuel preds newIdom

end Intersect

section Dominators

variable (cfg : Cfg)

/-- One block of a sweep: the parents after it, and whether its own changed. -/
def visitBlock (fuel : ℕ) (rpoIndex : List ℕ) (b : BlockId) (idom : List (Option BlockId)) (changed : Bool) :
    Option (List (Option BlockId) × Bool) :=
  if b = cfg.entry then some (idom, changed)
  else
    let preds := cfg.predecessors b
    match preds.find? fun p => (idomOf idom p).isSome with
    | none => some (idom, changed)
    | some first =>
      (intersectPreds idom rpoIndex fuel preds first).map fun newIdom =>
        if idomOf idom b = some newIdom then (idom, changed) else (idom.set b (some newIdom), true)

def sweep (fuel : ℕ) (rpoIndex : List ℕ) : List BlockId → List (Option BlockId) → Bool →
    Option (List (Option BlockId) × Bool)
  | [], idom, changed => some (idom, changed)
  | b :: bs, idom, changed =>
    (visitBlock cfg fuel rpoIndex b idom changed).bind fun r => sweep fuel rpoIndex bs r.1 r.2

/-- Sweeps until one changes nothing. -/
def iterateSweeps (fuel : ℕ) (rpo : List BlockId) (rpoIndex : List ℕ) : ℕ → List (Option BlockId) →
    Option (List (Option BlockId))
  | 0, _ => none
  | k + 1, idom =>
    (sweep cfg fuel rpoIndex rpo idom false).bind fun r =>
      if r.2 then iterateSweeps fuel rpo rpoIndex k r.1 else some r.1

/-- The entry has no immediate dominator in the result. -/
def publicIdoms (idom : List (Option BlockId)) : List (Option BlockId) :=
  idom.mapIdx fun b d => if b = cfg.entry then none else d

def computeDominators (fuel : ℕ) : Option DominatorTree :=
  (reversePostorder cfg fuel).bind fun order =>
    let idomRaw := (List.replicate cfg.numBlocks (none : Option BlockId)).set cfg.entry (some cfg.entry)
    (iterateSweeps cfg fuel order.1 order.2 fuel idomRaw).map fun idom =>
      ⟨publicIdoms cfg idom, order.1, order.2⟩

end Dominators

namespace DominatorTree

variable (tree : DominatorTree)

def idom (b : BlockId) : Option BlockId := (tree.idoms[b]?).join

/-- The loop of `dominates` up the chain from `cur`. -/
def dominatesFrom (a : BlockId) : ℕ → BlockId → Option Bool
  | 0, _ => none
  | fuel + 1, cur =>
    match tree.idom cur with
    | none => some false
    | some d => if d = a then some true else if d = cur then some false else dominatesFrom a fuel d

def dominates (fuel : ℕ) (a b : BlockId) : Option Bool :=
  if a = b then some true else tree.dominatesFrom a fuel b

end DominatorTree

end Karac.Flow
