import Karac.Lib.Dominance
import Karac.Token

/-! Control-flow graphs of function bodies: use sites of bindings in basic blocks, with the places the
uses touch. -/

namespace Karac.Flow

inductive PlaceSeg
  | field (name : String)
  | tupleIndex (pos : ℕ)
  | index
  deriving DecidableEq, Repr

/-- The projections from the root binding; empty is the whole binding. -/
abbrev PlacePath := List PlaceSeg

/-- The first differing steps decide, and an index on either side may alias. -/
def placePathsDisjoint : PlacePath → PlacePath → Bool
  | sa :: as, sb :: bs =>
    if sa = sb then placePathsDisjoint as bs
    else
      match sa, sb with
      | .field x, .field y => x != y
      | .tupleIndex x, .tupleIndex y => x != y
      | .field _, .tupleIndex _ => true
      | .tupleIndex _, .field _ => true
      | _, _ => false
  | _, _ => false

/-- A rebind of `reassigned` writes all of `consumed` again. -/
def placeRebindCovers (reassigned consumed : PlacePath) : Bool :=
  decide (reassigned.length ≤ consumed.length) && (reassigned.zip consumed).all fun rc => rc.1 == rc.2

inductive UseKind
  | read
  | consume
  | reassign
  | define
  deriving DecidableEq, Repr

inductive ConsumeOrigin
  | direct
  | closureCapture
  | containerStore
  deriving DecidableEq, Repr

structure UseSite where
  binding : String
  kind : UseKind
  span : Span
  consumeOrigin : ConsumeOrigin
  place : PlacePath
  deriving DecidableEq, Repr

abbrev BlockId := ℕ

structure BasicBlock where
  id : BlockId
  uses : List UseSite
  successors : List BlockId
  deriving DecidableEq, Repr

/-- The builder gives each block its index as its id and only adds edges between blocks it made. -/
structure Cfg where
  blocks : List BasicBlock
  entry : BlockId
  exit : BlockId
  closureBodyBlocks : Finset BlockId
  ids : ∀ i (b : BasicBlock), blocks[i]? = some b → b.id = i
  closed : ∀ b ∈ blocks, ∀ s ∈ b.successors, s < blocks.length
  entry_lt : entry < blocks.length

namespace Cfg

variable (cfg : Cfg)

def block (id : BlockId) : BasicBlock := (cfg.blocks[id]?).getD ⟨id, [], []⟩

def predecessors (id : BlockId) : List BlockId :=
  (cfg.blocks.filter fun b => b.successors.contains id).map BasicBlock.id

def numBlocks : ℕ := cfg.blocks.length

/-- An edge of the graph. -/
def Edge (u v : BlockId) : Prop := v ∈ (cfg.block u).successors

variable {cfg}

theorem block_mem {id : BlockId} (h : id < cfg.blocks.length) : cfg.block id ∈ cfg.blocks := by
  unfold block
  rw [List.getElem?_eq_getElem h]
  exact List.getElem_mem h

theorem block_id (id : BlockId) : (cfg.block id).id = id := by
  unfold block
  cases hb : cfg.blocks[id]? with
  | none => rfl
  | some b => exact cfg.ids id b hb

theorem edge_src {u v : BlockId} (e : cfg.Edge u v) : u < cfg.blocks.length := by
  by_contra hu
  unfold Edge block at e
  rw [List.getElem?_eq_none (Nat.le_of_not_lt hu)] at e
  exact absurd e List.not_mem_nil

theorem edge_lt {u v : BlockId} (e : cfg.Edge u v) : v < cfg.blocks.length :=
  cfg.closed _ (block_mem (edge_src e)) v e

theorem mem_predecessors {u v : BlockId} : u ∈ cfg.predecessors v ↔ cfg.Edge u v := by
  unfold predecessors
  rw [List.mem_map]
  constructor
  · rintro ⟨b, hb, rfl⟩
    obtain ⟨hmem, hcon⟩ := List.mem_filter.mp hb
    obtain ⟨i, hi⟩ := List.mem_iff_getElem?.mp hmem
    have hblock : cfg.block b.id = b := by
      unfold block
      rw [cfg.ids i b hi, hi]
      rfl
    unfold Edge
    rw [hblock]
    exact List.contains_iff_mem.mp hcon
  · intro e
    refine ⟨cfg.block u, List.mem_filter.mpr ⟨block_mem (edge_src e), ?_⟩, block_id u⟩
    exact List.contains_iff_mem.mpr e

theorem reached_lt {b : BlockId} (h : Lib.Dominance.Reached cfg.Edge cfg.entry b) : b < cfg.blocks.length := by
  obtain ⟨l, hl⟩ := h
  induction hl with
  | start => exact cfg.entry_lt
  | step _ e _ => exact edge_lt e

end Cfg

end Karac.Flow
