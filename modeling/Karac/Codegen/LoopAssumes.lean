import Karac.Codegen.MidpointAssumes
import Karac.Codegen.MonotoneAssumes

/-! The executions of a loop in which all the assumptions emitted for it hold. -/

namespace Karac.Codegen

open Ast

def MonotoneAssumesHold (guard : Option Expr) (body : Block) (Cond : Slots → Event → Prop) : Prop :=
  ∀ σ₀ σ, Reaches guard body Cond σ₀ σ → MonotoneAssumes guard body σ₀ σ

def GuardHolds (lo hi : String) (σ : Slots) : Prop := ∀ l h, σ lo = some l → σ hi = some h → l.val < h.val

/-- The guard holds, the loop runs on to a `let`, and the `let` emits its assumptions for the guard. -/
def MidpointAssumesHold (guard : Option Expr) (body : Block) (Cond : Expr → String → String → Slots → Prop) : Prop :=
  ∀ g ∈ guard, ∀ lo hi σ₀ σ, binsearchGuardPair g = some (lo, hi) → GuardHolds lo hi σ₀ →
    Reaches guard body (fun _ _ => True) σ₀ σ → ∀ outer pattern value mid σ',
      LetStep (outer ++ [(lo, hi)]) pattern value mid lo hi σ σ' → Cond value lo hi σ → MidpointAssumes mid lo hi σ'

def u8 : IntTy := ⟨false, 8, by decide⟩

def i64 : IntTy := ⟨true, 64, by decide⟩

/-- `while i < 200 { i = i + 1; }` with `i : u8` at 127 and at 128. -/
def crossingGuard : Expr := .binary .lt (.identifier "i") (.integer 200)

def crossingStmt : Stmt := .assign (.identifier "i") (.binary .add (.identifier "i") (.integer 1))

def crossingBody : Block := .mk [crossingStmt] none

def u8At (k : ℤ) (h : u8.InRange k) : IntVal := ⟨u8, k, h⟩

def slotI (k : ℤ) (h : u8.InRange k) : Slots := Function.update (fun _ => none) "i" (some (u8At k h))

theorem crossing_collected : collectMonotoneVars (some crossingGuard) crossingBody = [("i", .increasing)] := by rfl

theorem crossing_in_loop : InLoop (some crossingGuard) crossingBody (.stmt crossingStmt) := by
  right
  apply Node.Within.child (c := .stmt crossingStmt) List.mem_cons_self
  exact Node.Within.refl _

theorem crossing_evaluates : Evaluates (slotI 127 (by decide)) (.binary .add (.identifier "i") (.integer 1))
    (u8At 128 (by decide)) := by
  apply evaluates_of_evals rfl
  apply Arith.Evals.op (a := u8At 127 (by decide)) (b := u8At 1 (by decide))
  · exact Arith.Evals.var (Function.update_self ..)
  · exact Arith.Evals.lit rfl
  · rfl

theorem crossing_reached : Reaches (some crossingGuard) crossingBody (fun _ _ => True) (slotI 127 (by decide))
    (Function.update (slotI 127 (by decide)) "i" (some (u8At 128 (by decide)))) := by
  apply Relation.ReflTransGen.single
  refine ⟨.own (.stmt crossingStmt) "i" (u8At 128 (by decide)), ?_, trivial⟩
  apply LoopStep.own crossing_in_loop (Writes.assign crossing_evaluates)
  intro a ha
  cases ha
  rfl

/-- `while lo < hi { lo = hi; let mid = lo + (hi - lo) / 2; }` with both ends at 10 at the `let`. -/
def closedGuard : Expr := .binary .lt (.identifier "lo") (.identifier "hi")

def closingStmt : Stmt := .assign (.identifier "lo") (.identifier "hi")

def midpointValue : Expr :=
  .binary .add (.identifier "lo")
    (.binary .div (.binary .sub (.identifier "hi") (.identifier "lo")) (.integer 2))

def closedBody : Block := .mk [closingStmt, .letStmt false (.binding "mid") midpointValue] none

def i64At (k : ℤ) (h : i64.InRange k) : IntVal := ⟨i64, k, h⟩

def ten : IntVal := i64At 10 (by decide)

def openSlots : Slots := Function.update (fun x => if x = "hi" then some ten else none) "lo" (some (i64At 0 (by decide)))

def closedSlots : Slots := Function.update openSlots "lo" (some ten)

theorem closed_reached : Reaches (some closedGuard) closedBody (fun _ _ => True) openSlots closedSlots := by
  apply Relation.ReflTransGen.single
  refine ⟨.own (.stmt closingStmt) "lo" ten, ?_, trivial⟩
  apply LoopStep.own
  · right
    apply Node.Within.child (c := .stmt closingStmt) List.mem_cons_self
    exact Node.Within.refl _
  · apply Writes.assign
    exact evaluates_of_evals rfl (Arith.Evals.var rfl)
  · intro a ha
    cases ha
    rfl

theorem midpoint_evaluates : Evaluates closedSlots midpointValue ten := by
  apply evaluates_of_evals rfl
  apply Arith.Evals.op (a := ten) (b := i64At 0 (by decide))
  · exact Arith.Evals.var rfl
  · apply Arith.Evals.op (a := i64At 0 (by decide)) (b := i64At 2 (by decide))
    · apply Arith.Evals.op (a := ten) (b := ten)
      · exact Arith.Evals.var rfl
      · exact Arith.Evals.var rfl
      · rfl
    · exact Arith.Evals.lit rfl
    · rfl
  · rfl

theorem closed_let : LetStep [("lo", "hi")] (.binding "mid") midpointValue "mid" "lo" "hi" closedSlots
    (Function.update closedSlots "mid" (some ten)) := by
  refine ⟨⟨ten, midpoint_evaluates, rfl⟩, ?_⟩
  rfl

end Karac.Codegen
