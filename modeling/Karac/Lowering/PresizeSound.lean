import Karac.Lowering.Presize
import Karac.Lowering.Probe

/-! Pre-sizing preserves what a block does as long as the capacities are quiet where they are evaluated. The admission
test asks for less: it lets calls, indexing and arithmetic through, and evaluates the bound once more than the loop. -/

namespace Karac.Lowering

open Karac.Ast

theorem presizableLet_eq {stmt : Stmt} {v : String} {c : Coll} (h : presizableLet stmt = some (v, c)) :
    ∃ value, stmt = .letStmt true (.binding v) value ∧ emptyColl value = some c := by
  unfold presizableLet at h
  split at h
  · obtain ⟨c', hc, heq⟩ := Option.map_eq_some_iff.mp h
    cases heq
    exact ⟨_, rfl, hc⟩
  · cases h

theorem presizedTo_eq {stmt : Stmt} {rest : List Stmt} {v : String} {c : Coll} {bound : Expr}
    (h : presizedTo stmt rest = some (v, c, bound)) :
    ∃ value, stmt = .letStmt true (.binding v) value ∧ emptyColl value = some c ∧
      findFillBound rest v = some bound := by
  obtain ⟨⟨v', c'⟩, hlet, h⟩ := Option.bind_eq_some_iff.mp h
  obtain ⟨bound', hbound, heq⟩ := Option.bind_eq_some_iff.mp h
  cases heq
  obtain ⟨value, hstmt, hempty⟩ := presizableLet_eq hlet
  exact ⟨value, hstmt, hempty, hbound⟩

namespace Language

variable {σ V : Type*} (L : Language σ V)

/-- The collection is empty, and nothing else has happened, exactly after a quiet capacity. -/
theorem eval_with_capacity_iff (c : Coll) (e : Expr) (s : σ) :
    L.eval (withCapacity c e) s = .value (L.empty c) s ↔ L.Quiet e s := by
  rw [L.eval_with_capacity]
  constructor
  · intro h
    cases he : L.eval e s with
    | value v s' =>
      rw [he, Outcome.value_bind] at h
      obtain ⟨hcap, rfl⟩ := (L.allocate_iff c v s' s).mp h
      exact ⟨v, he, hcap⟩
    | stopped r s' =>
      rw [he] at h
      cases h
    | diverges =>
      rw [he] at h
      cases h
  · rintro ⟨v, he, hcap⟩
    rw [he, Outcome.value_bind]
    exact (L.allocate_iff c v s s).mpr ⟨hcap, rfl⟩

/-- The statement that a `let` is rewritten to does what the `let` does. -/
theorem exec_rewrite {stmt : Stmt} {rest : List Stmt} {s : σ} (h : ∀ p ∈ presizedTo stmt rest, L.Quiet p.2.2 s) :
    L.exec (rewriteToWithCapacity stmt rest) s = L.exec stmt s := by
  unfold rewriteToWithCapacity
  split
  · rename_i v c bound hp
    obtain ⟨value, rfl, hempty, -⟩ := presizedTo_eq hp
    rw [L.exec_let, L.exec_let, (L.eval_with_capacity_iff c bound s).mpr (h _ hp), L.eval_empty value c s hempty]
  · rfl

theorem runStmts_presize {stmts : List Stmt} {s : σ} (h : L.Settled stmts s) :
    L.runStmts (presizeStmts stmts) s = L.runStmts stmts s := by
  induction stmts generalizing s with
  | nil => rfl
  | cons stmt rest ih =>
    simp only [presizeStmts, runStmts]
    rw [L.exec_rewrite h.1]
    exact Outcome.bind_congr fun _ s' hs' => ih (h.2 s' hs')

theorem eval_of_plain {e : Expr} {n : ℤ} {s : σ} (h : L.Plain s e n) :
    ∃ v, L.eval e s = .value v s ∧ L.asInt v = some n := by
  induction h with
  | integer k => exact ⟨L.ofInt k, L.eval_integer k s, L.asInt_ofInt k⟩
  | identifier hx hv => exact ⟨_, L.eval_identifier _ _ _ s hx hv, hv⟩
  | len hplace hn => exact ⟨_, L.eval_len _ _ s hplace hn, L.asInt_ofInt _⟩
  | add hleft hright hfits ihleft ihright =>
    obtain ⟨a, ha, hm⟩ := ihleft
    obtain ⟨b, hb, hn⟩ := ihright
    obtain ⟨v, hplus, hv⟩ := L.plus_of_fits a b _ _ s hm hn (hfits a ha)
    refine ⟨v, ?_, hv⟩
    rw [L.eval_add, ha, Outcome.value_bind, hb, Outcome.value_bind, hplus]

/-- The bounds that the pass is written for are quiet. -/
theorem quiet_of_plain {e : Expr} {n : ℤ} {s : σ} (h : L.Plain s e n) (hn : 0 ≤ n) : L.Quiet e s := by
  obtain ⟨v, he, hv⟩ := L.eval_of_plain h
  exact ⟨v, he, L.capacity_of_nonneg v n hv hn⟩

end Language

namespace Probe

/-- `let mut v = Vec.new(); let mut i = 0; while i < bound { v.push(i); i = i + 1; }` -/
def fillTo (bound : Expr) : Block :=
  .mk [.letStmt true (.binding "v") (.call (.path ["Vec", "new"]) []), .letStmt true (.binding "i") (.integer 0),
    .expr (.whileLoop none (.binary .lt (.identifier "i") bound)
      (.mk [.expr (.methodCall (.identifier "v") "push" [.mk none false (.identifier "i")]),
        .assign (.identifier "i") (.binary .add (.identifier "i") (.integer 1))] none))] none

end Probe

end Karac.Lowering
