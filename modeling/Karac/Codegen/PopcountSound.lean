import Karac.Codegen.PopcountIdiom
import Karac.Lib.ClearLowest

/-! The replacement of the bit-count loop is right for a source that is not negative, or is the least number. A negative
source keeps its sign bit until it is the least number, and there the loop traps. -/

namespace Karac.Codegen

open Ast
open Lib.ClearLowest

/-! Operators of types of the program. -/

/-- The expression is a call of an operator that a type of the program defines. -/
def ownCall : Expr → Bool
  | .call (.path [typeName, _]) _ => decide (typeName ∉ preludePrimitives)
  | _ => false

def ownType : Expr → String
  | .call (.path [typeName, _]) _ => typeName
  | _ => ""

/-- The operand of the mask that is not the variable. -/
def subOperand (value : Expr) : Option Expr :=
  (binaryOperands value .bitAnd "bitand").map fun (lhs, rhs) => if (identifierName lhs).isSome then rhs else lhs

/-- The subtraction, the mask and the increment of the body. -/
def loopOperators (body : Block) : Option (Expr × Expr × Expr) :=
  match body.stmts with
  | [.assign _ mask, .assign _ increment] => (subOperand mask).map fun sub => (sub, mask, increment)
  | _ => none

section

variable {w : ℕ} (own : OwnOps w)

/-- An operator of the loop at two values. -/
def applyOp (op : IntOp) (method : String) (e : Expr) (a b : BitVec w) : Outcome (BitVec w) :=
  if ownCall e then own.int (ownType e) method a b else op.run a b

def applyNe (e : Expr) (a b : BitVec w) : Outcome Bool :=
  if ownCall e then own.ne (ownType e) a b else .value (decide (a ≠ b))

variable {own} {σ : Vars w}

theorem eq_identifier {e : Expr} {name : String} (h : identifierName e = some name) : e = .identifier name := by
  unfold identifierName at h
  split at h
  · rw [Option.some.inj h]
  · exact absurd h (by simp)

theorem eq_integer {e : Expr} {v : ℤ} (h : intLiteralIs e v = true) : e = .integer v := by
  unfold intLiteralIs at h
  split at h
  · rw [of_decide_eq_true h]
  · exact absurd h (by simp)

theorem evalInt_operands {e l r : Expr} {binOp : BinOp} {method : String} {op : IntOp} (hbin : binIntOp binOp = some op)
    (hmethod : methodIntOp method = some op) (h : binaryOperands e binOp method = some (l, r)) :
    evalInt own σ e = (evalInt own σ l).bind fun a => (evalInt own σ r).bind fun b => applyOp own op method e a b := by
  unfold binaryOperands at h
  split at h
  · split at h
    · rename_i heq
      obtain ⟨rfl, rfl⟩ := Prod.mk.inj (Option.some.inj h)
      rw [evalInt, heq, hbin]
      rfl
    · exact absurd h (by simp)
  · split at h
    · rename_i heq
      obtain ⟨rfl, rfl⟩ := Prod.mk.inj (Option.some.inj h)
      rw [evalInt, heq, hmethod]
      unfold applyOp ownCall ownType
      simp only [decide_eq_true_eq, ite_not]
    · exact absurd h (by simp)
  · exact absurd h (by simp)

theorem evalCond_operands {e l r : Expr} (h : binaryOperands e .notEq "ne" = some (l, r)) :
    evalCond own σ e = (evalInt own σ l).bind fun a => (evalInt own σ r).bind fun b => applyNe own e a b := by
  unfold binaryOperands at h
  split at h
  · split at h
    · rename_i heq
      obtain ⟨rfl, rfl⟩ := Prod.mk.inj (Option.some.inj h)
      rw [heq, evalCond]
      rfl
    · exact absurd h (by simp)
  · split at h
    · rename_i heq
      obtain ⟨rfl, rfl⟩ := Prod.mk.inj (Option.some.inj h)
      rw [heq, evalCond]
      unfold applyNe ownCall ownType
      simp only [decide_eq_true_eq, ite_not]
    · exact absurd h (by simp)
  · exact absurd h (by simp)

end

/-! The shape of a loop that matches. -/

/-- A loop that matches: the operands of each operator, in either order. -/
structure Matched (condition : Expr) (body : Block) (m : KernighanPopcount) (sub mask increment : Expr) : Prop where
  guards : binaryOperands condition .notEq "ne" = some (.identifier m.source, .integer 0) ∨
    binaryOperands condition .notEq "ne" = some (.integer 0, .identifier m.source)
  body_eq : body = .mk [.assign (.identifier m.source) mask, .assign (.identifier m.counter) increment] none
  subtracts : binaryOperands sub .sub "sub" = some (.identifier m.source, .integer 1)
  masks : binaryOperands mask .bitAnd "bitand" = some (.identifier m.source, sub) ∨
    binaryOperands mask .bitAnd "bitand" = some (sub, .identifier m.source)
  increments : binaryOperands increment .add "add" = some (.identifier m.counter, .integer 1) ∨
    binaryOperands increment .add "add" = some (.integer 1, .identifier m.counter)
  ne : m.counter ≠ m.source

theorem neZeroOperand_shape {cond : Expr} {source : String} (h : neZeroOperand cond = some source) :
    binaryOperands cond .notEq "ne" = some (.identifier source, .integer 0) ∨
      binaryOperands cond .notEq "ne" = some (.integer 0, .identifier source) := by
  obtain ⟨⟨a, b⟩, hoperands, hpair⟩ := Option.bind_eq_some_iff.mp h
  simp only [pairVarAndInt] at hpair
  split at hpair
  · rename_i hcond
    obtain rfl := eq_identifier hpair
    obtain rfl := eq_integer hcond.2
    exact Or.inl hoperands
  · split at hpair
    · rename_i hcond
      obtain rfl := eq_identifier hpair
      obtain rfl := eq_integer hcond.2
      exact Or.inr hoperands
    · exact absurd hpair (by simp)

theorem isSubOneOf_shape {e : Expr} {var : String} (h : isSubOneOf e var = true) :
    binaryOperands e .sub "sub" = some (.identifier var, .integer 1) := by
  unfold isSubOneOf at h
  split at h
  · rename_i lhs rhs hoperands
    obtain ⟨hlhs, hrhs⟩ := Bool.and_eq_true_iff.mp h
    rw [hoperands, eq_identifier (of_decide_eq_true hlhs), eq_integer hrhs]
  · exact absurd h (by simp)

theorem isClearLowestSetBit_shape {stmt : Stmt} {var : String} (h : isClearLowestSetBit stmt var = true) :
    ∃ mask sub, stmt = .assign (.identifier var) mask ∧ binaryOperands sub .sub "sub" = some (.identifier var, .integer 1) ∧
      (binaryOperands mask .bitAnd "bitand" = some (.identifier var, sub) ∨
        binaryOperands mask .bitAnd "bitand" = some (sub, .identifier var)) := by
  unfold isClearLowestSetBit at h
  split at h
  · rename_i target value
    split at h
    · rename_i htarget
      obtain rfl := eq_identifier htarget
      split at h
      · rename_i lhs rhs hoperands
        split at h
        · rename_i hlhs
          obtain rfl := eq_identifier hlhs
          exact ⟨value, rhs, rfl, isSubOneOf_shape h, Or.inl hoperands⟩
        · split at h
          · rename_i hrhs
            obtain rfl := eq_identifier hrhs
            exact ⟨value, lhs, rfl, isSubOneOf_shape h, Or.inr hoperands⟩
          · exact absurd h (by simp)
      · exact absurd h (by simp)
    · exact absurd h (by simp)
  · exact absurd h (by simp)

theorem incrementByOneTarget_shape {stmt : Stmt} {counter : String} (h : incrementByOneTarget stmt = some counter) :
    ∃ increment, stmt = .assign (.identifier counter) increment ∧
      (binaryOperands increment .add "add" = some (.identifier counter, .integer 1) ∨
        binaryOperands increment .add "add" = some (.integer 1, .identifier counter)) := by
  unfold incrementByOneTarget at h
  split at h
  · rename_i target value
    split at h
    · rename_i name lhs rhs htarget hoperands
      obtain rfl := eq_identifier htarget
      split at h
      · rename_i hcond
        obtain rfl := Option.some.inj h
        rw [eq_identifier hcond.1, eq_integer hcond.2] at hoperands
        exact ⟨value, rfl, Or.inl hoperands⟩
      · split at h
        · rename_i hcond
          obtain rfl := Option.some.inj h
          rw [eq_identifier hcond.1, eq_integer hcond.2] at hoperands
          exact ⟨value, rfl, Or.inr hoperands⟩
        · exact absurd h (by simp)
    · exact absurd h (by simp)
  · exact absurd h (by simp)

theorem matched_of_match {condition : Expr} {body : Block} {m : KernighanPopcount}
    (h : matchKernighanPopcount condition body = some m) :
    ∃ sub mask increment, Matched condition body m sub mask increment := by
  obtain ⟨source, hsource, h⟩ := Option.bind_eq_some_iff.mp h
  split at h
  · rename_i first second
    split at h
    · exact absurd h (by simp)
    · split at h
      · rename_i hclear
        obtain ⟨mask, sub, rfl, hsub, hmask⟩ := isClearLowestSetBit_shape hclear
        obtain ⟨counter, hcounter, hm⟩ := Option.bind_eq_some_iff.mp h
        obtain ⟨increment, rfl, hincrement⟩ := incrementByOneTarget_shape hcounter
        split at hm
        · exact absurd hm (by simp)
        · rename_i hne
          obtain rfl := Option.some.inj hm
          exact ⟨sub, mask, increment, neZeroOperand_shape hsource, rfl, hsub, hmask, hincrement, hne⟩
      · exact absurd h (by simp)
  · exact absurd h (by simp)

/-! One turn of a loop that matches. -/

section

variable {w : ℕ} {own : OwnOps w} {σ : Vars w} {condition sub mask increment : Expr} {body : Block} {m : KernighanPopcount}

/-- The guard, without its own operator. -/
theorem Matched.evalCond (h : Matched condition body m sub mask increment) (hown : ownCall condition = false) :
    evalCond own σ condition = .value (decide (σ m.source ≠ 0)) := by
  rcases h.guards with hop | hop
  · rw [evalCond_operands hop]
    simp [evalInt, applyNe, hown]
  · rw [evalCond_operands hop]
    have hzero : BitVec.ofInt w 0 = 0 := by simp
    simp only [evalInt, Outcome.value_bind, applyNe, hown, Bool.false_eq_true, if_false, hzero]
    exact congrArg Outcome.value (decide_eq_decide.mpr ne_comm)

theorem Matched.evalSub (h : Matched condition body m sub mask increment) :
    evalInt own σ sub = applyOp own .sub "sub" sub (σ m.source) 1 := by
  rw [evalInt_operands rfl rfl h.subtracts]
  simp [evalInt, Outcome.bind]

theorem Matched.evalMask (h : Matched condition body m sub mask increment) (hown : ownCall mask = false) :
    evalInt own σ mask = (evalInt own σ sub).bind fun s => .value (σ m.source &&& s) := by
  rcases h.masks with hop | hop
  · rw [evalInt_operands rfl rfl hop]
    simp [evalInt, applyOp, hown, IntOp.run]
  · rw [evalInt_operands rfl rfl hop]
    cases evalInt own σ sub with
    | value s => simp [evalInt, applyOp, hown, IntOp.run, BitVec.and_comm]
    | overflow => rfl
    | stuck => rfl

theorem Matched.evalIncrement (h : Matched condition body m sub mask increment) (hown : ownCall increment = false) :
    evalInt own σ increment = checkedAdd (σ m.counter) 1 := by
  rcases h.increments with hop | hop
  · rw [evalInt_operands rfl rfl hop]
    simp [evalInt, applyOp, hown, IntOp.run]
  · rw [evalInt_operands rfl rfl hop]
    simp [evalInt, applyOp, hown, IntOp.run, checkedAdd, BitVec.saddOverflow, add_comm]

theorem Matched.runStmts (h : Matched condition body m sub mask increment) :
    runStmts own body.stmts σ = (evalInt own σ mask).bind fun x =>
      (evalInt own (Function.update σ m.source x) increment).bind fun c =>
        .value (Function.update (Function.update σ m.source x) m.counter c) := by
  rw [h.body_eq]
  simp only [Block.stmts, Codegen.runStmts, runStmt]
  cases evalInt own σ mask with
  | value x =>
    simp only [Outcome.value_bind]
    cases evalInt own (Function.update σ m.source x) increment <;> rfl
  | overflow => rfl
  | stuck => rfl

/-- Without operators of its own a turn traps at the least number or at the last count. -/
theorem Matched.turn (h : Matched condition body m sub mask increment) (hw : 1 < w) (hsub : ownCall sub = false)
    (hmask : ownCall mask = false) (hincrement : ownCall increment = false) :
    Codegen.runStmts own body.stmts σ =
      if σ m.source = BitVec.intMin w then .overflow
      else (checkedAdd (σ m.counter) 1).bind fun c =>
        .value (Function.update (Function.update σ m.source (clearLowest (σ m.source))) m.counter c) := by
  rw [h.runStmts, h.evalMask hmask, h.evalSub]
  unfold applyOp
  rw [if_neg (by simp [hsub])]
  unfold IntOp.run checkedSub
  by_cases hmin : σ m.source = BitVec.intMin w
  · rw [if_pos ((ssubOverflow_one_iff hw _).mpr hmin), if_pos hmin]
    rfl
  · rw [if_neg (fun h => hmin ((ssubOverflow_one_iff hw _).mp h)), if_neg hmin]
    simp only [Outcome.value_bind]
    rw [h.evalIncrement hincrement, Function.update_of_ne h.ne]
    rfl

/-! Runs. -/

theorem LoopRuns.det {r r' : Outcome (Vars w)} (h : LoopRuns own condition body σ r) (h' : LoopRuns own condition body σ r') :
    r = r' := by
  induction h with
  | exit hc =>
    cases h' with
    | exit => rfl
    | turn hc' | trapCond hc' | trapBody hc' => rw [hc] at hc'; cases hc'
  | turn hc hb _ ih =>
    cases h' with
    | turn hc' hb' hr' =>
      rw [hb] at hb'
      cases hb'
      exact ih hr'
    | exit hc' | trapCond hc' => rw [hc] at hc'; cases hc'
    | trapBody hc' hb' => rw [hb] at hb'; cases hb'
  | trapCond hc =>
    cases h' with
    | trapCond => rfl
    | trapBody => rfl
    | exit hc' | turn hc' => rw [hc] at hc'; cases hc'
  | trapBody hc hb =>
    cases h' with
    | trapBody => rfl
    | trapCond => rfl
    | exit hc' => rw [hc] at hc'; cases hc'
    | turn hc' hb' => rw [hb] at hb'; cases hb'

theorem LoopRuns.iff_eq {r r' : Outcome (Vars w)} (h : LoopRuns own condition body σ r) :
    LoopRuns own condition body σ r' ↔ r' = r := ⟨fun h' => h'.det h, fun heq => heq ▸ h⟩

/-- At a source of zero the loop is left, and the count is unchanged. -/
theorem Matched.run_zero (h : Matched condition body m sub mask increment) (hcond : ownCall condition = false)
    (hzero : σ m.source = 0) : LoopRuns own condition body σ (.value σ) := by
  refine .exit ?_
  rw [h.evalCond hcond, hzero]
  rfl

theorem Matched.evalCond_of_ne (h : Matched condition body m sub mask increment) (hcond : ownCall condition = false)
    (hne : σ m.source ≠ 0) : Codegen.evalCond own σ condition = .value true := by
  rw [h.evalCond hcond, decide_eq_true hne]

theorem zero_ne_intMin (hw : 1 < w) : (0 : BitVec w) ≠ BitVec.intMin w := by
  intro h
  have := BitVec.intMin_eq_zero_iff.mp h.symm
  omega

theorem emit_zero (hw : 1 < w) (hzero : σ m.source = 0) : emitKernighanPopcount m σ = .value σ := by
  have hadd : checkedAdd (σ m.counter) 0 = .value (σ m.counter) := by
    have hle := BitVec.le_toInt (σ m.counter)
    have hlt := BitVec.toInt_lt (x := σ m.counter)
    unfold checkedAdd BitVec.saddOverflow
    rw [if_neg, BitVec.ofNat_eq_ofNat, BitVec.add_zero]
    rw [Bool.or_eq_true, decide_eq_true_eq, decide_eq_true_eq, BitVec.ofNat_eq_ofNat, BitVec.toInt_zero]
    omega
  unfold emitKernighanPopcount
  rw [hzero, if_neg (zero_ne_intMin hw), BitVec.ofNat_eq_ofNat, BitVec.cpop_zero, ← BitVec.ofNat_eq_ofNat, hadd, Outcome.value_bind,
    Function.update_eq_self, ← hzero, Function.update_eq_self]

/-- A negative source ends in the trap: the sign bit is the last to go. -/
theorem Matched.run_negative (h : Matched condition body m sub mask increment) (hw : 1 < w) (hcond : ownCall condition = false)
    (hsub : ownCall sub = false) (hmask : ownCall mask = false) (hincrement : ownCall increment = false)
    (hneg : (σ m.source).msb = true) : LoopRuns own condition body σ .overflow := by
  induction hn : (σ m.source).cpop.toNat generalizing σ with
  | zero =>
    have hne : σ m.source ≠ 0 := by
      rintro heq
      simp [heq] at hneg
    exact absurd hn (cpop_pos hne).ne'
  | succ n ih =>
    have hne : σ m.source ≠ 0 := by
      rintro heq
      simp [heq] at hneg
    have hguard : Codegen.evalCond own σ condition = .value true := h.evalCond_of_ne hcond hne
    have hturn := @Matched.turn w own σ condition sub mask increment body m h hw hsub hmask hincrement
    by_cases hmin : σ m.source = BitVec.intMin w
    · rw [if_pos hmin] at hturn
      exact .trapBody hguard hturn
    · rw [if_neg hmin] at hturn
      unfold checkedAdd at hturn
      split at hturn
      · exact .trapBody hguard hturn
      · refine .turn hguard hturn (ih ?_ ?_)
        · rw [Function.update_of_ne h.ne.symm, Function.update_self]
          exact msb_clearLowest_of_msb hw hneg hmin
        · rw [Function.update_of_ne h.ne.symm, Function.update_self]
          have := toNat_cpop_clearLowest _ hne
          omega

/-- The count of a number that is not negative is a number of the type. -/
theorem toInt_cpop (hw : 1 < w) {x : BitVec w} (hx : x.msb = false) : x.cpop.toInt = x.cpop.toNat := by
  have hlt := cpop_lt_of_msb (Nat.zero_lt_of_lt hw) hx
  have hpow : w - 1 < 2 ^ (w - 1) := Nat.lt_two_pow_self
  have hsplit : 2 ^ w = 2 * 2 ^ (w - 1) := by rw [← Nat.pow_succ', Nat.succ_eq_add_one, Nat.sub_add_cancel (by omega)]
  exact BitVec.toInt_eq_toNat_of_lt (by omega)

/-- The trap comes in the turn whose count does not fit, or the sum of what is left fits. -/
theorem checkedAdd_count (hw : 1 < w) {x : BitVec w} (hx : x.msb = false) (hne : x ≠ 0) (c : BitVec w) :
    checkedAdd c x.cpop = (checkedAdd c 1).bind fun c' => checkedAdd c' (clearLowest x).cpop := by
  have hone : (1 : BitVec w).toInt = 1 := BitVec.toInt_one hw
  have hcount := toNat_cpop_clearLowest x hne
  have hx' := toInt_cpop hw (msb_clearLowest hx)
  have hx := toInt_cpop hw hx
  have hsum : x.cpop = 1 + (clearLowest x).cpop := by
    apply BitVec.eq_of_toNat_eq
    have hlt := x.cpop.isLt
    rw [← hcount, Nat.add_comm] at hlt ⊢
    rw [BitVec.toNat_add, BitVec.ofNat_eq_ofNat, BitVec.toNat_ofNat, Nat.mod_add_mod, Nat.mod_eq_of_lt hlt]
  by_cases hover : BitVec.saddOverflow c 1 = true
  · have hall : BitVec.saddOverflow c x.cpop = true := by
      have hle := BitVec.le_toInt c
      unfold BitVec.saddOverflow at hover ⊢
      rw [Bool.or_eq_true, decide_eq_true_eq, decide_eq_true_eq] at hover ⊢
      omega
    unfold checkedAdd
    rw [if_pos hall, if_pos hover]
    rfl
  · have hnext := BitVec.toInt_add_of_not_saddOverflow hover
    have hsame : BitVec.saddOverflow c x.cpop = BitVec.saddOverflow (c + 1) (clearLowest x).cpop := by
      have hshift : c.toInt + x.cpop.toInt = (c + 1).toInt + (clearLowest x).cpop.toInt := by omega
      unfold BitVec.saddOverflow
      rw [hshift]
    unfold checkedAdd
    rw [if_neg hover, hsame, hsum, ← BitVec.add_assoc]
    rfl

/-- A source that is not negative ends with the count added in one step, or in the trap. -/
theorem Matched.run_nonneg (h : Matched condition body m sub mask increment) (hw : 1 < w) (hcond : ownCall condition = false)
    (hsub : ownCall sub = false) (hmask : ownCall mask = false) (hincrement : ownCall increment = false)
    (hpos : (σ m.source).msb = false) : LoopRuns own condition body σ (emitKernighanPopcount m σ) := by
  have hmin : ∀ x : BitVec w, x.msb = false → x ≠ BitVec.intMin w :=
    fun x hx => BitVec.ne_intMin_of_msb_eq_false (Nat.zero_lt_of_lt hw) hx
  induction hn : (σ m.source).cpop.toNat generalizing σ with
  | zero =>
    have hzero : σ m.source = 0 := by
      by_contra hne
      exact absurd hn (cpop_pos hne).ne'
    have hemit : emitKernighanPopcount m σ = .value σ := emit_zero hw hzero
    exact hemit ▸ h.run_zero hcond hzero
  | succ n ih =>
    have hne : σ m.source ≠ 0 := by
      rintro heq
      simp [heq] at hn
    have hguard : Codegen.evalCond own σ condition = .value true := h.evalCond_of_ne hcond hne
    have hturn := @Matched.turn w own σ condition sub mask increment body m h hw hsub hmask hincrement
    rw [if_neg (hmin _ hpos)] at hturn
    unfold emitKernighanPopcount
    rw [if_neg (hmin _ hpos), checkedAdd_count hw hpos hne]
    cases hadd : checkedAdd (σ m.counter) 1 with
    | value c =>
      rw [hadd] at hturn
      refine .turn hguard hturn ?_
      set σ' : Vars w := Function.update (Function.update σ m.source (clearLowest (σ m.source))) m.counter c with hσ'
      have hsource : σ' m.source = clearLowest (σ m.source) := by
        rw [hσ', Function.update_of_ne h.ne.symm, Function.update_self]
      have hcounter : σ' m.counter = c := Function.update_self ..
      have hcount := toNat_cpop_clearLowest _ hne
      have hrest := @ih σ' (hsource ▸ msb_clearLowest hpos) (by rw [hsource]; omega)
      unfold emitKernighanPopcount at hrest
      rw [hsource, hcounter, if_neg (hmin _ (msb_clearLowest hpos))] at hrest
      -- the variables that the turns before have written are written again
      have hsame : ∀ total, Function.update (Function.update σ' m.counter total) m.source 0 =
          Function.update (Function.update σ m.counter total) m.source 0 := by
        intro total
        rw [hσ', Function.update_idem, Function.update_comm h.ne.symm, Function.update_idem]
      simpa only [Outcome.value_bind, hsame] using hrest
    | overflow =>
      rw [hadd] at hturn
      exact .trapBody hguard hturn
    | stuck =>
      unfold checkedAdd at hadd
      split at hadd <;> cases hadd

end

/-- The operators that the loop comes to are not of types of the program, and a negative source is the least number or
has a count that traps. -/
def PopcountCond {w : ℕ} (condition : Expr) (body : Block) (x c : BitVec w) : Prop :=
  ownCall condition = false ∧ (x = 0 ∨ ∃ sub mask increment, loopOperators body = some (sub, mask, increment) ∧
    ownCall sub = false ∧ (x = BitVec.intMin w ∨
      ownCall mask = false ∧ ownCall increment = false ∧ (x.msb = false ∨ BitVec.saddOverflow c x.cpop = true)))

theorem Matched.loopOperators {condition sub mask increment : Expr} {body : Block} {m : KernighanPopcount}
    (h : Matched condition body m sub mask increment) : loopOperators body = some (sub, mask, increment) := by
  have hsub : identifierName sub = none := by
    cases sub with
    | identifier name => exact absurd h.subtracts (by simp [binaryOperands])
    | _ => rfl
  have hoperand : subOperand mask = some sub := by
    unfold subOperand
    rcases h.masks with hop | hop
    · rw [hop]
      rfl
    · rw [hop]
      simp [hsub]
  rw [h.body_eq]
  simp only [Codegen.loopOperators, Block.stmts, hoperand, Option.map_some]

section

variable {w : ℕ} {σ : Vars w} {condition sub mask increment : Expr} {body : Block} {m : KernighanPopcount}

/-- No operator of the program returns. -/
def noneReturns (w : ℕ) : OwnOps w := ⟨fun _ _ _ _ => .stuck, fun _ _ _ => .stuck⟩

/-- A run comes to its end by the guard and the turns only. -/
theorem LoopRuns.not_stuck {own : OwnOps w} {r : Outcome (Vars w)} (h : LoopRuns own condition body σ r) :
    Codegen.evalCond own σ condition ≠ .stuck ∧
      (Codegen.evalCond own σ condition = .value true → Codegen.runStmts own body.stmts σ ≠ .stuck) := by
  cases h with
  | exit hc => simp [hc]
  | turn hc hb => simp [hc, hb]
  | trapCond hc => simp [hc]
  | trapBody hc hb => simp [hc, hb]

/-- If no operator of the program returns, a loop that ends has met the condition. -/
theorem Matched.cond_of_runs (h : Matched condition body m sub mask increment) (hw : 1 < w)
    (hruns : LoopRuns (noneReturns w) condition body σ (emitKernighanPopcount m σ)) :
    PopcountCond condition body (σ m.source) (σ m.counter) := by
  obtain ⟨hguard, hbody⟩ := hruns.not_stuck
  have hcond : ownCall condition = false := by
    by_contra hown
    rw [Bool.not_eq_false] at hown
    refine hguard ?_
    rcases h.guards with hop | hop
    · rw [evalCond_operands hop]
      simp [evalInt, applyNe, hown, noneReturns]
    · rw [evalCond_operands hop]
      simp [evalInt, applyNe, hown, noneReturns]
  refine ⟨hcond, ?_⟩
  by_cases hzero : σ m.source = 0
  · exact Or.inl hzero
  have hbody := hbody (h.evalCond_of_ne hcond hzero)
  rw [h.runStmts] at hbody
  have hsub : ownCall sub = false := by
    by_contra hown
    rw [Bool.not_eq_false] at hown
    have hstuck : evalInt (noneReturns w) σ sub = .stuck := by
      rw [h.evalSub]
      simp [applyOp, hown, noneReturns]
    refine hbody ?_
    rcases h.masks with hop | hop
    · rw [evalInt_operands rfl rfl hop, hstuck]
      simp [evalInt]
    · rw [evalInt_operands rfl rfl hop, hstuck]
      rfl
  refine Or.inr ⟨sub, mask, increment, h.loopOperators, hsub, ?_⟩
  by_cases hmin : σ m.source = BitVec.intMin w
  · exact Or.inl hmin
  have hsubtract : evalInt (noneReturns w) σ sub = .value (σ m.source - 1) := by
    rw [h.evalSub]
    unfold applyOp IntOp.run checkedSub
    rw [if_neg (by simp [hsub]), if_neg fun hover => hmin ((ssubOverflow_one_iff hw _).mp hover)]
  have hmask : ownCall mask = false := by
    by_contra hown
    rw [Bool.not_eq_false] at hown
    refine hbody ?_
    rcases h.masks with hop | hop
    · rw [evalInt_operands rfl rfl hop, hsubtract]
      simp [evalInt, applyOp, hown, noneReturns]
    · rw [evalInt_operands rfl rfl hop, hsubtract]
      simp [evalInt, applyOp, hown, noneReturns]
  rw [h.evalMask hmask, hsubtract] at hbody
  have hincrement : ownCall increment = false := by
    by_contra hown
    rw [Bool.not_eq_false] at hown
    refine hbody ?_
    rcases h.increments with hop | hop
    · rw [Outcome.value_bind, Outcome.value_bind, evalInt_operands rfl rfl hop]
      simp [evalInt, applyOp, hown, noneReturns]
    · rw [Outcome.value_bind, Outcome.value_bind, evalInt_operands rfl rfl hop]
      simp [evalInt, applyOp, hown, noneReturns]
  refine Or.inr ⟨hmask, hincrement, ?_⟩
  by_cases hneg : (σ m.source).msb = true
  · -- the source of the loop traps, and so does the sum
    have htrap := (h.run_negative hw hcond hsub hmask hincrement hneg).det hruns
    unfold emitKernighanPopcount checkedAdd at htrap
    rw [if_neg hmin] at htrap
    split at htrap
    · rename_i hover
      exact Or.inr hover
    · cases htrap
  · exact Or.inl (by simpa using hneg)

/-- Under the condition the loop has the outcome of what is emitted, whatever the program's operators do. -/
theorem Matched.runs_of_cond (h : Matched condition body m sub mask increment) (hw : 1 < w) (own : OwnOps w)
    (hcond : PopcountCond condition body (σ m.source) (σ m.counter)) :
    LoopRuns own condition body σ (emitKernighanPopcount m σ) := by
  obtain ⟨hguard, hzero | ⟨sub', mask', increment', hoperators, hsub, hrest⟩⟩ := hcond
  · exact emit_zero hw hzero ▸ h.run_zero hguard hzero
  · obtain ⟨rfl, rfl, rfl⟩ : sub = sub' ∧ mask = mask' ∧ increment = increment' := by
      simpa using h.loopOperators.symm.trans hoperators
    rcases hrest with hmin | ⟨hmask, hincrement, hpos | hover⟩
    · have hne : σ m.source ≠ 0 := hmin ▸ (zero_ne_intMin hw).symm
      unfold emitKernighanPopcount
      rw [if_pos hmin]
      refine .trapBody (h.evalCond_of_ne hguard hne) ?_
      have htrap : evalInt own σ sub = .overflow := by
        rw [h.evalSub]
        unfold applyOp IntOp.run checkedSub
        rw [if_neg (by simp [hsub]), if_pos ((ssubOverflow_one_iff hw _).mpr hmin)]
      rw [h.runStmts]
      rcases h.masks with hop | hop
      · rw [evalInt_operands rfl rfl hop, htrap]
        simp [evalInt]
      · rw [evalInt_operands rfl rfl hop, htrap]
        rfl
    · exact h.run_nonneg hw hguard hsub hmask hincrement hpos
    · by_cases hneg : (σ m.source).msb = true
      · have hemit : emitKernighanPopcount m σ = .overflow := by
          unfold emitKernighanPopcount checkedAdd
          rw [if_pos hover]
          split <;> rfl
        exact hemit ▸ h.run_negative hw hguard hsub hmask hincrement hneg
      · exact h.run_nonneg hw hguard hsub hmask hincrement (by simpa using hneg)

end

/-- The loop and its replacement have the same outcomes exactly under the condition. -/
theorem popcount_preserved_iff {condition : Expr} {body : Block} {m : KernighanPopcount}
    (h : matchKernighanPopcount condition body = some m) {w : ℕ} (hw : 2 ≤ w) (σ : Vars w) :
    (∀ own r, LoopRuns own condition body σ r ↔ r = emitKernighanPopcount m σ) ↔
      PopcountCond condition body (σ m.source) (σ m.counter) := by
  obtain ⟨sub, mask, increment, hmatched⟩ := matched_of_match h
  constructor
  · intro hall
    exact hmatched.cond_of_runs hw ((hall (noneReturns w) _).mpr rfl)
  · intro hcond own r
    exact (hmatched.runs_of_cond hw own hcond).iff_eq

/-- `while x != 0 { x = x & (x - 1); c = c + 1; }`, lowered. -/
def countGuard : Expr := .call (.path ["i8", "ne"]) [.mk none false (.identifier "x"), .mk none false (.integer 0)]

def countBody : Block :=
  .mk
    [.assign (.identifier "x") (.call (.path ["i8", "bitand"])
      [.mk none false (.identifier "x"),
        .mk none false (.call (.path ["i8", "sub"]) [.mk none false (.identifier "x"), .mk none false (.integer 1)])]),
      .assign (.identifier "c") (.call (.path ["i8", "add"]) [.mk none false (.identifier "c"), .mk none false (.integer 1)])]
    none

theorem count_matches : matchKernighanPopcount countGuard countBody = some ⟨"x", "c"⟩ := by decide

/-- From 11 and 0 the loop ends with 0 and 3. -/
theorem popcount_preserved_iff_eleven : matchKernighanPopcount countGuard countBody = some ⟨"x", "c"⟩ ∧
    (∀ own r, LoopRuns own countGuard countBody (fun name => if name = "x" then 11#8 else 0) r ↔
      r = emitKernighanPopcount ⟨"x", "c"⟩ (fun name => if name = "x" then 11#8 else 0)) := by
  refine ⟨count_matches, (popcount_preserved_iff count_matches (by decide) _).mpr ⟨by decide, Or.inr ?_⟩⟩
  exact ⟨_, _, _, rfl, by decide, Or.inr ⟨by decide, by decide, Or.inl (by decide)⟩⟩

/-- At -1 the loop traps at the sign bit, and what is emitted counts eight bits. -/
theorem popcount_not_preserved : ¬∀ (condition : Expr) (body : Block) (m : KernighanPopcount),
    matchKernighanPopcount condition body = some m → ∀ w, 2 ≤ w → w ≤ 64 → ∀ (σ : Vars w) own r,
      LoopRuns own condition body σ r ↔ r = emitKernighanPopcount m σ := by
  intro hall
  obtain ⟨sub, mask, increment, hmatched⟩ := matched_of_match count_matches
  have hruns := (hall _ _ _ count_matches 8 (by decide) (by decide) (fun name => if name = "x" then -1#8 else 0)
    (noneReturns 8) _).mpr rfl
  obtain ⟨-, hzero | ⟨sub, mask, increment, -, -, hmin | ⟨-, -, hpos | hover⟩⟩⟩ := hmatched.cond_of_runs (by decide) hruns
  · exact absurd hzero (by decide)
  · exact absurd hmin (by decide)
  · exact absurd hpos (by decide)
  · exact absurd hover (by decide)

end Karac.Codegen
