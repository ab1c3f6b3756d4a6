import Karac.Codegen.MachineInt
import Karac.Codegen.MonotoneScan

/-! The assumption that a reported variable stays on one side of its loop-entry value. The comparison is signed,
whatever the type of the variable. -/

namespace Karac.Codegen

open Ast

/-! What a loop does to the slots. -/

def compoundBinOp : CompoundOp → BinOp
  | .add => .add
  | .sub => .sub
  | .mul => .mul
  | .div => .div
  | .mod => .mod
  | .bitAnd => .bitAnd
  | .bitOr => .bitOr
  | .bitXor => .bitXor
  | .shl => .shl
  | .shr => .shr

def isIdentifier : Expr → Bool
  | .identifier _ => true
  | _ => false

/-- The names a node binds anew. -/
def nodeBinds : Node → List String
  | .stmt (.letStmt _ pattern _) => pattern.bindingNames
  | .stmt (.letUninit _ name) => [name]
  | .stmt (.letElse pattern _ _) => pattern.bindingNames
  | .stmt (.errDefer binding _) => binding.toList
  | .expr (.ifLet pattern _ _ _) => pattern.bindingNames
  | .expr (.whileLet _ pattern _ _) => pattern.bindingNames
  | .expr (.forLoop _ pattern _ _) => pattern.bindingNames
  | .expr (.closure params _ _) => params.flatMap Pattern.bindingNames
  | .arm a => a.pattern.bindingNames
  | _ => []

def isPlaceholder : Expr → Bool
  | .pipePlaceholder => true
  | _ => false

/-- The call that a pipe stands for takes the piped operand as mutable, or takes its address. -/
def pipesMutably : Expr → Bool
  | .call callee args => isPtrBuiltin callee || args.any fun a => a.mutMarker && isPlaceholder a.value
  | right => isPtrBuiltin right

def isPipe : Node → Bool
  | .expr (.pipe _ _) => true
  | _ => false

/-- The node itself can give the variable the value: it assigns it, stores in a place in it, passes it on as
mutable or to a method, or binds the name anew. -/
inductive Writes (σ : Slots) : Node → String → IntVal → Prop
  | assign {x : String} {value : Expr} {v : IntVal} (h : Evaluates σ value v) :
    Writes σ (.stmt (.assign (.identifier x) value)) x v
  | compound {x : String} {op : CompoundOp} {value : Expr} {v : IntVal}
    (h : Evaluates σ (.binary (compoundBinOp op) (.identifier x) value) v) :
    Writes σ (.stmt (.compoundAssign (.identifier x) op value)) x v
  | store {target value : Expr} {x : String} {v : IntVal} (hplace : isIdentifier target = false)
    (h : placeRootIdent target = some x) : Writes σ (.stmt (.assign target value)) x v
  | compoundStore {target value : Expr} {op : CompoundOp} {x : String} {v : IntVal}
    (hplace : isIdentifier target = false) (h : placeRootIdent target = some x) :
    Writes σ (.stmt (.compoundAssign target op value)) x v
  | chain {object : Expr} {name : String} {args : Option (List CallArg)} {x : String} {v : IntVal}
    (h : placeRootIdent object = some x) : Writes σ (.expr (.optionalChain object name args)) x v
  | method {object : Expr} {name : String} {args : List CallArg} {x : String} {v : IntVal}
    (h : placeRootIdent object = some x) : Writes σ (.expr (.methodCall object name args)) x v
  | mutArg {a : CallArg} {x : String} {v : IntVal} (hmut : a.mutMarker = true) (h : placeRootIdent a.value = some x) :
    Writes σ (.arg a) x v
  | pointer {callee : Expr} {args : List CallArg} {a : CallArg} {x : String} {v : IntVal}
    (hptr : isPtrBuiltin callee = true) (ha : a ∈ args) (h : placeRootIdent a.value = some x) :
    Writes σ (.expr (.call callee args)) x v
  | pipe {left right : Expr} {x : String} {v : IntVal} (hright : pipesMutably right = true)
    (h : placeRootIdent left = some x) : Writes σ (.expr (.pipe left right)) x v
  | bind {n : Node} {x : String} {v : IntVal} (h : x ∈ nodeBinds n) : Writes σ n x v

inductive Event
  | own (n : Node) (x : String) (v : IntVal)
  /-- A closure made before the loop is called and writes a variable that it captured by reference. -/
  | captured (x : String) (v : IntVal)

/-- A slot keeps its type. -/
def Slots.Fits (σ : Slots) (x : String) (v : IntVal) : Prop := ∀ a, σ x = some a → v.ty = a.ty

/-- A write in the guard or the body of the loop, or through a captured reference. -/
inductive LoopStep (guard : Option Expr) (body : Block) (σ : Slots) : Event → Slots → Prop
  | own {n : Node} {x : String} {v : IntVal} (hn : InLoop guard body n) (hw : Writes σ n x v) (hfits : σ.Fits x v) :
    LoopStep guard body σ (.own n x v) (Function.update σ x (some v))
  | captured {x : String} {v : IntVal} (hfits : σ.Fits x v) :
    LoopStep guard body σ (.captured x v) (Function.update σ x (some v))

/-- The slots at any point of an execution of the loop whose steps all satisfy the condition. -/
def Reaches (guard : Option Expr) (body : Block) (Cond : Slots → Event → Prop) : Slots → Slots → Prop :=
  Relation.ReflTransGen fun σ σ' => ∃ e, LoopStep guard body σ e σ' ∧ Cond σ e

/-! The monotone assumptions. -/

/-- The comparison of the current value with the loop-entry value. -/
def MonotoneDir.Holds (init cur : IntVal) : MonotoneDir → Prop
  | .increasing => init.asSigned ≤ cur.asSigned
  | .decreasing => cur.asSigned ≤ init.asSigned

/-- Every reported variable compares with its loop-entry value as the emitted assumption says. -/
def MonotoneAssumes (guard : Option Expr) (body : Block) (σ₀ σ : Slots) : Prop :=
  ∀ entry ∈ collectMonotoneVars guard body, ∀ init cur, σ₀ entry.1 = some init → σ entry.1 = some cur →
    entry.2.Holds init cur

/-- The two values are on one side of the sign bit. A signed value always reads as itself. -/
def SameHalf (a b : IntVal) : Prop := a.val < a.ty.half ↔ b.val < b.ty.half

/-- A reported variable is written in the loop itself, not through a pipe and by a primitive operator, and an
unsigned one stays on its side of the sign bit. -/
def MonotoneCond (guard : Option Expr) (body : Block) (σ : Slots) : Event → Prop
  | .own n x v => ∀ dir, (x, dir) ∈ collectMonotoneVars guard body →
    isPipe n = false ∧ (∀ value, n = .stmt (.assign (.identifier x) value) → ownOperator value = false) ∧
      ∀ a, σ x = some a → SameHalf a v
  | .captured x _ => ∀ dir, (x, dir) ∉ collectMonotoneVars guard body

/-- The direction in which the value moves. -/
def MonotoneDir.Toward (old new : ℤ) : MonotoneDir → Prop
  | .increasing => old ≤ new
  | .decreasing => new ≤ old

theorem literalDir_eq {c : ℤ} {dir d : MonotoneDir} (h : literalDir c dir = some d) : 0 ≤ c ∧ d = dir := by
  unfold literalDir at h
  split_ifs at h with hc
  exact ⟨hc, (Option.some.inj h).symm⟩

theorem methodDir_eq {method : String} {c : ℤ} {dir : MonotoneDir}
    (h : (methodDir method).bind (literalDir c) = some dir) :
    0 ≤ c ∧ (method = "add" ∧ dir = .increasing ∨ method = "sub" ∧ dir = .decreasing) := by
  unfold methodDir at h
  split_ifs at h with hadd hsub
  · obtain ⟨hc, rfl⟩ := literalDir_eq h
    exact ⟨hc, Or.inl ⟨hadd, rfl⟩⟩
  · obtain ⟨hc, rfl⟩ := literalDir_eq h
    exact ⟨hc, Or.inr ⟨hsub, rfl⟩⟩
  · cases h

/-- The three arithmetic forms of a recognized update. -/
inductive Update (x : String) : MonotoneDir → Arith → Prop
  | addRight {c : ℤ} (hc : 0 ≤ c) : Update x .increasing (.op .add (.var x) (.lit c))
  | addLeft {c : ℤ} (hc : 0 ≤ c) : Update x .increasing (.op .add (.lit c) (.var x))
  | sub {c : ℤ} (hc : 0 ≤ c) : Update x .decreasing (.op .sub (.var x) (.lit c))

theorem update_of_classify {x : String} {value : Expr} {dir : MonotoneDir}
    (h : classifyMonotoneRhs x value = some dir) (hown : ownOperator value = false) :
    ∃ a, toArith value = some a ∧ Update x dir a := by
  unfold classifyMonotoneRhs at h
  split at h
  · split_ifs at h with hx
    subst hx
    obtain ⟨hc, rfl⟩ := literalDir_eq h
    exact ⟨_, rfl, .addRight hc⟩
  · split_ifs at h with hx
    subst hx
    obtain ⟨hc, rfl⟩ := literalDir_eq h
    exact ⟨_, rfl, .addLeft hc⟩
  · split_ifs at h with hx
    subst hx
    obtain ⟨hc, rfl⟩ := literalDir_eq h
    exact ⟨_, rfl, .sub hc⟩
  · split_ifs at h with hx
    subst hx
    have hprim := (primitive_of_ownOperator hown).1
    obtain ⟨hc, ⟨rfl, rfl⟩ | ⟨rfl, rfl⟩⟩ := methodDir_eq h
    · exact ⟨_, toArith_call hprim rfl rfl rfl, .addRight hc⟩
    · exact ⟨_, toArith_call hprim rfl rfl rfl, .sub hc⟩
  · split_ifs at h with hx
    obtain ⟨rfl, rfl⟩ := hx
    have hprim := (primitive_of_ownOperator hown).1
    obtain ⟨hc, rfl⟩ := literalDir_eq h
    exact ⟨_, toArith_call hprim rfl rfl rfl, .addLeft hc⟩
  · cases h

/-- A recognized update moves the value in its direction: it traps rather than wrap. -/
theorem toward_of_update {σ : Slots} {x : String} {dir : MonotoneDir} {a : Arith} {old new : IntVal}
    (hupd : Update x dir a) (hold : σ x = some old) (hval : a.Evals σ new) :
    new.ty = old.ty ∧ dir.Toward old.val new.val := by
  cases hupd with
  | @addRight c hc =>
    cases hval with
    | op hl hr hrun =>
      have hvar := eval_var hl
      rw [hold] at hvar
      cases hvar
      obtain ⟨hty, hnew⟩ := val_of_add hrun
      have hlit := eval_lit hr
      refine ⟨hty, ?_⟩
      simp only [MonotoneDir.Toward]
      omega
  | @addLeft c hc =>
    cases hval with
    | op hl hr hrun =>
      have hvar := eval_var hr
      rw [hold] at hvar
      cases hvar
      obtain ⟨hty, hnew⟩ := val_of_add hrun
      have hlit := eval_lit hl
      refine ⟨hty.trans (ty_of_add hrun).symm, ?_⟩
      simp only [MonotoneDir.Toward]
      omega
  | @sub c hc =>
    cases hval with
    | op hl hr hrun =>
      have hvar := eval_var hl
      rw [hold] at hvar
      cases hvar
      obtain ⟨hty, _, hnew⟩ := val_of_sub hrun
      have hlit := eval_lit hr
      refine ⟨hty, ?_⟩
      simp only [MonotoneDir.Toward]
      omega

/-- On one side of the sign bit the signed comparison agrees with the values. -/
theorem asSigned_le {a b : IntVal} (hty : b.ty = a.ty) (hhalf : SameHalf a b) (h : a.val ≤ b.val) :
    a.asSigned ≤ b.asSigned := by
  unfold SameHalf at hhalf
  unfold IntVal.asSigned
  rw [hty] at hhalf ⊢
  split_ifs with ha hb
  · exact h
  · exact absurd (hhalf.mp ha) hb
  · omega
  · omega

theorem holds_of_toward {dir : MonotoneDir} {init old new : IntVal} (hty : new.ty = old.ty) (hhalf : SameHalf old new)
    (hdir : dir.Toward old.val new.val) (h : dir.Holds init old) : dir.Holds init new := by
  cases dir with
  | increasing => exact le_trans h (asSigned_le hty hhalf hdir)
  | decreasing => exact le_trans (asSigned_le hty.symm hhalf.symm hdir) h

theorem classify_of_compoundDir {x : String} {op : CompoundOp} {value : Expr} {dir : MonotoneDir}
    (h : compoundDir op value = some dir) :
    classifyMonotoneRhs x (.binary (compoundBinOp op) (.identifier x) value) = some dir ∧
      ownOperator (.binary (compoundBinOp op) (.identifier x) value) = false := by
  unfold compoundDir at h
  split at h
  · exact ⟨by simpa [classifyMonotoneRhs, compoundBinOp] using h, rfl⟩
  · exact ⟨by simpa [classifyMonotoneRhs, compoundBinOp] using h, rfl⟩
  · cases h

/-- What a node binds it poisons. -/
theorem poison_of_binds {n : Node} {x : String} (h : x ∈ nodeBinds n) : ScanOp.poison x ∈ nodeOps n := by
  cases n with
  | expr e => cases e <;> simp_all [nodeBinds, nodeOps, exprOps, poisonOps]
  | stmt s => cases s <;> simp_all [nodeBinds, nodeOps, stmtOps, poisonOps]
  | block b => cases h
  | arg a => cases h
  | arm a => exact List.mem_map_of_mem h

/-- A write that the scan does not poison is a recognized update. -/
theorem recognized_of_writes {σ : Slots} {n : Node} {x : String} {v : IntVal} (hw : Writes σ n x v)
    (hclean : ScanOp.poison x ∉ nodeOps n) (hpipe : isPipe n = false)
    (hown : ∀ w, n = .stmt (.assign (.identifier x) w) → ownOperator w = false) :
    ∃ value dir, classifyMonotoneRhs x value = some dir ∧ ScanOp.record x dir ∈ nodeOps n ∧
      ownOperator value = false ∧ Evaluates σ value v := by
  cases hw with
  | @assign _ value _ h =>
    cases hdir : classifyMonotoneRhs x value with
    | none => simp [nodeOps, stmtOps, hdir, markOp] at hclean
    | some dir =>
      refine ⟨value, dir, hdir, ?_, hown value rfl, h⟩
      simp [nodeOps, stmtOps, hdir, markOp]
  | @compound _ op value _ h =>
    cases hdir : compoundDir op value with
    | none => simp [nodeOps, stmtOps, hdir, markOp] at hclean
    | some dir =>
      obtain ⟨hclass, hprim⟩ := classify_of_compoundDir (x := x) hdir
      refine ⟨_, dir, hclass, ?_, hprim, h⟩
      simp [nodeOps, stmtOps, hdir, markOp]
  | @store target value _ _ hplace h =>
    cases target <;> simp_all [nodeOps, stmtOps, rootOps, poisonOps, isIdentifier, placeRootIdent]
  | @compoundStore target value op _ _ hplace h =>
    cases target <;> simp_all [nodeOps, stmtOps, rootOps, poisonOps, isIdentifier, placeRootIdent]
  | chain h => simp [nodeOps, exprOps, rootOps, poisonOps, h] at hclean
  | method h => simp [nodeOps, exprOps, rootOps, poisonOps, h] at hclean
  | mutArg hmut h => simp [nodeOps, rootOps, poisonOps, hmut, h] at hclean
  | pointer hptr ha h =>
    simp only [nodeOps, exprOps, poisonOps, hptr, if_true, List.mem_map, List.mem_filterMap] at hclean
    exact absurd ⟨x, ⟨_, ha, h⟩, rfl⟩ hclean
  | pipe hright h => cases hpipe
  | bind h => exact absurd (poison_of_binds h) hclean

/-- The value of a reported variable with the type of its loop-entry value. -/
def Keeps (init : IntVal) (dir : MonotoneDir) (σ : Slots) (x : String) : Prop :=
  ∃ cur, σ x = some cur ∧ cur.ty = init.ty ∧ dir.Holds init cur

theorem keeps_step {guard : Option Expr} {body : Block} {x : String} {dir : MonotoneDir} {init : IntVal}
    {σ σ' : Slots} {e : Event} (hx : (x, dir) ∈ collectMonotoneVars guard body)
    (hstep : LoopStep guard body σ e σ') (hcond : MonotoneCond guard body σ e) (h : Keeps init dir σ x) :
    Keeps init dir σ' x := by
  obtain ⟨old, hold, hty, hdir⟩ := h
  cases hstep with
  | @own n y v hn hw hfits =>
    by_cases hxy : x = y
    · subst hxy
      obtain ⟨hpipe, hown, hhalf⟩ := hcond dir hx
      obtain ⟨value, d, hclass, hrecord, hprim, hval⟩ :=
        recognized_of_writes hw (not_poisoned_of_collected hx hn) hpipe hown
      obtain rfl := dir_of_collected hx hn hrecord
      obtain ⟨a, ha, hupd⟩ := update_of_classify hclass hprim
      obtain ⟨hvty, htoward⟩ := toward_of_update hupd hold (hval a ha)
      refine ⟨v, Function.update_self .., hvty.trans hty, ?_⟩
      exact holds_of_toward hvty (hhalf old hold) htoward hdir
    · exact ⟨old, (Function.update_of_ne hxy ..).trans hold, hty, hdir⟩
  | @captured y v hfits =>
    have hxy : x ≠ y := by
      rintro rfl
      exact hcond dir hx
    exact ⟨old, (Function.update_of_ne hxy ..).trans hold, hty, hdir⟩

theorem keeps_run {guard : Option Expr} {body : Block} {x : String} {dir : MonotoneDir} {init : IntVal}
    {σ₀ σ : Slots} (hx : (x, dir) ∈ collectMonotoneVars guard body) (hinit : σ₀ x = some init)
    (hrun : Reaches guard body (MonotoneCond guard body) σ₀ σ) : Keeps init dir σ x := by
  induction hrun with
  | refl =>
    refine ⟨init, hinit, rfl, ?_⟩
    cases dir <;> exact le_refl _
  | tail _ hstep ih =>
    obtain ⟨e, hstep, hcond⟩ := hstep
    exact keeps_step hx hstep hcond ih

theorem monotone_assumes_of_reaches {guard : Option Expr} {body : Block} {σ₀ σ : Slots}
    (hrun : Reaches guard body (MonotoneCond guard body) σ₀ σ) : MonotoneAssumes guard body σ₀ σ := by
  intro entry hentry init cur hinit hcur
  obtain ⟨cur', hcur', _, hdir⟩ := keeps_run hentry hinit hrun
  rw [hcur] at hcur'
  cases hcur'
  exact hdir

end Karac.Codegen
