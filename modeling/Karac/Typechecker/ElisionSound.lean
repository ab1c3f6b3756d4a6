import Karac.Lib.Computations
import Karac.Typechecker.Acceptance
import Karac.Typechecker.RefinementElision

/-! Where the evaluator and the run read an expression alike, narrowing at compile time answers for the run. -/

namespace Karac.Typechecker

open Ast (BinOp UnaryOp)
open Lib (ok_of_bind)

/-- The expression the evaluator is given for one of the scope: in the predicate, the initializer stands for `self`. -/
def Scope.place (init : ConstExpr) : Scope → ConstExpr → ConstExpr
  | .predicate _, e => e.substSelf init
  | _, e => e

/-- An expression the evaluator gives up on, whatever the target. -/
def ConstEnv.unfoldable (env : ConstEnv) (s : Scope) : ConstExpr → Bool
  | .integer _ _ => false
  | .float _ _ _ => false
  | .bool _ => false
  | .charLit _ => false
  | .byteLit _ => false
  | .identifier name => (env.constDecl? name).isNone
  | .path [enumName, variantName] => (env.variant enumName variantName).toOption.isNone
  | .selfValue =>
    match s with
    | .predicate _ => false
    | _ => true
  | .unary _ _ operand => env.unfoldable s operand
  | .binary _ op left right => env.unfoldable s left || (!isLogical op && env.unfoldable s right)
  | _ => true

/-- The evaluator and the run read the expression alike, as the value `w`: no local hides a constant that is read, no
operation of the run traps, and no bit is lost at one width that is kept at the other. Where the evaluator gives up,
nothing is asked. -/
inductive Agrees (env : ConstEnv) (st : RunState) (init : ConstExpr) : Scope → Ty → ConstExpr → ConstValue → Prop
  | unfoldable {s : Scope} {target : Ty} {e : ConstExpr} {w : ConstValue} (h : env.unfoldable s e = true) :
    Agrees env st init s target e w
  | integer {s : Scope} {target : Ty} {n : ℤ} {sfx : Option IntKind} :
    Agrees env st init s target (.integer n sfx) (.int (literalKind sfx target) (literalValue n sfx))
  | float {s : Scope} {target : Ty} {span : ℕ} {f : Float} {sfx : Option FloatSize} {w : ConstValue}
    (h : ∀ c, floatToConstValue f sfx target = .ok c → c = w ∧ st.float span f = some w.toRun) :
    Agrees env st init s target (.float span f sfx) w
  | bool {s : Scope} {target : Ty} {b : Bool} : Agrees env st init s target (.bool b) (.bool b)
  | charLit {s : Scope} {target : Ty} {c : Char} : Agrees env st init s target (.charLit c) (.char c)
  | byteLit {s : Scope} {target : Ty} {b : UInt8} :
    Agrees env st init s target (.byteLit b) (.int (.uint .u8) b.toNat)
  | path {s : Scope} {target : Ty} {enumName variantName : String} {w : ConstValue}
    (h : env.variant enumName variantName = .ok w) : Agrees env st init s target (.path [enumName, variantName]) w
  | const {s : Scope} {target : Ty} {name : String} {c : ConstDecl} {w : ConstValue}
    (hs : st.lookup s name = st.consts name) (hc : env.constDecl? name = some c)
    (h : Agrees env st init .constant target c.value w) : Agrees env st init s target (.identifier name) w
  | self {v : RunValue} {target : Ty} {w : ConstValue} (h : Agrees env st init .body target init w) :
    Agrees env st init (.predicate v) target .selfValue w
  | neg {s : Scope} {target : Ty} {span : ℕ} {e : ConstExpr} {t : IntKind} {a b : ℤ}
    (h : Agrees env st init s target e (.int t a)) (hb : (st.intKindAt span).checked (-a) = some b) :
    Agrees env st init s target (.unary span .neg e) (.int t b)
  | not {s : Scope} {target : Ty} {span : ℕ} {e : ConstExpr} {b : Bool}
    (h : Agrees env st init s target e (.bool b)) :
    Agrees env st init s target (.unary span .not e) (.bool !b)
  | unaryStuck {s : Scope} {target : Ty} {span : ℕ} {op : UnaryOp} {e : ConstExpr} {x w : ConstValue}
    (h : Agrees env st init s target e x) (hx : ∀ c, applyUnary op x ≠ .ok c) :
    Agrees env st init s target (.unary span op e) w
  | shortCircuit {s : Scope} {target : Ty} {span : ℕ} {op : BinOp} {l r : ConstExpr} (hop : isLogical op = true)
    (hl : Agrees env st init s .bool l (.bool (op = .or))) :
    Agrees env st init s target (.binary span op l r) (.bool (op = .or))
  | logical {s : Scope} {target : Ty} {span : ℕ} {op : BinOp} {l r : ConstExpr} {b : Bool}
    (hop : isLogical op = true) (hl : Agrees env st init s .bool l (.bool (op ≠ .or)))
    (hr : Agrees env st init s .bool r (.bool b)) : Agrees env st init s target (.binary span op l r) (.bool b)
  | compare {s : Scope} {target : Ty} {span : ℕ} {op : BinOp} {l r : ConstExpr} {x y : ConstValue} {o : Ordering}
    (hop : isComparison op = true)
    (hl : Agrees env st init s (operandTarget op (s.place init l) (s.place init r) target) l x)
    (hr : Agrees env st init s (operandTarget op (s.place init l) (s.place init r) target) r y)
    (ho : compareConst x y = some o) : Agrees env st init s target (.binary span op l r) (.bool (cmp op o))
  | arithmetic {s : Scope} {target : Ty} {span : ℕ} {op : BinOp} {l r : ConstExpr} {t t' : IntKind} {a b c : ℤ}
    (hop : isArithmetic op = true) (hl : Agrees env st init s target l (.int t a))
    (hr : Agrees env st init s target r (.int t' b)) (hc : (st.intKindAt span).checkedOp op a b = some c)
    (hshl : op = .shl → t.wrap (a * 2 ^ b.toNat) = (st.intKindAt span).wrap (a * 2 ^ b.toNat)) :
    Agrees env st init s target (.binary span op l r) (.int t c)
  | binaryStuck {s : Scope} {target : Ty} {span : ℕ} {op : BinOp} {l r : ConstExpr} {x y w : ConstValue}
    (hop : isLogical op = false)
    (hl : Agrees env st init s (operandTarget op (s.place init l) (s.place init r) target) l x)
    (hr : Agrees env st init s (operandTarget op (s.place init l) (s.place init r) target) r y)
    (hxy : ∀ c, applyBinary op x y ≠ .ok c) : Agrees env st init s target (.binary span op l r) w

section

variable {env : ConstEnv} {init : ConstExpr} {s : Scope}

@[simp] theorem place_unary (span : ℕ) (op : UnaryOp) (e : ConstExpr) :
    s.place init (.unary span op e) = .unary span op (s.place init e) := by
  cases s <;> rfl

@[simp] theorem place_binary (span : ℕ) (op : BinOp) (l r : ConstExpr) :
    s.place init (.binary span op l r) = .binary span op (s.place init l) (s.place init r) := by
  cases s <;> rfl

@[simp] theorem place_integer (n : ℤ) (sfx : Option IntKind) : s.place init (.integer n sfx) = .integer n sfx := by
  cases s <;> rfl

@[simp] theorem place_float (span : ℕ) (f : Float) (sfx : Option FloatSize) :
    s.place init (.float span f sfx) = .float span f sfx := by
  cases s <;> rfl

@[simp] theorem place_bool (b : Bool) : s.place init (.bool b) = .bool b := by
  cases s <;> rfl

@[simp] theorem place_charLit (c : Char) : s.place init (.charLit c) = .charLit c := by
  cases s <;> rfl

@[simp] theorem place_byteLit (b : UInt8) : s.place init (.byteLit b) = .byteLit b := by
  cases s <;> rfl

@[simp] theorem place_identifier (name : String) : s.place init (.identifier name) = .identifier name := by
  cases s <;> rfl

@[simp] theorem place_path (segments : List String) : s.place init (.path segments) = .path segments := by
  cases s <;> rfl

variable {chain : List String} {target : Ty} {c : ConstValue}

theorem eval_identifier {name : String} {d : ConstDecl} (hn : name ∉ chain) (hd : env.constDecl? name = some d) :
    env.evalConstExprWithChain chain target (.identifier name) =
      env.evalConstExprWithChain (chain ++ [name]) target d.value := by
  rw [ConstEnv.evalConstExprWithChain.eq_def]
  simp only [hn, dif_neg, not_false_eq_true]
  split
  · rename_i d' hd'
    rw [Option.some.inj (hd.symm.trans hd')]
  · rename_i hd'
    simp [hd] at hd'

theorem eval_cyclic {name : String} (hn : name ∈ chain) :
    env.evalConstExprWithChain chain target (.identifier name) = fail (.cyclicConstDef (chain ++ [name])) := by
  rw [ConstEnv.evalConstExprWithChain.eq_def]
  simp [hn]

theorem ok_of_eval_unary {span : ℕ} {op : UnaryOp} {e : ConstExpr}
    (h : env.evalConstExprWithChain chain target (.unary span op e) = .ok c) :
    ∃ v, env.evalConstExprWithChain chain target e = .ok v ∧ applyUnary op v = .ok c := by
  rw [ConstEnv.evalConstExprWithChain.eq_def] at h
  exact ok_of_bind h

theorem ok_of_eval_binary {span : ℕ} {op : BinOp} {l r : ConstExpr} (hop : isLogical op = false)
    (h : env.evalConstExprWithChain chain target (.binary span op l r) = .ok c) :
    ∃ x y, env.evalConstExprWithChain chain (operandTarget op l r target) l = .ok x ∧
      env.evalConstExprWithChain chain (operandTarget op l r target) r = .ok y ∧ applyBinary op x y = .ok c := by
  rw [ConstEnv.evalConstExprWithChain.eq_def] at h
  simp only [hop, Bool.false_eq_true, if_false] at h
  obtain ⟨x, hx, h⟩ := ok_of_bind h
  obtain ⟨y, hy, h⟩ := ok_of_bind h
  exact ⟨x, y, hx, hy, h⟩

theorem ok_of_eval_logical {span : ℕ} {op : BinOp} {l r : ConstExpr} (hop : isLogical op = true)
    (h : env.evalConstExprWithChain chain target (.binary span op l r) = .ok c) :
    ∃ a, env.evalConstExprWithChain chain .bool l = .ok (.bool a) ∧
      (a = decide (op = .or) ∧ c = .bool a ∨
        a ≠ decide (op = .or) ∧ ∃ y, env.evalConstExprWithChain chain .bool r = .ok y ∧
          applyBinary op (.bool a) y = .ok c) := by
  rw [ConstEnv.evalConstExprWithChain.eq_def] at h
  simp only [hop, if_true, operandTarget] at h
  obtain ⟨x, hx, h⟩ := ok_of_bind h
  cases x with
  | bool a =>
    refine ⟨a, hx, ?_⟩
    by_cases ha : a = decide (op = .or)
    · simp only [ha, if_true] at h
      cases h
      exact Or.inl ⟨ha, by rw [ha]⟩
    · simp only [ha, if_false] at h
      obtain ⟨y, hy, h⟩ := ok_of_bind h
      exact Or.inr ⟨ha, y, hy, h⟩
  | _ => cases h

/-- What the evaluator gives up on stays so with the initializer in place of `self`. -/
theorem eval_unfoldable {e : ConstExpr} (h : env.unfoldable s e = true) (chain : List String) (target : Ty)
    (c : ConstValue) : env.evalConstExprWithChain chain target (s.place init e) ≠ .ok c := by
  fun_induction ConstEnv.unfoldable env s e generalizing target c with
  | case6 name =>
    rw [place_identifier, ConstEnv.evalConstExprWithChain.eq_def]
    have hnone : env.constDecl? name = none := Option.isNone_iff_eq_none.mp h
    by_cases hn : name ∈ chain
    · simp [hn, fail]
    · simp only [hn, dif_neg, not_false_eq_true]
      split
      · rename_i d hd
        simp [hnone] at hd
      · simp [fail]
  | case7 enumName variantName =>
    rw [place_path, ConstEnv.evalConstExprWithChain.eq_def]
    intro hev
    simp only [] at hev
    simp [hev, Except.toOption] at h
  | case9 hs =>
    cases s with
    | predicate v => exact absurd rfl (hs v)
    | _ => simp [Scope.place, ConstEnv.evalConstExprWithChain.eq_def, fail]
  | case10 span op e ih =>
    rw [place_unary]
    intro hev
    obtain ⟨v, hv, _⟩ := ok_of_eval_unary hev
    exact ih h _ _ hv
  | case11 span op l r ihl ihr =>
    rw [place_binary]
    intro hev
    by_cases hop : isLogical op = true
    · obtain ⟨a, ha, _⟩ := ok_of_eval_logical hop hev
      exact ihl (by simpa [hop] using h) _ _ ha
    · have hopf : isLogical op = false := by simpa using hop
      obtain ⟨x, y, hx, hy, _⟩ := ok_of_eval_binary hopf hev
      rcases Bool.or_eq_true_iff.mp h with hl | hr
      · exact ihl hl _ _ hx
      · exact ihr (by simpa [hopf] using hr) _ _ hy
  | case12 e _ _ _ _ _ _ _ _ _ hbinary =>
    cases e with
    | path segments =>
      rw [place_path, ConstEnv.evalConstExprWithChain.eq_def]
      split <;> simp_all [fail]
    | binary span op l r => exact (hbinary span op l r rfl).elim
    | _ => cases s <;> simp_all [Scope.place, ConstExpr.substSelf, ConstEnv.evalConstExprWithChain, fail]
  | _ => cases h

theorem checked_eq {t : IntKind} {v w : ℤ} (h : t.checked v = some w) : w = v ∧ t.min ≤ v ∧ v ≤ t.max := by
  unfold IntKind.checked at h
  split_ifs at h with hv
  exact ⟨(Option.some.inj h).symm, hv⟩

/-- The checked operators compute the same number at every width, save for the bits a shift drops. -/
theorem checkedOp_agree {t t' : IntKind} {op : BinOp} {a b v w : ℤ} (hv : t.checkedOp op a b = some v)
    (hw : t'.checkedOp op a b = some w)
    (hshl : op = .shl → t.wrap (a * 2 ^ b.toNat) = t'.wrap (a * 2 ^ b.toNat)) : v = w := by
  cases op with
  | add => rw [(checked_eq hv).1, (checked_eq hw).1]
  | sub => rw [(checked_eq hv).1, (checked_eq hw).1]
  | mul => rw [(checked_eq hv).1, (checked_eq hw).1]
  | div =>
    simp only [IntKind.checkedOp] at hv hw
    split_ifs at hv hw
    rw [(checked_eq hv).1, (checked_eq hw).1]
  | mod =>
    simp only [IntKind.checkedOp] at hv hw
    split_ifs at hv hw
    obtain ⟨_, _, rfl⟩ := Option.map_eq_some_iff.mp hv
    obtain ⟨_, _, rfl⟩ := Option.map_eq_some_iff.mp hw
    rfl
  | shl =>
    simp only [IntKind.checkedOp] at hv hw
    split_ifs at hv hw
    rw [← Option.some.inj hv, ← Option.some.inj hw, hshl rfl]
  | shr =>
    simp only [IntKind.checkedOp] at hv hw
    split_ifs at hv hw
    rw [← Option.some.inj hv, ← Option.some.inj hw]
  | bitAnd => rw [← Option.some.inj hv, ← Option.some.inj hw]
  | bitOr => rw [← Option.some.inj hv, ← Option.some.inj hw]
  | bitXor => rw [← Option.some.inj hv, ← Option.some.inj hw]
  | _ => cases hv

@[simp] theorem intKind_toTy (t : IntKind) : t.toTy.intKind? = some t := by
  cases t <;> rfl

theorem literalValue_of_min_le {n : ℤ} {sfx : Option IntKind} {target : Ty}
    (hmax : n ≤ 2 ^ 63 - 1) (h : (literalKind sfx target).min ≤ n) : literalValue n sfx = n := by
  cases sfx with
  | none => rfl
  | some t =>
    cases t with
    | int size => rfl
    | uint size =>
      have h0 : 0 ≤ n := h
      cases size <;> simp only [literalValue] <;> omega

theorem narrowLiteral_eq {n v : ℤ} (h : narrowLiteralToI64 n = .ok v) : v = n ∧ n ≤ 2 ^ 63 - 1 := by
  unfold narrowLiteralToI64 at h
  split at h
  · rename_i w hw
    obtain ⟨rfl, -, hmax⟩ := checked_eq hw
    exact ⟨(Except.ok.inj h).symm, hmax⟩
  · cases h

theorem integerToConst_eq {n : ℤ} {t : IntKind} (h : integerToConstValue n t.toTy = .ok c) :
    c = .int t n ∧ t.min ≤ n := by
  simp only [integerToConstValue, intKind_toTy] at h
  split at h
  · rename_i w hw
    obtain ⟨rfl, hmin, -⟩ := checked_eq hw
    exact ⟨(Except.ok.inj h).symm, hmin⟩
  · cases h

theorem eval_integer {n : ℤ} {sfx : Option IntKind}
    (h : env.evalConstExprWithChain chain target (.integer n sfx) = .ok c) :
    c = .int (literalKind sfx target) (literalValue n sfx) := by
  rw [ConstEnv.evalConstExprWithChain.eq_def] at h
  obtain ⟨v, hv, hc⟩ := ok_of_bind h
  obtain ⟨rfl, hmax⟩ := narrowLiteral_eq hv
  obtain ⟨rfl, hmin⟩ := integerToConst_eq hc
  rw [literalValue_of_min_le hmax hmin]

theorem compareRun_of_compareConst {x y : ConstValue} {o : Ordering} (h : compareConst x y = some o) :
    compareRun x.toRun y.toRun = some (some o) := by
  cases x <;> cases y <;> simp_all [compareConst, compareRun, ConstValue.toRun]

theorem applyBinary_of_isComparison {op : BinOp} {x y : ConstValue} (hop : isComparison op = true) :
    applyBinary op x y = applyComparison op x y := by
  cases op <;> first | rfl | cases hop

theorem applyBinary_of_isArithmetic {op : BinOp} {x y : ConstValue} (hop : isArithmetic op = true) :
    applyBinary op x y = applyArithmetic op x y := by
  cases op <;> first | rfl | cases hop

theorem isLogical_of_isComparison {op : BinOp} (hop : isComparison op = true) : isLogical op = false := by
  cases op <;> first | rfl | cases hop

theorem isLogical_of_isArithmetic {op : BinOp} (hop : isArithmetic op = true) : isLogical op = false := by
  cases op <;> first | rfl | cases hop

theorem isComparison_of_isArithmetic {op : BinOp} (hop : isArithmetic op = true) : isComparison op = false := by
  cases op <;> first | rfl | cases hop

theorem applyBinary_logical {op : BinOp} {b b' : Bool} (hop : isLogical op = true) (hb : b = decide (op ≠ .or))
    (h : applyBinary op (.bool b) (.bool b') = .ok c) : c = .bool b' := by
  cases op with
  | and =>
    subst hb
    exact (Except.ok.inj h).symm
  | or =>
    subst hb
    exact (Except.ok.inj h).symm
  | _ => cases hop

theorem applyArithmetic_int {op : BinOp} {t t' : IntKind} {a b : ℤ}
    (h : applyArithmetic op (.int t a) (.int t' b) = .ok c) : ∃ v, t.checkedOp op a b = some v ∧ c = .int t v := by
  simp only [applyArithmetic] at h
  split_ifs at h
  · cases h
  · cases h
  · split at h
    · rename_i v hv
      exact ⟨v, hv, (Except.ok.inj h).symm⟩
    · cases h
  · cases h

variable {st : RunState} {x y : RunValue}

theorem run_unary {span : ℕ} {op : UnaryOp} {e : ConstExpr} (hx : st.run env s e = some x) :
    st.run env s (.unary span op e) = runUnary (st.intKindAt span) op x := by
  rw [RunState.run, hx]
  rfl

theorem run_binary {span : ℕ} {op : BinOp} {l r : ConstExpr} (hop : isLogical op = false)
    (hx : st.run env s l = some x) (hy : st.run env s r = some y) :
    st.run env s (.binary span op l r) = runBinary (st.intKindAt span) op x y := by
  simp [RunState.run, hx, hy, hop]

theorem runBinary_of_isComparison {t : IntKind} {op : BinOp} (hop : isComparison op = true) :
    runBinary t op x y = (compareRun x y).map fun o => .bool (cmpPartial op o) := by
  unfold runBinary
  rw [if_pos hop]

theorem run_shortCircuit {span : ℕ} {op : BinOp} {l r : ConstExpr} (hop : isLogical op = true)
    (hx : st.run env s l = some (.bool (op = .or))) :
    st.run env s (.binary span op l r) = some (.bool (op = .or)) := by
  simp [RunState.run, hx, hop]

theorem run_logical {span : ℕ} {op : BinOp} {l r : ConstExpr} {b : Bool} (hop : isLogical op = true)
    (hx : st.run env s l = some (.bool (op ≠ .or))) (hy : st.run env s r = some (.bool b)) :
    st.run env s (.binary span op l r) = some (.bool b) := by
  simp [RunState.run, hx, hy, hop]

theorem place_self (v : RunValue) : (Scope.predicate v).place init .selfValue = init := by
  simp [Scope.place, ConstExpr.substSelf]

/-- Where the two agree, what the evaluator folds the expression to is what it runs to. -/
theorem Agrees.sound {r : Run env} {v : RunValue} (hv : r.run env .body init = some v) {s : Scope} {target : Ty}
    {e : ConstExpr} {w : ConstValue} (h : Agrees env r.toRunState init s target e w)
    (hs : ∀ v', s = .predicate v' → v' = v) (chain : List String) (c : ConstValue)
    (hc : env.evalConstExprWithChain chain target (s.place init e) = .ok c) :
    c = w ∧ r.run env s e = some w.toRun := by
  induction h generalizing chain c with
  | unfoldable h => exact absurd hc (eval_unfoldable h chain _ c)
  | integer =>
    rw [place_integer] at hc
    exact ⟨eval_integer hc, rfl⟩
  | float h =>
    rw [place_float, ConstEnv.evalConstExprWithChain.eq_def] at hc
    exact h c hc
  | bool =>
    rw [place_bool, ConstEnv.evalConstExprWithChain.eq_def] at hc
    exact ⟨(Except.ok.inj hc).symm, rfl⟩
  | charLit =>
    rw [place_charLit, ConstEnv.evalConstExprWithChain.eq_def] at hc
    exact ⟨(Except.ok.inj hc).symm, rfl⟩
  | byteLit =>
    rw [place_byteLit, ConstEnv.evalConstExprWithChain.eq_def] at hc
    exact ⟨(Except.ok.inj hc).symm, rfl⟩
  | path h =>
    rw [place_path, ConstEnv.evalConstExprWithChain.eq_def] at hc
    exact ⟨Except.ok.inj (hc.symm.trans h), by simp [RunState.run, h]⟩
  | @const _ _ name _ _ hl hd h ih =>
    rw [place_identifier] at hc
    by_cases hn : name ∈ chain
    · rw [eval_cyclic hn] at hc
      cases hc
    · rw [eval_identifier hn hd] at hc
      obtain ⟨rfl, hrun⟩ := ih nofun _ _ hc
      exact ⟨rfl, by rw [RunState.run, hl, r.const_value _ _ hd, hrun]⟩
  | @self v' target w h ih =>
    obtain rfl := hs v' rfl
    rw [place_self] at hc
    obtain ⟨rfl, hrun⟩ := ih nofun chain c hc
    exact ⟨rfl, by rw [← hrun, hv]; rfl⟩
  | neg h hb ih =>
    rw [place_unary] at hc
    obtain ⟨x, hx, hc⟩ := ok_of_eval_unary hc
    obtain ⟨rfl, hrun⟩ := ih hs chain x hx
    refine ⟨?_, by rw [run_unary hrun]; simp [runUnary, ConstValue.toRun, hb]⟩
    simp only [applyUnary] at hc
    split_ifs at hc
    · split at hc
      · rename_i b' hb'
        rw [(checked_eq hb).1, ← (checked_eq hb').1]
        exact (Except.ok.inj hc).symm
      · cases hc
    · cases hc
  | not h ih =>
    rw [place_unary] at hc
    obtain ⟨x, hx, hc⟩ := ok_of_eval_unary hc
    obtain ⟨rfl, hrun⟩ := ih hs chain x hx
    exact ⟨(Except.ok.inj hc).symm, by rw [run_unary hrun]; rfl⟩
  | unaryStuck h hx ih =>
    rw [place_unary] at hc
    obtain ⟨x, hev, hc⟩ := ok_of_eval_unary hc
    obtain ⟨rfl, -⟩ := ih hs chain x hev
    exact absurd hc (hx c)
  | shortCircuit hop hl ih =>
    rw [place_binary] at hc
    obtain ⟨a, ha, hc⟩ := ok_of_eval_logical hop hc
    obtain ⟨ha', hrun⟩ := ih hs chain _ ha
    cases ha'
    rcases hc with ⟨-, rfl⟩ | ⟨hne, -⟩
    · exact ⟨rfl, run_shortCircuit hop hrun⟩
    · exact absurd rfl hne
  | logical hop hl hr ihl ihr =>
    rw [place_binary] at hc
    obtain ⟨a, ha, hc⟩ := ok_of_eval_logical hop hc
    obtain ⟨ha', hrun⟩ := ihl hs chain _ ha
    cases ha'
    rcases hc with ⟨heq, -⟩ | ⟨-, y, hy, hc⟩
    · simp at heq
    · obtain ⟨rfl, hrunr⟩ := ihr hs chain _ hy
      exact ⟨applyBinary_logical hop rfl hc, run_logical hop hrun hrunr⟩
  | compare hop hl hr ho ihl ihr =>
    rw [place_binary] at hc
    obtain ⟨x, y, hx, hy, hc⟩ := ok_of_eval_binary (isLogical_of_isComparison hop) hc
    obtain ⟨rfl, hrunl⟩ := ihl hs chain _ hx
    obtain ⟨rfl, hrunr⟩ := ihr hs chain _ hy
    rw [applyBinary_of_isComparison hop, applyComparison, ho] at hc
    refine ⟨(Except.ok.inj hc).symm, ?_⟩
    rw [run_binary (isLogical_of_isComparison hop) hrunl hrunr, runBinary_of_isComparison hop,
      compareRun_of_compareConst ho]
    rfl
  | arithmetic hop hl hr ho hshl ihl ihr =>
    rw [place_binary] at hc
    obtain ⟨x, y, hx, hy, hc⟩ := ok_of_eval_binary (isLogical_of_isArithmetic hop) hc
    simp only [operandTarget, isLogical_of_isArithmetic hop, isComparison_of_isArithmetic hop, Bool.false_eq_true,
      if_false] at hx hy
    obtain ⟨rfl, hrunl⟩ := ihl hs chain _ hx
    obtain ⟨rfl, hrunr⟩ := ihr hs chain _ hy
    rw [applyBinary_of_isArithmetic hop] at hc
    obtain ⟨v, hv, rfl⟩ := applyArithmetic_int hc
    obtain rfl := checkedOp_agree hv ho hshl
    refine ⟨rfl, ?_⟩
    rw [run_binary (isLogical_of_isArithmetic hop) hrunl hrunr]
    simp [runBinary, isComparison_of_isArithmetic hop, ho, ConstValue.toRun]
  | binaryStuck hop hl hr hxy ihl ihr =>
    rw [place_binary] at hc
    obtain ⟨x, y, hx, hy, hc⟩ := ok_of_eval_binary hop hc
    obtain ⟨rfl, -⟩ := ihl hs chain _ hx
    obtain ⟨rfl, -⟩ := ihr hs chain _ hy
    exact absurd hc (hxy c)

theorem eval_of_predicateConst {name : String} {b : Bool}
    (h : env.evalRefinementPredicateConst name init = .ok (some b)) : ∃ pred,
      env.refinementPredicates name = some pred ∧ env.evalConstExpr .bool (pred.substSelf init) = .ok (.bool b) := by
  unfold ConstEnv.evalRefinementPredicateConst at h
  split at h
  · rename_i pred hpred
    refine ⟨pred, hpred, ?_⟩
    split at h
    · rename_i b' hb'
      cases h
      exact hb'
    all_goals cases h
  · cases h

variable {table : StdlibVariance} {name : String} {base actual : Ty}

theorem predicate_of_admitted
    (h : env.tryRefinementNarrowing table init (.refinement name base) actual = .admitted) :
    env.evalRefinementPredicateConst name init = .ok (some true) := by
  simp only [ConstEnv.tryRefinementNarrowing] at h
  split at h
  · split_ifs at h
  · split_ifs at h
    split at h
    · split at h
      · rename_i hb
        exact hb
      all_goals cases h
    all_goals cases h

theorem predicate_of_violation {n : String} {value : ConstValue}
    (h : env.tryRefinementNarrowing table init (.refinement name base) actual = .predicateViolation n value) :
    env.evalRefinementPredicateConst name init = .ok (some false) := by
  simp only [ConstEnv.tryRefinementNarrowing] at h
  split at h
  · split_ifs at h
  · split_ifs at h
    split at h
    · split at h
      · cases h
      · rename_i hb
        exact hb
      all_goals cases h
    all_goals cases h

/-- The evaluator and the run read the predicate on the initializer alike. -/
def Run.PredicateAgrees (r : Run env) (name : String) (init : ConstExpr) (v : RunValue) : Prop :=
  ∀ pred, env.refinementPredicates name = some pred →
    ∃ w, Agrees env r.toRunState init (.predicate v) .bool pred w

theorem satisfies_iff {r : Run env} {v : RunValue} {b : Bool} (hv : r.run env .body init = some v)
    (hp : r.PredicateAgrees name init v) (hb : env.evalRefinementPredicateConst name init = .ok (some b)) :
    r.Satisfies name v ↔ b = true := by
  obtain ⟨pred, hpred, hev⟩ := eval_of_predicateConst hb
  obtain ⟨w, hw⟩ := hp pred hpred
  have hself : ∀ v', Scope.predicate v = .predicate v' → v' = v := by
    intro v' h
    cases h
    rfl
  obtain ⟨rfl, hrun⟩ := hw.sound hv hself [] _ hev
  constructor
  · rintro ⟨pred', hpred', htrue⟩
    obtain rfl := Option.some.inj (hpred'.symm.trans hpred)
    rw [hrun] at htrue
    cases htrue
    rfl
  · rintro rfl
    exact ⟨pred, hpred, hrun⟩

end

/-! `type Positive = i64 where self > 0`, next to `const n: i64 = 5`. -/

def positiveEnv : ConstEnv where
  consts := [⟨"n", .integer 5 none⟩]
  enums _ := none
  refinementPredicates name :=
    if name = "Positive" then some (.binary 0 .gt .selfValue (.integer 0 none)) else none

/-- A run of `fn f(..) { let p: Positive = n; .. }`, with or without a parameter `n`. -/
def positiveRun (n : Option ℤ) : Run positiveEnv where
  locals name := if name = "n" then n.map .int else none
  consts name := if name = "n" then some (.int 5) else none
  intKindAt _ := .int .i64
  floatSizeAt _ := .f64
  other _ _ := none
  const_value name c h := by
    by_cases hn : name = "n"
    · subst hn
      obtain rfl : ConstDecl.mk "n" (.integer 5 none) = c := by simpa [ConstEnv.constDecl?, positiveEnv] using h
      simp [RunState.run, literalValue]
    · have hne : "n" ≠ name := fun h => hn h.symm
      simp [ConstEnv.constDecl?, positiveEnv, hne] at h

end Karac.Typechecker
