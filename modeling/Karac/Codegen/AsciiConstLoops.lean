import Karac.Codegen.AsciiConstChars

/-! The loops over the characters of stable ASCII constants, in every execution of a block. A step may come from any
part of the block and in any order. -/

namespace Karac.Codegen

open Ast

/-! The parts of a block that write a binding: assignments, mutating methods, and arguments marked `mut`. -/

def assignedRoot : Node → Option String
  | .stmt (.assign target _) => assignTargetRoot target
  | .stmt (.compoundAssign target _ _) => assignTargetRoot target
  | _ => none

def receiverRoot (mutating : String → Bool) : Node → Option String
  | .expr (.methodCall object method _) => if mutating method then assignTargetRoot object else none
  | .expr (.optionalChain object method (some _)) => if mutating method then assignTargetRoot object else none
  | _ => none

def markedRoot : Node → Option String
  | .arg (.mk _ true value) => assignTargetRoot value
  | _ => none

attribute [local simp] assignedRoot receiverRoot markedRoot exprChildren stmtChildren CallArg.value CallArg.mutMarker

def WritesTo (mutating : String → Bool) (n : Node) (name : String) : Prop :=
  assignedRoot n = some name ∨ receiverRoot mutating n = some name ∨ markedRoot n = some name

/-- The walk finds the names of all nodes of the block. -/
def Collects (walk : Block → Finset String) (root : Node → Option String) (b : Block) : Prop :=
  ∀ n name, n.Within (.block b) → root n = some name → name ∈ walk b

def utf8 (s : String) : List UInt8 := s.toList.flatMap String.utf8EncodeChar

/-- A binding of the running program, the literal of the `let` that created it, if it is one of a string literal,
and the string that it holds. -/
structure LiveString where
  name : String
  literal : Option String
  value : String

inductive ExecStep
  | letLiteral (name literal : String)
  | bind (name value : String)
  | write (n : Node) (i : ℕ) (value : String)
  | iterate (i : ℕ)

/-- Other bindings have any name: those of parameters, patterns, closures and other functions. -/
inductive Steps (mutating : String → Bool) (b : Block) : List LiveString → ExecStep → List LiveString → Prop
  | letLiteral {σ : List LiveString} {isMut : Bool} {name literal : String}
      (h : Node.Within (.stmt (.letStmt isMut (.binding name) (.stringLit literal))) (.block b)) :
      Steps mutating b σ (.letLiteral name literal) (σ ++ [⟨name, some literal, literal⟩])
  | bind (σ : List LiveString) (name value : String) :
      Steps mutating b σ (.bind name value) (σ ++ [⟨name, none, value⟩])
  | write {σ : List LiveString} {n : Node} {i : ℕ} {x : LiveString} (value : String) (hn : n.Within (.block b))
      (hx : σ[i]? = some x) (hw : WritesTo mutating n x.name) :
      Steps mutating b σ (.write n i value) (σ.set i { x with value := value })
  | iterate {σ : List LiveString} {label : Option String} {pattern : Pattern} {body : Block} {i : ℕ} {x : LiveString}
      (hn : Node.Within (.expr (.forLoop label pattern (.methodCall (.identifier x.name) "chars" []) body)) (.block b))
      (hx : σ[i]? = some x) :
      Steps mutating b σ (.iterate i) σ

/-- The states of the executions whose steps all meet the condition. -/
def Executes (mutating : String → Bool) (b : Block) (Cond : ExecStep → Prop) : List LiveString → Prop :=
  Relation.ReflTransGen (fun σ σ' => ∃ e, Steps mutating b σ e σ' ∧ Cond e) []

/-- A loop over the characters of a binding that a qualifying `let` of the name created finds ASCII bytes only. -/
def LoopsAscii (mutating : String → Bool) (b : Block) (name : String) (Cond : ExecStep → Prop) : Prop :=
  ∀ σ, Executes mutating b Cond σ → ∀ i σ', Steps mutating b σ (.iterate i) σ' →
    ∀ (x : LiveString) (literal : String), σ[i]? = some x → x.name = name → x.literal = some literal →
      isAscii literal = true → ∀ byte ∈ utf8 x.value, byte < 0x80

/-- The step does not pass `mut name`, or a place in it, where the scan does not look. -/
def Unhidden (b : Block) (name : String) (e : ExecStep) : Prop :=
  ∀ n i value, e = .write n i value → markedRoot n = some name → Walked n (.block b)

theorem utf8_of_isAscii {s : String} (h : isAscii s = true) : ∀ byte ∈ utf8 s, byte < 0x80 := by
  intro byte hbyte
  obtain ⟨c, hc, hbyte⟩ := List.mem_flatMap.mp hbyte
  have hlt : c.val < 0x80 := of_decide_eq_true (List.all_eq_true.mp h c hc)
  have hval : c.val.toNat < 128 := hlt
  have hsize : c.utf8Size = 1 := Char.utf8Size_eq_one_iff.mpr (Nat.le_of_lt_succ hlt)
  rw [String.utf8EncodeChar_eq_singleton hsize, List.mem_singleton] at hbyte
  subst hbyte
  rw [UInt8.lt_iff_toNat_lt, UInt32.toNat_toUInt8, Nat.mod_eq_of_lt (by omega)]
  exact hval

/-- A binding that the `let` of the name created holds its literal. -/
def Constant (name : String) (σ : List LiveString) : Prop :=
  ∀ (i : ℕ) (x : LiveString) (literal : String), σ[i]? = some x → x.name = name → x.literal = some literal →
    x.value = literal

theorem Constant.push {name : String} {σ : List LiveString} (h : Constant name σ) {x : LiveString}
    (hx : ∀ literal, x.literal = some literal → x.value = literal) : Constant name (σ ++ [x]) := by
  intro i y literal hy hname hliteral
  by_cases hi : i < σ.length
  · rw [List.getElem?_append_left hi] at hy
    exact h i y literal hy hname hliteral
  · rw [List.getElem?_append_right (by omega)] at hy
    obtain rfl := List.mem_singleton.mp (List.mem_of_getElem? hy)
    exact hx literal hliteral

theorem Constant.write {name : String} {σ : List LiveString} (h : Constant name σ) {i : ℕ} {x : LiveString}
    (hne : x.name ≠ name) : Constant name (σ.set i x) := by
  intro j y literal hy hname hliteral
  by_cases hij : i = j
  · subst hij
    have hlt : i < (σ.set i x).length := (List.getElem?_eq_some_iff.mp hy).1
    rw [List.getElem?_set_self (by simpa using hlt)] at hy
    cases hy
    exact absurd hname hne
  · rw [List.getElem?_set_ne hij] at hy
    exact h j y literal hy hname hliteral

section

variable {mutating : String → Bool} {assignedRoots mutMethodReceiverRoots : Block → Finset String} {b : Block}
  {name : String}

theorem marked_arg {n : Node} (h : markedRoot n = some name) :
    ∃ a : CallArg, n = .arg a ∧ a.mutMarker = true ∧ assignTargetRoot a.value = some name := by
  cases n with
  | arg a =>
    refine ⟨a, rfl, ?_⟩
    cases a with
    | mk label mutMarker value => cases mutMarker <;> simp_all [markedRoot, CallArg.mutMarker, CallArg.value]
  | _ => simp [markedRoot] at h

/-- No part of the block where the scan looks writes a stable constant. -/
theorem not_writes (hassigned : Collects assignedRoots assignedRoot b)
    (hreceivers : Collects mutMethodReceiverRoots (receiverRoot mutating) b)
    (hname : name ∈ asciiConstStringLets assignedRoots mutMethodReceiverRoots b) {n : Node} (hn : n.Within (.block b))
    (hwalked : markedRoot n = some name → Walked n (.block b)) : ¬ WritesTo mutating n name := by
  obtain ⟨hpoisoned, hnotAssigned, hnotReceiver⟩ := not_mem_of_mem_asciiConstStringLets hname
  intro hw
  obtain hroot | hroot | hroot := hw
  · exact hnotAssigned (hassigned n name hn hroot)
  · exact hnotReceiver (hreceivers n name hn hroot)
  · obtain ⟨a, rfl, hmut, hvalue⟩ := marked_arg hroot
    exact hpoisoned (Scan.poisoned_of_walked (hwalked hroot) hmut hvalue {})

theorem constant_of_steps (hassigned : Collects assignedRoots assignedRoot b)
    (hreceivers : Collects mutMethodReceiverRoots (receiverRoot mutating) b)
    (hname : name ∈ asciiConstStringLets assignedRoots mutMethodReceiverRoots b) {σ σ' : List LiveString} {e : ExecStep}
    (hstep : Steps mutating b σ e σ') (he : Unhidden b name e) (hσ : Constant name σ) : Constant name σ' := by
  cases hstep with
  | letLiteral h => exact hσ.push fun literal hliteral => Option.some.inj hliteral
  | bind name value => exact hσ.push fun literal hliteral => absurd hliteral (by simp)
  | @write n i x value hn hx hw =>
    apply hσ.write
    intro hxname
    rw [hxname] at hw
    exact not_writes hassigned hreceivers hname hn (he n i value rfl) hw
  | iterate hn hx => exact hσ

theorem constant_of_executes (hassigned : Collects assignedRoots assignedRoot b)
    (hreceivers : Collects mutMethodReceiverRoots (receiverRoot mutating) b)
    (hname : name ∈ asciiConstStringLets assignedRoots mutMethodReceiverRoots b) {σ : List LiveString}
    (hσ : Executes mutating b (Unhidden b name) σ) : Constant name σ := by
  induction hσ with
  | refl =>
    intro i x literal hx
    simp at hx
  | tail _ hstep ih =>
    obtain ⟨e, hstep, he⟩ := hstep
    exact constant_of_steps hassigned hreceivers hname hstep he ih

end

/-! Two blocks. Neither assigns a name or calls a mutating method. -/

def noRoots : Block → Finset String := fun _ => ∅

def isMutatingCollectionMethod (method : String) : Bool :=
  method ∈ ["push", "pop", "push_back", "push_front", "pop_back", "pop_front", "push_str", "insert", "insert_str",
    "remove", "swap_remove", "clear", "truncate", "reserve", "reserve_exact", "reverse", "sort", "sort_by",
    "sort_by_key", "swap", "extend", "retain", "dedup", "split_off", "resize", "append", "fill"]

/-- Nothing in the tree of the node writes a binding, but for arguments marked `mut`. -/
def NoRoots (n : Node) : Prop :=
  ∀ m, m.Within n → assignedRoot m = none ∧ receiverRoot isMutatingCollectionMethod m = none

theorem noRoots_iff (n : Node) : NoRoots n ↔
    (assignedRoot n = none ∧ receiverRoot isMutatingCollectionMethod n = none) ∧ ∀ c ∈ n.children, NoRoots c := by
  constructor
  · intro h
    exact ⟨h n (.refl n), fun c hc m hm => h m (.child hc hm)⟩
  · intro h m hm
    cases hm with
    | refl => exact h.1
    | child hc hm => exact h.2 _ hc m hm

theorem noRoots_expr (e : Expr) : NoRoots (.expr e) ↔
    receiverRoot isMutatingCollectionMethod (.expr e) = none ∧ ∀ c ∈ exprChildren e, NoRoots c := by
  simp only [noRoots_iff (.expr e), assignedRoot, true_and, Node.children]

theorem noRoots_stmt (s : Stmt) : NoRoots (.stmt s) ↔
    assignedRoot (.stmt s) = none ∧ ∀ c ∈ stmtChildren s, NoRoots c := by
  simp only [noRoots_iff (.stmt s), receiverRoot, and_true, Node.children]

theorem noRoots_block (stmts : List Stmt) : NoRoots (.block (.mk stmts none)) ↔ ∀ s ∈ stmts, NoRoots (.stmt s) := by
  simp [noRoots_iff (.block _), assignedRoot, receiverRoot, Node.children, Block.stmts, Block.finalExpr]

theorem noRoots_arg (a : CallArg) : NoRoots (.arg a) ↔ NoRoots (.expr a.value) := by
  simp [noRoots_iff (.arg a), assignedRoot, receiverRoot, Node.children]

/-- `for c in s.chars() { }` -/
def charsLoop : Expr := .forLoop none (.binding "c") (.methodCall (.identifier "s") "chars" []) (.mk [] none)

def letS : Stmt := .letStmt true (.binding "s") (.stringLit "abc")

/-- `mut` before the name -/
def marked (name : String) : CallArg := .mk none true (.identifier name)

/-- `let mut s = "abc"; grow(mut t); for c in s.chars() { }` -/
def steadyBlock : Block := .mk [letS, .expr (.call (.identifier "grow") [marked "t"]), .expr charsLoop] none

/-- `let mut s = "abc"; for i in 0..grow(mut s) { } for c in s.chars() { }` -/
def grownBlock : Block := .mk [letS,
  .expr (.forLoop none (.binding "i")
    (.range (some (.integer 0)) (some (.call (.identifier "grow") [marked "s"])) false) (.mk [] none)),
  .expr charsLoop] none

attribute [local simp] steadyBlock grownBlock letS charsLoop marked isMutatingCollectionMethod

theorem noRoots_steady : NoRoots (.block steadyBlock) := by
  simp [noRoots_block, noRoots_stmt, noRoots_expr, noRoots_arg]

theorem noRoots_grown : NoRoots (.block grownBlock) := by
  simp [noRoots_block, noRoots_stmt, noRoots_expr, noRoots_arg]

theorem collects_noRoots {b : Block} (h : NoRoots (.block b)) : Collects noRoots assignedRoot b ∧
    Collects noRoots (receiverRoot isMutatingCollectionMethod) b := by
  refine ⟨fun n name hn hroot => ?_, fun n name hn hroot => ?_⟩
  · rw [(h n hn).1] at hroot
    cases hroot
  · rw [(h n hn).2] at hroot
    cases hroot

theorem mem_steady : "s" ∈ asciiConstStringLets noRoots noRoots steadyBlock := by
  decide

theorem mem_grown : "s" ∈ asciiConstStringLets noRoots noRoots grownBlock := by
  decide

theorem within_of_stmt {s : Stmt} {stmts : List Stmt} {n : Node} (hs : s ∈ stmts) (h : n.Within (.stmt s)) :
    n.Within (.block (.mk stmts none)) := by
  apply Node.Within.child _ h
  simpa [Node.children, Block.stmts, Block.finalExpr] using hs

theorem within_letS : (Node.stmt letS).Within (.block grownBlock) := within_of_stmt (by simp) (.refl _)

theorem within_charsLoop : (Node.expr charsLoop).Within (.block grownBlock) := by
  apply within_of_stmt (s := .expr charsLoop) (by simp)
  exact .child List.mem_cons_self (.refl _)

theorem within_marked : (Node.arg (marked "s")).Within (.block grownBlock) := by
  apply within_of_stmt (List.mem_cons_of_mem _ List.mem_cons_self)
  -- the statement, the loop, the range, its end, the argument
  apply Node.Within.child List.mem_cons_self
  apply Node.Within.child List.mem_cons_self
  apply Node.Within.child (List.mem_cons_of_mem _ List.mem_cons_self)
  exact .child (List.mem_cons_of_mem _ List.mem_cons_self) (.refl _)

/-- The block runs once: the call in the range leaves `s` with a letter of two bytes. -/
theorem grown_executes :
    Executes isMutatingCollectionMethod grownBlock (fun _ => True) [⟨"s", some "abc", "abcé"⟩] := by
  have hlet : Steps isMutatingCollectionMethod grownBlock [] (.letLiteral "s" "abc") [⟨"s", some "abc", "abc"⟩] :=
    .letLiteral within_letS
  have hwrite : Steps isMutatingCollectionMethod grownBlock [⟨"s", some "abc", "abc"⟩]
      (.write (.arg (marked "s")) 0 "abcé") [⟨"s", some "abc", "abcé"⟩] :=
    .write (σ := [⟨"s", some "abc", "abc"⟩]) (i := 0) "abcé" within_marked rfl (Or.inr (Or.inr rfl))
  exact (Relation.ReflTransGen.single ⟨_, hlet, trivial⟩).tail ⟨_, hwrite, trivial⟩

end Karac.Codegen
