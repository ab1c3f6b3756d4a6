import Karac.Lowering.Presize

/-! A language of integers, collections of integers and `while` loops, in which the function `probe` outputs a line and
returns one. Loops run a bounded number of rounds; other forms trap. -/

namespace Karac.Lowering.Probe

open Karac.Ast

inductive Value
  | unit
  | int (n : ℤ)
  | flag (b : Bool)
  | coll (elems : List ℤ)
  deriving DecidableEq

structure Store where
  vars : List (String × Value)
  out : List String
  deriving DecidableEq

abbrev Result := Outcome Store Value Value

namespace Store

def lookup (x : String) (s : Store) : Option Value := s.vars.lookup x

def declare (x : String) (v : Value) (s : Store) : Store := { s with vars := (x, v) :: s.vars }

/-- The innermost binding of the name. -/
def assign (x : String) (v : Value) (s : Store) : Store :=
  { s with vars := s.vars.set (s.vars.findIdx fun p => p.1 = x) (x, v) }

end Store

def trap (message : String) (s : Store) : Result := .stopped (.trapped message) s

def asInt : Value → Option ℤ
  | .int n => some n
  | _ => none

def inI64 (n : ℤ) : Bool := -2 ^ 63 ≤ n && n < 2 ^ 63

def plus (a b : Value) (s : Store) : Result :=
  match a, b with
  | .int m, .int n => if inI64 (m + n) then .value (.int (m + n)) s else trap "integer overflow" s
  | _, _ => trap "not an integer" s

def binary (op : BinOp) (a b : Value) (s : Store) : Result :=
  match op, a, b with
  | .add, a, b => plus a b s
  | .lt, .int m, .int n => .value (.flag (m < n)) s
  | .ltEq, .int m, .int n => .value (.flag (m ≤ n)) s
  | _, _, _ => trap "not modelled" s

def allocate (_ : Coll) (v : Value) (s : Store) : Result :=
  match v with
  | .int n => if 0 ≤ n then .value (.coll []) s else trap "capacity overflow" s
  | _ => trap "not an integer" s

def read (x : String) (s : Store) : Result :=
  match s.lookup x with
  | some v => .value v s
  | none => trap "unbound" s

def push (x : String) (v : Value) (s : Store) : Result :=
  match s.lookup x, v with
  | some (.coll elems), .int n => .value .unit (s.assign x (.coll (elems ++ [n])))
  | _, _ => trap "not modelled" s

def length (e : Expr) (s : Store) : Option ℕ :=
  match e with
  | .identifier x => match s.lookup x with
    | some (.coll elems) => some elems.length
    | _ => none
  | _ => none

/-- At most `fuel` rounds. -/
def loop (condition : Store → Result) (body : Store → Outcome Store Value Unit) : ℕ → Store → Result
  | 0, _ => .diverges
  | fuel + 1, s => (condition s).bind fun c s =>
    if c = .flag true then (body s).bind fun _ s => loop condition body fuel s else .value .unit s

def emptyCall (segments : List String) : Bool := segments ∈ [["Vec", "new"], ["String", "new"]]

def capacityCall (segments : List String) : Bool :=
  segments ∈ [["Vec", "with_capacity"], ["String", "with_capacity"]]

def rounds : ℕ := 8

mutual

def eval : Expr → Store → Result
  | .integer k, s => .value (.int k) s
  | .identifier x, s => read x s
  | .stringLit text, s => if text = "" then .value (.coll []) s else trap "not modelled" s
  | .binary op left right, s => (eval left s).bind fun a s => (eval right s).bind fun b s => binary op a b s
  | .call (.path segments) [], s => if emptyCall segments then .value (.coll []) s else trap "not modelled" s
  | .call (.path segments) [.mk _ _ arg], s =>
    if capacityCall segments then (eval arg s).bind (allocate .vec) else trap "not modelled" s
  | .call (.identifier f) [], s =>
    if f = "probe" then .value (.int 1) { s with out := s.out ++ ["probed"] } else trap "not modelled" s
  | .methodCall object "len" [], s =>
    match length object s with
    | some n => .value (.int n) s
    | none => trap "not modelled" s
  | .methodCall (.identifier x) "push" [.mk _ _ arg], s => (eval arg s).bind fun v s => push x v s
  | .whileLoop _ condition (.mk stmts none), s => loop (eval condition) (execAll stmts) rounds s
  | _, s => trap "not modelled" s

def exec : Stmt → Store → Outcome Store Value Unit
  | .letStmt _ (.binding x) value, s => (eval value s).bind fun v s => .value () (s.declare x v)
  | .assign (.identifier x) value, s => (eval value s).bind fun v s => .value () (s.assign x v)
  | .expr e, s => (eval e s).bind fun _ s => .value () s
  | _, s => .stopped (.trapped "not modelled") s

def execAll : List Stmt → Store → Outcome Store Value Unit
  | [], s => .value () s
  | stmt :: rest, s => (exec stmt s).bind fun _ s => execAll rest s

end

theorem eval_emptyColl {e : Expr} {c : Coll} (s : Store) (h : emptyColl e = some c) :
    eval e s = .value (.coll []) s := by
  unfold emptyColl at h
  split at h
  · simp [eval]
  · simp [eval, emptyCall]
  · simp [eval, emptyCall]
  · cases h

theorem eval_withCapacity (c : Coll) (e : Expr) (s : Store) :
    eval (withCapacity c e) s = (eval e s).bind (allocate c) := by
  cases c with
  | vec => simp [withCapacity, eval, capacityCall, Coll.typeName]
  | string =>
    simp [withCapacity, eval, capacityCall, Coll.typeName]
    rfl

theorem allocate_iff (c : Coll) (v : Value) (s s' : Store) :
    allocate c v s = .value (.coll []) s' ↔ (∃ n : ℤ, v = .int n ∧ 0 ≤ n) ∧ s' = s := by
  unfold allocate
  split
  · rename_i n
    by_cases hn : 0 ≤ n
    · simp [hn, eq_comm]
    · simp [hn, trap]
  · rename_i hv
    simp only [trap, reduceCtorEq, false_iff]
    rintro ⟨⟨n, hn, -⟩, -⟩
    exact hv n hn

theorem int_of_asInt {v : Value} {n : ℤ} (h : asInt v = some n) : v = .int n := by
  cases v <;> simp_all [asInt]

theorem eval_length {e : Expr} {n : ℕ} {s : Store} (h : length e s = some n) :
    eval (.methodCall e "len" []) s = .value (.int n) s := by
  simp [eval, h]

def language : Language Store Value where
  eval := eval
  exec := exec
  leave := id
  unit := .unit
  ofInt := .int
  asInt := asInt
  Fits _ n := inI64 n = true
  lookup := Store.lookup
  declare := Store.declare
  length := length
  plus := plus
  empty _ := .coll []
  allocate := allocate
  IsCapacity v := ∃ n : ℤ, v = .int n ∧ 0 ≤ n
  asInt_ofInt _ := rfl
  exec_let _ _ _ := by rw [exec]
  eval_empty _ _ s h := eval_emptyColl s h
  eval_with_capacity := eval_withCapacity
  allocate_iff := allocate_iff
  capacity_of_nonneg _ n hv hn := ⟨n, int_of_asInt hv, hn⟩
  eval_integer _ _ := by rw [eval]
  eval_identifier x v n s hx _ := by simp [eval, read, hx]
  eval_len _ _ _ _ h := eval_length h
  eval_add _ _ _ := by rw [eval]; rfl
  plus_of_fits a b m n s ha hb hfits := by
    rw [int_of_asInt ha, int_of_asInt hb]
    exact ⟨.int (m + n), if_pos hfits, rfl⟩

end Karac.Lowering.Probe
