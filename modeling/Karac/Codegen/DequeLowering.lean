import Karac.Codegen.DequeHead
import Karac.Lib.HeadQueue

/-! The lowering of the eligible queues against the lowering that shifts the elements: one counter for a name, set to
zero at the entry of the function. A second declaration of the name finds the counter where the first left it. -/

namespace Karac.Codegen

open Ast Lib

variable {α : Type}

inductive DequeOp (α : Type)
  | pushBack (x : α)
  | popFront
  | len
  | isEmpty
  deriving DecidableEq

def DequeOp.method : DequeOp α → String
  | .pushBack _ => "push_back"
  | .popFront => "pop_front"
  | .len => "len"
  | .isEmpty => "is_empty"

inductive Returned (α : Type)
  | unit
  | popped (x : Option α)
  | count (n : ℤ)
  | flag (b : Bool)
  /-- An element past the end of the buffer. -/
  | outOfBounds
  deriving DecidableEq

/-- `data[0..len]` is the queue: `pop_front` shifts its elements. -/
def shiftOp : DequeOp α → List α → List α × Returned α
  | .pushBack x, data => (data ++ [x], .unit)
  | .popFront, [] => ([], .popped none)
  | .popFront, x :: rest => (rest, .popped (some x))
  | .len, data => (data, .count data.length)
  | .isEmpty, data => (data, .flag (decide (data.length = 0)))

/-- `data[head..len]` is the queue. The live elements move to the start of the buffer when `compacts head len`. -/
def headOp (compacts : ℕ → ℕ → Bool) : DequeOp α → ℕ → List α → ℕ × List α × Returned α
  | .pushBack x, head, data => (head, data ++ [x], .unit)
  | .popFront, head, data =>
    if data.length = head then (head, data, .popped none)
    else match data[head]? with
      | none => (head + 1, data, .outOfBounds)
      | some x =>
        if compacts (head + 1) data.length then (0, data.drop (head + 1), .popped (some x))
        else (head + 1, data, .popped (some x))
  | .len, head, data => (head, data, .count ((data.length : ℤ) - head))
  | .isEmpty, head, data => (head, data, .flag (decide (data.length = head)))

/-- The documented lowering never compacts. -/
def neverCompacts : ℕ → ℕ → Bool := fun _ _ => false

/-- The emitted code compacts when half of the buffer is dead, from sixteen elements on. -/
def mostlyDead : ℕ → ℕ → Bool := fun head len => decide (16 ≤ head ∧ len ≤ head * 2)

/-! The executions of a function, as far as they concern a name. -/

def nodeAt (n : Node) : List ℕ → Option Node
  | [] => some n
  | i :: path => (n.children[i]?).bind fun c => nodeAt c path

def ownNames : Node → List String
  | .stmt (.letStmt _ pattern _) => pattern.bindingNames
  | .stmt (.letUninit _ name) => [name]
  | .stmt (.letElse pattern _ _) => pattern.bindingNames
  | .stmt (.errDefer binding _) => binding.toList
  | .expr (.ifLet pattern _ _ _) => pattern.bindingNames
  | .expr (.whileLet _ pattern _ _) => pattern.bindingNames
  | .expr (.forLoop _ pattern _ _) => pattern.bindingNames
  | .expr (.closure params _ _) => params.flatMap Pattern.bindingNames
  | .expr (.lock _ innerName _) => innerName.toList
  | .arm a => a.pattern.bindingNames
  | _ => []

/-- The place of the body declares the name. -/
def DeclaredAt (f : FnDecl) (name : String) (path : List ℕ) : Prop :=
  ∃ n, nodeAt (.block f.body) path = some n ∧ name ∈ ownNames n

def IsParam (f : FnDecl) (name : String) : Prop := ∃ p ∈ f.params, name ∈ p.bindingNames

inductive DequeEvent (α : Type)
  /-- A new binding of the name, with the elements that it holds. -/
  | declare (contents : List α)
  | apply (binding : ℕ) (op : DequeOp α)
  /-- A use in another frame or task, or one that is not a method of the rewrite. -/
  | other

/-- What an execution does with the name, and the statements it has left behind. A statement of the function's body is
executed at most once. -/
inductive RunsQueue (f : FnDecl) (name : String) : List (DequeEvent α) → ℕ → Prop
  | entry : RunsQueue f name [] 0
  | letStmt {events : List (DequeEvent α)} {done i : ℕ} {s : FnStmt} {contents : List α}
      (h : RunsQueue f name events done) (hi : f.stmts[i]? = some s) (hdone : done ≤ i)
      (hname : name ∈ ownNames (.stmt s.stmt))
      (hinit : ∀ isMut pattern value, s.stmt = .letStmt isMut pattern value → isDequeInit value = true →
        contents = []) :
      RunsQueue f name (events ++ [.declare contents]) (i + 1)
  | param {events : List (DequeEvent α)} {done : ℕ} (contents : List α) (h : RunsQueue f name events done)
      (hparam : IsParam f name) : RunsQueue f name (events ++ [.declare contents]) done
  | inner {events : List (DequeEvent α)} {done : ℕ} {path : List ℕ} (contents : List α)
      (h : RunsQueue f name events done) (hpath : DeclaredAt f name path) (hinner : ∀ i < f.stmts.length, path ≠ [i]) :
      RunsQueue f name (events ++ [.declare contents]) done
  | method {events : List (DequeEvent α)} {done : ℕ} (binding : ℕ) (op : DequeOp α) (h : RunsQueue f name events done)
      (huse : Used name false (.block f.body) (.method op.method false)) :
      RunsQueue f name (events ++ [.apply binding op]) done
  | other {events : List (DequeEvent α)} {done : ℕ} {u : Use} (h : RunsQueue f name events done)
      (huse : Used name false (.block f.body) u) (hu : ¬u.Plain) : RunsQueue f name (events ++ [.other]) done

/-! Both lowerings over the events: the bindings in the order of their declarations, and the values returned. -/

def shiftStep (s : List (List α) × List (Returned α)) : DequeEvent α → List (List α) × List (Returned α)
  | .declare contents => (s.1 ++ [contents], s.2)
  | .apply binding op =>
    match s.1[binding]? with
    | none => s
    | some data => (s.1.set binding (shiftOp op data).1, s.2 ++ [(shiftOp op data).2])
  | .other => s

structure HeadFrame (α : Type) where
  head : ℕ
  buffers : List (List α)

def headStep (compacts : ℕ → ℕ → Bool) (s : HeadFrame α × List (Returned α)) :
    DequeEvent α → HeadFrame α × List (Returned α)
  | .declare contents => (⟨s.1.head, s.1.buffers ++ [contents]⟩, s.2)
  | .apply binding op =>
    match s.1.buffers[binding]? with
    | none => s
    | some data =>
      let r := headOp compacts op s.1.head data
      (⟨r.1, s.1.buffers.set binding r.2.1⟩, s.2 ++ [r.2.2])
  | .other => s

def shiftRun (events : List (DequeEvent α)) : List (List α) × List (Returned α) := events.foldl shiftStep ([], [])

def headRun (compacts : ℕ → ℕ → Bool) (events : List (DequeEvent α)) : HeadFrame α × List (Returned α) :=
  events.foldl (headStep compacts) (⟨0, []⟩, [])

/-! What eligibility promises. -/

mutual

/-- Numbers, `bool`, `char`, and tuples of these. -/
inductive PlainData : TypeExpr → Prop
  | scalar {ty : String} {args : Option (List GenericArg)} (h : ty ∈ podScalars)
      (hargs : args = none ∨ args = some []) : PlainData (.path [ty] args)
  | tuple {elems : List TypeExpr} (h : AllPlainData elems) : PlainData (.tuple elems)

inductive AllPlainData : List TypeExpr → Prop
  | nil : AllPlainData []
  | cons {ty : TypeExpr} {rest : List TypeExpr} (h : PlainData ty) (hrest : AllPlainData rest) :
      AllPlainData (ty :: rest)

end

/-- `let mut name: VecDeque[elem] = VecDeque.new()`, or `with_capacity`, of plain elements. -/
def DequeLet (name : String) (s : FnStmt) : Prop :=
  ∃ segments elem method args, s.stmt = .letStmt true (.binding name) (.call (.path ["VecDeque", method]) args) ∧
    (method = "new" ∨ method = "with_capacity") ∧ s.ty = some (.path segments (some [.type elem])) ∧
      segments.getLast? = some "VecDeque" ∧ PlainData elem

structure HeadIndexSound (f : FnDecl) (name : String) : Prop where
  declared : ¬IsParam f name ∧
    ∃ i s, f.stmts[i]? = some s ∧ DequeLet name s ∧ ∀ path, DeclaredAt f name path → path = [i]
  uses : ∀ (α : Type) (events : List (DequeEvent α)) (done : ℕ), RunsQueue f name events done →
    ∀ e ∈ events, e = .declare [] ∨ ∃ binding op, e = .apply binding op
  agree : ∀ (α : Type) (events : List (DequeEvent α)) (done : ℕ) (compacts : ℕ → ℕ → Bool),
    RunsQueue f name events done → (headRun compacts events).2 = (shiftRun events).2

/-- No parameter, pattern or other statement declares the name a second time. -/
def BoundOnce (f : FnDecl) (name : String) : Prop :=
  ¬IsParam f name ∧ ∀ path path', DeclaredAt f name path → DeclaredAt f name path' → path = path'

/-! A candidate is such a `let`. -/

mutual

theorem plainData_of_typeIsPod : ∀ ty, typeIsPod ty = true → PlainData ty
  | .path [_] none, h => .scalar (of_decide_eq_true h) (Or.inl rfl)
  | .path [_] (some []), h => .scalar (of_decide_eq_true h) (Or.inr rfl)
  | .tuple elems, h => .tuple (allPlainData_of_typesArePod elems h)
  | .path [] _, h => by simp [typeIsPod] at h
  | .path (_ :: _ :: _) _, h => by simp [typeIsPod] at h
  | .path [_] (some (_ :: _)), h => by simp [typeIsPod] at h
  | .other, h => by simp [typeIsPod] at h

theorem allPlainData_of_typesArePod : ∀ elems, typesArePod elems = true → AllPlainData elems
  | [], _ => .nil
  | ty :: rest, h =>
    have hpair := Bool.and_eq_true_iff.mp h
    .cons (plainData_of_typeIsPod ty hpair.1) (allPlainData_of_typesArePod rest hpair.2)

end

theorem init_of_isDequeInit {value : Expr} (h : isDequeInit value = true) :
    ∃ method args, value = .call (.path ["VecDeque", method]) args ∧ (method = "new" ∨ method = "with_capacity") := by
  unfold isDequeInit at h
  split at h
  · rename_i ty method args
    obtain ⟨hty, hmethod⟩ := Bool.and_eq_true_iff.mp h
    exact ⟨method, args, by rw [of_decide_eq_true hty], of_decide_eq_true hmethod⟩
  · cases h

theorem annotation_of_dequeElemIsPod {ty : Option TypeExpr} (h : dequeElemIsPod ty = true) :
    ∃ segments elem, ty = some (.path segments (some [.type elem])) ∧ segments.getLast? = some "VecDeque" ∧
      PlainData elem := by
  unfold dequeElemIsPod at h
  split at h
  · rename_i segments elem
    obtain ⟨hlast, hpod⟩ := Bool.and_eq_true_iff.mp h
    exact ⟨segments, elem, rfl, of_decide_eq_true hlast, plainData_of_typeIsPod elem hpod⟩
  · cases h

theorem dequeLet_of_candidate {name : String} {s : FnStmt} (h : candidate s = some name) : DequeLet name s := by
  unfold candidate at h
  split at h
  · rename_i ty n value
    split at h
    · rename_i hboth
      obtain ⟨hinit, hpod⟩ := Bool.and_eq_true_iff.mp hboth
      obtain ⟨method, args, rfl, hmethod⟩ := init_of_isDequeInit hinit
      obtain ⟨segments, elem, rfl, hlast, hplain⟩ := annotation_of_dequeElemIsPod hpod
      cases h
      exact ⟨segments, elem, method, args, rfl, hmethod, rfl, hlast, hplain⟩
    · cases h
  · cases h

theorem DequeLet.declares {name : String} {s : FnStmt} (h : DequeLet name s) : name ∈ ownNames (.stmt s.stmt) := by
  obtain ⟨segments, elem, method, args, hstmt, -⟩ := h
  rw [hstmt]
  exact List.mem_singleton_self name

theorem nodeAt_stmt {f : FnDecl} {i : ℕ} {s : FnStmt} (hi : f.stmts[i]? = some s) :
    nodeAt (.block f.body) [i] = some (.stmt s.stmt) := by
  obtain ⟨hlt, rfl⟩ := List.getElem?_eq_some_iff.mp hi
  have hchild : (Node.block f.body).children[i]? = some (.stmt f.stmts[i].stmt) := by
    simp [FnDecl.body, Node.children, Block.stmts, List.getElem?_append_left, hlt]
  simp [nodeAt, hchild]

/-! One queue and one counter: the lowering follows the queue. -/

theorem headOp_queue (compacts : ℕ → ℕ → Bool) (op : DequeOp α) (q : HeadQueue α) :
    ∃ q' : HeadQueue α, headOp compacts op q.head q.data = (q'.head, q'.data, (shiftOp op q.toList).2) ∧
      (shiftOp op q.toList).1 = q'.toList := by
  have hle := q.head_le
  cases op with
  | pushBack x => exact ⟨q.push x, rfl, (q.toList_push x).symm⟩
  | popFront =>
    by_cases hend : q.data.length = q.head
    · refine ⟨q, ?_, ?_⟩ <;> simp [headOp, hend, HeadQueue.length_eq_head_iff.mp hend, shiftOp]
    · have hlt : q.head < q.data.length := by omega
      by_cases hcompact : compacts (q.head + 1) q.data.length = true
      · refine ⟨(q.pop hlt).compact, ?_, ?_⟩
        · rw [HeadQueue.toList_eq_cons hlt]
          simp only [headOp, if_neg hend, List.getElem?_eq_getElem hlt, if_pos hcompact, shiftOp]
          rfl
        · simp [HeadQueue.toList_eq_cons hlt, shiftOp]
      · refine ⟨q.pop hlt, ?_, ?_⟩
        · simp [headOp, hend, hlt, hcompact, HeadQueue.toList_eq_cons hlt, shiftOp, HeadQueue.pop]
        · simp [HeadQueue.toList_eq_cons hlt, shiftOp]
  | len =>
    refine ⟨q, ?_, rfl⟩
    simp [headOp, shiftOp, hle]
  | isEmpty =>
    refine ⟨q, ?_, rfl⟩
    simp only [headOp, shiftOp, HeadQueue.length_toList, Prod.mk.injEq, Returned.flag.injEq, decide_eq_decide, true_and]
    omega

/-- Before its declaration the name has no binding. After it, the buffer and the counter are a queue with the elements
of the other lowering. -/
def Follows (i done : ℕ) (h : HeadFrame α × List (Returned α)) (s : List (List α) × List (Returned α)) : Prop :=
  h.2 = s.2 ∧ ((h.1 = ⟨0, []⟩ ∧ s.1 = []) ∨
    (i < done ∧ ∃ q : HeadQueue α, h.1 = ⟨q.head, [q.data]⟩ ∧ s.1 = [q.toList]))

theorem Follows.apply {i done : ℕ} {h : HeadFrame α × List (Returned α)} {s : List (List α) × List (Returned α)}
    (hf : Follows i done h s) (compacts : ℕ → ℕ → Bool) (binding : ℕ) (op : DequeOp α) :
    Follows i done (headStep compacts h (.apply binding op)) (shiftStep s (.apply binding op)) := by
  obtain ⟨frame, values⟩ := h
  obtain ⟨lists, values'⟩ := s
  obtain ⟨hvalues, hstate⟩ := hf
  simp only at hvalues hstate
  subst hvalues
  obtain ⟨rfl, rfl⟩ | ⟨hdone, q, rfl, rfl⟩ := hstate
  · exact ⟨rfl, Or.inl ⟨rfl, rfl⟩⟩
  · obtain rfl | hbinding := Nat.eq_zero_or_pos binding
    · obtain ⟨q', hop, hlist⟩ := headOp_queue compacts op q
      refine ⟨?_, Or.inr ⟨hdone, q', ?_, ?_⟩⟩
      · simp [headStep, shiftStep, hop]
      · simp [headStep, hop]
      · simp [shiftStep, hlist]
    · refine ⟨?_, Or.inr ⟨hdone, q, ?_, ?_⟩⟩ <;>
        simp [headStep, shiftStep, List.getElem?_eq_none, Nat.succ_le_of_lt hbinding]

section

variable {f : FnDecl} {name : String} {i : ℕ} {s : FnStmt}

/-- In the executions of a function that declares the name once, by such a `let`. -/
theorem follows_of_runs (hparam : ¬IsParam f name) (hi : f.stmts[i]? = some s) (hlet : DequeLet name s)
    (honly : ∀ path, DeclaredAt f name path → path = [i])
    (hplain : ∀ u, Used name false (.block f.body) u → u.Plain) {events : List (DequeEvent α)} {done : ℕ}
    (h : RunsQueue f name events done) (compacts : ℕ → ℕ → Bool) :
    Follows i done (headRun compacts events) (shiftRun events) ∧
      ∀ e ∈ events, e = .declare [] ∨ ∃ binding op, e = .apply binding op := by
  have hdecl : DeclaredAt f name [i] := ⟨_, nodeAt_stmt hi, hlet.declares⟩
  induction h with
  | entry => exact ⟨⟨rfl, Or.inl ⟨rfl, rfl⟩⟩, by simp⟩
  | @letStmt events done j s' contents _ hj hdone hname hinit ih =>
    obtain ⟨⟨hvalues, hstate⟩, hevents⟩ := ih
    obtain rfl : j = i := by simpa using honly [j] ⟨_, nodeAt_stmt hj, hname⟩
    obtain rfl : s' = s := by simpa [hj] using hi
    obtain ⟨segments, elem, method, args, hstmt, hmethod, -⟩ := hlet
    obtain rfl : contents = [] := by
      apply hinit _ _ _ hstmt
      obtain rfl | rfl := hmethod <;> rfl
    obtain ⟨hframe, hlists⟩ | ⟨hlt, -⟩ := hstate
    · refine ⟨⟨?_, Or.inr ⟨Nat.lt_succ_self _, HeadQueue.empty, ?_, ?_⟩⟩, ?_⟩
      · simpa [headRun, shiftRun, headStep, shiftStep] using hvalues
      · simp only [headRun] at hframe ⊢
        simp [headStep, hframe, HeadQueue.empty]
      · simp only [shiftRun] at hlists ⊢
        simp [shiftStep, hlists]
      · intro e he
        obtain he | he := List.mem_append.mp he
        · exact hevents e he
        · exact Or.inl (List.mem_singleton.mp he)
    · omega
  | param contents _ hp => exact absurd hp hparam
  | inner contents _ hpath hinner =>
    have hlt : i < f.stmts.length := (List.getElem?_eq_some_iff.mp hi).1
    exact absurd (honly _ hpath) (hinner i hlt)
  | method binding op _ huse ih =>
    obtain ⟨hfollows, hevents⟩ := ih
    refine ⟨?_, ?_⟩
    · simpa [headRun, shiftRun] using hfollows.apply compacts binding op
    · intro e he
      obtain he | he := List.mem_append.mp he
      · exact hevents e he
      · exact Or.inr ⟨binding, op, List.mem_singleton.mp he⟩
  | other _ huse hu => exact absurd (hplain _ huse) hu

theorem boundOnce_of_sound (h : HeadIndexSound f name) : BoundOnce f name := by
  obtain ⟨hparam, i, s, -, -, honly⟩ := h.declared
  exact ⟨hparam, fun path path' hpath hpath' => (honly path hpath).trans (honly path' hpath').symm⟩

theorem sound_of_boundOnce (hname : name ∈ analyzeFn f) (h : BoundOnce f name) : HeadIndexSound f name := by
  obtain ⟨⟨s, hs, hcand⟩, hplain⟩ := of_mem_analyzeFn hname
  obtain ⟨i, hi⟩ := List.mem_iff_getElem?.mp hs
  have hlet := dequeLet_of_candidate hcand
  have honly : ∀ path, DeclaredAt f name path → path = [i] :=
    fun path hpath => h.2 path [i] hpath ⟨_, nodeAt_stmt hi, hlet.declares⟩
  refine ⟨⟨h.1, i, s, hi, hlet, honly⟩, ?_, ?_⟩
  · intro α events done hexec
    exact (follows_of_runs h.1 hi hlet honly hplain hexec neverCompacts).2
  · intro α events done compacts hexec
    exact (follows_of_runs h.1 hi hlet honly hplain hexec compacts).1.1

end

/-! Programs. The resolver rejects two functions of one name. -/

theorem foldl_insertFn {f : FnDecl} {program : List FnDecl} (hunique : ∀ g ∈ program, g.name = f.name → g = f) :
    ∀ out : String → Finset String, out f.name ⊆ analyzeFn f → program.foldl insertFn out f.name ⊆ analyzeFn f := by
  induction program with
  | nil => exact fun out hout => hout
  | cons g rest ih =>
    intro out hout
    obtain ⟨hg, hrest⟩ := List.forall_mem_cons.mp hunique
    apply ih hrest
    unfold insertFn
    split
    · exact hout
    · by_cases hname : g.name = f.name
      · obtain rfl := hg hname
        rw [Function.update_self]
      · rw [Function.update_of_ne (Ne.symm hname)]
        exact hout

theorem mem_analyzeFn_of_eligible {off : Bool} {program : List FnDecl} {f : FnDecl} {name : String}
    (hunique : ∀ g ∈ program, g.name = f.name → g = f) (h : name ∈ eligibleDequeLocals off program f.name) :
    name ∈ analyzeFn f := by
  unfold eligibleDequeLocals at h
  split at h
  · exact absurd h (Finset.notMem_empty name)
  · exact foldl_insertFn hunique _ (Finset.empty_subset _) h

/-- Only a second declaration of an eligible name makes the counter miss: without one the lowerings return the same
values. -/
theorem head_index_sound_iff {off : Bool} {program : List FnDecl} {f : FnDecl} {name : String}
    (hunique : ∀ g ∈ program, g.name = f.name → g = f) (h : name ∈ eligibleDequeLocals off program f.name) :
    HeadIndexSound f name ↔ BoundOnce f name :=
  ⟨boundOnce_of_sound, sound_of_boundOnce (mem_analyzeFn_of_eligible hunique h)⟩

def i64Deque : TypeExpr := .path ["VecDeque"] (some [.type (.path ["i64"] none)])

/-- `let mut q: VecDeque[i64] = VecDeque.new();` -/
def newQueue : FnStmt := ⟨some i64Deque, .letStmt true (.binding "q") (.call (.path ["VecDeque", "new"]) [])⟩

/-- `q.push_back(n);` -/
def pushBack (n : ℤ) : FnStmt :=
  ⟨none, .expr (.methodCall (.identifier "q") "push_back" [.mk none false (.integer n)])⟩

/-- `let _ = q.pop_front();` -/
def popFront : FnStmt := ⟨none, .letStmt false .wildcard (.methodCall (.identifier "q") "pop_front" [])⟩

/-- A worklist: one number is pushed, and the loop pops until the queue is empty. -/
def worklistFn : FnDecl where
  name := "worklist"
  params := []
  stmts := [newQueue, pushBack 0, ⟨none, .expr (.whileLoop none
    (.unary .not (.methodCall (.identifier "q") "is_empty" [])) (.mk [popFront.stmt] none))⟩]
  finalExpr := some (.methodCall (.identifier "q") "len" [])

theorem head_index_sound_iff_worklist : HeadIndexSound worklistFn "q" ↔ BoundOnce worklistFn "q" := by
  have heligible : "q" ∈ eligibleDequeLocals false [worklistFn] worklistFn.name := by decide
  exact head_index_sound_iff (by simp) heligible

/-- The queue is declared again after an element was popped. -/
def twiceFn : FnDecl where
  name := "twice"
  params := []
  stmts := [newQueue, pushBack 1, popFront, newQueue, pushBack 5, popFront]
  finalExpr := none

theorem used_pushBack {n : ℤ} (h : pushBack n ∈ twiceFn.stmts) :
    Used "q" false (.block twiceFn.body) (.method "push_back" false) := by
  have hstmt : Node.stmt (pushBack n).stmt ∈ usedParts "q" (.block twiceFn.body) := by
    simpa [usedParts, Node.children, FnDecl.body, Block.stmts, Block.finalExpr, twiceFn] using
      List.mem_map.mpr ⟨pushBack n, h, rfl⟩
  exact .part hstmt (.part List.mem_cons_self (.here rfl))

theorem used_popFront : Used "q" false (.block twiceFn.body) (.method "pop_front" false) := by
  have hstmt : Node.stmt popFront.stmt ∈ usedParts "q" (.block twiceFn.body) := by
    simp [usedParts, Node.children, FnDecl.body, Block.stmts, Block.finalExpr, twiceFn]
  exact .part hstmt (.part List.mem_cons_self (.here rfl))

def twiceEvents : List (DequeEvent ℤ) :=
  [.declare [], .apply 0 (.pushBack 1), .apply 0 .popFront, .declare [], .apply 1 (.pushBack 5), .apply 1 .popFront]

/-- The statements in their order. -/
theorem twice_runs : RunsQueue twiceFn "q" twiceEvents 4 := by
  have hfirst : RunsQueue (α := ℤ) twiceFn "q" _ 1 := .letStmt (s := newQueue) .entry rfl (Nat.zero_le 0)
    (List.mem_singleton_self "q") fun _ _ _ _ _ => rfl
  have hpush := hfirst.method 0 (.pushBack 1) (used_pushBack (n := 1) (by simp [twiceFn]))
  have hpop := hpush.method 0 .popFront used_popFront
  have hsecond : RunsQueue (α := ℤ) twiceFn "q" _ 4 := .letStmt (s := newQueue) hpop rfl (by decide)
    (List.mem_singleton_self "q") fun _ _ _ _ _ => rfl
  have hpush' := hsecond.method 1 (.pushBack 5) (used_pushBack (n := 5) (by simp [twiceFn]))
  exact hpush'.method 1 .popFront used_popFront

/-- The counter stands at 1 when the second queue holds its one element: `pop_front` finds it empty. -/
theorem second_queue_skips : ¬ ∀ off program f name, (∀ g ∈ program, g.name = f.name → g = f) →
    name ∈ eligibleDequeLocals off program f.name → HeadIndexSound f name := by
  intro h
  have hsound := h false [twiceFn] twiceFn "q" (by simp) (by decide)
  have hagree := hsound.agree ℤ twiceEvents 4 neverCompacts twice_runs
  exact absurd hagree (by decide)

end Karac.Codegen
