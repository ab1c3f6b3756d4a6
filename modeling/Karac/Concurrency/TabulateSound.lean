import Karac.Concurrency.Tabulate

/-! What the iterations of an accepted loop do with the accumulator. It can also be reached through a closure that
captured it, and that the shape does not see. -/

namespace Karac.Concurrency

open Ast

variable {α : Type}

/-- What an execution does with the accumulator, and the closures that it calls, by their bodies. -/
inductive Access (α : Type)
  | read (contents : List α)
  | push (x : α)
  | write (contents : List α)
  | called (body : Expr)

def Access.isCall : Access α → Bool
  | .called _ => true
  | _ => false

inductive Ending
  | normal
  /-- A `continue`, `break`, `return` or `?`, or a panic. -/
  | jump

def isPushOf (acc : String) : Node → Bool
  | .expr e => decide (collectPushShape e = some acc)
  | _ => false

section

-- the bodies of all closures that exist when the loop runs
variable (acc : String) (closures : Expr → Prop)

/-- The executions of a node: its parts are evaluated in any order and any number of times, and closures may be called
between them. The accumulator is no mutex, so that the place of a `lock` is no mention of it. -/
inductive Evaluates : Node → List (Access α) → Ending → Prop
  | mention (a : Access α) (ha : a.isCall = false) : Evaluates (.expr (.identifier acc)) [a] .normal
  | push {a : CallArg} {t : List (Access α)} (x : α) (h : Evaluates (.expr a.value) t .normal) :
      Evaluates (.expr (.methodCall (.identifier acc) "push" [a])) (t ++ [.push x]) .normal
  | argument {a : CallArg} {t : List (Access α)} (h : Evaluates (.expr a.value) t .jump) :
      Evaluates (.expr (.methodCall (.identifier acc) "push" [a])) t .jump
  | done {n : Node} (hn : isPushOf acc n = false) (ending : Ending) : Evaluates n [] ending
  | part {n c : Node} {t t' : List (Access α)} {ending ending' : Ending} (hn : isPushOf acc n = false)
      (hc : c ∈ n.children) (h : Evaluates c t ending') (h' : Evaluates n t' ending) : Evaluates n (t ++ t') ending
  | call {n : Node} {body : Expr} {t t' : List (Access α)} {ending ending' : Ending} (hn : isPushOf acc n = false)
      (hbody : closures body) (h : Evaluates (.expr body) t ending') (h' : Evaluates n t' ending) :
      Evaluates n (.called body :: t ++ t') ending

/-- A statement of the body. -/
inductive RunsTop : Stmt → List (Access α) → Ending → Prop
  | expr {e : Expr} {t : List (Access α)} {ending : Ending} (h : Evaluates acc closures (.expr e) t ending) :
      RunsTop (.expr e) t ending
  | other {s : Stmt} {t : List (Access α)} {ending : Ending} (hs : ∀ e, s ≠ .expr e)
      (h : Evaluates acc closures (.stmt s) t ending) : RunsTop s t ending

/-- The body runs its statements in their order, up to a jump. -/
inductive RunsBody : List Stmt → Option Expr → List (Access α) → Ending → Prop
  | done : RunsBody [] none [] .normal
  | final {e : Expr} {t : List (Access α)} {ending : Ending} (h : Evaluates acc closures (.expr e) t ending) :
      RunsBody [] (some e) t ending
  | stmt {s : Stmt} {rest : List Stmt} {finalExpr : Option Expr} {t t' : List (Access α)} {ending : Ending}
      (h : RunsTop acc closures s t .normal) (h' : RunsBody rest finalExpr t' ending) :
      RunsBody (s :: rest) finalExpr (t ++ t') ending
  | leave {s : Stmt} {rest : List Stmt} {finalExpr : Option Expr} {t : List (Access α)}
      (h : RunsTop acc closures s t .jump) : RunsBody (s :: rest) finalExpr t .jump

end

def accessed (t : List (Access α)) : List (Access α) := t.filter fun a => !a.isCall

/-- The accumulator after an access in the sequential loop. -/
def appendTo (contents : List α) : Access α → List α
  | .push x => contents ++ [x]
  | .write contents' => contents'
  | _ => contents

def sequential (contents : List α) (iterations : List (List (Access α))) : List α :=
  iterations.flatten.foldl appendTo contents

/-- An iteration of the lowered loop stores what it pushes in its own slot. -/
def store (slot : Option α) : Access α → Option α
  | .push x => some x
  | _ => slot

def parallelFilled (iterations : List (List (Access α))) : List (Option α) :=
  iterations.map fun t => t.foldl store none

/-- Every iteration appends one element and does nothing else with the accumulator, and the buffer holds in slot `k`
what iteration `k` appends. -/
def Tabulates (iterations : List (List (Access α))) : Prop :=
  ∃ xs : List α, iterations.map accessed = xs.map (fun x => [.push x]) ∧
    (∀ contents, sequential contents iterations = contents ++ xs) ∧ parallelFilled iterations = xs.map some

/-- The tree does not mention the accumulator. -/
def Free (acc : String) (n : Node) : Prop := ¬Node.Within (.expr (.identifier acc)) n

/-- No closure that the execution calls mentions the accumulator. -/
def CallsFree (acc : String) (t : List (Access α)) : Prop := ∀ body, .called body ∈ t → Free acc (.expr body)

section

variable {acc : String} {closures : Expr → Prop} {innerWrites : Expr → Finset String} {t t' : List (Access α)}

@[simp] theorem accessed_append (t t' : List (Access α)) : accessed (t ++ t') = accessed t ++ accessed t' :=
  List.filter_append ..

theorem CallsFree.left (h : CallsFree acc (t ++ t')) : CallsFree acc t :=
  fun body hbody => h body (List.mem_append_left _ hbody)

theorem CallsFree.right (h : CallsFree acc (t ++ t')) : CallsFree acc t' :=
  fun body hbody => h body (List.mem_append_right _ hbody)

theorem Free.child {n c : Node} (h : Free acc n) (hc : c ∈ n.children) : Free acc c := fun hw => h (.child hc hw)

theorem not_free_push {a : CallArg} : ¬Free acc (.expr (.methodCall (.identifier acc) "push" [a])) := by
  intro h
  exact h (.child List.mem_cons_self (.refl _))

/-- A tree without a mention leaves the accumulator alone. -/
theorem accessed_of_free {n : Node} {ending : Ending} (h : Evaluates acc closures n t ending) (hfree : Free acc n)
    (hcalls : CallsFree acc t) : accessed t = [] := by
  induction h with
  | mention a ha => exact absurd (Node.Within.refl _) hfree
  | push x _ _ => exact absurd hfree not_free_push
  | argument _ _ => exact absurd hfree not_free_push
  | done hn ending => rfl
  | part hn hc _ _ ih ih' =>
    rw [accessed_append, ih (hfree.child hc) hcalls.left, ih' hfree hcalls.right, List.append_nil]
  | @call n body t t' ending ending' hn hbody _ _ ih ih' =>
    have hrest : CallsFree acc (t ++ t') := fun b hb => hcalls b (List.mem_cons_of_mem _ hb)
    have hskip : accessed (.called body :: t ++ t') = accessed (t ++ t') := rfl
    rw [hskip, accessed_append, ih (hcalls body List.mem_cons_self) hrest.left, ih' hfree hrest.right, List.append_nil]

theorem free_of_not_mentions {e : Expr} (h : mentionsAcc innerWrites acc e = false) : Free acc (.expr e) := by
  intro hw
  have hread : acc ∈ exprReads e := mem_nodeReads_of_within hw
  exact of_decide_eq_false h (Finset.mem_union_left _ hread)

theorem push_of_collectPushShape {e : Expr} (h : collectPushShape e = some acc) :
    ∃ a, e = .methodCall (.identifier acc) "push" [a] := by
  unfold collectPushShape at h
  split at h
  · split at h
    · rename_i name method a hmethod
      cases h
      exact ⟨a, by rw [hmethod]⟩
    · cases h
  · cases h

/-- The accesses of an execution are `n` pushes. -/
def Pushes (n : ℕ) (t : List (Access α)) : Prop := ∃ xs : List α, accessed t = xs.map .push ∧ xs.length = n

theorem Pushes.append {n m : ℕ} (h : Pushes n t) (h' : Pushes m t') : Pushes (n + m) (t ++ t') := by
  obtain ⟨xs, hxs, rfl⟩ := h
  obtain ⟨ys, hys, rfl⟩ := h'
  exact ⟨xs ++ ys, by rw [accessed_append, hxs, hys, List.map_append], List.length_append⟩

theorem pushes_of_free {n : Node} {ending : Ending} (h : Evaluates acc closures n t ending) (hfree : Free acc n)
    (hcalls : CallsFree acc t) : Pushes 0 t :=
  ⟨[], accessed_of_free h hfree hcalls, rfl⟩

theorem pushes_of_push {a : CallArg} (hfree : Free acc (.expr a.value))
    (h : Evaluates acc closures (.expr (.methodCall (.identifier acc) "push" [a])) t .normal)
    (hcalls : CallsFree acc t) : Pushes 1 t := by
  have hpush : isPushOf acc (.expr (.methodCall (.identifier acc) "push" [a])) = true := by
    simp [isPushOf, collectPushShape]
  cases h with
  | push x harg =>
    refine ⟨[x], ?_, rfl⟩
    rw [accessed_append, accessed_of_free harg hfree hcalls.left]
    rfl
  | done hn => exact absurd hn (by simp [hpush])
  | part hn => exact absurd hn (by simp [hpush])
  | call hn => exact absurd hn (by simp [hpush])

theorem pushes_of_exprPushes {e : Expr} {n : ℕ} (hn : exprPushes innerWrites acc e = some n)
    (h : Evaluates acc closures (.expr e) t .normal) (hcalls : CallsFree acc t) : Pushes n t := by
  unfold exprPushes at hn
  split at hn
  · rename_i hshape
    obtain ⟨a, rfl⟩ := push_of_collectPushShape hshape
    simp only [pushedArgs] at hn
    split at hn
    · cases hn
    · rename_i hmention
      cases hn
      exact pushes_of_push (free_of_not_mentions (Bool.eq_false_of_not_eq_true hmention)) h hcalls
  · split at hn
    · cases hn
    · split at hn
      · cases hn
      · rename_i hmention
        cases hn
        exact pushes_of_free h (free_of_not_mentions (Bool.eq_false_of_not_eq_true hmention)) hcalls

theorem free_stmt {s : Stmt} (h : ∀ c ∈ stmtChildren s, Free acc c) : Free acc (.stmt s) := by
  intro hw
  cases hw with
  | child hc hw => exact h _ hc hw

theorem pushes_of_stmtPushes {s : Stmt} {n : ℕ} (hn : stmtPushes innerWrites acc s = some n)
    (h : RunsTop acc closures s t .normal) (hcalls : CallsFree acc t) : Pushes n t := by
  cases h with
  | expr h => exact pushes_of_exprPushes hn h hcalls
  | other hs h =>
    unfold stmtPushes at hn
    split at hn
    · exact absurd rfl (hs _)
    · split at hn
      · cases hn
      · rename_i hmention
        cases hn
        apply pushes_of_free h (free_stmt _) hcalls
        simpa [stmtChildren] using free_of_not_mentions (Bool.eq_false_of_not_eq_true hmention)
    · split at hn
      · cases hn
      · rename_i hmention
        cases hn
        obtain ⟨htarget, hvalue⟩ := Bool.or_eq_false_iff.mp (Bool.eq_false_of_not_eq_true hmention)
        apply pushes_of_free h (free_stmt _) hcalls
        simpa [stmtChildren] using ⟨free_of_not_mentions htarget, free_of_not_mentions hvalue⟩
    · split at hn
      · cases hn
      · rename_i hmention
        cases hn
        obtain ⟨htarget, hvalue⟩ := Bool.or_eq_false_iff.mp (Bool.eq_false_of_not_eq_true hmention)
        apply pushes_of_free h (free_stmt _) hcalls
        simpa [stmtChildren] using ⟨free_of_not_mentions htarget, free_of_not_mentions hvalue⟩
    · cases hn

theorem pushes_of_pushesFrom {stmts : List Stmt} {finalExpr : Option Expr} {n : ℕ}
    (hn : pushesFrom innerWrites acc stmts finalExpr = some n) (h : RunsBody acc closures stmts finalExpr t .normal)
    (hcalls : CallsFree acc t) : Pushes n t := by
  induction stmts generalizing n t with
  | nil =>
    cases h with
    | done =>
      cases hn
      exact ⟨[], rfl, rfl⟩
    | final h => exact pushes_of_exprPushes hn h hcalls
  | cons s rest ih =>
    cases h with
    | stmt h h' =>
      obtain ⟨k, hk, hn⟩ := Option.bind_eq_some_iff.mp hn
      obtain ⟨m, hm, hn⟩ := Option.bind_eq_some_iff.mp hn
      cases hn
      exact (pushes_of_stmtPushes hk h hcalls.left).append (ih hm h' hcalls.right)

/-- An iteration of an accepted body appends exactly one element. -/
theorem pushes_of_shape {body : Block} (h : collectIsTabulateShape innerWrites acc body = true)
    (hrun : RunsBody acc closures body.stmts body.finalExpr t .normal) (hcalls : CallsFree acc t) : Pushes 1 t := by
  unfold collectIsTabulateShape at h
  split at h
  · cases h
  · exact pushes_of_pushesFrom (of_decide_eq_true h) hrun hcalls

end

/-! From the iterations to the loop. -/

theorem foldl_appendTo (t : List (Access α)) :
    ∀ contents, t.foldl appendTo contents = (accessed t).foldl appendTo contents := by
  induction t with
  | nil => exact fun _ => rfl
  | cons a rest ih =>
    intro contents
    cases a <;> exact ih _

theorem foldl_store (t : List (Access α)) : ∀ slot, t.foldl store slot = (accessed t).foldl store slot := by
  induction t with
  | nil => exact fun _ => rfl
  | cons a rest ih =>
    intro slot
    cases a <;> exact ih _

theorem tabulates_of_pushes {iterations : List (List (Access α))} (h : ∀ t ∈ iterations, Pushes 1 t) :
    Tabulates iterations := by
  induction iterations with
  | nil => exact ⟨[], rfl, fun contents => (List.append_nil contents).symm, rfl⟩
  | cons t rest ih =>
    obtain ⟨ht, hrest⟩ := List.forall_mem_cons.mp h
    obtain ⟨xs, haccesses, hsequential, hfilled⟩ := ih hrest
    obtain ⟨ys, hys, hlength⟩ := ht
    obtain ⟨y, rfl⟩ := List.length_eq_one_iff.mp hlength
    refine ⟨y :: xs, ?_, ?_, ?_⟩
    · rw [List.map_cons, List.map_cons, haccesses, hys]
      rfl
    · intro contents
      have hfirst : t.foldl appendTo contents = contents ++ [y] := by
        rw [foldl_appendTo, hys]
        rfl
      rw [sequential, List.flatten_cons, List.foldl_append, hfirst]
      exact (hsequential (contents ++ [y])).trans (by simp)
    · have hslot : t.foldl store none = some y := by
        rw [foldl_store, hys]
        rfl
      rw [parallelFilled, List.map_cons, hslot, List.map_cons, ← hfilled]
      rfl

/-- `acc.push(e)` alone in the body. -/
def pushBody (e : Expr) : Block := .mk [.expr (.methodCall (.identifier "acc") "push" [.mk none false e])] none

theorem pushBody_runs {α : Type} {closures : Expr → Prop} {e : Expr} {t : List (Access α)} (x : α)
    (h : Evaluates "acc" closures (.expr e) t .normal) :
    RunsBody "acc" closures (pushBody e).stmts (pushBody e).finalExpr (t ++ [.push x] ++ []) .normal :=
  .stmt (.expr (.push x h)) .done

/-- `let count = || acc.len();` before the loop -/
def countBody : Expr := .methodCall (.identifier "acc") "len" []

def IsCount (body : Expr) : Prop := body = countBody

/-- `count()` -/
def countCall : Expr := .call (.identifier "count") []

theorem countCall_reads :
    Evaluates (α := ℕ) "acc" IsCount (.expr countCall) [.called countBody, .read []] .normal := by
  have hread : Evaluates (α := ℕ) "acc" IsCount (.expr (.identifier "acc")) [.read []] .normal :=
    .mention _ rfl
  have hlen : Evaluates (α := ℕ) "acc" IsCount (.expr countBody) [.read []] .normal :=
    .part rfl List.mem_cons_self hread (.done rfl .normal)
  have hn : isPushOf "acc" (.expr countCall) = false := rfl
  have hcount : IsCount countBody := rfl
  exact .call hn hcount hlen (.done hn .normal)

end Karac.Concurrency
