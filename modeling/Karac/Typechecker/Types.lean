import Mathlib

/-! The typechecker's types, and when one is assignable to another: `types_compatible` and `is_subtype`. -/

namespace Karac.Typechecker

inductive IntSize
  | i8 | i16 | i32 | i64 | i128 | isize
  deriving DecidableEq

inductive UIntSize
  | u8 | u16 | u32 | u64 | u128 | usize
  deriving DecidableEq

inductive FloatSize
  | f16 | bf16 | f32 | f64
  deriving DecidableEq

inductive ConstArg
  | literal (n : ℤ)
  | constParam (name : String)
  | constVar (id : ℕ)
  | dynamicDim
  deriving DecidableEq

inductive DimArg
  | const (c : ConstArg)
  | dynamic
  | splice (name : String)
  | spliceVar (id : ℕ)
  deriving DecidableEq

inductive Variance
  | covariant | contravariant | invariant
  deriving DecidableEq

/-- `Type`. An existential's origin is the span key of its declaration. -/
inductive Ty
  | int (size : IntSize)
  | uint (size : UIntSize)
  | float (size : FloatSize)
  | bool
  | char
  | str
  | unit
  | never
  | tuple (elems : List Ty)
  | array (element : Ty) (size : ConstArg)
  | vector (element : Ty) (lanes : ConstArg)
  | slice (element : Ty) (mutable : Bool)
  | named (name : String) (args : List Ty)
  | shared (name : String)
  | rc (inner : Ty)
  | arc (inner : Ty)
  | function (params : List Ty) (ret : Ty)
  | onceFunction (params : List Ty) (ret : Ty)
  | ref (inner : Ty)
  | mutRef (inner : Ty)
  | weak (inner : Ty)
  | pointer (isMut : Bool) (inner : Ty)
  | typeParam (name : String)
  | typeVar (id : ℕ)
  | shape (dims : List DimArg)
  | assocProjection (param assoc : String) (args receiverArgs : List Ty)
  | existential (traitName : String) (traitArgs : List Ty) (assocBindings : List (String × Ty)) (origin : ℕ)
    (taitAlias : Option String)
  | refinement (name : String) (base : Ty)
  | error

/-! Equality of types is decided side by side, since the derived instance does not reach through the lists. -/

mutual

def Ty.same : Ty → Ty → Bool
  | .int s, b => match b with | .int s' => s = s' | _ => false
  | .uint s, b => match b with | .uint s' => s = s' | _ => false
  | .float s, b => match b with | .float s' => s = s' | _ => false
  | .bool, b => match b with | .bool => true | _ => false
  | .char, b => match b with | .char => true | _ => false
  | .str, b => match b with | .str => true | _ => false
  | .unit, b => match b with | .unit => true | _ => false
  | .never, b => match b with | .never => true | _ => false
  | .tuple xs, b => match b with | .tuple ys => sameList xs ys | _ => false
  | .array x n, b => match b with | .array y m => x.same y && n = m | _ => false
  | .vector x n, b => match b with | .vector y m => x.same y && n = m | _ => false
  | .slice x m, b => match b with | .slice y m' => x.same y && m = m' | _ => false
  | .named n xs, b => match b with | .named n' ys => n = n' && sameList xs ys | _ => false
  | .shared n, b => match b with | .shared n' => n = n' | _ => false
  | .rc x, b => match b with | .rc y => x.same y | _ => false
  | .arc x, b => match b with | .arc y => x.same y | _ => false
  | .function xs x, b => match b with | .function ys y => sameList xs ys && x.same y | _ => false
  | .onceFunction xs x, b => match b with | .onceFunction ys y => sameList xs ys && x.same y | _ => false
  | .ref x, b => match b with | .ref y => x.same y | _ => false
  | .mutRef x, b => match b with | .mutRef y => x.same y | _ => false
  | .weak x, b => match b with | .weak y => x.same y | _ => false
  | .pointer m x, b => match b with | .pointer m' y => m = m' && x.same y | _ => false
  | .typeParam n, b => match b with | .typeParam n' => n = n' | _ => false
  | .typeVar n, b => match b with | .typeVar n' => n = n' | _ => false
  | .shape ds, b => match b with | .shape ds' => ds = ds' | _ => false
  | .assocProjection p n xs rs, b =>
    match b with
    | .assocProjection p' n' ys rs' => p = p' && n = n' && sameList xs ys && sameList rs rs'
    | _ => false
  | .existential n xs bs o t, b =>
    match b with
    | .existential n' ys bs' o' t' => n = n' && sameList xs ys && sameBindings bs bs' && o = o' && t = t'
    | _ => false
  | .refinement n x, b => match b with | .refinement n' y => n = n' && x.same y | _ => false
  | .error, b => match b with | .error => true | _ => false

def sameList : List Ty → List Ty → Bool
  | [], bs => match bs with | [] => true | _ => false
  | a :: as, bs => match bs with | b :: bs => a.same b && sameList as bs | _ => false

def sameBindings : List (String × Ty) → List (String × Ty) → Bool
  | [], bs => match bs with | [] => true | _ => false
  | (n, a) :: as, bs => match bs with | (n', b) :: bs => n = n' && a.same b && sameBindings as bs | _ => false

end

mutual

theorem Ty.same_iff (a b : Ty) : a.same b = true ↔ a = b := by
  cases a with
  | tuple xs => cases b <;> simp [Ty.same, sameList_iff xs]
  | array x n => cases b <;> simp [Ty.same, Ty.same_iff x]
  | vector x n => cases b <;> simp [Ty.same, Ty.same_iff x]
  | slice x m => cases b <;> simp [Ty.same, Ty.same_iff x]
  | named n xs => cases b <;> simp [Ty.same, sameList_iff xs]
  | rc x => cases b <;> simp [Ty.same, Ty.same_iff x]
  | arc x => cases b <;> simp [Ty.same, Ty.same_iff x]
  | function xs x => cases b <;> simp [Ty.same, sameList_iff xs, Ty.same_iff x]
  | onceFunction xs x => cases b <;> simp [Ty.same, sameList_iff xs, Ty.same_iff x]
  | ref x => cases b <;> simp [Ty.same, Ty.same_iff x]
  | mutRef x => cases b <;> simp [Ty.same, Ty.same_iff x]
  | weak x => cases b <;> simp [Ty.same, Ty.same_iff x]
  | pointer m x => cases b <;> simp [Ty.same, Ty.same_iff x]
  | assocProjection p n xs rs => cases b <;> simp [Ty.same, sameList_iff xs, sameList_iff rs, and_assoc]
  | existential n xs bs o t =>
    cases b <;> simp [Ty.same, sameList_iff xs, sameBindings_iff bs, and_assoc]
  | refinement n x => cases b <;> simp [Ty.same, Ty.same_iff x]
  | _ => cases b <;> simp [Ty.same]

theorem sameList_iff (as bs : List Ty) : sameList as bs = true ↔ as = bs := by
  cases as with
  | nil => cases bs <;> simp [sameList]
  | cons a as => cases bs <;> simp [sameList, Ty.same_iff a, sameList_iff as]

theorem sameBindings_iff (as bs : List (String × Ty)) : sameBindings as bs = true ↔ as = bs := by
  cases as with
  | nil => cases bs <;> simp [sameBindings]
  | cons a as =>
    obtain ⟨n, a⟩ := a
    cases bs with
    | nil => simp [sameBindings]
    | cons b bs => obtain ⟨n', b⟩ := b; simp [sameBindings, Ty.same_iff a, sameBindings_iff as]

end

instance : DecidableEq Ty := fun a b => decidable_of_iff _ (Ty.same_iff a b)

/-- Induction over types; the parts that stand in a list are given by membership. -/
@[elab_as_elim]
theorem Ty.ind {P : Ty → Prop} (int : ∀ s, P (.int s)) (uint : ∀ s, P (.uint s)) (float : ∀ s, P (.float s))
    (bool : P .bool) (char : P .char) (str : P .str) (unit : P .unit) (never : P .never)
    (tuple : ∀ es, (∀ e ∈ es, P e) → P (.tuple es)) (array : ∀ e n, P e → P (.array e n))
    (vector : ∀ e n, P e → P (.vector e n)) (slice : ∀ e m, P e → P (.slice e m))
    (named : ∀ name args, (∀ a ∈ args, P a) → P (.named name args)) (shared : ∀ name, P (.shared name))
    (rc : ∀ x, P x → P (.rc x)) (arc : ∀ x, P x → P (.arc x))
    (function : ∀ ps r, (∀ p ∈ ps, P p) → P r → P (.function ps r))
    (onceFunction : ∀ ps r, (∀ p ∈ ps, P p) → P r → P (.onceFunction ps r)) (ref : ∀ x, P x → P (.ref x))
    (mutRef : ∀ x, P x → P (.mutRef x)) (weak : ∀ x, P x → P (.weak x)) (pointer : ∀ m x, P x → P (.pointer m x))
    (typeParam : ∀ n, P (.typeParam n)) (typeVar : ∀ id, P (.typeVar id)) (shape : ∀ dims, P (.shape dims))
    (assocProjection : ∀ p n args rs, (∀ a ∈ args, P a) → (∀ a ∈ rs, P a) → P (.assocProjection p n args rs))
    (existential : ∀ n args bs o t, (∀ a ∈ args, P a) → (∀ b ∈ bs, P b.2) → P (.existential n args bs o t))
    (refinement : ∀ n x, P x → P (.refinement n x)) (error : P .error) (t : Ty) : P t :=
  @Ty.rec P (fun ts => ∀ t ∈ ts, P t) (fun bs => ∀ b ∈ bs, P b.2) (fun b => P b.2) int uint float bool char str unit
    never tuple array vector slice named shared rc arc function onceFunction ref mutRef weak pointer typeParam typeVar
    shape assocProjection existential refinement error (by simp) (by simp +contextual) (by simp) (by simp +contextual)
    (by simp) t

end Karac.Typechecker
