import Karac.Typechecker.Compatible

/-! What acceptance of a pair says, one arm of `types_compatible` and `is_subtype` at a time. -/

namespace Karac.Typechecker

namespace Ty

/-- The types a type is built from. -/
def components : Ty → List Ty
  | .tuple ts => ts
  | .array t _ => [t]
  | .vector t _ => [t]
  | .slice t _ => [t]
  | .named _ ts => ts
  | .rc t => [t]
  | .arc t => [t]
  | .function ps r => r :: ps
  | .onceFunction ps r => r :: ps
  | .ref t => [t]
  | .mutRef t => [t]
  | .weak t => [t]
  | .pointer _ t => [t]
  | .assocProjection _ _ ts rs => ts ++ rs
  | .existential _ ts bs _ _ => ts ++ bs.map Prod.snd
  | .refinement _ t => [t]
  | _ => []

/-- `p` holds of the type and of everything it is built from. -/
inductive Everywhere (p : Ty → Prop) : Ty → Prop
  | intro {t : Ty} : p t → (∀ c ∈ t.components, Everywhere p c) → Everywhere p t

variable {p q : Ty → Prop} {t c : Ty}

theorem Everywhere.head (h : Everywhere p t) : p t := by
  cases h with
  | intro hp _ => exact hp

theorem Everywhere.component (h : Everywhere p t) (hc : c ∈ t.components) : Everywhere p c := by
  cases h with
  | intro _ hs => exact hs c hc

theorem Everywhere.mono (hpq : ∀ t, p t → q t) (h : Everywhere p t) : Everywhere q t := by
  induction h with
  | intro hp _ ih => exact .intro (hpq _ hp) ih

theorem Everywhere.stripRefinement (h : Everywhere p t) : Everywhere p t.stripRefinement := by
  fun_induction Ty.stripRefinement t with
  | case1 name base ih => exact ih (h.component (by simp [components]))
  | case2 t ht => exact h

/-- What stands for a type not known yet, or for the absence of one. -/
def isOpen : Ty → Bool
  | .typeParam _ => true
  | .typeVar _ => true
  | .never => true
  | .error => true
  | _ => false

/-- No type parameter, metavariable, `Never` or `Error` anywhere in the type. -/
abbrev Closed : Ty → Prop := Everywhere fun t => t.isOpen = false

@[simp]
def isRef : Ty → Bool
  | .ref _ => true
  | _ => false

@[simp]
def isMutRef : Ty → Bool
  | .mutRef _ => true
  | _ => false

@[simp]
def isRefinement : Ty → Bool
  | .refinement .. => true
  | _ => false

/-- Parameters and result of either function type. -/
@[simp]
def signature : Ty → Option (List Ty × Ty)
  | .function ps r => some (ps, r)
  | .onceFunction ps r => some (ps, r)
  | _ => none

/-- The element of a type whose buffer a slice can view. -/
@[simp]
def buffer : Ty → Option Ty
  | .array t _ => some t
  | .slice t _ => some t
  | .named n [t] => if n = "Vec" then some t else none
  | _ => none

theorem buffer_cases {b y : Ty} (h : b.buffer = some y) :
    (∃ n, b = .array y n) ∨ (∃ m, b = .slice y m) ∨ b = .named "Vec" [y] := by
  unfold buffer at h
  split at h
  · cases h
    exact .inl ⟨_, rfl⟩
  · cases h
    exact .inr (.inl ⟨_, rfl⟩)
  · simp only [Option.ite_none_right_eq_some, Option.some.injEq] at h
    obtain ⟨rfl, rfl⟩ := h
    exact .inr (.inr rfl)
  · cases h

end Ty

section

variable (table : StdlibVariance)

/-! ### The relations arm by arm -/

@[simp]
theorem typesCompatible_refl (a : Ty) : typesCompatible table a a = true := by
  rw [typesCompatible.eq_def, if_pos rfl]

@[simp]
theorem layoutsDiffer_self (a : Ty) : layoutsDiffer a a = false := by
  unfold layoutsDiffer
  cases numericLayoutKey a <;> simp

@[simp]
theorem genericArgCompatible_refl (v : Variance) (a : Ty) : genericArgCompatible table v a a = true := by
  cases v <;> simp [genericArgCompatible]

@[simp]
theorem allCompatible_refl (as : List Ty) : allCompatible table as as = true := by
  induction as with
  | nil => simp [allCompatible]
  | cons a as ih => simp [allCompatible, ih]

@[simp]
theorem argsCompatible_refl (name : String) (i : ℕ) (as : List Ty) : argsCompatible table name i as as = true := by
  induction as generalizing i with
  | nil => simp [argsCompatible]
  | cons a as ih => simp [argsCompatible, ih]

theorem typesCompatible_tuple (xs ys : List Ty) :
    typesCompatible table (.tuple xs) (.tuple ys) = allCompatible table xs ys := by
  by_cases h : xs = ys
  · simp [h]
  · rw [typesCompatible.eq_def]
    simp [h]

theorem typesCompatible_named (n m : String) (xs ys : List Ty) :
    typesCompatible table (.named n xs) (.named m ys) = (n = m && argsCompatible table n 0 xs ys) := by
  by_cases h : n = m ∧ xs = ys
  · simp [h]
  · rw [typesCompatible.eq_def]
    simp [h]

theorem typesCompatible_ref (x y : Ty) :
    typesCompatible table (.ref x) (.ref y) = typesCompatible table x y := by
  by_cases h : x = y
  · simp [h]
  · rw [typesCompatible.eq_def]
    simp [h]

theorem typesCompatible_mutRef (x y : Ty) :
    typesCompatible table (.mutRef x) (.mutRef y) = genericArgCompatible table .invariant x y := by
  by_cases h : x = y
  · simp [h]
  · rw [typesCompatible.eq_def]
    simp [h]

theorem typesCompatible_constPointer (x y : Ty) :
    typesCompatible table (.pointer false x) (.pointer false y) = typesCompatible table x y := by
  by_cases h : x = y
  · simp [h]
  · rw [typesCompatible.eq_def]
    simp [h]

theorem typesCompatible_mutPointer (x y : Ty) :
    typesCompatible table (.pointer true x) (.pointer true y) = genericArgCompatible table .invariant x y := by
  by_cases h : x = y
  · simp [h]
  · rw [typesCompatible.eq_def]
    simp [h]

theorem typesCompatible_rc (x y : Ty) :
    typesCompatible table (.rc x) (.rc y) = genericArgCompatible table .invariant x y := by
  by_cases h : x = y
  · simp [h]
  · rw [typesCompatible.eq_def]
    simp [h]

theorem typesCompatible_arc (x y : Ty) :
    typesCompatible table (.arc x) (.arc y) = genericArgCompatible table .invariant x y := by
  by_cases h : x = y
  · simp [h]
  · rw [typesCompatible.eq_def]
    simp [h]

theorem typesCompatible_vector {x y : Ty} {n m : ConstArg}
    (h : typesCompatible table (.vector x n) (.vector y m) = true) : x = y := by
  rw [typesCompatible.eq_def] at h
  simp at h
  exact h.1

theorem typesCompatible_weak {x y : Ty} (h : typesCompatible table (.weak x) (.weak y) = true) : x = y := by
  rw [typesCompatible.eq_def] at h
  simpa using h

theorem typesCompatible_array {x y : Ty} {n m : ConstArg}
    (h : typesCompatible table (.array x n) (.array y m) = true) :
    genericArgCompatible table .invariant x y = true := by
  by_cases hxy : x = y
  · simp [hxy]
  · rw [typesCompatible.eq_def] at h
    simp [hxy] at h
    exact h.2

theorem typesCompatible_slice {x y b : Ty} {m : Bool} (hb : b.buffer = some y)
    (h : typesCompatible table (.slice x m) b = true) : genericArgCompatible table .invariant x y = true := by
  rw [typesCompatible.eq_def] at h
  rcases Ty.buffer_cases hb with ⟨n, rfl⟩ | ⟨m', rfl⟩ | rfl
  · simpa using h
  · by_cases hxy : x = y
    · simp [hxy]
    · simp [hxy] at h
      exact h.2
  · simpa using h

theorem typesCompatible_slice_ref {x y b : Ty} {m : Bool} (hb : b.buffer = some y)
    (h : typesCompatible table (.slice x m) (.ref b) = true) :
    genericArgCompatible table .invariant x y = true := by
  rw [typesCompatible.eq_def] at h
  cases m with
  | false => rcases Ty.buffer_cases hb with ⟨n, rfl⟩ | ⟨m', rfl⟩ | rfl <;> simpa using h
  | true => rcases Ty.buffer_cases hb with ⟨n, rfl⟩ | ⟨m', rfl⟩ | rfl <;> simp at h

theorem typesCompatible_slice_mutRef {x y b : Ty} {m : Bool} (hb : b.buffer = some y)
    (h : typesCompatible table (.slice x m) (.mutRef b) = true) :
    genericArgCompatible table .invariant x y = true := by
  rw [typesCompatible.eq_def] at h
  cases m with
  | false => rcases Ty.buffer_cases hb with ⟨n, rfl⟩ | ⟨m', rfl⟩ | rfl <;> simp at h
  | true =>
    rcases Ty.buffer_cases hb with ⟨n, rfl⟩ | ⟨m', rfl⟩ | rfl
    · simpa using h
    · cases m' with
      | false => simp at h
      | true => simpa using h
    · simpa using h

theorem typesCompatible_mutRef_owned {x y : Ty} (hy : y.isOpen = false) (hb : y.isBorrow = false)
    (h : typesCompatible table (.mutRef x) y = true) : genericArgCompatible table .invariant x y = true := by
  rw [typesCompatible.eq_def] at h
  cases y <;> simp_all [Ty.isOpen]

theorem typesCompatible_widened {a b : Ty} {n : String} (ha : a.isOpen = false) (hr : a.isRefinement = false)
    (hm : a.isMutRef = false) (h : typesCompatible table a (.refinement n b) = true) :
    typesCompatible table a b.stripRefinement = true := by
  rw [typesCompatible.eq_def] at h
  cases a <;> simp_all [Ty.isOpen]

theorem typesCompatible_projection {p a p' a' : String} {xs rs ys rs' : List Ty}
    (h : typesCompatible table (.assocProjection p a xs rs) (.assocProjection p' a' ys rs') = true) :
    allCompatible table xs ys = true ∧ allCompatible table rs rs' = true := by
  by_cases hxy : xs = ys ∧ rs = rs'
  · simp [hxy]
  · rw [typesCompatible.eq_def] at h
    have hne : ¬(p = p' ∧ a = a' ∧ xs = ys ∧ rs = rs') := fun hc => hxy ⟨hc.2.2.1, hc.2.2.2⟩
    simp [hne] at h
    exact ⟨h.1.2, h.2⟩

/-- Only the very same refinement is accepted by a refined slot. -/
theorem typesCompatible_refinement {n : String} {b y : Ty} (hy : y.isOpen = false)
    (h : typesCompatible table (.refinement n b) y = true) : y = .refinement n b := by
  rw [typesCompatible.eq_def] at h
  cases y <;> simp_all [Ty.isOpen]

theorem function_of_signature {a : Ty} {ps : List Ty} {r : Ty} (h : a.signature = some (ps, r)) :
    a = .function ps r ∨ a = .onceFunction ps r := by
  cases a <;> simp_all

theorem typesCompatible_signature {a b : Ty} {ps qs : List Ty} {r r' : Ty} (ha : a.signature = some (ps, r))
    (hb : b.signature = some (qs, r')) (h : typesCompatible table a b = true) :
    allCompatible table qs ps = true ∧ typesCompatible table r r' = true := by
  by_cases hpr : ps = qs ∧ r = r'
  · simp [hpr]
  · rw [typesCompatible.eq_def] at h
    obtain rfl | rfl := function_of_signature ha
    · obtain rfl | rfl := function_of_signature hb
      · simpa [hpr] using h
      · simp at h
    · obtain rfl | rfl := function_of_signature hb
      · simp at h
      · simpa [hpr] using h

@[simp]
theorem isSubtype_refl (a : Ty) : isSubtype table a a = true := by
  rw [isSubtype.eq_def, if_pos rfl]

@[simp]
theorem allSubtypes_refl (as : List Ty) : allSubtypes table as as = true := by
  induction as with
  | nil => simp [allSubtypes]
  | cons a as ih => simp [allSubtypes, ih]

/-- Away from functions and borrows the two relations are one. -/
theorem isSubtype_eq {a : Ty} (b : Ty) (hr : a.isBorrow = false) (hs : a.signature = none) :
    isSubtype table a b = typesCompatible table a b := by
  by_cases h : a = b
  · simp [h]
  · rw [isSubtype.eq_def, if_neg h]
    cases a <;> simp_all

theorem isSubtype_of_refinement {a : Ty} (n : String) (b : Ty) (hr : a.isBorrow = false) :
    isSubtype table a (.refinement n b) = typesCompatible table a (.refinement n b) := by
  by_cases h : a = .refinement n b
  · simp [h]
  · rw [isSubtype.eq_def, if_neg h]
    cases a <;> simp_all

theorem isSubtype_signature {a b : Ty} {ps qs : List Ty} {r r' : Ty} (ha : a.signature = some (ps, r))
    (hb : b.signature = some (qs, r')) (h : isSubtype table a b = true) :
    allSubtypes table qs ps = true ∧ isSubtype table r r' = true := by
  by_cases hpr : ps = qs ∧ r = r'
  · simp [hpr]
  · rw [isSubtype.eq_def] at h
    obtain rfl | rfl := function_of_signature ha
    · obtain rfl | rfl := function_of_signature hb
      · simpa [hpr] using h
      · have hf : typesCompatible table (.function ps r) (.onceFunction qs r') = false := by
          rw [typesCompatible.eq_def]
          simp
        simp [hf] at h
    · obtain rfl | rfl := function_of_signature hb
      · simpa using h
      · simpa [hpr] using h

theorem isSubtype_ref {x y : Ty} (h : isSubtype table (.ref x) (.ref y) = true) : isSubtype table x y = true := by
  by_cases hxy : x = y
  · simp [hxy]
  · rw [isSubtype.eq_def] at h
    simpa [hxy] using h

theorem isSubtype_ref_mutRef {x y : Ty} (h : isSubtype table (.ref x) (.mutRef y) = true) :
    isSubtype table x y = true := by
  rw [isSubtype.eq_def] at h
  simpa using h

theorem isSubtype_mutRef {x y : Ty} (h : isSubtype table (.mutRef x) (.mutRef y) = true) :
    isSubtype table x y = true ∧ isSubtype table y x = true := by
  by_cases hxy : x = y
  · simp [hxy]
  · rw [isSubtype.eq_def] at h
    simpa [hxy] using h

theorem isSubtype_ref_owned {x y : Ty} (hy : y.isBorrow = false) (h : isSubtype table (.ref x) y = true) :
    isSubtype table x y = true := by
  rw [isSubtype.eq_def] at h
  cases y <;> simp_all

theorem isSubtype_mutRef_owned {x y : Ty} (hy : y.isBorrow = false) (h : isSubtype table (.mutRef x) y = true) :
    isSubtype table x y = true ∧ isSubtype table y x = true := by
  rw [isSubtype.eq_def] at h
  cases y <;> simp_all

theorem isSubtype_mutRef_of_ref {x y : Ty} : isSubtype table (.mutRef x) (.ref y) = false := by
  have hf : typesCompatible table (.mutRef x) (.ref y) = false := by
    rw [typesCompatible.eq_def]
    simp
  rw [isSubtype.eq_def]
  simpa using hf

variable {table}

theorem forall₂_getElem? {α β : Type*} {R : α → β → Prop} {xs : List α} {ys : List β} (h : List.Forall₂ R xs ys)
    {i : ℕ} {x : α} {y : β} (hx : xs[i]? = some x) (hy : ys[i]? = some y) : R x y := by
  induction h generalizing i with
  | nil => simp at hx
  | cons hab _ ih =>
    cases i with
    | zero =>
      cases hx
      cases hy
      exact hab
    | succ i => exact ih (by simpa using hx) (by simpa using hy)

theorem allCompatible_iff {xs ys : List Ty} :
    allCompatible table xs ys = true ↔ List.Forall₂ (fun x y => typesCompatible table x y = true) xs ys := by
  induction xs generalizing ys with
  | nil => cases ys <;> simp [allCompatible]
  | cons x xs ih => cases ys <;> simp [allCompatible, ih]

theorem allSubtypes_iff {xs ys : List Ty} :
    allSubtypes table xs ys = true ↔ List.Forall₂ (fun x y => isSubtype table x y = true) xs ys := by
  induction xs generalizing ys with
  | nil => cases ys <;> simp [allSubtypes]
  | cons x xs ih => cases ys <;> simp [allSubtypes, ih]

theorem argsCompatible_get {n : String} {xs ys : List Ty} {k : ℕ} (h : argsCompatible table n k xs ys = true)
    {i : ℕ} {x y : Ty} (hx : xs[i]? = some x) (hy : ys[i]? = some y) :
    genericArgCompatible table (slotVariance table n (k + i)) x y = true := by
  induction xs generalizing ys i k with
  | nil => simp at hx
  | cons a xs ih =>
    cases ys with
    | nil => simp at hy
    | cons b ys =>
      simp only [argsCompatible, Bool.and_eq_true] at h
      cases i with
      | zero =>
        obtain rfl : a = x := by simpa using hx
        obtain rfl : b = y := by simpa using hy
        exact h.1
      | succ i =>
        have hi := ih h.2 (by simpa using hx) (by simpa using hy)
        rwa [Nat.add_assoc, Nat.add_comm 1 i] at hi

end

end Karac.Typechecker
