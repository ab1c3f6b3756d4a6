import Karac.Typechecker.Positions

/-! Which numbers in storage assignability compares: those `generic_arg_compatible` meets directly. A target of
`ref`, a `*const` pointee, a `mut ref` compared by `is_subtype` and the components of a tuple or of a function are
compared as values, where every number goes for every other. -/

namespace Karac.Typechecker

namespace Ty

/-- Scalars, tuples, named types, arrays, slices, references, pointers, `Rc`, `Arc` and functions. -/
def isGroundHead : Ty → Bool
  | .vector .. => false
  | .shared _ => false
  | .weak _ => false
  | .typeParam _ => false
  | .typeVar _ => false
  | .never => false
  | .error => false
  | .shape _ => false
  | .assocProjection .. => false
  | .existential .. => false
  | .refinement .. => false
  | _ => true

abbrev Ground : Ty → Prop := Everywhere fun t => t.isGroundHead = true

theorem Ground.closed {t : Ty} (h : t.Ground) : t.Closed := by
  apply h.mono
  intro t ht
  cases t <;> simp_all [isGroundHead, isOpen]

end Ty

section

variable (table : StdlibVariance) (slot source : Ty)

/-- Below storage of any kind, two numbers at corresponding positions have one layout. -/
def KeepsLayouts : Prop :=
  ∀ (ls : List Link) (c : Check) (x y : Ty), Path table slot source ls c x y → (∃ l ∈ ls, l.stores = true) →
    layoutsDiffer x y = false

/-- The same of the positions whose last link is not compared. -/
def UnguardedLayoutsAgree : Prop :=
  ∀ (l : Link) (ls : List Link) (c : Check) (x y : Ty), Path table slot source (l :: ls) c x y →
    l.guards = false → (∃ k ∈ l :: ls, k.stores = true) → layoutsDiffer x y = false

variable {table slot source}

/-- A link that is compared lets only one layout through. -/
theorem Path.guarded {l : Link} {ls : List Link} {c : Check} {x y : Ty}
    (h : Path table slot source (l :: ls) c x y) (hg : l.guards = true) (hs : slot.Closed) (ht : source.Closed)
    (hacc : isSubtype table slot source = true) : layoutsDiffer x y = false := by
  cases h with
  | step hpath hstep =>
    have hclosed := hpath.everywhere hs ht
    exact (hstep.passes hclosed.1.head hclosed.2.head (hpath.accepts hs ht hacc).1).layout hg

/-- Assignability keeps the layout of stored numbers exactly when the positions it does not compare agree by
themselves. -/
theorem keeps_layouts_iff (hs : slot.Ground) (ht : source.Ground) (hacc : isSubtype table slot source = true) :
    KeepsLayouts table slot source ↔ UnguardedLayoutsAgree table slot source := by
  constructor
  · intro hkeep l ls c x y hpath _ hstored
    exact hkeep (l :: ls) c x y hpath hstored
  · intro hagree ls c x y hpath hstored
    match ls, hpath, hstored with
    | [], _, hstored => simp at hstored
    | l :: ls, hpath, hstored =>
      by_cases hg : l.guards = true
      · exact hpath.guarded hg hs.closed ht.closed hacc
      · exact hagree l ls c x y hpath (by simpa using hg) hstored

theorem Ty.eq_number {t : Ty} (h : t.isNumeric = true) :
    (∃ s, t = .int s) ∨ (∃ s, t = .uint s) ∨ ∃ s, t = .float s := by
  cases t <;> simp_all

/-- As values, any two numbers are accepted for one another. -/
theorem isSubtype_numeric {x y : Ty} (hx : x.isNumeric = true) (hy : y.isNumeric = true) :
    isSubtype table x y = true := by
  have hc : typesCompatible table x y = true := by
    rw [typesCompatible.eq_def, hx, hy]
    rcases Ty.eq_number hx with ⟨s, rfl⟩ | ⟨s, rfl⟩ | ⟨s, rfl⟩ <;>
      rcases Ty.eq_number hy with ⟨s', rfl⟩ | ⟨s', rfl⟩ | ⟨s', rfl⟩ <;> simp
  rw [isSubtype_eq]
  · exact hc
  · cases x <;> simp_all
  · cases x <;> simp_all

/-- So are a `ref` to the one and a `ref` to the other, whatever their widths. -/
theorem isSubtype_ref_numeric {x y : Ty} (hx : x.isNumeric = true) (hy : y.isNumeric = true) :
    isSubtype table (.ref x) (.ref y) = true := by
  by_cases h : x = y
  · simp [h]
  · rw [isSubtype.eq_def]
    simpa using .inr (isSubtype_numeric hx hy)

end

theorem Ty.ground_ref_int (s : IntSize) : (Ty.ref (.int s)).Ground :=
  .intro rfl (by simpa [components] using .intro rfl (by simp [components]))

theorem Ty.ground_ref_uint (s : UIntSize) : (Ty.ref (.uint s)).Ground :=
  .intro rfl (by simpa [components] using .intro rfl (by simp [components]))

theorem keeps_layouts_iff_ref_u64 :
    KeepsLayouts (fun _ => none) (.ref (.int .i64)) (.ref (.uint .u64)) ↔
      UnguardedLayoutsAgree (fun _ => none) (.ref (.int .i64)) (.ref (.uint .u64)) :=
  keeps_layouts_iff (Ty.ground_ref_int .i64) (Ty.ground_ref_uint .u64) (isSubtype_ref_numeric rfl rfl)

/-- A `ref u16` is accepted where a `ref i64` is read: eight bytes at the address of two. -/
theorem ref_u16_as_ref_i64 :
    (Ty.ref (.int .i64)).Ground ∧ (Ty.ref (.uint .u16)).Ground ∧
      isSubtype (fun _ => none) (.ref (.int .i64)) (.ref (.uint .u16)) = true ∧
      ¬ KeepsLayouts (fun _ => none) (.ref (.int .i64)) (.ref (.uint .u16)) := by
  refine ⟨Ty.ground_ref_int .i64, Ty.ground_ref_uint .u16, isSubtype_ref_numeric rfl rfl, ?_⟩
  intro hkeep
  have hpath : Path (fun _ => none) (.ref (.int .i64)) (.ref (.uint .u16)) [.refTo] .subtype (.int .i64)
      (.uint .u16) := .step .root .ref
  have h := hkeep _ _ _ _ hpath (by decide)
  revert h
  decide

end Karac.Typechecker
