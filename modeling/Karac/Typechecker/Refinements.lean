import Karac.Typechecker.Positions

/-! No value flows into a refined component without the refinement: inclusion of the admitted values along the flow,
and the same refinements wherever the flow is invariant. -/

namespace Karac.Typechecker

section

variable {V : Type*}

/-- The values a type admits, given those of each refinement within its base. A type that is not refined admits every
value: what becomes of a number of one width in a slot of another is not for a refinement to say. -/
def Ty.values (ρ : String → Set V) : Ty → Set V
  | .refinement n base => ρ n ∩ base.values ρ
  | _ => Set.univ

/-- The refinements a type carries, the outermost first. -/
def Ty.refinements : Ty → List String
  | .refinement n base => n :: base.refinements
  | _ => []

theorem Ty.values_of_not_refinement (ρ : String → Set V) {t : Ty} (h : t.isRefinement = false) :
    t.values ρ = Set.univ := by
  cases t <;> simp_all [Ty.values]

theorem Ty.refinements_of_not_refinement {t : Ty} (h : t.isRefinement = false) : t.refinements = [] := by
  cases t <;> simp_all [Ty.refinements]

/-- Whether the flow between two components runs against the flow between the roots. -/
def flipped : List Link → Bool
  | [] => false
  | l :: ls => l.flips ^^ flipped ls

/-- The variance of a position: that of the links above it, composed. -/
def polarity (ls : List Link) : Variance :=
  if ls.any Link.isInvariant then .invariant else if flipped ls then .contravariant else .covariant

/-- `s` in the slot and `t` in the source stand at corresponding positions. -/
def Corresponds (table : StdlibVariance) (slot source : Ty) (ls : List Link) (s t : Ty) : Prop :=
  ∃ c, Path table slot source ls c (if flipped ls then t else s) (if flipped ls then s else t)

variable {table : StdlibVariance} {slot source x y : Ty} {c : Check}

/-- A refined slot lets only its own refinement in. -/
theorem Check.accepts_refined (hy : y.isOpen = false) (hx : x.isRefinement = true)
    (h : c.accepts table x y = true) : y = x := by
  match x, hx with
  | .refinement n b, _ => exact typesCompatible_refinement table hy (Check.accepts_compatible rfl rfl h)

theorem Check.accepts_values (ρ : String → Set V) (hy : y.isOpen = false) (h : c.accepts table x y = true) :
    y.values ρ ⊆ x.values ρ := by
  by_cases hx : x.isRefinement = true
  · rw [Check.accepts_refined hy hx h]
  · have hxf : x.isRefinement = false := by simpa using hx
    rw [Ty.values_of_not_refinement ρ hxf]
    exact Set.subset_univ _

theorem Check.acceptsBoth_refinements (hx : x.isOpen = false) (hy : y.isOpen = false)
    (h : c.acceptsBoth table x y) : x.refinements = y.refinements := by
  by_cases hxr : x.isRefinement = true
  · rw [Check.accepts_refined hy hxr h.1]
  by_cases hyr : y.isRefinement = true
  · rw [Check.accepts_refined hx hyr h.2]
  have hxf : x.isRefinement = false := by simpa using hxr
  have hyf : y.isRefinement = false := by simpa using hyr
  rw [Ty.refinements_of_not_refinement hxf, Ty.refinements_of_not_refinement hyf]

/-- Assignability never bypasses a refinement: along the flow the admitted values only grow, and where the flow is
invariant the two components carry the same refinements. -/
theorem assignable_respects_refinements (ρ : String → Set V) (hs : slot.Closed) (ht : source.Closed)
    (h : isSubtype table slot source = true) {ls : List Link} {s t : Ty}
    (hst : Corresponds table slot source ls s t) :
    match polarity ls with
    | .covariant => t.values ρ ⊆ s.values ρ
    | .contravariant => s.values ρ ⊆ t.values ρ
    | .invariant => s.refinements = t.refinements := by
  obtain ⟨c, hpath⟩ := hst
  have hclosed := hpath.everywhere hs ht
  have hacc := hpath.accepts hs ht h
  by_cases hinv : ls.any Link.isInvariant = true
  · have hboth := hacc.2 (by simpa using hinv)
    have href := Check.acceptsBoth_refinements hclosed.1.head hclosed.2.head hboth
    simp only [polarity, hinv, if_true]
    by_cases hf : flipped ls = true
    · simp only [hf, if_true] at href
      exact href.symm
    · simpa [hf] using href
  · have hsub := Check.accepts_values ρ hclosed.2.head hacc.1
    by_cases hf : flipped ls = true
    · simpa [polarity, hinv, hf] using hsub
    · simpa [polarity, hinv, hf] using hsub

end

/-- `Fn(Positive)` as slot, `Fn(i64)` as source, at the parameter. -/
theorem assignable_respects_refinements_param :
    (Ty.refinement "Positive" (.int .i64)).values (fun _ => {n : ℤ | 0 < n}) ⊆
      (Ty.int .i64).values (fun _ => {n : ℤ | 0 < n}) := by
  have hi : (Ty.int .i64).Closed := .intro rfl (by simp [Ty.components])
  have hu : Ty.unit.Closed := .intro rfl (by simp [Ty.components])
  have hp : (Ty.refinement "Positive" (.int .i64)).Closed := .intro rfl (by simpa [Ty.components] using hi)
  have hacc : isSubtype (fun _ => none) (.function [.refinement "Positive" (.int .i64)] .unit)
      (.function [.int .i64] .unit) = true := by
    rw [isSubtype.eq_def]
    simp [allSubtypes]
    rw [isSubtype_of_refinement _ _ _ rfl, typesCompatible.eq_def]
    simp [Ty.stripRefinement]
  have hpos : Corresponds (fun _ => none) (.function [.refinement "Positive" (.int .i64)] .unit)
      (.function [.int .i64] .unit) [.param] (.refinement "Positive" (.int .i64)) (.int .i64) :=
    ⟨.subtype, .step .root (.param rfl rfl (i := 0) rfl rfl)⟩
  exact assignable_respects_refinements (fun _ => {n : ℤ | 0 < n}) (.intro rfl (by simp [Ty.components, hu, hp]))
    (.intro rfl (by simp [Ty.components, hu, hi])) hacc hpos

end Karac.Typechecker
