import Karac.Typechecker.BranchJoin
import Karac.Typechecker.Refinements

/-! When the join of two arms is above both: numbers are assignable whatever their types, and the base of the first arm
is taken even where only the second accepts it. -/

namespace Karac.Typechecker

section

variable {V : Type*}

/-- The values of the types that are no refinements, a set of its own for each. -/
structure Reading (V : Type*) where
  base : Ty → Set V
  nonempty : ∀ t, (base t).Nonempty

variable (table : StdlibVariance) (B : Reading V) (ρ : String → Set V)

/-- The values of a type, a refinement having those of its base that it was assigned. -/
def Ty.admitted : Ty → Set V
  | .refinement n base => ρ n ∩ base.admitted
  | t => B.base t

/-- `s` stands within `t` where `y` stands within `x`; the other way round where a function's parameter or a
contravariant argument is passed. -/
inductive Under (t x : Ty) : Ty → Ty → Prop
  | here : Under t x t x
  | within {s y s' y' : Ty} {l : Link} : Under t x s y → Below table .compatible s y l .compatible s' y' →
      Under t x s' y'

/-- An arm as a type sees it: without its refinements, unless the type is refined itself. -/
def Ty.seenFrom (x t : Ty) : Ty := if t.isRefinement = true then x else x.stripRefinement

/-- Every value of the arm is one of the type, at every position within them. -/
def Above (t x : Ty) : Prop :=
  x.admitted B ρ ⊆ t.admitted B ρ ∧ ∀ s y, Under table t (x.seenFrom t) s y → y.admitted B ρ ⊆ s.admitted B ρ

/-- At every position the second type's values, refinements aside, are values of the first's. -/
def BasesFit (a b : Ty) : Prop :=
  ∀ s y, Under table a b s y → B.base y.stripRefinement ⊆ B.base s.stripRefinement

/-- What is refined in the first type is so in the second. -/
def RefinementsKept (a b : Ty) : Prop := ∀ s y, Under table a b s y → s.refinements ⊆ y.refinements

variable {table B ρ} {a b s t x y : Ty} {v : V}

theorem Ty.mem_admitted (t : Ty) :
    v ∈ t.admitted B ρ ↔ (∀ n ∈ t.refinements, v ∈ ρ n) ∧ v ∈ B.base t.stripRefinement := by
  induction t using Ty.ind with
  | refinement n x ih => simp [Ty.admitted, Ty.refinements, Ty.stripRefinement, ih, and_assoc]
  | _ => simp [Ty.admitted, Ty.refinements, Ty.stripRefinement]

/-- Inclusion under every assignment, in terms of the two types. -/
theorem admitted_subset_iff : (∀ ρ, y.admitted B ρ ⊆ s.admitted B ρ) ↔
    B.base y.stripRefinement ⊆ B.base s.stripRefinement ∧ s.refinements ⊆ y.refinements := by
  constructor
  · intro h
    constructor
    · intro v hv
      exact ((Ty.mem_admitted s).1 (h (fun _ => Set.univ) ((Ty.mem_admitted y).2 ⟨by simp, hv⟩))).2
    · intro n hn
      by_contra hny
      obtain ⟨v, hv⟩ := B.nonempty y.stripRefinement
      -- `n` holds of nothing, every other refinement of everything
      have hy : v ∈ y.admitted B fun m => {_u : V | m ≠ n} := by
        refine (Ty.mem_admitted y).2 ⟨?_, hv⟩
        rintro m hm rfl
        exact hny hm
      exact ((Ty.mem_admitted s).1 (h _ hy)).1 n hn rfl
  · rintro ⟨hbase, hrefs⟩ ρ v hv
    obtain ⟨hy, hv⟩ := (Ty.mem_admitted y).1 hv
    exact (Ty.mem_admitted s).2 ⟨fun n hn => hy n (hrefs hn), hbase hv⟩

theorem admitted_subset_strip (t : Ty) : t.admitted B ρ ⊆ t.stripRefinement.admitted B ρ := by
  intro v hv
  obtain ⟨-, hv⟩ := (Ty.mem_admitted t).1 hv
  rw [Ty.mem_admitted, Ty.refinements_of_not_refinement (Ty.isRefinement_strip t),
    Ty.stripRefinement_eq (Ty.isRefinement_strip t)]
  exact ⟨by simp, hv⟩

/-- Within one type the two sides of a position are one. -/
theorem Below.same {l : Link} {c' : Check} (h : Below table .compatible a a l c' x y) : x = y := by
  cases h with
  | tuple hx hy | projectionArg hx hy | projectionReceiver hx hy | arg hx hy _ | argReversed hy hx _ =>
    exact Option.some.inj (hx.symm.trans hy)
  | param hps hqs hp hq =>
    cases hps.symm.trans hqs
    exact Option.some.inj (hq.symm.trans hp)
  | result hps hqs =>
    cases hps.symm.trans hqs
    rfl
  | slice hy => exact Option.some.inj hy
  | mutRefOwned hy => cases hy
  | widened hr _ _ => cases hr
  | _ => rfl

theorem Under.same (h : Under table t t s y) : s = y := by
  induction h with
  | here => rfl
  | within _ hstep ih =>
    subst ih
    exact hstep.same

/-- Acceptance reaches every position. -/
theorem Under.compatible (h : Under table a b s y) (ha : a.Closed) (hb : b.Closed)
    (hacc : typesCompatible table a b = true) : s.Closed ∧ y.Closed ∧ typesCompatible table s y = true := by
  induction h with
  | here => exact ⟨ha, hb, hacc⟩
  | within _ hstep ih =>
    obtain ⟨hs, hy, hacc⟩ := ih
    have hclosed := hstep.everywhere hs hy
    exact ⟨hclosed.1, hclosed.2, (hstep.passes hs.head hy.head hacc).accepts⟩

theorem refinementsKept_of_compatible (ha : a.Closed) (hb : b.Closed) (hacc : typesCompatible table a b = true) :
    RefinementsKept table a b := by
  intro s y h
  obtain ⟨-, hy, hsy⟩ := h.compatible ha hb hacc
  by_cases hs : s.isRefinement = true
  · rw [Check.accepts_refined (c := .compatible) hy.head hs hsy]
    exact List.Subset.refl _
  · rw [Ty.refinements_of_not_refinement (by simpa using hs)]
    exact List.nil_subset _

theorem Ty.seenFrom_self (t : Ty) : t.seenFrom t = t := by
  rw [Ty.seenFrom]
  split
  · rfl
  · next h => exact Ty.stripRefinement_eq (by simpa using h)

theorem above_self (t : Ty) : Above table B ρ t t := by
  refine ⟨subset_rfl, ?_⟩
  intro s y h
  rw [Ty.seenFrom_self] at h
  rw [h.same]

theorem above_own (a : Ty) : Above table B ρ a.stripRefinement a := by
  refine ⟨admitted_subset_strip a, ?_⟩
  intro s y h
  rw [Ty.seenFrom, if_neg (by rw [Ty.isRefinement_strip]; decide)] at h
  rw [h.same]

/-- The other arm: the bases have to fit and the refinements to be kept. -/
theorem above_other_iff :
    (∀ ρ, Above table B ρ a.stripRefinement b) ↔
      BasesFit table B a.stripRefinement b.stripRefinement ∧
        RefinementsKept table a.stripRefinement b.stripRefinement := by
  have hseen : b.seenFrom a.stripRefinement = b.stripRefinement := by
    rw [Ty.seenFrom, if_neg (by rw [Ty.isRefinement_strip]; decide)]
  constructor
  · intro h
    have hfit : ∀ s y, Under table a.stripRefinement b.stripRefinement s y →
        B.base y.stripRefinement ⊆ B.base s.stripRefinement ∧ s.refinements ⊆ y.refinements := by
      intro s y hsy
      refine admitted_subset_iff.1 fun ρ => (h ρ).2 s y ?_
      rwa [hseen]
    exact ⟨fun s y hsy => (hfit s y hsy).1, fun s y hsy => (hfit s y hsy).2⟩
  · rintro ⟨hbases, hrefs⟩ ρ
    have hwithin : ∀ s y, Under table a.stripRefinement b.stripRefinement s y → y.admitted B ρ ⊆ s.admitted B ρ :=
      fun s y hsy => admitted_subset_iff.2 ⟨hbases s y hsy, hrefs s y hsy⟩ ρ
    refine ⟨(admitted_subset_strip b).trans (hwithin _ _ .here), ?_⟩
    intro s y hsy
    rw [hseen] at hsy
    exact hwithin s y hsy

variable {projected : String → String → List Ty → List Ty → Ty}

theorem join_above_iff (ha : a.Known) (hb : b.Known) (h : joinBranchTypes table projected a b = some t) :
    (∀ ρ, Above table B ρ t a ∧ Above table B ρ t b) ↔
      a = b ∨ BasesFit table B a.stripRefinement b.stripRefinement ∧
        (typesCompatible table a.stripRefinement b.stripRefinement = true ∨
          RefinementsKept table a.stripRefinement b.stripRefinement) := by
  rcases join_known ha hb h with ⟨rfl, rfl⟩ | ⟨rfl, -⟩
  · exact ⟨fun _ => .inl rfl, fun _ ρ => ⟨above_self _, above_self _⟩⟩
  have hkept : typesCompatible table a.stripRefinement b.stripRefinement = true →
      RefinementsKept table a.stripRefinement b.stripRefinement :=
    refinementsKept_of_compatible (Ty.Known.closed ha.stripRefinement) (Ty.Known.closed hb.stripRefinement)
  constructor
  · intro habove
    obtain ⟨hbases, hrefs⟩ := above_other_iff.1 fun ρ => (habove ρ).2
    exact .inr ⟨hbases, .inr hrefs⟩
  · rintro (rfl | ⟨hbases, hrefs⟩) ρ
    · exact ⟨above_own a, above_own a⟩
    · exact ⟨above_own a, above_other_iff.2 ⟨hbases, hrefs.elim hkept id⟩ ρ⟩

end

/-! The integers of the integer types. -/

def IntSize.bits : IntSize → ℕ
  | .i8 => 8
  | .i16 => 16
  | .i32 => 32
  | .i64 => 64
  | .i128 => 128
  | .isize => 64

def UIntSize.bits : UIntSize → ℕ
  | .u8 => 8
  | .u16 => 16
  | .u32 => 32
  | .u64 => 64
  | .u128 => 128
  | .usize => 64

def integers : Reading ℤ where
  base
    | .int s => Set.Ico (-2 ^ (s.bits - 1)) (2 ^ (s.bits - 1))
    | .uint s => Set.Ico 0 (2 ^ s.bits)
    | _ => Set.univ
  nonempty t := by
    split
    · exact ⟨0, by simp⟩
    · exact ⟨0, by simp⟩
    · exact Set.univ_nonempty

/-- `if c { positive } else { n }`, with a `Positive` and an `i64`. -/
theorem join_above_iff_positive :
    joinBranchTypes (fun _ => none) (fun _ _ _ _ => .error) (.refinement "Positive" (.int .i64)) (.int .i64) =
        some (.int .i64) ∧
      ∀ ρ, Above (fun _ => none) integers ρ (.int .i64) (.refinement "Positive" (.int .i64)) ∧
        Above (fun _ => none) integers ρ (.int .i64) (.int .i64) := by
  have hi : (Ty.int .i64).Known := .intro rfl (by simp [Ty.components])
  have hp : (Ty.refinement "Positive" (.int .i64)).Known := .intro rfl (by simpa [Ty.components] using hi)
  have hjoin : joinBranchTypes (fun _ => none) (fun _ _ _ _ => .error) (.refinement "Positive" (.int .i64)) (.int .i64) =
      some (.int .i64) := by
    simp [joinBranchTypes, Ty.stripRefinement]
  refine ⟨hjoin, fun ρ => (join_above_iff hp hi hjoin).2 (.inr ⟨?_, .inl (typesCompatible_refl _ _)⟩) ρ⟩
  intro s y h
  rw [Under.same h]

/-- `if c { 1u8 } else { 300i64 }` is a `u8`. -/
theorem join_not_above :
    joinBranchTypes (fun _ => none) (fun _ _ _ _ => .error) (.uint .u8) (.int .i64) = some (.uint .u8) ∧
      ∀ ρ, 300 ∈ (Ty.int .i64).admitted integers ρ ∧ 300 ∉ (Ty.uint .u8).admitted integers ρ := by
  have hfit : typesCompatible (fun _ => none) (.uint .u8) (.int .i64) = true := by
    rw [typesCompatible.eq_def]
    simp
  refine ⟨?_, fun ρ => ⟨?_, ?_⟩⟩
  · simp [joinBranchTypes, typesCompatibleWithProjections, resolveAssocProjections, hfit, mergeBranchTypes]
  · simp [Ty.admitted, integers, IntSize.bits]
  · simp [Ty.admitted, integers, UIntSize.bits]

end Karac.Typechecker
