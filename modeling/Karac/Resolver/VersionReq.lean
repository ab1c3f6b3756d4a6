import Mathlib

/-! Version requirements as ranges. The version and range crates enter by what they document: the order of
versions, the sets that the range constructors build, and the meaning of a requirement. -/

namespace Karac.Resolver

abbrev U64 := Fin (2 ^ 64)

instance neZero_u64 : NeZero (2 ^ 64) := ⟨by decide⟩

/-- A version. The greatest tag is the absent pre-release tag, the least one the absent build tag. -/
structure Version (Pre Build : Type) where
  major : U64
  minor : U64
  patch : U64
  pre : Pre
  build : Build
  deriving DecidableEq

inductive Op
  | exact
  | greater
  | greaterEq
  | less
  | lessEq
  | tilde
  | caret
  | wildcard
  deriving DecidableEq, Repr

/-- One comparator. A patch comes with a minor, a pre-release tag with a patch, and a wildcard has no patch. -/
structure Comparator (Pre : Type) [LinearOrder Pre] [OrderTop Pre] where
  op : Op
  major : U64
  minor : Option U64
  patch : Option U64
  pre : Pre
  patch_minor : minor = none → patch = none
  pre_patch : patch = none → pre = ⊤
  wildcard_patch : op = .wildcard → patch = none

namespace Version

variable {Pre Build : Type}

/-- Versions are ordered by their components, then the pre-release and the build tag. -/
def key (v : Version Pre Build) : U64 ×ₗ U64 ×ₗ U64 ×ₗ Pre ×ₗ Build :=
  toLex (v.major, toLex (v.minor, toLex (v.patch, toLex (v.pre, v.build))))

theorem key_injective : Function.Injective (key : Version Pre Build → _) := by
  rintro ⟨a, b, c, d, e⟩ ⟨a', b', c', d', e'⟩ h
  simpa [key] using h

end Version

section

variable {Pre Build : Type} [LinearOrder Pre] [LinearOrder Build]

namespace Version

instance : LinearOrder (Version Pre Build) := LinearOrder.lift' key key_injective

theorem lt_iff {v w : Version Pre Build} : v < w ↔ v.major < w.major ∨ v.major = w.major ∧ (v.minor < w.minor ∨
    v.minor = w.minor ∧ (v.patch < w.patch ∨ v.patch = w.patch ∧ (v.pre < w.pre ∨
      v.pre = w.pre ∧ v.build < w.build))) := by
  change v.key < w.key ↔ _
  simp [key, Prod.Lex.toLex_lt_toLex]

variable [OrderTop Pre] [OrderBot Build]

/-- `Version::new`. -/
def new (major minor patch : U64) : Version Pre Build := ⟨major, minor, patch, ⊤, ⊥⟩

/-- No pre-release tag, any build tag. -/
def IsRelease (v : Version Pre Build) : Prop := v.pre = ⊤

end Version

variable [OrderTop Pre] [OrderBot Build]

/-! What the range crate documents. -/

structure RangeCrate (V : Type) where
  Range : Type
  full : Range
  singleton : V → Range
  between : V → V → Range
  higherThan : V → Range
  strictlyHigherThan : V → Range
  lowerThan : V → Range
  strictlyLowerThan : V → Range
  intersection : Range → Range → Range
  contains : Range → V → Prop

structure RangeCrate.Documented {V : Type} [LinearOrder V] (crate : RangeCrate V) : Prop where
  full : ∀ v, crate.contains crate.full v
  singleton : ∀ a v, crate.contains (crate.singleton a) v ↔ v = a
  between : ∀ a b v, crate.contains (crate.between a b) v ↔ a ≤ v ∧ v < b
  higherThan : ∀ a v, crate.contains (crate.higherThan a) v ↔ a ≤ v
  strictlyHigherThan : ∀ a v, crate.contains (crate.strictlyHigherThan a) v ↔ a < v
  lowerThan : ∀ a v, crate.contains (crate.lowerThan a) v ↔ v ≤ a
  strictlyLowerThan : ∀ a v, crate.contains (crate.strictlyLowerThan a) v ↔ v < a
  intersection : ∀ r s v, crate.contains (crate.intersection r s) v ↔ crate.contains r v ∧ crate.contains s v

/-! The conversion. -/

/-- A sum that does not fit stops the conversion. -/
def addOne (x : U64) : Option U64 := if h : x.val + 1 < 2 ^ 64 then some ⟨x.val + 1, h⟩ else none

section

variable (crate : RangeCrate (Version Pre Build))

/-- The version that a full comparator names, with its pre-release tag. -/
def exact (c : Comparator Pre) : Version Pre Build :=
  { (Version.new c.major (c.minor.getD 0) (c.patch.getD 0) : Version Pre Build) with pre := c.pre }

/-- Versions with the major and minor component, and those with the major component. -/
def minorRange (maj mi : U64) : Option crate.Range :=
  (addOne mi).map fun hi => crate.between (.new maj mi 0) (.new maj hi 0)

def majorRange (maj : U64) : Option crate.Range :=
  (addOne maj).map fun hi => crate.between (.new maj 0 0) (.new hi 0 0)

def caretToRange (c : Comparator Pre) : Option crate.Range :=
  let maj := c.major
  match c.minor, c.patch with
  | some mi, some pa =>
    (if maj > 0 then (addOne maj).map fun hi => Version.new hi 0 0
      else if mi > 0 then (addOne mi).map fun hi => Version.new 0 hi 0
      else (addOne pa).map fun hi => Version.new 0 0 hi).map fun hi => crate.between (exact c) hi
  | some mi, none =>
    (if maj > 0 then (addOne maj).map fun hi => Version.new hi 0 0
      else (addOne mi).map fun hi => Version.new 0 hi 0).map fun hi => crate.between (.new maj mi 0) hi
  | none, _ => majorRange crate maj

def comparatorToRange (c : Comparator Pre) : Option crate.Range :=
  let maj := c.major
  match c.op with
  | .exact =>
    match c.minor, c.patch with
    | some _, some _ => some (crate.singleton (exact c))
    | some mi, none => minorRange crate maj mi
    | none, _ => majorRange crate maj
  | .greater =>
    match c.minor, c.patch with
    | some _, some _ => some (crate.strictlyHigherThan (exact c))
    | some mi, none => (addOne mi).map fun lo => crate.higherThan (.new maj lo 0)
    | none, _ => (addOne maj).map fun lo => crate.higherThan (.new lo 0 0)
  | .greaterEq =>
    match c.minor, c.patch with
    | some _, some _ => some (crate.higherThan (exact c))
    | some mi, none => some (crate.higherThan (.new maj mi 0))
    | none, _ => some (crate.higherThan (.new maj 0 0))
  | .less =>
    match c.minor, c.patch with
    | some _, some _ => some (crate.strictlyLowerThan (exact c))
    | some mi, none => some (crate.strictlyLowerThan (.new maj mi 0))
    | none, _ => some (crate.strictlyLowerThan (.new maj 0 0))
  | .lessEq =>
    match c.minor, c.patch with
    | some _, some _ => some (crate.lowerThan (exact c))
    | some mi, none => (addOne mi).map fun hi => crate.strictlyLowerThan (.new maj hi 0)
    | none, _ => (addOne maj).map fun hi => crate.strictlyLowerThan (.new hi 0 0)
  | .tilde =>
    match c.minor, c.patch with
    | some mi, some _ => (addOne mi).map fun hi => crate.between (exact c) (.new maj hi 0)
    | some mi, none => minorRange crate maj mi
    | none, _ => majorRange crate maj
  | .caret => caretToRange crate c
  | .wildcard =>
    match c.minor with
    | some mi => minorRange crate maj mi
    | none => majorRange crate maj

/-- The intersection of the comparators' ranges; no comparator is the whole line. -/
def versionReqToRange (req : List (Comparator Pre)) : Option crate.Range :=
  if req.isEmpty then some crate.full
  else req.foldlM (fun acc c => (comparatorToRange crate c).map fun r => crate.intersection acc r) crate.full

end

/-! What the version crate documents: precedence leaves build tags out, a partial version stands for all its
completions. -/

/-- The version comes before the one that the comparator names. -/
def Precedes (v : Version Pre Build) (c : Comparator Pre) (mi pa : U64) : Prop :=
  v.major < c.major ∨ v.major = c.major ∧ (v.minor < mi ∨ v.minor = mi ∧ (v.patch < pa ∨ v.patch = pa ∧ v.pre < c.pre))

/-- The version is the one that the comparator names, up to the build tag. -/
def IsNamed (v : Version Pre Build) (c : Comparator Pre) (mi pa : U64) : Prop :=
  v.major = c.major ∧ v.minor = mi ∧ v.patch = pa ∧ v.pre = c.pre

/-- One comparator accepts a release version. -/
def Accepts (c : Comparator Pre) (v : Version Pre Build) : Prop :=
  match c.op, c.minor, c.patch with
  | .exact, some mi, some pa => IsNamed v c mi pa
  | .greater, some mi, some pa => ¬ Precedes v c mi pa ∧ ¬ IsNamed v c mi pa
  | .greater, some mi, none => c.major < v.major ∨ v.major = c.major ∧ mi < v.minor
  | .greater, none, _ => c.major < v.major
  | .greaterEq, some mi, some pa => ¬ Precedes v c mi pa
  | .greaterEq, some mi, none => c.major < v.major ∨ v.major = c.major ∧ mi ≤ v.minor
  | .greaterEq, none, _ => c.major ≤ v.major
  | .less, some mi, some pa => Precedes v c mi pa
  | .less, some mi, none => v.major < c.major ∨ v.major = c.major ∧ v.minor < mi
  | .less, none, _ => v.major < c.major
  | .lessEq, some mi, some pa => Precedes v c mi pa ∨ IsNamed v c mi pa
  | .lessEq, some mi, none => v.major < c.major ∨ v.major = c.major ∧ v.minor ≤ mi
  | .lessEq, none, _ => v.major ≤ c.major
  | .tilde, some mi, some pa => ¬ Precedes v c mi pa ∧ v.major = c.major ∧ v.minor = mi
  | .caret, some mi, some pa => ¬ Precedes v c mi pa ∧ v.major = c.major ∧
      (c.major = 0 → v.minor = mi ∧ (mi = 0 → v.patch = pa))
  | .caret, some mi, none => v.major = c.major ∧ mi ≤ v.minor ∧ (c.major = 0 → v.minor = mi)
  -- `=I.J`, `~I.J`, `I.J.*` and `=I`, `~I`, `^I`, `I.*`.
  | _, some mi, _ => v.major = c.major ∧ v.minor = mi
  | _, none, _ => v.major = c.major

/-- `VersionReq::matches` on release versions. -/
def MatchesDocumented (accepts : List (Comparator Pre) → Version Pre Build → Prop) : Prop :=
  ∀ req v, v.IsRelease → (accepts req v ↔ ∀ c ∈ req, Accepts c v)

/-! When the two agree. -/

/-- The component that the conversion adds one to. -/
def bumped (c : Comparator Pre) : Option U64 :=
  match c.op, c.minor, c.patch with
  | .greaterEq, _, _ => none
  | .less, _, _ => none
  | .exact, some _, some _ => none
  | .greater, some _, some _ => none
  | .lessEq, some _, some _ => none
  | .caret, some mi, some pa => some (if c.major > 0 then c.major else if mi > 0 then mi else pa)
  | .caret, some mi, none => some (if c.major > 0 then c.major else mi)
  | _, some mi, _ => some mi
  | _, none, _ => some c.major

/-- A full `=`, `>` or `<=` comparator names the version up to the build tag. -/
def Names (c : Comparator Pre) (v : Version Pre Build) : Prop :=
  (c.op = .exact ∨ c.op = .greater ∨ c.op = .lessEq) ∧ c.major = v.major ∧ c.minor = some v.minor ∧
    c.patch = some v.patch ∧ c.pre = ⊤

theorem addOne_eq_some {x y : U64} : addOne x = some y ↔ y.val = x.val + 1 := by
  unfold addOne
  split
  · rw [Option.some_inj, Fin.ext_iff, eq_comm]
  · have := y.isLt
    simp only [reduceCtorEq, false_iff]
    omega

theorem addOne_isSome {x : U64} : (addOne x).isSome = true ↔ x.val + 1 < 2 ^ 64 := by
  unfold addOne
  split
  · exact ⟨fun _ => ‹_›, fun _ => rfl⟩
  · exact ⟨fun h => absurd h (by simp), fun h => absurd h ‹_›⟩

variable {crate : RangeCrate (Version Pre Build)}

theorem comparatorToRange_isSome (c : Comparator Pre) :
    (comparatorToRange crate c).isSome = true ↔ ∀ x ∈ bumped c, x.val + 1 < 2 ^ 64 := by
  obtain ⟨op, maj, minor, patch, pre, hminor, hpre, hwild⟩ := c
  rcases minor with _ | mi <;> rcases patch with _ | pa <;> rcases op <;>
    simp [comparatorToRange, caretToRange, minorRange, majorRange, bumped, addOne_isSome]
  all_goals
    split_ifs <;> simp [addOne_isSome]

theorem release_lt_new {v : Version Pre Build} (hv : v.IsRelease) (a b c : U64) :
    v < .new a b c ↔ v.major < a ∨ v.major = a ∧ (v.minor < b ∨ v.minor = b ∧ v.patch < c) := by
  rw [Version.lt_iff]
  unfold Version.IsRelease at hv
  simp [Version.new, hv]

theorem new_le_release {v : Version Pre Build} (hv : v.IsRelease) (a b c : U64) :
    .new a b c ≤ v ↔ ¬ (v.major < a ∨ v.major = a ∧ (v.minor < b ∨ v.minor = b ∧ v.patch < c)) := by
  rw [← release_lt_new hv, not_lt]

theorem release_lt_exact {v : Version Pre Build} (hv : v.IsRelease) {c : Comparator Pre} {mi pa : U64}
    (hminor : c.minor = some mi) (hpatch : c.patch = some pa) : v < exact c ↔ Precedes v c mi pa := by
  rw [Version.lt_iff]
  unfold Version.IsRelease at hv
  simp [exact, Version.new, hminor, hpatch, Precedes, hv]

theorem eq_exact_iff {v : Version Pre Build} {c : Comparator Pre} {mi pa : U64} (hminor : c.minor = some mi)
    (hpatch : c.patch = some pa) : v = exact c ↔ IsNamed v c mi pa ∧ v.build = ⊥ := by
  obtain ⟨a, b, d, pre, build⟩ := v
  simp only [exact, Version.new, hminor, hpatch, Option.getD_some, Version.mk.injEq, IsNamed, and_assoc]

theorem exact_lt_release {v : Version Pre Build} (hv : v.IsRelease) {c : Comparator Pre} {mi pa : U64}
    (hminor : c.minor = some mi) (hpatch : c.patch = some pa) :
    exact c < v ↔ ¬ Precedes v c mi pa ∧ ¬ (IsNamed v c mi pa ∧ v.build = ⊥) := by
  rw [← release_lt_exact hv hminor hpatch, ← eq_exact_iff hminor hpatch, not_lt, lt_iff_le_and_ne, ne_comm]

theorem release_le_exact {v : Version Pre Build} (hv : v.IsRelease) {c : Comparator Pre} {mi pa : U64}
    (hminor : c.minor = some mi) (hpatch : c.patch = some pa) :
    v ≤ exact c ↔ Precedes v c mi pa ∨ IsNamed v c mi pa ∧ v.build = ⊥ := by
  rw [← release_lt_exact hv hminor hpatch, ← eq_exact_iff hminor hpatch, le_iff_lt_or_eq]

section

variable {v : Version Pre Build} (hv : v.IsRelease) (hcrate : crate.Documented)

include hv hcrate

theorem minorRange_contains {maj mi : U64} {r : crate.Range} (hr : minorRange crate maj mi = some r) :
    crate.contains r v ↔ v.major = maj ∧ v.minor = mi := by
  obtain ⟨hi, hadd, rfl⟩ := Option.map_eq_some_iff.mp hr
  have hsucc := addOne_eq_some.mp hadd
  rw [hcrate.between, new_le_release hv, release_lt_new hv]
  simp only [Fin.lt_def, Fin.ext_iff, Fin.val_zero]
  omega

theorem majorRange_contains {maj : U64} {r : crate.Range} (hr : majorRange crate maj = some r) :
    crate.contains r v ↔ v.major = maj := by
  obtain ⟨hi, hadd, rfl⟩ := Option.map_eq_some_iff.mp hr
  have hsucc := addOne_eq_some.mp hadd
  rw [hcrate.between, new_le_release hv, release_lt_new hv]
  simp only [Fin.lt_def, Fin.ext_iff, Fin.val_zero]
  omega

theorem caretToRange_contains {c : Comparator Pre} (hop : c.op = .caret) {r : crate.Range}
    (hr : caretToRange crate c = some r) : crate.contains r v ↔ Accepts c v := by
  unfold caretToRange at hr
  unfold Accepts
  rw [hop]
  rcases hminor : c.minor with _ | mi <;> rcases hpatch : c.patch with _ | pa <;> simp only [hminor, hpatch] at hr ⊢
  · exact majorRange_contains hv hcrate hr
  · exact majorRange_contains hv hcrate hr
  · obtain ⟨hi, hadd, rfl⟩ := Option.map_eq_some_iff.mp hr
    rw [hcrate.between, new_le_release hv]
    split_ifs at hadd with hmaj
    all_goals
      obtain ⟨n, hn, rfl⟩ := Option.map_eq_some_iff.mp hadd
      have hsucc := addOne_eq_some.mp hn
      rw [release_lt_new hv]
      simp only [Fin.lt_def, Fin.le_def, Fin.ext_iff, Fin.val_zero, gt_iff_lt] at hmaj ⊢
      omega
  · obtain ⟨hi, hadd, rfl⟩ := Option.map_eq_some_iff.mp hr
    rw [hcrate.between, ← not_lt, release_lt_exact hv hminor hpatch]
    refine and_congr_right fun hle => ?_
    unfold Precedes at hle
    by_cases hmaj : c.major > 0
    · rw [if_pos hmaj] at hadd
      obtain ⟨n, hn, rfl⟩ := Option.map_eq_some_iff.mp hadd
      have hsucc := addOne_eq_some.mp hn
      rw [release_lt_new hv]
      simp only [Fin.lt_def, Fin.ext_iff, Fin.val_zero, gt_iff_lt, not_or, not_and] at hle hmaj ⊢
      omega
    · rw [if_neg hmaj] at hadd
      split_ifs at hadd with hmi
      all_goals
        obtain ⟨n, hn, rfl⟩ := Option.map_eq_some_iff.mp hadd
        have hsucc := addOne_eq_some.mp hn
        rw [release_lt_new hv]
        simp only [Fin.lt_def, Fin.ext_iff, Fin.val_zero, gt_iff_lt, not_or, not_and] at hle hmaj hmi ⊢
        omega

/-- A comparator that does not name the version means its range. -/
theorem contains_iff_accepts {c : Comparator Pre} {r : crate.Range} (hr : comparatorToRange crate c = some r)
    (hnames : Names c v → v.build = ⊥) : crate.contains r v ↔ Accepts c v := by
  have htag : ∀ mi pa, c.op = .exact ∨ c.op = .greater ∨ c.op = .lessEq → c.minor = some mi → c.patch = some pa →
      IsNamed v c mi pa → v.build = ⊥ := by
    intro mi pa hop hminor hpatch hnamed
    obtain ⟨hmaj, hmi, hpa, hpre⟩ := hnamed
    exact hnames ⟨hop, hmaj.symm, hmi ▸ hminor, hpa ▸ hpatch, hpre.symm.trans hv⟩
  by_cases hcaret : c.op = .caret
  · exact caretToRange_contains hv hcrate hcaret (by simpa only [comparatorToRange, hcaret] using hr)
  unfold comparatorToRange at hr
  unfold Accepts
  rcases hpatch : c.patch with _ | pa
  · rcases hminor : c.minor with _ | mi
    · cases hop : c.op <;> simp only [hop, hminor, hpatch] at hr ⊢
      case exact | tilde | wildcard => exact majorRange_contains hv hcrate hr
      case caret => exact absurd hop hcaret
      case greater =>
        obtain ⟨n, hn, rfl⟩ := Option.map_eq_some_iff.mp hr
        have hsucc := addOne_eq_some.mp hn
        rw [hcrate.higherThan, new_le_release hv]
        simp only [Fin.lt_def, Fin.ext_iff, Fin.val_zero]
        omega
      case greaterEq =>
        obtain rfl := Option.some.inj hr
        rw [hcrate.higherThan, new_le_release hv]
        simp only [Fin.lt_def, Fin.le_def, Fin.ext_iff, Fin.val_zero]
        omega
      case less =>
        obtain rfl := Option.some.inj hr
        rw [hcrate.strictlyLowerThan, release_lt_new hv]
        simp only [Fin.lt_def, Fin.ext_iff, Fin.val_zero]
        omega
      case lessEq =>
        obtain ⟨n, hn, rfl⟩ := Option.map_eq_some_iff.mp hr
        have hsucc := addOne_eq_some.mp hn
        rw [hcrate.strictlyLowerThan, release_lt_new hv]
        simp only [Fin.lt_def, Fin.le_def, Fin.ext_iff, Fin.val_zero]
        omega
    · cases hop : c.op <;> simp only [hop, hminor, hpatch] at hr ⊢
      case exact | tilde | wildcard => exact minorRange_contains hv hcrate hr
      case caret => exact absurd hop hcaret
      case greater =>
        obtain ⟨n, hn, rfl⟩ := Option.map_eq_some_iff.mp hr
        have hsucc := addOne_eq_some.mp hn
        rw [hcrate.higherThan, new_le_release hv]
        simp only [Fin.lt_def, Fin.ext_iff, Fin.val_zero]
        omega
      case greaterEq =>
        obtain rfl := Option.some.inj hr
        rw [hcrate.higherThan, new_le_release hv]
        simp only [Fin.lt_def, Fin.le_def, Fin.ext_iff, Fin.val_zero]
        omega
      case less =>
        obtain rfl := Option.some.inj hr
        rw [hcrate.strictlyLowerThan, release_lt_new hv]
        simp only [Fin.lt_def, Fin.ext_iff, Fin.val_zero]
        omega
      case lessEq =>
        obtain ⟨n, hn, rfl⟩ := Option.map_eq_some_iff.mp hr
        have hsucc := addOne_eq_some.mp hn
        rw [hcrate.strictlyLowerThan, release_lt_new hv]
        simp only [Fin.lt_def, Fin.le_def, Fin.ext_iff, Fin.val_zero]
        omega
  · rcases hminor : c.minor with _ | mi
    · exact absurd (c.patch_minor hminor) (by simp [hpatch])
    · cases hop : c.op <;> simp only [hop, hminor, hpatch] at hr ⊢
      case caret => exact absurd hop hcaret
      case wildcard => exact absurd (c.wildcard_patch hop) (by simp [hpatch])
      case exact =>
        obtain rfl := Option.some.inj hr
        rw [hcrate.singleton, eq_exact_iff hminor hpatch]
        exact and_iff_left_of_imp (htag mi pa (Or.inl hop) hminor hpatch)
      case greater =>
        obtain rfl := Option.some.inj hr
        rw [hcrate.strictlyHigherThan, exact_lt_release hv hminor hpatch,
          and_iff_left_of_imp (htag mi pa (Or.inr (Or.inl hop)) hminor hpatch)]
      case greaterEq =>
        obtain rfl := Option.some.inj hr
        rw [hcrate.higherThan, ← not_lt, release_lt_exact hv hminor hpatch]
      case less =>
        obtain rfl := Option.some.inj hr
        rw [hcrate.strictlyLowerThan, release_lt_exact hv hminor hpatch]
      case lessEq =>
        obtain rfl := Option.some.inj hr
        rw [hcrate.lowerThan, release_le_exact hv hminor hpatch,
          and_iff_left_of_imp (htag mi pa (Or.inr (Or.inr hop)) hminor hpatch)]
      case tilde =>
        obtain ⟨n, hn, rfl⟩ := Option.map_eq_some_iff.mp hr
        have hsucc := addOne_eq_some.mp hn
        rw [hcrate.between, ← not_lt, release_lt_exact hv hminor hpatch, release_lt_new hv]
        refine and_congr_right fun hle => ?_
        unfold Precedes at hle
        simp only [Fin.lt_def, Fin.ext_iff, Fin.val_zero, not_or, not_and] at hle ⊢
        omega

/-- A comparator that names a version with a build tag is taken the other way. -/
theorem contains_of_names {c : Comparator Pre} {r : crate.Range} (hr : comparatorToRange crate c = some r)
    (hnames : Names c v) (htag : v.build ≠ ⊥) :
    (crate.contains r v ↔ c.op = .greater) ∧ (Accepts c v ↔ c.op ≠ .greater) := by
  obtain ⟨hop, hmaj, hminor, hpatch, hpre⟩ := hnames
  have hnamed : IsNamed v c v.minor v.patch := ⟨hmaj.symm, rfl, rfl, Eq.trans hv hpre.symm⟩
  have hnot : ¬ Precedes v c v.minor v.patch := by
    rw [← release_lt_exact hv hminor hpatch, Version.lt_iff]
    have hrel : v.pre = ⊤ := hv
    simp [exact, Version.new, hminor, hpatch, hmaj, hpre, hrel]
  unfold comparatorToRange at hr
  unfold Accepts
  rcases hop with hop | hop | hop <;> simp only [hop, hminor, hpatch] at hr ⊢ <;> obtain rfl := Option.some.inj hr
  · rw [hcrate.singleton, eq_exact_iff hminor hpatch]
    simp [htag, hnamed]
  · rw [hcrate.strictlyHigherThan, exact_lt_release hv hminor hpatch]
    simp [htag, hnamed, hnot]
  · rw [hcrate.lowerThan, release_le_exact hv hminor hpatch]
    simp [htag, hnamed, hnot]

end

theorem foldlM_isSome (req : List (Comparator Pre)) (acc : crate.Range) :
    (req.foldlM (fun acc c => (comparatorToRange crate c).map fun r => crate.intersection acc r) acc).isSome = true ↔
      ∀ c ∈ req, (comparatorToRange crate c).isSome = true := by
  induction req generalizing acc with
  | nil => simp
  | cons c req ih =>
    rw [List.foldlM_cons, List.forall_mem_cons]
    cases hc : comparatorToRange crate c with
    | none => simp
    | some r => simpa using ih (crate.intersection acc r)

theorem foldlM_contains (hcrate : crate.Documented) (v : Version Pre Build) (req : List (Comparator Pre))
    (acc r : crate.Range)
    (h : req.foldlM (fun acc c => (comparatorToRange crate c).map fun r => crate.intersection acc r) acc = some r) :
    crate.contains r v ↔ crate.contains acc v ∧
      ∀ c ∈ req, ∀ rc, comparatorToRange crate c = some rc → crate.contains rc v := by
  induction req generalizing acc with
  | nil =>
    obtain rfl := Option.some.inj h
    simp
  | cons c req ih =>
    rw [List.foldlM_cons] at h
    obtain ⟨acc', hacc, hrest⟩ := Option.bind_eq_some_iff.mp h
    obtain ⟨rc, hrc, rfl⟩ := Option.map_eq_some_iff.mp hacc
    rw [ih _ hrest, hcrate.intersection, List.forall_mem_cons, and_assoc]
    refine and_congr_right fun _ => and_congr_left fun _ => ⟨fun hin rc' hrc' => ?_, fun hall => hall rc hrc⟩
    obtain rfl := Option.some.inj (hrc.symm.trans hrc')
    exact hin

/-- The conversion does not overflow where no component that it raises is maximal. -/
theorem versionReqToRange_isSome (req : List (Comparator Pre)) : (versionReqToRange crate req).isSome = true ↔
    ∀ c ∈ req, ∀ x ∈ bumped c, x.val + 1 < 2 ^ 64 := by
  have hfold := foldlM_isSome req crate.full
  simp only [comparatorToRange_isSome] at hfold
  unfold versionReqToRange
  split
  · rename_i hempty
    rw [List.isEmpty_iff.mp hempty]
    simp
  · exact hfold

theorem versionReqToRange_contains (hcrate : crate.Documented) {req : List (Comparator Pre)} {r : crate.Range}
    (h : versionReqToRange crate req = some r) (v : Version Pre Build) :
    crate.contains r v ↔ ∀ c ∈ req, ∀ rc, comparatorToRange crate c = some rc → crate.contains rc v := by
  unfold versionReqToRange at h
  split at h
  · rename_i hempty
    obtain rfl := Option.some.inj h
    rw [List.isEmpty_iff.mp hempty]
    simp [hcrate.full]
  · rw [foldlM_contains hcrate v req _ _ h]
    simp [hcrate.full]

/-- No component that the conversion raises is maximal. -/
def NoMaximal (req : List (Comparator Pre)) : Prop := ∀ c ∈ req, ∀ x ∈ bumped c, x.val + 1 < 2 ^ 64

/-- The version has no build tag, or another comparator refuses it, or it is named both by a `>` and by a `=` or
`<=` comparator, or by neither. -/
def TagsAgree (req : List (Comparator Pre)) (v : Version Pre Build) : Prop :=
  v.build = ⊥ ∨ (∃ c ∈ req, ¬ Names c v ∧ ¬ Accepts c v) ∨
    ((∃ c ∈ req, Names c v ∧ c.op = .greater) ↔ ∃ c ∈ req, Names c v ∧ c.op ≠ .greater)

/-- The conversion succeeds with the range of the release versions that the requirement accepts. -/
def Agrees (crate : RangeCrate (Version Pre Build)) (accepts : List (Comparator Pre) → Version Pre Build → Prop)
    (req : List (Comparator Pre)) (v : Version Pre Build) : Prop :=
  ∃ range, versionReqToRange crate req = some range ∧ (crate.contains range v ↔ accepts req v)

/-- The range agrees with the requirement on exactly these versions. -/
theorem version_req_to_range_agrees_iff {accepts : List (Comparator Pre) → Version Pre Build → Prop}
    (hcrate : crate.Documented) (haccepts : MatchesDocumented accepts) (req : List (Comparator Pre))
    {v : Version Pre Build} (hv : v.IsRelease) :
    Agrees crate accepts req v ↔ NoMaximal req ∧ TagsAgree req v := by
  have hsome : (∃ range, versionReqToRange crate req = some range) ↔ NoMaximal req :=
    Option.isSome_iff_exists.symm.trans (versionReqToRange_isSome req)
  have hagree : ∀ range, versionReqToRange crate req = some range →
      ((crate.contains range v ↔ accepts req v) ↔ TagsAgree req v) := by
    intro range hrange
    rw [versionReqToRange_contains hcrate hrange v, haccepts req v hv]
    have hranges : ∀ c ∈ req, ∃ rc, comparatorToRange crate c = some rc := fun c hc =>
      Option.isSome_iff_exists.mp ((comparatorToRange_isSome c).mpr (hsome.mp ⟨range, hrange⟩ c hc))
    -- What a comparator's range says, where it does not name the version and where it does.
    have hother : ∀ c ∈ req, (Names c v → v.build = ⊥) →
        ((∀ rc, comparatorToRange crate c = some rc → crate.contains rc v) ↔ Accepts c v) := by
      intro c hc hnames
      obtain ⟨rc, hrc⟩ := hranges c hc
      rw [← contains_iff_accepts hv hcrate hrc hnames, hrc]
      simp
    have hnamed : ∀ c ∈ req, Names c v → v.build ≠ ⊥ →
        ((∀ rc, comparatorToRange crate c = some rc → crate.contains rc v) ↔ c.op = .greater) ∧
          (Accepts c v ↔ c.op ≠ .greater) := by
      intro c hc hnames htag
      obtain ⟨rc, hrc⟩ := hranges c hc
      obtain ⟨hin, hacc⟩ := contains_of_names hv hcrate hrc hnames htag
      refine ⟨?_, hacc⟩
      rw [← hin, hrc]
      simp
    unfold TagsAgree
    by_cases htag : v.build = ⊥
    · exact iff_of_true (forall₂_congr fun c hc => hother c hc fun _ => htag) (Or.inl htag)
    by_cases hrefuse : ∃ c ∈ req, ¬ Names c v ∧ ¬ Accepts c v
    · obtain ⟨c, hc, hnot, hacc⟩ := hrefuse
      refine iff_of_true (iff_of_false (fun hall => ?_) fun hall => hacc (hall c hc)) (Or.inr (Or.inl ⟨c, hc, hnot, hacc⟩))
      exact hacc ((hother c hc fun hn => absurd hn hnot).mp (hall c hc))
    · have hfree : ∀ c ∈ req, ¬ Names c v → Accepts c v := fun c hc hn => by
        by_contra hacc
        exact hrefuse ⟨c, hc, hn, hacc⟩
      have hin : (∀ c ∈ req, ∀ rc, comparatorToRange crate c = some rc → crate.contains rc v) ↔
          ¬ ∃ c ∈ req, Names c v ∧ c.op ≠ .greater := by
        constructor
        · rintro hall ⟨c, hc, hn, hop⟩
          exact hop ((hnamed c hc hn htag).1.mp (hall c hc))
        · intro hnone c hc
          by_cases hn : Names c v
          · exact (hnamed c hc hn htag).1.mpr (by_contra fun hop => hnone ⟨c, hc, hn, hop⟩)
          · exact (hother c hc fun h => absurd h hn).mpr (hfree c hc hn)
      have hacc : (∀ c ∈ req, Accepts c v) ↔ ¬ ∃ c ∈ req, Names c v ∧ c.op = .greater := by
        constructor
        · rintro hall ⟨c, hc, hn, hop⟩
          exact (hnamed c hc hn htag).2.mp (hall c hc) hop
        · intro hnone c hc
          by_cases hn : Names c v
          · exact (hnamed c hc hn htag).2.mpr fun hop => hnone ⟨c, hc, hn, hop⟩
          · exact hfree c hc hn
      rw [hin, hacc, not_iff_not, or_iff_right htag, or_iff_right hrefuse]
      exact iff_comm
  constructor
  · rintro ⟨range, hrange, hiff⟩
    exact ⟨hsome.mp ⟨range, hrange⟩, (hagree range hrange).mp hiff⟩
  · rintro ⟨hmax, htags⟩
    obtain ⟨range, hrange⟩ := hsome.mpr hmax
    exact ⟨range, hrange, (hagree range hrange).mpr htags⟩

end

/-! Ranges as sets, and a requirement read off its comparators. -/

section

variable {Pre Build : Type} [LinearOrder Pre] [LinearOrder Build]

def setCrate : RangeCrate (Version Pre Build) where
  Range := Set (Version Pre Build)
  full := Set.univ
  singleton a := {a}
  between a b := Set.Ico a b
  higherThan a := Set.Ici a
  strictlyHigherThan a := Set.Ioi a
  lowerThan a := Set.Iic a
  strictlyLowerThan a := Set.Iio a
  intersection r s := r ∩ s
  contains r v := v ∈ r

theorem setCrate_documented : (setCrate : RangeCrate (Version Pre Build)).Documented where
  full _ := trivial
  singleton _ _ := Iff.rfl
  between _ _ _ := Iff.rfl
  higherThan _ _ := Iff.rfl
  strictlyHigherThan _ _ := Iff.rfl
  lowerThan _ _ := Iff.rfl
  strictlyLowerThan _ _ := Iff.rfl
  intersection _ _ _ := Iff.rfl

end

section

variable {Pre Build : Type} [LinearOrder Pre] [OrderTop Pre]

def acceptsAll (req : List (Comparator Pre)) (v : Version Pre Build) : Prop := ∀ c ∈ req, Accepts c v

theorem acceptsAll_documented : MatchesDocumented (acceptsAll : List (Comparator Pre) → Version Pre Build → Prop) :=
  fun _ _ _ => Iff.rfl

end

abbrev PreTag := WithTop String

abbrev BuildTag := WithBot String

/-- `=1.2.3` -/
def exactReq : Comparator PreTag := ⟨.exact, 1, some 2, some 3, ⊤, by simp, by simp, by simp⟩

/-- `=18446744073709551615` -/
def maximalReq : Comparator PreTag := ⟨.exact, 18446744073709551615, none, none, ⊤, by simp, by simp, by simp⟩

/-- `1.2.3+build` -/
def taggedVersion : Version PreTag BuildTag := ⟨1, 2, 3, ⊤, ("build" : String)⟩

/-- `^1.2` -/
def caretReq : Comparator PreTag := ⟨.caret, 1, some 2, none, ⊤, by simp, by simp, by simp⟩

theorem version_req_to_range_agrees_caret :
    Agrees setCrate acceptsAll [caretReq] (.new 1 4 0 : Version PreTag BuildTag) := by
  have hrelease : (.new 1 4 0 : Version PreTag BuildTag).IsRelease := rfl
  refine (version_req_to_range_agrees_iff setCrate_documented acceptsAll_documented [caretReq] hrelease).mpr
    ⟨fun c hc x hx => ?_, Or.inl rfl⟩
  obtain rfl := List.mem_singleton.mp hc
  obtain rfl := Option.some.inj (hx : some (1 : U64) = some x)
  decide

/-- `=1.2.3` accepts `1.2.3+build` and its range does not contain it; a maximal component overflows. -/
theorem version_req_to_range_disagrees :
    (taggedVersion.IsRelease ∧ ¬ Agrees setCrate acceptsAll [exactReq] taggedVersion) ∧
      versionReqToRange (setCrate : RangeCrate (Version PreTag BuildTag)) [maximalReq] = none := by
  refine ⟨⟨rfl, ?_⟩, by decide⟩
  rintro ⟨range, hrange, hiff⟩
  obtain rfl := Option.some.inj hrange
  have haccepts : acceptsAll [exactReq] taggedVersion := by
    intro c hc
    rw [List.mem_singleton.mp hc]
    exact ⟨rfl, rfl, rfl, rfl⟩
  obtain ⟨-, heq⟩ := hiff.mpr haccepts
  exact absurd (congrArg Version.build heq) (by simp [taggedVersion, exact, Version.new])

end Karac.Resolver
