import Karac.Typechecker.Instantiate

/-! When the instantiation of a signature and the direct substitution of its arguments come to the same. -/

namespace Karac.Typechecker

/-! The parameters and metavariables that a type mentions anywhere. -/

inductive Leaf
  | param (n : String)
  | metavar (id : ℕ)

def ConstArg.leaves : ConstArg → List Leaf
  | .constParam n => [.param n]
  | .constVar id => [.metavar id]
  | _ => []

def DimArg.leaves : DimArg → List Leaf
  | .const c => c.leaves
  | .splice n => [.param n]
  | .spliceVar id => [.metavar id]
  | .dynamic => []

/-- `Q` holds of every parameter and metavariable in the type, at any depth. -/
def Ty.AllLeaves (Q : Leaf → Prop) : Ty → Prop
  | .tuple es => ∀ e ∈ es, e.AllLeaves Q
  | .array e n => e.AllLeaves Q ∧ ∀ l ∈ n.leaves, Q l
  | .vector e n => e.AllLeaves Q ∧ ∀ l ∈ n.leaves, Q l
  | .slice e _ => e.AllLeaves Q
  | .named _ args => ∀ a ∈ args, a.AllLeaves Q
  | .rc x => x.AllLeaves Q
  | .arc x => x.AllLeaves Q
  | .function ps r => (∀ p ∈ ps, p.AllLeaves Q) ∧ r.AllLeaves Q
  | .onceFunction ps r => (∀ p ∈ ps, p.AllLeaves Q) ∧ r.AllLeaves Q
  | .ref x => x.AllLeaves Q
  | .mutRef x => x.AllLeaves Q
  | .weak x => x.AllLeaves Q
  | .pointer _ x => x.AllLeaves Q
  | .typeParam n => Q (.param n)
  | .typeVar id => Q (.metavar id)
  | .shape dims => ∀ d ∈ dims, ∀ l ∈ d.leaves, Q l
  | .assocProjection _ _ args receiverArgs => (∀ a ∈ args, a.AllLeaves Q) ∧ ∀ a ∈ receiverArgs, a.AllLeaves Q
  | .existential _ args bindings _ _ => (∀ a ∈ args, a.AllLeaves Q) ∧ ∀ b ∈ bindings, b.2.AllLeaves Q
  | .refinement _ base => base.AllLeaves Q
  | _ => True
decreasing_by
  all_goals try decreasing_tactic
  rename_i b hb
  have hlt := List.sizeOf_lt_of_mem hb
  obtain ⟨name, t⟩ := b
  simp only [Prod.mk.sizeOf_spec, Ty.existential.sizeOf_spec] at hlt ⊢
  omega

def Leaf.IsParam : Leaf → Prop
  | .param _ => True
  | .metavar _ => False

/-- As a declaration's types are. -/
abbrev Ty.NoMetavars (t : Ty) : Prop := t.AllLeaves Leaf.IsParam

/-- Neither parameters nor metavariables. -/
abbrev Ty.Concrete (t : Ty) : Prop := t.AllLeaves fun _ => False

theorem Ty.AllLeaves.mono {Q R : Leaf → Prop} (hQR : ∀ l, Q l → R l) {t : Ty} (h : t.AllLeaves Q) : t.AllLeaves R := by
  induction t using Ty.ind with
  | tuple es ih => simp only [AllLeaves] at *; exact fun e he => ih e he (h e he)
  | named n args ih => simp only [AllLeaves] at *; exact fun e he => ih e he (h e he)
  | array e n ih => simp only [AllLeaves] at *; exact ⟨ih h.1, fun l hl => hQR l (h.2 l hl)⟩
  | vector e n ih => simp only [AllLeaves] at *; exact ⟨ih h.1, fun l hl => hQR l (h.2 l hl)⟩
  | function ps r ihp ih => simp only [AllLeaves] at *; exact ⟨fun e he => ihp e he (h.1 e he), ih h.2⟩
  | onceFunction ps r ihp ih => simp only [AllLeaves] at *; exact ⟨fun e he => ihp e he (h.1 e he), ih h.2⟩
  | typeParam n => simp only [AllLeaves] at *; exact hQR _ h
  | typeVar id => simp only [AllLeaves] at *; exact hQR _ h
  | shape dims => simp only [AllLeaves] at *; exact fun d hd l hl => hQR l (h d hd l hl)
  | assocProjection p n args rs iha ihr =>
    simp only [AllLeaves] at *
    exact ⟨fun e he => iha e he (h.1 e he), fun e he => ihr e he (h.2 e he)⟩
  | existential n args bs o t iha ihb =>
    simp only [AllLeaves] at *
    exact ⟨fun e he => iha e he (h.1 e he), fun e he => ihb e he (h.2 e he)⟩
  | slice e m ih => simp only [AllLeaves] at *; exact ih h
  | rc x ih => simp only [AllLeaves] at *; exact ih h
  | arc x ih => simp only [AllLeaves] at *; exact ih h
  | ref x ih => simp only [AllLeaves] at *; exact ih h
  | mutRef x ih => simp only [AllLeaves] at *; exact ih h
  | weak x ih => simp only [AllLeaves] at *; exact ih h
  | pointer m x ih => simp only [AllLeaves] at *; exact ih h
  | refinement n x ih => simp only [AllLeaves] at *; exact ih h
  | _ => simp only [AllLeaves]

/-! What the walks do to lists. -/

theorem substituteAll_eq_map (subs : TypeArgs) (ts : List Ty) :
    substituteAll subs ts = ts.map (substituteTypeParams subs) := by
  induction ts with
  | nil => rfl
  | cons t ts ih => rw [substituteAll, ih, List.map_cons]

theorem instantiateAll_eq_map (vars : FreshVars) (ts : List Ty) :
    instantiateAll vars ts = ts.map (instantiateTy vars) := by
  induction ts with
  | nil => rfl
  | cons t ts ih => rw [instantiateAll, ih, List.map_cons]

theorem map_eq_self_iff {α : Type*} {f : α → α} {xs : List α} : xs.map f = xs ↔ ∀ x ∈ xs, f x = x := by
  simpa using List.map_inj_left (f := f) (g := id) (l := xs)

/-- Lists of pieces of the same lengths are equal piece by piece. -/
theorem flatMap_eq_iff {α β : Type*} {f g : α → List β} {xs : List α} (h : ∀ x ∈ xs, (f x).length = (g x).length) :
    xs.flatMap f = xs.flatMap g ↔ ∀ x ∈ xs, f x = g x := by
  induction xs with
  | nil => simp
  | cons x xs ih =>
    rw [List.flatMap_cons, List.flatMap_cons, List.forall_mem_cons, ← ih fun y hy => h y (List.mem_cons_of_mem x hy)]
    exact ⟨fun heq => List.append_inj heq (h x List.mem_cons_self), fun ⟨hx, hxs⟩ => by rw [hx, hxs]⟩

/-! The parameters that `collect` finds: those at the places it reaches. -/

/-- The parameters that instantiation reaches are among `names`. -/
def ConstArg.Covered (names : ParamNames) : ConstArg → Prop
  | .constParam n => n ∈ names.consts
  | _ => True

def DimArg.Covered (names : ParamNames) : DimArg → Prop
  | .const c => c.Covered names
  | .splice n => n ∈ names.types
  | _ => True

def Ty.Covered (names : ParamNames) : Ty → Prop
  | .typeParam n => n ∈ names.types
  | .tuple es => ∀ e ∈ es, e.Covered names
  | .array e n => e.Covered names ∧ n.Covered names
  | .slice e _ => e.Covered names
  | .ref x => x.Covered names
  | .mutRef x => x.Covered names
  | .weak x => x.Covered names
  | .pointer _ x => x.Covered names
  | .named _ args => ∀ a ∈ args, a.Covered names
  | .shape dims => ∀ d ∈ dims, d.Covered names
  | .function ps r => (∀ p ∈ ps, p.Covered names) ∧ r.Covered names
  | .onceFunction ps r => (∀ p ∈ ps, p.Covered names) ∧ r.Covered names
  | .assocProjection _ _ args receiverArgs => (∀ a ∈ args, a.Covered names) ∧ ∀ a ∈ receiverArgs, a.Covered names
  | _ => True

/-- At the places that instantiation reaches there is no parameter. -/
abbrev Ty.Unreached (t : Ty) : Prop := t.Covered ⟨[], []⟩

instance : Preorder ParamNames where
  le names names' := names.types ⊆ names'.types ∧ names.consts ⊆ names'.consts
  le_refl _ := ⟨List.Subset.refl _, List.Subset.refl _⟩
  le_trans _ _ _ h h' := ⟨List.Subset.trans h.1 h'.1, List.Subset.trans h.2 h'.2⟩

theorem ParamNames.addType_spec (n : String) (names : ParamNames) :
    names ≤ names.addType n ∧ n ∈ (names.addType n).types := by
  unfold addType
  split
  · exact ⟨le_refl names, ‹_›⟩
  · exact ⟨⟨List.subset_append_left _ _, List.Subset.refl _⟩, by simp⟩

theorem ParamNames.addConst_spec (n : String) (names : ParamNames) :
    names ≤ names.addConst n ∧ n ∈ (names.addConst n).consts := by
  unfold addConst
  split
  · exact ⟨le_refl names, ‹_›⟩
  · exact ⟨⟨List.Subset.refl _, List.subset_append_left _ _⟩, by simp⟩

theorem collectConst_spec (c : ConstArg) (names : ParamNames) :
    names ≤ collectConst c names ∧ ∀ all, collectConst c names ≤ all → c.Covered all := by
  cases c with
  | constParam n => exact ⟨(names.addConst_spec n).1, fun all hall => hall.2 (names.addConst_spec n).2⟩
  | _ => exact ⟨le_refl names, fun _ _ => trivial⟩

theorem collectDim_spec (d : DimArg) (names : ParamNames) :
    names ≤ collectDim d names ∧ ∀ all, collectDim d names ≤ all → d.Covered all := by
  cases d with
  | const c => exact collectConst_spec c names
  | splice n => exact ⟨(names.addType_spec n).1, fun all hall => hall.1 (names.addType_spec n).2⟩
  | _ => exact ⟨le_refl names, fun _ _ => trivial⟩

theorem collectDims_spec (dims : List DimArg) (names : ParamNames) :
    names ≤ dims.foldl (fun names d => collectDim d names) names ∧
      ∀ all, dims.foldl (fun names d => collectDim d names) names ≤ all → ∀ d ∈ dims, d.Covered all := by
  induction dims generalizing names with
  | nil => exact ⟨le_refl names, by simp⟩
  | cons d dims ih =>
    obtain ⟨hle, hcov⟩ := collectDim_spec d names
    obtain ⟨hle', hcov'⟩ := ih (collectDim d names)
    refine ⟨le_trans hle hle', fun all hall => List.forall_mem_cons.mpr ⟨?_, hcov' all hall⟩⟩
    exact hcov all (le_trans hle' hall)

theorem collectParams_spec {ts : List Ty}
    (h : ∀ t ∈ ts, ∀ names, names ≤ collect t names ∧ ∀ all, collect t names ≤ all → t.Covered all)
    (names : ParamNames) :
    names ≤ collectParams ts names ∧ ∀ all, collectParams ts names ≤ all → ∀ t ∈ ts, t.Covered all := by
  induction ts generalizing names with
  | nil => exact ⟨le_refl names, by simp⟩
  | cons t ts ih =>
    obtain ⟨hle, hcov⟩ := h t List.mem_cons_self names
    obtain ⟨hle', hcov'⟩ := ih (fun u hu => h u (List.mem_cons_of_mem t hu)) (collect t names)
    refine ⟨le_trans hle hle', fun all hall => List.forall_mem_cons.mpr ⟨?_, hcov' all hall⟩⟩
    exact hcov all (le_trans hle' hall)

/-- `collect` only adds, and finds every parameter that instantiation reaches. -/
theorem collect_spec (t : Ty) (names : ParamNames) :
    names ≤ collect t names ∧ ∀ all, collect t names ≤ all → t.Covered all := by
  induction t using Ty.ind generalizing names with
  | tuple es ih => simpa only [collect, Ty.Covered] using collectParams_spec ih names
  | named n args ih => simpa only [collect, Ty.Covered] using collectParams_spec ih names
  | shape dims => simpa only [collect, Ty.Covered] using collectDims_spec dims names
  | typeParam n =>
    simp only [collect, Ty.Covered]
    exact ⟨(names.addType_spec n).1, fun all hall => hall.1 (names.addType_spec n).2⟩
  | array e n ih =>
    simp only [collect, Ty.Covered]
    obtain ⟨hle, hcov⟩ := ih names
    obtain ⟨hle', hcov'⟩ := collectConst_spec n (collect e names)
    exact ⟨le_trans hle hle', fun all hall => ⟨hcov all (le_trans hle' hall), hcov' all hall⟩⟩
  | function ps r ihp ih =>
    simp only [collect, Ty.Covered]
    obtain ⟨hle, hcov⟩ := collectParams_spec ihp names
    obtain ⟨hle', hcov'⟩ := ih (collectParams ps names)
    exact ⟨le_trans hle hle', fun all hall => ⟨hcov all (le_trans hle' hall), hcov' all hall⟩⟩
  | onceFunction ps r ihp ih =>
    simp only [collect, Ty.Covered]
    obtain ⟨hle, hcov⟩ := collectParams_spec ihp names
    obtain ⟨hle', hcov'⟩ := ih (collectParams ps names)
    exact ⟨le_trans hle hle', fun all hall => ⟨hcov all (le_trans hle' hall), hcov' all hall⟩⟩
  | assocProjection p n args rs iha ihr =>
    simp only [collect, Ty.Covered]
    obtain ⟨hle, hcov⟩ := collectParams_spec iha names
    obtain ⟨hle', hcov'⟩ := collectParams_spec ihr (collectParams args names)
    exact ⟨le_trans hle hle', fun all hall => ⟨hcov all (le_trans hle' hall), hcov' all hall⟩⟩
  | slice e m ih => simpa only [collect, Ty.Covered] using ih names
  | ref x ih => simpa only [collect, Ty.Covered] using ih names
  | mutRef x ih => simpa only [collect, Ty.Covered] using ih names
  | weak x ih => simpa only [collect, Ty.Covered] using ih names
  | pointer m x ih => simpa only [collect, Ty.Covered] using ih names
  | _ => simp [collect, Ty.Covered]

/-! Where the arguments themselves stay as they are. -/

/-- No dim is spelled as the constant `?`, which resolution rewrites to a dynamic dim, at the places it reaches. -/
def Ty.PlainDims : Ty → Prop
  | .tuple es => ∀ e ∈ es, e.PlainDims
  | .array e _ => e.PlainDims
  | .slice e _ => e.PlainDims
  | .ref x => x.PlainDims
  | .mutRef x => x.PlainDims
  | .weak x => x.PlainDims
  | .pointer _ x => x.PlainDims
  | .named _ args => ∀ a ∈ args, a.PlainDims
  | .shape dims => ∀ d ∈ dims, d ≠ .const .dynamicDim
  | .function ps r => (∀ p ∈ ps, p.PlainDims) ∧ r.PlainDims
  | .onceFunction ps r => (∀ p ∈ ps, p.PlainDims) ∧ r.PlainDims
  | _ => True

theorem ConstArg.apply_concrete (θ : Solution) {c : ConstArg} (h : ∀ l ∈ c.leaves, False) : c.apply θ = c := by
  cases c with
  | constVar id => exact (h _ List.mem_cons_self).elim
  | _ => rfl

theorem DimArg.apply_concrete (θ : Solution) {d : DimArg} (h : ∀ l ∈ d.leaves, False) :
    (d.apply θ).length = 1 ∧ (d.apply θ = [d] ↔ d ≠ .const .dynamicDim) := by
  cases d with
  | const c =>
    rw [apply, ConstArg.apply_concrete θ h]
    cases c <;> simp [resolvedDim]
  | spliceVar id => exact (h _ List.mem_cons_self).elim
  | _ => simp [apply]

theorem dims_apply_concrete (θ : Solution) {dims : List DimArg} (h : ∀ d ∈ dims, ∀ l ∈ d.leaves, False) :
    dims.flatMap (DimArg.apply θ) = dims ↔ ∀ d ∈ dims, d ≠ .const .dynamicDim := by
  have hlen : ∀ d ∈ dims, (d.apply θ).length = [d].length := fun d hd => (d.apply_concrete θ (h d hd)).1
  calc dims.flatMap (DimArg.apply θ) = dims ↔ dims.flatMap (DimArg.apply θ) = dims.flatMap ([·]) := by
        rw [List.flatMap_singleton']
    _ ↔ ∀ d ∈ dims, d.apply θ = [d] := flatMap_eq_iff hlen
    _ ↔ ∀ d ∈ dims, d ≠ .const .dynamicDim := forall₂_congr fun d hd => (d.apply_concrete θ (h d hd)).2

/-- Resolution leaves a concrete type as it is unless it spells a dim as the constant `?`. -/
theorem Ty.apply_concrete (θ : Solution) (t : Ty) (h : t.Concrete) : t.apply θ = t ↔ t.PlainDims := by
  induction t using Ty.ind with
  | tuple es ih =>
    simp only [AllLeaves, apply, PlainDims, applyList_eq_map, tuple.injEq, map_eq_self_iff] at *
    exact forall₂_congr fun e he => ih e he (h e he)
  | named n args ih =>
    simp only [AllLeaves, apply, PlainDims, applyList_eq_map, named.injEq, true_and, map_eq_self_iff] at *
    exact forall₂_congr fun e he => ih e he (h e he)
  | array e n ih =>
    simp only [AllLeaves, apply, PlainDims, array.injEq] at *
    rw [ConstArg.apply_concrete θ h.2, eq_self, and_true]
    exact ih h.1
  | function ps r ihp ih =>
    simp only [AllLeaves, apply, PlainDims, applyList_eq_map, function.injEq, map_eq_self_iff] at *
    exact and_congr (forall₂_congr fun e he => ihp e he (h.1 e he)) (ih h.2)
  | onceFunction ps r ihp ih =>
    simp only [AllLeaves, apply, PlainDims, applyList_eq_map, onceFunction.injEq, map_eq_self_iff] at *
    exact and_congr (forall₂_congr fun e he => ihp e he (h.1 e he)) (ih h.2)
  | shape dims =>
    simp only [AllLeaves, apply, PlainDims, shape.injEq] at *
    exact dims_apply_concrete θ h
  | typeVar id => simp only [AllLeaves] at h
  | slice e m ih => simpa only [AllLeaves, apply, PlainDims, slice.injEq, and_true] using ih (by simpa [AllLeaves] using h)
  | ref x ih => simpa only [AllLeaves, apply, PlainDims, ref.injEq] using ih (by simpa [AllLeaves] using h)
  | mutRef x ih => simpa only [AllLeaves, apply, PlainDims, mutRef.injEq] using ih (by simpa [AllLeaves] using h)
  | weak x ih => simpa only [AllLeaves, apply, PlainDims, weak.injEq] using ih (by simpa [AllLeaves] using h)
  | pointer m x ih =>
    simpa only [AllLeaves, apply, PlainDims, pointer.injEq, true_and] using ih (by simpa [AllLeaves] using h)
  | _ => simp [apply, PlainDims]

/-! What substitution leaves as it is, and what it brings in. -/

section

variable (subs : TypeArgs)

def ConstArg.Fixed : ConstArg → Prop
  | .constParam n => subs.literal n = none
  | _ => True

def DimArg.Fixed : DimArg → Prop
  | .const c => c.Fixed subs
  | .splice n => ∀ dims, subs.type n ≠ some (.shape dims)
  | _ => True

/-- No parameter that has an argument stands at a place that substitution reaches. A projection's receiver may, where its
argument goes by the receiver's very name and arguments. -/
def Ty.Fixed : Ty → Prop
  | .typeParam n => subs.type n = none
  | .tuple es => ∀ e ∈ es, e.Fixed
  | .array e n => e.Fixed ∧ n.Fixed subs
  | .slice e _ => e.Fixed
  | .ref x => x.Fixed
  | .mutRef x => x.Fixed
  | .weak x => x.Fixed
  | .pointer _ x => x.Fixed
  | .named _ args => ∀ a ∈ args, a.Fixed
  | .shape dims => ∀ d ∈ dims, d.Fixed subs
  | .function ps r => (∀ p ∈ ps, p.Fixed) ∧ r.Fixed
  | .onceFunction ps r => (∀ p ∈ ps, p.Fixed) ∧ r.Fixed
  | .assocProjection p _ args rs => (∀ a ∈ args, a.Fixed) ∧
      ((∃ u, subs.type p = some u ∧ receiverHead u = (p, rs)) ∨ subs.type p = none ∧ ∀ a ∈ rs, a.Fixed)
  | .refinement _ base => base.Fixed
  | _ => True

variable {subs} (hconcrete : ∀ n u, subs.type n = some u → u.Concrete)

theorem literal_cases (subs : TypeArgs) (n : String) : subs.literal n = none ∨ ∃ k, subs.literal n = some (.literal k) := by
  unfold TypeArgs.literal
  split
  · rename_i v _
    cases constValueToI64 v <;> simp
  · exact .inl rfl

theorem ConstArg.fixed_iff (c : ConstArg) : substituteConstArg subs c = c ↔ c.Fixed subs := by
  cases c with
  | constParam n =>
    rcases literal_cases subs n with hn | ⟨k, hn⟩ <;> simp [substituteConstArg, Fixed, hn]
  | _ => simp [substituteConstArg, Fixed]

theorem ConstArg.noMetavars_substitute {c : ConstArg} (h : ∀ l ∈ c.leaves, l.IsParam) :
    ∀ l ∈ (substituteConstArg subs c).leaves, l.IsParam := by
  cases c with
  | constParam n =>
    rcases literal_cases subs n with hn | ⟨k, hn⟩ <;> simp [substituteConstArg, leaves, hn, Leaf.IsParam]
  | _ => exact h

include hconcrete

/-- The dims that come in for a splice mention nothing. -/
theorem shape_dims_concrete {n : String} {inner : List DimArg} (h : subs.type n = some (.shape inner)) :
    ∀ d ∈ inner, ∀ l ∈ d.leaves, False := by
  have hinner := hconcrete n _ h
  simpa only [Ty.AllLeaves] using hinner

theorem DimArg.noMetavars_substitute {d : DimArg} (h : ∀ l ∈ d.leaves, l.IsParam) :
    ∀ e ∈ substituteDim subs d, ∀ l ∈ e.leaves, l.IsParam := by
  cases d with
  | const c => simpa [substituteDim, leaves] using ConstArg.noMetavars_substitute h
  | splice n =>
    simp only [substituteDim]
    split
    · rename_i inner hn
      exact fun e he l hl => (shape_dims_concrete hconcrete hn e he l hl).elim
    · simpa using h
  | _ => simpa [substituteDim] using h

omit hconcrete in
theorem receiverHead_concrete {u : Ty} (h : u.Concrete) : ∀ a ∈ (receiverHead u).2, a.Concrete := by
  cases u with
  | named n args => simpa only [receiverHead, Ty.AllLeaves] using h
  | rc x => simpa only [receiverHead, Ty.AllLeaves, List.forall_mem_singleton] using h
  | arc x => simpa only [receiverHead, Ty.AllLeaves, List.forall_mem_singleton] using h
  | _ => simp [receiverHead]

/-- Substitution brings in no metavariable. -/
theorem noMetavars_substitute (t : Ty) (h : t.NoMetavars) : (substituteTypeParams subs t).NoMetavars := by
  induction t using Ty.ind with
  | typeParam n =>
    simp only [substituteTypeParams]
    cases hn : subs.type n with
    | none => simp [Ty.AllLeaves, Leaf.IsParam]
    | some u => exact (hconcrete n u hn).mono fun _ => False.elim
  | tuple es ih =>
    simp only [Ty.AllLeaves, substituteTypeParams, substituteAll_eq_map, List.forall_mem_map] at *
    exact fun e he => ih e he (h e he)
  | named n args ih =>
    simp only [Ty.AllLeaves, substituteTypeParams, substituteAll_eq_map, List.forall_mem_map] at *
    exact fun e he => ih e he (h e he)
  | array e n ih =>
    simp only [Ty.AllLeaves, substituteTypeParams] at *
    exact ⟨ih h.1, ConstArg.noMetavars_substitute h.2⟩
  | function ps r ihp ih =>
    simp only [Ty.AllLeaves, substituteTypeParams, substituteAll_eq_map, List.forall_mem_map] at *
    exact ⟨fun e he => ihp e he (h.1 e he), ih h.2⟩
  | onceFunction ps r ihp ih =>
    simp only [Ty.AllLeaves, substituteTypeParams, substituteAll_eq_map, List.forall_mem_map] at *
    exact ⟨fun e he => ihp e he (h.1 e he), ih h.2⟩
  | shape dims =>
    simp only [Ty.AllLeaves, substituteTypeParams, List.mem_flatMap] at *
    rintro e ⟨d, hd, he⟩
    exact DimArg.noMetavars_substitute hconcrete (h d hd) e he
  | assocProjection p n args rs iha ihr =>
    simp only [Ty.AllLeaves, substituteTypeParams, substituteAll_eq_map] at *
    cases hp : subs.type p with
    | none =>
      simp only [Ty.AllLeaves, List.forall_mem_map]
      exact ⟨fun e he => iha e he (h.1 e he), fun e he => ihr e he (h.2 e he)⟩
    | some u =>
      simp only [Ty.AllLeaves, List.forall_mem_map]
      refine ⟨fun e he => iha e he (h.1 e he), fun e he => ?_⟩
      exact (receiverHead_concrete (hconcrete p u hp) e he).mono fun _ => False.elim
  | slice e m ih => simp only [Ty.AllLeaves, substituteTypeParams] at *; exact ih h
  | ref x ih => simp only [Ty.AllLeaves, substituteTypeParams] at *; exact ih h
  | mutRef x ih => simp only [Ty.AllLeaves, substituteTypeParams] at *; exact ih h
  | weak x ih => simp only [Ty.AllLeaves, substituteTypeParams] at *; exact ih h
  | pointer m x ih => simp only [Ty.AllLeaves, substituteTypeParams] at *; exact ih h
  | refinement n x ih => simp only [Ty.AllLeaves, substituteTypeParams] at *; exact ih h
  | _ => simpa only [substituteTypeParams] using h

/-! Substitution leaves a type as it is just when the type is fixed. -/

theorem shape_dims_splices {n : String} {inner : List DimArg} (h : subs.type n = some (.shape inner)) :
    inner.countP DimArg.isSplice = 0 := by
  refine List.countP_eq_zero.mpr fun d hd hsplice => ?_
  have hleaf := shape_dims_concrete hconcrete h d hd
  cases d with
  | splice m => exact hleaf _ List.mem_cons_self
  | spliceVar id => exact hleaf _ List.mem_cons_self
  | _ => cases hsplice

theorem splices_substitute_le (dims : List DimArg) :
    (dims.flatMap (substituteDim subs)).countP DimArg.isSplice ≤ dims.countP DimArg.isSplice := by
  induction dims with
  | nil => rfl
  | cons d dims ih =>
    have hd : (substituteDim subs d).countP DimArg.isSplice ≤ [d].countP DimArg.isSplice := by
      cases d with
      | splice n =>
        simp only [substituteDim]
        split
        · rename_i inner hn
          rw [shape_dims_splices hconcrete hn]
          exact Nat.zero_le _
        · exact le_refl _
      | _ => exact le_refl _
    rw [List.flatMap_cons, List.countP_append, ← List.singleton_append, List.countP_append]
    omega

theorem dims_fixed_iff (dims : List DimArg) :
    dims.flatMap (substituteDim subs) = dims ↔ ∀ d ∈ dims, d.Fixed subs := by
  induction dims with
  | nil => simp
  | cons d dims ih =>
    rw [List.flatMap_cons, List.forall_mem_cons, ← ih]
    cases d with
    | const c => simp [substituteDim, DimArg.Fixed, ConstArg.fixed_iff]
    | splice n =>
      simp only [substituteDim, DimArg.Fixed]
      split
      · rename_i inner hn
        -- one splice less than there was
        refine ⟨fun heq => ?_, fun h => absurd hn (h.1 inner)⟩
        have hcount := congrArg (List.countP DimArg.isSplice) heq
        have hle := splices_substitute_le hconcrete dims
        rw [List.countP_append, shape_dims_splices hconcrete hn, List.countP_cons_of_pos (by rfl)] at hcount
        omega
      · rename_i hn
        rw [List.singleton_append, List.cons.injEq, eq_self]
        exact and_congr_left' (iff_of_true trivial hn)
    | _ => simp [substituteDim, DimArg.Fixed]

theorem fixed_iff (t : Ty) : substituteTypeParams subs t = t ↔ t.Fixed subs := by
  induction t using Ty.ind with
  | typeParam n =>
    simp only [substituteTypeParams, Ty.Fixed]
    cases hn : subs.type n with
    | none => simp
    | some u =>
      refine iff_of_false (fun heq => ?_) (by simp)
      have hu := hconcrete n u hn
      rw [Option.getD_some] at heq
      rw [heq] at hu
      simp only [Ty.AllLeaves] at hu
  | tuple es ih =>
    simp only [substituteTypeParams, Ty.Fixed, substituteAll_eq_map, Ty.tuple.injEq, map_eq_self_iff]
    exact forall₂_congr ih
  | named n args ih =>
    simp only [substituteTypeParams, Ty.Fixed, substituteAll_eq_map, Ty.named.injEq, true_and, map_eq_self_iff]
    exact forall₂_congr ih
  | array e n ih => simp only [substituteTypeParams, Ty.Fixed, Ty.array.injEq, ih, ConstArg.fixed_iff]
  | function ps r ihp ih =>
    simp only [substituteTypeParams, Ty.Fixed, substituteAll_eq_map, Ty.function.injEq, map_eq_self_iff]
    exact and_congr (forall₂_congr ihp) ih
  | onceFunction ps r ihp ih =>
    simp only [substituteTypeParams, Ty.Fixed, substituteAll_eq_map, Ty.onceFunction.injEq, map_eq_self_iff]
    exact and_congr (forall₂_congr ihp) ih
  | shape dims =>
    simp only [substituteTypeParams, Ty.Fixed, Ty.shape.injEq]
    exact dims_fixed_iff hconcrete dims
  | assocProjection p n args rs iha ihr =>
    simp only [substituteTypeParams, Ty.Fixed, substituteAll_eq_map]
    have hargs := forall₂_congr iha
    cases hp : subs.type p with
    | none =>
      simp only [Ty.assocProjection.injEq, map_eq_self_iff, true_and]
      simpa using and_congr hargs (forall₂_congr ihr)
    | some u =>
      simp only [Ty.assocProjection.injEq, map_eq_self_iff, true_and]
      simp [hargs, Prod.ext_iff]
      tauto
  | slice e m ih => simp only [substituteTypeParams, Ty.Fixed, Ty.slice.injEq, and_true, ih]
  | ref x ih => simp only [substituteTypeParams, Ty.Fixed, Ty.ref.injEq, ih]
  | mutRef x ih => simp only [substituteTypeParams, Ty.Fixed, Ty.mutRef.injEq, ih]
  | weak x ih => simp only [substituteTypeParams, Ty.Fixed, Ty.weak.injEq, ih]
  | pointer m x ih => simp only [substituteTypeParams, Ty.Fixed, Ty.pointer.injEq, true_and, ih]
  | refinement n x ih => simp only [substituteTypeParams, Ty.Fixed, Ty.refinement.injEq, true_and, ih]
  | _ => simp [substituteTypeParams, Ty.Fixed]

end

/-! Instantiation where it reaches no parameter, and where it reaches one. -/

section Reach

variable {vars : FreshVars} {names : ParamNames}

/-- Both directions of the maps agree on the names. -/
structure FreshVars.Holds (vars : FreshVars) (names : ParamNames) : Prop where
  type : ∀ n ∈ names.types, ∃ id, vars.nameToId n = some id ∧ vars.idToName id = some n
  const : ∀ n ∈ names.consts, ∃ id, vars.nameToConstId n = some id ∧ vars.constIdToName id = some n

theorem ConstArg.instantiate_unreached {c : ConstArg} (h : c.Covered ⟨[], []⟩) : substituteConstParamToVar vars c = c := by
  cases c with
  | constParam n => cases h
  | _ => rfl

theorem DimArg.instantiate_unreached {d : DimArg} (h : d.Covered ⟨[], []⟩) : instantiateDim vars d = d := by
  cases d with
  | const c => exact congrArg DimArg.const (ConstArg.instantiate_unreached h)
  | splice n => cases h
  | _ => rfl

theorem instantiate_unreached (t : Ty) (h : t.Unreached) : instantiateTy vars t = t := by
  induction t using Ty.ind with
  | typeParam n => simp [Ty.Covered] at h
  | tuple es ih =>
    simp only [instantiateTy, Ty.Covered, instantiateAll_eq_map, Ty.tuple.injEq, map_eq_self_iff] at *
    exact fun e he => ih e he (h e he)
  | named n args ih =>
    simp only [instantiateTy, Ty.Covered, instantiateAll_eq_map, Ty.named.injEq, true_and, map_eq_self_iff] at *
    exact fun e he => ih e he (h e he)
  | array e n ih =>
    simp only [instantiateTy, Ty.Covered] at *
    rw [ih h.1, ConstArg.instantiate_unreached h.2]
  | function ps r ihp ih =>
    simp only [instantiateTy, Ty.Covered, instantiateAll_eq_map, Ty.function.injEq, map_eq_self_iff] at *
    exact ⟨fun e he => ihp e he (h.1 e he), ih h.2⟩
  | onceFunction ps r ihp ih =>
    simp only [instantiateTy, Ty.Covered, instantiateAll_eq_map, Ty.onceFunction.injEq, map_eq_self_iff] at *
    exact ⟨fun e he => ihp e he (h.1 e he), ih h.2⟩
  | shape dims =>
    simp only [instantiateTy, Ty.Covered, Ty.shape.injEq, map_eq_self_iff] at *
    exact fun d hd => DimArg.instantiate_unreached (h d hd)
  | assocProjection p n args rs iha ihr =>
    simp only [instantiateTy, Ty.Covered, instantiateAll_eq_map, Ty.assocProjection.injEq, true_and,
      map_eq_self_iff] at *
    exact ⟨fun e he => iha e he (h.1 e he), fun e he => ihr e he (h.2 e he)⟩
  | slice e m ih => simp only [instantiateTy, Ty.Covered] at *; rw [ih h]
  | ref x ih => simp only [instantiateTy, Ty.Covered] at *; rw [ih h]
  | mutRef x ih => simp only [instantiateTy, Ty.Covered] at *; rw [ih h]
  | weak x ih => simp only [instantiateTy, Ty.Covered] at *; rw [ih h]
  | pointer m x ih => simp only [instantiateTy, Ty.Covered] at *; rw [ih h]
  | _ => simp only [instantiateTy]

theorem ConstArg.unreached_of_noMetavars (hvars : vars.Holds names) {c : ConstArg} (hc : c.Covered names)
    (h : ∀ l ∈ (substituteConstParamToVar vars c).leaves, l.IsParam) : c.Covered ⟨[], []⟩ := by
  cases c with
  | constParam n =>
    obtain ⟨id, hid, -⟩ := hvars.const n hc
    rw [substituteConstParamToVar, hid] at h
    exact (h _ List.mem_cons_self).elim
  | _ => trivial

theorem DimArg.unreached_of_noMetavars (hvars : vars.Holds names) {d : DimArg} (hd : d.Covered names)
    (h : ∀ l ∈ (instantiateDim vars d).leaves, l.IsParam) : d.Covered ⟨[], []⟩ := by
  cases d with
  | const c => exact ConstArg.unreached_of_noMetavars hvars hd h
  | splice n =>
    obtain ⟨id, hid, -⟩ := hvars.type n hd
    rw [instantiateDim, hid] at h
    exact (h _ List.mem_cons_self).elim
  | _ => trivial

/-- Where instantiation reaches a parameter it leaves a metavariable. -/
theorem unreached_of_noMetavars (hvars : vars.Holds names) (t : Ty) (hcov : t.Covered names)
    (h : (instantiateTy vars t).NoMetavars) : t.Unreached := by
  induction t using Ty.ind with
  | typeParam n =>
    obtain ⟨id, hid, -⟩ := hvars.type n (by simpa only [Ty.Covered] using hcov)
    rw [instantiateTy, hid] at h
    simp [Ty.AllLeaves, Leaf.IsParam] at h
  | tuple es ih =>
    simp only [instantiateTy, Ty.Covered, instantiateAll_eq_map, Ty.AllLeaves, List.forall_mem_map] at *
    exact fun e he => ih e he (hcov e he) (h e he)
  | named n args ih =>
    simp only [instantiateTy, Ty.Covered, instantiateAll_eq_map, Ty.AllLeaves, List.forall_mem_map] at *
    exact fun e he => ih e he (hcov e he) (h e he)
  | array e n ih =>
    simp only [instantiateTy, Ty.Covered, Ty.AllLeaves] at *
    exact ⟨ih hcov.1 h.1, ConstArg.unreached_of_noMetavars hvars hcov.2 h.2⟩
  | function ps r ihp ih =>
    simp only [instantiateTy, Ty.Covered, instantiateAll_eq_map, Ty.AllLeaves, List.forall_mem_map] at *
    exact ⟨fun e he => ihp e he (hcov.1 e he) (h.1 e he), ih hcov.2 h.2⟩
  | onceFunction ps r ihp ih =>
    simp only [instantiateTy, Ty.Covered, instantiateAll_eq_map, Ty.AllLeaves, List.forall_mem_map] at *
    exact ⟨fun e he => ihp e he (hcov.1 e he) (h.1 e he), ih hcov.2 h.2⟩
  | shape dims =>
    simp only [instantiateTy, Ty.Covered, Ty.AllLeaves, List.forall_mem_map] at *
    exact fun d hd => DimArg.unreached_of_noMetavars hvars (hcov d hd) (h d hd)
  | assocProjection p n args rs iha ihr =>
    simp only [instantiateTy, Ty.Covered, instantiateAll_eq_map, Ty.AllLeaves, List.forall_mem_map] at *
    exact ⟨fun e he => iha e he (hcov.1 e he) (h.1 e he), fun e he => ihr e he (hcov.2 e he) (h.2 e he)⟩
  | slice e m ih => simp only [instantiateTy, Ty.Covered, Ty.AllLeaves] at *; exact ih hcov h
  | ref x ih => simp only [instantiateTy, Ty.Covered, Ty.AllLeaves] at *; exact ih hcov h
  | mutRef x ih => simp only [instantiateTy, Ty.Covered, Ty.AllLeaves] at *; exact ih hcov h
  | weak x ih => simp only [instantiateTy, Ty.Covered, Ty.AllLeaves] at *; exact ih hcov h
  | pointer m x ih => simp only [instantiateTy, Ty.Covered, Ty.AllLeaves] at *; exact ih hcov h
  | _ => simp only [Ty.Covered]

theorem ConstArg.unreached_of_concrete {c : ConstArg} (h : ∀ l ∈ c.leaves, False) : c.Covered ⟨[], []⟩ := by
  cases c with
  | constParam n => exact (h _ List.mem_cons_self).elim
  | _ => trivial

theorem Ty.Concrete.unreached {t : Ty} (h : t.Concrete) : t.Unreached := by
  induction t using Ty.ind with
  | typeParam n => simp only [AllLeaves] at h
  | tuple es ih => simp only [Covered, AllLeaves] at *; exact fun e he => ih e he (h e he)
  | named n args ih => simp only [Covered, AllLeaves] at *; exact fun e he => ih e he (h e he)
  | array e n ih => simp only [Covered, AllLeaves] at *; exact ⟨ih h.1, ConstArg.unreached_of_concrete h.2⟩
  | function ps r ihp ih => simp only [Covered, AllLeaves] at *; exact ⟨fun e he => ihp e he (h.1 e he), ih h.2⟩
  | onceFunction ps r ihp ih => simp only [Covered, AllLeaves] at *; exact ⟨fun e he => ihp e he (h.1 e he), ih h.2⟩
  | shape dims =>
    simp only [Covered, AllLeaves] at *
    intro d hd
    have hleaf := h d hd
    cases d with
    | const c => exact ConstArg.unreached_of_concrete hleaf
    | splice n => exact (hleaf _ List.mem_cons_self).elim
    | _ => trivial
  | assocProjection p n args rs iha ihr =>
    simp only [Covered, AllLeaves] at *
    exact ⟨fun e he => iha e he (h.1 e he), fun e he => ihr e he (h.2 e he)⟩
  | slice e m ih => simp only [Covered, AllLeaves] at *; exact ih h
  | ref x ih => simp only [Covered, AllLeaves] at *; exact ih h
  | mutRef x ih => simp only [Covered, AllLeaves] at *; exact ih h
  | weak x ih => simp only [Covered, AllLeaves] at *; exact ih h
  | pointer m x ih => simp only [Covered, AllLeaves] at *; exact ih h
  | _ => simp only [Covered]

variable {subs : TypeArgs}

/-- At a place whose metavariables are not resolved, both walks agree just when neither changes anything. -/
theorem instantiate_eq_substitute_iff_unchanged (hconcrete : ∀ n u, subs.type n = some u → u.Concrete)
    (hvars : vars.Holds names) {t : Ty} (ht : t.NoMetavars) (hcov : t.Covered names) :
    instantiateTy vars t = substituteTypeParams subs t ↔ t.Unreached ∧ t.Fixed subs := by
  constructor
  · intro heq
    have hun : t.Unreached := unreached_of_noMetavars hvars t hcov (heq ▸ noMetavars_substitute hconcrete t ht)
    rw [instantiate_unreached t hun] at heq
    exact ⟨hun, (fixed_iff hconcrete t).mp heq.symm⟩
  · rintro ⟨hun, hfixed⟩
    rw [instantiate_unreached t hun, (fixed_iff hconcrete t).mpr hfixed]

end Reach

/-! The condition. -/

section

variable (subs : TypeArgs)

def DimArg.Agrees : DimArg → Prop
  | .const c => c ≠ .dynamicDim
  | .splice n => ∀ u, subs.type n = some u → ∃ inner, u = .shape inner ∧ ∀ d ∈ inner, d ≠ .const .dynamicDim
  | _ => True

/-- Where substitution goes and instantiation or resolution does not follow, nothing is to be done: in the base of a
refinement, and in the arguments and the receiver of a projection. A spliced parameter gets a shape, and no dim is
spelled as the constant `?`. -/
def Ty.Agrees : Ty → Prop
  | .typeParam n => ∀ u, subs.type n = some u → u.PlainDims
  | .tuple es => ∀ e ∈ es, e.Agrees
  | .array e _ => e.Agrees
  | .slice e _ => e.Agrees
  | .ref x => x.Agrees
  | .mutRef x => x.Agrees
  | .weak x => x.Agrees
  | .pointer _ x => x.Agrees
  | .named _ args => ∀ a ∈ args, a.Agrees
  | .shape dims => ∀ d ∈ dims, d.Agrees subs
  | .function ps r => (∀ p ∈ ps, p.Agrees) ∧ r.Agrees
  | .onceFunction ps r => (∀ p ∈ ps, p.Agrees) ∧ r.Agrees
  | .assocProjection p _ args rs => (∀ a ∈ args, a.Unreached ∧ a.Fixed subs) ∧
      ((∃ u, subs.type p = some u ∧ receiverHead u = (p, rs)) ∨
        subs.type p = none ∧ ∀ a ∈ rs, a.Unreached ∧ a.Fixed subs)
  | .refinement _ base => base.Fixed subs
  | _ => True

end

/-! What the metavariables stand for. -/

theorem metavarsList_eq_nil {ts : List Ty} (h : ∀ t ∈ ts, t.metavars = []) : metavarsList ts = [] := by
  induction ts with
  | nil => rfl
  | cons t ts ih =>
    rw [metavarsList, h t List.mem_cons_self, ih fun u hu => h u (List.mem_cons_of_mem t hu), List.append_nil]

theorem metavarsBindings_eq_nil {bs : List (String × Ty)} (h : ∀ b ∈ bs, b.2.metavars = []) :
    metavarsBindings bs = [] := by
  induction bs with
  | nil => rfl
  | cons b bs ih =>
    rw [metavarsBindings, h b List.mem_cons_self, ih fun c hc => h c (List.mem_cons_of_mem b hc), List.append_nil]

theorem metavars_of_noMetavars {t : Ty} (h : t.NoMetavars) : t.metavars = [] := by
  induction t using Ty.ind with
  | typeVar id => simp [Ty.AllLeaves, Leaf.IsParam] at h
  | tuple es ih => simp only [Ty.AllLeaves, Ty.metavars] at *; exact metavarsList_eq_nil fun e he => ih e he (h e he)
  | named n args ih =>
    simp only [Ty.AllLeaves, Ty.metavars] at *
    exact metavarsList_eq_nil fun e he => ih e he (h e he)
  | function ps r ihp ih =>
    simp only [Ty.AllLeaves, Ty.metavars] at *
    rw [metavarsList_eq_nil fun e he => ihp e he (h.1 e he), ih h.2, List.append_nil]
  | onceFunction ps r ihp ih =>
    simp only [Ty.AllLeaves, Ty.metavars] at *
    rw [metavarsList_eq_nil fun e he => ihp e he (h.1 e he), ih h.2, List.append_nil]
  | shape dims =>
    simp only [Ty.AllLeaves, Ty.metavars] at *
    refine List.flatMap_eq_nil_iff.mpr fun d hd => ?_
    cases d with
    | spliceVar id => exact (h _ hd _ List.mem_cons_self).elim
    | _ => rfl
  | assocProjection p n args rs iha ihr =>
    simp only [Ty.AllLeaves, Ty.metavars] at *
    rw [metavarsList_eq_nil fun e he => iha e he (h.1 e he), metavarsList_eq_nil fun e he => ihr e he (h.2 e he),
      List.append_nil]
  | existential n args bs o t iha ihb =>
    simp only [Ty.AllLeaves, Ty.metavars] at *
    rw [metavarsList_eq_nil fun e he => iha e he (h.1 e he), metavarsBindings_eq_nil fun e he => ihb e he (h.2 e he),
      List.append_nil]
  | array e n ih => simp only [Ty.AllLeaves, Ty.metavars] at *; exact ih h.1
  | vector e n ih => simp only [Ty.AllLeaves, Ty.metavars] at *; exact ih h.1
  | slice e m ih => simp only [Ty.AllLeaves, Ty.metavars] at *; exact ih h
  | rc x ih => simp only [Ty.AllLeaves, Ty.metavars] at *; exact ih h
  | arc x ih => simp only [Ty.AllLeaves, Ty.metavars] at *; exact ih h
  | ref x ih => simp only [Ty.AllLeaves, Ty.metavars] at *; exact ih h
  | mutRef x ih => simp only [Ty.AllLeaves, Ty.metavars] at *; exact ih h
  | weak x ih => simp only [Ty.AllLeaves, Ty.metavars] at *; exact ih h
  | pointer m x ih => simp only [Ty.AllLeaves, Ty.metavars] at *; exact ih h
  | refinement n x ih => simp only [Ty.AllLeaves, Ty.metavars] at *; exact ih h
  | _ => simp only [Ty.metavars]

section Solve

variable {vars : FreshVars} {names : ParamNames} {subs : TypeArgs} {θ : Solution}
  (hconcrete : ∀ n u, subs.type n = some u → u.Concrete)

include hconcrete in
/-- The arguments mention no metavariable, so nothing is to be followed. -/
theorem bindings_acyclic : (vars.bindings subs).Acyclic := by
  constructor
  · refine ⟨fun x => ⟨x, fun v hv => ?_⟩⟩
    obtain ⟨u, hu, hmem⟩ := hv
    obtain ⟨n, -, hn⟩ := Option.bind_eq_some_iff.mp hu
    have hnone := metavars_of_noMetavars ((hconcrete n u hn).mono fun _ => False.elim)
    simp [typeVarsOf, hnone] at hmem
  · refine ⟨fun x => ⟨x, fun v hv => ?_⟩⟩
    obtain ⟨c, hc, hmem⟩ := hv
    obtain ⟨n, -, hn⟩ := Option.bind_eq_some_iff.mp hc
    rcases literal_cases subs n with hnone | ⟨k, hk⟩
    · cases hnone.symm.trans hn
    · cases hk.symm.trans hn
      simp [constVarsOf, ConstArg.metavars] at hmem

variable (hθ : Resolves vars.names (vars.bindings subs) θ)
include hθ

theorem solution_ty {n : String} {id : ℕ} (hid : vars.idToName id = some n) :
    θ.ty id = (subs.type n).elim (.typeParam n) (Ty.apply θ) := by
  have hbound : (vars.bindings subs).types id = subs.type n := by simp [FreshVars.bindings, hid]
  cases hn : subs.type n with
  | none =>
    rw [hθ.unboundTy id (hbound.trans hn)]
    simp [FreshVars.names, hid]
  | some u => exact hθ.ty id u (hbound.trans hn)

theorem solution_splice {n : String} {id : ℕ} (hid : vars.idToName id = some n) :
    θ.splice id = (subs.type n).elim [.splice n] fun u => spliceDims id (u.apply θ) := by
  have hbound : (vars.bindings subs).types id = subs.type n := by simp [FreshVars.bindings, hid]
  cases hn : subs.type n with
  | none =>
    rw [hθ.unboundSplice id (hbound.trans hn)]
    simp [FreshVars.names, hid]
  | some u => exact hθ.splice id u (hbound.trans hn)

theorem solution_const {n : String} {id : ℕ} (hid : vars.constIdToName id = some n) :
    θ.const id = (subs.literal n).getD (.constParam n) := by
  have hbound : (vars.bindings subs).consts id = subs.literal n := by simp [FreshVars.bindings, hid]
  rcases literal_cases subs n with hn | ⟨k, hn⟩
  · rw [hθ.unboundConst id (hbound.trans hn), hn]
    simp [FreshVars.names, hid]
  · rw [hθ.const id _ (hbound.trans hn), hn]
    rfl

variable (hvars : vars.Holds names)
include hvars

theorem ConstArg.agrees {c : ConstArg} (hc : ∀ l ∈ c.leaves, l.IsParam) (hcov : c.Covered names) :
    (substituteConstParamToVar vars c).apply θ = substituteConstArg subs c := by
  cases c with
  | constParam n =>
    obtain ⟨id, hid, hname⟩ := hvars.const n hcov
    rw [substituteConstParamToVar, hid]
    exact solution_const hθ hname
  | constVar id => exact (hc _ List.mem_cons_self).elim
  | _ => rfl

omit hθ hvars in
theorem spliceDims_apply (id : ℕ) {u : Ty} (hshape : ∀ inner, u ≠ .shape inner) (hvar : ∀ v, u ≠ .typeVar v) :
    spliceDims id (u.apply θ) = [.spliceVar id] := by
  cases u with
  | shape inner => exact absurd rfl (hshape inner)
  | typeVar v => exact absurd rfl (hvar v)
  | _ => rfl

include hconcrete

theorem DimArg.agrees_iff {d : DimArg} (hd : ∀ l ∈ d.leaves, l.IsParam) (hcov : d.Covered names) :
    ((instantiateDim vars d).apply θ).length = (substituteDim subs d).length ∧
      ((instantiateDim vars d).apply θ = substituteDim subs d ↔ d.Agrees subs) := by
  cases d with
  | const c =>
    rw [instantiateDim, DimArg.apply, ConstArg.agrees hθ hvars hd hcov, substituteDim, Agrees]
    refine ⟨rfl, ?_⟩
    cases c with
    | constParam n => rcases literal_cases subs n with hn | ⟨k, hn⟩ <;> simp [substituteConstArg, hn, resolvedDim]
    | _ => simp [substituteConstArg, resolvedDim]
  | splice n =>
    obtain ⟨id, hid, hname⟩ := hvars.type n hcov
    rw [instantiateDim, hid, Option.elim_some, DimArg.apply, solution_splice hθ hname, Agrees]
    cases hn : subs.type n with
    | none => simp [substituteDim, hn]
    | some u =>
      by_cases hshape : ∃ inner, u = .shape inner
      · obtain ⟨inner, rfl⟩ := hshape
        have hinner := shape_dims_concrete hconcrete hn
        have hlen : (inner.flatMap (DimArg.apply θ)).length = inner.length := by
          rw [List.length_flatMap, List.map_congr_left fun d hd => (d.apply_concrete θ (hinner d hd)).1]
          simp
        rw [substituteDim, hn]
        refine ⟨hlen, (dims_apply_concrete θ hinner).trans ?_⟩
        simp
      · have hvar : ∀ v, u ≠ .typeVar v := by
          rintro v rfl
          have hu := hconcrete n _ hn
          simp only [Ty.AllLeaves] at hu
        have hne := not_exists.mp hshape
        rw [Option.elim_some, spliceDims_apply id hne hvar, substituteDim, hn]
        simp [hne]
  | spliceVar id => exact (hd _ List.mem_cons_self).elim
  | dynamic => simp [instantiateDim, apply, substituteDim, Agrees]

omit hθ hconcrete in
/-- A solved receiver that is found by a concrete type's head has to be written that way already. -/
theorem receiver_agrees_iff (p : String) {u : Ty} (hu : u.Concrete) {rs : List Ty} (hcov : ∀ a ∈ rs, a.Covered names) :
    p = (receiverHead u).1 ∧ instantiateAll vars rs = (receiverHead u).2 ↔ receiverHead u = (p, rs) := by
  have hsame : (∀ a ∈ rs, a.Unreached) → instantiateAll vars rs = rs := fun h => by
    rw [instantiateAll_eq_map, map_eq_self_iff]
    exact fun a ha => instantiate_unreached a (h a ha)
  have hhead : ∀ a ∈ (receiverHead u).2, a.Concrete := receiverHead_concrete hu
  constructor
  · rintro ⟨hname, hrecv⟩
    rw [← hrecv, instantiateAll_eq_map, List.forall_mem_map] at hhead
    have hun : ∀ a ∈ rs, a.Unreached := fun a ha =>
      unreached_of_noMetavars hvars a (hcov a ha) ((hhead a ha).mono fun _ => False.elim)
    exact Prod.ext hname.symm (hrecv.symm.trans (hsame hun))
  · intro heq
    rw [heq] at hhead ⊢
    exact ⟨rfl, hsame fun a ha => (hhead a ha).unreached⟩

theorem agrees_iff {t : Ty} (ht : t.NoMetavars) (hcov : t.Covered names) :
    (instantiateTy vars t).apply θ = substituteTypeParams subs t ↔ t.Agrees subs := by
  induction t using Ty.ind with
  | typeParam n =>
    obtain ⟨id, hid, hname⟩ := hvars.type n (by simpa only [Ty.Covered] using hcov)
    rw [instantiateTy, hid, Option.elim_some, Ty.apply, solution_ty hθ hname, substituteTypeParams, Ty.Agrees]
    cases hn : subs.type n with
    | none => simp
    | some u => simpa using u.apply_concrete θ (hconcrete n u hn)
  | tuple es ih =>
    simp only [instantiateTy, substituteTypeParams, Ty.apply, Ty.AllLeaves, Ty.Covered, Ty.Agrees, applyList_eq_map,
      instantiateAll_eq_map, substituteAll_eq_map, List.map_map, Ty.tuple.injEq, List.map_inj_left,
      Function.comp_apply] at *
    exact forall₂_congr fun e he => ih e he (ht e he) (hcov e he)
  | named n args ih =>
    simp only [instantiateTy, substituteTypeParams, Ty.apply, Ty.AllLeaves, Ty.Covered, Ty.Agrees, applyList_eq_map,
      instantiateAll_eq_map, substituteAll_eq_map, List.map_map, Ty.named.injEq, true_and, List.map_inj_left,
      Function.comp_apply] at *
    exact forall₂_congr fun e he => ih e he (ht e he) (hcov e he)
  | array e n ih =>
    simp only [instantiateTy, substituteTypeParams, Ty.apply, Ty.AllLeaves, Ty.Covered, Ty.Agrees, Ty.array.injEq] at *
    rw [ConstArg.agrees hθ hvars ht.2 hcov.2, eq_self, and_true]
    exact ih ht.1 hcov.1
  | function ps r ihp ih =>
    simp only [instantiateTy, substituteTypeParams, Ty.apply, Ty.AllLeaves, Ty.Covered, Ty.Agrees, applyList_eq_map,
      instantiateAll_eq_map, substituteAll_eq_map, List.map_map, Ty.function.injEq, List.map_inj_left,
      Function.comp_apply] at *
    exact and_congr (forall₂_congr fun e he => ihp e he (ht.1 e he) (hcov.1 e he)) (ih ht.2 hcov.2)
  | onceFunction ps r ihp ih =>
    simp only [instantiateTy, substituteTypeParams, Ty.apply, Ty.AllLeaves, Ty.Covered, Ty.Agrees, applyList_eq_map,
      instantiateAll_eq_map, substituteAll_eq_map, List.map_map, Ty.onceFunction.injEq, List.map_inj_left,
      Function.comp_apply] at *
    exact and_congr (forall₂_congr fun e he => ihp e he (ht.1 e he) (hcov.1 e he)) (ih ht.2 hcov.2)
  | shape dims =>
    simp only [instantiateTy, substituteTypeParams, Ty.apply, Ty.AllLeaves, Ty.Covered, Ty.Agrees, Ty.shape.injEq,
      List.flatMap_map] at *
    have hdims := fun d hd => DimArg.agrees_iff hconcrete hθ hvars (ht d hd) (hcov d hd)
    exact (flatMap_eq_iff fun d hd => (hdims d hd).1).trans (forall₂_congr fun d hd => (hdims d hd).2)
  | assocProjection p n args rs _ _ =>
    simp only [Ty.AllLeaves, Ty.Covered] at ht hcov
    have hargs : instantiateAll vars args = substituteAll subs args ↔ ∀ a ∈ args, a.Unreached ∧ a.Fixed subs := by
      rw [instantiateAll_eq_map, substituteAll_eq_map, List.map_inj_left]
      exact forall₂_congr fun a ha => instantiate_eq_substitute_iff_unchanged hconcrete hvars (ht.1 a ha) (hcov.1 a ha)
    have hrs : instantiateAll vars rs = substituteAll subs rs ↔ ∀ a ∈ rs, a.Unreached ∧ a.Fixed subs := by
      rw [instantiateAll_eq_map, substituteAll_eq_map, List.map_inj_left]
      exact forall₂_congr fun a ha => instantiate_eq_substitute_iff_unchanged hconcrete hvars (ht.2 a ha) (hcov.2 a ha)
    simp only [instantiateTy, substituteTypeParams, Ty.apply, Ty.Agrees]
    cases hp : subs.type p with
    | none => simp [hargs, hrs]
    | some u =>
      have hhead := receiver_agrees_iff hvars p (hconcrete p u hp) hcov.2
      simp only [Ty.assocProjection.injEq, true_and, hargs]
      constructor
      · rintro ⟨hname, ha, hr⟩
        exact ⟨ha, .inl ⟨u, rfl, hhead.mp ⟨hname, hr⟩⟩⟩
      · rintro ⟨ha, ⟨v, hv, heq⟩ | ⟨hnone, -⟩⟩
        · obtain rfl := Option.some.inj hv
          exact ⟨(hhead.mpr heq).1, ha, (hhead.mpr heq).2⟩
        · cases hnone
  | slice e m ih =>
    simp only [instantiateTy, substituteTypeParams, Ty.apply, Ty.AllLeaves, Ty.Covered, Ty.Agrees, Ty.slice.injEq,
      and_true] at *
    exact ih ht hcov
  | ref x ih =>
    simp only [instantiateTy, substituteTypeParams, Ty.apply, Ty.AllLeaves, Ty.Covered, Ty.Agrees, Ty.ref.injEq] at *
    exact ih ht hcov
  | mutRef x ih =>
    simp only [instantiateTy, substituteTypeParams, Ty.apply, Ty.AllLeaves, Ty.Covered, Ty.Agrees,
      Ty.mutRef.injEq] at *
    exact ih ht hcov
  | weak x ih =>
    simp only [instantiateTy, substituteTypeParams, Ty.apply, Ty.AllLeaves, Ty.Covered, Ty.Agrees, Ty.weak.injEq] at *
    exact ih ht hcov
  | pointer m x ih =>
    simp only [instantiateTy, substituteTypeParams, Ty.apply, Ty.AllLeaves, Ty.Covered, Ty.Agrees, Ty.pointer.injEq,
      true_and] at *
    exact ih ht hcov
  | refinement n x ih =>
    simp only [instantiateTy, substituteTypeParams, Ty.apply, Ty.Agrees, Ty.refinement.injEq, true_and]
    exact eq_comm.trans (fixed_iff hconcrete x)
  | typeVar id => simp [Ty.AllLeaves, Leaf.IsParam] at ht
  | _ => simp only [instantiateTy, substituteTypeParams, Ty.apply, Ty.Agrees]

end Solve

theorem FreshVars.of_holds (names : ParamNames) (nextTypeVar nextConstVar : ℕ) :
    (FreshVars.of names nextTypeVar nextConstVar).Holds names := by
  have hidx : ∀ (ns : List String) (n : String), n ∈ ns → ∃ i, ns.idxOf? n = some i ∧ ns[i]? = some n := by
    intro ns n hn
    obtain ⟨i, hi⟩ := Option.ne_none_iff_exists'.mp (mt List.idxOf?_eq_none_iff.mp (not_not.mpr hn))
    obtain ⟨hlt, hget, -⟩ := List.idxOf?_eq_some_iff.mp hi
    exact ⟨i, hi, List.getElem?_eq_some_iff.mpr ⟨hlt, hget⟩⟩
  constructor
  · intro n hn
    obtain ⟨i, hi, hget⟩ := hidx names.types n hn
    exact ⟨nextTypeVar + i, by simp [of, hi], by simp [of, hget]⟩
  · intro n hn
    obtain ⟨i, hi, hget⟩ := hidx names.consts n hn
    exact ⟨nextConstVar + i, by simp [of, hi], by simp [of, hget]⟩

/-! The signature. -/

/-- With enough fuel, resolution ends with `u`. -/
def ResolvesTo (names : MetavarNames) (s : Subst) (t u : Ty) : Prop :=
  ∃ k, ∀ n ≥ k, resolveTypeVars names n s t = some u

theorem resolvesTo_iff {names : MetavarNames} {s : Subst} {θ : Solution} (hθ : Resolves names s θ) (h : s.Acyclic)
    (t u : Ty) : ResolvesTo names s t u ↔ t.apply θ = u := by
  obtain ⟨k, hk⟩ := Filter.eventually_atTop.mp (resolveTypeVars_eq hθ h t)
  constructor
  · rintro ⟨k', hk'⟩
    exact Option.some.inj ((hk (max k k') (le_max_left k k')).symm.trans (hk' (max k k') (le_max_right k k')))
  · rintro rfl
    exact ⟨k, hk⟩

/-- Instantiating a signature, binding every metavariable to its argument and resolving gives what substitution gives,
without a metavariable. -/
structure InstantiationSubstitutes (paramTys : List Ty) (retTy : Ty) (sig : InstantiatedSignature) (subs : TypeArgs) :
    Prop where
  params : List.Forall₂ (ResolvesTo sig.vars.names (sig.vars.bindings subs)) sig.params (substituteAll subs paramTys)
  returnType : ResolvesTo sig.vars.names (sig.vars.bindings subs) sig.returnType (substituteTypeParams subs retTy)
  noMetavars : ∀ t ∈ substituteTypeParams subs retTy :: substituteAll subs paramTys, t.NoMetavars

/-- Both ways to put arguments for parameters come to the same just when every type of the signature agrees. -/
theorem instantiation_iff_agrees {paramTys : List Ty} {retTy : Ty} (nextTypeVar nextConstVar : ℕ) {subs : TypeArgs}
    (hsig : ∀ t ∈ retTy :: paramTys, t.NoMetavars) (hconcrete : ∀ n u, subs.type n = some u → u.Concrete) :
    InstantiationSubstitutes paramTys retTy
        (instantiateSignatureWithFreshVars paramTys retTy nextTypeVar nextConstVar) subs ↔
      ∀ t ∈ retTy :: paramTys, t.Agrees subs := by
  set names := collect retTy (collectParams paramTys ⟨[], []⟩) with hnames
  have hvars := FreshVars.of_holds names nextTypeVar nextConstVar
  set vars := FreshVars.of names nextTypeVar nextConstVar
  have hac : (vars.bindings subs).Acyclic := bindings_acyclic hconcrete
  obtain ⟨θ, hθ⟩ := exists_resolves vars.names hac
  have hparams := @collectParams_spec paramTys (fun t _ => collect_spec t) ⟨[], []⟩
  have hret := collect_spec retTy (collectParams paramTys ⟨[], []⟩)
  have hcov : ∀ t ∈ retTy :: paramTys, t.Covered names :=
    List.forall_mem_cons.mpr ⟨hret.2 names (le_refl names), hparams.2 names hret.1⟩
  have hiff : ∀ t ∈ retTy :: paramTys,
      (ResolvesTo vars.names (vars.bindings subs) (instantiateTy vars t) (substituteTypeParams subs t) ↔
        t.Agrees subs) := fun t ht =>
    (resolvesTo_iff hθ hac _ _).trans (agrees_iff hconcrete hθ hvars (hsig t ht) (hcov t ht))
  have hclosed : ∀ t ∈ substituteTypeParams subs retTy :: substituteAll subs paramTys, t.NoMetavars := by
    rw [substituteAll_eq_map, ← List.map_cons, List.forall_mem_map]
    exact fun t ht => noMetavars_substitute hconcrete t (hsig t ht)
  have hforall : List.Forall₂ (ResolvesTo vars.names (vars.bindings subs)) (instantiateAll vars paramTys)
      (substituteAll subs paramTys) ↔ ∀ t ∈ paramTys, t.Agrees subs := by
    rw [instantiateAll_eq_map, substituteAll_eq_map, List.forall₂_map_left_iff, List.forall₂_map_right_iff,
      List.forall₂_same]
    exact forall₂_congr fun t ht => hiff t (List.mem_cons_of_mem retTy ht)
  constructor
  · intro h
    exact List.forall_mem_cons.mpr ⟨(hiff retTy List.mem_cons_self).mp h.returnType, hforall.mp h.params⟩
  · intro h
    obtain ⟨hr, hp⟩ := List.forall_mem_cons.mp h
    exact ⟨hforall.mpr hp, (hiff retTy List.mem_cons_self).mpr hr, hclosed⟩

/-- The arguments of a call: `T` is `i64`, `F` is `Wrapper` and `N` is 4. -/
def callArgs : TypeArgs
  | "T" => some (.type (.int .i64))
  | "F" => some (.type (.named "Wrapper" []))
  | "N" => some (.const (.int (.int .i64) 4))
  | _ => none

theorem callArgs_concrete (n : String) (u : Ty) (h : callArgs.type n = some u) : u.Concrete := by
  unfold TypeArgs.type callArgs at h
  split at h
  · cases h
    simp only [Ty.AllLeaves]
  · cases h
    simp [Ty.AllLeaves]
  · cases h
  · cases h

/-- A refinement keeps the parameter in its base, and a projection keeps the metavariable of its argument. -/
theorem instantiation_not_substitution :
    (¬ InstantiationSubstitutes [.refinement "NonEmpty" (.named "Vec" [.typeParam "T"])] .unit
      (instantiateSignatureWithFreshVars [.refinement "NonEmpty" (.named "Vec" [.typeParam "T"])] .unit 0 0) callArgs) ∧
    ¬ InstantiationSubstitutes [] (.assocProjection "F" "Mapped" [.typeParam "T"] [])
      (instantiateSignatureWithFreshVars [] (.assocProjection "F" "Mapped" [.typeParam "T"] []) 0 0) callArgs := by
  constructor
  · intro h
    obtain ⟨k, hk⟩ := (List.forall₂_cons.mp h.params).1
    have heq : Ty.refinement "NonEmpty" (.named "Vec" [.typeParam "T"]) = .refinement "NonEmpty" (.named "Vec" [.int .i64]) :=
      Option.some.inj (hk (k + 1) (Nat.le_succ k))
    exact absurd heq (by decide)
  · intro h
    obtain ⟨k, hk⟩ := h.returnType
    have heq : Ty.assocProjection "F" "Mapped" [.typeVar 0] [] = .assocProjection "Wrapper" "Mapped" [.int .i64] [] :=
      Option.some.inj (hk (k + 1) (Nat.le_succ k))
    exact absurd heq (by decide)

/-- `fn pick[T, N](xs: Array[T, N], f: Fn(T) -> Vec[T]) -> T`. -/
theorem instantiation_iff_agrees_pick :
    InstantiationSubstitutes
        [.array (.typeParam "T") (.constParam "N"), .function [.typeParam "T"] (.named "Vec" [.typeParam "T"])]
        (.typeParam "T")
        (instantiateSignatureWithFreshVars
          [.array (.typeParam "T") (.constParam "N"), .function [.typeParam "T"] (.named "Vec" [.typeParam "T"])]
          (.typeParam "T") 0 0) callArgs ↔
      ∀ t ∈ [Ty.typeParam "T", .array (.typeParam "T") (.constParam "N"),
        .function [.typeParam "T"] (.named "Vec" [.typeParam "T"])], t.Agrees callArgs :=
  instantiation_iff_agrees 0 0 (by simp [Ty.AllLeaves, ConstArg.leaves, Leaf.IsParam]) callArgs_concrete

end Karac.Typechecker
