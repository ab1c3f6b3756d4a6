import Karac.Typechecker.Positions

/-! The type of an `if` or `match` from those of two arms: `join_branch_types`. -/

namespace Karac.Typechecker

section

variable (table : StdlibVariance) (projected : String → String → List Ty → List Ty → Ty)

mutual

/-- `resolve_assoc_projections`; `projected` is what the impl table makes of a projection. -/
def resolveAssocProjections : Ty → Ty
  | .assocProjection param assoc args receiverArgs =>
    projected param assoc (resolveAll args) (resolveAll receiverArgs)
  | .tuple elems => .tuple (resolveAll elems)
  | .array element size => .array (resolveAssocProjections element) size
  | .slice element mutable => .slice (resolveAssocProjections element) mutable
  | .ref inner => .ref (resolveAssocProjections inner)
  | .mutRef inner => .mutRef (resolveAssocProjections inner)
  | .weak inner => .weak (resolveAssocProjections inner)
  | .pointer isMut inner => .pointer isMut (resolveAssocProjections inner)
  | .named name args => .named name (resolveAll args)
  | .function params ret => .function (resolveAll params) (resolveAssocProjections ret)
  | .onceFunction params ret => .onceFunction (resolveAll params) (resolveAssocProjections ret)
  | t => t

def resolveAll : List Ty → List Ty
  | [] => []
  | t :: ts => resolveAssocProjections t :: resolveAll ts

end

def projectionUnresolvableWith (a b : Ty) : Bool := a.isProjection != b.isProjection

def typesCompatibleWithProjections (a b : Ty) : Bool :=
  let a := resolveAssocProjections projected a
  let b := resolveAssocProjections projected b
  projectionUnresolvableWith a b || typesCompatible table a b

mutual

def sameShapeModuloTypevars : Ty → Ty → Bool
  | .typeVar _, _ => true
  | _, .typeVar _ => true
  | .named na aa, .named nb ab => na = nb && sameShapes aa ab
  | .tuple ea, .tuple eb => sameShapes ea eb
  | .ref ia, .ref ib => sameShapeModuloTypevars ia ib
  | .mutRef ia, .mutRef ib => sameShapeModuloTypevars ia ib
  | a, b => a = b

/-- Lists of one length, of the same shape one by one. -/
def sameShapes : List Ty → List Ty → Bool
  | [], [] => true
  | a :: as, b :: bs => sameShapeModuloTypevars a b && sameShapes as bs
  | _, _ => false

end

mutual

def mergeBranchTypes : Ty → Ty → Ty
  | .typeParam _, other => other
  | .typeVar _, other => other
  | .error, other => other
  | other, .typeParam _ => other
  | other, .typeVar _ => other
  | other, .error => other
  | .named na aa, .named nb ab =>
    if na = nb ∧ aa.length = ab.length then .named na (mergeAll aa ab) else .named na aa
  | .tuple ea, .tuple eb => if ea.length = eb.length then .tuple (mergeAll ea eb) else .tuple ea
  | .ref ia, .ref ib => .ref (mergeBranchTypes ia ib)
  | .mutRef ia, .mutRef ib => .mutRef (mergeBranchTypes ia ib)
  | a, _ => a

def mergeAll : List Ty → List Ty → List Ty
  | a :: as, b :: bs => mergeBranchTypes a b :: mergeAll as bs
  | _, _ => []

end

def joinBranchTypes (a b : Ty) : Option Ty :=
  if a = b then some a
  else if a.isRefinement || b.isRefinement then
    let aBase := a.stripRefinement
    let bBase := b.stripRefinement
    if aBase = bBase || typesCompatibleWithProjections table projected aBase bBase ||
        typesCompatibleWithProjections table projected bBase aBase then some aBase
    else none
  else if typesCompatibleWithProjections table projected a b then some (mergeBranchTypes a b)
  else if sameShapeModuloTypevars a b then some (mergeBranchTypes a b)
  else none

end

/-! Known types: nothing is left to resolve, to solve or to merge. -/

/-- Neither open nor a projection nor an existential. -/
def Ty.isKnown (t : Ty) : Bool := !t.isOpen && !t.isProjection && !t.isExistential

abbrev Ty.Known : Ty → Prop := Ty.Everywhere fun t => t.isKnown = true

theorem Ty.isKnown.not_isOpen {t : Ty} (h : t.isKnown = true) : t.isOpen = false := by
  simp only [Ty.isKnown, Bool.and_eq_true, Bool.not_eq_true'] at h
  exact h.1.1

theorem Ty.Known.closed {t : Ty} (h : t.Known) : t.Closed := h.mono fun _ => Ty.isKnown.not_isOpen

section

variable {table : StdlibVariance} {projected : String → String → List Ty → List Ty → Ty} {a b t : Ty}

theorem Ty.stripRefinement_eq {t : Ty} (h : t.isRefinement = false) : t.stripRefinement = t := by
  cases t with
  | refinement n b => cases h
  | _ => rfl

theorem Ty.isRefinement_strip (t : Ty) : t.stripRefinement.isRefinement = false := by
  fun_induction Ty.stripRefinement t with
  | case1 name base ih => exact ih
  | case2 t ht =>
    cases t with
    | refinement n b => exact absurd rfl (ht n b)
    | _ => rfl

theorem resolveAll_eq_map (ts : List Ty) : resolveAll projected ts = ts.map (resolveAssocProjections projected) := by
  induction ts with
  | nil => rfl
  | cons t ts ih => rw [resolveAll, ih, List.map_cons]

theorem resolve_known (t : Ty) (h : t.Known) : resolveAssocProjections projected t = t := by
  induction t using Ty.ind with
  | tuple es ih =>
    rw [resolveAssocProjections, resolveAll_eq_map, List.map_congr_left fun e he => ih e he (h.component he), List.map_id']
  | named n args ih =>
    rw [resolveAssocProjections, resolveAll_eq_map, List.map_congr_left fun e he => ih e he (h.component he), List.map_id']
  | function ps r ihp ihr | onceFunction ps r ihp ihr =>
    rw [resolveAssocProjections, resolveAll_eq_map,
      List.map_congr_left fun e he => ihp e he (h.component (List.mem_cons_of_mem r he)), List.map_id',
      ihr (h.component List.mem_cons_self)]
  | array e n ih | slice e m ih | ref x ih | mutRef x ih | weak x ih | pointer m x ih =>
    rw [resolveAssocProjections, ih (h.component List.mem_cons_self)]
  | assocProjection p n args rs => cases h.head
  | _ => rfl

theorem typesCompatibleWithProjections_known (ha : a.Known) (hb : b.Known) :
    typesCompatibleWithProjections table projected a b = typesCompatible table a b := by
  have hpa := ha.head
  have hpb := hb.head
  simp only [Ty.isKnown, Bool.and_eq_true, Bool.not_eq_true'] at hpa hpb
  rw [typesCompatibleWithProjections, resolve_known a ha, resolve_known b hb, projectionUnresolvableWith, hpa.1.2,
    hpb.1.2]
  rfl

theorem sameShapes_known {as bs : List Ty} (h : ∀ a ∈ as, ∀ b, b.Known → sameShapeModuloTypevars a b = true → a = b)
    (hb : ∀ b ∈ bs, b.Known) (hs : sameShapes as bs = true) : as = bs := by
  induction as generalizing bs with
  | nil =>
    cases bs with
    | nil => rfl
    | cons b bs => cases hs
  | cons a as ih =>
    cases bs with
    | nil => cases hs
    | cons b bs =>
      simp only [sameShapes, Bool.and_eq_true] at hs
      obtain rfl := h a List.mem_cons_self b (hb b List.mem_cons_self) hs.1
      rw [ih (fun x hx => h x (List.mem_cons_of_mem a hx)) (fun x hx => hb x (List.mem_cons_of_mem a hx)) hs.2]

theorem sameShape_known (a : Ty) (ha : a.Known) {b : Ty} (hb : b.Known) (h : sameShapeModuloTypevars a b = true) :
    a = b := by
  induction a using Ty.ind generalizing b with
  | typeVar id => cases ha.head
  | named n args ih =>
    cases b with
    | named m args' =>
      simp only [sameShapeModuloTypevars, Bool.and_eq_true, decide_eq_true_eq] at h
      have hargs : ∀ x ∈ args', x.Known := fun x hx => hb.component hx
      rw [h.1, sameShapes_known (fun x hx y hy => ih x hx (ha.component hx) hy) hargs h.2]
    | typeVar id => cases hb.head
    | _ => simp [sameShapeModuloTypevars] at h
  | tuple es ih =>
    cases b with
    | tuple es' =>
      simp only [sameShapeModuloTypevars] at h
      have helems : ∀ x ∈ es', x.Known := fun x hx => hb.component hx
      rw [sameShapes_known (fun x hx y hy => ih x hx (ha.component hx) hy) helems h]
    | typeVar id => cases hb.head
    | _ => simp [sameShapeModuloTypevars] at h
  | ref x ih =>
    cases b with
    | ref y =>
      rw [sameShapeModuloTypevars] at h
      rw [ih (ha.component List.mem_cons_self) (hb.component List.mem_cons_self) h]
    | typeVar id => cases hb.head
    | _ => simp [sameShapeModuloTypevars] at h
  | mutRef x ih =>
    cases b with
    | mutRef y =>
      rw [sameShapeModuloTypevars] at h
      rw [ih (ha.component List.mem_cons_self) (hb.component List.mem_cons_self) h]
    | typeVar id => cases hb.head
    | _ => simp [sameShapeModuloTypevars] at h
  | _ =>
    cases b with
    | typeVar id => cases hb.head
    | _ => exact of_decide_eq_true h

theorem mergeAll_known {as bs : List Ty} (h : ∀ a ∈ as, ∀ b, b.Known → mergeBranchTypes a b = a)
    (hb : ∀ b ∈ bs, b.Known) (hlen : as.length = bs.length) : mergeAll as bs = as := by
  induction as generalizing bs with
  | nil => rfl
  | cons a as ih =>
    cases bs with
    | nil => cases hlen
    | cons b bs =>
      rw [mergeAll, h a List.mem_cons_self b (hb b List.mem_cons_self),
        ih (fun x hx => h x (List.mem_cons_of_mem a hx)) (fun x hx => hb x (List.mem_cons_of_mem b hx)) (Nat.succ.inj hlen)]

theorem merge_known (a : Ty) (ha : a.Known) {b : Ty} (hb : b.Known) : mergeBranchTypes a b = a := by
  induction a using Ty.ind generalizing b with
  | typeVar id | typeParam id => cases ha.head
  | error => cases ha.head
  | named n args ih =>
    cases b with
    | named m args' =>
      rw [mergeBranchTypes]
      split
      · next hsame =>
        have hargs : ∀ x ∈ args', x.Known := fun x hx => hb.component hx
        rw [mergeAll_known (fun x hx y hy => ih x hx (ha.component hx) hy) hargs hsame.2]
      · rfl
    | typeVar id | typeParam id => cases hb.head
    | error => cases hb.head
    | _ => rfl
  | tuple es ih =>
    cases b with
    | tuple es' =>
      rw [mergeBranchTypes]
      split
      · next hsame =>
        have helems : ∀ x ∈ es', x.Known := fun x hx => hb.component hx
        rw [mergeAll_known (fun x hx y hy => ih x hx (ha.component hx) hy) helems hsame]
      · rfl
    | typeVar id | typeParam id => cases hb.head
    | error => cases hb.head
    | _ => rfl
  | ref x ih =>
    cases b with
    | ref y => rw [mergeBranchTypes, ih (ha.component List.mem_cons_self) (hb.component List.mem_cons_self)]
    | typeVar id | typeParam id => cases hb.head
    | error => cases hb.head
    | _ => rfl
  | mutRef x ih =>
    cases b with
    | mutRef y => rw [mergeBranchTypes, ih (ha.component List.mem_cons_self) (hb.component List.mem_cons_self)]
    | typeVar id | typeParam id => cases hb.head
    | error => cases hb.head
    | _ => rfl
  | _ =>
    cases b with
    | typeVar id | typeParam id => cases hb.head
    | error => cases hb.head
    | _ => rfl

/-- What the join of two known types is, and why it is there: the first arm without its refinements, one of the two
bases being assignable to the other. -/
theorem join_known (ha : a.Known) (hb : b.Known) (h : joinBranchTypes table projected a b = some t) :
    a = b ∧ t = a ∨ t = a.stripRefinement ∧ (typesCompatible table a.stripRefinement b.stripRefinement = true ∨
      typesCompatible table b.stripRefinement a.stripRefinement = true) := by
  have hab : typesCompatibleWithProjections table projected a.stripRefinement b.stripRefinement =
      typesCompatible table a.stripRefinement b.stripRefinement :=
    typesCompatibleWithProjections_known ha.stripRefinement hb.stripRefinement
  have hba : typesCompatibleWithProjections table projected b.stripRefinement a.stripRefinement =
      typesCompatible table b.stripRefinement a.stripRefinement :=
    typesCompatibleWithProjections_known hb.stripRefinement ha.stripRefinement
  rw [joinBranchTypes] at h
  split at h
  · next heq => exact .inl ⟨heq, by simpa using h.symm⟩
  split at h
  · refine .inr ?_
    simp only [hab, hba, Option.ite_none_right_eq_some, Bool.or_eq_true, decide_eq_true_eq, Option.some.injEq] at h
    obtain ⟨(heq | hfit) | hfit, rfl⟩ := h
    · exact ⟨rfl, .inl (by rw [heq, typesCompatible_refl])⟩
    · exact ⟨rfl, .inl hfit⟩
    · exact ⟨rfl, .inr hfit⟩
  next hne hunrefined =>
  have hor := Bool.or_eq_false_iff.1 (Bool.eq_false_iff.2 hunrefined)
  have hstripA : a.stripRefinement = a := Ty.stripRefinement_eq hor.1
  have hstripB : b.stripRefinement = b := Ty.stripRefinement_eq hor.2
  rw [hstripA, hstripB] at hab ⊢
  rw [hab, merge_known a ha hb] at h
  split at h
  · next hfit => exact .inr ⟨by simpa using h.symm, .inl hfit⟩
  · simp only [Option.ite_none_right_eq_some] at h
    exact absurd (sameShape_known a ha hb h.1) hne

end

end Karac.Typechecker
