import Karac.Typechecker.Acceptance

/-! The corresponding positions of a slot and a source, and how acceptance passes from one to those below it. -/

namespace Karac.Typechecker

/-- Which of the two relations compares a pair. -/
inductive Check
  | subtype
  | compatible
  deriving DecidableEq

def Check.accepts (table : StdlibVariance) : Check → Ty → Ty → Bool
  | .subtype => isSubtype table
  | .compatible => typesCompatible table

/-- What a pair of components hangs from: a tuple, a result or a projection; a function's parameter; a `ref` slot or
a `*const`; a `mut ref` slot; an element of a buffer, an `Rc`, an `Arc` or a `*mut`; an argument of a named type; a
refinement whose base is looked at. Nothing hangs from an existential, which stands for one witness. -/
inductive Link
  | component
  | param
  | refTo
  | mutRefTo (check : Check)
  | element
  | arg (variance : Variance)
  | base
  deriving DecidableEq

/-- One step down from a slot and what flows into it. Below a function's parameter and a contravariant argument the
flow turns around: the component of the source becomes the slot. -/
inductive Below (table : StdlibVariance) : Check → Ty → Ty → Link → Check → Ty → Ty → Prop
  | tuple {c : Check} {xs ys : List Ty} {i : ℕ} {x y : Ty} : xs[i]? = some x → ys[i]? = some y →
      Below table c (.tuple xs) (.tuple ys) .component .compatible x y
  | projectionArg {c : Check} {p a p' a' : String} {xs rs ys rs' : List Ty} {i : ℕ} {x y : Ty} :
      xs[i]? = some x → ys[i]? = some y →
      Below table c (.assocProjection p a xs rs) (.assocProjection p' a' ys rs') .component .compatible x y
  | projectionReceiver {c : Check} {p a p' a' : String} {xs rs ys rs' : List Ty} {i : ℕ} {x y : Ty} :
      rs[i]? = some x → rs'[i]? = some y →
      Below table c (.assocProjection p a xs rs) (.assocProjection p' a' ys rs') .component .compatible x y
  | param {c : Check} {a b : Ty} {ps qs : List Ty} {r r' : Ty} {i : ℕ} {p q : Ty} : a.signature = some (ps, r) →
      b.signature = some (qs, r') → ps[i]? = some p → qs[i]? = some q → Below table c a b .param c q p
  | result {c : Check} {a b : Ty} {ps qs : List Ty} {r r' : Ty} : a.signature = some (ps, r) →
      b.signature = some (qs, r') → Below table c a b .component c r r'
  | arg {c : Check} {n : String} {xs ys : List Ty} {i : ℕ} {x y : Ty} : xs[i]? = some x → ys[i]? = some y →
      slotVariance table n i ≠ .contravariant →
      Below table c (.named n xs) (.named n ys) (.arg (slotVariance table n i)) .compatible x y
  | argReversed {c : Check} {n : String} {xs ys : List Ty} {i : ℕ} {x y : Ty} : xs[i]? = some x →
      ys[i]? = some y → slotVariance table n i = .contravariant →
      Below table c (.named n xs) (.named n ys) (.arg .contravariant) .compatible y x
  | array {c : Check} {x y : Ty} {n m : ConstArg} :
      Below table c (.array x n) (.array y m) .element .compatible x y
  | vector {c : Check} {x y : Ty} {n m : ConstArg} :
      Below table c (.vector x n) (.vector y m) .element .compatible x y
  | weak {c : Check} {x y : Ty} : Below table c (.weak x) (.weak y) .element .compatible x y
  | slice {c : Check} {x y b : Ty} {m : Bool} : b.buffer = some y →
      Below table c (.slice x m) b .element .compatible x y
  | sliceRef {c : Check} {x y b : Ty} {m : Bool} : b.buffer = some y →
      Below table c (.slice x m) (.ref b) .element .compatible x y
  | sliceMutRef {c : Check} {x y b : Ty} {m : Bool} : b.buffer = some y →
      Below table c (.slice x m) (.mutRef b) .element .compatible x y
  | rc {c : Check} {x y : Ty} : Below table c (.rc x) (.rc y) .element .compatible x y
  | arc {c : Check} {x y : Ty} : Below table c (.arc x) (.arc y) .element .compatible x y
  | mutPointer {c : Check} {x y : Ty} :
      Below table c (.pointer true x) (.pointer true y) .element .compatible x y
  | constPointer {c : Check} {x y : Ty} :
      Below table c (.pointer false x) (.pointer false y) .refTo .compatible x y
  | ref {c : Check} {x y : Ty} : Below table c (.ref x) (.ref y) .refTo c x y
  | refMutRef {x y : Ty} : Below table .subtype (.ref x) (.mutRef y) .refTo .subtype x y
  | refOwned {x y : Ty} : y.isBorrow = false → Below table .subtype (.ref x) y .refTo .subtype x y
  | mutRef {c : Check} {x y : Ty} : Below table c (.mutRef x) (.mutRef y) (.mutRefTo c) c x y
  | mutRefOwned {c : Check} {x y : Ty} : y.isBorrow = false → Below table c (.mutRef x) y (.mutRefTo c) c x y
  | widened {c : Check} {a b : Ty} {n : String} : a.isRefinement = false → a.isMutRef = false →
      (c = .subtype → a.isRef = false) →
      Below table c a (.refinement n b) .base .compatible a b.stripRefinement
  | refined {c : Check} {n m : String} {x y : Ty} :
      Below table c (.refinement n x) (.refinement m y) .base .compatible x y

namespace Link

/-- The component lives in storage that its holder only points to or lays out. -/
def stores : Link → Bool
  | .refTo => true
  | .mutRefTo _ => true
  | .element => true
  | .arg _ => true
  | _ => false

/-- The links `generic_arg_compatible` compares. -/
def guards : Link → Bool
  | .mutRefTo c => c = .compatible
  | .element => true
  | .arg _ => true
  | _ => false

def flips : Link → Bool
  | .param => true
  | .arg .contravariant => true
  | _ => false

def isInvariant : Link → Bool
  | .mutRefTo _ => true
  | .element => true
  | .arg .invariant => true
  | _ => false

end Link

section

variable {table : StdlibVariance} {c c' : Check} {a b x y : Ty} {l : Link}

theorem Ty.mem_components_of_signature {ps : List Ty} {r : Ty} (h : a.signature = some (ps, r)) :
    r ∈ a.components ∧ ∀ p ∈ ps, p ∈ a.components := by
  obtain rfl | rfl := function_of_signature h
  · simpa [Ty.components] using fun p hp => .inr hp
  · simpa [Ty.components] using fun p hp => .inr hp

theorem Ty.mem_components_of_buffer (h : b.buffer = some y) : y ∈ b.components := by
  match b, h with
  | .array _ _, h =>
    cases h
    simp [Ty.components]
  | .slice _ _, h =>
    cases h
    simp [Ty.components]
  | .named n [t], h =>
    have ht : n = "Vec" ∧ t = y := by simpa using h
    simp [Ty.components, ht.2]

/-- What holds everywhere in a pair holds everywhere in the pairs below it. -/
theorem Below.everywhere {p : Ty → Prop} (h : Below table c a b l c' x y) (ha : a.Everywhere p)
    (hb : b.Everywhere p) : x.Everywhere p ∧ y.Everywhere p := by
  cases h with
  | tuple hx hy => exact ⟨ha.component (List.mem_of_getElem? hx), hb.component (List.mem_of_getElem? hy)⟩
  | projectionArg hx hy =>
    exact ⟨ha.component (List.mem_append_left _ (List.mem_of_getElem? hx)),
      hb.component (List.mem_append_left _ (List.mem_of_getElem? hy))⟩
  | projectionReceiver hx hy =>
    exact ⟨ha.component (List.mem_append_right _ (List.mem_of_getElem? hx)),
      hb.component (List.mem_append_right _ (List.mem_of_getElem? hy))⟩
  | param hps hqs hp hq =>
    exact ⟨hb.component ((Ty.mem_components_of_signature hqs).2 _ (List.mem_of_getElem? hq)),
      ha.component ((Ty.mem_components_of_signature hps).2 _ (List.mem_of_getElem? hp))⟩
  | result hps hqs =>
    exact ⟨ha.component (Ty.mem_components_of_signature hps).1, hb.component (Ty.mem_components_of_signature hqs).1⟩
  | arg hx hy _ => exact ⟨ha.component (List.mem_of_getElem? hx), hb.component (List.mem_of_getElem? hy)⟩
  | argReversed hx hy _ => exact ⟨hb.component (List.mem_of_getElem? hy), ha.component (List.mem_of_getElem? hx)⟩
  | slice hy => exact ⟨ha.component (by simp [Ty.components]), hb.component (Ty.mem_components_of_buffer hy)⟩
  | sliceRef hy | sliceMutRef hy =>
    exact ⟨ha.component (by simp [Ty.components]),
      (hb.component (by simp [Ty.components])).component (Ty.mem_components_of_buffer hy)⟩
  | refOwned _ | mutRefOwned _ => exact ⟨ha.component (by simp [Ty.components]), hb⟩
  | widened _ _ _ => exact ⟨ha, (hb.component (by simp [Ty.components])).stripRefinement⟩
  | _ => exact ⟨ha.component (by simp [Ty.components]), hb.component (by simp [Ty.components])⟩

theorem layoutsDiffer_comm (a b : Ty) : layoutsDiffer a b = layoutsDiffer b a := by
  unfold layoutsDiffer
  cases numericLayoutKey a <;> cases numericLayoutKey b <;> simp [eq_comm]

theorem genericArgCompatible_layout {v : Variance} (h : genericArgCompatible table v a b = true) :
    layoutsDiffer a b = false := by
  rw [genericArgCompatible.eq_def] at h
  by_contra hd
  simp [hd] at h

theorem genericArgCompatible_invariant (h : genericArgCompatible table .invariant a b = true) :
    typesCompatible table a b = true ∧ typesCompatible table b a = true := by
  simpa [genericArgCompatible, genericArgCompatible_layout h] using h

/-- A pair accepted both ways. -/
def Check.acceptsBoth (table : StdlibVariance) (c : Check) (a b : Ty) : Prop :=
  c.accepts table a b = true ∧ c.accepts table b a = true

/-- What acceptance of a pair gives for a pair below it: acceptance, both ways under an invariant link, and one
layout under a link that compares layouts. -/
structure Passes (table : StdlibVariance) (l : Link) (c : Check) (x y : Ty) : Prop where
  accepts : c.accepts table x y = true
  both : l.isInvariant = true → c.acceptsBoth table x y
  layout : l.guards = true → layoutsDiffer x y = false

theorem Passes.of_accepts (hl : l.isInvariant = false) (hg : l.guards = false) (h : c.accepts table x y = true) :
    Passes table l c x y where
  accepts := h
  both := by simp [hl]
  layout := by simp [hg]

theorem Passes.of_invariant (h : genericArgCompatible table .invariant x y = true) :
    Passes table l .compatible x y where
  accepts := (genericArgCompatible_invariant h).1
  both _ := genericArgCompatible_invariant h
  layout _ := genericArgCompatible_layout h

theorem Passes.of_arg {v : Variance} (hv : v ≠ .contravariant) (h : genericArgCompatible table v x y = true) :
    Passes table (.arg v) .compatible x y := by
  have hl := genericArgCompatible_layout h
  match v with
  | .invariant => exact .of_invariant h
  | .covariant =>
    rw [genericArgCompatible] at h
    refine ⟨?_, ?_, ?_⟩
    · simpa [hl, Check.accepts] using h
    · simp [Link.isInvariant]
    · intro _
      exact hl
  | .contravariant => exact absurd rfl hv

theorem Passes.of_contravariant (h : genericArgCompatible table .contravariant x y = true) :
    Passes table (.arg .contravariant) .compatible y x := by
  have hl := genericArgCompatible_layout h
  rw [genericArgCompatible] at h
  refine ⟨?_, ?_, ?_⟩
  · simpa [hl, Check.accepts] using h
  · simp [Link.isInvariant]
  · intro _
    rw [layoutsDiffer_comm]
    exact hl

/-- Away from functions and borrows both checks are `types_compatible`. -/
theorem Check.accepts_compatible (hr : a.isBorrow = false) (hs : a.signature = none)
    (h : c.accepts table a b = true) : typesCompatible table a b = true := by
  match c with
  | .compatible => exact h
  | .subtype =>
    rw [← isSubtype_eq table b hr hs]
    exact h

/-- The step lemma: an accepted pair passes acceptance to every pair below it. -/
theorem Below.passes (h : Below table c a b l c' x y) (ha : a.isOpen = false) (hb : b.isOpen = false)
    (hacc : c.accepts table a b = true) : Passes table l c' x y := by
  cases h with
  | tuple hx hy =>
    have h := Check.accepts_compatible rfl rfl hacc
    rw [typesCompatible_tuple, allCompatible_iff] at h
    exact .of_accepts rfl rfl (forall₂_getElem? h hx hy)
  | projectionArg hx hy =>
    have h := typesCompatible_projection table (Check.accepts_compatible rfl rfl hacc)
    exact .of_accepts rfl rfl (forall₂_getElem? (allCompatible_iff.1 h.1) hx hy)
  | projectionReceiver hx hy =>
    have h := typesCompatible_projection table (Check.accepts_compatible rfl rfl hacc)
    exact .of_accepts rfl rfl (forall₂_getElem? (allCompatible_iff.1 h.2) hx hy)
  | param hps hqs hp hq =>
    match c with
    | .subtype =>
      have h := isSubtype_signature table hps hqs hacc
      exact .of_accepts rfl rfl (forall₂_getElem? (allSubtypes_iff.1 h.1) hq hp)
    | .compatible =>
      have h := typesCompatible_signature table hps hqs hacc
      exact .of_accepts rfl rfl (forall₂_getElem? (allCompatible_iff.1 h.1) hq hp)
  | result hps hqs =>
    match c with
    | .subtype => exact .of_accepts rfl rfl (isSubtype_signature table hps hqs hacc).2
    | .compatible => exact .of_accepts rfl rfl (typesCompatible_signature table hps hqs hacc).2
  | arg hx hy hv =>
    have h := Check.accepts_compatible rfl rfl hacc
    rw [typesCompatible_named] at h
    simp only [decide_true, Bool.true_and] at h
    have hxy := argsCompatible_get h hx hy
    rw [Nat.zero_add] at hxy
    exact .of_arg hv hxy
  | argReversed hx hy hv =>
    have h := Check.accepts_compatible rfl rfl hacc
    rw [typesCompatible_named] at h
    simp only [decide_true, Bool.true_and] at h
    have hxy := argsCompatible_get h hx hy
    rw [Nat.zero_add, hv] at hxy
    exact .of_contravariant hxy
  | array => exact .of_invariant (typesCompatible_array table (Check.accepts_compatible rfl rfl hacc))
  | vector =>
    have h := typesCompatible_vector table (Check.accepts_compatible rfl rfl hacc)
    exact .of_invariant (h ▸ genericArgCompatible_refl table .invariant x)
  | weak =>
    have h := typesCompatible_weak table (Check.accepts_compatible rfl rfl hacc)
    exact .of_invariant (h ▸ genericArgCompatible_refl table .invariant x)
  | slice hy => exact .of_invariant (typesCompatible_slice table hy (Check.accepts_compatible rfl rfl hacc))
  | sliceRef hy => exact .of_invariant (typesCompatible_slice_ref table hy (Check.accepts_compatible rfl rfl hacc))
  | sliceMutRef hy =>
    exact .of_invariant (typesCompatible_slice_mutRef table hy (Check.accepts_compatible rfl rfl hacc))
  | rc =>
    have h := Check.accepts_compatible rfl rfl hacc
    rw [typesCompatible_rc] at h
    exact .of_invariant h
  | arc =>
    have h := Check.accepts_compatible rfl rfl hacc
    rw [typesCompatible_arc] at h
    exact .of_invariant h
  | mutPointer =>
    have h := Check.accepts_compatible rfl rfl hacc
    rw [typesCompatible_mutPointer] at h
    exact .of_invariant h
  | constPointer =>
    have h := Check.accepts_compatible rfl rfl hacc
    rw [typesCompatible_constPointer] at h
    exact .of_accepts rfl rfl h
  | ref =>
    match c with
    | .subtype => exact .of_accepts rfl rfl (isSubtype_ref table hacc)
    | .compatible =>
      have h : typesCompatible table (.ref x) (.ref y) = true := hacc
      rw [typesCompatible_ref] at h
      exact .of_accepts rfl rfl h
  | refMutRef => exact .of_accepts rfl rfl (isSubtype_ref_mutRef table hacc)
  | refOwned hy => exact .of_accepts rfl rfl (isSubtype_ref_owned table hy hacc)
  | mutRef =>
    match c with
    | .subtype =>
      have h := isSubtype_mutRef table hacc
      exact ⟨h.1, fun _ => h, by simp [Link.guards]⟩
    | .compatible =>
      have h : typesCompatible table (.mutRef x) (.mutRef y) = true := hacc
      rw [typesCompatible_mutRef] at h
      exact .of_invariant h
  | mutRefOwned hy =>
    match c with
    | .subtype =>
      have h := isSubtype_mutRef_owned table hy hacc
      exact ⟨h.1, fun _ => h, by simp [Link.guards]⟩
    | .compatible => exact .of_invariant (typesCompatible_mutRef_owned table hb hy hacc)
  | @widened _ _ b n hr hm hc =>
    refine .of_accepts rfl rfl ?_
    show typesCompatible table a b.stripRefinement = true
    apply typesCompatible_widened table ha hr hm (n := n)
    match c with
    | .compatible => exact hacc
    | .subtype =>
      rw [← isSubtype_of_refinement]
      · exact hacc
      · have href := hc rfl
        cases a <;> simp_all
  | refined =>
    have h := typesCompatible_refinement table hb (Check.accepts_compatible rfl rfl hacc)
    cases h
    exact .of_accepts rfl rfl (typesCompatible_refl table x)

theorem genericArgCompatible_invariant_comm (a b : Ty) :
    genericArgCompatible table .invariant a b = genericArgCompatible table .invariant b a := by
  simp only [genericArgCompatible, layoutsDiffer_comm a b, Bool.and_comm]

/-- Only a read-only slice accepts a `ref` without being one: a view of the buffer behind it. -/
theorem typesCompatible_owned_of_ref (hy : y.isBorrow = false) (ho : y.isOpen = false)
    (h : typesCompatible table y (.ref x) = true) : ∃ e, y = .slice e false := by
  rw [typesCompatible.eq_def] at h
  cases y with
  | slice e m =>
    cases m with
    | false => exact ⟨e, rfl⟩
    | true => simp at h
  | ref t => simp at hy
  | mutRef t => simp at hy
  | typeParam n => simp [Ty.isOpen] at ho
  | never => simp [Ty.isOpen] at ho
  | error => simp [Ty.isOpen] at ho
  | _ => simp at h

theorem typesCompatible_slice_of_ref {e : Ty} (h : typesCompatible table (.slice e false) (.ref x) = true) :
    ∃ f, x.buffer = some f := by
  rw [typesCompatible.eq_def] at h
  match x, h with
  | .array t _, _ => exact ⟨t, rfl⟩
  | .slice t _, _ => exact ⟨t, rfl⟩
  | .named n [t], h =>
    have hn : n = "Vec" := by
      simp at h
      exact h.1
    exact ⟨t, by simp [hn]⟩

theorem isSubtype_owned_of_ref (hy : y.isBorrow = false) (ho : y.isOpen = false)
    (h : isSubtype table y (.ref x) = true) : ∃ e f, y = .slice e false ∧ x.buffer = some f := by
  have hc : typesCompatible table y (.ref x) = true := by
    rw [isSubtype.eq_def] at h
    cases y <;> simp_all
  obtain ⟨e, rfl⟩ := typesCompatible_owned_of_ref hy ho hc
  obtain ⟨f, hf⟩ := typesCompatible_slice_of_ref hc
  exact ⟨e, f, rfl, hf⟩

/-- The one borrow that is accepted both ways with what it borrows: a `ref` of a slice. -/
theorem isSubtype_of_refOwned (hy : y.isBorrow = false) (ho : y.isOpen = false)
    (h : isSubtype table (.ref x) y = true) (h' : isSubtype table y (.ref x) = true) :
    isSubtype table y x = true := by
  obtain ⟨e, f, rfl, hf⟩ := isSubtype_owned_of_ref hy ho h'
  have hx := isSubtype_ref_owned table hy h
  rw [isSubtype_eq table x rfl rfl]
  match x, hf with
  | .array t n, _ =>
    rw [isSubtype_eq table _ rfl rfl, typesCompatible.eq_def] at hx
    simp at hx
  | .slice t m, _ =>
    rw [isSubtype_eq table _ rfl rfl] at hx
    have ht := typesCompatible_slice table (y := e) rfl hx
    rw [genericArgCompatible_invariant_comm] at ht
    rw [typesCompatible.eq_def]
    simp [ht]
  | .named n [t], _ =>
    rw [isSubtype_eq table _ rfl rfl, typesCompatible.eq_def] at hx
    simp at hx

/-- A pair accepted both ways passes that to every pair below it. -/
theorem Below.passes_both (h : Below table c a b l c' x y) (ha : a.isOpen = false) (hb : b.isOpen = false)
    (hacc : c.acceptsBoth table a b) : c'.acceptsBoth table x y := by
  by_cases hl : l.isInvariant = true
  · exact (h.passes ha hb hacc.1).both hl
  refine ⟨(h.passes ha hb hacc.1).accepts, ?_⟩
  cases h with
  | tuple hx hy => exact ((Below.tuple hy hx).passes hb ha hacc.2).accepts
  | projectionArg hx hy => exact ((Below.projectionArg hy hx).passes hb ha hacc.2).accepts
  | projectionReceiver hx hy => exact ((Below.projectionReceiver hy hx).passes hb ha hacc.2).accepts
  | param hps hqs hp hq => exact ((Below.param hqs hps hq hp).passes hb ha hacc.2).accepts
  | result hps hqs => exact ((Below.result hqs hps).passes hb ha hacc.2).accepts
  | arg hx hy hv => exact ((Below.arg hy hx hv).passes hb ha hacc.2).accepts
  | argReversed hx hy hv => exact ((Below.argReversed hy hx hv).passes hb ha hacc.2).accepts
  | constPointer => exact (Below.constPointer.passes hb ha hacc.2).accepts
  | ref => exact (Below.ref.passes hb ha hacc.2).accepts
  | refMutRef =>
    have h := hacc.2
    simp [Check.accepts, isSubtype_mutRef_of_ref] at h
  | refOwned hy => exact isSubtype_of_refOwned hy hb hacc.1 hacc.2
  | widened hr _ _ =>
    have h := typesCompatible_refinement table ha (Check.accepts_compatible rfl rfl hacc.2)
    simp [h] at hr
  | refined =>
    have h := typesCompatible_refinement table hb (Check.accepts_compatible rfl rfl hacc.1)
    cases h
    exact typesCompatible_refl table x
  | _ => simp [Link.isInvariant] at hl

/-! ### Positions at any depth -/

/-- The links from the root down to a pair, the last one first, and the check that compares the pair. -/
inductive Path (table : StdlibVariance) (slot source : Ty) : List Link → Check → Ty → Ty → Prop
  | root : Path table slot source [] .subtype slot source
  | step {ls : List Link} {c c' : Check} {a b x y : Ty} {l : Link} : Path table slot source ls c a b →
      Below table c a b l c' x y → Path table slot source (l :: ls) c' x y

variable {slot source : Ty} {ls : List Link}

theorem Path.everywhere {p : Ty → Prop} (h : Path table slot source ls c x y) (hs : slot.Everywhere p)
    (ht : source.Everywhere p) : x.Everywhere p ∧ y.Everywhere p := by
  induction h with
  | root => exact ⟨hs, ht⟩
  | step _ hstep ih => exact hstep.everywhere ih.1 ih.2

/-- The run lemma: acceptance at the root is acceptance everywhere below it, both ways below an invariant link. -/
theorem Path.accepts (h : Path table slot source ls c x y) (hs : slot.Closed) (ht : source.Closed)
    (hacc : isSubtype table slot source = true) :
    c.accepts table x y = true ∧ ((∃ l ∈ ls, l.isInvariant = true) → c.acceptsBoth table x y) := by
  induction h with
  | root => exact ⟨hacc, by simp⟩
  | @step ls c c' a b x y l hpath hstep ih =>
    have hclosed := hpath.everywhere hs ht
    have hpass := hstep.passes hclosed.1.head hclosed.2.head ih.1
    refine ⟨hpass.accepts, ?_⟩
    rintro ⟨k, hk, hinv⟩
    rcases List.mem_cons.1 hk with rfl | hk
    · exact hpass.both hinv
    · exact hstep.passes_both hclosed.1.head hclosed.2.head (ih.2 ⟨k, hk, hinv⟩)

end

end Karac.Typechecker
