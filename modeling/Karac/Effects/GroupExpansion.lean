import Karac.Effects.LeastFixpoint
import Karac.Lib.Circles

/-! Expansion of the effect groups: one walk fills the table, reuses what is in it and reports circles.
The groups enter by their declarations, in the order of the program. -/

namespace Karac.Effects

open Concurrency (EffectVerbKind channelResourceCanonical)

structure Resource where
  path : List String

structure EffectVerb where
  kind : EffectVerbKind
  resources : List Resource
  span : Span

inductive EffectGroupTerm
  | verb (verb : EffectVerb)
  | groupRef (name : String)

structure EffectGroupDecl where
  span : Span
  name : String
  body : List EffectGroupTerm

inductive GroupErrorKind
  | circularEffectGroup
  | undefinedEffectGroup
  deriving DecidableEq, Repr

structure GroupError where
  message : String
  span : Span
  kind : GroupErrorKind
  deriving DecidableEq, Repr

/-- What expansion reads of the program. -/
structure GroupProgram where
  effectGroups : List EffectGroupDecl
  effectResources : List String
  channelParamNames : List String

/-- The table, the reports, and the groups the walk has come to. -/
structure Expansion where
  expandedGroups : String → Option EffectSet
  errors : List GroupError
  visited : Finset String

namespace Expansion

def start : Expansion := ⟨fun _ => none, [], ∅⟩

def insert (st : Expansion) (name : String) (set : EffectSet) : Expansion :=
  { st with expandedGroups := Function.update st.expandedGroups name (some set) }

def push (st : Expansion) (error : GroupError) : Expansion := { st with errors := st.errors ++ [error] }

def visit (st : Expansion) (name : String) : Expansion := { st with visited := Insert.insert name st.visited }

def afresh (st : Expansion) : Expansion := { st with visited := ∅ }

end Expansion

def EffectSet.addAll (result sub : EffectSet) : EffectSet :=
  sub.effects.foldl (fun set traced => set.add traced.effect traced.origin) result

section

variable (prog : GroupProgram)

/-- A declaration of a name replaces those before it. -/
def groupDecls (name : String) : Option EffectGroupDecl := prog.effectGroups.reverse.find? fun g => g.name = name

def canonicalResourceName (path : List String) : String :=
  let joined := ".".intercalate path
  if path.length ≠ 1 then joined
  else if !(joined ∈ prog.effectResources) && joined ∈ prog.channelParamNames then channelResourceCanonical
  else joined

/-- The effects a clause of a group writes: a verb without resources stands for itself. -/
def EffectVerb.effects (verb : EffectVerb) : List Effect :=
  if verb.resources.isEmpty then [⟨verb.kind, ""⟩]
  else verb.resources.map fun resource => ⟨verb.kind, canonicalResourceName prog resource.path⟩

def addVerb (verb : EffectVerb) (result : EffectSet) : EffectSet :=
  (verb.effects prog).foldl (fun set effect => set.add effect (.direct verb.span)) result

def circularError (decl : EffectGroupDecl) (name : String) : GroupError where
  message := "circular effect group reference: '" ++ name ++ "'"
  span := decl.span
  kind := .circularEffectGroup

def undefinedError (decl : EffectGroupDecl) (refName name : String) : GroupError where
  message := "undefined effect group: '" ++ refName ++ "' referenced by group '" ++ name ++ "'"
  span := decl.span
  kind := .undefinedEffectGroup

/-- The clauses of a group: a reference is expanded first and then read off the table. -/
def expandTerms (expand : String → Expansion → Option Expansion) (decl : EffectGroupDecl) (name : String) :
    List EffectGroupTerm → Expansion → EffectSet → Option (Expansion × EffectSet)
  | [], st, result => some (st, result)
  | .verb verb :: terms, st, result => expandTerms expand decl name terms st (addVerb prog verb result)
  | .groupRef refName :: terms, st, result =>
    if (groupDecls prog refName).isNone then
      expandTerms expand decl name terms (st.push (undefinedError decl refName name)) result
    else (expand refName st).bind fun st' =>
      expandTerms expand decl name terms st' <| match st'.expandedGroups refName with
        | some subGroup => result.addAll subGroup
        | none => result

def expandGroup : ℕ → String → Expansion → Option Expansion
  | 0, _, _ => none
  | depth + 1, name, st =>
    if (st.expandedGroups name).isSome then some st
    else if name ∈ st.visited then
      some <| (match groupDecls prog name with
        | some decl => st.push (circularError decl name)
        | none => st).insert name {}
    else match groupDecls prog name with
      | some decl => (expandTerms prog (expandGroup depth) decl name decl.body (st.visit name) {}).map fun r =>
          r.1.insert name r.2
      | none => some ((st.visit name).insert name {})

/-- The groups in the order of `names`, the set of visited groups fresh for each. -/
def expandGroups (depth : ℕ) : List String → Expansion → Option Expansion
  | [], st => some st
  | name :: names, st =>
    if (st.expandedGroups name).isSome then expandGroups depth names st
    else (expandGroup prog depth name st.afresh).bind fun st' => expandGroups depth names st'

/-- The names of the declared groups. -/
def groupNames : Finset String := (prog.effectGroups.map EffectGroupDecl.name).toFinset

/-- The keys of the declarations come in the order of a hash table. -/
def expandEffectGroups (names : List String) : Option Expansion :=
  expandGroups prog ((groupNames prog).card + 1) names .start

end

end Karac.Effects

/-! Expansion of the groups is exact. What the walk has visited but not entered in the table leads to
where it is, so a circle is reported only where there is one; a group that leads to no circle gets
the effects written in the groups it leads to, in whatever order the walk comes to them. -/

namespace Karac.Effects

open Lib.Circles

section

variable (prog : GroupProgram)

def Refers (name refName : String) : Prop :=
  (groupDecls prog refName).isSome = true ∧
    ∃ decl, groupDecls prog name = some decl ∧ .groupRef refName ∈ decl.body

/-- The effects written in the declaration of a group. -/
def written (name : String) : Set Effect :=
  {e | ∃ decl verb, groupDecls prog name = some decl ∧ .verb verb ∈ decl.body ∧ e ∈ verb.effects prog}

/-- The effects written in the groups that a group leads to. -/
def expansion (name : String) : Set Effect :=
  {e | ∃ refName, Relation.ReflTransGen (Refers prog) name refName ∧ e ∈ written prog refName}

def Exact (st : Expansion) : Prop :=
  ∀ name set, Founded (Refers prog) name → st.expandedGroups name = some set → memSet set = expansion prog name

end

def Circular (st : Expansion) : Prop := ∃ error ∈ st.errors, error.kind = .circularEffectGroup

/-- What the walk keeps and adds. -/
structure Walked (prog : GroupProgram) (st st' : Expansion) : Prop where
  exact : Exact prog st'
  kept : ∀ name, (st.expandedGroups name).isSome = true → (st'.expandedGroups name).isSome = true
  open_groups : ∀ name ∈ st'.visited, st'.expandedGroups name = none → name ∈ st.visited ∧ st.expandedGroups name = none
  visited : st.visited ⊆ st'.visited
  errors : st.errors ⊆ st'.errors
  circle : Circular st' → Circular st ∨ ∃ name, Relation.TransGen (Refers prog) name name
  founded : ¬Circular st' → (∀ name, (st.expandedGroups name).isSome = true → Founded (Refers prog) name) →
    ∀ name, (st'.expandedGroups name).isSome = true → Founded (Refers prog) name

variable {prog : GroupProgram}

/-! Sets of effects. -/

theorem memSet_empty : memSet {} = ∅ := by simp [memSet, EffectSet.contains]

theorem memSet_add (set : EffectSet) (e : Effect) (origin : EffectOrigin) : memSet (set.add e origin) = memSet set ∪ {e} := by
  ext e'
  exact contains_add

theorem memSet_addAll (result sub : EffectSet) : memSet (result.addAll sub) = memSet result ∪ memSet sub := by
  have hfold : ∀ (l : List TracedEffect) (r : EffectSet),
      memSet (l.foldl (fun set traced => set.add traced.effect traced.origin) r) =
        memSet r ∪ {e | e ∈ l.map TracedEffect.effect} := by
    intro l
    induction l with
    | nil => intro r; simp
    | cons t l ih =>
      intro r
      rw [List.foldl_cons, ih, memSet_add, Set.union_assoc]
      congr 1
      ext e
      simp
  unfold EffectSet.addAll
  rw [hfold]
  congr 1
  ext e
  exact contains_iff.symm

theorem memSet_addVerb (verb : EffectVerb) (result : EffectSet) :
    memSet (addVerb prog verb result) = memSet result ∪ {e | e ∈ verb.effects prog} := by
  unfold addVerb
  generalize verb.effects prog = l
  induction l generalizing result with
  | nil => simp
  | cons e l ih =>
    rw [List.foldl_cons, ih, memSet_add, Set.union_assoc]
    congr 1
    ext e'
    simp

/-! References. -/

theorem mem_expansion_of_refers {name refName : String} (h : Refers prog name refName) :
    expansion prog refName ⊆ expansion prog name :=
  fun _ ⟨last, hpath, he⟩ => ⟨last, hpath.head h, he⟩

/-- A group expands to what it writes and what its references expand to. -/
theorem expansion_eq (name : String) :
    expansion prog name = written prog name ∪ {e | ∃ refName, Refers prog name refName ∧ e ∈ expansion prog refName} := by
  ext e
  constructor
  · rintro ⟨last, hpath, he⟩
    rcases hpath.cases_head with rfl | ⟨refName, href, hrest⟩
    · exact Or.inl he
    · exact Or.inr ⟨refName, href, last, hrest, he⟩
  · rintro (he | ⟨refName, href, he⟩)
    · exact ⟨name, Relation.ReflTransGen.refl, he⟩
    · exact mem_expansion_of_refers href he

theorem groupDecls_isSome {name : String} : (groupDecls prog name).isSome = true ↔ name ∈ groupNames prog := by
  unfold groupDecls groupNames
  rw [List.find?_isSome, List.mem_toFinset, List.mem_map]
  simp [eq_comm]

/-! The table. -/

theorem insert_self (st : Expansion) (name : String) (set : EffectSet) :
    (st.insert name set).expandedGroups name = some set :=
  Function.update_self ..

theorem insert_self_isSome (st : Expansion) (name : String) (set : EffectSet) :
    ((st.insert name set).expandedGroups name).isSome = true := by
  rw [insert_self, Option.isSome_some]

theorem insert_of_ne (st : Expansion) {g name : String} (set : EffectSet) (hg : g ≠ name) :
    (st.insert name set).expandedGroups g = st.expandedGroups g :=
  Function.update_of_ne hg ..

theorem insert_kept {st : Expansion} (name : String) (set : EffectSet) {g : String}
    (hg : (st.expandedGroups g).isSome = true) : ((st.insert name set).expandedGroups g).isSome = true := by
  by_cases hgn : g = name
  · rw [hgn, insert_self]
    rfl
  · rw [insert_of_ne st set hgn]
    exact hg

theorem of_insert_none {st : Expansion} {name g : String} {set : EffectSet}
    (h : (st.insert name set).expandedGroups g = none) : g ≠ name ∧ st.expandedGroups g = none := by
  by_cases hgn : g = name
  · rw [hgn, insert_self] at h
    exact absurd h (by simp)
  · rw [insert_of_ne st set hgn] at h
    exact ⟨hgn, h⟩

/-! The walk. -/

theorem Walked.refl {st : Expansion} (h : Exact prog st) : Walked prog st st where
  exact := h
  kept _ h := h
  open_groups _ h h' := ⟨h, h'⟩
  visited := subset_rfl
  errors := List.Subset.refl _
  circle := Or.inl
  founded _ h := h

theorem Walked.trans {st st' st'' : Expansion} (h : Walked prog st st') (h' : Walked prog st' st'') : Walked prog st st'' where
  exact := h'.exact
  kept name hn := h'.kept name (h.kept name hn)
  open_groups name hn hnone := by
    obtain ⟨hmid, hmid'⟩ := h'.open_groups name hn hnone
    exact h.open_groups name hmid hmid'
  visited _ hn := h'.visited (h.visited hn)
  errors := List.Subset.trans h.errors h'.errors
  circle hc := (h'.circle hc).elim h.circle Or.inr
  founded hno hall := by
    refine h'.founded hno (h.founded (fun ⟨error, hmem, hkind⟩ => hno ⟨error, h'.errors hmem, hkind⟩) hall)

/-- A report that is not of a circle. -/
theorem Walked.push {st : Expansion} (h : Exact prog st) (error : GroupError) (hkind : error.kind ≠ .circularEffectGroup) :
    Walked prog st (st.push error) where
  exact := h
  kept _ h := h
  open_groups _ h h' := ⟨h, h'⟩
  visited := subset_rfl
  errors := List.subset_append_left _ _
  circle := by
    rintro ⟨e, he, hcirc⟩
    rcases List.mem_append.mp he with he | he
    · exact Or.inl ⟨e, he, hcirc⟩
    · exact absurd (List.mem_singleton.mp he ▸ hcirc) hkind
  founded _ h := h

/-- What is open leads to the group that the walk comes to. -/
def LeadsTo (prog : GroupProgram) (st : Expansion) (name : String) : Prop :=
  ∀ opened ∈ st.visited, st.expandedGroups opened = none → Relation.TransGen (Refers prog) opened name

/-- The walk comes back to an open group. -/
theorem Walked.report {st : Expansion} (h : Exact prog st) {name : String} {decl : EffectGroupDecl}
    (hcircle : Relation.TransGen (Refers prog) name name) :
    Walked prog st ((st.push (circularError decl name)).insert name {}) where
  exact := by
    intro g set hg hset
    by_cases hgn : g = name
    · exact absurd hcircle (hgn ▸ hg).not_circle
    · exact h g set hg ((insert_of_ne _ _ hgn).symm.trans hset)
  kept _ hg := insert_kept name {} hg
  open_groups _ hg hnone := ⟨hg, (of_insert_none hnone).2⟩
  visited := subset_rfl
  errors := List.subset_append_left _ _
  circle _ := Or.inr ⟨name, hcircle⟩
  founded hno _ := absurd ⟨_, List.mem_append_right _ (List.mem_singleton_self _), rfl⟩ hno

section Steps

variable {depth : ℕ} {expand : String → Expansion → Option Expansion}

/-- What the clauses of a group contribute. -/
def contributed (prog : GroupProgram) (terms : List EffectGroupTerm) : Set Effect :=
  {e | ∃ verb, .verb verb ∈ terms ∧ e ∈ verb.effects prog} ∪
    {e | ∃ refName, .groupRef refName ∈ terms ∧ (groupDecls prog refName).isSome = true ∧ e ∈ expansion prog refName}

theorem contributed_verb (verb : EffectVerb) (terms : List EffectGroupTerm) :
    contributed prog (.verb verb :: terms) = {e | e ∈ verb.effects prog} ∪ contributed prog terms := by
  unfold contributed
  ext e
  simp only [List.mem_cons, EffectGroupTerm.verb.injEq, reduceCtorEq, false_or, Set.mem_union, Set.mem_ofPred_eq,
    or_and_right, exists_or, exists_eq_left, or_assoc]

theorem contributed_groupRef (refName : String) (terms : List EffectGroupTerm) :
    contributed prog (.groupRef refName :: terms) =
      {e | (groupDecls prog refName).isSome = true ∧ e ∈ expansion prog refName} ∪ contributed prog terms := by
  unfold contributed
  ext e
  simp only [List.mem_cons, EffectGroupTerm.groupRef.injEq, reduceCtorEq, false_or, Set.mem_union, Set.mem_ofPred_eq,
    or_and_right, exists_or, exists_eq_left]
  exact or_left_comm

/-- Going through the clauses of an open group, given what expanding a reference does. -/
theorem expandTerms_spec
    (hexpand : ∀ refName st, (groupDecls prog refName).isSome = true → Exact prog st → LeadsTo prog st refName →
      (groupNames prog \ st.visited).card < depth →
      ∃ st', expand refName st = some st' ∧ Walked prog st st' ∧ (st'.expandedGroups refName).isSome = true)
    {name : String} {decl : EffectGroupDecl} (hdecl : groupDecls prog name = some decl) (terms : List EffectGroupTerm)
    (hterms : terms ⊆ decl.body) (st : Expansion) (result : EffectSet) (hexact : Exact prog st)
    (hopen : ∀ opened ∈ st.visited, st.expandedGroups opened = none → Relation.ReflTransGen (Refers prog) opened name)
    (hdepth : (groupNames prog \ st.visited).card < depth) :
    ∃ st' result', expandTerms prog expand decl name terms st result = some (st', result') ∧ Walked prog st st' ∧
      (Founded (Refers prog) name → memSet result' = memSet result ∪ contributed prog terms) ∧
      (¬Circular st' → (∀ g, (st.expandedGroups g).isSome = true → Founded (Refers prog) g) →
        ∀ refName, .groupRef refName ∈ terms → (groupDecls prog refName).isSome = true → Founded (Refers prog) refName) := by
  induction terms generalizing st result with
  | nil => exact ⟨st, result, rfl, Walked.refl hexact, fun _ => by simp [contributed], fun _ _ _ h => absurd h List.not_mem_nil⟩
  | cons term terms ih =>
    have hrest : terms ⊆ decl.body := fun t ht => hterms (List.mem_cons_of_mem _ ht)
    cases term with
    | verb verb =>
      obtain ⟨st', result', hrun, hwalk, hset, hfound⟩ := ih hrest st (addVerb prog verb result) hexact hopen hdepth
      refine ⟨st', result', hrun, hwalk, fun hname => ?_, fun hno hall refName hmem => ?_⟩
      · rw [hset hname, memSet_addVerb, contributed_verb, Set.union_assoc]
      · exact hfound hno hall refName ((List.mem_cons.mp hmem).resolve_left (by simp))
    | groupRef refName =>
      rw [expandTerms]
      by_cases hnone : (groupDecls prog refName).isNone = true
      · -- a name that no declaration has is reported and left out
        have hnot : ¬(groupDecls prog refName).isSome = true := by simpa using hnone
        have hpush := Walked.push hexact (undefinedError decl refName name) nofun
        obtain ⟨st', result', hrun, hwalk, hset, hfound⟩ := ih hrest (st.push (undefinedError decl refName name)) result
          hpush.exact hopen hdepth
        refine ⟨st', result', by rw [if_pos hnone]; exact hrun, hpush.trans hwalk, fun hname => ?_, fun hno hall r hmem hr => ?_⟩
        · rw [hset hname, contributed_groupRef]
          simp [hnot]
        · rcases List.mem_cons.mp hmem with heq | hmem
          · obtain rfl := EffectGroupTerm.groupRef.inj heq
            exact absurd hr hnot
          · exact hfound hno hall r hmem hr
      · rw [if_neg hnone]
        have hsome : (groupDecls prog refName).isSome = true := by simpa [Option.isSome_iff_ne_none] using hnone
        have href : Refers prog name refName := ⟨hsome, decl, hdecl, hterms List.mem_cons_self⟩
        obtain ⟨mid, hmid, hwalk, hin⟩ := hexpand refName st hsome hexact
          (fun opened hv hn => Relation.TransGen.tail' (hopen opened hv hn) href) hdepth
        obtain ⟨sub, hsub⟩ := Option.isSome_iff_exists.mp hin
        have hcard : (groupNames prog \ mid.visited).card < depth :=
          lt_of_le_of_lt (Finset.card_le_card (Finset.sdiff_subset_sdiff subset_rfl hwalk.visited)) hdepth
        obtain ⟨st', result', hrun, hwalk', hset, hfound⟩ := ih hrest mid (result.addAll sub) hwalk.exact
          (fun opened hv hn => (hwalk.open_groups opened hv hn).elim (hopen opened)) hcard
        refine ⟨st', result', by rw [hmid, Option.bind_some, hsub]; exact hrun, hwalk.trans hwalk', fun hname => ?_,
          fun hno hall r hmem hr => ?_⟩
        · rw [hset hname, memSet_addAll, contributed_groupRef, hwalk.exact refName sub (hname.step href) hsub, Set.union_assoc]
          simp [hsome]
        · have hnomid : ¬Circular mid := fun ⟨error, hmem, hkind⟩ => hno ⟨error, hwalk'.errors hmem, hkind⟩
          have hallmid := hwalk.founded hnomid hall
          rcases List.mem_cons.mp hmem with heq | hmem
          · obtain rfl := EffectGroupTerm.groupRef.inj heq
            exact hallmid r hin
          · exact hfound hno hallmid r hmem hr

/-- Closing an open group: its clauses contribute its expansion. -/
theorem Walked.close {name : String} {decl : EffectGroupDecl} (hdecl : groupDecls prog name = some decl) {st st' : Expansion}
    (hwalk : Walked prog (st.visit name) st') {result : EffectSet}
    (hset : Founded (Refers prog) name → memSet result = contributed prog decl.body)
    (hfound : ¬Circular st' → (∀ g, (st.expandedGroups g).isSome = true → Founded (Refers prog) g) →
      ∀ refName, .groupRef refName ∈ decl.body → (groupDecls prog refName).isSome = true → Founded (Refers prog) refName) :
    Walked prog st (st'.insert name result) where
  exact := by
    intro g set hg hin
    by_cases hgn : g = name
    · subst hgn
      obtain rfl := Option.some.inj ((insert_self st' g result).symm.trans hin)
      rw [hset hg, expansion_eq]
      unfold contributed written Refers
      ext e
      simp [hdecl, and_comm, and_assoc]
    · exact hwalk.exact g set hg ((insert_of_ne st' result hgn).symm.trans hin)
  kept g hg := insert_kept name result (hwalk.kept g hg)
  open_groups g hg hnone := by
    obtain ⟨hgn, hnone⟩ := of_insert_none hnone
    obtain ⟨hv, hn⟩ := hwalk.open_groups g hg hnone
    exact ⟨(Finset.mem_insert.mp hv).resolve_left hgn, hn⟩
  visited := (Finset.subset_insert _ _).trans hwalk.visited
  errors := hwalk.errors
  circle := hwalk.circle
  founded hno hall g hg := by
    by_cases hgn : g = name
    · rw [hgn]
      refine founded_of_steps fun refName ⟨hsome, decl', hdecl', hmem⟩ => ?_
      obtain rfl := Option.some.inj (hdecl.symm.trans hdecl')
      exact hfound hno hall refName hmem hsome
    · rw [insert_of_ne st' result hgn] at hg
      exact hwalk.founded hno hall g hg

theorem expandGroup_spec (depth : ℕ) (name : String) (st : Expansion) (hname : (groupDecls prog name).isSome = true)
    (hexact : Exact prog st) (hleads : LeadsTo prog st name) (hdepth : (groupNames prog \ st.visited).card < depth) :
    ∃ st', expandGroup prog depth name st = some st' ∧ Walked prog st st' ∧ (st'.expandedGroups name).isSome = true := by
  induction depth generalizing name st with
  | zero => omega
  | succ depth ih =>
    obtain ⟨decl, hdecl⟩ := Option.isSome_iff_exists.mp hname
    rw [expandGroup, hdecl]
    by_cases hin : (st.expandedGroups name).isSome = true
    · rw [if_pos hin]
      exact ⟨st, rfl, Walked.refl hexact, hin⟩
    · rw [if_neg hin]
      have hnone : st.expandedGroups name = none := by simpa using hin
      by_cases hvisited : name ∈ st.visited
      · rw [if_pos hvisited]
        exact ⟨_, rfl, Walked.report hexact (hleads name hvisited hnone), insert_self_isSome _ _ _⟩
      · rw [if_neg hvisited]
        have hmem : name ∈ groupNames prog \ st.visited := Finset.mem_sdiff.mpr ⟨groupDecls_isSome.mp hname, hvisited⟩
        have hcard : (groupNames prog \ (st.visit name).visited).card < depth := by
          have := Finset.card_erase_lt_of_mem hmem
          rw [← Finset.sdiff_insert] at this
          exact lt_of_lt_of_le this (Nat.lt_succ_iff.mp hdepth)
        have hopen : ∀ opened ∈ (st.visit name).visited, (st.visit name).expandedGroups opened = none →
            Relation.ReflTransGen (Refers prog) opened name := by
          intro opened hv hn
          rcases Finset.mem_insert.mp hv with rfl | hv
          · exact Relation.ReflTransGen.refl
          · exact (hleads opened hv hn).to_reflTransGen
        obtain ⟨st', result, hrun, hwalk, hset, hfound⟩ := expandTerms_spec (fun r mid hr he hl hd => ih r mid hr he hl hd)
          hdecl decl.body (List.Subset.refl _) (st.visit name) {} hexact hopen hcard
        have hclose := hwalk.close hdecl (fun hf => by rw [hset hf, memSet_empty, Set.empty_union]) hfound
        exact ⟨st'.insert name result, by simp [hrun], hclose, insert_self_isSome _ _ _⟩

theorem Walked.afresh {st st' : Expansion} (h : Walked prog st st') : Walked prog st.afresh st'.afresh :=
  ⟨h.exact, h.kept, fun _ hmem => absurd hmem (Finset.notMem_empty _), subset_rfl, h.errors, h.circle, h.founded⟩

/-- The groups in any order: none is open between two of them. -/
theorem expandGroups_spec {depth : ℕ} (hdepth : (groupNames prog).card < depth) (names : List String)
    (hnames : ∀ name ∈ names, (groupDecls prog name).isSome = true) (st : Expansion) (hexact : Exact prog st) :
    ∃ st', expandGroups prog depth names st = some st' ∧ Walked prog st.afresh st'.afresh ∧
      ∀ name ∈ names, (st'.expandedGroups name).isSome = true := by
  induction names generalizing st with
  | nil => exact ⟨st, rfl, Walked.refl hexact, fun _ h => absurd h List.not_mem_nil⟩
  | cons name names ih =>
    have hrest : ∀ g ∈ names, (groupDecls prog g).isSome = true := fun g hg => hnames g (List.mem_cons_of_mem _ hg)
    rw [expandGroups]
    by_cases hin : (st.expandedGroups name).isSome = true
    · obtain ⟨st', hrun, hwalk, hall⟩ := ih hrest st hexact
      exact ⟨st', by rw [if_pos hin]; exact hrun, hwalk, List.forall_mem_cons.mpr ⟨hwalk.kept name hin, hall⟩⟩
    · obtain ⟨mid, hmid, hwalk, hdone⟩ := expandGroup_spec depth name st.afresh (hnames name List.mem_cons_self) hexact
        (fun _ hmem => absurd hmem (Finset.notMem_empty _)) (by rw [Expansion.afresh, Finset.sdiff_empty]; exact hdepth)
      obtain ⟨st', hrun, hwalk', hall⟩ := ih hrest mid hwalk.exact
      exact ⟨st', by rw [if_neg hin, hmid]; exact hrun, hwalk.afresh.trans hwalk',
        List.forall_mem_cons.mpr ⟨hwalk'.kept name hdone, hall⟩⟩

end Steps

/-- Expansion ends, in whatever order the groups come; it reports a circular reference when the references
of the declared groups have a circle and only then; and a group that leads to no circle gets exactly the
effects written in the groups it leads to. -/
theorem expandEffectGroups_exact (prog : GroupProgram) (names : List String) (hnames : names.toFinset = groupNames prog) :
    ∃ st, expandEffectGroups prog names = some st ∧
      ((∃ error ∈ st.errors, error.kind = .circularEffectGroup) ↔ ∃ name, Relation.TransGen (Refers prog) name name) ∧
      ∀ name ∈ groupNames prog, ¬LeadsToCircle (Refers prog) name →
        ∃ set, st.expandedGroups name = some set ∧ ∀ e, set.contains e = true ↔ e ∈ expansion prog name := by
  have hmem : ∀ name, name ∈ names ↔ (groupDecls prog name).isSome = true := fun name => by
    rw [groupDecls_isSome, ← hnames, List.mem_toFinset]
  obtain ⟨st, hrun, hwalk, hall⟩ := expandGroups_spec (Nat.lt_succ_self (groupNames prog).card) names (fun name => (hmem name).mp)
    .start (fun _ _ _ h => absurd h (by simp [Expansion.start]))
  refine ⟨st, hrun, ⟨fun hc => ?_, fun ⟨name, hcircle⟩ => ?_⟩, fun name hname hleads => ?_⟩
  · exact (hwalk.circle hc).resolve_left fun ⟨_, herror, _⟩ => absurd herror List.not_mem_nil
  · by_contra hno
    have hfounded := hwalk.founded hno fun g hg => absurd hg (by simp [Expansion.start, Expansion.afresh])
    obtain ⟨last, -, href⟩ := Relation.TransGen.tail'_iff.mp hcircle
    exact (hfounded name (hall name ((hmem name).mpr href.1))).not_circle hcircle
  · obtain ⟨set, hset⟩ := Option.isSome_iff_exists.mp (hall name ((hmem name).mpr (groupDecls_isSome.mpr hname)))
    have hfounded : Founded (Refers prog) name :=
      founded_of_not_leads (fun _ _ href => groupDecls_isSome.mp href.1) hleads
    exact ⟨set, hset, fun e => Set.ext_iff.mp (hwalk.exact name set hfounded hset) e⟩

/-- A group that refers to itself. -/
theorem expandEffectGroups_exact_self :
    ∃ st, expandEffectGroups ⟨[⟨⟨1, 1, 0, 31⟩, "Loop", [.verb ⟨.reads, [⟨["Db"]⟩], ⟨1, 21, 20, 9⟩⟩, .groupRef "Loop"]⟩], [], []⟩
        ["Loop"] = some st ∧ ∃ error ∈ st.errors, error.kind = .circularEffectGroup := by
  obtain ⟨st, hrun, hcircle, -⟩ := expandEffectGroups_exact
    ⟨[⟨⟨1, 1, 0, 31⟩, "Loop", [.verb ⟨.reads, [⟨["Db"]⟩], ⟨1, 21, 20, 9⟩⟩, .groupRef "Loop"]⟩], [], []⟩ ["Loop"] rfl
  refine ⟨st, hrun, hcircle.mpr ⟨"Loop", Relation.TransGen.single ⟨rfl, _, rfl, ?_⟩⟩⟩
  exact List.mem_cons_of_mem _ List.mem_cons_self

end Karac.Effects
