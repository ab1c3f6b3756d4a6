import Karac.Ast.Nodes
import Karac.Effects.Inference

/-! The slots of named effect variables: `build_fn_effect_var_positions`, from the functions and methods of a program. -/

namespace Karac.Effects

inductive EffectItem
  | verb
  | group
  | polymorphic
  | named (name : String)

inductive EffectSpec
  | polymorphic
  | specific (items : List EffectItem)

mutual

/-- A type as written, with the effects of its function types. -/
inductive TypeExpr
  | path
  | tuple (elems : List TypeExpr)
  | array (element : TypeExpr)
  | pointer (inner : TypeExpr)
  | fnType (params : List TypeExpr) (returnType : Option TypeExpr) (effectSpec : Option EffectSpec)
  | ref (inner : TypeExpr)
  | mutRef (inner : TypeExpr)
  | frozen (inner : TypeExpr)
  | mutSlice (inner : TypeExpr)
  | weak (inner : TypeExpr)
  | implTrait (args : List GenericArg) (useEffects : Option (List EffectItem))
  | dyn (args : List GenericArg)
  | unit
  | error

inductive GenericArg
  | type (ty : TypeExpr)
  | other

end

def addVariables : List EffectItem → List String → List String
  | [], out => out
  | .named name :: items, out => addVariables items (if name ∈ out then out else out ++ [name])
  | _ :: items, out => addVariables items out

mutual

def collectEffectVarNamesInType : TypeExpr → List String → List String
  | .fnType params returnType effectSpec, out =>
    let out := match effectSpec with
      | some (.specific items) => addVariables items out
      | _ => out
    collectInReturn returnType (collectInTypes params out)
  | .tuple elems, out => collectInTypes elems out
  | .array element, out => collectEffectVarNamesInType element out
  | .pointer inner, out => collectEffectVarNamesInType inner out
  | .ref inner, out => collectEffectVarNamesInType inner out
  | .mutRef inner, out => collectEffectVarNamesInType inner out
  | .mutSlice inner, out => collectEffectVarNamesInType inner out
  | .weak inner, out => collectEffectVarNamesInType inner out
  | .frozen inner, out => collectEffectVarNamesInType inner out
  | .implTrait args useEffects, out => collectInArgs args (addVariables (useEffects.getD []) out)
  | .dyn args, out => collectInArgs args out
  | .path, out => out
  | .unit, out => out
  | .error, out => out

def collectInReturn : Option TypeExpr → List String → List String
  | none, out => out
  | some t, out => collectEffectVarNamesInType t out

def collectInTypes : List TypeExpr → List String → List String
  | [], out => out
  | t :: ts, out => collectInTypes ts (collectEffectVarNamesInType t out)

def collectInArgs : List GenericArg → List String → List String
  | [], out => out
  | .type t :: args, out => collectInArgs args (collectEffectVarNamesInType t out)
  | .other :: args, out => collectInArgs args out

end

def effectVarNamesInType (ty : TypeExpr) : List String := collectEffectVarNamesInType ty []

/-- A function, or a method of an impl or of a trait; a trait's method may have no body. -/
structure Function where
  name : String
  effectParams : List String
  params : List TypeExpr
  body : Option Ast.Block

inductive Item
  | function (f : Function)
  /-- The segments of the target, where it is a path. -/
  | implBlock (target : Option (List String)) (methods : List Function)
  | traitDef (name : String) (methods : List Function)
  | other

def dotted (left right : String) : Symbol := left ++ "." ++ right

/-- Where a function or a method stands: its item, and its index in it. -/
abbrev Place := ℕ × ℕ

/-- A function or a method under the key that the tables of the checker have for it. -/
structure Declaration where
  key : Symbol
  isMethod : Bool
  place : Place
  function : Function

def Item.declarations (i : ℕ) : Item → List Declaration
  | .function f => [⟨f.name, false, (i, 0), f⟩]
  | .implBlock (some segments) methods =>
    methods.zipIdx.map fun m => ⟨dotted (segments.getLast?.getD "") m.1.name, true, (i, m.2), m.1⟩
  | .implBlock none _ => []
  | .traitDef name methods => methods.zipIdx.map fun m => ⟨dotted name m.1.name, true, (i, m.2), m.1⟩
  | .other => []

/-- The functions and methods that the checker takes up, in the order of the program. -/
def declarations (items : List Item) : List Declaration := items.zipIdx.flatMap fun item => item.1.declarations item.2

/-- `by_var`, a variable with the indices of its slots. -/
abbrev VarPositions := List (String × List ℕ)

def pushIndex (name : String) (idx : ℕ) : VarPositions → VarPositions
  | [] => [(name, [idx])]
  | (n, indices) :: rest => if n = name then (n, indices ++ [idx]) :: rest else (n, indices) :: pushIndex name idx rest

def pushNames (declared : List String) (idx : ℕ) : List String → VarPositions → VarPositions
  | [], byVar => byVar
  | name :: names, byVar => pushNames declared idx names (if name ∈ declared then pushIndex name idx byVar else byVar)

def scanParams (declared : List String) : ℕ → List TypeExpr → VarPositions → VarPositions
  | _, [], byVar => byVar
  | idx, ty :: params, byVar =>
    scanParams declared (idx + 1) params (pushNames declared idx (effectVarNamesInType ty) byVar)

def scan (f : Function) : VarPositions := if f.effectParams = [] then [] else scanParams f.effectParams 0 f.params []

/-- A key declared more than once keeps the positions found last. -/
def insertPositions (index : Symbol → Option VarPositions) (d : Declaration) : Symbol → Option VarPositions :=
  if scan d.function = [] then index else Function.update index d.key (some (scan d.function))

def buildFnEffectVarPositions (items : List Item) : Symbol → Option VarPositions :=
  (declarations items).foldl insertPositions fun _ => none

/-! What the index says. -/

/-- `E` is a variable of the function that its parameter `i` has in a function type. -/
def Function.Slot (f : Function) (E : String) (i : ℕ) : Prop :=
  E ∈ f.effectParams ∧ ∃ ty, f.params[i]? = some ty ∧ E ∈ effectVarNamesInType ty

/-- The indices kept for a variable. -/
def VarPositions.At (byVar : VarPositions) (E : String) (i : ℕ) : Prop := ∃ indices, (E, indices) ∈ byVar ∧ i ∈ indices

/-- Each variable has one entry, and no entry is empty. -/
structure VarPositions.Keyed (byVar : VarPositions) : Prop where
  keys : (byVar.map Prod.fst).Nodup
  filled : ∀ entry ∈ byVar, entry.2 ≠ []

theorem keyed_nil : VarPositions.Keyed [] := ⟨List.nodup_nil, by simp⟩

theorem not_at_nil (E : String) (i : ℕ) : ¬ VarPositions.At [] E i := by
  rintro ⟨indices, hentry, -⟩
  cases hentry

theorem at_cons (entry : String × List ℕ) (rest : VarPositions) (E : String) (i : ℕ) :
    VarPositions.At (entry :: rest) E i ↔ E = entry.1 ∧ i ∈ entry.2 ∨ VarPositions.At rest E i := by
  constructor
  · rintro ⟨indices, hentry, hi⟩
    rcases List.mem_cons.mp hentry with rfl | hrest
    · exact .inl ⟨rfl, hi⟩
    · exact .inr ⟨indices, hrest, hi⟩
  · rintro (⟨rfl, hi⟩ | ⟨indices, hrest, hi⟩)
    · exact ⟨entry.2, List.mem_cons_self, hi⟩
    · exact ⟨indices, List.mem_cons_of_mem _ hrest, hi⟩

theorem at_pushIndex (name : String) (idx : ℕ) (byVar : VarPositions) (E : String) (i : ℕ) :
    VarPositions.At (pushIndex name idx byVar) E i ↔ byVar.At E i ∨ E = name ∧ i = idx := by
  induction byVar with
  | nil => simp [pushIndex, at_cons, not_at_nil]
  | cons entry rest ih =>
    rw [pushIndex]
    split
    · next hname =>
      rw [at_cons, at_cons, hname]
      simp only [List.mem_append, List.mem_singleton]
      tauto
    · rw [at_cons, at_cons, ih, or_assoc]

theorem fst_pushIndex (name : String) (idx : ℕ) (byVar : VarPositions) (E : String) :
    E ∈ (pushIndex name idx byVar).map Prod.fst ↔ E ∈ byVar.map Prod.fst ∨ E = name := by
  induction byVar with
  | nil => simp [pushIndex]
  | cons entry rest ih =>
    rw [pushIndex]
    split
    · next hname =>
      simp only [List.map_cons, List.mem_cons, hname]
      tauto
    · simp only [List.map_cons, List.mem_cons, ih, or_assoc]

theorem keyed_pushIndex (name : String) (idx : ℕ) (byVar : VarPositions) (h : byVar.Keyed) :
    VarPositions.Keyed (pushIndex name idx byVar) := by
  induction byVar with
  | nil => exact ⟨List.nodup_singleton name, by simp [pushIndex]⟩
  | cons entry rest ih =>
    have hkeys := List.nodup_cons.mp h.keys
    have hrest := ih ⟨hkeys.2, fun e he => h.filled e (List.mem_cons_of_mem _ he)⟩
    rw [pushIndex]
    split
    · refine ⟨h.keys, ?_⟩
      intro e he
      rcases List.mem_cons.mp he with rfl | he
      · simp
      · exact h.filled e (List.mem_cons_of_mem _ he)
    · next hname =>
      refine ⟨List.nodup_cons.mpr ⟨?_, hrest.keys⟩, ?_⟩
      · intro hmem
        rcases (fst_pushIndex name idx rest entry.1).mp hmem with hold | hnew
        · exact hkeys.1 hold
        · exact hname hnew
      · intro e he
        rcases List.mem_cons.mp he with rfl | he
        · exact h.filled _ List.mem_cons_self
        · exact hrest.filled e he

theorem at_pushNames (declared : List String) (idx : ℕ) (names : List String) (byVar : VarPositions) (E : String) (i : ℕ) :
    VarPositions.At (pushNames declared idx names byVar) E i ↔ byVar.At E i ∨ (E ∈ declared ∧ E ∈ names) ∧ i = idx := by
  induction names generalizing byVar with
  | nil => simp [pushNames]
  | cons name names ih =>
    rw [pushNames, ih]
    split
    · next hname =>
      rw [at_pushIndex, List.mem_cons]
      constructor
      · rintro ((hold | ⟨rfl, rfl⟩) | ⟨⟨hdeclared, hmem⟩, rfl⟩)
        · exact .inl hold
        · exact .inr ⟨⟨hname, .inl rfl⟩, rfl⟩
        · exact .inr ⟨⟨hdeclared, .inr hmem⟩, rfl⟩
      · tauto
    · next hname =>
      rw [List.mem_cons]
      constructor
      · tauto
      · rintro (hold | ⟨⟨hdeclared, rfl | hmem⟩, rfl⟩)
        · exact .inl hold
        · exact absurd hdeclared hname
        · exact .inr ⟨⟨hdeclared, hmem⟩, rfl⟩

theorem keyed_pushNames (declared : List String) (idx : ℕ) (names : List String) (byVar : VarPositions) (h : byVar.Keyed) :
    VarPositions.Keyed (pushNames declared idx names byVar) := by
  induction names generalizing byVar with
  | nil => exact h
  | cons name names ih =>
    rw [pushNames]
    apply ih
    split
    · exact keyed_pushIndex name idx byVar h
    · exact h

theorem at_scanParams (declared : List String) (params : List TypeExpr) (idx : ℕ) (byVar : VarPositions) (E : String) (i : ℕ) :
    VarPositions.At (scanParams declared idx params byVar) E i ↔
      byVar.At E i ∨ E ∈ declared ∧ ∃ j ty, params[j]? = some ty ∧ E ∈ effectVarNamesInType ty ∧ i = idx + j := by
  induction params generalizing idx byVar with
  | nil => simp [scanParams]
  | cons ty params ih =>
    rw [scanParams, ih, at_pushNames]
    constructor
    · rintro ((hold | ⟨⟨hdeclared, hname⟩, rfl⟩) | ⟨hdeclared, j, t, ht, hname, rfl⟩)
      · exact .inl hold
      · exact .inr ⟨hdeclared, 0, ty, rfl, hname, rfl⟩
      · exact .inr ⟨hdeclared, j + 1, t, ht, hname, by omega⟩
    · rintro (hold | ⟨hdeclared, j, t, ht, hname, rfl⟩)
      · exact .inl (.inl hold)
      · cases j with
        | zero =>
          obtain rfl : ty = t := by simpa using ht
          exact .inl (.inr ⟨⟨hdeclared, hname⟩, rfl⟩)
        | succ j => exact .inr ⟨hdeclared, j, t, ht, hname, by omega⟩

theorem keyed_scanParams (declared : List String) (params : List TypeExpr) (idx : ℕ) (byVar : VarPositions)
    (h : byVar.Keyed) : VarPositions.Keyed (scanParams declared idx params byVar) := by
  induction params generalizing idx byVar with
  | nil => exact h
  | cons ty params ih => exact ih _ _ (keyed_pushNames declared idx _ byVar h)

theorem at_scan (f : Function) (E : String) (i : ℕ) : (scan f).At E i ↔ f.Slot E i := by
  rw [scan, Function.Slot]
  split
  · next hnone => simp [hnone, not_at_nil]
  · rw [at_scanParams]
    simp [not_at_nil]

theorem keyed_scan (f : Function) : (scan f).Keyed := by
  rw [scan]
  split
  · exact keyed_nil
  · exact keyed_scanParams f.effectParams f.params 0 [] keyed_nil

theorem scan_eq_nil (f : Function) : scan f = [] ↔ ∀ E i, ¬ f.Slot E i := by
  constructor
  · intro hnil E i hslot
    rw [← at_scan, hnil] at hslot
    exact not_at_nil E i hslot
  · intro hnone
    by_contra hsome
    obtain ⟨entry, hentry⟩ := List.exists_mem_of_ne_nil _ hsome
    obtain ⟨i, hi⟩ := List.exists_mem_of_ne_nil _ ((keyed_scan f).filled entry hentry)
    exact hnone entry.1 i ((at_scan f entry.1 i).mp ⟨entry.2, hentry, hi⟩)

/-- Argument `i` of a call of `key` is in a slot of `E`: of the declarations of that key the last with any slot counts. -/
def CalleeSlot (items : List Item) (key : Symbol) (E : String) (i : ℕ) : Prop :=
  ∃ before d after, declarations items = before ++ d :: after ∧ d.key = key ∧ d.function.Slot E i ∧
    ∀ e ∈ after, e.key = key → ∀ F j, ¬ e.function.Slot F j

theorem foldl_insertPositions (ds : List Declaration) (key : Symbol) :
    (∃ before d after, ds = before ++ d :: after ∧ d.key = key ∧ scan d.function ≠ [] ∧
        (∀ e ∈ after, e.key = key → scan e.function = []) ∧
        ds.foldl insertPositions (fun _ => none) key = some (scan d.function)) ∨
      (∀ d ∈ ds, d.key = key → scan d.function = []) ∧ ds.foldl insertPositions (fun _ => none) key = none := by
  induction ds using List.reverseRecOn with
  | nil => simp
  | append_singleton ds d ih =>
    rw [List.foldl_append, List.foldl_cons, List.foldl_nil]
    by_cases hnew : d.key = key ∧ scan d.function ≠ []
    · refine .inl ⟨ds, d, [], rfl, hnew.1, hnew.2, by simp, ?_⟩
      rw [insertPositions, if_neg hnew.2, hnew.1, Function.update_self]
    · have hsame : insertPositions (ds.foldl insertPositions fun _ => none) d key =
          ds.foldl insertPositions (fun _ => none) key := by
        rw [insertPositions]
        split
        · rfl
        · next hscan => rw [Function.update_of_ne fun hkey => hnew ⟨hkey.symm, hscan⟩]
      have hempty : d.key = key → scan d.function = [] := by
        intro hkey
        by_contra hscan
        exact hnew ⟨hkey, hscan⟩
      rw [hsame]
      rcases ih with ⟨before, d', after, rfl, hkey, hscan, hafter, hindex⟩ | ⟨hnone, hindex⟩
      · refine .inl ⟨before, d', after ++ [d], by simp, hkey, hscan, ?_, hindex⟩
        intro e he
        rcases List.mem_append.mp he with he | he
        · exact hafter e he
        · obtain rfl := List.mem_singleton.mp he
          exact hempty
      · refine .inr ⟨?_, hindex⟩
        intro e he
        rcases List.mem_append.mp he with he | he
        · exact hnone e he
        · obtain rfl := List.mem_singleton.mp he
          exact hempty

/-- Of two ways to split a list at the last element with a property, both split it there. -/
theorem last_unique {α : Type*} {P : α → Prop} {before after before' after' : List α} {a a' : α}
    (h : before ++ a :: after = before' ++ a' :: after') (ha : P a) (hafter : ∀ x ∈ after, ¬ P x) (ha' : P a')
    (hafter' : ∀ x ∈ after', ¬ P x) : a = a' := by
  rcases List.append_eq_append_iff.mp h with ⟨mid, hbefore, hmid⟩ | ⟨mid, hbefore, hmid⟩
  · cases mid with
    | nil => exact (List.cons.inj hmid).1
    | cons m mid =>
      obtain ⟨-, rfl⟩ := List.cons.inj hmid
      exact absurd ha' (hafter a' (by simp))
  · cases mid with
    | nil => exact (List.cons.inj hmid).1.symm
    | cons m mid =>
      obtain ⟨-, rfl⟩ := List.cons.inj hmid
      exact absurd ha (hafter' a (by simp))

theorem buildFnEffectVarPositions_eq_none {items : List Item} {key : Symbol}
    (h : buildFnEffectVarPositions items key = none) (E : String) (i : ℕ) : ¬ CalleeSlot items key E i := by
  rintro ⟨before, d, after, hds, hkey, hslot, -⟩
  rcases foldl_insertPositions (declarations items) key with ⟨_, _, _, -, -, -, -, hsome⟩ | ⟨hnone, -⟩
  · rw [buildFnEffectVarPositions, hsome] at h
    cases h
  · exact (scan_eq_nil _).mp (hnone d (by simp [hds]) hkey) E i hslot

theorem buildFnEffectVarPositions_eq_some {items : List Item} {key : Symbol} {byVar : VarPositions}
    (h : buildFnEffectVarPositions items key = some byVar) :
    byVar.Keyed ∧ ∀ E i, byVar.At E i ↔ CalleeSlot items key E i := by
  rcases foldl_insertPositions (declarations items) key with ⟨before, d, after, hds, hkey, hscan, hafter, hsome⟩ | ⟨-, hnone⟩
  · obtain rfl : scan d.function = byVar := Option.some.inj (hsome.symm.trans h)
    refine ⟨keyed_scan _, fun E i => (at_scan _ _ _).trans ⟨?_, ?_⟩⟩
    · intro hslot
      exact ⟨before, d, after, hds, hkey, hslot, fun e he hkey => (scan_eq_nil _).mp (hafter e he hkey)⟩
    · rintro ⟨before', d', after', hds', hkey', hslot, hafter'⟩
      have hlast : d' = d := by
        refine last_unique (P := fun d => d.key = key ∧ scan d.function ≠ []) (hds'.symm.trans hds) ⟨hkey', ?_⟩ ?_
          ⟨hkey, hscan⟩ ?_
        · intro hnil
          exact (scan_eq_nil _).mp hnil E i hslot
        · rintro e he ⟨hkey, hne⟩
          exact hne ((scan_eq_nil _).mpr (hafter' e he hkey))
        · rintro e he ⟨hkey, hne⟩
          exact hne (hafter e he hkey)
      rwa [hlast] at hslot
  · rw [buildFnEffectVarPositions, hnone] at h
    cases h

end Karac.Effects
