import Karac.Effects.WithE

/-! Which conflicts are reported: those of the calls that the walk reaches, in the functions that the tables keep. -/

namespace Karac.Effects

open Ast

/-! A program and the places in it. -/

def Item.functions : Item → List Function
  | .function f => [f]
  | .implBlock _ methods => methods
  | .traitDef _ methods => methods
  | .other => []

def functionAt (items : List Item) (place : Place) : Option Function :=
  (items[place.1]?).bind fun item => item.functions[place.2]?

def nodeAt : Node → List ℕ → Option Node
  | n, [] => some n
  | n, i :: path => (n.children[i]?).bind fun c => nodeAt c path

/-- No node above is of a form without an arm. -/
def Entered : Node → List ℕ → Prop
  | _, [] => True
  | n, i :: path => skipped n = false ∧ ∀ c, n.children[i]? = some c → Entered c path

/-- The function there has a key, and no later body takes its place under that key. -/
def Kept (items : List Item) (place : Place) : Prop :=
  ∃ before d after, declarations items = before ++ d :: after ∧ d.place = place ∧
    ∀ e ∈ after, e.isMethod = d.isMethod → e.key = d.key → e.function.body = none

section

variable (prog : UnificationProgram)

/-- Two arguments in slots of one variable of the callee have different effects. -/
def Conflicts (a : Address) (e : Expr) : Prop :=
  ∃ key args, calleeOf prog a e = some (key, args) ∧
    ∃ E i j s t, CalleeSlot prog.items key E i ∧ CalleeSlot prog.items key E j ∧
      slotEffects prog a args i = some s ∧ slotEffects prog a args j = some t ∧ s ≠ t

/-- At one of the arguments of the call. -/
def Reported (a : Address) : Prop := ∃ err ∈ checkWithEUnification prog, ∃ i, err.span = a.arg i

end

theorem visited_iff {n m : Node} {path : List ℕ} : Visited n path m ↔ nodeAt n path = some m ∧ Entered n path := by
  induction path generalizing n with
  | nil =>
    simp only [nodeAt, Entered, and_true, Option.some.injEq]
    constructor
    · rintro ⟨⟩
      rfl
    · rintro rfl
      exact .here n
  | cons i path ih =>
    rw [nodeAt, Entered, Option.bind_eq_some_iff]
    constructor
    · rintro ⟨⟩
      next c hentered hat hvisited =>
      obtain ⟨hm, hpath⟩ := ih.mp hvisited
      refine ⟨⟨c, hat, hm⟩, hentered, ?_⟩
      intro c' hat'
      rwa [← Option.some.inj (hat.symm.trans hat')]
    · rintro ⟨⟨c, hat, hm⟩, hentered, hpath⟩
      exact .down hentered hat (ih.mpr ⟨hm, hpath c hat⟩)

/-! The tables. -/

theorem function_of_declaration {i : ℕ} {item : Item} {d : Declaration} (h : d ∈ item.declarations i) :
    d.place.1 = i ∧ item.functions[d.place.2]? = some d.function := by
  have hmethods : ∀ (methods : List Function) (head : String),
      d ∈ (methods.zipIdx.map fun m => (⟨dotted head m.1.name, true, (i, m.2), m.1⟩ : Declaration)) →
        d.place.1 = i ∧ methods[d.place.2]? = some d.function := by
    intro methods head hd
    obtain ⟨⟨f, j⟩, hm, rfl⟩ := List.mem_map.mp hd
    exact ⟨rfl, List.mk_mem_zipIdx_iff_getElem?.mp hm⟩
  cases item with
  | function f =>
    obtain rfl := List.mem_singleton.mp h
    exact ⟨rfl, rfl⟩
  | implBlock target methods =>
    cases target with
    | none => cases h
    | some segments => exact hmethods methods _ h
  | traitDef name methods => exact hmethods methods name h
  | other => cases h

theorem functionAt_of_declaration {items : List Item} {d : Declaration} (h : d ∈ declarations items) :
    functionAt items d.place = some d.function := by
  obtain ⟨⟨item, i⟩, hitem, hd⟩ := List.mem_flatMap.mp h
  obtain ⟨hi, hf⟩ := function_of_declaration hd
  rw [functionAt, hi, List.mk_mem_zipIdx_iff_getElem?.mp hitem]
  exact hf

theorem mem_foldl_insertBody (ds : List Declaration) (b : Bool) (d : Declaration) :
    d ∈ ds.foldl (fun table d => if d.hasBody b then insertBody table d else table) [] ↔
      ∃ before after, ds = before ++ d :: after ∧ d.hasBody b = true ∧
        ∀ e ∈ after, e.hasBody b = true → e.key ≠ d.key := by
  induction ds using List.reverseRecOn with
  | nil => simp
  | append_singleton ds new ih =>
    rw [List.foldl_append, List.foldl_cons, List.foldl_nil]
    constructor
    · intro hd
      -- an old entry keeps its place unless the new one has its key
      have hold : d ∈ ds.foldl (fun table d => if d.hasBody b then insertBody table d else table) [] →
          (new.hasBody b = true → new.key ≠ d.key) → ∃ before after, ds ++ [new] = before ++ d :: after ∧
            d.hasBody b = true ∧ ∀ e ∈ after, e.hasBody b = true → e.key ≠ d.key := by
        intro hmem hnew
        obtain ⟨before, after, rfl, hbody, hafter⟩ := ih.mp hmem
        refine ⟨before, after ++ [new], by simp, hbody, ?_⟩
        intro e he
        rcases List.mem_append.mp he with he | he
        · exact hafter e he
        · obtain rfl := List.mem_singleton.mp he
          exact hnew
      split at hd
      · next hbody =>
        rcases List.mem_append.mp hd with hd | hd
        · obtain ⟨hmem, hkey⟩ := List.mem_filter.mp hd
          exact hold hmem fun _ => (of_decide_eq_true hkey).symm
        · obtain rfl := List.mem_singleton.mp hd
          exact ⟨ds, [], rfl, hbody, by simp⟩
      · next hbody => exact hold hd fun h => absurd h hbody
    · rintro ⟨before, after, hds, hbody, hafter⟩
      rcases List.eq_nil_or_concat after with rfl | ⟨front, last, rfl⟩
      · obtain ⟨rfl, hlast⟩ := List.append_inj' hds rfl
        obtain rfl := List.singleton_inj.mp hlast
        rw [if_pos hbody]
        exact List.mem_append_right _ List.mem_cons_self
      · have hsplit : ds ++ [new] = (before ++ d :: front) ++ [last] := by simpa using hds
        obtain ⟨hfront, hlast⟩ := List.append_inj' hsplit rfl
        obtain rfl := List.singleton_inj.mp hlast
        have hmem := ih.mpr ⟨before, front, hfront, hbody, fun e he => hafter e (by simp [he])⟩
        split
        · next hnew =>
          refine List.mem_append_left _ (List.mem_filter.mpr ⟨hmem, ?_⟩)
          exact decide_eq_true (hafter new (by simp) hnew).symm
        · exact hmem

section

variable (prog : UnificationProgram)

/-- The bodies that are checked, by their places. -/
theorem mem_bodies (place : Place) (body : Block) :
    (∃ d ∈ bodiesTable prog false ++ bodiesTable prog true, d.place = place ∧ d.function.body = some body) ↔
      Kept prog.items place ∧ ∃ f, functionAt prog.items place = some f ∧ f.body = some body := by
  constructor
  · rintro ⟨d, hd, rfl, hbody⟩
    have hsplit : ∃ before after, declarations prog.items = before ++ d :: after ∧ d.hasBody d.isMethod = true ∧
        ∀ e ∈ after, e.hasBody d.isMethod = true → e.key ≠ d.key := by
      rcases List.mem_append.mp hd with hd | hd
      · obtain ⟨before, after, hds, hhas, hafter⟩ := (mem_foldl_insertBody _ _ _).mp hd
        have hkind : d.isMethod = false := by simpa [hbody] using (Bool.and_eq_true _ _).mp hhas
        rw [hkind]
        exact ⟨before, after, hds, hhas, hafter⟩
      · obtain ⟨before, after, hds, hhas, hafter⟩ := (mem_foldl_insertBody _ _ _).mp hd
        have hkind : d.isMethod = true := by simpa [hbody] using (Bool.and_eq_true _ _).mp hhas
        rw [hkind]
        exact ⟨before, after, hds, hhas, hafter⟩
    obtain ⟨before, after, hds, -, hafter⟩ := hsplit
    refine ⟨⟨before, d, after, hds, rfl, ?_⟩, d.function, functionAt_of_declaration (by simp [hds]), hbody⟩
    intro e he hkind hkey
    by_contra hsome
    refine hafter e he ?_ hkey
    simp [Declaration.hasBody, hkind, Option.isSome_iff_ne_none, hsome]
  · rintro ⟨⟨before, d, after, hds, rfl, hlater⟩, f, hf, hbody⟩
    obtain rfl : d.function = f := Option.some.inj ((functionAt_of_declaration (by simp [hds])).symm.trans hf)
    have hmem : d ∈ bodiesTable prog d.isMethod := by
      refine (mem_foldl_insertBody _ _ _).mpr ⟨before, after, hds, by simp [Declaration.hasBody, hbody], ?_⟩
      intro e he hhas hkey
      have hhas' : e.isMethod = d.isMethod ∧ e.function.body.isSome = true := by simpa [Declaration.hasBody] using hhas
      rw [hlater e he hhas'.1 hkey] at hhas'
      cases hhas'.2
    refine ⟨d, ?_, rfl, hbody⟩
    rw [List.mem_append]
    cases hkind : d.isMethod with
    | false => exact .inl (hkind ▸ hmem)
    | true => exact .inr (hkind ▸ hmem)

/-! One call. -/

theorem checkCall_iff (key : Symbol) (a : Address) (args : List CallArg) :
    checkCallWithEUnification prog key a args ≠ [] ↔
      ∃ E i j s t, CalleeSlot prog.items key E i ∧ CalleeSlot prog.items key E j ∧
        slotEffects prog a args i = some s ∧ slotEffects prog a args j = some t ∧ s ≠ t := by
  rw [checkCallWithEUnification]
  cases hpositions : buildFnEffectVarPositions prog.items key with
  | none =>
    simp only [ne_eq, not_true_eq_false, false_iff]
    rintro ⟨E, i, -, -, -, hslot, -⟩
    exact buildFnEffectVarPositions_eq_none hpositions E i hslot
  | some positions =>
    obtain ⟨hkeyed, hat⟩ := buildFnEffectVarPositions_eq_some hpositions
    simp only [ne_eq, List.flatMap_eq_nil_iff, not_forall]
    constructor
    · rintro ⟨⟨E, indices⟩, hentry, hchecked⟩
      split at hchecked
      · exact absurd rfl hchecked
      · obtain ⟨i, hi, j, hj, s, t, hs, ht, hne⟩ := (checkSlots_free prog a args E indices).mp hchecked
        exact ⟨E, i, j, s, t, (hat E i).mp ⟨indices, hentry, hi⟩, (hat E j).mp ⟨indices, hentry, hj⟩, hs, ht, hne⟩
    · rintro ⟨E, i, j, s, t, hsi, hsj, hs, ht, hne⟩
      obtain ⟨indices, hentry, hi⟩ := (hat E i).mpr hsi
      obtain ⟨others, hothers, hj⟩ := (hat E j).mpr hsj
      obtain rfl : others = indices :=
        congrArg Prod.snd (List.inj_on_of_nodup_map hkeyed.keys hothers hentry rfl)
      have hij : i ≠ j := by
        rintro rfl
        exact hne (Option.some.inj (hs.symm.trans ht))
      refine ⟨(E, others), hentry, ?_⟩
      rw [if_neg]
      · exact (checkSlots_free prog a args E others).mpr ⟨i, hi, j, hj, s, t, hs, ht, hne⟩
      · rw [not_lt]
        calc 2 = ({i, j} : Finset ℕ).card := (Finset.card_pair hij).symm
          _ ≤ others.toFinset.card := Finset.card_le_card (by simp [Finset.insert_subset_iff, hi, hj])
          _ ≤ others.length := others.toFinset_card_le

theorem checkNode_iff (a : Address) (e : Expr) : checkNode prog a (.expr e) ≠ [] ↔ Conflicts prog a e := by
  rw [checkNode, Conflicts]
  cases hcallee : calleeOf prog a e with
  | none => simp
  | some callee =>
    obtain ⟨key, args⟩ := callee
    simp only [checkCall_iff]
    constructor
    · intro h
      exact ⟨key, args, rfl, h⟩
    · rintro ⟨key', args', hsame, h⟩
      cases hsame
      exact h

variable {prog} {a : Address} {f : Function} {body : Block} {e : Expr}

theorem reported_iff (hf : functionAt prog.items a.place = some f) (hbody : f.body = some body)
    (he : nodeAt (.block body) a.path = some (.expr e)) :
    Reported prog a ↔ Kept prog.items a.place ∧ Entered (.block body) a.path ∧ Conflicts prog a e := by
  constructor
  · rintro ⟨err, herr, i, hspan⟩
    obtain ⟨d, hd, herr⟩ := List.mem_flatMap.mp herr
    rw [checkFunctionBody] at herr
    split at herr
    · next body' hbody' =>
      obtain ⟨path, m, hvisited, hchecked⟩ := (mem_checkWithE prog).mp herr
      obtain ⟨j, hspan'⟩ := span_of_checkNode prog hchecked
      obtain rfl := Address.arg_injective (hspan.symm.trans hspan')
      obtain ⟨hkept, f', hf', hbody''⟩ := (mem_bodies prog d.place body').mp ⟨d, hd, rfl, hbody'⟩
      obtain rfl : f' = f := Option.some.inj (hf'.symm.trans hf)
      obtain rfl : body' = body := Option.some.inj (hbody''.symm.trans hbody)
      obtain ⟨hm, hentered⟩ := visited_iff.mp hvisited
      obtain rfl : m = .expr e := Option.some.inj (hm.symm.trans he)
      exact ⟨hkept, hentered, (checkNode_iff prog _ e).mp (List.ne_nil_of_mem hchecked)⟩
    · cases herr
  · rintro ⟨hkept, hentered, hconflicts⟩
    obtain ⟨d, hd, hplace, hbody'⟩ := (mem_bodies prog a.place body).mpr ⟨hkept, f, hf, hbody⟩
    obtain ⟨err, hchecked⟩ := List.exists_mem_of_ne_nil _ ((checkNode_iff prog a e).mpr hconflicts)
    obtain ⟨i, hspan⟩ := span_of_checkNode prog hchecked
    refine ⟨err, List.mem_flatMap.mpr ⟨d, hd, ?_⟩, i, hspan⟩
    rw [checkFunctionBody, hbody', hplace]
    exact (mem_checkWithE prog).mpr ⟨a.path, .expr e, visited_iff.mpr ⟨he, hentered⟩, hchecked⟩

/-- A conflict is reported just where the walk comes to the call. -/
theorem conflict_reported_iff (hf : functionAt prog.items a.place = some f) (hbody : f.body = some body)
    (he : nodeAt (.block body) a.path = some (.expr e)) :
    (Reported prog a ↔ Conflicts prog a e) ↔
      (Conflicts prog a e → Kept prog.items a.place ∧ Entered (.block body) a.path) := by
  rw [reported_iff hf hbody he]
  tauto

end

/-! `fn run[with E](f: Fn() with E, g: Fn() with E)`, called by `main` with a function that reads the clock and one
that does not. -/

def runFunction : Function where
  name := "run"
  effectParams := ["E"]
  params := [.fnType [] none (some (.specific [.named "E"])), .fnType [] none (some (.specific [.named "E"]))]
  body := some (.mk [] none)

def readerEffects : EffectMap := fun name =>
  if name = "reader" then some ⟨[⟨⟨.reads, "Clock"⟩, .direct ⟨0, 0, 1, 1⟩⟩]⟩ else none

def runReaderQuiet : Expr := .call (.identifier "run") [.mk none false (.identifier "reader"), .mk none false (.identifier "quiet")]

/-- The call stands where `main` has it. -/
def readerProgram (main : Block) : UnificationProgram where
  items := [.function runFunction, .function ⟨"main", [], [], some main⟩]
  checker := ⟨["run", "main", "reader", "quiet"], [], fun _ => [], fun _ => [], fun _ => [], fun _ => none, fun _ => none, by simp⟩
  inferredEffects := readerEffects
  methodCalleeTypes := fun _ => none
  closureCalls := fun _ => []
  transparentEffects := ∅

theorem runReaderQuiet_conflicts (main : Block) (a : Address) : Conflicts (readerProgram main) a runReaderQuiet := by
  have hslot : ∀ i < 2, runFunction.Slot "E" i := by
    intro i hi
    refine ⟨by decide, .fnType [] none (some (.specific [.named "E"])), ?_, by decide⟩
    interval_cases i <;> rfl
  have hcallee : ∀ i < 2, CalleeSlot (readerProgram main).items "run" "E" i := by
    intro i hi
    refine ⟨[], ⟨"run", false, (0, 0), runFunction⟩, [⟨"main", false, (1, 0), ⟨"main", [], [], some main⟩⟩], rfl, rfl,
      hslot i hi, ?_⟩
    intro d hd hkey
    obtain rfl := List.mem_singleton.mp hd
    have hname : "main" = "run" := hkey
    exact absurd hname (by decide)
  refine ⟨"run", _, rfl, "E", 0, 1, {⟨.reads, "Clock"⟩}, ∅, hcallee 0 (by decide), hcallee 1 (by decide), ?_, ?_, ?_⟩
  · rfl
  · rfl
  · simp

/-- `run(reader, quiet);` -/
def statementBody : Block := .mk [.expr runReaderQuiet] none

theorem conflict_in_statement_reported : Reported (readerProgram statementBody) ⟨(1, 0), [0, 0]⟩ := by
  have hwalk : Reported (readerProgram statementBody) ⟨(1, 0), [0, 0]⟩ ↔
      Conflicts (readerProgram statementBody) ⟨(1, 0), [0, 0]⟩ runReaderQuiet := by
    refine (conflict_reported_iff (f := ⟨"main", [], [], some statementBody⟩) rfl rfl rfl).mpr ?_
    intro _
    refine ⟨⟨[⟨"run", false, (0, 0), runFunction⟩], _, [], rfl, rfl, by simp⟩, ?_⟩
    simp [Entered, skipped, statementBody, Node.children, stmtChildren, Block.stmts, Block.finalExpr]
  exact hwalk.mpr (runReaderQuiet_conflicts statementBody _)

/-- `Job { state: run(reader, quiet) }` -/
def jobLiteral : Block := .mk [] (some (.structLiteral ["Job"] [.mk "state" runReaderQuiet] none))

theorem conflict_in_field_not_reported :
    functionAt (readerProgram jobLiteral).items (1, 0) = some ⟨"main", [], [], some jobLiteral⟩ ∧
      nodeAt (.block jobLiteral) [0, 0] = some (.expr runReaderQuiet) ∧
      Conflicts (readerProgram jobLiteral) ⟨(1, 0), [0, 0]⟩ runReaderQuiet ∧
      ¬ Reported (readerProgram jobLiteral) ⟨(1, 0), [0, 0]⟩ := by
  refine ⟨rfl, rfl, runReaderQuiet_conflicts jobLiteral _, ?_⟩
  rw [reported_iff (f := ⟨"main", [], [], some jobLiteral⟩) rfl rfl rfl]
  rintro ⟨-, hentered, -⟩
  have hfield := hentered.2 (.expr (.structLiteral ["Job"] [.mk "state" runReaderQuiet] none)) rfl
  cases hfield.1

end Karac.Effects
