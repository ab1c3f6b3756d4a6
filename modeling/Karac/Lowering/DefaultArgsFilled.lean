import Karac.Lowering.DefaultArgs

/-! A completed argument list binds each argument to the parameter it is for and is labeled as calls have to be. A spliced
default is worth what it is worth at its declaration as long as no local of the call has one of its names. -/

namespace Karac.Lowering

open Karac.Ast

/-! Which parameter an argument is for. -/

/-- The next argument is for this parameter: by position, or by name. -/
def Takes (param : ParamDefault) : List CallArg → Prop
  | [] => False
  | arg :: _ => arg.label = none ∨ arg.label = param.name

open Classical in
/-- The parameter at an index is left out: the next argument, if any, is for a later one. -/
noncomputable def IsSkipped : List ParamDefault → List CallArg → ℕ → Prop
  | [], _, _ => False
  | param :: _, args, 0 => ¬Takes param args
  | param :: params, args, k + 1 => IsSkipped params (if Takes param args then args.tail else args) k

/-- How parameters are matched with arguments. After the first parameter that is named or left out no argument goes by
position. -/
inductive Places : Bool → List ParamDefault → List CallArg → List CallArg → Prop
  | done {seen : Bool} : Places seen [] [] []
  | positional {param : ParamDefault} {params : List ParamDefault} {arg : CallArg} {args out : List CallArg}
      (h : arg.label = none) (rest : Places false params args out) : Places false (param :: params) (arg :: args) (arg :: out)
  | named {seen : Bool} {param : ParamDefault} {params : List ParamDefault} {arg : CallArg} {args out : List CallArg}
      {label : String} (h : arg.label = some label) (hname : param.name = some label) (rest : Places true params args out) :
      Places seen (param :: params) (arg :: args) (arg :: out)
  | omitted {seen : Bool} {param : ParamDefault} {params : List ParamDefault} {args out : List CallArg} {default : Expr}
      (hdefault : param.default = some default) (hnext : ¬Takes param args) (rest : Places true params args out) :
      Places seen (param :: params) args (synthesizeArg default param.name :: out)

theorem Places.of_true {seen : Bool} {params : List ParamDefault} {args out : List CallArg} (h : Places true params args out) :
    Places seen params args out := by
  cases h with
  | done => exact .done
  | named h hname rest => exact .named h hname rest
  | omitted hdefault hnext rest => exact .omitted hdefault hnext rest

section

variable {seen : Bool} {params : List ParamDefault} {args out : List CallArg}

theorem Places.length (h : Places seen params args out) : out.length = params.length := by
  induction h with
  | done => rfl
  | positional _ _ ih | named _ _ _ ih | omitted _ _ _ ih => rw [List.length_cons, List.length_cons, ih]

theorem takes_of_none {param : ParamDefault} {arg : CallArg} (h : arg.label = none) : Takes param (arg :: args) := Or.inl h

theorem takes_of_label {param : ParamDefault} {arg : CallArg} {label : String} (h : arg.label = some label)
    (hname : param.name = some label) : Takes param (arg :: args) := Or.inr (h.trans hname.symm)

/-- What is left out has its default in its place. -/
theorem Places.skipped (h : Places seen params args out) {k : ℕ} (hk : IsSkipped params args k) :
    ∃ param default, params[k]? = some param ∧ param.default = some default ∧
      out[k]? = some (synthesizeArg default param.name) := by
  induction h generalizing k with
  | done => exact hk.elim
  | positional h _ ih =>
    cases k with
    | zero => exact absurd (takes_of_none h) hk
    | succ k =>
      rw [IsSkipped, if_pos (takes_of_none h)] at hk
      exact ih hk
  | named h hname _ ih =>
    cases k with
    | zero => exact absurd (takes_of_label h hname) hk
    | succ k =>
      rw [IsSkipped, if_pos (takes_of_label h hname)] at hk
      exact ih hk
  | @omitted _ param _ _ _ default hdefault hnext _ ih =>
    cases k with
    | zero => exact ⟨param, default, rfl, hdefault, rfl⟩
    | succ k =>
      rw [IsSkipped, if_neg hnext] at hk
      exact ih hk

/-- Where the arguments go: in order, an unlabeled one to its position, a labeled one to a parameter of the name, and
to all parameters that are not left out. -/
structure Bound (params : List ParamDefault) (args out : List CallArg) (place : ℕ → ℕ) : Prop where
  increasing : ∀ a b, a < b → b < args.length → place a < place b
  written : ∀ a arg, args[a]? = some arg → out[place a]? = some arg
  positional : ∀ a arg, args[a]? = some arg → arg.label = none → place a = a
  named : ∀ a arg label, args[a]? = some arg → arg.label = some label →
    ∃ param, params[place a]? = some param ∧ param.name = some label
  skipped : ∀ k < params.length, IsSkipped params args k ↔ ∀ a < args.length, place a ≠ k

/-- After the first parameter that is named or left out all arguments are labeled. -/
theorem Places.labeled (h : Places true params args out) {a : ℕ} {arg : CallArg} (ha : args[a]? = some arg) :
    arg.label ≠ none := by
  generalize hseen : true = seen at h
  induction h generalizing a with
  | done => exact absurd ha (by simp)
  | positional => exact absurd hseen (by simp)
  | @named _ _ _ first _ _ _ h _ _ ih =>
    cases a with
    | zero =>
      obtain rfl : first = arg := Option.some.inj ha
      rw [h]
      simp
    | succ a => exact ih ha rfl
  | omitted _ _ _ ih => exact ih ha rfl

/-- The first argument goes to the first parameter, the others as they go without the two. -/
def placeNext (place : ℕ → ℕ) : ℕ → ℕ
  | 0 => 0
  | a + 1 => place a + 1

theorem Bound.next {param : ParamDefault} {arg : CallArg} {place : ℕ → ℕ} (h : Bound params args out place)
    (htakes : Takes param (arg :: args)) (hname : ∀ label, arg.label = some label → param.name = some label) :
    Bound (param :: params) (arg :: args) (arg :: out) (placeNext place) where
  increasing a b hab hb := by
    cases b with
    | zero => omega
    | succ b =>
      cases a with
      | zero => exact Nat.succ_pos _
      | succ a => exact Nat.succ_lt_succ (h.increasing a b (by omega) (by simpa using hb))
  written a arg' ha := by
    cases a with
    | zero => exact ha
    | succ a => exact h.written a arg' ha
  positional a arg' ha hlabel := by
    cases a with
    | zero => rfl
    | succ a => exact congrArg (· + 1) (h.positional a arg' ha hlabel)
  named a arg' label ha hlabel := by
    cases a with
    | zero =>
      obtain rfl : arg = arg' := Option.some.inj ha
      exact ⟨param, rfl, hname label hlabel⟩
    | succ a => exact h.named a arg' label ha hlabel
  skipped k hk := by
    cases k with
    | zero => exact ⟨fun hnot => absurd htakes hnot, fun hall => absurd rfl (hall 0 (Nat.succ_pos _))⟩
    | succ k =>
      rw [IsSkipped, if_pos htakes, List.tail_cons, h.skipped k (by simpa using hk)]
      constructor
      · intro hall a ha heq
        cases a with
        | zero => exact absurd heq (by simp [placeNext])
        | succ a => exact hall a (by simpa using ha) (Nat.succ.inj heq)
      · exact fun hall a ha heq => hall (a + 1) (by simpa using ha) (congrArg (· + 1) heq)

theorem Bound.omit {param : ParamDefault} {arg : CallArg} {place : ℕ → ℕ} (h : Bound params args out place)
    (hnext : ¬Takes param args) (hlabeled : ∀ (a : ℕ) (other : CallArg), args[a]? = some other → other.label ≠ none) :
    Bound (param :: params) args (arg :: out) fun a => place a + 1 where
  increasing a b hab hb := Nat.succ_lt_succ (h.increasing a b hab hb)
  written a arg' ha := h.written a arg' ha
  positional a arg' ha hlabel := absurd hlabel (hlabeled a arg' ha)
  named a arg' label ha hlabel := h.named a arg' label ha hlabel
  skipped k hk := by
    cases k with
    | zero => exact ⟨fun _ a _ heq => absurd heq (Nat.succ_ne_zero _), fun _ => hnext⟩
    | succ k =>
      rw [IsSkipped, if_neg hnext, h.skipped k (by simpa using hk)]
      exact forall₂_congr fun a _ => not_congr (by omega)

theorem Places.bound (h : Places seen params args out) : ∃ place, Bound params args out place := by
  induction h with
  | done => exact ⟨id, by simp, by simp, by simp, by simp, by simp⟩
  | positional h _ ih =>
    obtain ⟨place, hplace⟩ := ih
    exact ⟨_, hplace.next (takes_of_none h) fun label hlabel => absurd (h.symm.trans hlabel) (by simp)⟩
  | named h hname _ ih =>
    obtain ⟨place, hplace⟩ := ih
    exact ⟨_, hplace.next (takes_of_label h hname) fun label hlabel => hname.trans (h.symm.trans hlabel)⟩
  | omitted _ hnext rest ih =>
    obtain ⟨place, hplace⟩ := ih
    exact ⟨_, hplace.omit hnext fun a arg ha => rest.labeled ha⟩

/-- From the first parameter that is named or left out on each argument has its parameter's name for a label, if there is
one. -/
theorem Places.labels (h : Places seen params args out) : ∃ first, (seen = true → first = 0) ∧
    (∀ k arg, out[k]? = some arg → k < first → arg.label = none) ∧
    ∀ k arg, out[k]? = some arg → first ≤ k → ∃ param, params[k]? = some param ∧ arg.label = param.name ∧
      (arg.label = none → IsSkipped params args k) := by
  induction h with
  | done => exact ⟨0, fun _ => rfl, by simp, by simp⟩
  | @positional param params arg args out h _ ih =>
    obtain ⟨first, -, hbefore, hafter⟩ := ih
    refine ⟨first + 1, by simp, fun k arg' hk hlt => ?_, fun k arg' hk hle => ?_⟩
    · cases k with
      | zero =>
        obtain rfl : arg = arg' := Option.some.inj hk
        exact h
      | succ k => exact hbefore k arg' hk (by omega)
    · obtain ⟨k, rfl⟩ : ∃ j, k = j + 1 := ⟨k - 1, by omega⟩
      obtain ⟨p, hp, hlabel, hskip⟩ := hafter k arg' hk (by omega)
      refine ⟨p, hp, hlabel, fun hnone => ?_⟩
      rw [IsSkipped, if_pos (takes_of_none h)]
      exact hskip hnone
  | @named seen param params arg args out label h hname _ ih =>
    obtain ⟨first, hzero, -, hafter⟩ := ih
    refine ⟨0, fun _ => rfl, by simp, fun k arg' hk _ => ?_⟩
    cases k with
    | zero =>
      obtain rfl : arg = arg' := Option.some.inj hk
      exact ⟨param, rfl, h.trans hname.symm, fun hnone => absurd (h.symm.trans hnone) (by simp)⟩
    | succ k =>
      obtain ⟨p, hp, hlabel, hskip⟩ := hafter k arg' hk (by rw [hzero rfl]; exact Nat.zero_le _)
      refine ⟨p, hp, hlabel, fun hnone => ?_⟩
      rw [IsSkipped, if_pos (takes_of_label h hname)]
      exact hskip hnone
  | @omitted seen param params args out default hdefault hnext _ ih =>
    obtain ⟨first, hzero, -, hafter⟩ := ih
    refine ⟨0, fun _ => rfl, by simp, fun k arg' hk _ => ?_⟩
    cases k with
    | zero =>
      obtain rfl : synthesizeArg default param.name = arg' := Option.some.inj hk
      exact ⟨param, rfl, rfl, fun _ => hnext⟩
    | succ k =>
      obtain ⟨p, hp, hlabel, hskip⟩ := hafter k arg' hk (by rw [hzero rfl]; exact Nat.zero_le _)
      refine ⟨p, hp, hlabel, fun hnone => ?_⟩
      rw [IsSkipped, if_neg hnext]
      exact hskip hnone

end

/-! The loop. -/

section

variable {info : FnDefaultInfo} {st st' : FillState}

/-- A parameter with the default that is spliced in for it. -/
abbrev Splice := ParamDefault × Expr

def Splice.arg (s : Splice) : CallArg := synthesizeArg s.2 s.1.name

/-- What a splice adds. -/
structure Spliced (info : FnDefaultInfo) (st st' : FillState) (added : List Splice) : Prop where
  params : info.drop st.cursor = added.map Prod.fst ++ info.drop st'.cursor
  default : ∀ s ∈ added, s.1.default = some s.2
  out : st'.out = st.out ++ added.map Splice.arg
  cursor : st'.cursor = st.cursor + added.length
  seenLabel : st'.seenLabel = st.seenLabel
  indices : ∀ i, i ∈ st'.spliced ↔ i ∈ st.spliced ∨ st.out.length ≤ i ∧ i < st.out.length + added.length

theorem splice_spec {count : ℕ} (h : splice info count st = some st') : ∃ added, added.length = count ∧ Spliced info st st' added := by
  induction count generalizing st with
  | zero =>
    obtain rfl := Option.some.inj h
    exact ⟨[], rfl, rfl, by simp, by simp, rfl, rfl, fun i => by simp⟩
  | succ count ih =>
    rw [splice] at h
    split at h
    · rename_i param hparam
      split at h
      · rename_i default hdefault
        obtain ⟨added, hlen, hsp⟩ := ih h
        have hdrop : info.drop st.cursor = param :: info.drop (st.cursor + 1) := by
          obtain ⟨hlt, rfl⟩ := List.getElem?_eq_some_iff.mp hparam
          exact List.drop_eq_getElem_cons hlt
        refine ⟨(param, default) :: added, by rw [List.length_cons, hlen], ?_, ?_, ?_, ?_, hsp.seenLabel, fun i => ?_⟩
        · rw [hdrop, hsp.params]
          rfl
        · exact List.forall_mem_cons.mpr ⟨hdefault, hsp.default⟩
        · rw [hsp.out]
          simp [Splice.arg]
        · have hcursor : st'.cursor = st.cursor + 1 + added.length := hsp.cursor
          rw [hcursor, List.length_cons]
          omega
        · rw [hsp.indices]
          simp only [List.length_append, List.length_cons, List.length_nil, List.mem_append, List.mem_singleton]
          constructor
          · rintro ((h | rfl) | h)
            · exact Or.inl h
            · exact Or.inr ⟨le_rfl, by omega⟩
            · exact Or.inr (by omega)
          · rintro (h | ⟨hle, hlt⟩)
            · exact Or.inl (Or.inl h)
            · rcases Nat.eq_or_lt_of_le hle with rfl | hlt'
              · exact Or.inl (Or.inr rfl)
              · exact Or.inr (by omega)
      · exact absurd h (by simp)
    · exact absurd h (by simp)

/-- Parameters that no argument is for are left out. -/
theorem Places.omit_many {seen : Bool} {params : List ParamDefault} {args out : List CallArg} (added : List Splice)
    (hdefault : ∀ s ∈ added, s.1.default = some s.2) (hnext : ∀ s ∈ added, ¬Takes s.1 args)
    (h : Places true params args out) :
    Places seen (added.map Prod.fst ++ params) args (added.map Splice.arg ++ out) := by
  induction added generalizing seen with
  | nil => exact h.of_true
  | cons s added ih =>
    obtain ⟨hd, hdefault⟩ := List.forall_mem_cons.mp hdefault
    obtain ⟨hn, hnext⟩ := List.forall_mem_cons.mp hnext
    exact .omitted hd hn (ih hdefault hnext)

theorem isSkipped_append {params : List ParamDefault} {args : List CallArg} (added : List ParamDefault)
    (hnext : ∀ p ∈ added, ¬Takes p args) {k : ℕ} (h : IsSkipped (added ++ params) args k) :
    k < added.length ∨ ∃ j, k = added.length + j ∧ IsSkipped params args j := by
  induction added generalizing k with
  | nil => exact Or.inr ⟨k, by simp, h⟩
  | cons p added ih =>
    obtain ⟨hp, hnext⟩ := List.forall_mem_cons.mp hnext
    cases k with
    | zero => exact Or.inl (Nat.succ_pos _)
    | succ k =>
      rw [List.cons_append, IsSkipped, if_neg hp] at h
      rcases ih hnext h with hlt | ⟨j, rfl, hj⟩
      · exact Or.inl (by simpa using hlt)
      · exact Or.inr ⟨j, by rw [List.length_cons]; omega, hj⟩

theorem stepsTo_spec {label : String} {params : List ParamDefault} {count : ℕ} (h : stepsTo label params = some count) :
    ∃ before param after, params = before ++ param :: after ∧ before.length = count ∧ param.name = some label ∧
      ∀ p ∈ before, p.name ≠ some label := by
  induction params generalizing count with
  | nil => exact absurd h (by simp [stepsTo])
  | cons param params ih =>
    rw [stepsTo] at h
    split at h
    · rename_i hname
      obtain rfl := Option.some.inj h
      exact ⟨[], param, params, rfl, rfl, hname, by simp⟩
    · rename_i hname
      obtain ⟨count, hcount, rfl⟩ := Option.map_eq_some_iff.mp h
      obtain ⟨before, found, after, rfl, hlen, hfound, hbefore⟩ := ih hcount
      exact ⟨param :: before, found, after, rfl, by rw [List.length_cons, hlen], hfound,
        List.forall_mem_cons.mpr ⟨hname, hbefore⟩⟩

/-- A labeled argument: what is left out before it, its parameter, and the state after it. -/
theorem fillArg_labeled {arg : CallArg} {label : String} (hlabel : arg.label = some label)
    (h : fillArg info arg st = some st') :
    ∃ (added : List Splice) (param : ParamDefault), (∀ s ∈ added, s.1.default = some s.2) ∧ (∀ s ∈ added, s.1.name ≠ some label) ∧ param.name = some label ∧
      info.drop st.cursor = added.map Prod.fst ++ param :: info.drop st'.cursor ∧
      st'.out = st.out ++ added.map Splice.arg ++ [arg] ∧ st'.cursor = st.cursor + added.length + 1 ∧ st'.seenLabel = true ∧
      ∀ i, i ∈ st'.spliced ↔ i ∈ st.spliced ∨ st.out.length ≤ i ∧ i < st.out.length + added.length := by
  unfold fillArg at h
  rw [hlabel] at h
  obtain ⟨count, hcount, h⟩ := Option.bind_eq_some_iff.mp h
  obtain ⟨mid, hmid, rfl⟩ := Option.map_eq_some_iff.mp h
  obtain ⟨before, param, after, hsplit, hlen, hname, hbefore⟩ := stepsTo_spec hcount
  obtain ⟨added, hadded, hsp⟩ := splice_spec hmid
  obtain ⟨hfst, hrest⟩ := List.append_inj (hsplit.symm.trans hsp.params) (by rw [List.length_map, hlen, hadded])
  have hafter : info.drop (mid.cursor + 1) = after := by
    rw [← List.drop_drop, ← hrest]
    rfl
  refine ⟨added, param, hsp.default, fun s hs => ?_, hname, ?_, ?_, ?_, hsp.seenLabel, hsp.indices⟩
  · exact hbefore s.1 (hfst ▸ List.mem_map_of_mem hs)
  · rw [hsplit, hfst, hafter]
  · rw [hsp.out]
  · rw [hsp.cursor]

/-- The loop and the splice after it match the parameters with the arguments. -/
theorem fillArgs_places {args : List CallArg} {mid : FillState} (hfill : fillArgs info args st = some mid)
    (hsplice : splice info (info.length - mid.cursor) mid = some st') (hlen : st.out.length = st.cursor) :
    ∃ out, st'.out = st.out ++ out ∧ Places st.seenLabel (info.drop st.cursor) args out ∧
      (∀ i ∈ st.spliced, i ∈ st'.spliced) ∧ ∀ k, IsSkipped (info.drop st.cursor) args k → st.cursor + k ∈ st'.spliced := by
  induction args generalizing st with
  | nil =>
    obtain rfl := Option.some.inj hfill
    obtain ⟨added, hadded, hsp⟩ := splice_spec hsplice
    have hend : info.drop st'.cursor = [] := List.drop_eq_nil_of_le (by rw [hsp.cursor]; omega)
    have hparams := hsp.params
    rw [hend] at hparams
    rw [hparams]
    have hnext : ∀ s ∈ added, ¬Takes s.1 [] := fun s _ h => h
    refine ⟨added.map Splice.arg, hsp.out, ?_, fun i hi => (hsp.indices i).mpr (Or.inl hi), fun k hk => ?_⟩
    · simpa using Places.omit_many added hsp.default hnext (.done : Places true [] [] [])
    · rcases isSkipped_append (added.map Prod.fst) (by simp [Takes]) hk with hlt | ⟨j, -, hj⟩
      · rw [List.length_map] at hlt
        exact (hsp.indices _).mpr (Or.inr (by omega))
      · exact hj.elim
  | cons arg args ih =>
    obtain ⟨next, hnext, hrest⟩ := Option.bind_eq_some_iff.mp hfill
    cases hlabel : arg.label with
    | none =>
      unfold fillArg at hnext
      rw [hlabel] at hnext
      dsimp only at hnext
      split at hnext
      · exact absurd hnext (by simp)
      · rename_i hcond
        push Not at hcond
        obtain rfl := Option.some.inj hnext
        obtain ⟨out, hout, hplaces, hold, hskipped⟩ := ih hrest (by simp [hlen])
        have hseen : st.seenLabel = false := by simpa using hcond.1
        have hdrop : info.drop st.cursor = info[st.cursor] :: info.drop (st.cursor + 1) := List.drop_eq_getElem_cons hcond.2
        rw [hdrop, hseen]
        refine ⟨arg :: out, by simpa using hout, .positional hlabel (by simpa [hseen] using hplaces), hold, fun k hk => ?_⟩
        cases k with
        | zero => exact absurd (takes_of_none hlabel) hk
        | succ k =>
          rw [IsSkipped, if_pos (takes_of_none hlabel)] at hk
          have hmem := hskipped k hk
          rwa [Nat.add_right_comm] at hmem
    | some label =>
      obtain ⟨added, param, hdefault, hother, hname, hdrop, hout', hcursor, hseen, hindices⟩ := fillArg_labeled hlabel hnext
      have hlen' : next.out.length = next.cursor := by
        rw [hout', hcursor]
        simp
        omega
      obtain ⟨out, hout, hplaces, hold, hskipped⟩ := ih hrest hlen'
      have htakes : ∀ s ∈ added, ¬Takes s.1 (arg :: args) := by
        rintro s hs (h | h)
        · exact absurd (hlabel.symm.trans h) (by simp)
        · exact hother s hs (h.symm.trans hlabel)
      rw [hdrop]
      rw [hseen] at hplaces
      refine ⟨added.map Splice.arg ++ arg :: out, by rw [hout, hout']; simp, ?_, ?_, fun k hk => ?_⟩
      · exact Places.omit_many added hdefault htakes (.named hlabel hname hplaces)
      · exact fun i hi => hold i ((hindices i).mpr (Or.inl hi))
      · have htakes' : ∀ p ∈ added.map Prod.fst, ¬Takes p (arg :: args) := by
          intro p hp
          obtain ⟨s, hs, rfl⟩ := List.mem_map.mp hp
          exact htakes s hs
        rcases isSkipped_append _ htakes' hk with hlt | ⟨j, rfl, hj⟩
        · rw [List.length_map] at hlt
          exact hold _ ((hindices _).mpr (Or.inr (by omega)))
        · cases j with
          | zero => exact absurd (takes_of_label hlabel hname) hj
          | succ j =>
            rw [IsSkipped, if_pos (takes_of_label hlabel hname)] at hj
            have hmem := hskipped j hj
            rw [List.length_map]
            rwa [hcursor, show st.cursor + added.length + 1 + j = st.cursor + (added.length + (j + 1)) by omega] at hmem

/-- What a completed list is: the arguments in place of the parameters that they are for, defaults in place of the others,
and labels on all of the latter if on any argument. -/
theorem tryFill_places {args out : List CallArg} (h : tryFill info args = some out) :
    Places false info args out ∧ (anyLabeled out = true → ∀ k arg, IsSkipped info args k → out[k]? = some arg → arg.label ≠ none) := by
  unfold tryFill at h
  split at h
  · exact absurd h (by simp)
  · obtain ⟨mid, hmid, h⟩ := Option.bind_eq_some_iff.mp h
    obtain ⟨last, hlast, h⟩ := Option.bind_eq_some_iff.mp h
    split at h
    · exact absurd h (by simp)
    · split at h
      · exact absurd h (by simp)
      · rename_i hpolicy
        obtain rfl := Option.some.inj h
        obtain ⟨out, hout, hplaces, -, hskipped⟩ := fillArgs_places hmid hlast rfl
        rw [List.nil_append] at hout
        rw [hout] at hpolicy ⊢
        refine ⟨hplaces, fun hany k arg hk harg hnone => hpolicy ?_⟩
        rw [hany, Bool.true_and]
        have hmem := hskipped k hk
        rw [Nat.zero_add] at hmem
        exact List.any_eq_true.mpr ⟨k, hmem, by simp [harg, hnone]⟩

end

/-! What a spliced default is worth. -/

section

variable {V : Type*} {meaning : Meaning V} {s t : String → Option V}

mutual

/-- A value depends on the names of the expression only. -/
theorem constValue_congr : ∀ e : Expr, (∀ name ∈ constNames e, s name = t name) →
    constValue meaning s e = constValue meaning t e := fun e h => by
  cases e with
  | identifier name => exact h name (List.mem_singleton_self name)
  | unary op operand => rw [constValue, constValue, constValue_congr operand h]
  | binary op left right =>
    obtain ⟨hleft, hright⟩ := List.forall_mem_append.mp h
    rw [constValue, constValue, constValue_congr left hleft, constValue_congr right hright]
  | tuple elems => rw [constValue, constValue, constValues_congr elems h]
  | arrayLiteral elems => rw [constValue, constValue, constValues_congr elems h]
  | structLiteral path fields spread =>
    cases spread with
    | none => rw [constValue, constValue, constFields_congr fields h]
    | some spread => rfl
  | call callee args =>
    obtain ⟨hcallee, hargs⟩ := List.forall_mem_append.mp h
    rw [constValue, constValue, constValue_congr callee hcallee, constArgs_congr args hargs]
  | _ => rfl

theorem constValues_congr : ∀ es : List Expr, (∀ name ∈ namesOfElems es, s name = t name) →
    constValues meaning s es = constValues meaning t es
  | [], _ => rfl
  | e :: es, h => by
    obtain ⟨he, hes⟩ := List.forall_mem_append.mp h
    rw [constValues, constValues, constValue_congr e he, constValues_congr es hes]

theorem constFields_congr : ∀ fields : List FieldInit, (∀ name ∈ namesOfFields fields, s name = t name) →
    constFields meaning s fields = constFields meaning t fields
  | [], _ => rfl
  | .mk _ e :: fields, h => by
    obtain ⟨he, hfields⟩ := List.forall_mem_append.mp h
    rw [constFields, constFields, constValue_congr e he, constFields_congr fields hfields]

theorem constArgs_congr : ∀ args : List CallArg, (∀ name ∈ namesOfArgs args, s name = t name) →
    constArgs meaning s args = constArgs meaning t args
  | [], _ => rfl
  | .mk _ _ e :: args, h => by
    obtain ⟨he, hargs⟩ := List.forall_mem_append.mp h
    rw [constArgs, constArgs, constValue_congr e he, constArgs_congr args hargs]

end

mutual

/-- All names of an expression that has a value have one. -/
theorem constValue_defined : ∀ (e : Expr) {v : V}, constValue meaning s e = some v → ∀ name ∈ constNames e, s name ≠ none :=
    fun e v h => by
  cases e with
  | identifier name =>
    rw [constValue] at h
    exact List.forall_mem_singleton.mpr (by simp [h])
  | unary op operand =>
    obtain ⟨a, ha, -⟩ := Option.bind_eq_some_iff.mp h
    exact constValue_defined operand ha
  | binary op left right =>
    obtain ⟨a, ha, h⟩ := Option.bind_eq_some_iff.mp h
    obtain ⟨b, hb, -⟩ := Option.bind_eq_some_iff.mp h
    exact List.forall_mem_append.mpr ⟨constValue_defined left ha, constValue_defined right hb⟩
  | tuple elems =>
    obtain ⟨vs, hvs, -⟩ := Option.map_eq_some_iff.mp h
    exact constValues_defined elems hvs
  | arrayLiteral elems =>
    obtain ⟨vs, hvs, -⟩ := Option.map_eq_some_iff.mp h
    exact constValues_defined elems hvs
  | structLiteral path fields spread =>
    cases spread with
    | none =>
      obtain ⟨tag, -, h⟩ := Option.bind_eq_some_iff.mp h
      obtain ⟨vs, hvs, -⟩ := Option.bind_eq_some_iff.mp h
      exact constFields_defined fields hvs
    | some spread => exact fun _ hmem => nomatch hmem
  | call callee args =>
    obtain ⟨ctor, hctor, h⟩ := Option.bind_eq_some_iff.mp h
    obtain ⟨vs, hvs, -⟩ := Option.bind_eq_some_iff.mp h
    exact List.forall_mem_append.mpr ⟨constValue_defined callee hctor, constArgs_defined args hvs⟩
  | _ => exact fun _ hmem => nomatch hmem

theorem constValues_defined : ∀ (es : List Expr) {vs : List V}, constValues meaning s es = some vs →
    ∀ name ∈ namesOfElems es, s name ≠ none
  | [], _, _ => fun _ hmem => nomatch hmem
  | e :: es, _, h => by
    obtain ⟨v, hv, h⟩ := Option.bind_eq_some_iff.mp h
    obtain ⟨vs, hvs, -⟩ := Option.map_eq_some_iff.mp h
    exact List.forall_mem_append.mpr ⟨constValue_defined e hv, constValues_defined es hvs⟩

theorem constFields_defined : ∀ (fields : List FieldInit) {vs : List (String × V)}, constFields meaning s fields = some vs →
    ∀ name ∈ namesOfFields fields, s name ≠ none
  | [], _, _ => fun _ hmem => nomatch hmem
  | .mk _ e :: fields, _, h => by
    obtain ⟨v, hv, h⟩ := Option.bind_eq_some_iff.mp h
    obtain ⟨vs, hvs, -⟩ := Option.map_eq_some_iff.mp h
    exact List.forall_mem_append.mpr ⟨constValue_defined e hv, constFields_defined fields hvs⟩

theorem constArgs_defined : ∀ (args : List CallArg) {vs : List V}, constArgs meaning s args = some vs →
    ∀ name ∈ namesOfArgs args, s name ≠ none
  | [], _, _ => fun _ hmem => nomatch hmem
  | .mk _ _ e :: args, _, h => by
    obtain ⟨v, hv, h⟩ := Option.bind_eq_some_iff.mp h
    obtain ⟨vs, hvs, -⟩ := Option.map_eq_some_iff.mp h
    exact List.forall_mem_append.mpr ⟨constValue_defined e hv, constArgs_defined args hvs⟩

end

variable {locals : List String}

/-- Where no local has a name of the expression it is worth the same. -/
theorem constValue_callScope (values : String → Option V) {e : Expr} (h : ∀ name ∈ constNames e, name ∉ locals) :
    constValue meaning (callScope locals values s) e = constValue meaning s e :=
  constValue_congr e fun name hmem => if_neg (h name hmem)

/-- A name that a local without a value hides leaves the expression without one. -/
theorem constValue_hidden {e : Expr} {v : V} (h : constValue meaning (callScope locals (fun _ => none) s) e = some v) :
    ∀ name ∈ constNames e, name ∉ locals :=
  fun name hmem hlocal => constValue_defined e h name hmem (if_pos hlocal)

end

/-! The rewritten call. -/

section

variable {filler : Filler} {info : FnDefaultInfo} {args out : List CallArg}

theorem isShadowed_iff {name : String} : filler.isShadowed name = true ↔ name ∈ filler.scopes.flatten := by
  simp [Filler.isShadowed, List.mem_flatten]

/-- No label up to some argument, and from it on the labels of the parameters in their order. -/
def LabelsInOrder (info : FnDefaultInfo) (out : List CallArg) : Prop :=
  ∃ first, (∀ (k : ℕ) (arg : CallArg), out[k]? = some arg → k < first → arg.label = none) ∧
    ∀ (k : ℕ) (arg : CallArg), out[k]? = some arg → first ≤ k →
      ∃ (param : ParamDefault) (label : String), info[k]? = some param ∧ param.name = some label ∧ arg.label = some label

/-- The parameter at an index is left out and has this default. -/
def LeftOut (info : FnDefaultInfo) (args : List CallArg) (k : ℕ) (default : Expr) : Prop :=
  IsSkipped info args k ∧ ∃ param : ParamDefault, info[k]? = some param ∧ param.default = some default

/-- The meaning of a call is preserved: one argument for each parameter, the arguments in the places that they are for,
labels as in a call that is written out, and the value that the default has at its declaration for each parameter that is
left out, whatever the values of the locals, if they have one yet. -/
structure Preserved {V : Type*} (meaning : Meaning V) (scope : String → Option V) (filler : Filler) (info : FnDefaultInfo)
    (args out : List CallArg) : Prop where
  length : out.length = info.length
  bound : ∃ place, Bound info args out place
  labels : LabelsInOrder info out
  values : ∀ k default v, LeftOut info args k default → constValue meaning scope default = some v →
    ∃ arg : CallArg, out[k]? = some arg ∧
      ∀ values, constValue meaning (callScope filler.scopes.flatten values scope) arg.value = some v

theorem tryFill_length (h : tryFill info args = some out) : out.length = info.length := (tryFill_places h).1.length

theorem tryFill_bound (h : tryFill info args = some out) : ∃ place, Bound info args out place := (tryFill_places h).1.bound

theorem tryFill_labels (h : tryFill info args = some out) : LabelsInOrder info out := by
  obtain ⟨hplaces, hpolicy⟩ := tryFill_places h
  by_cases hany : anyLabeled out = true
  · obtain ⟨first, -, hbefore, hafter⟩ := hplaces.labels
    refine ⟨first, hbefore, fun k arg hk hle => ?_⟩
    obtain ⟨param, hparam, hlabel, hskipped⟩ := hafter k arg hk hle
    cases hname : param.name with
    | none =>
      have hnone := hlabel.trans hname
      exact absurd hnone (hpolicy hany k arg (hskipped hnone) hk)
    | some label => exact ⟨param, label, hparam, hname, hlabel.trans hname⟩
  · refine ⟨out.length, fun k arg hk _ => ?_, fun k arg hk hle => ?_⟩
    · by_contra hne
      exact hany (List.any_eq_true.mpr ⟨arg, List.mem_of_getElem? hk, Option.isSome_iff_ne_none.mpr hne⟩)
    · rw [List.getElem?_eq_none hle] at hk
      exact absurd hk (by simp)

theorem tryFill_leftOut (h : tryFill info args = some out) {k : ℕ} {default : Expr} (hk : LeftOut info args k default) :
    ∃ arg : CallArg, out[k]? = some arg ∧ arg.value = default := by
  obtain ⟨hskipped, param, hparam, hdefault⟩ := hk
  obtain ⟨param', default', hparam', hdefault', harg⟩ := (tryFill_places h).1.skipped hskipped
  obtain rfl := Option.some.inj (hparam.symm.trans hparam')
  obtain rfl := Option.some.inj (hdefault.symm.trans hdefault')
  exact ⟨_, harg, rfl⟩

/-- A completed call means what the call meant exactly where no local hides a name of a default that is spliced in. The
pass asks this of the name of the callee only. -/
theorem preserved_iff {V : Type*} {meaning : Meaning V} {scope : String → Option V} (filler : Filler)
    (h : tryFill info args = some out) : Preserved meaning scope filler info args out ↔
      ∀ k default, LeftOut info args k default → constValue meaning scope default ≠ none →
        ∀ name ∈ constNames default, filler.isShadowed name = false := by
  constructor
  · intro hpreserved k default hk hsome name hmem
    obtain ⟨v, hv⟩ := Option.ne_none_iff_exists'.mp hsome
    obtain ⟨arg, harg, hvalues⟩ := hpreserved.values k default v hk hv
    obtain ⟨arg', harg', rfl⟩ := tryFill_leftOut h hk
    obtain rfl := Option.some.inj (harg.symm.trans harg')
    have hlocal := constValue_hidden (hvalues fun _ => none) name hmem
    exact Bool.eq_false_iff.mpr (mt isShadowed_iff.mp hlocal)
  · intro hcond
    refine ⟨tryFill_length h, tryFill_bound h, tryFill_labels h, fun k default v hk hv => ?_⟩
    obtain ⟨arg, harg, rfl⟩ := tryFill_leftOut h hk
    refine ⟨arg, harg, fun values => (constValue_callScope values fun name hmem hlocal => ?_).trans hv⟩
    have hshadowed := hcond k arg.value hk (by simp [hv]) name hmem
    exact absurd (isShadowed_iff.mpr hlocal) (Bool.eq_false_iff.mp hshadowed)

end

/-! A call that captures a name: `let LIMIT = 7` and `fn f(a, b = LIMIT)` in the module, and `f(1)` under a local `LIMIT`. -/

/-- Numbers, with sums only. -/
def numbers : Meaning ℤ where
  literal
    | .integer value => value
    | _ => 0
  item _ := none
  unary _ _ := none
  binary
    | .add, a, b => some (a + b)
    | _, _, _ => none
  tuple _ := 0
  array _ := 0
  struct _ _ := none
  construct _ _ := none

def limitScope (name : String) : Option ℤ := if name = "LIMIT" then some 7 else none

def limitParams : FnDefaultInfo := [⟨some "a", none⟩, ⟨some "b", some (.identifier "LIMIT")⟩]

def oneArg : List CallArg := [.mk none false (.integer 1)]

def underLocals (locals : List String) : Filler where
  table name := if name = "f" then some limitParams else none
  assoc _ := none
  scopes := [locals]

def limitFilled : List CallArg := [.mk none false (.integer 1), .mk (some "b") false (.identifier "LIMIT")]

theorem limit_skipped : IsSkipped limitParams oneArg 1 := by
  rw [limitParams, oneArg, IsSkipped, if_pos (takes_of_none rfl)]
  exact id

theorem preserved_iff_limit : tryFill limitParams oneArg = some limitFilled ∧
    Preserved numbers limitScope (underLocals ["other"]) limitParams oneArg limitFilled := by
  have hfill : tryFill limitParams oneArg = some limitFilled := by rfl
  refine ⟨hfill, (preserved_iff _ hfill).mpr fun k default hk _ name hmem => ?_⟩
  obtain ⟨-, param, hparam, hdefault⟩ := hk
  have hlt := (List.getElem?_eq_some_iff.mp hparam).1
  obtain rfl | rfl : k = 0 ∨ k = 1 := by
    simp only [limitParams, List.length_cons, List.length_nil] at hlt
    omega
  · obtain rfl := Option.some.inj hparam
    exact absurd hdefault (by simp)
  · obtain rfl := Option.some.inj hparam
    obtain rfl := Option.some.inj hdefault
    obtain rfl := List.mem_singleton.mp hmem
    decide

/-- The default is the local's 100 in the call, and 7 where it is declared. -/
theorem limit_captured : (underLocals ["LIMIT"]).fillCall (.identifier "f") oneArg = limitFilled ∧
    tryFill limitParams oneArg = some limitFilled ∧ constValue numbers limitScope (.identifier "LIMIT") = some 7 ∧
    constValue numbers (callScope ["LIMIT"] (fun _ => some 100) limitScope) (.identifier "LIMIT") = some 100 ∧
    ¬Preserved numbers limitScope (underLocals ["LIMIT"]) limitParams oneArg limitFilled := by
  refine ⟨by rfl, by rfl, by rfl, by rfl, fun hpreserved => ?_⟩
  obtain ⟨arg, harg, hvalues⟩ := hpreserved.values 1 (.identifier "LIMIT") 7 ⟨limit_skipped, _, rfl, rfl⟩ (by rfl)
  obtain rfl := Option.some.inj harg
  have hvalue : some (100 : ℤ) = some 7 := hvalues fun _ => some 100
  exact absurd hvalue (by decide)

end Karac.Lowering
