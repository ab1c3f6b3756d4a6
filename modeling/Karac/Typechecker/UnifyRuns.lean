import Karac.Typechecker.Unified

/-! Sequences of `unify_types` calls from empty substitutions. -/

namespace Karac.Typechecker

open Filter Lib

section

variable {table : StdlibVariance} {n : ℕ} {V : MetavarScope} {θ : Solution} {R : Ty → Ty → Prop}
  (hR : ∀ t, R t (t.apply θ))
  (ih : ∀ s a b, s.Definite V → a.Definite V → b.Definite V →
    Grants V θ s (Unified table R (a.apply θ) (b.apply θ)) (unifyTypes table n s a b))

include ih

theorem grants_unifyTypeVar {s : Subst} (hs : s.Definite V) (id : ℕ) {other : Ty} (hid : id ∈ V.types)
    (ho : other.Definite V) :
    Grants V θ s (Unified table R (θ.ty id) (other.apply θ)) (unifyTypeVar (callsAt table n) s id other) := by
  intro s' heq
  obtain ⟨o, htop, h⟩ := ok_of_bind heq
  have hod := definite_top hs ho htop
  have hbind : s.types id = none → (do return (true, ← (callsAt table n).bind s id o) : Result) = .ok (true, s') →
      s'.Definite V ∧ Extends s s' ∧ (Solves θ s' → Unified table R (θ.ty id) (other.apply θ)) := by
    intro hnone h
    obtain ⟨s₁, hs₁, h⟩ := ok_of_bind h
    cases hs₁
    cases h
    have hext := extends_insert o hnone
    refine ⟨definite_insert hs hod, hext, fun hθ => ?_⟩
    rw [hθ.ty id o (types_insert_self s id o), apply_top (hθ.of_extends hext) htop]
    exact .refl _
  cases hcur : s.types id with
  | none =>
    rw [hcur] at h
    exact hbind hcur h
  | some cur =>
    rw [hcur] at h
    obtain ⟨c, hctop, h⟩ := ok_of_bind h
    have hcd := definite_top hs (hs.types id hid cur hcur) hctop
    have hne : ∀ {t : Ty}, t.Definite V → t ≠ .never := by
      rintro t ht rfl
      exact ht
    rw [if_neg fun h => hne hcd h.1, if_neg (hne hod)] at h
    obtain ⟨hd, he, hag⟩ := ih s c o hs hcd hod s' h
    refine ⟨hd, he, fun hθ => ?_⟩
    have hθs := hθ.of_extends he
    rw [hθs.ty id cur hcur, ← apply_top hθs hctop, ← apply_top hθs htop]
    exact hag hθ

include hR

/-- Neither side is a metavariable here, so an owned type is owned still when it is resolved. -/
theorem grants_unifyStructural {s : Subst} (hs : s.Definite V) (a b : Ty) (ha : a.Definite V) (hb : b.Definite V)
    (hvar : ∀ id, b ≠ .typeVar id) :
    Grants V θ s (Unified table R (a.apply θ) (b.apply θ)) (unifyStructural table (callsAt table n) s a b) := by
  have leaf : ∀ a b : Ty, Grants V θ s (Unified table R (a.apply θ) (b.apply θ)) (.ok (typesCompatible table a b, s)) :=
    fun a b => .ok hs fun h _ => .accepted h (hR a) (hR b)
  have call : ∀ x y, x.Definite V → y.Definite V →
      Grants V θ s (Unified table R (x.apply θ) (y.apply θ)) (unifyTypes table n s x y) :=
    fun x y hx hy => ih s x y hs hx hy
  have signatures : ∀ (a b : Ty) xp xr yp yr, (a.apply θ).signature = some (applyList θ xp, xr.apply θ) →
      (b.apply θ).signature = some (applyList θ yp, yr.apply θ) → definiteList V xp ∧ xr.Definite V →
      definiteList V yp ∧ yr.Definite V → Grants V θ s (Unified table R (a.apply θ) (b.apply θ))
        (if xp.length = yp.length then unifySignatures (callsAt table n) s xp xr yp yr
          else .ok (typesCompatible table a b, s)) := by
    intro a b xp xr yp yr hsa hsb hx hy
    split_ifs with hlen
    · exact (grants_unifySignatures ih hs xp xr yp yr hlen hx hy).mono fun _ h => .signature hsa hsb h.1 h.2
    · exact leaf a b
  cases a with
  | tuple xs =>
    cases b with
    | tuple ys =>
      change Grants V θ s _ (if xs.length = ys.length then _ else _)
      split_ifs with hlen
      · exact (grants_allPairs ih hs xs ys hlen ha hb).mono fun _ h => .tuple h
      · exact leaf _ _
    | _ => exact leaf _ _
  | named m xs =>
    cases b with
    | named m' ys =>
      change Grants V θ s _ (if m = m' ∧ xs.length = ys.length then _ else _)
      split_ifs with hsame
      · obtain ⟨rfl, hlen⟩ := hsame
        exact (grants_allPairs ih hs xs ys hlen ha hb).mono fun _ h => .named h
      · exact leaf _ _
    | _ => exact leaf _ _
  | ref x =>
    cases b with
    | ref y => exact (call x y ha hb).mono fun _ h => .ref h
    | mutRef y => exact leaf _ _
    | weak y => exact leaf _ _
    | typeVar id => exact absurd rfl (hvar id)
    | _ => exact (call x _ ha hb).mono fun _ h => .borrowed rfl h
  | mutRef x =>
    cases b with
    | ref y => exact leaf _ _
    | mutRef y => exact (call x y ha hb).mono fun _ h => .mutRef h
    | weak y => exact leaf _ _
    | typeVar id => exact absurd rfl (hvar id)
    | _ => exact (call x _ ha hb).mono fun _ h => .mutBorrowed rfl h
  | weak x =>
    cases b with
    | weak y => exact (call x y ha hb).mono fun _ h => .weak h
    | _ => exact leaf _ _
  | pointer xm x =>
    cases b with
    | pointer ym y =>
      change Grants V θ s _ (if xm = ym then _ else _)
      split_ifs with hsame
      · subst hsame
        exact (call x y ha hb).mono fun _ h => .pointer h
      · exact leaf _ _
    | _ => exact leaf _ _
  | array x xn =>
    cases b with
    | array y yn =>
      intro s' heq
      obtain ⟨⟨r, κ⟩, hκ, heq⟩ := ok_of_bind heq
      cases r with
      | false => cases heq
      | true =>
        have hg := grants_constArgs hs.consts ha.2 hb.2 hκ
        obtain ⟨hd, he, hag⟩ := ih { s with consts := κ } x y ⟨hs.types, hg.definite⟩ ha.1 hb.1 s' heq
        refine ⟨hd, ⟨he.types, fun id c hid => he.consts id c (hg.keeps id c hid)⟩, fun hθ => ?_⟩
        rw [Ty.apply, Ty.apply, hg.equal θ (hθ.of_extends he).const]
        exact .array (hag hθ)
    | _ => exact leaf _ _
  | shape xs =>
    cases b with
    | shape ys => exact grants_unifyShapes ih hs ha hb
    | _ => exact leaf _ _
  | slice x xm =>
    cases b with
    | slice y ym =>
      change Grants V θ s _ (if xm = ym then _ else _)
      split_ifs with hsame
      · subst hsame
        exact (call x y ha hb).mono fun _ h => .slice h
      · exact leaf _ _
    | _ => exact leaf _ _
  | function xp xr =>
    cases b with
    | function yp yr => exact signatures _ _ xp xr yp yr rfl rfl ha hb
    | onceFunction yp yr => exact signatures _ _ xp xr yp yr rfl rfl ha hb
    | _ => exact leaf _ _
  | onceFunction xp xr =>
    cases b with
    | function yp yr => exact signatures _ _ xp xr yp yr rfl rfl ha hb
    | onceFunction yp yr => exact signatures _ _ xp xr yp yr rfl rfl ha hb
    | _ => exact leaf _ _
  | _ => exact leaf _ _

theorem grants_unifyBody {s : Subst} (hs : s.Definite V) (a b : Ty) (ha : a.Definite V) (hb : b.Definite V) :
    Grants V θ s (Unified table R (a.apply θ) (b.apply θ)) (unifyBody table (callsAt table n) s a b) := by
  unfold unifyBody
  split
  · split_ifs with heq
    · refine .ok hs fun _ _ => ?_
      rw [heq]
      exact .refl _
    · exact grants_unifyTypeVar ih hs _ ha hb
  · split
    · exact (grants_unifyTypeVar ih hs _ hb ha).mono fun _ h => h.symm
    · rename_i hvar
      split_ifs with herr
      · refine .ok hs fun _ _ => .accepted ?_ (hR a) (hR b)
        rw [typesCompatible.eq_def]
        rcases herr with rfl | rfl <;> simp
      · exact grants_unifyStructural hR ih hs a b ha hb fun id h => hvar id h

end

/-- After a successful call on definite types, what solves the substitutions makes the two types agree. -/
theorem grants_unifyTypes {table : StdlibVariance} {V : MetavarScope} {θ : Solution} {R : Ty → Ty → Prop}
    (hR : ∀ t, R t (t.apply θ)) (n : ℕ) (s : Subst) (a b : Ty) (hs : s.Definite V) (ha : a.Definite V)
    (hb : b.Definite V) : Grants V θ s (Unified table R (a.apply θ) (b.apply θ)) (unifyTypes table n s a b) := by
  induction n generalizing s a b with
  | zero =>
    intro s' heq
    cases heq
  | succ n ih => exact grants_unifyBody hR ih hs a b ha hb

/-! Runs. -/

/-- An occurs check would stop none of the bindings that the call makes. -/
def PassesOccursCheck (table : StdlibVariance) (s : Subst) (a b : Ty) : Prop :=
  ∀ n, unifyChecked table n s a b ≠ .error .occurs

/-- A call of a run, whichever its answer. -/
def Step (table : StdlibVariance) (s s' : Subst) : Prop :=
  ∃ a b n r, PassesOccursCheck table s a b ∧ unifyTypes table n s a b = .ok (r, s')

def Reached (table : StdlibVariance) : Subst → Prop := Relation.ReflTransGen (Step table) .empty

def Resolved (names : MetavarNames) (s : Subst) (t t' : Ty) : Prop := ∃ n, resolveTypeVars names n s t = some t'

theorem Ready.mono {V W : Finset ℕ} {s : Subst} (h : Ready V s) (hVW : V ⊆ W) : Ready W s :=
  ⟨fun id t hid => ⟨hVW (h.within id t hid).1, fun v hv => hVW ((h.within id t hid).2 v hv)⟩, h.acyclic⟩

section

variable {table : StdlibVariance} {s : Subst}

/-- A call that an occurs check would not stop ends, and keeps the substitutions well-founded. -/
theorem call_ends {V : Finset ℕ} (hs : Ready V s) {a b : Ty} (h : PassesOccursCheck table s a b) :
    ∃ n r s', unifyTypes table n s a b = .ok (r, s') ∧ ∃ W, Ready W s' := by
  let W := V ∪ a.metavars.toFinset ∪ b.metavars.toFinset
  have hW : Ready W s := hs.mono fun v hv => by simp [W, hv]
  have ha : a.Within W := fun v hv => by simp [W, hv]
  have hb : b.Within W := fun v hv => by simp [W, hv]
  have hends : Ends fun n => unifyChecked table n s a b := ends_unifyChecked s a b hW ha hb
  obtain ⟨v, n, hfuel, hn⟩ := hends
  have hchecked := hn n le_rfl
  cases v with
  | error e =>
    cases e with
    | fuel => exact absurd rfl hfuel
    | occurs => exact absurd hchecked (h n)
  | ok r =>
    refine ⟨n, r.1, r.2, ?_, W, (moves_unifyChecked n s a b hW ha hb r.1 r.2 hchecked).ready⟩
    have hbind : ∀ s id t, EndsAs True (checkedBind s id t) (.ok (s.insert id t)) := by
      intro s id t
      unfold checkedBind
      split_ifs
      · exact .inr (.inl ⟨trivial, rfl⟩)
      · exact .refl _
    exact (endsAs_unifyTypesWith hbind le_rfl s a b).eq_of_ok hchecked

theorem ready_of_reached (h : Reached table s) : ∃ V, Ready V s := by
  induction h with
  | refl =>
    refine ⟨∅, fun id t hid => ?_, ⟨⟨fun x => ⟨x, ?_⟩⟩, ⟨fun x => ⟨x, ?_⟩⟩⟩⟩
    · cases hid
    · rintro y ⟨t, ht, -⟩
      cases ht
    · rintro y ⟨t, ht, -⟩
      cases ht
  | @tail s s' _ hstep ih =>
    obtain ⟨V, hV⟩ := ih
    obtain ⟨a, b, n, r, hpass, hcall⟩ := hstep
    obtain ⟨m, r', s'', hcall', W, hW⟩ := call_ends hV hpass
    cases unifyTypes_unique hcall hcall'
    exact ⟨W, hW⟩

theorem top_ends (hs : s.Acyclic) (t : Ty) : ∃ n t', resolveTypeVarTop n s t = .ok t' := by
  obtain ⟨ρ, hρ⟩ := exists_weighs hs
  obtain ⟨v, n, hfuel, hn⟩ := ends_top hρ t
  have htop : ∀ n t, resolveTypeVarTop n s t ≠ .error .occurs := by
    intro n
    induction n with
    | zero =>
      intro t h
      cases h
    | succ n ih =>
      intro t
      cases t with
      | typeVar id =>
        simp only [resolveTypeVarTop]
        split
        · exact ih _
        · intro h
          cases h
      | _ =>
        intro h
        cases h
  cases v with
  | ok t' => exact ⟨n, t', hn n le_rfl⟩
  | error e =>
    cases e with
    | fuel => exact absurd rfl hfuel
    | occurs => exact absurd (hn n le_rfl) (htop n t)

theorem exists_of_eventually {α : Type} {P : ℕ → α → Prop} {a : α} (h : ∀ᶠ n in atTop, P n a) : ∃ n, P n a :=
  let ⟨n, hn⟩ := eventually_atTop.mp h
  ⟨n, hn n le_rfl⟩

end

/-- Along every run of calls that an occurs check would not stop, the substitutions stay well-founded, so that
resolution and the next such call end; and after a call that returned true on types definite in whatever they stand for,
the two types resolve to types that agree part by part. -/
theorem unification_sound (table : StdlibVariance) (names : MetavarNames) {s : Subst} (hs : Reached table s) :
    s.Acyclic ∧ (∀ t, ∃ n t', resolveTypeVarTop n s t = .ok t') ∧ (∀ t, ∃ t', Resolved names s t t') ∧
      (∀ c, ∃ n c', resolveConstArg names n s.consts c = some c') ∧
      ∀ a b, PassesOccursCheck table s a b → ∃ n r s', unifyTypes table n s a b = .ok (r, s') ∧
        (r = true → ∀ V, s.Definite V → a.Definite V → b.Definite V →
          ∃ a' b', Resolved names s' a a' ∧ Resolved names s' b b' ∧ Unified table (Resolved names s') a' b') := by
  obtain ⟨V, hV⟩ := ready_of_reached hs
  obtain ⟨θ, hθ⟩ := exists_resolves names hV.acyclic
  have hres : ∀ t, Resolved names s t (t.apply θ) := fun t =>
    exists_of_eventually (P := fun n t' => resolveTypeVars names n s t = some t') (resolveTypeVars_eq hθ hV.acyclic t)
  have hconst : ∀ c, ∃ n, resolveConstArg names n s.consts c = some (c.apply θ) := fun c =>
    exists_of_eventually (P := fun n c' => resolveConstArg names n s.consts c = some c')
      (resolveConstArg_eq hθ hV.acyclic c)
  refine ⟨hV.acyclic, top_ends hV.acyclic, fun t => ⟨_, hres t⟩, fun c => ?_, fun a b hpass => ?_⟩
  · obtain ⟨n, hn⟩ := hconst c
    exact ⟨n, _, hn⟩
  · obtain ⟨n, r, s', hcall, W, hW⟩ := call_ends hV hpass
    refine ⟨n, r, s', hcall, ?_⟩
    rintro rfl V' hsd had hbd
    obtain ⟨θ', hθ'⟩ := exists_resolves names hW.acyclic
    have hres' : ∀ t, Resolved names s' t (t.apply θ') := fun t =>
      exists_of_eventually (P := fun n t' => resolveTypeVars names n s' t = some t')
        (resolveTypeVars_eq hθ' hW.acyclic t)
    exact ⟨_, _, hres' a, hres' b, (grants_unifyTypes hres' n s a b hsd had hbd s' hcall).2.2 hθ'.toSolves⟩

/-- With `?0` bound to `i64`, `?1` is unified with `Vec[?0]`. -/
theorem unification_sound_vec : ∃ s n s', Reached (fun _ => none) s ∧ s.types 0 = some (.int .i64) ∧
    unifyTypes (fun _ => none) n s (.typeVar 1) (.named "Vec" [.typeVar 0]) = .ok (true, s') ∧
      ∃ a' b', Resolved ⟨fun _ => none, fun _ => none⟩ s' (.typeVar 1) a' ∧
        Resolved ⟨fun _ => none, fun _ => none⟩ s' (.named "Vec" [.typeVar 0]) b' ∧
          Unified (fun _ => none) (Resolved ⟨fun _ => none, fun _ => none⟩ s') a' b' := by
  have hfree : ¬ Occurs typeVarsOf Subst.empty.types 0 (.int .i64) := by
    rintro ⟨v, hv, -⟩
    cases hv
  have hpass : PassesOccursCheck (fun _ => none) .empty (.typeVar 0) (.int .i64) := by
    intro n h
    rcases n with _ | _ | n
    · cases h
    · cases h
    · obtain ⟨s, hs, -⟩ : ∃ s, checkedBind .empty 0 (.int .i64) = .ok s ∧ True := ⟨_, if_neg hfree, trivial⟩
      change (checkedBind .empty 0 (.int .i64) >>= fun s => pure (true, s) : Result) = _ at h
      rw [hs] at h
      cases h
  have hreached : Reached (fun _ => none) (Subst.empty.insert 0 (.int .i64)) :=
    .single ⟨.typeVar 0, .int .i64, 2, true, hpass, rfl⟩
  have hfree' : ¬ Occurs typeVarsOf (Subst.empty.insert 0 (.int .i64)).types 1 (.named "Vec" [.typeVar 0]) := by
    rintro ⟨v, hv, hr⟩
    obtain rfl : v = 0 := by simpa [typeVarsOf, Ty.metavars, metavarsList] using hv
    rcases Relation.ReflTransGen.cases_head hr with h | ⟨w, ⟨t, ht, hw⟩, -⟩
    · cases h
    · cases ht
      cases hw
  have hpass' : PassesOccursCheck (fun _ => none) (Subst.empty.insert 0 (.int .i64)) (.typeVar 1)
      (.named "Vec" [.typeVar 0]) := by
    intro n h
    rcases n with _ | _ | n
    · cases h
    · cases h
    · change (checkedBind (Subst.empty.insert 0 (.int .i64)) 1 (.named "Vec" [.typeVar 0]) >>=
        fun s => pure (true, s) : Result) = _ at h
      unfold checkedBind at h
      rw [if_neg hfree'] at h
      cases h
  have hsound := unification_sound (fun _ => none) ⟨fun _ => none, fun _ => none⟩ hreached
  obtain ⟨n, r, s', hcall, hagree⟩ := hsound.2.2.2.2 _ _ hpass'
  have hdirect : unifyTypes (fun _ => none) 2 (Subst.empty.insert 0 (.int .i64)) (.typeVar 1)
      (.named "Vec" [.typeVar 0]) =
        .ok (true, (Subst.empty.insert 0 (.int .i64)).insert 1 (.named "Vec" [.typeVar 0])) := rfl
  obtain ⟨rfl, -⟩ := Prod.mk.inj (unifyTypes_unique hcall hdirect)
  refine ⟨_, n, s', hreached, rfl, hcall, hagree rfl ⟨{0, 1}, ∅⟩ ⟨?_, ?_⟩ ?_ ?_⟩
  · intro id hid t ht
    rcases hid with rfl | rfl
    · cases ht
      trivial
    · cases ht
  · intro id hid
    cases hid
  · exact Or.inr rfl
  · exact ⟨Or.inl rfl, trivial⟩

/-- Unifying two metavariables both ways round binds the second to itself, and following it never ends; and
`Vec[i64]` is unified with `Vec[u16]`, which no slot for it takes. -/
theorem unification_unsound :
    (∃ s s', unifyTypes (fun _ => none) 2 .empty (.typeVar 0) (.typeVar 1) = .ok (true, s) ∧
      unifyTypes (fun _ => none) 3 s (.typeVar 1) (.typeVar 0) = .ok (true, s') ∧ ¬ s'.Acyclic ∧
        ∀ n, resolveTypeVarTop n s' (.typeVar 1) = .error .fuel) ∧
    (∃ s, unifyTypes (fun _ => none) 2 .empty (.named "Vec" [.int .i64]) (.named "Vec" [.uint .u16]) = .ok (true, s) ∧
      (∀ names n, resolveTypeVars names (n + 2) s (.named "Vec" [.int .i64]) = some (.named "Vec" [.int .i64])) ∧
      (∀ names n, resolveTypeVars names (n + 2) s (.named "Vec" [.uint .u16]) = some (.named "Vec" [.uint .u16])) ∧
        typesCompatible (fun _ => none) (.named "Vec" [.int .i64]) (.named "Vec" [.uint .u16]) = false) := by
  constructor
  · refine ⟨Subst.empty.insert 0 (.typeVar 1), (Subst.empty.insert 0 (.typeVar 1)).insert 1 (.typeVar 1), rfl, rfl,
      fun h => ?_, fun n => ?_⟩
    · have hself : Mentions typeVarsOf ((Subst.empty.insert 0 (.typeVar 1)).insert 1 (.typeVar 1)).types 1 1 :=
        ⟨.typeVar 1, rfl, List.mem_singleton_self 1⟩
      exact h.types.irrefl.irrefl 1 hself
    · induction n with
      | zero => rfl
      | succ n ih => exact ih
  · have hleaf : typesCompatible (fun _ => none) (.int .i64) (.uint .u16) = true := by
      rw [typesCompatible.eq_def]
      simp
    refine ⟨.empty, ?_, fun names n => rfl, fun names n => rfl, ?_⟩
    · change ((.ok (typesCompatible (fun _ => none) (.int .i64) (.uint .u16), Subst.empty) : Result) >>= fun r =>
        if r.1 then Except.ok (true, r.2) else return (false, r.2) : Result) = _
      rw [hleaf]
      rfl
    · have hargs : genericArgCompatible (fun _ => none) (slotVariance (fun _ => none) "Vec" 0) (.int .i64)
          (.uint .u16) = false := by
        rw [genericArgCompatible.eq_def]
        simp [layoutsDiffer]
      rw [typesCompatible_named]
      simp [argsCompatible, hargs]

end Karac.Typechecker
