import Karac.Typechecker.Acceptance
import Karac.Typechecker.UnifySolves

/-! What unified types have in common once their metavariables are resolved. -/

namespace Karac.Typechecker

open Lib (ok_of_bind)

/-- Not a borrow: what a borrowing slot takes as it is. -/
def Ty.isOwned : Ty → Bool
  | .ref _ => false
  | .mutRef _ => false
  | .weak _ => false
  | _ => true

/-- Two resolved types agree part by part, down to parts one of which `types_compatible` accepts for the other as they
stood before resolution. Function types may be of either kind, and an owned type stands for its borrow. -/
inductive Unified (table : StdlibVariance) (resolved : Ty → Ty → Prop) : Ty → Ty → Prop
  | refl (t : Ty) : Unified table resolved t t
  | symm {x y : Ty} : Unified table resolved x y → Unified table resolved y x
  | accepted {x y x' y' : Ty} :
      typesCompatible table x y = true → resolved x x' → resolved y y' → Unified table resolved x' y'
  | tuple {xs ys : List Ty} : List.Forall₂ (Unified table resolved) xs ys → Unified table resolved (.tuple xs) (.tuple ys)
  | named {name : String} {xs ys : List Ty} :
      List.Forall₂ (Unified table resolved) xs ys → Unified table resolved (.named name xs) (.named name ys)
  | array {x y : Ty} {size : ConstArg} :
      Unified table resolved x y → Unified table resolved (.array x size) (.array y size)
  | slice {x y : Ty} {mutable : Bool} :
      Unified table resolved x y → Unified table resolved (.slice x mutable) (.slice y mutable)
  | ref {x y : Ty} : Unified table resolved x y → Unified table resolved (.ref x) (.ref y)
  | mutRef {x y : Ty} : Unified table resolved x y → Unified table resolved (.mutRef x) (.mutRef y)
  | weak {x y : Ty} : Unified table resolved x y → Unified table resolved (.weak x) (.weak y)
  | pointer {isMut : Bool} {x y : Ty} :
      Unified table resolved x y → Unified table resolved (.pointer isMut x) (.pointer isMut y)
  | signature {a b : Ty} {xp yp : List Ty} {xr yr : Ty} : a.signature = some (xp, xr) → b.signature = some (yp, yr) →
      List.Forall₂ (Unified table resolved) xp yp → Unified table resolved xr yr → Unified table resolved a b
  | borrowed {x y : Ty} : y.isOwned → Unified table resolved x y → Unified table resolved (.ref x) y
  | mutBorrowed {x y : Ty} : y.isOwned → Unified table resolved x y → Unified table resolved (.mutRef x) y
  | spliceVar (p q : List DimArg) (id : ℕ) {x : Ty} {dims : List DimArg} : Unified table resolved x (.shape dims) →
      Unified table resolved (.shape (p ++ (spliceDims id x ++ q))) (.shape (p ++ (dims ++ q)))
  /-- A named splice stands for any dims. -/
  | splice (p q : List DimArg) (name : String) (dims : List DimArg) :
      Unified table resolved (.shape (p ++ .splice name :: q)) (.shape (p ++ (dims ++ q)))

/-- Metavariables of both kinds. -/
structure MetavarScope where
  types : Set ℕ
  consts : Set ℕ

def ConstArg.Definite (V : MetavarScope) : ConstArg → Prop
  | .constVar id => id ∈ V.consts
  | .dynamicDim => False
  | _ => True

def DimArg.Definite (V : MetavarScope) : DimArg → Prop
  | .const c => c.Definite V
  | .dynamic => False
  | .splice _ => True
  | .spliceVar id => id ∈ V.types

mutual

/-- No `Never` and no dynamic dim at the places unification reaches, at most one splice a shape, and no metavariables
but those of `V`. -/
def Ty.Definite (V : MetavarScope) : Ty → Prop
  | .never => False
  | .typeVar id => id ∈ V.types
  | .tuple es => definiteList V es
  | .array e n => e.Definite V ∧ n.Definite V
  | .slice e _ => e.Definite V
  | .named _ args => definiteList V args
  | .function ps r => definiteList V ps ∧ r.Definite V
  | .onceFunction ps r => definiteList V ps ∧ r.Definite V
  | .ref x => x.Definite V
  | .mutRef x => x.Definite V
  | .weak x => x.Definite V
  | .pointer _ x => x.Definite V
  | .shape dims => (∀ d ∈ dims, d.Definite V) ∧ dims.countP DimArg.isSplice ≤ 1
  | _ => True

def definiteList (V : MetavarScope) : List Ty → Prop
  | [] => True
  | t :: ts => t.Definite V ∧ definiteList V ts

end

def constsDefinite (V : MetavarScope) (κ : ConstSubst) : Prop := ∀ id ∈ V.consts, ∀ c, κ id = some c → c.Definite V

/-- What the metavariables of `V` are bound to is definite too. -/
structure Subst.Definite (V : MetavarScope) (s : Subst) : Prop where
  types : ∀ id ∈ V.types, ∀ t, s.types id = some t → t.Definite V
  consts : constsDefinite V s.consts

/-- Every binding is still there. -/
structure Extends (s s' : Subst) : Prop where
  types : ∀ id t, s.types id = some t → s'.types id = some t
  consts : ∀ id c, s.consts id = some c → s'.consts id = some c

theorem Extends.refl (s : Subst) : Extends s s := ⟨fun _ _ h => h, fun _ _ h => h⟩

theorem Extends.trans {s s' s'' : Subst} (h : Extends s s') (h' : Extends s' s'') : Extends s s'' :=
  ⟨fun id t hid => h'.types id t (h.types id t hid), fun id c hid => h'.consts id c (h.consts id c hid)⟩

theorem Solves.of_extends {θ : Solution} {s s' : Subst} (hθ : Solves θ s') (h : Extends s s') : Solves θ s :=
  ⟨fun id t hid => hθ.ty id t (h.types id t hid), fun id t hid => hθ.splice id t (h.types id t hid),
    fun id c hid => hθ.const id c (h.consts id c hid)⟩

/-! The const side. -/

section

variable {V : MetavarScope} {κ κ' : ConstSubst}

theorem definite_constTop (hκ : constsDefinite V κ) {n : ℕ} {c c' : ConstArg} (hc : c.Definite V)
    (h : resolveConstVarTop n κ c = .ok c') : c'.Definite V := by
  induction n generalizing c with
  | zero => cases h
  | succ n ih =>
    cases c with
    | constVar id =>
      simp only [resolveConstVarTop] at h
      split at h
      · rename_i u hu
        exact ih (hκ id hc u hu) h
      · cases h
        exact hc
    | _ =>
      cases h
      exact hc

/-- What a successful call on the const side does to bindings without a dynamic dim. -/
structure ConstGrants (V : MetavarScope) (κ κ' : ConstSubst) (a b : ConstArg) : Prop where
  definite : constsDefinite V κ'
  keeps : ∀ id c, κ id = some c → κ' id = some c
  equal : ∀ θ : Solution, (∀ id c, κ' id = some c → θ.const id = c.apply θ) → a.apply θ = b.apply θ

theorem ConstGrants.refl (hκ : constsDefinite V κ) (a : ConstArg) : ConstGrants V κ κ a a :=
  ⟨hκ, fun _ _ h => h, fun _ _ => rfl⟩

theorem grants_constVar {n : ℕ} {id : ℕ} {other : ConstArg} (hκ : constsDefinite V κ) (hid : id ∈ V.consts)
    (ho : other.Definite V)
    (ih : ∀ κ' a b, a.Definite V → b.Definite V → unifyConstArgs n κ a b = .ok (true, κ') → ConstGrants V κ κ' a b)
    (h : unifyConstVar (resolveConstVarTop n) (unifyConstArgs n) κ id other = .ok (true, κ')) :
    ConstGrants V κ κ' (.constVar id) other := by
  obtain ⟨c, hc, h⟩ := ok_of_bind h
  have hcd := definite_constTop hκ ho hc
  cases hb : κ id with
  | none =>
    simp only [hb] at h
    split_ifs at h with hself
    · cases h
      refine ⟨hκ, fun _ _ h => h, fun θ hθ => ?_⟩
      rw [← apply_constTop hθ hc, hself]
    · cases h
      have hkeep : ∀ x u, κ x = some u → Function.update κ id (some c) x = some u := by
        intro x u hx
        have hne : x ≠ id := by
          rintro rfl
          rw [hb] at hx
          cases hx
        rwa [Function.update_of_ne hne]
      refine ⟨fun x hx u hu => ?_, hkeep, fun θ hθ => ?_⟩
      · by_cases hxid : x = id
        · subst hxid
          rw [Function.update_self] at hu
          cases hu
          exact hcd
        · rw [Function.update_of_ne hxid] at hu
          exact hκ x hx u hu
      · rw [← apply_constTop (fun x u hx => hθ x u (hkeep x u hx)) hc]
        exact hθ id c (Function.update_self ..)
  | some bound =>
    have hbd := hκ id hid bound hb
    have hne : bound ≠ .dynamicDim := by
      rintro rfl
      exact hbd
    have hcall : unifyConstArgs n κ bound c = .ok (true, κ') := by
      simp only [hb] at h
      exact h
    have hg := ih κ' bound c hbd hcd hcall
    refine ⟨hg.definite, hg.keeps, fun θ hθ => ?_⟩
    have hκθ : ∀ x u, κ x = some u → θ.const x = u.apply θ := fun x u hx => hθ x u (hg.keeps x u hx)
    rw [← apply_constTop hκθ hc, ← hg.equal θ hθ]
    exact hκθ id bound hb

theorem grants_constArgs {n : ℕ} {a b : ConstArg} (hκ : constsDefinite V κ) (ha : a.Definite V) (hb : b.Definite V)
    (h : unifyConstArgs n κ a b = .ok (true, κ')) : ConstGrants V κ κ' a b := by
  induction n generalizing κ' a b with
  | zero => cases h
  | succ n ih =>
    have calls : ∀ κ' a b, a.Definite V → b.Definite V → unifyConstArgs n κ a b = .ok (true, κ') →
        ConstGrants V κ κ' a b := fun κ' a b ha hb h => ih ha hb h
    unfold unifyConstArgs at h
    split at h
    · split_ifs at h with heq
      · cases h
        rw [heq]
        exact .refl hκ _
      · exact grants_constVar hκ ha hb calls h
    · split at h
      · have hg := grants_constVar hκ hb ha calls h
        exact ⟨hg.definite, hg.keeps, fun θ hθ => (hg.equal θ hθ).symm⟩
      · obtain ⟨hr, rfl⟩ := Prod.mk.inj (Except.ok.inj h)
        rcases of_decide_eq_true hr with rfl | rfl | rfl
        · exact absurd ha id
        · exact absurd hb id
        · exact .refl hκ _

end

/-! Types. -/

/-- A successful result keeps every binding and leaves them definite, and whatever solves them meets `P`. -/
def Grants (V : MetavarScope) (θ : Solution) (s : Subst) (P : Prop) (x : Result) : Prop :=
  ∀ s', x = .ok (true, s') → s'.Definite V ∧ Extends s s' ∧ (Solves θ s' → P)

section

variable {V : MetavarScope} {θ : Solution} {s s' : Subst} {P Q : Prop} {x : Result}

theorem Grants.ok (hs : s.Definite V) {r : Bool} (h : r = true → Solves θ s → P) : Grants V θ s P (.ok (r, s)) := by
  intro s' heq
  obtain ⟨hr, rfl⟩ := Prod.mk.inj (Except.ok.inj heq)
  exact ⟨hs, .refl s, h hr⟩

theorem Grants.mono (hPQ : Solves θ s → P → Q) (h : Grants V θ s P x) : Grants V θ s Q x := by
  intro s' heq
  obtain ⟨hd, he, hp⟩ := h s' heq
  exact ⟨hd, he, fun hθ => hPQ (hθ.of_extends he) (hp hθ)⟩

theorem Grants.bind {f : Bool × Subst → Result} (hx : Grants V θ s P x)
    (hf : ∀ s', s'.Definite V → Grants V θ s' Q (f (true, s'))) (hfalse : ∀ s', f (false, s') = .ok (false, s')) :
    Grants V θ s (P ∧ Q) (x >>= f) := by
  intro s'' heq
  obtain ⟨⟨r, s'⟩, hr, h⟩ := ok_of_bind heq
  cases r with
  | false =>
    rw [hfalse] at h
    cases h
  | true =>
    obtain ⟨hd, he, hp⟩ := hx s' hr
    obtain ⟨hd', he', hq⟩ := hf s' hd s'' h
    exact ⟨hd', he.trans he', fun hθ => ⟨hp (hθ.of_extends he'), hq hθ⟩⟩

theorem definite_top (hs : s.Definite V) {n : ℕ} {t t' : Ty} (ht : t.Definite V)
    (h : resolveTypeVarTop n s t = .ok t') : t'.Definite V := by
  induction n generalizing t with
  | zero => cases h
  | succ n ih =>
    cases t with
    | typeVar id =>
      rw [Ty.Definite] at ht
      simp only [resolveTypeVarTop] at h
      split at h
      · rename_i u hu
        exact ih (hs.types id ht u hu) h
      · cases h
        rwa [Ty.Definite]
    | _ =>
      cases h
      exact ht

theorem extends_insert {id : ℕ} (t : Ty) (hid : s.types id = none) : Extends s (s.insert id t) := by
  refine ⟨fun x u hx => ?_, fun _ _ h => h⟩
  have hne : x ≠ id := by
    rintro rfl
    rw [hid] at hx
    cases hx
  rwa [types_insert_of_ne s t hne]

theorem definite_insert (hs : s.Definite V) {id : ℕ} {t : Ty} (ht : t.Definite V) : (s.insert id t).Definite V := by
  refine ⟨fun x hx u hu => ?_, hs.consts⟩
  by_cases hxid : x = id
  · subst hxid
    rw [types_insert_self] at hu
    cases hu
    exact ht
  · rw [types_insert_of_ne s t hxid] at hu
    exact hs.types x hx u hu

end

/-- The calls of `unify_types` at depth `n`. -/
def callsAt (table : StdlibVariance) (n : ℕ) : Calls :=
  ⟨fun s id t => .ok (s.insert id t), resolveTypeVarTop n, unifyConstArgs n, unifyTypes table n⟩

section

variable {table : StdlibVariance} {n : ℕ} {V : MetavarScope} {θ : Solution} {R : Ty → Ty → Prop}
  (ih : ∀ s a b, s.Definite V → a.Definite V → b.Definite V →
    Grants V θ s (Unified table R (a.apply θ) (b.apply θ)) (unifyTypes table n s a b))

include ih

theorem grants_allPairs {s : Subst} (hs : s.Definite V) (xs ys : List Ty) (hlen : xs.length = ys.length)
    (hx : definiteList V xs) (hy : definiteList V ys) :
    Grants V θ s (List.Forall₂ (Unified table R) (applyList θ xs) (applyList θ ys))
      (allPairs (unifyTypes table n) s xs ys) := by
  induction xs generalizing s ys with
  | nil =>
    cases ys with
    | nil => exact .ok hs fun _ _ => .nil
    | cons y ys => cases hlen
  | cons x xs ihx =>
    cases ys with
    | nil => cases hlen
    | cons y ys =>
      rw [definiteList] at hx hy
      have hboth : Grants V θ s (Unified table R (x.apply θ) (y.apply θ) ∧
          List.Forall₂ (Unified table R) (applyList θ xs) (applyList θ ys))
          (allPairs (unifyTypes table n) s (x :: xs) (y :: ys)) :=
        (ih s x y hs hx.1 hy.1).bind (fun s' hs' => ihx hs' ys (Nat.succ.inj hlen) hx.2 hy.2) fun _ => rfl
      exact hboth.mono fun _ h => .cons h.1 h.2

theorem grants_unifySignatures {s : Subst} (hs : s.Definite V) (xp : List Ty) (xr : Ty) (yp : List Ty) (yr : Ty)
    (hlen : xp.length = yp.length) (hx : definiteList V xp ∧ xr.Definite V) (hy : definiteList V yp ∧ yr.Definite V) :
    Grants V θ s (List.Forall₂ (Unified table R) (applyList θ xp) (applyList θ yp) ∧
      Unified table R (xr.apply θ) (yr.apply θ)) (unifySignatures (callsAt table n) s xp xr yp yr) :=
  (grants_allPairs ih hs xp yp hlen hx.1 hy.1).bind (fun s' hs' => ih s' xr yr hs' hx.2 hy.2) fun _ => rfl

omit ih in
theorem grants_dim {s : Subst} (hs : s.Definite V) {x y : DimArg} (hx : x.Definite V) (hy : y.Definite V)
    (hxs : x.isSplice = false) (hys : y.isSplice = false) :
    Grants V θ s (x.apply θ = y.apply θ) ((callsAt table n).dim s x y) := by
  intro s' heq
  obtain ⟨⟨r, κ⟩, hr, h⟩ := ok_of_bind heq
  obtain ⟨hrt, rfl⟩ := Prod.mk.inj (Except.ok.inj h)
  change r = true at hrt
  subst hrt
  cases x with
  | const c =>
    cases y with
    | const d =>
      have hg := grants_constArgs hs.consts hx hy hr
      refine ⟨⟨hs.types, hg.definite⟩, ⟨fun _ _ h => h, hg.keeps⟩, fun hθ => ?_⟩
      rw [DimArg.apply, DimArg.apply, hg.equal θ hθ.const]
    | dynamic => exact absurd hy id
    | splice _ => cases hys
    | spliceVar _ => cases hys
  | dynamic => exact absurd hx id
  | splice _ => cases hxs
  | spliceVar _ => cases hxs

omit ih in
theorem grants_allDims {s : Subst} (hs : s.Definite V) {xs ys : List DimArg} (hlen : xs.length = ys.length)
    (hx : ∀ d ∈ xs, d.Definite V ∧ d.isSplice = false) (hy : ∀ d ∈ ys, d.Definite V ∧ d.isSplice = false) :
    Grants V θ s (xs.flatMap (DimArg.apply θ) = ys.flatMap (DimArg.apply θ)) (allDims (callsAt table n) s xs ys) := by
  induction xs generalizing s ys with
  | nil =>
    cases ys with
    | nil => exact .ok hs fun _ _ => rfl
    | cons y ys => cases hlen
  | cons x xs ihx =>
    cases ys with
    | nil => cases hlen
    | cons y ys =>
      obtain ⟨hxd, hxs⟩ := List.forall_mem_cons.mp hx
      obtain ⟨hyd, hys⟩ := List.forall_mem_cons.mp hy
      have hhead : Grants V θ s (x.apply θ = y.apply θ) ((callsAt table n).dim s x y) :=
        grants_dim hs hxd.1 hyd.1 hxd.2 hyd.2
      have hboth : Grants V θ s (x.apply θ = y.apply θ ∧
          xs.flatMap (DimArg.apply θ) = ys.flatMap (DimArg.apply θ)) (allDims (callsAt table n) s (x :: xs) (y :: ys)) :=
        hhead.bind (fun s' hs' => ihx hs' (Nat.succ.inj hlen) hxs hys) fun _ => rfl
      apply hboth.mono
      intro _ h
      rw [List.flatMap_cons, List.flatMap_cons, h.1, h.2]

/-- A splice metavariable ends bound, so it stands for the dims its type has. -/
theorem grants_spliceVar {s : Subst} (hs : s.Definite V) (id : ℕ) (dims : List DimArg) (hid : id ∈ V.types)
    (hd : (Ty.shape dims).Definite V) :
    Grants V θ s (∃ x, θ.splice id = spliceDims id x ∧ Unified table R x (.shape (dims.flatMap (DimArg.apply θ))))
      (unifyTypes table n s (.typeVar id) (.shape dims)) := by
  intro s' heq
  obtain ⟨hdef, hext, hag⟩ := ih s (.typeVar id) (.shape dims) hs (by rwa [Ty.Definite]) hd s' heq
  refine ⟨hdef, hext, fun hθ => ⟨θ.ty id, ?_, ?_⟩⟩
  · have hbound : ∃ t, s'.types id = some t := by
      cases hb : s.types id with
      | some t => exact ⟨t, hext.types id t hb⟩
      | none =>
        cases n with
        | zero => cases heq
        | succ m =>
          obtain ⟨o, ho, h⟩ := ok_of_bind (show unifyTypeVar (callsAt table m) s id (.shape dims) = .ok (true, s') from heq)
          rw [hb] at h
          obtain ⟨s₁, hs₁, h⟩ := ok_of_bind h
          cases hs₁
          cases h
          exact ⟨o, types_insert_self s id o⟩
    obtain ⟨t, ht⟩ := hbound
    rw [hθ.splice id t ht, hθ.ty id t ht]
  · have h := hag hθ
    rwa [Ty.apply, Ty.apply] at h

theorem grants_unifySplices {s : Subst} (hs : s.Definite V) {x y : DimArg} (hx : x.Definite V) (hy : y.Definite V) :
    Grants V θ s (∀ p q, Unified table R (.shape (p ++ (x.apply θ ++ q))) (.shape (p ++ (y.apply θ ++ q))))
      (unifySplices (callsAt table n) s x y) := by
  have bind : ∀ id name, id ∈ V.types → Grants V θ s
      (∀ p q, Unified table R (.shape (p ++ (θ.splice id ++ q))) (.shape (p ++ ([.splice name] ++ q))))
      (unifyTypes table n s (.typeVar id) (.shape [.splice name])) := by
    intro id name hid
    have hd : (Ty.shape [.splice name]).Definite V := by simp [Ty.Definite, DimArg.Definite, DimArg.isSplice]
    refine (grants_spliceVar ih hs id [.splice name] hid hd).mono fun _ hbound p q => ?_
    obtain ⟨x, hx, hag⟩ := hbound
    rw [hx]
    exact .spliceVar p q id hag
  unfold unifySplices
  split
  · refine .ok hs fun h _ p q => ?_
    rw [of_decide_eq_true h]
    exact .refl _
  · refine .ok hs fun h _ p q => ?_
    rw [of_decide_eq_true h]
    exact .refl _
  · exact bind _ _ hx
  · exact (bind _ _ hy).mono fun _ h p q => (h p q).symm
  · exact .ok hs fun h => absurd h Bool.false_ne_true

theorem grants_bothSpliced {s : Subst} (hs : s.Definite V) {pre pre' post post' : List DimArg} {x y : DimArg}
    (hpre : pre.length = pre'.length) (hpost : post.length = post'.length)
    (hp : ∀ d ∈ pre, d.Definite V ∧ d.isSplice = false) (hp' : ∀ d ∈ pre', d.Definite V ∧ d.isSplice = false)
    (hx : x.Definite V) (hy : y.Definite V)
    (hq : ∀ d ∈ post, d.Definite V ∧ d.isSplice = false) (hq' : ∀ d ∈ post', d.Definite V ∧ d.isSplice = false) :
    Grants V θ s (∀ p, Unified table R (.shape (p ++ (pre ++ x :: post).flatMap (DimArg.apply θ)))
      (.shape (p ++ (pre' ++ y :: post').flatMap (DimArg.apply θ))))
      (bothSpliced (callsAt table n) pre.length s (pre ++ x :: post) (pre' ++ y :: post')) := by
  induction pre generalizing s pre' with
  | nil =>
    cases pre' with
    | cons e es => cases hpre
    | nil =>
      have hboth : Grants V θ s
          ((∀ p q, Unified table R (.shape (p ++ (x.apply θ ++ q))) (.shape (p ++ (y.apply θ ++ q)))) ∧
            post.flatMap (DimArg.apply θ) = post'.flatMap (DimArg.apply θ))
          (bothSpliced (callsAt table n) 0 s (x :: post) (y :: post')) :=
        (grants_unifySplices ih hs hx hy).bind (fun s' hs' => grants_allDims hs' hpost hq hq') fun _ => rfl
      refine hboth.mono fun _ h p => ?_
      rw [List.nil_append, List.nil_append, List.flatMap_cons, List.flatMap_cons, h.2]
      exact h.1 p _
  | cons d pre ihp =>
    cases pre' with
    | nil => cases hpre
    | cons e pre' =>
      obtain ⟨hd, hp⟩ := List.forall_mem_cons.mp hp
      obtain ⟨he, hp'⟩ := List.forall_mem_cons.mp hp'
      have hhead : Grants V θ s (d.apply θ = e.apply θ) ((callsAt table n).dim s d e) :=
        grants_dim hs hd.1 he.1 hd.2 he.2
      have hboth : Grants V θ s (d.apply θ = e.apply θ ∧
          ∀ p, Unified table R (.shape (p ++ (pre ++ x :: post).flatMap (DimArg.apply θ)))
            (.shape (p ++ (pre' ++ y :: post').flatMap (DimArg.apply θ))))
          (bothSpliced (callsAt table n) (pre.length + 1) s (d :: (pre ++ x :: post)) (e :: (pre' ++ y :: post'))) :=
        hhead.bind (fun s' hs' => ihp hs' (Nat.succ.inj hpre) hp hp') fun _ => rfl
      refine hboth.mono fun _ h p => ?_
      rw [List.cons_append, List.cons_append, List.flatMap_cons, List.flatMap_cons, h.1, ← List.append_assoc,
        ← List.append_assoc]
      exact h.2 _

omit ih in
/-- The dims around the only splice. -/
theorem splice_split {x : List DimArg} {pos : ℕ} (hx : (Ty.shape x).Definite V) (hpos : splicePos x = some pos) :
    ∃ pre d post, x = pre ++ d :: post ∧ pre.length = pos ∧ d.Definite V ∧ d.isSplice = true ∧
      (∀ e ∈ pre, e.Definite V ∧ e.isSplice = false) ∧ ∀ e ∈ post, e.Definite V ∧ e.isSplice = false := by
  obtain ⟨hlt, hd, hbefore⟩ := List.findIdx?_eq_some_iff_getElem.mp hpos
  obtain ⟨hdef, hcount⟩ := hx
  have heq : x = x.take pos ++ x[pos] :: x.drop (pos + 1) := by simp
  refine ⟨x.take pos, x[pos], x.drop (pos + 1), heq, by simp [hlt.le], hdef _ (List.getElem_mem hlt), hd, ?_, ?_⟩
  · intro e he
    obtain ⟨i, hi, rfl⟩ := List.getElem_of_mem he
    rw [List.length_take] at hi
    refine ⟨hdef _ (List.mem_of_mem_take he), ?_⟩
    rw [List.getElem_take]
    exact Bool.eq_false_iff.mpr (hbefore i (by omega))
  · intro e he
    refine ⟨hdef e (List.mem_of_mem_drop he), ?_⟩
    rw [heq, List.countP_append, List.countP_cons_of_pos hd] at hcount
    have hnone : (x.drop (pos + 1)).countP DimArg.isSplice = 0 := by omega
    exact Bool.eq_false_iff.mpr (List.countP_eq_zero.mp hnone e he)

omit ih in
theorem no_splice {x : List DimArg} (hx : (Ty.shape x).Definite V) (hpos : splicePos x = none) :
    ∀ d ∈ x, d.Definite V ∧ d.isSplice = false :=
  fun d hd => ⟨hx.1 d hd, List.findIdx?_eq_none_iff.mp hpos d hd⟩

/-- The last step of `unifySpliced`: a splice variable `d` takes the dims in the middle. -/
def bindSplice (calls : Calls) (s : Subst) (d : DimArg) (mid : List DimArg) : Result :=
  match some d with
  | some (.spliceVar id) => calls.types s (.typeVar id) (.shape mid)
  | _ => return (true, s)

theorem grants_unifySpliced {s : Subst} (hs : s.Definite V) {x y : List DimArg} {pos : ℕ}
    (hx : (Ty.shape x).Definite V) (hpos : splicePos x = some pos) (hy : ∀ d ∈ y, d.Definite V ∧ d.isSplice = false) :
    Grants V θ s (Unified table R (.shape (x.flatMap (DimArg.apply θ))) (.shape (y.flatMap (DimArg.apply θ))))
      (unifySpliced (callsAt table n) s x pos y) := by
  obtain ⟨pre, d, post, rfl, rfl, hd, hsplice, hpre, hpost⟩ := splice_split hx hpos
  have htake : (pre ++ d :: post).take pre.length = pre := List.take_left
  have hdrop : (pre ++ d :: post).drop (pre.length + 1) = post := by simp
  have hget : (pre ++ d :: post)[pre.length]? = some d := by simp
  unfold unifySpliced
  simp only [htake, hdrop, hget]
  split_ifs with hshort
  · exact .ok hs fun h => absurd h Bool.false_ne_true
  set mid := (y.take (y.length - post.length)).drop pre.length with hmid
  have hlen₁ : pre.length = (y.take pre.length).length := by
    rw [List.length_take]
    omega
  have hlen₂ : post.length = (y.drop (y.length - post.length)).length := by
    rw [List.length_drop]
    omega
  have hy_eq : y = y.take pre.length ++ (mid ++ y.drop (y.length - post.length)) := by
    have htt : (y.take (y.length - post.length)).take pre.length = y.take pre.length := by
      rw [List.take_take, Nat.min_eq_left (by omega)]
    rw [← List.append_assoc, ← htt, hmid, List.take_append_drop, List.take_append_drop]
  have hmem : ∀ e ∈ mid, e ∈ y := fun e he => List.mem_of_mem_take (List.mem_of_mem_drop he)
  have hmid_def : (Ty.shape mid).Definite V := by
    refine ⟨fun e he => (hy e (hmem e he)).1, ?_⟩
    rw [List.countP_eq_zero.mpr fun e he => Bool.eq_false_iff.mp (hy e (hmem e he)).2]
    exact Nat.zero_le 1
  have hend : ∀ s', s'.Definite V → Grants V θ s'
      (∀ p q, Unified table R (.shape (p ++ (d.apply θ ++ q))) (.shape (p ++ (mid.flatMap (DimArg.apply θ) ++ q))))
      (bindSplice (callsAt table n) s' d mid) := by
    intro s' hs'
    cases d with
    | spliceVar id =>
      refine (grants_spliceVar ih hs' id mid hd hmid_def).mono fun _ hbound p q => ?_
      obtain ⟨x, hx, hag⟩ := hbound
      rw [DimArg.apply, hx]
      exact .spliceVar p q id hag
    | splice name => exact .ok hs' fun _ _ p q => .splice p q name _
    | const c => cases hsplice
    | dynamic => cases hsplice
  apply Grants.mono (P := pre.flatMap (DimArg.apply θ) = (y.take pre.length).flatMap (DimArg.apply θ) ∧
    post.flatMap (DimArg.apply θ) = (y.drop (y.length - post.length)).flatMap (DimArg.apply θ) ∧
    ∀ p q, Unified table R (.shape (p ++ (d.apply θ ++ q))) (.shape (p ++ (mid.flatMap (DimArg.apply θ) ++ q))))
  · intro _ h
    obtain ⟨h₁, h₂, h₃⟩ := h
    rw [hy_eq, List.flatMap_append, List.flatMap_append, List.flatMap_append, List.flatMap_cons, h₁, h₂]
    exact h₃ _ _
  · refine (grants_allDims hs hlen₁ hpre fun e he => hy e (List.mem_of_mem_take he)).bind (fun s' hs' => ?_) fun _ => rfl
    refine (grants_allDims hs' hlen₂ hpost fun e he => hy e (List.mem_of_mem_drop he)).bind ?_ fun _ => rfl
    exact hend

theorem grants_unifyShapes {s : Subst} (hs : s.Definite V) {x y : List DimArg} (hx : (Ty.shape x).Definite V)
    (hy : (Ty.shape y).Definite V) :
    Grants V θ s (Unified table R (.shape (x.flatMap (DimArg.apply θ))) (.shape (y.flatMap (DimArg.apply θ))))
      (unifyShapes (callsAt table n) s x y) := by
  unfold unifyShapes
  split
  · rename_i hpx hpy
    split_ifs with hlen
    · refine (grants_allDims hs hlen (no_splice hx hpx) (no_splice hy hpy)).mono fun _ h => ?_
      rw [h]
      exact .refl _
    · exact .ok hs fun h => absurd h Bool.false_ne_true
  · rename_i hpx hpy
    exact grants_unifySpliced ih hs hx hpx (no_splice hy hpy)
  · rename_i hpx hpy
    exact (grants_unifySpliced ih hs hy hpy (no_splice hx hpx)).mono fun _ h => h.symm
  · rename_i i j hpx hpy
    split_ifs with hne
    · exact .ok hs fun h => absurd h Bool.false_ne_true
    · obtain ⟨hij, hlen⟩ := not_or.mp hne
      obtain rfl := not_not.mp hij
      obtain ⟨pre, d, post, rfl, rfl, hd, -, hpre, hpost⟩ := splice_split hx hpx
      obtain ⟨pre', d', post', rfl, hlen', hd', -, hpre', hpost'⟩ := splice_split hy hpy
      have hpl : post.length = post'.length := by
        have hlen := not_not.mp hlen
        simp only [List.length_append, List.length_cons] at hlen
        omega
      exact (grants_bothSpliced ih hs hlen'.symm hpl hpre hpre' hd hd' hpost hpost').mono fun _ h => h []

end

end Karac.Typechecker
