import Mathlib

/-! Computations that end with an error or a value. -/

namespace Karac.Lib

theorem ok_of_bind {ε α β : Type} {x : Except ε α} {f : α → Except ε β} {b : β} (h : (x >>= f) = .ok b) :
    ∃ a, x = .ok a ∧ f a = .ok b := by
  cases x with
  | error e => cases h
  | ok a => exact ⟨a, rfl, h⟩

/-- An error satisfies `P`, a value `Q`. -/
def Yields {ε α : Type} (P : ε → Prop) (Q : α → Prop) : Except ε α → Prop
  | .error e => P e
  | .ok a => Q a

section

variable {ε α β : Type} {P : ε → Prop} {Q R : α → Prop} {S : β → Prop}

theorem Yields.mono {x : Except ε α} (h : Yields P Q x) (hQ : ∀ a, Q a → R a) : Yields P R x := by
  cases x with
  | error e => exact h
  | ok a => exact hQ a h

theorem Yields.bind {x : Except ε α} {f : α → Except ε β} (h : Yields P Q x) (hf : ∀ a, Q a → Yields P S (f a)) :
    Yields P S (x >>= f) := by
  cases x with
  | error e => exact h
  | ok a => exact hf a h

theorem Yields.map {x : Except ε α} {f : α → β} (h : Yields P Q x) (hf : ∀ a, Q a → S (f a)) : Yields P S (f <$> x) := by
  cases x with
  | error e => exact h
  | ok a => exact hf a h

theorem Yields.and {x : Except ε α} (h : Yields P Q x) (h' : Yields P R x) : Yields P (fun a => Q a ∧ R a) x := by
  cases x with
  | error e => exact h
  | ok a => exact ⟨h, h'⟩

theorem Yields.of_ok {x : Except ε α} {a : α} (h : Yields P Q x) (hx : x = .ok a) : Q a := by
  rw [hx] at h
  exact h

/-- Element by element. -/
theorem yields_mapM {Q : α → β → Prop} {f : α → Except ε β} {l : List α} (h : ∀ a ∈ l, Yields P (Q a) (f a)) :
    Yields P (List.Forall₂ Q l) (l.mapM f) := by
  induction l with
  | nil => exact .nil
  | cons a l ih =>
    rw [List.mapM_cons]
    refine (h a List.mem_cons_self).bind fun b hb => ?_
    refine (ih fun x hx => h x (List.mem_cons_of_mem a hx)).bind fun bs hbs => ?_
    exact .cons hb hbs

/-- Each element has its value. -/
theorem mapM_ok {f : α → Except ε β} {l : List α} {bs : List β} (h : l.mapM f = .ok bs) :
    List.Forall₂ (fun a b => f a = .ok b) l bs := by
  refine (yields_mapM (P := fun _ => True) fun a _ => ?_).of_ok h
  cases hfa : f a with
  | error e => trivial
  | ok b => exact rfl

theorem mapM_congr {f g : α → Except ε β} {l : List α} (h : ∀ a ∈ l, f a = g a) : l.mapM f = l.mapM g := by
  induction l with
  | nil => rfl
  | cons a l ih =>
    rw [List.mapM_cons, List.mapM_cons, h a List.mem_cons_self, ih fun x hx => h x (List.mem_cons_of_mem a hx)]

theorem mapM_total {f : α → Except ε β} {l : List α} (h : ∀ a ∈ l, ∃ b, f a = .ok b) : ∃ bs, l.mapM f = .ok bs := by
  induction l with
  | nil => exact ⟨[], rfl⟩
  | cons a l ih =>
    obtain ⟨b, hb⟩ := h a List.mem_cons_self
    obtain ⟨bs, hbs⟩ := ih fun x hx => h x (List.mem_cons_of_mem a hx)
    refine ⟨b :: bs, ?_⟩
    rw [List.mapM_cons, hb, hbs]
    rfl

/-- Values that a function has for the elements another has too. -/
theorem mapM_ok_imp {f g : α → Except ε β} {l : List α} {bs : List β} (hfg : ∀ a ∈ l, ∀ b, f a = .ok b → g a = .ok b)
    (h : l.mapM f = .ok bs) : l.mapM g = .ok bs := by
  induction l generalizing bs with
  | nil => exact h
  | cons a l ih =>
    rw [List.mapM_cons] at h ⊢
    obtain ⟨b, hb, h⟩ := ok_of_bind h
    obtain ⟨rest, hrest, h⟩ := ok_of_bind h
    rw [hfg a List.mem_cons_self b hb, ih (fun x hx => hfg x (List.mem_cons_of_mem a hx)) hrest]
    exact h

end

end Karac.Lib

/-! Computations that note events and stop with a value or otherwise, and the rules for what holds of the events and of
the way they stop. -/

namespace Karac.Lib

/-- `S` are the ways to stop without a value. -/
structure Traced (E S α : Type) where
  log : List E
  result : Except S α

namespace Traced

variable {E S α β : Type}

def bind (x : Traced E S α) (f : α → Traced E S β) : Traced E S β :=
  match x.result with
  | .ok a => ⟨x.log ++ (f a).log, (f a).result⟩
  | .error s => ⟨x.log, .error s⟩

instance : Monad (Traced E S) where
  pure a := ⟨[], .ok a⟩
  bind := bind

def stop (s : S) : Traced E S α := ⟨[], .error s⟩

/-- An event at the end, if there is a value. -/
def noting (x : Traced E S α) (e : α → E) : Traced E S α :=
  match x.result with
  | .ok a => ⟨x.log ++ [e a], .ok a⟩
  | .error s => ⟨x.log, .error s⟩

/-- Where `A` holds of all events, so does `P`; the computation stops as `R` says, or with a value as `Q` says. -/
def Ensures (A P : E → Prop) (R : S → Prop) (Q : α → Prop) (x : Traced E S α) : Prop :=
  (∀ e ∈ x.log, A e) → (∀ e ∈ x.log, P e) ∧ (∀ s, x.result = .error s → R s) ∧ ∀ a, x.result = .ok a → Q a

variable {A P : E → Prop} {R : S → Prop} {Q Q' : α → Prop} {T : β → Prop} {x : Traced E S α} {f : α → Traced E S β}

theorem bind_of_ok {a : α} (h : x.result = .ok a) : x >>= f = ⟨x.log ++ (f a).log, (f a).result⟩ := by
  change Traced.bind x f = _
  rw [Traced.bind, h]

theorem bind_of_error {s : S} (h : x.result = .error s) : x >>= f = ⟨x.log, .error s⟩ := by
  change Traced.bind x f = _
  rw [Traced.bind, h]

theorem noting_of_ok {e : α → E} {a : α} (h : x.result = .ok a) : x.noting e = ⟨x.log ++ [e a], .ok a⟩ := by
  rw [noting, h]

theorem noting_of_error {e : α → E} {s : S} (h : x.result = .error s) : x.noting e = ⟨x.log, .error s⟩ := by
  rw [noting, h]

theorem ensures_pure {a : α} (h : Q a) : Ensures A P R Q (pure a) := by
  refine fun _ => ⟨fun e he => absurd he List.not_mem_nil, fun s hs => ?_, fun b hb => ?_⟩
  · cases hs
  · cases hb
    exact h

theorem ensures_stop {s : S} (h : R s) : Ensures A P R Q (stop s) := by
  refine fun _ => ⟨fun e he => absurd he List.not_mem_nil, fun s' hs => ?_, fun b hb => ?_⟩
  · cases hs
    exact h
  · cases hb

theorem Ensures.bind (hx : Ensures A P R Q x) (hf : ∀ a, Q a → Ensures A P R T (f a)) : Ensures A P R T (x >>= f) := by
  cases hres : x.result with
  | error s =>
    rw [bind_of_error hres]
    intro hA
    obtain ⟨hP, hR, -⟩ := hx hA
    refine ⟨hP, fun s' hs => ?_, fun b hb => ?_⟩
    · cases hs
      exact hR s hres
    · cases hb
  | ok a =>
    rw [bind_of_ok hres]
    intro hA
    obtain ⟨hP, -, hQ⟩ := hx fun e he => hA e (List.mem_append_left _ he)
    obtain ⟨hP', hR, hT⟩ := hf a (hQ a hres) fun e he => hA e (List.mem_append_right _ he)
    exact ⟨fun e he => (List.mem_append.mp he).elim (hP e) (hP' e), hR, hT⟩

theorem Ensures.mono (hx : Ensures A P R Q x) (h : ∀ a, Q a → Q' a) : Ensures A P R Q' x := by
  intro hA
  obtain ⟨hP, hR, hQ⟩ := hx hA
  exact ⟨hP, hR, fun a ha => h a (hQ a ha)⟩

/-- The event, once noted, is one that `A` holds of. -/
theorem Ensures.noting {e : α → E} (hx : Ensures A P R Q x) (h : ∀ a, Q a → A (e a) → P (e a) ∧ Q' a) :
    Ensures A P R Q' (x.noting e) := by
  cases hres : x.result with
  | error s =>
    rw [noting_of_error hres]
    intro hA
    obtain ⟨hP, hR, -⟩ := hx hA
    refine ⟨hP, fun s' hs => ?_, fun b hb => ?_⟩
    · cases hs
      exact hR s hres
    · cases hb
  | ok a =>
    rw [noting_of_ok hres]
    intro hA
    obtain ⟨hP, -, hQ⟩ := hx fun e' he => hA e' (List.mem_append_left _ he)
    obtain ⟨hPe, hQ'⟩ := h a (hQ a hres) (hA _ (List.mem_append_right _ (List.mem_singleton_self _)))
    refine ⟨fun e' he => ?_, fun s hs => ?_, fun b hb => ?_⟩
    · exact (List.mem_append.mp he).elim (hP e') fun he => List.mem_singleton.mp he ▸ hPe
    · cases hs
    · cases hb
      exact hQ'

end Traced

end Karac.Lib
