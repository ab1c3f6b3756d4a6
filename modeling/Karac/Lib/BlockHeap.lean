import Mathlib

/-! Resources that have one owner each while they exist: what it takes to move one, to make one and to destroy one. -/

namespace Karac.Lib

variable {Resource Owner : Type*}

/-- Every resource that exists has exactly one owner, and only those have any. -/
structure Exclusive (live : Resource → Prop) (owns : Resource → Owner → Prop) : Prop where
  owned : ∀ r, live r → ∃ o, owns r o
  live : ∀ r o, owns r o → live r
  unique : ∀ r o o', owns r o → owns r o' → o = o'

namespace Exclusive

variable {live live' : Resource → Prop} {owns owns' : Resource → Owner → Prop} {r : Resource} {a b : Owner}

theorem congr (h : Exclusive live owns) (hsame : ∀ x o, owns' x o ↔ owns x o) : Exclusive live owns' := by
  obtain rfl : owns' = owns := funext₂ fun x o => propext (hsame x o)
  exact h

/-- What has a new owner besides those of before has only that one, where those of before have given it up. -/
theorem replace (h : Exclusive live owns) (hlive : ∀ x, x ≠ r → (live' x ↔ live x)) (hr : live' r) (hto : owns' r b)
    (honly : ∀ o, owns' r o → o = b) (hother : ∀ x, x ≠ r → ∀ o, owns' x o ↔ owns x o) : Exclusive live' owns' where
  owned x hx := by
    by_cases hxr : x = r
    · exact ⟨b, hxr ▸ hto⟩
    · exact (h.owned x ((hlive x hxr).mp hx)).imp fun o => (hother x hxr o).mpr
  live x o ho := by
    by_cases hxr : x = r
    · exact hxr ▸ hr
    · exact (hlive x hxr).mpr (h.live x o ((hother x hxr o).mp ho))
  unique x o o' ho ho' := by
    by_cases hxr : x = r
    · subst hxr
      exact (honly o ho).trans (honly o' ho').symm
    · exact h.unique x o o' ((hother x hxr o).mp ho) ((hother x hxr o').mp ho')

/-- A resource goes from its owner to another. -/
theorem transfer (h : Exclusive live owns) (hfrom : owns r a) (hto : owns' r b)
    (hleft : ∀ o, owns' r o → o = b ∨ owns r o ∧ o ≠ a) (hother : ∀ x, x ≠ r → ∀ o, owns' x o ↔ owns x o) :
    Exclusive live owns' := by
  refine h.replace (fun _ _ => Iff.rfl) (h.live r a hfrom) hto (fun o ho => ?_) hother
  obtain hb | ⟨ho, hne⟩ := hleft o ho
  · exact hb
  · exact absurd (h.unique r o a ho hfrom) hne

theorem create (h : Exclusive live owns) (hnew : ¬live r) (hlive : ∀ x, x ≠ r → (live' x ↔ live x)) (hr : live' r)
    (hto : owns' r b) (hleft : ∀ o, owns' r o → o = b ∨ owns r o) (hother : ∀ x, x ≠ r → ∀ o, owns' x o ↔ owns x o) :
    Exclusive live' owns' :=
  h.replace hlive hr hto (fun o ho => (hleft o ho).resolve_right fun hold => hnew (h.live r o hold)) hother

theorem destroy (h : Exclusive live owns) (hfrom : owns r a) (hgone : ¬live' r) (hlive : ∀ x, x ≠ r → (live' x ↔ live x))
    (hleft : ∀ o, owns' r o → owns r o ∧ o ≠ a) (hother : ∀ x, x ≠ r → ∀ o, owns' x o ↔ owns x o) :
    Exclusive live' owns' := by
  have hnone : ∀ x o, owns' x o → x ≠ r := by
    intro x o ho hxr
    subst hxr
    obtain ⟨hold, hne⟩ := hleft o ho
    exact hne (h.unique x o a hold hfrom)
  have hne : ∀ x, live' x → x ≠ r := fun x hx hxr => hgone (hxr ▸ hx)
  refine ⟨fun x hx => ?_, fun x o ho => ?_, fun x o o' ho ho' => ?_⟩
  · exact (h.owned x ((hlive x (hne x hx)).mp hx)).imp fun o => (hother x (hne x hx) o).mpr
  · exact (hlive x (hnone x o ho)).mpr (h.live x o ((hother x (hnone x o ho) o).mp ho))
  · have hx := hnone x o ho
    exact h.unique x o o' ((hother x hx o).mp ho) ((hother x hx o').mp ho')

end Exclusive

end Karac.Lib

/-! A heap of blocks at addresses other than the null pointer: what an allocation leaves as it was, and what it takes to
free a set of blocks, each of them once. -/

namespace Karac.Lib

/-- Addresses are handed out in order and not again. -/
structure BlockHeap (Block : Type*) where
  blocks : ℕ → Option Block
  next : ℕ
  pos : 0 < next
  null : blocks 0 = none
  fresh : ∀ a, next ≤ a → blocks a = none

namespace BlockHeap

variable {Block : Type*}

def alloc (h : BlockHeap Block) (b : Block) : ℕ × BlockHeap Block :=
  (h.next, {
    blocks := Function.update h.blocks h.next (some b)
    next := h.next + 1
    pos := Nat.succ_pos _
    null := by rw [Function.update_of_ne h.pos.ne, h.null]
    fresh := fun a ha => by rw [Function.update_of_ne (by omega), h.fresh a (by omega)] })

/-- It fails where there is no block, so that no block is freed twice. -/
def free (h : BlockHeap Block) (a : ℕ) : Option (Block × BlockHeap Block) :=
  (h.blocks a).map fun b => (b, {
    blocks := Function.update h.blocks a none
    next := h.next
    pos := h.pos
    null := by
      by_cases ha : 0 = a
      · rw [ha, Function.update_self]
      · rw [Function.update_of_ne ha, h.null]
    fresh := fun c hc => by
      by_cases ha : c = a
      · rw [ha, Function.update_self]
      · rw [Function.update_of_ne ha, h.fresh c hc] })

/-- The addresses that have been handed out from one heap to the other. -/
def region (h h' : BlockHeap Block) : Set ℕ := Set.Ico h.next h'.next

/-- What there was is still there. -/
structure Grown (h h' : BlockHeap Block) : Prop where
  le : h.next ≤ h'.next
  old : ∀ a < h.next, h'.blocks a = h.blocks a

def Same (g h : BlockHeap Block) (r : Set ℕ) : Prop := ∀ a ∈ r, g.blocks a = h.blocks a

/-- The blocks of a set of addresses are gone and all others are there. -/
structure Freed (g : BlockHeap Block) (r : Set ℕ) (g' : BlockHeap Block) : Prop where
  gone : ∀ a ∈ r, g'.blocks a = none
  kept : ∀ a, a ∉ r → g'.blocks a = g.blocks a

variable {g g' g'' h h' h'' : BlockHeap Block} {r s : Set ℕ} {a : ℕ} {b : Block}

theorem Grown.refl (h : BlockHeap Block) : Grown h h := ⟨le_rfl, fun _ _ => rfl⟩

theorem Grown.trans (h₁ : Grown h h') (h₂ : Grown h' h'') : Grown h h'' :=
  ⟨le_trans h₁.le h₂.le, fun a ha => (h₂.old a (lt_of_lt_of_le ha h₁.le)).trans (h₁.old a ha)⟩

theorem grown_alloc (h : BlockHeap Block) (b : Block) : Grown h (h.alloc b).2 :=
  ⟨Nat.le_succ _, fun _ ha => Function.update_of_ne ha.ne _ _⟩

theorem alloc_block (h : BlockHeap Block) (b : Block) : (h.alloc b).2.blocks (h.alloc b).1 = some b :=
  Function.update_self _ _ _

theorem alloc_ne_null (h : BlockHeap Block) (b : Block) : (h.alloc b).1 ≠ 0 := h.pos.ne'

theorem region_alloc (h : BlockHeap Block) (b : Block) : region h (h.alloc b).2 = {(h.alloc b).1} := by
  ext a
  simp only [region, alloc, Set.mem_Ico, Set.mem_singleton_iff]
  omega

theorem region_trans (h₁ : Grown h h') (h₂ : Grown h' h'') : region h h'' = region h h' ∪ region h' h'' :=
  (Set.Ico_union_Ico_eq_Ico h₁.le h₂.le).symm

theorem disjoint_region : Disjoint (region h h') (region h' h'') := Set.Ico_disjoint_Ico_same

theorem region_self (h : BlockHeap Block) : region h h = ∅ := Set.Ico_self _

theorem Same.mono (hs : Same g h s) (hrs : r ⊆ s) : Same g h r := fun a ha => hs a (hrs ha)

/-- What is built later does not touch what is there. -/
theorem Same.of_grown (hs : Same g h'' (region h h')) (hg : Grown h' h'') : Same g h' (region h h') :=
  fun a ha => (hs a ha).trans (hg.old a ha.2)

theorem Same.after (hs : Same g h s) (hf : Freed g r g') (hd : Disjoint r s) : Same g' h s :=
  fun a ha => (hf.kept a (Set.disjoint_right.mp hd ha)).trans (hs a ha)

theorem Freed.refl (g : BlockHeap Block) : Freed g ∅ g := ⟨fun _ ha => absurd ha (Set.notMem_empty _), fun _ _ => rfl⟩

theorem Freed.trans (h₁ : Freed g r g') (h₂ : Freed g' s g'') : Freed g (r ∪ s) g'' where
  gone a ha := by
    by_cases has : a ∈ s
    · exact h₂.gone a has
    · rw [h₂.kept a has, h₁.gone a (ha.resolve_right has)]
  kept a ha := by rw [h₂.kept a fun h => ha (Or.inr h), h₁.kept a fun h => ha (Or.inl h)]

theorem exists_free (ha : g.blocks a = some b) : ∃ g', g.free a = some (b, g') ∧ Freed g {a} g' := by
  refine ⟨_, by rw [free, ha, Option.map_some], fun c hc => ?_, fun c hc => ?_⟩
  · rw [Set.mem_singleton_iff.mp hc]
    exact Function.update_self _ _ _
  · exact Function.update_of_ne hc _ _

/-- What has been built is gone, and all else is as before. -/
theorem Freed.blocks_eq (hf : Freed h' (region h h') g) (hg : Grown h h') : g.blocks = h.blocks := by
  funext a
  by_cases hin : a ∈ region h h'
  · rw [hf.gone a hin, h.fresh a hin.1]
  · rw [hf.kept a hin]
    rcases Nat.lt_or_ge a h.next with hold | hnew
    · exact hg.old a hold
    · have hpast : h'.next ≤ a := by
        by_contra hlt
        exact hin ⟨hnew, not_le.mp hlt⟩
      rw [h'.fresh a hpast, h.fresh a hnew]

end BlockHeap

end Karac.Lib
