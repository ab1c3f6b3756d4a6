import Mathlib

/-! Finite maps kept in key order: reading a map in order gives every key once. -/

namespace Karac.Lib

/-- A map as its entries, the keys in strictly rising order. -/
structure SortedMap (K V : Type) [LinearOrder K] where
  entries : List (K × V)
  sorted : (entries.map Prod.fst).Pairwise (· < ·)

namespace SortedMap

variable {K V : Type} [LinearOrder K]

def insertEntry (k : K) (v : V) : List (K × V) → List (K × V)
  | [] => [(k, v)]
  | (k', v') :: rest =>
    if k < k' then (k, v) :: (k', v') :: rest
    else if k = k' then (k, v) :: rest
    else (k', v') :: insertEntry k v rest

def find (k : K) : List (K × V) → Option V
  | [] => none
  | (k', v') :: rest => if k = k' then some v' else find k rest

def eraseEntry (k : K) : List (K × V) → List (K × V)
  | [] => []
  | (k', v') :: rest => if k = k' then rest else (k', v') :: eraseEntry k rest

theorem mem_keys_insertEntry {k x : K} {v : V} {l : List (K × V)}
    (h : x ∈ (insertEntry k v l).map Prod.fst) : x = k ∨ x ∈ l.map Prod.fst := by
  induction l with
  | nil => simpa [insertEntry] using h
  | cons head rest ih =>
    obtain ⟨k', v'⟩ := head
    rw [insertEntry] at h
    split_ifs at h with hlt heq
    · simpa using h
    · subst heq
      rw [List.map_cons, List.mem_cons] at h
      exact h.imp_right fun hx => List.mem_cons_of_mem _ hx
    · rw [List.map_cons, List.mem_cons] at h
      rcases h with rfl | h
      · exact Or.inr (by simp)
      · exact (ih h).imp_right fun hx => List.mem_cons_of_mem _ hx

theorem pairwise_insertEntry (k : K) (v : V) {l : List (K × V)} (h : (l.map Prod.fst).Pairwise (· < ·)) :
    ((insertEntry k v l).map Prod.fst).Pairwise (· < ·) := by
  induction l with
  | nil => simp [insertEntry]
  | cons head rest ih =>
    obtain ⟨k', v'⟩ := head
    rw [List.map_cons, List.pairwise_cons] at h
    obtain ⟨hhead, hrest⟩ := h
    rw [insertEntry]
    split_ifs with hlt heq
    · rw [List.map_cons, List.map_cons, List.pairwise_cons, List.pairwise_cons]
      refine ⟨fun x hx => ?_, hhead, hrest⟩
      rcases List.mem_cons.mp hx with rfl | hx
      · exact hlt
      · exact lt_trans hlt (hhead x hx)
    · subst heq
      exact List.pairwise_cons.mpr ⟨hhead, hrest⟩
    · rw [List.map_cons, List.pairwise_cons]
      refine ⟨fun x hx => ?_, ih hrest⟩
      rcases mem_keys_insertEntry hx with rfl | hx
      · exact lt_of_le_of_ne (not_lt.mp hlt) (Ne.symm heq)
      · exact hhead x hx

theorem find_insertEntry (k x : K) (v : V) (l : List (K × V)) :
    find x (insertEntry k v l) = if x = k then some v else find x l := by
  induction l with
  | nil => simp [insertEntry, find]
  | cons head rest ih =>
    obtain ⟨k', v'⟩ := head
    rw [insertEntry]
    by_cases hlt : k < k'
    · rw [if_pos hlt, find]
    · rw [if_neg hlt]
      by_cases heq : k = k'
      · subst heq
        rw [if_pos rfl, find, find]
        split_ifs <;> rfl
      · rw [if_neg heq, find, ih, find]
        by_cases hx : x = k'
        · rw [if_pos hx, if_neg (fun h => heq (h.symm.trans hx)), if_pos hx]
        · rw [if_neg hx, if_neg hx]

theorem find_eq_some_iff {x : K} {v : V} {l : List (K × V)} (h : (l.map Prod.fst).Pairwise (· < ·)) :
    find x l = some v ↔ (x, v) ∈ l := by
  induction l with
  | nil => simp [find]
  | cons head rest ih =>
    obtain ⟨k', v'⟩ := head
    rw [List.map_cons, List.pairwise_cons] at h
    obtain ⟨hhead, hrest⟩ := h
    rw [find, List.mem_cons, Prod.mk.injEq]
    by_cases hx : x = k'
    · subst hx
      have hnot : (x, v) ∉ rest := fun hmem => lt_irrefl x (hhead x (List.mem_map.mpr ⟨_, hmem, rfl⟩))
      simp [hnot, eq_comm]
    · simp [hx, ih hrest]

theorem find_eq_none_of_lt {k : K} {l : List (K × V)} (h : ∀ x ∈ l.map Prod.fst, k < x) : find k l = none := by
  induction l with
  | nil => rfl
  | cons head rest ih =>
    obtain ⟨k', v'⟩ := head
    rw [List.map_cons] at h
    have hk := h k' List.mem_cons_self
    rw [find, if_neg hk.ne, ih fun x hx => h x (List.mem_cons_of_mem _ hx)]

theorem eraseEntry_sublist (k : K) (l : List (K × V)) : (eraseEntry k l).Sublist l := by
  induction l with
  | nil => exact List.Sublist.refl _
  | cons head rest ih =>
    obtain ⟨k', v'⟩ := head
    rw [eraseEntry]
    split_ifs
    · exact List.sublist_cons_self _ _
    · exact ih.cons_cons _

theorem mem_insertEntry {k : K} {v : V} {e : K × V} {l : List (K × V)} (h : e ∈ insertEntry k v l) :
    e = (k, v) ∨ e ∈ l := by
  induction l with
  | nil => simpa [insertEntry] using h
  | cons head rest ih =>
    obtain ⟨k', v'⟩ := head
    rw [insertEntry] at h
    split_ifs at h with hlt heq
    · simpa using h
    · exact (List.mem_cons.mp h).imp_right fun hmem => List.mem_cons_of_mem _ hmem
    · rcases List.mem_cons.mp h with rfl | hmem
      · exact Or.inr List.mem_cons_self
      · exact (ih hmem).imp_right fun he => List.mem_cons_of_mem _ he

theorem length_insertEntry (k : K) (v : V) (l : List (K × V)) :
    (insertEntry k v l).length ≤ l.length + 1 := by
  induction l with
  | nil => exact le_rfl
  | cons head rest ih =>
    obtain ⟨k', v'⟩ := head
    rw [insertEntry]
    split_ifs
    · exact le_rfl
    · simp
    · simpa using ih

theorem length_insertEntry_of_find {k : K} {v w : V} {l : List (K × V)} (h : (l.map Prod.fst).Pairwise (· < ·))
    (hfind : find k l = some w) : (insertEntry k v l).length = l.length := by
  induction l with
  | nil => cases hfind
  | cons head rest ih =>
    obtain ⟨k', v'⟩ := head
    rw [List.map_cons, List.pairwise_cons] at h
    obtain ⟨hhead, hrest⟩ := h
    rw [insertEntry]
    split_ifs with hlt heq
    · rw [find, if_neg hlt.ne, find_eq_none_of_lt fun x hx => hlt.trans (hhead x hx)] at hfind
      cases hfind
    · rfl
    · rw [find, if_neg heq] at hfind
      simpa using ih hrest hfind

section

variable {M : Type} [AddCommMonoid M] (g : K → V → M)

/-- The sum of the entries. -/
def sumEntries (l : List (K × V)) : M := (l.map fun e => g e.1 e.2).sum

omit [LinearOrder K] in
theorem sumEntries_cons (e : K × V) (l : List (K × V)) : sumEntries g (e :: l) = g e.1 e.2 + sumEntries g l := rfl

theorem sum_insertEntry_of_none {k : K} {l : List (K × V)} (v : V) (h : find k l = none) :
    sumEntries g (insertEntry k v l) = g k v + sumEntries g l := by
  induction l with
  | nil => rfl
  | cons head rest ih =>
    obtain ⟨k', v'⟩ := head
    rw [insertEntry]
    split_ifs with hlt heq
    · rfl
    · rw [find, if_pos heq] at h
      cases h
    · rw [find, if_neg heq] at h
      rw [sumEntries_cons, sumEntries_cons, ih h]
      exact add_left_comm ..

theorem sum_insertEntry_of_some {k : K} {w : V} {l : List (K × V)} (v : V)
    (hsorted : (l.map Prod.fst).Pairwise (· < ·)) (h : find k l = some w) :
    g k w + sumEntries g (insertEntry k v l) = g k v + sumEntries g l := by
  induction l with
  | nil => cases h
  | cons head rest ih =>
    obtain ⟨k', v'⟩ := head
    rw [List.map_cons, List.pairwise_cons] at hsorted
    obtain ⟨hhead, hrest⟩ := hsorted
    rw [insertEntry]
    split_ifs with hlt heq
    · rw [find, if_neg hlt.ne, find_eq_none_of_lt fun x hx => hlt.trans (hhead x hx)] at h
      cases h
    · subst heq
      rw [find, if_pos rfl] at h
      cases h
      exact add_left_comm ..
    · rw [find, if_neg heq] at h
      rw [sumEntries_cons, sumEntries_cons, add_left_comm, ih hrest h]
      exact add_left_comm ..

theorem sum_eraseEntry_of_some {k : K} {w : V} {l : List (K × V)} (h : find k l = some w) :
    g k w + sumEntries g (eraseEntry k l) = sumEntries g l := by
  induction l with
  | nil => cases h
  | cons head rest ih =>
    obtain ⟨k', v'⟩ := head
    rw [find] at h
    rw [eraseEntry]
    split_ifs at h ⊢ with heq
    · cases h
      subst heq
      rfl
    · rw [sumEntries_cons, sumEntries_cons, add_left_comm, ih h]

end

theorem eraseEntry_of_none {k : K} {l : List (K × V)} (h : find k l = none) : eraseEntry k l = l := by
  induction l with
  | nil => rfl
  | cons head rest ih =>
    obtain ⟨k', v'⟩ := head
    rw [find] at h
    rw [eraseEntry]
    split_ifs at h ⊢ with heq
    rw [ih h]

def empty : SortedMap K V := ⟨[], List.Pairwise.nil⟩

def get (m : SortedMap K V) (k : K) : Option V := find k m.entries

def insert (m : SortedMap K V) (k : K) (v : V) : SortedMap K V :=
  ⟨insertEntry k v m.entries, pairwise_insertEntry k v m.sorted⟩

def erase (m : SortedMap K V) (k : K) : SortedMap K V :=
  ⟨eraseEntry k m.entries, m.sorted.sublist ((eraseEntry_sublist k m.entries).map Prod.fst)⟩

def ofEntries (l : List (K × V)) : SortedMap K V := l.foldl (fun m e => m.insert e.1 e.2) empty

def values (m : SortedMap K V) : List V := m.entries.map Prod.snd

/-- The sum of `g` over the map. -/
def total {M : Type} [AddCommMonoid M] (g : K → V → M) (m : SortedMap K V) : M := sumEntries g m.entries

@[simp] theorem get_empty (k : K) : (empty : SortedMap K V).get k = none := rfl

theorem get_insert (m : SortedMap K V) (k x : K) (v : V) :
    (m.insert k v).get x = if x = k then some v else m.get x := find_insertEntry k x v m.entries

@[simp] theorem get_insert_self (m : SortedMap K V) (k : K) (v : V) : (m.insert k v).get k = some v := by
  rw [get_insert, if_pos rfl]

theorem get_insert_of_ne (m : SortedMap K V) {k x : K} (h : x ≠ k) (v : V) : (m.insert k v).get x = m.get x := by
  rw [get_insert, if_neg h]

theorem get_eq_some_iff {m : SortedMap K V} {k : K} {v : V} : m.get k = some v ↔ (k, v) ∈ m.entries :=
  find_eq_some_iff m.sorted

theorem mem_insert {m : SortedMap K V} {k : K} {v : V} {e : K × V} (h : e ∈ (m.insert k v).entries) :
    e = (k, v) ∨ e ∈ m.entries := mem_insertEntry h

theorem mem_erase {m : SortedMap K V} {k : K} {e : K × V} (h : e ∈ (m.erase k).entries) : e ∈ m.entries :=
  (eraseEntry_sublist k m.entries).subset h

theorem length_insert (m : SortedMap K V) (k : K) (v : V) : (m.insert k v).entries.length ≤ m.entries.length + 1 :=
  length_insertEntry k v m.entries

theorem length_insert_of_get {m : SortedMap K V} {k : K} {w : V} (h : m.get k = some w) (v : V) :
    (m.insert k v).entries.length = m.entries.length := length_insertEntry_of_find m.sorted h

theorem length_erase (m : SortedMap K V) (k : K) : (m.erase k).entries.length ≤ m.entries.length :=
  (eraseEntry_sublist k m.entries).length_le

section

variable {M : Type} [AddCommMonoid M] (g : K → V → M) {m : SortedMap K V} {k : K} {w : V}

@[simp] theorem total_empty : total g (empty : SortedMap K V) = 0 := rfl

theorem total_insert_of_none (h : m.get k = none) (v : V) : (m.insert k v).total g = g k v + m.total g :=
  sum_insertEntry_of_none g v h

theorem total_insert_of_some (h : m.get k = some w) (v : V) :
    g k w + (m.insert k v).total g = g k v + m.total g := sum_insertEntry_of_some g v m.sorted h

theorem total_erase_of_some (h : m.get k = some w) : g k w + (m.erase k).total g = m.total g :=
  sum_eraseEntry_of_some g h

end

theorem erase_of_none {m : SortedMap K V} {k : K} (h : m.get k = none) : m.erase k = m := by
  obtain ⟨entries, sorted⟩ := m
  unfold erase
  congr 1
  exact eraseEntry_of_none h

end SortedMap

end Karac.Lib
