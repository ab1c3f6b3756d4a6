import Mathlib

/-! Depth-first walks that visit each key once and report what a key emits with the path to it. Every key
reached from the roots is reported. -/

namespace Karac.Lib.MemoDfs

variable {κ ε : Type}

/-- The visited keys and the reports. -/
abbrev Walk (κ ε : Type) := Finset κ × List ε

def visitAll (visit : κ → Walk κ ε → Option (Walk κ ε)) : List κ → Walk κ ε → Option (Walk κ ε)
  | [], st => some st
  | k :: ks, st => (visit k st).bind fun st' => visitAll visit ks st'

variable (emit : List κ → κ → List ε) (children : κ → List κ)

def dfs [DecidableEq κ] : ℕ → List κ → κ → Walk κ ε → Option (Walk κ ε)
  | 0, _, _, _ => none
  | fuel + 1, path, k, st =>
    if k ∈ st.1 then some st
    else visitAll (dfs fuel (path ++ [k])) (children k) (insert k st.1, st.2 ++ emit (path ++ [k]) k)

/-- The key is reported for some path, and its children are visited. -/
def Done (st : Walk κ ε) (k : κ) : Prop := (∃ path, ∀ e ∈ emit path k, e ∈ st.2) ∧ ∀ c ∈ children k, c ∈ st.1

/-- A later walk has more visited and more reported, and what it adds is done. -/
structure Later (st st' : Walk κ ε) : Prop where
  visited : st.1 ⊆ st'.1
  reports : st.2 ⊆ st'.2
  done : ∀ k ∈ st'.1, k ∉ st.1 → Done emit children st' k

variable {emit children}

theorem Done.mono {st st' : Walk κ ε} (hv : st.1 ⊆ st'.1) (hr : st.2 ⊆ st'.2) {k : κ} (h : Done emit children st k) :
    Done emit children st' k :=
  ⟨h.1.imp fun _ hp e he => hr (hp e he), fun c hc => hv (h.2 c hc)⟩

theorem Later.refl (st : Walk κ ε) : Later emit children st st :=
  ⟨subset_rfl, List.Subset.refl _, fun _ hk hnot => absurd hk hnot⟩

theorem Later.trans {st st' st'' : Walk κ ε} (h : Later emit children st st') (h' : Later emit children st' st'') :
    Later emit children st st'' := by
  refine ⟨fun x hx => h'.visited (h.visited hx), fun e he => h'.reports (h.reports he), fun k hk hnot => ?_⟩
  by_cases hmid : k ∈ st'.1
  · exact (h.done k hmid hnot).mono h'.visited h'.reports
  · exact h'.done k hk hmid

/-- What is reached from a visited key is reported. -/
theorem Later.reported {st : Walk κ ε} (h : Later emit children (∅, []) st) {k k' : κ} (hk : k ∈ st.1)
    (hpath : Relation.ReflTransGen (fun a b => b ∈ children a) k k') : ∃ path, ∀ e ∈ emit path k', e ∈ st.2 := by
  have hmem : k' ∈ st.1 := by
    induction hpath with
    | refl => exact hk
    | tail _ hchild ih => exact (h.done _ ih (Finset.notMem_empty _)).2 _ hchild
  exact (h.done k' hmem (Finset.notMem_empty _)).1

/-- A property of all reports that every visit keeps. -/
theorem visitAll_keeps {P : κ → Prop} {Q : ε → Prop} {visit : κ → Walk κ ε → Option (Walk κ ε)}
    (hvisit : ∀ k st st', P k → visit k st = some st' → (∀ e ∈ st.2, Q e) → ∀ e ∈ st'.2, Q e) {ks : List κ}
    (hks : ∀ k ∈ ks, P k) {st st' : Walk κ ε} (hrun : visitAll visit ks st = some st') (h : ∀ e ∈ st.2, Q e) :
    ∀ e ∈ st'.2, Q e := by
  induction ks generalizing st with
  | nil =>
    obtain rfl := Option.some.inj hrun
    exact h
  | cons k ks ih =>
    rw [visitAll] at hrun
    obtain ⟨mid, hk, hrest⟩ := Option.bind_eq_some_iff.mp hrun
    have hmid := hvisit k st mid (hks k List.mem_cons_self) hk h
    exact ih (fun x hx => hks x (List.mem_cons_of_mem _ hx)) hrest hmid

variable [DecidableEq κ]

theorem visitAll_spec {nodes : Finset κ} {fuel : ℕ} {visit : κ → Walk κ ε → Option (Walk κ ε)}
    (hvisit : ∀ k st, k ∈ nodes → (nodes \ st.1).card < fuel →
      ∃ st', visit k st = some st' ∧ Later emit children st st' ∧ k ∈ st'.1)
    (ks : List κ) (hks : ∀ k ∈ ks, k ∈ nodes) (st : Walk κ ε) (hfuel : (nodes \ st.1).card < fuel) :
    ∃ st', visitAll visit ks st = some st' ∧ Later emit children st st' ∧ ∀ k ∈ ks, k ∈ st'.1 := by
  induction ks generalizing st with
  | nil => exact ⟨st, rfl, Later.refl st, fun k hk => absurd hk List.not_mem_nil⟩
  | cons k ks ih =>
    obtain ⟨mid, hrun, hlater, hmem⟩ := hvisit k st (hks k List.mem_cons_self) hfuel
    have hcard := Finset.card_le_card (Finset.sdiff_subset_sdiff (subset_refl nodes) hlater.visited)
    have hmid : (nodes \ mid.1).card < fuel := lt_of_le_of_lt hcard hfuel
    obtain ⟨st', hrun', hlater', hall⟩ := ih (fun x hx => hks x (List.mem_cons_of_mem _ hx)) mid hmid
    refine ⟨st', by rw [visitAll, hrun, Option.bind_some]; exact hrun', hlater.trans hlater', fun x hx => ?_⟩
    rcases List.mem_cons.mp hx with rfl | hx
    · exact hlater'.visited hmem
    · exact hall x hx

/-- The walk from a key ends, and what it visits is done. -/
theorem dfs_spec {nodes : Finset κ} (hnodes : ∀ k ∈ nodes, ∀ c ∈ children k, c ∈ nodes) (fuel : ℕ) (path : List κ)
    (k : κ) (st : Walk κ ε) (hk : k ∈ nodes) (hfuel : (nodes \ st.1).card < fuel) :
    ∃ st', dfs emit children fuel path k st = some st' ∧ Later emit children st st' ∧ k ∈ st'.1 := by
  induction fuel generalizing path k st with
  | zero => omega
  | succ fuel ih =>
    rw [dfs]
    by_cases hseen : k ∈ st.1
    · exact ⟨st, if_pos hseen, Later.refl st, hseen⟩
    · rw [if_neg hseen]
      have hin : k ∈ nodes \ st.1 := Finset.mem_sdiff.mpr ⟨hk, hseen⟩
      have hcard : (nodes \ insert k st.1).card < fuel := by
        rw [Finset.sdiff_insert]
        have := Finset.card_erase_lt_of_mem hin
        omega
      obtain ⟨st', hrun, hlater, hall⟩ := visitAll_spec (fun c mid hc hmid => ih (path ++ [k]) c mid hc hmid) (children k)
        (hnodes k hk) (insert k st.1, st.2 ++ emit (path ++ [k]) k) hcard
      have hkmem : k ∈ st'.1 := hlater.visited (Finset.mem_insert_self _ _)
      refine ⟨st', hrun, ⟨fun x hx => hlater.visited (Finset.mem_insert_of_mem hx),
        fun e he => hlater.reports (List.mem_append_left _ he), fun x hx hnot => ?_⟩, hkmem⟩
      by_cases hxk : x = k
      · rw [hxk]
        exact ⟨⟨path ++ [k], fun e he => hlater.reports (List.mem_append_right _ he)⟩, hall⟩
      · exact hlater.done x hx fun hmem => (Finset.mem_insert.mp hmem).elim hxk hnot

/-- A walk from a root ends, and every key reached from it is reported. -/
theorem root_spec {nodes : Finset κ} (hnodes : ∀ k ∈ nodes, ∀ c ∈ children k, c ∈ nodes) {root : κ}
    (hroot : root ∈ nodes) : ∃ st, dfs emit children (nodes.card + 1) [] root (∅, []) = some st ∧
      ∀ k, Relation.ReflTransGen (fun a b => b ∈ children a) root k → ∃ path, ∀ e ∈ emit path k, e ∈ st.2 := by
  obtain ⟨st, hrun, hlater, hmem⟩ := dfs_spec hnodes (nodes.card + 1) [] root ((∅, []) : Walk κ ε) hroot
    (by simp)
  exact ⟨st, hrun, fun k hpath => hlater.reported hmem hpath⟩

/-- A walk from roots ends, and every key reached from them is reported. -/
theorem roots_spec {nodes : Finset κ} (hnodes : ∀ k ∈ nodes, ∀ c ∈ children k, c ∈ nodes) (roots : List κ)
    (hroots : ∀ k ∈ roots, k ∈ nodes) :
    ∃ st, visitAll (dfs emit children (nodes.card + 1) []) roots (∅, []) = some st ∧ ∀ r ∈ roots, ∀ k,
      Relation.ReflTransGen (fun a b => b ∈ children a) r k → ∃ path, ∀ e ∈ emit path k, e ∈ st.2 := by
  obtain ⟨st, hrun, hlater, hall⟩ := visitAll_spec
    (fun k mid hk hmid => dfs_spec hnodes (nodes.card + 1) [] k mid hk hmid) roots hroots ((∅, []) : Walk κ ε)
    (by simp)
  exact ⟨st, hrun, fun r hr k hpath => hlater.reported (hall r hr) hpath⟩

/-- Nothing else is reported: a property of what the keys of a closed set emit is one of all reports. -/
theorem dfs_keeps {P : κ → Prop} {Q : ε → Prop} (hP : ∀ k, P k → ∀ c ∈ children k, P c) (hemit : ∀ path k, P k → ∀ e ∈ emit path k, Q e)
    (fuel : ℕ) (path : List κ) (k : κ) (st st' : Walk κ ε) (hk : P k)
    (hrun : dfs emit children fuel path k st = some st') (h : ∀ e ∈ st.2, Q e) : ∀ e ∈ st'.2, Q e := by
  induction fuel generalizing path k st st' with
  | zero => exact absurd hrun (by simp [dfs])
  | succ fuel ih =>
    rw [dfs] at hrun
    by_cases hseen : k ∈ st.1
    · rw [if_pos hseen] at hrun
      obtain rfl := Option.some.inj hrun
      exact h
    · rw [if_neg hseen] at hrun
      refine visitAll_keeps (fun c mid mid' hc => ih (path ++ [k]) c mid mid' hc) (hP k hk) hrun fun e he => ?_
      rcases List.mem_append.mp he with he | he
      · exact h e he
      · exact hemit _ k hk e he

end Karac.Lib.MemoDfs
