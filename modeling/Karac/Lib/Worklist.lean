import Mathlib

/-! Worklist loops over a finite set of nodes: a search for a target that marks nodes as they are
popped, and a closure that marks them as they are pushed. Both run on fuel. -/

namespace Karac.Lib.Worklist

variable {α : Type} [DecidableEq α] (next : α → List α)

/-! The search. -/

/-- Pops nodes until the target comes up; skipped and seen nodes are not expanded. -/
def search (skip : α → Bool) (target : α) : ℕ → Finset α → List α → Option Bool
  | 0, _, _ => none
  | _ + 1, _, [] => some false
  | fuel + 1, seen, n :: stack =>
    if n = target then some true
    else if skip n = true ∨ n ∈ seen then search skip target fuel seen stack
    else search skip target fuel (insert n seen) ((next n).reverse ++ stack)

/-- The pops left: the stack and the successors of what is not expanded yet. -/
def searchCost (nodes seen : Finset α) (stack : List α) : ℕ :=
  stack.length + ∑ n ∈ nodes \ seen, (next n).length

variable {next}

theorem searchCost_insert {nodes seen : Finset α} {n : α} (hn : n ∈ nodes) (hseen : n ∉ seen) (stack : List α) :
    searchCost next nodes (insert n seen) ((next n).reverse ++ stack) = searchCost next nodes seen stack := by
  have hmem : n ∈ nodes \ seen := Finset.mem_sdiff.mpr ⟨hn, hseen⟩
  have hsum : (next n).length + ∑ m ∈ (nodes \ seen).erase n, (next m).length =
      ∑ m ∈ nodes \ seen, (next m).length := Finset.add_sum_erase _ (fun m => (next m).length) hmem
  unfold searchCost
  rw [Finset.sdiff_insert, List.length_append, List.length_reverse]
  omega

theorem search_total {nodes : Finset α} (hnext : ∀ n ∈ nodes, ∀ s ∈ next n, s ∈ nodes) (skip : α → Bool) (target : α)
    (fuel : ℕ) {seen : Finset α} {stack : List α} (hstack : ∀ n ∈ stack, n ∈ nodes)
    (hfuel : searchCost next nodes seen stack < fuel) : ∃ r, search next skip target fuel seen stack = some r := by
  induction fuel generalizing seen stack with
  | zero => omega
  | succ fuel ih =>
    cases stack with
    | nil => exact ⟨false, rfl⟩
    | cons n stack =>
      rw [search]
      have hrest : ∀ m ∈ stack, m ∈ nodes := fun m hm => hstack m (List.mem_cons_of_mem _ hm)
      have hpop : searchCost next nodes seen (n :: stack) = searchCost next nodes seen stack + 1 := by
        unfold searchCost
        rw [List.length_cons]
        omega
      by_cases htarget : n = target
      · exact ⟨true, if_pos htarget⟩
      · rw [if_neg htarget]
        by_cases hskip : skip n = true ∨ n ∈ seen
        · rw [if_pos hskip]
          exact ih hrest (by omega)
        · rw [if_neg hskip]
          have hn := hstack n List.mem_cons_self
          refine ih (fun m hm => ?_) ?_
          · rcases List.mem_append.mp hm with hm | hm
            · exact hnext n hn m (List.mem_reverse.mp hm)
            · exact hrest m hm
          · rw [searchCost_insert hn (fun hs => hskip (Or.inr hs))]
            omega

/-- A search that fails has expanded a set of nodes without the target, closed under the successors that
are not skipped, that takes in the stack. -/
theorem search_false (skip : α → Bool) (target : α) (fuel : ℕ) {seen : Finset α} {stack : List α}
    (hseen : ∀ n ∈ seen, n ≠ target ∧ ∀ s ∈ next n, s ∈ seen ∨ skip s = true ∧ s ≠ target ∨ s ∈ stack)
    (h : search next skip target fuel seen stack = some false) :
    ∃ expanded : Finset α, (∀ n ∈ stack, n ∈ expanded ∨ skip n = true ∧ n ≠ target) ∧
      ∀ n ∈ expanded, n ≠ target ∧ ∀ s ∈ next n, s ∈ expanded ∨ skip s = true ∧ s ≠ target := by
  suffices hall : ∃ expanded : Finset α, seen ⊆ expanded ∧
      (∀ n ∈ stack, n ∈ expanded ∨ skip n = true ∧ n ≠ target) ∧
      ∀ n ∈ expanded, n ≠ target ∧ ∀ s ∈ next n, s ∈ expanded ∨ skip s = true ∧ s ≠ target by
    obtain ⟨expanded, -, hstack, hclosed⟩ := hall
    exact ⟨expanded, hstack, hclosed⟩
  induction fuel generalizing seen stack with
  | zero => exact absurd h (by simp [search])
  | succ fuel ih =>
    cases stack with
    | nil =>
      refine ⟨seen, subset_rfl, fun n hn => absurd hn List.not_mem_nil, fun n hn => ⟨(hseen n hn).1, fun s hs => ?_⟩⟩
      rcases (hseen n hn).2 s hs with hs | hs | hs
      · exact Or.inl hs
      · exact Or.inr hs
      · exact absurd hs List.not_mem_nil
    | cons n stack =>
      rw [search] at h
      by_cases htarget : n = target
      · rw [if_pos htarget] at h
        exact absurd h (by simp)
      · rw [if_neg htarget] at h
        by_cases hskip : skip n = true ∨ n ∈ seen
        · rw [if_pos hskip] at h
          have hn : n ∈ seen ∨ skip n = true ∧ n ≠ target := hskip.symm.imp_right fun hs => ⟨hs, htarget⟩
          have hinv : ∀ m ∈ seen, m ≠ target ∧
              ∀ s ∈ next m, s ∈ seen ∨ skip s = true ∧ s ≠ target ∨ s ∈ stack := by
            refine fun m hm => ⟨(hseen m hm).1, fun s hs => ?_⟩
            rcases (hseen m hm).2 s hs with hs | hs | hs
            · exact Or.inl hs
            · exact Or.inr (Or.inl hs)
            · rcases List.mem_cons.mp hs with rfl | hs
              · exact hn.imp_right Or.inl
              · exact Or.inr (Or.inr hs)
          obtain ⟨expanded, hsub, hstack, hclosed⟩ := ih hinv h
          refine ⟨expanded, hsub, fun m hm => ?_, hclosed⟩
          rcases List.mem_cons.mp hm with rfl | hm
          · exact hn.imp_left fun hmem => hsub hmem
          · exact hstack m hm
        · rw [if_neg hskip] at h
          have hinv : ∀ m ∈ insert n seen, m ≠ target ∧ ∀ s ∈ next m,
              s ∈ insert n seen ∨ skip s = true ∧ s ≠ target ∨ s ∈ (next n).reverse ++ stack := by
            intro m hm
            rcases Finset.mem_insert.mp hm with rfl | hm
            · exact ⟨htarget, fun s hs =>
                Or.inr (Or.inr (List.mem_append_left _ (List.mem_reverse.mpr hs)))⟩
            · refine ⟨(hseen m hm).1, fun s hs => ?_⟩
              rcases (hseen m hm).2 s hs with hs | hs | hs
              · exact Or.inl (Finset.mem_insert_of_mem hs)
              · exact Or.inr (Or.inl hs)
              · rcases List.mem_cons.mp hs with rfl | hs
                · exact Or.inl (Finset.mem_insert_self _ _)
                · exact Or.inr (Or.inr (List.mem_append_right _ hs))
          obtain ⟨expanded, hsub, hstack, hclosed⟩ := ih hinv h
          refine ⟨expanded, fun m hm => hsub (Finset.mem_insert_of_mem hm), fun m hm => ?_, hclosed⟩
          rcases List.mem_cons.mp hm with rfl | hm
          · exact Or.inl (hsub (Finset.mem_insert_self _ _))
          · exact hstack m (List.mem_append_right _ hm)

/-- A path from the stack whose nodes before the target are not skipped makes the search succeed. -/
theorem search_finds {skip : α → Bool} {target : α} {fuel : ℕ} {stack : List α} {r : Bool}
    (h : search next skip target fuel ∅ stack = some r) {n : α} (hn : n ∈ stack) (hskip : skip n = false)
    (hpath : Relation.ReflTransGen (fun u v => v ∈ next u ∧ skip v = false) n target) : r = true := by
  by_contra hr
  obtain rfl : r = false := by simpa using hr
  obtain ⟨expanded, hstack, hclosed⟩ := search_false skip target fuel (fun m hm => absurd hm (by simp)) h
  have hmem : ∀ m, Relation.ReflTransGen (fun u v => v ∈ next u ∧ skip v = false) n m → m ∈ expanded := by
    intro m hm
    induction hm with
    | refl =>
      rcases hstack n hn with hmem | ⟨hs, -⟩
      · exact hmem
      · exact absurd hs (by simp [hskip])
    | tail _ e ih =>
      rcases (hclosed _ ih).2 _ e.1 with hmem | ⟨hs, -⟩
      · exact hmem
      · exact absurd hs (by simp [e.2])
  exact (hclosed target (hmem target hpath)).1 rfl

/-! The closure. -/

/-- Marks and pushes what is not marked yet. -/
def pushNew : List α → Finset α → List α → Finset α × List α
  | [], visited, stack => (visited, stack)
  | p :: ps, visited, stack =>
    if p ∈ visited then pushNew ps visited stack else pushNew ps (insert p visited) (p :: stack)

variable (next) in
/-- Everything marked when the stack is empty; nodes that stop the walk are not expanded. -/
def collect (stop : α → Bool) : ℕ → Finset α → List α → Option (Finset α)
  | 0, _, _ => none
  | _ + 1, visited, [] => some visited
  | fuel + 1, visited, n :: stack =>
    if stop n = true then collect stop fuel visited stack
    else collect stop fuel (pushNew (next n) visited stack).1 (pushNew (next n) visited stack).2

theorem mem_pushNew (ps : List α) (visited : Finset α) (stack : List α) (m : α) :
    m ∈ (pushNew ps visited stack).1 ↔ m ∈ visited ∨ m ∈ ps := by
  induction ps generalizing visited stack with
  | nil => simp [pushNew]
  | cons p ps ih =>
    rw [pushNew]
    by_cases hp : p ∈ visited
    · rw [if_pos hp, ih, List.mem_cons]
      constructor
      · exact fun hm => hm.imp_right Or.inr
      · rintro (hm | rfl | hm)
        · exact Or.inl hm
        · exact Or.inl hp
        · exact Or.inr hm
    · rw [if_neg hp, ih, Finset.mem_insert, List.mem_cons]
      tauto

/-- The stack gains exactly the nodes marked. -/
theorem mem_pushNew_stack (ps : List α) (visited : Finset α) (stack : List α) (m : α) :
    m ∈ (pushNew ps visited stack).2 ↔ m ∈ stack ∨ (m ∈ ps ∧ m ∉ visited) := by
  induction ps generalizing visited stack with
  | nil => simp [pushNew]
  | cons p ps ih =>
    rw [pushNew]
    by_cases hp : p ∈ visited
    · rw [if_pos hp, ih, List.mem_cons]
      constructor
      · exact fun hm => hm.imp_right fun hm => ⟨Or.inr hm.1, hm.2⟩
      · rintro (hm | ⟨rfl | hm, hv⟩)
        · exact Or.inl hm
        · exact absurd hp hv
        · exact Or.inr ⟨hm, hv⟩
    · rw [if_neg hp, ih, List.mem_cons, List.mem_cons, Finset.mem_insert]
      constructor
      · rintro ((rfl | hm) | ⟨hm, hv⟩)
        · exact Or.inr ⟨Or.inl rfl, hp⟩
        · exact Or.inl hm
        · exact Or.inr ⟨Or.inr hm, fun hmem => hv (Or.inr hmem)⟩
      · rintro (hm | ⟨rfl | hm, hv⟩)
        · exact Or.inl (Or.inr hm)
        · exact Or.inl (Or.inl rfl)
        · by_cases hmp : m = p
          · exact Or.inl (Or.inl hmp)
          · exact Or.inr ⟨hm, fun hmem => hmem.elim hmp hv⟩

/-- The pops left: the stack and twice what is not marked. -/
def collectCost (nodes visited : Finset α) (stack : List α) : ℕ := stack.length + 2 * (nodes \ visited).card

theorem pushNew_cost_le {nodes : Finset α} (ps : List α) (hps : ∀ p ∈ ps, p ∈ nodes) (visited : Finset α)
    (stack : List α) :
    collectCost nodes (pushNew ps visited stack).1 (pushNew ps visited stack).2 ≤ collectCost nodes visited stack := by
  induction ps generalizing visited stack with
  | nil => exact le_rfl
  | cons p ps ih =>
    have hrest : ∀ q ∈ ps, q ∈ nodes := fun q hq => hps q (List.mem_cons_of_mem _ hq)
    rw [pushNew]
    by_cases hp : p ∈ visited
    · rw [if_pos hp]
      exact ih hrest visited stack
    · rw [if_neg hp]
      refine (ih hrest _ _).trans ?_
      have hmem : p ∈ nodes \ visited := Finset.mem_sdiff.mpr ⟨hps p List.mem_cons_self, hp⟩
      have hcard := Finset.card_erase_add_one hmem
      unfold collectCost
      rw [Finset.sdiff_insert, List.length_cons]
      omega

theorem collect_total {nodes : Finset α} (hnext : ∀ n ∈ nodes, ∀ s ∈ next n, s ∈ nodes) (stop : α → Bool)
    (fuel : ℕ) {visited : Finset α} {stack : List α} (hstack : ∀ n ∈ stack, n ∈ nodes)
    (hfuel : collectCost nodes visited stack < fuel) : ∃ r, collect next stop fuel visited stack = some r := by
  induction fuel generalizing visited stack with
  | zero => omega
  | succ fuel ih =>
    cases stack with
    | nil => exact ⟨visited, rfl⟩
    | cons n stack =>
      rw [collect]
      have hrest : ∀ m ∈ stack, m ∈ nodes := fun m hm => hstack m (List.mem_cons_of_mem _ hm)
      have hpop : collectCost nodes visited (n :: stack) = collectCost nodes visited stack + 1 := by
        unfold collectCost
        rw [List.length_cons]
        omega
      by_cases hstop : stop n = true
      · rw [if_pos hstop]
        exact ih hrest (by omega)
      · rw [if_neg hstop]
        have hn := hnext n (hstack n List.mem_cons_self)
        have hle := pushNew_cost_le (next n) hn visited stack
        refine ih (fun m hm => ?_) (by omega)
        rcases (mem_pushNew_stack ..).mp hm with hm | ⟨hm, -⟩
        · exact hrest m hm
        · exact hn m hm

/-- What a set of marked nodes may be extended by: successors of nodes that do not stop the walk. -/
theorem collect_spec (stop : α → Bool) (fuel : ℕ) {visited : Finset α} {stack : List α} {r : Finset α}
    (hstack : ∀ n ∈ stack, n ∈ visited)
    (hclosed : ∀ n ∈ visited, n ∉ stack → stop n = true ∨ ∀ s ∈ next n, s ∈ visited)
    (h : collect next stop fuel visited stack = some r) :
    visited ⊆ r ∧ (∀ n ∈ r, stop n = true ∨ ∀ s ∈ next n, s ∈ r) ∧
      ∀ m ∈ r, ∃ n ∈ visited, Relation.ReflTransGen (fun u v => v ∈ next u ∧ stop u = false) n m := by
  induction fuel generalizing visited stack with
  | zero => exact absurd h (by simp [collect])
  | succ fuel ih =>
    cases stack with
    | nil =>
      obtain rfl : visited = r := Option.some.inj h
      exact ⟨subset_rfl, fun n hn => hclosed n hn List.not_mem_nil, fun m hm => ⟨m, hm, Relation.ReflTransGen.refl⟩⟩
    | cons n stack =>
      rw [collect] at h
      have hn := hstack n List.mem_cons_self
      by_cases hstop : stop n = true
      · rw [if_pos hstop] at h
        refine ih (fun m hm => hstack m (List.mem_cons_of_mem _ hm)) (fun m hm hmem => ?_) h
        by_cases hmn : m = n
        · exact Or.inl (hmn ▸ hstop)
        · exact hclosed m hm fun hcons => (List.mem_cons.mp hcons).elim hmn hmem
      · rw [if_neg hstop] at h
        have hstack' : ∀ m ∈ (pushNew (next n) visited stack).2, m ∈ (pushNew (next n) visited stack).1 := by
          intro m hm
          rcases (mem_pushNew_stack ..).mp hm with hm | ⟨hm, -⟩
          · exact (mem_pushNew ..).mpr (Or.inl (hstack m (List.mem_cons_of_mem _ hm)))
          · exact (mem_pushNew ..).mpr (Or.inr hm)
        have hexpand : ∀ m ∈ (pushNew (next n) visited stack).1, m ∉ (pushNew (next n) visited stack).2 →
            stop m = true ∨ ∀ s ∈ next m, s ∈ (pushNew (next n) visited stack).1 := by
          intro m hm hmem
          have hnot : m ∉ stack := fun hs => hmem ((mem_pushNew_stack ..).mpr (Or.inl hs))
          by_cases hmn : m = n
          · exact Or.inr fun s hs => (mem_pushNew ..).mpr (Or.inr (hmn ▸ hs))
          · have hm' : m ∈ visited := by
              rcases (mem_pushNew ..).mp hm with hm | hm
              · exact hm
              · by_contra hv
                exact hmem ((mem_pushNew_stack ..).mpr (Or.inr ⟨hm, hv⟩))
            refine (hclosed m hm' fun hcons => (List.mem_cons.mp hcons).elim hmn hnot).imp_right fun hs s hsm => ?_
            exact (mem_pushNew ..).mpr (Or.inl (hs s hsm))
        obtain ⟨hsub, hclosed', hreach⟩ := ih hstack' hexpand h
        refine ⟨fun m hm => hsub ((mem_pushNew ..).mpr (Or.inl hm)), hclosed', fun m hm => ?_⟩
        obtain ⟨s, hs, hpath⟩ := hreach m hm
        rcases (mem_pushNew ..).mp hs with hs | hs
        · exact ⟨s, hs, hpath⟩
        · exact ⟨n, hn, Relation.ReflTransGen.head ⟨hs, by simpa using hstop⟩ hpath⟩

end Karac.Lib.Worklist
