import Karac.Lib.Tarjan

/-! What the search returns are the classes of mutual reachability. Between visits the part of the stack
above an open node hangs together through that node, and everything below reaches it. -/

namespace Karac.Lib.Tarjan

variable {α : Type}

abbrev Reach (graph : α → List α) : α → α → Prop := Relation.ReflTransGen fun x y => y ∈ graph x

section Statements

variable (graph : α → List α) (nodes : Finset α)

/-- No node is held twice, and the nodes of a component reach each other. -/
structure Sound (st : TarjanState α) : Prop where
  nodup : (st.stack ++ st.result.flatten).Nodup
  mem : ∀ x ∈ st.stack ++ st.result.flatten, x ∈ nodes
  joined : ∀ comp ∈ st.result, ∀ x ∈ comp, ∀ y ∈ comp, Reach graph x y

/-- The link of a node is the number of one below that it reaches. -/
def Linked (v : α) (st cur : TarjanState α) : Prop :=
  ∃ x ∈ st.stack, cur.index x = some (cur.lowlink v) ∧ Reach graph v x

/-- The part of the stack above an open node hangs together with it. -/
structure Hung (v : α) (st : TarjanState α) (seg : List α) (cur : TarjanState α) : Prop where
  sound : Sound graph nodes cur
  part : ∀ y ∈ seg, Reach graph v y ∧ Reach graph y v
  link : cur.lowlink v = st.indexCounter ∨ Linked graph v st cur

/-- What a visit leaves on the stack hangs together with the node, which then reaches one below. -/
structure Tied (v : α) (st st' : TarjanState α) : Prop where
  sound : Sound graph nodes st'
  part : ∃ seg, st'.stack = seg ++ st.stack ∧ (∀ y ∈ seg, Reach graph v y ∧ Reach graph y v) ∧
    (seg = [] ∧ st.indexCounter ≤ st'.lowlink v ∨ Linked graph v st st')

end Statements

variable {graph : α → List α} {nodes : Finset α} [DecidableEq α]

theorem Sound.start : Sound graph nodes (start : TarjanState α) where
  nodup := List.nodup_nil
  mem _ hx := absurd hx List.not_mem_nil
  joined _ hcomp := absurd hcomp List.not_mem_nil

theorem Sound.lower {cur : TarjanState α} (h : Sound graph nodes cur) (v : α) (i : ℕ) :
    Sound graph nodes (cur.lower v i) := by
  obtain ⟨hstack, -, hresult, -⟩ := lower_eq cur v i
  refine ⟨?_, ?_, ?_⟩
  · rw [hstack, hresult]
    exact h.nodup
  · rw [hstack, hresult]
    exact h.mem
  · rw [hresult]
    exact h.joined

theorem Sound.enter {st : TarjanState α} (h : Sound graph nodes st) (hst : Inv graph st) {v : α} (hmem : v ∈ nodes)
    (hv : st.index v = none) : Hung graph nodes v st [] (Tarjan.enter v st) where
  sound := by
    refine ⟨List.nodup_cons.mpr ⟨fun hin => ?_, h.nodup⟩, fun x hx => ?_, h.joined⟩
    · have hseen := (hst.visited v).mpr (List.mem_append.mp hin)
      rw [hv] at hseen
      exact absurd hseen (by simp)
    · rcases List.mem_cons.mp hx with rfl | hx
      · exact hmem
      · exact h.mem x hx
  part y hy := absurd hy List.not_mem_nil
  link := Or.inl (Function.update_self ..)

section Steps

variable {v : α} {st cur : TarjanState α} {done seg : List α}

/-- A node on the stack whose number is below that of the open node lies below it. -/
theorem Open.below (h : Open graph v st seg cur) {x : α} {i : ℕ} (hx : x ∈ cur.stack) (hxi : cur.index x = some i)
    (hlt : i < st.indexCounter) : x ∈ st.stack := by
  rw [h.stack] at hx
  rcases List.mem_append.mp hx with hx | hx
  · have := h.ext.fresh x i (h.fresh x hx) hxi
    omega
  · rcases List.mem_cons.mp hx with rfl | hx
    · rw [h.idx] at hxi
      have := Option.some.inj hxi
      omega
    · exact hx

/-- What is on the stack while a node is open reaches it, when what was below does. -/
theorem Hung.reach (hh : Hung graph nodes v st seg cur) (h : Open graph v st seg cur)
    (hbelow : ∀ z ∈ st.stack, Reach graph z v) {z : α} (hz : z ∈ cur.stack) : Reach graph z v := by
  rw [h.stack] at hz
  rcases List.mem_append.mp hz with hz | hz
  · exact (hh.part z hz).2
  · rcases List.mem_cons.mp hz with rfl | hz
    · exact Relation.ReflTransGen.refl
    · exact hbelow z hz

/-- Lowering the link to the number of a node below that the open one reaches. -/
theorem Hung.lower (hh : Hung graph nodes v st seg cur) {i : ℕ}
    (hi : i < cur.lowlink v → ∃ x ∈ st.stack, cur.index x = some i ∧ Reach graph v x) :
    Hung graph nodes v st seg (cur.lower v i) := by
  refine ⟨hh.sound.lower v i, hh.part, ?_⟩
  have hlow := lower_lowlink cur v i
  have hindex := (lower_eq cur v i).2.1
  unfold Linked
  rw [hlow, hindex]
  by_cases hlt : i < cur.lowlink v
  · rw [Nat.min_eq_right hlt.le]
    exact Or.inr (hi hlt)
  · rw [Nat.min_eq_left (by omega)]
    exact hh.link

/-- A target already numbered. -/
theorem Hung.seen (hh : Hung graph nodes v st seg cur) (h : Open graph v st seg cur) {w : α} (hedge : w ∈ graph v)
    {i : ℕ} (hw : cur.index w = some i) :
    Hung graph nodes v st seg (if w ∈ cur.stack then cur.lower v i else cur) := by
  split
  · rename_i hmem
    have hle := h.low_le
    exact hh.lower fun hlt => ⟨w, h.below hmem hw (by omega), hw, Relation.ReflTransGen.single hedge⟩
  · exact hh

/-- A target visited from here: its part is added to the part of the open node. -/
theorem Hung.visit (hh : Hung graph nodes v st seg cur) (h : Open graph v st seg cur)
    (hbelow : ∀ z ∈ st.stack, Reach graph z v) {w : α} (hedge : w ∈ graph v) {cur' : TarjanState α}
    (hvis : Visited graph w cur cur') (htied : Tied graph nodes w cur cur') {seg' : List α}
    (hopen : Open graph v st seg' (cur'.lower v (cur'.lowlink w))) :
    Hung graph nodes v st seg' (cur'.lower v (cur'.lowlink w)) := by
  obtain ⟨part, hstack, hpart, hlinked⟩ := htied.part
  have hvw : Reach graph v w := Relation.ReflTransGen.single hedge
  have hseg : seg' = part ++ seg := by
    have heq := hopen.stack
    rw [(lower_eq cur' v (cur'.lowlink w)).1, hstack, h.stack, ← List.append_assoc] at heq
    exact (List.append_cancel_right heq).symm
  have hlowv : cur'.lowlink v = cur.lowlink v := hvis.ext.low v _ h.idx
  have hmid : Hung graph nodes v st seg' cur' := by
    refine ⟨htied.sound, fun y hy => ?_, ?_⟩
    · rw [hseg] at hy
      rcases List.mem_append.mp hy with hy | hy
      · -- a part is left only where the target reaches a node that was on the stack
        rcases hlinked with ⟨rfl, -⟩ | ⟨x, hx, -, hwx⟩
        · exact absurd hy List.not_mem_nil
        · obtain ⟨hwy, hyw⟩ := hpart y hy
          exact ⟨hvw.trans hwy, (hyw.trans hwx).trans (hh.reach h hbelow hx)⟩
      · exact hh.part y hy
    · rw [hlowv]
      refine hh.link.imp_right fun ⟨x, hx, hxi, hreach⟩ => ⟨x, hx, ?_, hreach⟩
      rw [hlowv]
      exact hvis.ext.index x _ hxi
  refine hmid.lower fun hlt => ?_
  have hle := h.low_le
  rcases hlinked with ⟨-, hge⟩ | ⟨x, hx, hxi, hwx⟩
  · have := h.inv.index_lt v _ h.idx
    omega
  · obtain ⟨j, hj⟩ := h.inv.mem_stack hx
    obtain rfl : j = cur'.lowlink w := Option.some.inj ((hvis.ext.index x j hj).symm.trans hxi)
    exact ⟨x, h.below hx hj (by omega), hxi, hvw.trans hwx⟩

/-- The root of a component pops it whole; any other node leaves its part and itself. -/
theorem Hung.finish {tidy : List α → List α} (htidy : ∀ l, (tidy l).Perm l) (hh : Hung graph nodes v st seg cur)
    (h : Open graph v st seg cur) : Tied graph nodes v st (finish tidy v cur) := by
  unfold Tarjan.finish
  have hall : ∀ y ∈ seg ++ [v], Reach graph v y ∧ Reach graph y v := by
    intro y hy
    rcases List.mem_append.mp hy with hy | hy
    · exact hh.part y hy
    · rw [List.mem_singleton.mp hy]
      exact ⟨Relation.ReflTransGen.refl, Relation.ReflTransGen.refl⟩
  split
  · rename_i hroot
    rw [h.idx] at hroot
    rw [h.stack, popUntil_append v h.not_mem]
    have hperm : (st.stack ++ (cur.result ++ [tidy (seg ++ [v])]).flatten).Perm (cur.stack ++ cur.result.flatten) := by
      rw [h.stack, List.flatten_append, List.flatten_singleton, ← List.append_assoc, List.append_cons seg v st.stack,
        List.append_assoc (seg ++ [v])]
      exact List.perm_append_comm.trans ((htidy _).append_right _)
    refine ⟨⟨hperm.nodup_iff.mpr hh.sound.nodup, fun x hx => hh.sound.mem x (hperm.mem_iff.mp hx), fun comp hcomp => ?_⟩,
      [], rfl, fun y hy => absurd hy List.not_mem_nil, Or.inl ⟨rfl, (Option.some.inj hroot).le⟩⟩
    rcases List.mem_append.mp hcomp with hcomp | hcomp
    · exact hh.sound.joined comp hcomp
    · rw [List.mem_singleton.mp hcomp]
      intro x hx y hy
      exact (hall x ((htidy _).mem_iff.mp hx)).2.trans (hall y ((htidy _).mem_iff.mp hy)).1
  · rename_i hroot
    refine ⟨hh.sound, seg ++ [v], ?_, hall, Or.inr ?_⟩
    · rw [h.stack, List.append_assoc, List.singleton_append]
    · refine hh.link.resolve_left fun heq => hroot ?_
      rw [h.idx, heq]

end Steps

/-! The whole search. -/

section Search

/-- The nodes not numbered yet. -/
def unvisited (nodes : Finset α) (st : TarjanState α) : Finset α := nodes.filter fun x => st.index x = none

theorem Ext.unvisited_card_le (nodes : Finset α) {st st' : TarjanState α} (h : Ext st st') :
    (unvisited nodes st').card ≤ (unvisited nodes st).card := by
  refine Finset.card_le_card fun x hx => ?_
  obtain ⟨hmem, hx⟩ := Finset.mem_filter.mp hx
  refine Finset.mem_filter.mpr ⟨hmem, ?_⟩
  by_contra hne
  obtain ⟨i, hi⟩ := Option.ne_none_iff_exists'.mp hne
  exact absurd (hx.symm.trans (h.index x i hi)) (by simp)

theorem unvisited_enter {st : TarjanState α} {v : α} (hmem : v ∈ nodes) (hv : st.index v = none) :
    (unvisited nodes (enter v st)).card < (unvisited nodes st).card := by
  refine Finset.card_lt_card (Finset.ssubset_iff_of_subset ?_ |>.mpr ⟨v, Finset.mem_filter.mpr ⟨hmem, hv⟩, fun hin => ?_⟩)
  · intro x hx
    obtain ⟨hx, hnone⟩ := Finset.mem_filter.mp hx
    by_cases hxv : x = v
    · exact Finset.mem_filter.mpr ⟨hx, hxv ▸ hv⟩
    · exact Finset.mem_filter.mpr ⟨hx, (enter_index_of_ne st hxv).symm.trans hnone⟩
  · exact absurd ((enter_index_self v st).symm.trans (Finset.mem_filter.mp hin).2) (by simp)

variable {tidy : List α → List α} (htidy : ∀ l, (tidy l).Perm l)

/-- Going through the edges keeps the node open, given what a visit does. -/
theorem edgeLoop_spec {fuel : ℕ} {visit : α → TarjanState α → Option (TarjanState α)}
    (hvisit : ∀ w cur, w ∈ nodes → Inv graph cur → Sound graph nodes cur → (∀ z ∈ cur.stack, Reach graph z w) →
      cur.index w = none → (unvisited nodes cur).card ≤ fuel →
      ∃ cur', visit w cur = some cur' ∧ Visited graph w cur cur' ∧ Tied graph nodes w cur cur')
    {v : α} {st : TarjanState α} (hv : st.index v = none) (hbelow : ∀ z ∈ st.stack, Reach graph z v) (ws : List α)
    (hws : ∀ w ∈ ws, w ∈ nodes ∧ w ∈ graph v) {done seg : List α} {cur : TarjanState α} (h : Open graph v st seg cur)
    (hb : Bounded graph v st done seg cur (cur.lowlink v)) (hh : Hung graph nodes v st seg cur)
    (hfuel : (unvisited nodes cur).card ≤ fuel) :
    ∃ cur' seg', edgeLoop visit v ws cur = some cur' ∧ Open graph v st seg' cur' ∧
      Bounded graph v st (done ++ ws) seg' cur' (cur'.lowlink v) ∧ Hung graph nodes v st seg' cur' := by
  induction ws generalizing done seg cur with
  | nil => exact ⟨cur, seg, rfl, h, by rw [List.append_nil]; exact hb, hh⟩
  | cons w ws ih =>
    obtain ⟨hmem, hedge⟩ := hws w List.mem_cons_self
    have hrest : ∀ x ∈ ws, x ∈ nodes ∧ x ∈ graph v := fun x hx => hws x (List.mem_cons_of_mem _ hx)
    rw [edgeLoop, List.append_cons done w ws]
    split
    · rename_i hw
      have hreach : ∀ z ∈ cur.stack, Reach graph z w := fun z hz => (hh.reach h hbelow hz).tail hedge
      obtain ⟨cur', hrun, hvis, htied⟩ := hvisit w cur hmem h.inv hh.sound hreach hw hfuel
      obtain ⟨seg', hopen, hbound⟩ := h.visit hb hv hw hvis
      rw [hrun, Option.bind_some]
      refine ih hrest hopen hbound (hh.visit h hbelow hedge hvis htied hopen) ?_
      have hindex := (lower_eq cur' v (cur'.lowlink w)).2.1
      have hle := hvis.ext.unvisited_card_le nodes
      unfold unvisited at hle hfuel ⊢
      rw [hindex]
      omega
    · rename_i i hw
      have hhung := hh.seen h hedge hw
      obtain ⟨cur', rfl, hopen, hbound⟩ := h.seen hb hv hw
      refine ih hrest hopen hbound hhung ?_
      have hindex : (if w ∈ cur.stack then cur.lower v i else cur).index = cur.index := by
        split
        · exact (lower_eq cur v i).2.1
        · rfl
      unfold unvisited at hfuel ⊢
      rw [hindex]
      exact hfuel

include htidy in
theorem strongconnect_spec (hnodes : ∀ v ∈ nodes, ∀ w ∈ graph v, w ∈ nodes) (fuel : ℕ) (v : α)
    (st : TarjanState α) (hmem : v ∈ nodes) (hst : Inv graph st) (hsound : Sound graph nodes st)
    (hbelow : ∀ z ∈ st.stack, Reach graph z v) (hv : st.index v = none) (hfuel : (unvisited nodes st).card ≤ fuel) :
    ∃ st', strongconnect tidy graph fuel v st = some st' ∧ Visited graph v st st' ∧ Tied graph nodes v st st' := by
  induction fuel generalizing v st with
  | zero =>
    have hin : v ∈ unvisited nodes st := Finset.mem_filter.mpr ⟨hmem, hv⟩
    exact absurd (Finset.card_pos.mpr ⟨v, hin⟩) (by omega)
  | succ fuel ih =>
    have hlt := unvisited_enter hmem hv
    obtain ⟨cur, seg, hrun, hopen, hbound, hhung⟩ := edgeLoop_spec
      (fun w cur hw hcur hs hreach hwn hle => ih w cur hw hcur hs hreach hwn hle) hv hbelow (graph v)
      (fun w hw => ⟨hnodes v hmem w hw, hw⟩) (hst.enter hv)
      ⟨fun y hy => absurd hy List.not_mem_nil, fun x hx => absurd hx List.not_mem_nil⟩ (hsound.enter hst hmem hv)
      (by omega)
    rw [List.nil_append] at hbound
    exact ⟨finish tidy v cur, by rw [strongconnect, hrun]; rfl,
      hopen.finish (fun l x => (htidy l).mem_iff) hst hv hbound, hhung.finish htidy hopen⟩

include htidy in
/-- The search ends with components that hold every node it starts from. -/
theorem connectAll_spec (hnodes : ∀ v ∈ nodes, ∀ w ∈ graph v, w ∈ nodes) {fuel : ℕ} (hfuel : nodes.card ≤ fuel)
    (vs : List α) (hvs : ∀ v ∈ vs, v ∈ nodes) {st : TarjanState α} (hst : Inv graph st) (hsound : Sound graph nodes st)
    (hstack : st.stack = []) :
    ∃ st', connectAll tidy graph fuel vs st = some st' ∧ Inv graph st' ∧ Sound graph nodes st' ∧ Ext st st' ∧
      st'.stack = [] ∧ ∀ v ∈ vs, v ∈ st'.result.flatten := by
  induction vs generalizing st with
  | nil => exact ⟨st, rfl, hst, hsound, Ext.refl st, hstack, fun v hv => absurd hv List.not_mem_nil⟩
  | cons v vs ih =>
    have hrest : ∀ x ∈ vs, x ∈ nodes := fun x hx => hvs x (List.mem_cons_of_mem _ hx)
    rw [connectAll]
    by_cases hv : (st.index v).isSome = true
    · rw [if_pos hv]
      obtain ⟨st', hrun, hinv, hsound', hext, hnil, hall⟩ := ih hrest hst hsound hstack
      refine ⟨st', hrun, hinv, hsound', hext, hnil, fun x hx => ?_⟩
      rcases List.mem_cons.mp hx with rfl | hx
      · rcases (hst.visited x).mp hv with hx | hx
        · rw [hstack] at hx
          exact absurd hx List.not_mem_nil
        · exact hext.result x hx
      · exact hall x hx
    · rw [if_neg hv]
      have hnone : st.index v = none := by simpa using hv
      have hle : (unvisited nodes st).card ≤ fuel := (Finset.card_le_card (Finset.filter_subset ..)).trans hfuel
      have hbelow : ∀ z ∈ st.stack, Reach graph z v := by
        rw [hstack]
        exact fun z hz => absurd hz List.not_mem_nil
      obtain ⟨mid, hrun, hvis, htied⟩ := strongconnect_spec htidy hnodes fuel v st (hvs v List.mem_cons_self) hst
        hsound hbelow hnone hle
      obtain ⟨seg, hseg, -, hlink⟩ := htied.part
      have hmid : mid.stack = [] := by
        rcases hlink with ⟨rfl, -⟩ | ⟨x, hx, -⟩
        · rw [hseg, hstack, List.nil_append]
        · rw [hstack] at hx
          exact absurd hx List.not_mem_nil
      obtain ⟨st', hrun', hinv, hsound', hext, hnil, hall⟩ := ih hrest hvis.inv htied.sound hmid
      refine ⟨st', by rw [hrun, Option.bind_some]; exact hrun', hinv, hsound', hvis.ext.trans hext, hnil, fun x hx => ?_⟩
      rcases List.mem_cons.mp hx with rfl | hx
      · rcases (hvis.inv.visited x).mp hvis.seen with hx | hx
        · rw [hmid] at hx
          exact absurd hx List.not_mem_nil
        · exact hext.result x hx
      · exact hall x hx

end Search

/-! Components are tidied. -/

section Tidied

/-- Every component so far came out of tidying. -/
def Tidied (tidy : List α → List α) (st : TarjanState α) : Prop := ∀ comp ∈ st.result, ∃ l, comp = tidy l

variable {tidy : List α → List α}

theorem Tidied.finish {st : TarjanState α} (h : Tidied tidy st) (v : α) : Tidied tidy (finish tidy v st) := by
  unfold Tarjan.finish
  split
  · intro comp hcomp
    rcases List.mem_append.mp hcomp with hcomp | hcomp
    · exact h comp hcomp
    · exact ⟨_, List.mem_singleton.mp hcomp⟩
  · exact h

theorem edgeLoop_tidied {visit : α → TarjanState α → Option (TarjanState α)}
    (hvisit : ∀ w cur cur', Tidied tidy cur → visit w cur = some cur' → Tidied tidy cur') {v : α} (ws : List α)
    {cur cur' : TarjanState α} (h : Tidied tidy cur) (hrun : edgeLoop visit v ws cur = some cur') : Tidied tidy cur' := by
  induction ws generalizing cur with
  | nil =>
    obtain rfl := Option.some.inj hrun
    exact h
  | cons w ws ih =>
    have hlower : ∀ (st : TarjanState α) i, Tidied tidy st → Tidied tidy (st.lower v i) := by
      intro st i hst
      unfold Tidied
      rw [(lower_eq st v i).2.2.1]
      exact hst
    rw [edgeLoop] at hrun
    split at hrun
    · obtain ⟨mid, hmid, hrest⟩ := Option.bind_eq_some_iff.mp hrun
      exact ih (hlower mid _ (hvisit w cur mid h hmid)) hrest
    · refine ih ?_ hrun
      split
      · exact hlower cur _ h
      · exact h

theorem strongconnect_tidied (fuel : ℕ) (v : α) (st st' : TarjanState α) (h : Tidied tidy st)
    (hrun : strongconnect tidy graph fuel v st = some st') : Tidied tidy st' := by
  induction fuel generalizing v st st' with
  | zero => exact absurd hrun (by simp [strongconnect])
  | succ fuel ih =>
    obtain ⟨cur, hloop, rfl⟩ := Option.map_eq_some_iff.mp hrun
    have henter : Tidied tidy (enter v st) := h
    exact (edgeLoop_tidied ih (graph v) henter hloop).finish v

theorem connectAll_tidied {fuel : ℕ} (vs : List α) {st st' : TarjanState α} (h : Tidied tidy st)
    (hrun : connectAll tidy graph fuel vs st = some st') : Tidied tidy st' := by
  induction vs generalizing st with
  | nil =>
    obtain rfl := Option.some.inj hrun
    exact h
  | cons v vs ih =>
    rw [connectAll] at hrun
    split at hrun
    · exact ih h hrun
    · obtain ⟨mid, hmid, hrest⟩ := Option.bind_eq_some_iff.mp hrun
      exact ih (strongconnect_tidied fuel v st mid h hmid) hrest

end Tidied

/-! What the invariants say of a finished search. -/

section Result

variable {comps : List (List α)}

/-- Along a path the components do not come later. -/
theorem Ordered.reach (h : Ordered graph comps) {pre post : List (List α)} {comp : List α} (heq : comps = pre ++ comp :: post) {x y : α}
    (hx : x ∈ pre.flatten ∨ x ∈ comp) (hxy : Reach graph x y) : y ∈ pre.flatten ∨ y ∈ comp := by
  induction hxy with
  | refl => exact hx
  | tail _ hedge ih =>
    rcases ih with hmem | hmem
    · obtain ⟨c, hc, hin⟩ := List.mem_flatten.mp hmem
      obtain ⟨before, after, rfl⟩ := List.append_of_mem hc
      have hsplit : comps = before ++ c :: (after ++ comp :: post) := by
        rw [heq, List.append_assoc, List.cons_append]
      refine Or.inl ((h before c _ hsplit _ hin _ hedge).elim (fun hy => ?_) fun hy => ?_)
      · rw [List.flatten_append]
        exact List.mem_append_left _ hy
      · exact List.mem_flatten.mpr ⟨c, hc, hy⟩
    · exact h pre comp post heq _ hmem _ hedge

/-- No node is in two components. -/
theorem eq_of_mem_getElem (hnodup : comps.flatten.Nodup) {i j : ℕ} {hi : i < comps.length} {hj : j < comps.length} {x : α}
    (hxi : x ∈ comps[i]) (hxj : x ∈ comps[j]) : i = j := by
  have hpair := List.pairwise_iff_getElem.mp (List.nodup_flatten.mp hnodup).2
  rcases lt_trichotomy i j with hlt | heq | hlt
  · exact absurd hxj (hpair i j hi hj hlt hxi)
  · exact heq
  · exact absurd hxi (hpair j i hj hi hlt hxj)

/-- Nodes that reach each other share a component. -/
theorem Ordered.mem_of_mutual (h : Ordered graph comps) (hnodup : comps.flatten.Nodup) {comp : List α}
    (hcomp : comp ∈ comps) {x y : α} (hx : x ∈ comp) (hxy : Reach graph x y) (hyx : Reach graph y x) : y ∈ comp := by
  obtain ⟨pre, post, heq⟩ := List.append_of_mem hcomp
  refine (h.reach heq (Or.inr hx) hxy).resolve_left fun hy => ?_
  obtain ⟨c, hc, hin⟩ := List.mem_flatten.mp hy
  obtain ⟨before, after, rfl⟩ := List.append_of_mem hc
  have hsplit : comps = before ++ c :: (after ++ comp :: post) := by
    rw [heq, List.append_assoc, List.cons_append]
  -- the way back would lead to before the component
  have hback : x ∈ (before ++ c :: after).flatten := by
    rw [List.flatten_append, List.flatten_cons]
    rcases h.reach hsplit (Or.inr hin) hyx with hmem | hmem
    · exact List.mem_append_left _ hmem
    · exact List.mem_append_right _ (List.mem_append_left _ hmem)
  rw [heq, List.flatten_append, List.flatten_cons] at hnodup
  exact List.disjoint_of_nodup_append hnodup hback (List.mem_append_left _ hx)

/-- An edge between two components leads to the earlier one. -/
theorem Ordered.lt_of_edge (h : Ordered graph comps) (hnodup : comps.flatten.Nodup) {i j : ℕ} {hi : i < comps.length}
    {hj : j < comps.length} {x y : α} (hx : x ∈ comps[i]) (hedge : y ∈ graph x) (hy : y ∈ comps[j]) (hne : i ≠ j) :
    j < i := by
  have hsplit : comps = comps.take i ++ comps[i] :: comps.drop (i + 1) := by
    rw [List.getElem_cons_drop, List.take_append_drop]
  rcases h _ _ _ hsplit x hx y hedge with hmem | hmem
  · obtain ⟨c, hc, hin⟩ := List.mem_flatten.mp hmem
    obtain ⟨k, hk, rfl⟩ := List.mem_take_iff_getElem.mp hc
    have := eq_of_mem_getElem hnodup hin hy
    omega
  · exact absurd (eq_of_mem_getElem hnodup hmem hy) hne

end Result

end Karac.Lib.Tarjan
