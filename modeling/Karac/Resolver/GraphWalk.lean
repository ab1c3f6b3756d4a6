import Karac.Resolver.Consistency
import Karac.Lib.Circles

/-! What the walk over the dependencies finds: the manifests that the entry point reaches, or a cycle, or a
dependency that cannot be followed. The stack is the way from the entry point to where the walk is, so a
cycle that is reported is one; what the walk has left leads into none. -/

namespace Karac.Resolver

open Lib Lib.Toml Lib.Circles

variable {Dir Req Ver Fault : Type} [LinearOrder Dir]

section

variable (project : Project Dir Req Ver Fault) (rootDir : Dir) (rootManifest : Manifest Dir Req)

/-- Where the walk goes from a dependency. Without a provider, and offline, registry and git dependencies
are only recorded. -/
def target (dir : Dir) (depName : Text) : DependencySpec Dir Req → Option Dir
  | .path path _ => some (pathTarget project.fs project.options.offlineRoot dir depName path)
  | .registry req =>
    match project.options.registryProvider, project.options.offlineRoot with
    | some provider, none => match fetchRegistryDep project provider depName req with
      | .ok materialized => some (canonicalizeOrSelf project.fs materialized.rootDir)
      | .error _ => none
    | _, _ => none
  | .git url reference _ =>
    match project.options.gitProvider, project.options.offlineRoot with
    | some provider, none => match provider.fetch url reference with
      | .ok materialized => some (canonicalizeOrSelf project.fs materialized.rootDir)
      | .error _ => none
    | _, _ => none
  | .workspace => none

/-- The manifest in one directory has a dependency on the one in another. -/
def DependsOn (dir dir' : Dir) : Prop :=
  ∃ depName spec, Declares project rootDir rootManifest dir depName spec ∧ target project dir depName spec = some dir'

abbrev Reached (dir : Dir) : Prop := Relation.ReflTransGen (DependsOn project rootDir rootManifest) rootDir dir

/-- A dependency that the walk can follow. -/
def Resolves (dir : Dir) (depName : Text) : DependencySpec Dir Req → Prop
  | .path path _ =>
    let dir' := pathTarget project.fs project.options.offlineRoot dir depName path
    (project.loader.manifestExists dir' = true ∨ dir' = rootDir) ∧ (manifestAt project rootDir rootManifest dir').isSome = true
  | .registry req =>
    match project.options.registryProvider, project.options.offlineRoot with
    | some provider, none => ∃ materialized, fetchRegistryDep project provider depName req = .ok materialized ∧
        (manifestAt project rootDir rootManifest (canonicalizeOrSelf project.fs materialized.rootDir)).isSome = true
    | _, _ => True
  | .git url reference _ =>
    match project.options.gitProvider, project.options.offlineRoot with
    | some provider, none => ∃ materialized, provider.fetch url reference = .ok materialized ∧
        (manifestAt project rootDir rootManifest (canonicalizeOrSelf project.fs materialized.rootDir)).isSome = true
    | _, _ => True
  | .workspace => True

/-- The dependencies of the manifest in a directory, those of the workspace looked up, can all be followed. -/
def ResolvesAt (dir : Dir) : Prop :=
  ∃ manifest derived, manifestAt project rootDir rootManifest dir = some manifest ∧
    declaredDeps project rootDir dir manifest = .ok derived ∧
    ∀ dep ∈ derived.entries, Resolves project rootDir rootManifest dir dep.1 dep.2

/-- A way along dependencies from a manifest that the entry point reaches back to it. -/
structure IsCycle (chain : List Dir) : Prop where
  steps : chain.IsChain (DependsOn project rootDir rootManifest)
  closed : chain.head? = chain.getLast?
  long : 2 ≤ chain.length
  reached : ∀ dir ∈ chain, Reached project rootDir rootManifest dir

/-- An error of the walk: a cycle, or something that cannot be followed. -/
def Warranted : DepGraphError Dir Fault → Prop
  | .dependencyCycle chain => IsCycle project rootDir rootManifest chain
  | _ => ∃ dir, Reached project rootDir rootManifest dir ∧ ¬ResolvesAt project rootDir rootManifest dir

/-- How a step of the walk ends: with `P`, or with an error that there is reason for. -/
def Ends (P : Walk Dir Req Ver → Prop) : WalkResult Dir Req Ver Fault → Prop
  | .ok s => P s
  | .error (.error e) => Warranted project rootDir rootManifest e
  | .error _ => False

/-- What holds of a walk between two steps. -/
structure Walk.OnWay (s : Walk Dir Req Ver) : Prop where
  set : ∀ dir, dir ∈ s.visitingSet ↔ dir ∈ s.visitingStack
  nodup : s.visitingStack.Nodup
  way : s.visitingStack.IsChain (DependsOn project rootDir rootManifest)
  reached : ∀ dir, dir ∈ s.visitingStack ∨ dir ∈ s.visited → Reached project rootDir rootManifest dir
  left : ∀ dir ∈ s.visited, Founded (DependsOn project rootDir rootManifest) dir ∧
    ∀ dir', DependsOn project rootDir rootManifest dir dir' → dir' ∈ s.visited
  manifests : ∀ dir, (s.manifests.get dir).isSome = true ↔ dir ∈ s.visitingStack ∨ dir ∈ s.visited
  registry : ∀ key res, s.registryResolutions.get key = some res →
    ((ofLex key).1 ∈ s.visitingStack ∨ (ofLex key).1 ∈ s.visited) ∧ DependsOn project rootDir rootManifest (ofLex key).1 res.dir
  git : ∀ key res, s.gitResolutions.get key = some res →
    ((ofLex key).1 ∈ s.visitingStack ∨ (ofLex key).1 ∈ s.visited) ∧ DependsOn project rootDir rootManifest (ofLex key).1 res.dir

end

/-- A later point of the walk from the same place. -/
structure Walk.Later (s s' : Walk Dir Req Ver) : Prop where
  stack : s'.visitingStack = s.visitingStack
  visited : s.visited ⊆ s'.visited

theorem Walk.Later.refl (s : Walk Dir Req Ver) : s.Later s := ⟨rfl, subset_rfl⟩

theorem Walk.Later.trans {s s' s'' : Walk Dir Req Ver} (h : s.Later s') (h' : s'.Later s'') : s.Later s'' :=
  ⟨h'.stack.trans h.stack, fun _ hd => h'.visited (h.visited hd)⟩

variable {project : Project Dir Req Ver Fault} {rootDir : Dir} {rootManifest : Manifest Dir Req}

theorem Ends.bind {P Q : Walk Dir Req Ver → Prop} {r : WalkResult Dir Req Ver Fault}
    {f : Walk Dir Req Ver → WalkResult Dir Req Ver Fault} (h : Ends project rootDir rootManifest P r)
    (hf : ∀ s, P s → Ends project rootDir rootManifest Q (f s)) : Ends project rootDir rootManifest Q (r >>= f) := by
  cases r with
  | ok s => exact hf s h
  | error e => cases e <;> exact h

theorem Ends.mono {P Q : Walk Dir Req Ver → Prop} {r : WalkResult Dir Req Ver Fault}
    (h : Ends project rootDir rootManifest P r) (hPQ : ∀ s, P s → Q s) : Ends project rootDir rootManifest Q r := by
  cases r with
  | ok s => exact hPQ s h
  | error e => cases e <;> exact h

/-- What a pass over dependencies leaves: every one of them seen to. -/
theorem Ends.foldlM {f : Walk Dir Req Ver → Text × DependencySpec Dir Req → WalkResult Dir Req Ver Fault}
    (seen : Text × DependencySpec Dir Req → Walk Dir Req Ver → Prop)
    (hseen : ∀ dep s s', s.Later s' → seen dep s → seen dep s') {deps : List (Text × DependencySpec Dir Req)}
    {s : Walk Dir Req Ver} (hs : s.OnWay project rootDir rootManifest)
    (hf : ∀ dep ∈ deps, ∀ mid, mid.OnWay project rootDir rootManifest → s.Later mid →
      Ends project rootDir rootManifest (fun s' => s'.OnWay project rootDir rootManifest ∧ mid.Later s' ∧ seen dep s') (f mid dep)) :
    Ends project rootDir rootManifest (fun s' => s'.OnWay project rootDir rootManifest ∧ s.Later s' ∧ ∀ dep ∈ deps, seen dep s')
      (deps.foldlM f s) := by
  have hfold : ∀ (l : List (Text × DependencySpec Dir Req)) (mid : Walk Dir Req Ver), l ⊆ deps →
      mid.OnWay project rootDir rootManifest → s.Later mid →
      Ends project rootDir rootManifest (fun s' => s'.OnWay project rootDir rootManifest ∧ mid.Later s' ∧ ∀ dep ∈ l, seen dep s')
        (l.foldlM f mid) := by
    intro l
    induction l with
    | nil => exact fun mid _ hmid _ => ⟨hmid, Walk.Later.refl mid, fun _ h => absurd h List.not_mem_nil⟩
    | cons dep l ih =>
      intro mid hl hmid hlater
      rw [List.foldlM_cons]
      refine (hf dep (hl List.mem_cons_self) mid hmid hlater).bind fun s₁ ⟨hs₁, hlater₁, hdep⟩ => ?_
      refine (ih s₁ (fun x hx => hl (List.mem_cons_of_mem _ hx)) hs₁ (hlater.trans hlater₁)).mono fun s₂ ⟨hs₂, hlater₂, hall⟩ => ?_
      exact ⟨hs₂, hlater₁.trans hlater₂, List.forall_mem_cons.mpr ⟨hseen dep s₁ s₂ hlater₂ hdep, hall⟩⟩
  exact hfold deps s (List.Subset.refl _) hs (Walk.Later.refl s)

/-! The places where the walk is. -/

namespace Walk.OnWay

variable {s : Walk Dir Req Ver}

theorem start : (Walk.start : Walk Dir Req Ver).OnWay project rootDir rootManifest where
  set _ := by simp [Walk.start]
  nodup := List.nodup_nil
  way := List.isChain_nil
  reached _ h := by simp [Walk.start] at h
  left _ h := by simp [Walk.start] at h
  manifests _ := by simp [Walk.start]
  registry _ _ h := by simp [Walk.start] at h
  git _ _ h := by simp [Walk.start] at h

theorem recordCandidates (h : s.OnWay project rootDir rootManifest) (depName : Text)
    (candidates : List (RegistryCandidate Req Ver)) :
    (s.recordCandidates depName candidates).OnWay project rootDir rootManifest := by
  unfold Walk.recordCandidates
  split_ifs
  · exact h
  · exact ⟨h.set, h.nodup, h.way, h.reached, h.left, h.manifests, h.registry, h.git⟩

theorem recordRegistry (h : s.OnWay project rootDir rootManifest) {dir : Dir} (hdir : dir ∈ s.visitingStack) (depName : Text)
    (res : RegistryResolution Dir Ver) (hdep : DependsOn project rootDir rootManifest dir res.dir) :
    (s.recordRegistry dir depName res).OnWay project rootDir rootManifest where
  set := h.set
  nodup := h.nodup
  way := h.way
  reached := h.reached
  left := h.left
  manifests := h.manifests
  registry key res' hres := by
    have hmap : (s.registryResolutions.insert (toLex (dir, depName)) res).get key = some res' := hres
    rw [SortedMap.get_insert] at hmap
    split_ifs at hmap with hkey
    · rw [hkey, ← Option.some.inj hmap]
      exact ⟨Or.inl hdir, hdep⟩
    · exact h.registry key res' hmap
  git := h.git

theorem recordGit (h : s.OnWay project rootDir rootManifest) {dir : Dir} (hdir : dir ∈ s.visitingStack) (depName : Text)
    (res : GitResolution Dir) (hdep : DependsOn project rootDir rootManifest dir res.dir) :
    (s.recordGit dir depName res).OnWay project rootDir rootManifest where
  set := h.set
  nodup := h.nodup
  way := h.way
  reached := h.reached
  left := h.left
  manifests := h.manifests
  registry := h.registry
  git key res' hres := by
    have hmap : (s.gitResolutions.insert (toLex (dir, depName)) res).get key = some res' := hres
    rw [SortedMap.get_insert] at hmap
    split_ifs at hmap with hkey
    · rw [hkey, ← Option.some.inj hmap]
      exact ⟨Or.inl hdir, hdep⟩
    · exact h.git key res' hmap

/-- A step along a dependency to a manifest that the walk has not come to. -/
theorem enter (h : s.OnWay project rootDir rootManifest) {dir : Dir} (hstack : dir ∉ s.visitingStack)
    (hreached : Reached project rootDir rootManifest dir)
    (hstep : ∀ last, s.visitingStack.getLast? = some last → DependsOn project rootDir rootManifest last dir)
    (manifest : Manifest Dir Req) (derived : SortedMap Text (DependencySpec Dir Req)) :
    (s.enter dir manifest derived).OnWay project rootDir rootManifest where
  set d := by
    rw [show (s.enter dir manifest derived).visitingSet = insert dir s.visitingSet from rfl, Finset.mem_insert, h.set,
      show (s.enter dir manifest derived).visitingStack = s.visitingStack ++ [dir] from rfl, List.mem_append,
      List.mem_singleton, or_comm]
  nodup := List.nodup_append.mpr ⟨h.nodup, List.nodup_singleton dir, fun d hd d' hd' heq =>
    hstack (List.mem_singleton.mp hd' ▸ heq ▸ hd)⟩
  way := h.way.append (List.isChain_singleton dir) fun last hlast d hd => by
    obtain rfl : dir = d := Option.some.inj hd
    exact hstep last hlast
  reached d hd := by
    rcases hd with hd | hd
    · rcases List.mem_append.mp hd with hd | hd
      · exact h.reached d (Or.inl hd)
      · rw [List.mem_singleton.mp hd]
        exact hreached
    · exact h.reached d (Or.inr hd)
  left := h.left
  manifests d := by
    rw [show (s.enter dir manifest derived).manifests = s.manifests.insert dir manifest from rfl, SortedMap.get_insert,
      show (s.enter dir manifest derived).visitingStack = s.visitingStack ++ [dir] from rfl, List.mem_append,
      List.mem_singleton]
    split_ifs with hd
    · simp [hd]
    · rw [h.manifests d]
      simp [hd, Walk.enter]
  registry key res hres := by
    obtain ⟨hkey, hdep⟩ := h.registry key res hres
    exact ⟨hkey.imp_left (List.mem_append_left _), hdep⟩
  git key res hres := by
    obtain ⟨hkey, hdep⟩ := h.git key res hres
    exact ⟨hkey.imp_left (List.mem_append_left _), hdep⟩

/-- The walk leaves a manifest when it has left those it depends on. -/
theorem leave (h : s.OnWay project rootDir rootManifest) {dir : Dir} {way : List Dir} (hstack : s.visitingStack = way ++ [dir])
    (hall : ∀ dir', DependsOn project rootDir rootManifest dir dir' → dir' ∈ s.visited) :
    (s.leave dir).OnWay project rootDir rootManifest ∧ (s.leave dir).visitingStack = way := by
  have hway : (s.leave dir).visitingStack = way := by
    rw [show (s.leave dir).visitingStack = s.visitingStack.dropLast from rfl, hstack, List.dropLast_concat]
  have hnodup := h.nodup
  rw [hstack, List.nodup_append] at hnodup
  have hmem : ∀ d, d ∈ s.visitingStack ∨ d ∈ s.visited ↔ d ∈ way ∨ d ∈ (s.leave dir).visited := by
    intro d
    rw [hstack, show (s.leave dir).visited = insert dir s.visited from rfl, Finset.mem_insert, List.mem_append,
      List.mem_singleton, or_assoc]
  refine ⟨⟨fun d => ?_, ?_, ?_, fun d hd => ?_, fun d hd => ?_, fun d => ?_, fun key res hres => ?_, fun key res hres => ?_⟩, hway⟩
  · rw [hway, show (s.leave dir).visitingSet = s.visitingSet.erase dir from rfl, Finset.mem_erase, h.set, hstack,
      List.mem_append, List.mem_singleton]
    refine ⟨fun ⟨hne, hd⟩ => hd.resolve_right hne, fun hd => ⟨fun heq => ?_, Or.inl hd⟩⟩
    exact hnodup.2.2 d hd dir (List.mem_singleton_self dir) heq
  · rw [hway]
    exact hnodup.1
  · rw [hway]
    have := h.way
    rw [hstack] at this
    exact this.left_of_append
  · rw [hway, ← hmem] at hd
    exact h.reached d hd
  · rw [show (s.leave dir).visited = insert dir s.visited from rfl] at hd ⊢
    rcases Finset.mem_insert.mp hd with rfl | hd
    · exact ⟨founded_of_steps fun dir' hdep => (h.left dir' (hall dir' hdep)).1,
        fun dir' hdep => Finset.mem_insert_of_mem (hall dir' hdep)⟩
    · exact ⟨(h.left d hd).1, fun dir' hdep => Finset.mem_insert_of_mem ((h.left d hd).2 dir' hdep)⟩
  · rw [hway, ← hmem]
    exact h.manifests d
  · rw [hway, ← hmem]
    exact h.registry key res hres
  · rw [hway, ← hmem]
    exact h.git key res hres

/-- What is on the way again closes a cycle. -/
theorem isCycle (h : s.OnWay project rootDir rootManifest) {dir dir' : Dir} (hlast : s.visitingStack.getLast? = some dir)
    (hdep : DependsOn project rootDir rootManifest dir dir') (hmem : dir' ∈ s.visitingStack) :
    IsCycle project rootDir rootManifest
      (s.visitingStack.drop ((s.visitingStack.findIdx? fun p => p = dir').getD 0) ++ [dir']) := by
  obtain ⟨i, hi⟩ : ∃ i, (s.visitingStack.findIdx? fun p => p = dir') = some i := by
    rw [← Option.isSome_iff_exists, List.findIdx?_isSome, List.any_eq_true]
    exact ⟨dir', hmem, decide_eq_true rfl⟩
  obtain ⟨hlt, heq, -⟩ := List.findIdx?_eq_some_iff_getElem.mp hi
  have hat : s.visitingStack[i] = dir' := of_decide_eq_true heq
  have hdrop : s.visitingStack.drop i = dir' :: s.visitingStack.drop (i + 1) := by rw [List.drop_eq_getElem_cons hlt, hat]
  have hend : (s.visitingStack.drop i).getLast? = some dir := by
    rw [List.getLast?_drop, if_neg (by omega), hlast]
  rw [hi, Option.getD_some]
  refine ⟨?_, ?_, ?_, fun d hd => ?_⟩
  · have hsuffix : (s.visitingStack.drop i).IsChain (DependsOn project rootDir rootManifest) := by
      have := h.way
      rw [← List.take_append_drop i s.visitingStack] at this
      exact this.right_of_append
    refine hsuffix.append (List.isChain_singleton dir') fun last hl d hd => ?_
    obtain rfl : dir' = d := Option.some.inj hd
    obtain rfl : dir = last := Option.some.inj (hend.symm.trans hl)
    exact hdep
  · rw [List.getLast?_concat, hdrop]
    rfl
  · rw [hdrop]
    simp
  · rcases List.mem_append.mp hd with hd | hd
    · exact h.reached d (Or.inl (List.mem_of_mem_drop hd))
    · rw [List.mem_singleton.mp hd]
      exact h.reached dir' (Or.inl hmem)

end Walk.OnWay

/-! One dependency. -/

theorem Walk.recordCandidates_later (s : Walk Dir Req Ver) (depName : Text) (candidates : List (RegistryCandidate Req Ver)) :
    s.Later (s.recordCandidates depName candidates) := by
  unfold Walk.recordCandidates
  split_ifs
  · exact Walk.Later.refl s
  · exact ⟨rfl, subset_rfl⟩

/-- How many of the manifests the walk has not come to. -/
def unmet (nodes : Finset Dir) (s : Walk Dir Req Ver) : ℕ := (nodes \ (s.visitingStack.toFinset ∪ s.visited)).card

theorem Walk.Later.unmet_le {s s' : Walk Dir Req Ver} (h : s.Later s') (nodes : Finset Dir) : unmet nodes s' ≤ unmet nodes s := by
  unfold unmet
  rw [h.stack]
  exact Finset.card_le_card (Finset.sdiff_subset_sdiff subset_rfl (Finset.union_subset_union_right h.visited))

theorem unmet_enter_lt {s : Walk Dir Req Ver} {nodes : Finset Dir} {dir : Dir} (hdir : dir ∈ nodes)
    (hstack : dir ∉ s.visitingStack) (hvisited : dir ∉ s.visited) (manifest : Manifest Dir Req)
    (derived : SortedMap Text (DependencySpec Dir Req)) : unmet nodes (s.enter dir manifest derived) < unmet nodes s := by
  unfold unmet
  refine Finset.card_lt_card (Finset.ssubset_iff_of_subset (Finset.sdiff_subset_sdiff subset_rfl ?_) |>.mpr ⟨dir, ?_, ?_⟩)
  · refine Finset.union_subset_union_left fun d hd => ?_
    exact List.mem_toFinset.mpr (List.mem_append_left _ (List.mem_toFinset.mp hd))
  · simp [hdir, hstack, hvisited]
  · simp [Walk.enter]

section Dependencies

variable (project rootDir rootManifest)

/-- A visit of a manifest that the walk has not come to, from one that depends on it, ends where it began with the
manifest left. -/
def VisitEnds (nodes : Finset Dir) (depth : ℕ)
    (recur : Dir → Manifest Dir Req → Walk Dir Req Ver → WalkResult Dir Req Ver Fault) : Prop :=
  ∀ dir manifest s, manifestAt project rootDir rootManifest dir = some manifest → s.OnWay project rootDir rootManifest →
    rootDir ∈ s.visitingStack → dir ∉ s.visitingStack → dir ∉ s.visited →
    (∀ last, s.visitingStack.getLast? = some last → DependsOn project rootDir rootManifest last dir) →
    Reached project rootDir rootManifest dir → unmet nodes s < depth →
    Ends project rootDir rootManifest (fun s' => s'.OnWay project rootDir rootManifest ∧ s.Later s' ∧ dir ∈ s'.visited)
      (recur dir manifest s)

variable {project rootDir rootManifest}

variable {nodes : Finset Dir} {depth : ℕ}
  {recur : Dir → Manifest Dir Req → Walk Dir Req Ver → WalkResult Dir Req Ver Fault} {dir : Dir}

theorem follow_ends (hrecur : VisitEnds project rootDir rootManifest nodes depth recur) {s : Walk Dir Req Ver}
    (hs : s.OnWay project rootDir rootManifest) (hroot : rootDir ∈ s.visitingStack) (hlast : s.visitingStack.getLast? = some dir)
    {dir' : Dir} (hdep : DependsOn project rootDir rootManifest dir dir') (hdepth : unmet nodes s < depth) (depName : Text)
    {missing : Option (DepGraphError Dir Fault)}
    (hmissing : ∀ e, missing = some e → dir' ≠ rootDir → Warranted project rootDir rootManifest e)
    (hload : manifestAt project rootDir rootManifest dir' = none → ¬ResolvesAt project rootDir rootManifest dir) :
    Ends project rootDir rootManifest (fun s' => s'.OnWay project rootDir rootManifest ∧ s.Later s' ∧ dir' ∈ s'.visited)
      (follow project.loader recur dir depName dir' missing s) := by
  unfold follow
  by_cases hvisiting : dir' ∈ s.visitingSet
  · rw [if_pos hvisiting]
    exact hs.isCycle hlast hdep ((hs.set dir').mp hvisiting)
  · rw [if_neg hvisiting]
    have hstack : dir' ∉ s.visitingStack := fun hmem => hvisiting ((hs.set dir').mpr hmem)
    by_cases hvisited : dir' ∈ s.visited
    · rw [if_pos hvisited]
      exact ⟨hs, Walk.Later.refl s, hvisited⟩
    · rw [if_neg hvisited]
      have hne : dir' ≠ rootDir := fun heq => hstack (heq ▸ hroot)
      have hreached : Reached project rootDir rootManifest dir := hs.reached dir (Or.inl (List.mem_of_getLast? hlast))
      cases missing with
      | some e => exact hmissing e rfl hne
      | none =>
        have hat : manifestAt project rootDir rootManifest dir' = _ := if_neg hne
        cases hloaded : project.loader.load dir' with
        | error e =>
          rw [hloaded] at hat
          exact ⟨dir, hreached, hload hat⟩
        | ok child =>
          rw [hloaded] at hat
          refine hrecur dir' child s hat hs hroot hstack hvisited (fun last hl => ?_) (hreached.tail hdep) hdepth
          obtain rfl : dir = last := Option.some.inj (hlast.symm.trans hl)
          exact hdep

/-- Where the walk is while it goes through the dependencies of a manifest. -/
structure InManifest (project : Project Dir Req Ver Fault) (rootDir : Dir) (rootManifest : Manifest Dir Req) (dir : Dir)
    (derived : SortedMap Text (DependencySpec Dir Req)) (nodes : Finset Dir) (depth : ℕ) (s : Walk Dir Req Ver) : Prop where
  derived : ∃ manifest, manifestAt project rootDir rootManifest dir = some manifest ∧
    declaredDeps project rootDir dir manifest = .ok derived
  onWay : s.OnWay project rootDir rootManifest
  root : rootDir ∈ s.visitingStack
  last : s.visitingStack.getLast? = some dir
  depth : unmet nodes s < depth

theorem InManifest.later {derived : SortedMap Text (DependencySpec Dir Req)} {s s' : Walk Dir Req Ver}
    (h : InManifest project rootDir rootManifest dir derived nodes depth s) (hs' : s'.OnWay project rootDir rootManifest)
    (hlater : s.Later s') : InManifest project rootDir rootManifest dir derived nodes depth s' where
  derived := h.derived
  onWay := hs'
  root := hlater.stack ▸ h.root
  last := hlater.stack ▸ h.last
  depth := lt_of_le_of_lt (hlater.unmet_le nodes) h.depth

variable {derived : SortedMap Text (DependencySpec Dir Req)} {s : Walk Dir Req Ver} {dep : Text × DependencySpec Dir Req}

theorem InManifest.dependsOn (h : InManifest project rootDir rootManifest dir derived nodes depth s)
    (hdep : dep ∈ derived.entries) {dir' : Dir} (htarget : target project dir dep.1 dep.2 = some dir') :
    DependsOn project rootDir rootManifest dir dir' := by
  obtain ⟨manifest, hat, hderived⟩ := h.derived
  exact ⟨dep.1, dep.2, ⟨manifest, derived, hat, hderived, SortedMap.get_eq_some_iff.mpr hdep⟩, htarget⟩

theorem InManifest.not_resolvesAt (h : InManifest project rootDir rootManifest dir derived nodes depth s)
    (hdep : dep ∈ derived.entries) (hnot : ¬Resolves project rootDir rootManifest dir dep.1 dep.2) :
    ¬ResolvesAt project rootDir rootManifest dir := by
  rintro ⟨manifest, derived', hat, hderived, hall⟩
  obtain ⟨manifest', hat', hderived'⟩ := h.derived
  obtain rfl : manifest = manifest' := Option.some.inj (hat.symm.trans hat')
  obtain rfl : derived' = derived := Except.ok.inj (hderived.symm.trans hderived')
  exact hnot (hall dep hdep)

theorem InManifest.reached (h : InManifest project rootDir rootManifest dir derived nodes depth s) :
    Reached project rootDir rootManifest dir :=
  h.onWay.reached dir (Or.inl (List.mem_of_getLast? h.last))

def SeenPath (project : Project Dir Req Ver Fault) (dir : Dir) (dep : Text × DependencySpec Dir Req) (s : Walk Dir Req Ver) : Prop :=
  ∀ path version, dep.2 = .path path version → ∀ dir', target project dir dep.1 dep.2 = some dir' → dir' ∈ s.visited

def SeenRegistry (project : Project Dir Req Ver Fault) (dir : Dir) (dep : Text × DependencySpec Dir Req) (s : Walk Dir Req Ver) : Prop :=
  ∀ req, dep.2 = .registry req → ∀ dir', target project dir dep.1 dep.2 = some dir' → dir' ∈ s.visited

def SeenGit (project : Project Dir Req Ver Fault) (dir : Dir) (dep : Text × DependencySpec Dir Req) (s : Walk Dir Req Ver) : Prop :=
  ∀ url reference version, dep.2 = .git url reference version →
    ∀ dir', target project dir dep.1 dep.2 = some dir' → dir' ∈ s.visited

theorem visitPathDep_ends (hrecur : VisitEnds project rootDir rootManifest nodes depth recur)
    (h : InManifest project rootDir rootManifest dir derived nodes depth s) (hdep : dep ∈ derived.entries) :
    Ends project rootDir rootManifest (fun s' => s'.OnWay project rootDir rootManifest ∧ s.Later s' ∧ SeenPath project dir dep s')
      (visitPathDep project recur dir s dep) := by
  obtain ⟨depName, spec⟩ := dep
  cases spec with
  | path path version =>
    refine (follow_ends hrecur h.onWay h.root h.last (h.dependsOn hdep rfl) h.depth depName (fun e he hne => ?_)
      fun hnone => h.not_resolvesAt hdep fun hres => ?_).mono fun s' ⟨hs', hlater, hmem⟩ => ⟨hs', hlater, fun _ _ _ dir' ht => ?_⟩
    · have hunresolved : ∃ d, Reached project rootDir rootManifest d ∧ ¬ResolvesAt project rootDir rootManifest d := by
        refine ⟨dir, h.reached, h.not_resolvesAt hdep fun hres => ?_⟩
        split_ifs at he with hexists
        · exact hexists (hres.1.resolve_right hne)
        · exact hexists (hres.1.resolve_right hne)
      split_ifs at he <;> (obtain rfl := Option.some.inj he; exact hunresolved)
    · exact absurd (hnone ▸ hres.2) (by simp)
    · exact Option.some.inj ht ▸ hmem
  | registry _ => exact ⟨h.onWay, Walk.Later.refl s, nofun⟩
  | git _ _ _ => exact ⟨h.onWay, Walk.Later.refl s, nofun⟩
  | workspace => exact ⟨h.onWay, Walk.Later.refl s, nofun⟩

theorem visitGitDep_ends (hrecur : VisitEnds project rootDir rootManifest nodes depth recur) {provider : GitProvider Dir}
    (hprovider : project.options.gitProvider = some provider) (honline : project.options.offlineRoot = none)
    (h : InManifest project rootDir rootManifest dir derived nodes depth s) (hdep : dep ∈ derived.entries) :
    Ends project rootDir rootManifest (fun s' => s'.OnWay project rootDir rootManifest ∧ s.Later s' ∧ SeenGit project dir dep s')
      (visitGitDep project recur dir provider s dep) := by
  obtain ⟨depName, spec⟩ := dep
  cases spec with
  | git url reference version =>
    cases hfetch : provider.fetch url reference with
    | error message =>
      have hstep : visitGitDep project recur dir provider s (depName, .git url reference version) =
          .error (.error (.gitFetchFailed dir depName message)) := by
        simp only [visitGitDep, hfetch]
      rw [hstep]
      have hnot := h.not_resolvesAt hdep fun hres => by
        simp [Resolves, hprovider, honline, hfetch] at hres
      exact (⟨dir, h.reached, hnot⟩ : Warranted project rootDir rootManifest (.gitFetchFailed dir depName message))
    | ok materialized =>
      set dir' := canonicalizeOrSelf project.fs materialized.rootDir with hdir'
      have hstep : visitGitDep project recur dir provider s (depName, .git url reference version) =
          follow project.loader recur dir depName dir' none
            (s.recordGit dir depName ⟨dir', url, reference, materialized.resolvedRev⟩) := by
        simp only [visitGitDep, hfetch, hdir']
      rw [hstep]
      have htarget : target project dir depName (.git url reference version) = some dir' := by
        simp [target, hprovider, honline, hfetch, hdir']
      have hedge := h.dependsOn hdep htarget
      have hrecorded := h.later (h.onWay.recordGit (List.mem_of_getLast? h.last) depName
        ⟨dir', url, reference, materialized.resolvedRev⟩ hedge) ⟨rfl, subset_rfl⟩
      have hload : manifestAt project rootDir rootManifest dir' = none → ¬ResolvesAt project rootDir rootManifest dir :=
        fun hnone => h.not_resolvesAt hdep fun hres => by
          simp [Resolves, hprovider, honline, hfetch, ← hdir', hnone] at hres
      refine (follow_ends hrecur hrecorded.onWay hrecorded.root hrecorded.last hedge hrecorded.depth depName
        (fun _ he => by cases he) hload).mono fun s' ⟨hs', hlater, hmem⟩ => ⟨hs', ⟨hlater.stack, hlater.visited⟩, ?_⟩
      intro _ _ _ _ d ht
      exact Option.some.inj (htarget.symm.trans ht) ▸ hmem
  | registry _ => exact ⟨h.onWay, Walk.Later.refl s, nofun⟩
  | path _ _ => exact ⟨h.onWay, Walk.Later.refl s, nofun⟩
  | workspace => exact ⟨h.onWay, Walk.Later.refl s, nofun⟩

theorem visitRegistryDep_ends [DecidableEq Ver] (hrecur : VisitEnds project rootDir rootManifest nodes depth recur)
    {provider : RegistryProvider Dir Req Ver} (hprovider : project.options.registryProvider = some provider)
    (honline : project.options.offlineRoot = none) (h : InManifest project rootDir rootManifest dir derived nodes depth s)
    (hdep : dep ∈ derived.entries) :
    Ends project rootDir rootManifest (fun s' => s'.OnWay project rootDir rootManifest ∧ s.Later s' ∧ SeenRegistry project dir dep s')
      (visitRegistryDep project recur dir provider s dep) := by
  obtain ⟨depName, spec⟩ := dep
  cases spec with
  | registry req =>
    cases hfetch : fetchRegistryDep project provider depName req with
    | error message =>
      have hstep : visitRegistryDep project recur dir provider s (depName, .registry req) =
          .error (.error (.registryFetchFailed dir depName message)) := by
        simp only [visitRegistryDep, hfetch]
      rw [hstep]
      have hnot := h.not_resolvesAt hdep fun hres => by
        simp [Resolves, hprovider, honline, hfetch] at hres
      exact (⟨dir, h.reached, hnot⟩ : Warranted project rootDir rootManifest (.registryFetchFailed dir depName message))
    | ok materialized =>
      set dir' := canonicalizeOrSelf project.fs materialized.rootDir with hdir'
      set res : RegistryResolution Dir Ver := ⟨dir', materialized.version, materialized.upstreamUrl⟩ with hres'
      set candidates := candidatesWithPin project provider depName (pinnedVersion project depName) dir' with hcandidates
      have hstep : visitRegistryDep project recur dir provider s (depName, .registry req) =
          follow project.loader recur dir depName dir' none
            ((s.recordRegistry dir depName res).recordCandidates depName candidates) := by
        simp only [visitRegistryDep, hfetch, hdir', hres', hcandidates]
      rw [hstep]
      have htarget : target project dir depName (.registry req) = some dir' := by
        simp [target, hprovider, honline, hfetch, hdir']
      have hedge := h.dependsOn hdep htarget
      have hlaterR : s.Later ((s.recordRegistry dir depName res).recordCandidates depName candidates) :=
        (show s.Later (s.recordRegistry dir depName res) from ⟨rfl, subset_rfl⟩).trans
          (Walk.recordCandidates_later _ depName candidates)
      have hrecorded := h.later ((h.onWay.recordRegistry (List.mem_of_getLast? h.last) depName res hedge).recordCandidates
        depName candidates) hlaterR
      have hload : manifestAt project rootDir rootManifest dir' = none → ¬ResolvesAt project rootDir rootManifest dir :=
        fun hnone => h.not_resolvesAt hdep fun hres => by
          simp [Resolves, hprovider, honline, hfetch, ← hdir', hnone] at hres
      refine (follow_ends hrecur hrecorded.onWay hrecorded.root hrecorded.last hedge hrecorded.depth depName
        (fun _ he => by cases he) hload).mono fun s' ⟨hs', hlater, hmem⟩ => ⟨hs', hlaterR.trans hlater, ?_⟩
      intro _ _ d ht
      exact Option.some.inj (htarget.symm.trans ht) ▸ hmem
  | git _ _ _ => exact ⟨h.onWay, Walk.Later.refl s, nofun⟩
  | path _ _ => exact ⟨h.onWay, Walk.Later.refl s, nofun⟩
  | workspace => exact ⟨h.onWay, Walk.Later.refl s, nofun⟩

/-- The three passes see to every dependency that leads somewhere. -/
theorem visitDeps_ends [DecidableEq Ver] (hrecur : VisitEnds project rootDir rootManifest nodes depth recur)
    (h : InManifest project rootDir rootManifest dir derived nodes depth s) :
    Ends project rootDir rootManifest (fun s' => s'.OnWay project rootDir rootManifest ∧ s.Later s' ∧
      ∀ dep ∈ derived.entries, ∀ dir', target project dir dep.1 dep.2 = some dir' → dir' ∈ s'.visited)
      (visitDeps project recur dir derived.entries s) := by
  have hpath : Ends project rootDir rootManifest (fun s' => s'.OnWay project rootDir rootManifest ∧ s.Later s' ∧
      ∀ dep ∈ derived.entries, SeenPath project dir dep s') (derived.entries.foldlM (visitPathDep project recur dir) s) :=
    Ends.foldlM (SeenPath project dir) (fun _ _ _ hlater hseen path version hp d ht => hlater.visited (hseen path version hp d ht))
      h.onWay fun dep hdep mid hmid hlater => visitPathDep_ends hrecur (h.later hmid hlater) hdep
  refine hpath.bind fun s₁ hmid₁ => ?_
  obtain ⟨hs₁, hlater₁, hall₁⟩ := hmid₁
  have h₁ := h.later hs₁ hlater₁
  have hregistry : Ends project rootDir rootManifest (fun s' => s'.OnWay project rootDir rootManifest ∧ s₁.Later s' ∧
      ∀ dep ∈ derived.entries, SeenRegistry project dir dep s') (visitRegistryDeps project recur dir derived.entries s₁) := by
    unfold visitRegistryDeps
    split
    · next provider hprovider honline =>
      exact Ends.foldlM (SeenRegistry project dir) (fun _ _ _ hlater hseen req hr d ht => hlater.visited (hseen req hr d ht))
        h₁.onWay fun dep hdep mid hmid hlater => visitRegistryDep_ends hrecur hprovider honline (h₁.later hmid hlater) hdep
    · next hnone =>
      refine ⟨hs₁, Walk.Later.refl s₁, fun dep _ req hr d ht => ?_⟩
      rw [hr, target] at ht
      split at ht
      · next hprovider honline => exact absurd honline (hnone _ hprovider)
      · cases ht
  refine hregistry.bind fun s₂ hmid₂ => ?_
  obtain ⟨hs₂, hlater₂, hall₂⟩ := hmid₂
  have h₂ := h₁.later hs₂ hlater₂
  have hgit : Ends project rootDir rootManifest (fun s' => s'.OnWay project rootDir rootManifest ∧ s₂.Later s' ∧
      ∀ dep ∈ derived.entries, SeenGit project dir dep s') (visitGitDeps project recur dir derived.entries s₂) := by
    unfold visitGitDeps
    split
    · next provider hprovider honline =>
      exact Ends.foldlM (SeenGit project dir)
        (fun _ _ _ hlater hseen url reference version hg d ht => hlater.visited (hseen url reference version hg d ht))
        h₂.onWay fun dep hdep mid hmid hlater => visitGitDep_ends hrecur hprovider honline (h₂.later hmid hlater) hdep
    · next hnone =>
      refine ⟨hs₂, Walk.Later.refl s₂, fun dep _ url reference version hg d ht => ?_⟩
      rw [hg, target] at ht
      split at ht
      · next hprovider honline => exact absurd honline (hnone _ hprovider)
      · cases ht
  refine hgit.mono fun s₃ hmid₃ => ?_
  obtain ⟨hs₃, hlater₃, hall₃⟩ := hmid₃
  refine ⟨hs₃, (hlater₁.trans hlater₂).trans hlater₃, fun dep hdep d ht => ?_⟩
  cases hspec : dep.2 with
  | path path version => exact hlater₃.visited (hlater₂.visited (hall₁ dep hdep path version hspec d ht))
  | registry req => exact hlater₃.visited (hall₂ dep hdep req hspec d ht)
  | git url reference version => exact hall₃ dep hdep url reference version hspec d ht
  | workspace =>
    rw [hspec] at ht
    cases ht

omit [LinearOrder Dir] in
/-- What a workspace entry is refused for. -/
theorem derefAll_error {workspaceDeps : SortedMap Text (DependencySpec Dir Req)} {e : DepGraphError Dir Fault}
    {entries : List (Text × DependencySpec Dir Req)} {derived : SortedMap Text (DependencySpec Dir Req)}
    (h : derefAll dir workspaceDeps derived entries = .error e) :
    ∃ depName, e = .workspaceDepNotDeclared dir depName ∨ e = .workspaceDepOutsideWorkspace dir depName := by
  induction entries generalizing derived with
  | nil => cases h
  | cons entry rest ih =>
    obtain ⟨depName, spec⟩ := entry
    rw [derefAll] at h
    cases hderef : (derefWorkspace dir depName spec workspaceDeps : Except (DepGraphError Dir Fault) (DependencySpec Dir Req)) with
    | ok resolved =>
      rw [hderef] at h
      exact ih h
    | error e' =>
      rw [hderef] at h
      obtain rfl : e' = e := Except.error.inj h
      unfold derefWorkspace at hderef
      split at hderef
      · split_ifs at hderef
        · exact ⟨depName, Or.inr (Except.error.inj hderef).symm⟩
        · split at hderef
          · cases hderef
          · exact ⟨depName, Or.inl (Except.error.inj hderef).symm⟩
      · cases hderef

omit [LinearOrder Dir] in
theorem deriveDeps_error {workspaceDeps : SortedMap Text (DependencySpec Dir Req)} {withDev : Bool} {manifest : Manifest Dir Req}
    {e : DepGraphError Dir Fault} (h : deriveDeps dir workspaceDeps withDev manifest = .error e) :
    ∃ depName, e = .workspaceDepNotDeclared dir depName ∨ e = .workspaceDepOutsideWorkspace dir depName := by
  unfold deriveDeps at h
  cases hbase : (derefAll dir workspaceDeps .empty manifest.dependencies.entries :
      Except (DepGraphError Dir Fault) (SortedMap Text (DependencySpec Dir Req))) with
  | error e' =>
    rw [hbase] at h
    obtain rfl : e' = e := Except.error.inj h
    exact derefAll_error hbase
  | ok derived =>
    rw [hbase] at h
    cases withDev with
    | false => cases h
    | true => exact derefAll_error h

/-- One visit, given what the visits below it do. -/
theorem visit_succ_ends [DecidableEq Ver] (hnodes : ∀ d, (manifestAt project rootDir rootManifest d).isSome = true → d ∈ nodes)
    (hrecur : VisitEnds project rootDir rootManifest nodes depth (visit project depth false)) {isRoot : Bool}
    {manifest : Manifest Dir Req} (hflag : isRoot = decide (dir = rootDir))
    (hat : manifestAt project rootDir rootManifest dir = some manifest) (hs : s.OnWay project rootDir rootManifest)
    (hroot : rootDir ∈ s.visitingStack ∨ dir = rootDir) (hstack : dir ∉ s.visitingStack) (hvisited : dir ∉ s.visited)
    (hstep : ∀ last, s.visitingStack.getLast? = some last → DependsOn project rootDir rootManifest last dir)
    (hreached : Reached project rootDir rootManifest dir) (hdepth : unmet nodes s < depth + 1) :
    Ends project rootDir rootManifest (fun s' => s'.OnWay project rootDir rootManifest ∧ s.Later s' ∧ dir ∈ s'.visited)
      (visit project (depth + 1) isRoot dir manifest s) := by
  unfold visit
  rw [hflag]
  cases hderive : deriveDeps dir project.workspaceDeps (decide (dir = rootDir) && project.options.includeDevDeps) manifest with
  | error e =>
    have hnot : ¬ResolvesAt project rootDir rootManifest dir := by
      rintro ⟨manifest', derived', hat', hderived', -⟩
      obtain rfl : manifest = manifest' := Option.some.inj (hat.symm.trans hat')
      rw [declaredDeps, hderive] at hderived'
      cases hderived'
    obtain ⟨depName, rfl | rfl⟩ := deriveDeps_error hderive
    · exact ⟨dir, hreached, hnot⟩
    · exact ⟨dir, hreached, hnot⟩
  | ok derived =>
    have hin : InManifest project rootDir rootManifest dir derived nodes depth (s.enter dir manifest derived) := by
      refine ⟨⟨manifest, hat, hderive⟩, hs.enter hstack hreached hstep manifest derived, ?_, List.getLast?_concat, ?_⟩
      · rcases hroot with hmem | rfl
        · exact List.mem_append_left _ hmem
        · exact List.mem_append_right _ (List.mem_singleton_self _)
      · have := unmet_enter_lt (hnodes dir (by rw [hat]; rfl)) hstack hvisited manifest derived
        omega
    refine (visitDeps_ends hrecur hin).bind fun s' hend => ?_
    obtain ⟨hs', hlater, hall⟩ := hend
    have hdeps : ∀ dir', DependsOn project rootDir rootManifest dir dir' → dir' ∈ s'.visited := by
      rintro dir' ⟨depName, spec, ⟨manifest', derived', hat', hderived', hget⟩, htarget⟩
      obtain rfl : manifest = manifest' := Option.some.inj (hat.symm.trans hat')
      obtain rfl : derived = derived' := Except.ok.inj (hderive.symm.trans hderived')
      exact hall (depName, spec) (SortedMap.get_eq_some_iff.mp hget) dir' htarget
    obtain ⟨hleft, hway⟩ := hs'.leave hlater.stack hdeps
    exact ⟨hleft, ⟨hway, fun d hd => Finset.mem_insert_of_mem (hlater.visited hd)⟩, Finset.mem_insert_self _ _⟩

theorem visit_ends [DecidableEq Ver] (hnodes : ∀ d, (manifestAt project rootDir rootManifest d).isSome = true → d ∈ nodes)
    (depth : ℕ) : VisitEnds project rootDir rootManifest nodes depth (visit project depth false) := by
  induction depth with
  | zero =>
    intro dir manifest s _ _ _ _ _ _ _ hdepth
    omega
  | succ depth ih =>
    intro dir manifest s hat hs hroot hstack hvisited hstep hreached hdepth
    have hne : dir ≠ rootDir := fun heq => hstack (heq ▸ hroot)
    exact visit_succ_ends hnodes ih (by simp [hne]) hat hs (Or.inl hroot) hstack hvisited hstep hreached hdepth

end Dependencies

/-! The walk from the entry point. -/

section

variable (project : Project Dir Req Ver Fault) (rootDir : Dir) (rootManifest : Manifest Dir Req)

/-- The graph of what the entry point reaches: its manifests, and the target of every dependency in it. -/
structure IsGraphOf (graph : DepGraph Dir Req Ver) : Prop where
  root : graph.rootDir = rootDir
  manifests : ∀ dir, (graph.manifests.get dir).isSome = true ↔ Reached project rootDir rootManifest dir
  loaded : ∀ dir manifest, graph.manifests.get dir = some manifest → manifestAt project rootDir rootManifest dir = some manifest
  derived : ∀ dir, (graph.derivedDeps.get dir).isSome = true ↔ (graph.manifests.get dir).isSome = true
  targets : ∀ dir derived, graph.derivedDeps.get dir = some derived → ∀ dep ∈ derived.entries,
    ∀ dir', target project dir dep.1 dep.2 = some dir' → (graph.manifests.get dir').isSome = true
  registry : ∀ key res, graph.registryResolutions.get key = some res →
    (graph.manifests.get (ofLex key).1).isSome = true ∧ (graph.manifests.get res.dir).isSome = true
  git : ∀ key res, graph.gitResolutions.get key = some res →
    (graph.manifests.get (ofLex key).1).isSome = true ∧ (graph.manifests.get res.dir).isSome = true

end

theorem IsCycle.leads {chain : List Dir} (h : IsCycle project rootDir rootManifest chain) :
    LeadsToCircle (DependsOn project rootDir rootManifest) rootDir := by
  match chain, h with
  | [], h => exact absurd h.long (by simp)
  | [_], h => exact absurd h.long (by simp)
  | dir :: dir' :: rest, h =>
    obtain ⟨hstep, hway⟩ := List.isChain_cons_cons.mp h.steps
    have hlast : (dir' :: rest).getLast (List.cons_ne_nil _ _) = dir := by
      have hclosed := h.closed
      rw [List.head?_cons, List.getLast?_cons_cons, List.getLast?_eq_some_getLast (List.cons_ne_nil _ _)] at hclosed
      exact (Option.some.inj hclosed).symm
    exact ⟨dir, h.reached dir List.mem_cons_self,
      Relation.TransGen.head' hstep (List.relationReflTransGen_of_exists_isChain_cons rest hway hlast)⟩

theorem Warranted.isCycle {e : DepGraphError Dir Fault} (h : Warranted project rootDir rootManifest e)
    (hres : ∀ dir, Reached project rootDir rootManifest dir → ResolvesAt project rootDir rootManifest dir) :
    ∃ chain, e = .dependencyCycle chain ∧ IsCycle project rootDir rootManifest chain := by
  cases e
  case dependencyCycle chain => exact ⟨chain, rfl, h⟩
  all_goals
    obtain ⟨dir, hreached, hnot⟩ := h
    exact absurd (hres dir hreached) hnot

/-- What the entry point reaches, the walk has left when it ends. -/
theorem Walk.OnWay.mem_visited {s : Walk Dir Req Ver} (h : s.OnWay project rootDir rootManifest) (hroot : rootDir ∈ s.visited)
    {dir : Dir} (hreached : Reached project rootDir rootManifest dir) : dir ∈ s.visited := by
  induction hreached with
  | refl => exact hroot
  | tail _ hstep ih => exact (h.left _ ih).2 _ hstep

theorem visit_root_ends [DecidableEq Ver] {nodes : Finset Dir} {depth : ℕ}
    (hnodes : ∀ dir, (manifestAt project rootDir rootManifest dir).isSome = true → dir ∈ nodes) (hdepth : nodes.card < depth) :
    Ends project rootDir rootManifest
      (fun s => s.OnWay project rootDir rootManifest ∧ s.visitingStack = [] ∧ rootDir ∈ s.visited)
      (visit project depth true rootDir rootManifest Walk.start) := by
  obtain ⟨depth, rfl⟩ : ∃ d, depth = d + 1 := ⟨depth - 1, by omega⟩
  have hunmet : unmet nodes (Walk.start : Walk Dir Req Ver) = nodes.card := by
    simp [unmet, Walk.start]
  refine (visit_succ_ends hnodes (visit_ends hnodes depth) (by simp) (if_pos rfl) Walk.OnWay.start (Or.inr rfl)
    List.not_mem_nil (Finset.notMem_empty _) (fun _ h => by cases h) Relation.ReflTransGen.refl
    (by omega)).mono fun s ⟨hs, hlater, hmem⟩ => ⟨hs, hlater.stack, hmem⟩

variable {fs : FileSystem Dir} {loader : ManifestLoader Dir Req Fault} {options : DepGraphOptions Dir Req Ver}

theorem buildDepGraph_ends [DecidableEq Ver] {nodes : Finset Dir} {depth : ℕ}
    (hproject : project = projectAt fs loader options rootDir rootManifest) {root : Dir} (hroot : root = canonicalizeOrSelf fs rootDir)
    (hnodes : ∀ dir, (manifestAt project root rootManifest dir).isSome = true → dir ∈ nodes) (hdepth : nodes.card < depth) :
    match buildDepGraphWithOptions depth fs loader options rootDir rootManifest with
    | .ok graph => IsGraphOf project root rootManifest graph ∧ ¬LeadsToCircle (DependsOn project root rootManifest) root
    | .error (.error e) => Warranted project root rootManifest e
    | .error _ => False := by
  have hends : Ends project root rootManifest _ (visit project depth true root rootManifest Walk.start) :=
    visit_root_ends hnodes hdepth
  cases hvisit : visit project depth true root rootManifest Walk.start with
  | error e =>
    have hbuild : buildDepGraphWithOptions depth fs loader options rootDir rootManifest = .error e := by
      rw [hproject, hroot] at hvisit
      rw [buildDepGraphWithOptions, hvisit]
      rfl
    rw [hvisit] at hends
    rw [hbuild]
    cases e <;> exact hends
  | ok s =>
    have hbuild : buildDepGraphWithOptions depth fs loader options rootDir rootManifest =
        .ok ⟨root, s.manifests, s.derivedDeps, s.registryResolutions, s.registryCandidates, s.gitResolutions⟩ := by
      rw [hproject, hroot] at hvisit
      rw [buildDepGraphWithOptions, hvisit, hroot]
      rfl
    rw [hvisit] at hends
    obtain ⟨hs, hstack, hmem⟩ := hends
    obtain ⟨s', hsound, hmanifests, hderived, -⟩ := build_sound hbuild
    replace hmanifests : s.manifests = s'.manifests := hmanifests
    replace hderived : s.derivedDeps = s'.derivedDeps := hderived
    rw [hbuild]
    have hmet : ∀ dir, (s.manifests.get dir).isSome = true ↔ dir ∈ s.visited := fun dir => by
      rw [hs.manifests dir, hstack]
      simp
    have hreach : ∀ dir, dir ∈ s.visited ↔ Reached project root rootManifest dir :=
      fun dir => ⟨fun h => hs.reached dir (Or.inr h), fun h => hs.mem_visited hmem h⟩
    have hget : ∀ dir, (s.manifests.get dir).isSome = true ↔ Reached project root rootManifest dir :=
      fun dir => (hmet dir).trans (hreach dir)
    have hedge : ∀ dir dir', Reached project root rootManifest dir → DependsOn project root rootManifest dir dir' →
        (s.manifests.get dir').isSome = true := fun dir dir' hd hstep => (hget dir').mpr (hd.tail hstep)
    have hsome : ∀ dir, (s.derivedDeps.get dir).isSome = true ↔ (s.manifests.get dir).isSome = true := fun dir => by
      simp only [Option.isSome_iff_exists]
      constructor
      · rintro ⟨deps, hdeps⟩
        exact hmanifests ▸ hsound.visited dir deps (hderived ▸ hdeps)
      · rintro ⟨manifest, hmanifest⟩
        obtain ⟨deps, hdeps, -⟩ := hsound.derived dir manifest (hmanifests ▸ hmanifest)
        exact ⟨deps, hderived ▸ hdeps⟩
    refine ⟨⟨rfl, hget, fun dir manifest h => ?_, hsome, fun dir derived hd dep hdep dir' htarget => ?_, fun key res hres => ?_,
      fun key res hres => ?_⟩, (hs.left root hmem).1.not_leads⟩
    · rw [hproject]
      exact hsound.loaded dir manifest (hmanifests ▸ h)
    · obtain ⟨manifest, hmanifest⟩ := hsound.visited dir derived (hderived ▸ hd)
      obtain ⟨deps, hdeps, hdeclared⟩ := hsound.derived dir manifest hmanifest
      obtain rfl : derived = deps := Option.some.inj ((show s'.derivedDeps.get dir = some derived from hderived ▸ hd).symm.trans hdeps)
      refine hedge dir dir' ((hget dir).mp ((hsome dir).mp (by rw [hd]; rfl))) ⟨dep.1, dep.2, ⟨manifest, derived, ?_, ?_, ?_⟩, htarget⟩
      · rw [hproject]
        exact hsound.loaded dir manifest hmanifest
      · rw [hproject]
        exact hdeclared
      · exact SortedMap.get_eq_some_iff.mpr hdep
    · obtain ⟨hkey, hstep⟩ := hs.registry key res hres
      have hreached := hs.reached _ hkey
      exact ⟨(hget _).mpr hreached, hedge _ _ hreached hstep⟩
    · obtain ⟨hkey, hstep⟩ := hs.git key res hres
      have hreached := hs.reached _ hkey
      exact ⟨(hget _).mpr hreached, hedge _ _ hreached hstep⟩

/-- For every finite set of manifests the walk ends. A chain that it reports is a cycle; a graph that it returns is
that of what the entry point reaches. It fails where a cycle is reached: with a cycle, or with a dependency that
cannot be followed, and where all can be followed a cycle is reported exactly if one is reached. -/
theorem buildDepGraph_walks [DecidableEq Ver] (fs : FileSystem Dir) (loader : ManifestLoader Dir Req Fault)
    (options : DepGraphOptions Dir Req Ver) (rootDir : Dir) (rootManifest : Manifest Dir Req) (nodes : Finset Dir)
    (hnodes : ∀ dir, (manifestAt (projectAt fs loader options rootDir rootManifest) (canonicalizeOrSelf fs rootDir) rootManifest
      dir).isSome = true → dir ∈ nodes) (depth : ℕ) (hdepth : nodes.card < depth) :
    let project := projectAt fs loader options rootDir rootManifest
    let root := canonicalizeOrSelf fs rootDir
    let cycleReached := LeadsToCircle (DependsOn project root rootManifest) root
    let allResolve := ∀ dir, Reached project root rootManifest dir → ResolvesAt project root rootManifest dir
    ∃ answer : Except (DepGraphError Dir Fault) (DepGraph Dir Req Ver),
      buildDepGraphWithOptions depth fs loader options rootDir rootManifest = answer.mapError Halt.error ∧
      (∀ chain, answer = .error (.dependencyCycle chain) → IsCycle project root rootManifest chain) ∧
      (∀ graph, answer = .ok graph → IsGraphOf project root rootManifest graph ∧ ¬cycleReached) ∧
      (∀ e, answer = .error e → (∃ chain, e = .dependencyCycle chain) ∨ ¬allResolve) ∧
      (allResolve → ((∃ chain, answer = .error (.dependencyCycle chain)) ↔ cycleReached)) := by
  intro project root cycleReached allResolve
  have hends := buildDepGraph_ends rfl rfl hnodes hdepth
  cases hbuild : buildDepGraphWithOptions depth fs loader options rootDir rootManifest with
  | ok graph =>
    rw [hbuild] at hends
    refine ⟨.ok graph, rfl, nofun, fun graph' h => ?_, nofun, fun _ => ⟨nofun, fun h => absurd h hends.2⟩⟩
    obtain rfl := Except.ok.inj h
    exact hends
  | error halt =>
    rw [hbuild] at hends
    cases halt with
    | panic => exact hends.elim
    | tooDeep => exact hends.elim
    | error e =>
      refine ⟨.error e, rfl, fun chain h => ?_, nofun, fun e' h => ?_, fun hall => ?_⟩
      · obtain rfl := Except.error.inj h
        exact hends
      · obtain rfl := Except.error.inj h
        by_cases hall : allResolve
        · obtain ⟨chain, rfl, -⟩ := Warranted.isCycle hends hall
          exact Or.inl ⟨chain, rfl⟩
        · exact Or.inr hall
      · obtain ⟨chain, rfl, hcycle⟩ := Warranted.isCycle hends hall
        exact ⟨fun _ => hcycle.leads, fun _ => ⟨chain, rfl⟩⟩

/-! Two projects: one whose dependency needs it in turn, one that needs itself and a package that is not there. -/

def pathManifest (name : Text) (deps : List (Text × Text)) : Manifest Text Unit :=
  ⟨name, none, .ofEntries (deps.map fun d => (d.1, .path d.2 none)), .empty, .empty, false⟩

def pathLoader (loaded : List (Text × Manifest Text Unit)) : ManifestLoader Text Unit Unit where
  load dir := match loaded.lookup dir with
    | some manifest => .ok manifest
    | none => .error ()
  manifestExists dir := (loaded.lookup dir).isSome

def pathOptions : DepGraphOptions Text Unit Unit := ⟨none, false, none, none, none⟩

def mutualManifest : Manifest Text Unit := pathManifest ['p'] [(['a'], ['/', 'a'])]

def mutualLoader : ManifestLoader Text Unit Unit := pathLoader [(['/', 'a'], pathManifest ['a'] [(['p'], ['/', 'p'])])]

theorem buildDepGraph_walks_mutual :
    buildDepGraphWithOptions 3 plainPaths mutualLoader pathOptions ['/', 'p'] mutualManifest =
      .error (.error (.dependencyCycle [['/', 'p'], ['/', 'a'], ['/', 'p']])) ∧
    IsCycle (projectAt plainPaths mutualLoader pathOptions ['/', 'p'] mutualManifest) ['/', 'p'] mutualManifest
      [['/', 'p'], ['/', 'a'], ['/', 'p']] := by
  have hbuild : buildDepGraphWithOptions 3 plainPaths mutualLoader pathOptions ['/', 'p'] mutualManifest =
      .error (.error (.dependencyCycle [['/', 'p'], ['/', 'a'], ['/', 'p']])) := by rfl
  have hnodes : ∀ dir, (manifestAt (projectAt plainPaths mutualLoader pathOptions ['/', 'p'] mutualManifest) ['/', 'p']
      mutualManifest dir).isSome = true → dir ∈ ({['/', 'p'], ['/', 'a']} : Finset Text) := by
    intro dir hdir
    unfold manifestAt at hdir
    split_ifs at hdir with hroot
    · exact Finset.mem_insert.mpr (Or.inl hroot)
    · by_cases ha : dir = ['/', 'a']
      · exact Finset.mem_insert.mpr (Or.inr (Finset.mem_singleton.mpr ha))
      · have hnone : mutualLoader.load dir = .error () := by
          simp [mutualLoader, pathLoader, List.lookup, beq_eq_false_iff_ne.mpr ha]
        rw [show (projectAt plainPaths mutualLoader pathOptions ['/', 'p'] mutualManifest).loader = mutualLoader from rfl,
          hnone] at hdir
        cases hdir
  obtain ⟨answer, hanswer, hchain, -⟩ := buildDepGraph_walks plainPaths mutualLoader pathOptions ['/', 'p'] mutualManifest
    {['/', 'p'], ['/', 'a']} hnodes 3 (by decide)
  refine ⟨hbuild, hchain _ ?_⟩
  rw [hbuild] at hanswer
  cases answer with
  | ok graph => cases hanswer
  | error e => rw [← Halt.error.inj (Except.error.inj hanswer)]

def selfManifest : Manifest Text Unit := pathManifest ['p'] [(['a'], ['/', 'a']), (['b'], ['/', 'p'])]

/-- The package that is not there is met first. -/
theorem buildDepGraph_not_cycle :
    LeadsToCircle (DependsOn (projectAt plainPaths (pathLoader []) pathOptions ['/', 'p'] selfManifest) ['/', 'p'] selfManifest)
      ['/', 'p'] ∧
    ∀ chain, buildDepGraphWithOptions 2 plainPaths (pathLoader []) pathOptions ['/', 'p'] selfManifest ≠
      .error (.error (.dependencyCycle chain)) := by
  have hself : DependsOn (projectAt plainPaths (pathLoader []) pathOptions ['/', 'p'] selfManifest) ['/', 'p'] selfManifest
      ['/', 'p'] ['/', 'p'] :=
    ⟨['b'], .path ['/', 'p'] none, ⟨selfManifest, selfManifest.dependencies, rfl, by rfl, by rfl⟩, by rfl⟩
  have hbuild : buildDepGraphWithOptions 2 plainPaths (pathLoader []) pathOptions ['/', 'p'] selfManifest =
      .error (.error (.pathDepNotFound ['/', 'p'] ['a'] ['/', 'a'])) := by rfl
  refine ⟨⟨['/', 'p'], Relation.ReflTransGen.refl, Relation.TransGen.single hself⟩, fun chain h => ?_⟩
  rw [hbuild] at h
  cases h

end Karac.Resolver
