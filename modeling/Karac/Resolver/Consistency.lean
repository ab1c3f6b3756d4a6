import Karac.Resolver.DepResolver

/-! When a resolution is consistent: the solver must leave every package where the first pass put it. -/

namespace Karac.Resolver

open Lib Lib.Toml

/-! Folds that can fail. -/

theorem bind_ok {ε α β : Type} {x : Except ε α} {f : α → Except ε β} {b : β} (h : x >>= f = .ok b) :
    ∃ a, x = .ok a ∧ f a = .ok b := by
  cases x with
  | error e => cases h
  | ok a => exact ⟨a, rfl, h⟩

/-- An invariant of the entries that a fold has passed. -/
theorem foldlM_ok {ε α β : Type} {f : β → α → Except ε β} (P : List α → β → Prop)
    (hstep : ∀ done x b b', P done b → f b x = .ok b' → P (done ++ [x]) b') :
    ∀ (l done : List α) (b b' : β), P done b → l.foldlM f b = .ok b' → P (done ++ l) b' := by
  intro l
  induction l with
  | nil =>
    intro done b b' hP h
    obtain rfl : b = b' := Except.ok.inj h
    simpa using hP
  | cons x rest ih =>
    intro done b b' hP h
    rw [List.foldlM_cons] at h
    obtain ⟨mid, hmid, hrest⟩ := bind_ok h
    have := ih (done ++ [x]) mid b' (hstep done x b mid hP hmid) hrest
    simpa using this

theorem foldlM_keeps {ε α β : Type} {f : β → α → Except ε β} {P : β → Prop}
    (hstep : ∀ x b b', P b → f b x = .ok b' → P b') {l : List α} {b b' : β} (hb : P b)
    (h : l.foldlM f b = .ok b') : P b' :=
  foldlM_ok (fun _ b => P b) (fun _ x b b' hb h => hstep x b b' hb h) l [] b b' hb h

/-! Packages inserted, and packages at the versions selected. -/

section

variable {Dir Req Ver : Type}

theorem upsert_ok {agrees : ResolvedSource Dir → Bool} {packages packages' : Packages Dir Req Ver} {name : Text}
    {version : Ver} {source : ResolvedSource Dir} {edge : DeclarationEdge Req}
    (h : upsert agrees packages name version source edge = .ok packages') :
    (∃ existing, packages.get name = some existing ∧
      packages' = packages.insert name { existing with declaredBy := existing.declaredBy ++ [edge] }) ∨
    packages.get name = none ∧ packages' = packages.insert name ⟨name, version, source, [edge]⟩ := by
  unfold upsert at h
  cases hget : packages.get name with
  | none =>
    rw [hget] at h
    exact Or.inr ⟨rfl, (Except.ok.inj h).symm⟩
  | some existing =>
    rw [hget] at h
    simp only at h
    split_ifs at h with hagrees
    exact Or.inl ⟨existing, rfl, (Except.ok.inj h).symm⟩

/-- A package with the version that was selected for it. -/
def adopted (rootName : Text) (selected : List (Text × Ver)) (name : Text) (pkg : ResolvedPackage Dir Req Ver) :
    ResolvedPackage Dir Req Ver :=
  if name = rootName then pkg
  else match SortedMap.find name selected with
    | some version => { pkg with version := version }
    | none => pkg

theorem get_foldl_adoptVersion (rootName : Text) (selected : List (Text × Ver))
    (hsorted : (selected.map Prod.fst).Pairwise (· < ·)) (packages : Packages Dir Req Ver) (name : Text) :
    (selected.foldl (adoptVersion rootName) packages).get name =
      (packages.get name).map (adopted rootName selected name) := by
  induction selected generalizing packages with
  | nil =>
    have hsame : adopted rootName [] name = (id : ResolvedPackage Dir Req Ver → _) := by
      funext pkg
      unfold adopted
      split_ifs <;> rfl
    rw [List.foldl_nil, hsame, Option.map_id_fun, id]
  | cons head rest ih =>
    obtain ⟨head, version⟩ := head
    rw [List.map_cons, List.pairwise_cons] at hsorted
    have hfresh : SortedMap.find head rest = none := by
      cases hfind : SortedMap.find head rest with
      | none => rfl
      | some v =>
        have hmem := (SortedMap.find_eq_some_iff hsorted.2).mp hfind
        exact absurd (hsorted.1 head (List.mem_map.mpr ⟨_, hmem, rfl⟩)) (lt_irrefl head)
    rw [List.foldl_cons, ih hsorted.2, adoptVersion]
    by_cases hroot : head = rootName
    · rw [if_pos hroot]
      refine congrArg (Option.map · (packages.get name)) (funext fun pkg => ?_)
      unfold adopted
      by_cases hname : name = rootName
      · rw [if_pos hname, if_pos hname]
      · rw [if_neg hname, if_neg hname, SortedMap.find, if_neg (fun h => hname (h.trans hroot))]
    · rw [if_neg hroot]
      by_cases hname : name = head
      · subst hname
        cases hget : packages.get name with
        | none => simp [hget]
        | some pkg =>
          rw [SortedMap.get_insert_self, Option.map_some, Option.map_some]
          simp [adopted, hroot, hfresh, SortedMap.find]
      · have hother : adopted rootName ((head, version) :: rest) name =
            (adopted rootName rest name : ResolvedPackage Dir Req Ver → _) := by
          funext pkg
          unfold adopted
          rw [SortedMap.find, if_neg hname]
        rw [hother]
        cases hget : packages.get head with
        | none => rfl
        | some pkg => simp only [SortedMap.get_insert_of_ne _ hname]

end

/-! What a resolution is measured against. -/

section

variable {Dir Req Ver Range Fault : Type}

def requirement : DependencySpec Dir Req → Option Req
  | .registry version => some version
  | .path _ version => version
  | .git _ _ version => version
  | .workspace => none

def sourceDir (rootDir : Dir) : ResolvedSource Dir → Dir
  | .root => rootDir
  | .path dir => dir
  | .registry _ dir => dir
  | .git _ _ dir _ => dir

/-- A source is the tree of a version: for a registry package, of the version that the registry holds there. The
other trees all have the placeholder version. -/
def HoldsTree (versions : Versions Ver Req Range) (project : Project Dir Req Ver Fault) :
    ResolvedSource Dir → Ver → Prop
  | .registry _ dir, version => ∃ provider, project.options.registryProvider = some provider ∧
      ∃ name materialized, provider.fetchExact name version = .ok materialized ∧
        canonicalizeOrSelf project.fs materialized.rootDir = dir
  | _, version => version = versions.sentinel

/-- What a registry provider documents: it materializes the same tree of a version however the version was
chosen, and keeps the trees of different versions apart. -/
structure RegistryProvider.Documented (fs : FileSystem Dir) (provider : RegistryProvider Dir Req Ver) : Prop where
  fetch_exact : ∀ name req materialized, provider.fetch name req = .ok materialized →
    ∃ exactly, provider.fetchExact name materialized.version = .ok exactly ∧ exactly.rootDir = materialized.rootDir
  exact_version : ∀ name version materialized, provider.fetchExact name version = .ok materialized →
    materialized.version = version
  trees_apart : ∀ name version materialized name' version' materialized',
    provider.fetchExact name version = .ok materialized → provider.fetchExact name' version' = .ok materialized' →
    canonicalizeOrSelf fs materialized.rootDir = canonicalizeOrSelf fs materialized'.rootDir → version = version'

theorem HoldsTree.unique {versions : Versions Ver Req Range} {project : Project Dir Req Ver Fault}
    (hdoc : ∀ provider, project.options.registryProvider = some provider → provider.Documented project.fs)
    {source : ResolvedSource Dir} {version version' : Ver} (h : HoldsTree versions project source version)
    (h' : HoldsTree versions project source version') : version = version' := by
  cases source with
  | registry url dir =>
    obtain ⟨provider, hprovider, name, materialized, hexact, hdir⟩ := h
    obtain ⟨provider', hprovider', name', materialized', hexact', hdir'⟩ := h'
    rw [hprovider] at hprovider'
    obtain rfl := Option.some.inj hprovider'
    exact (hdoc provider hprovider).trees_apart _ _ _ _ _ _ hexact hexact' (hdir.trans hdir'.symm)
  | root => exact h.trans h'.symm
  | path _ => exact h.trans h'.symm
  | git _ _ _ _ => exact h.trans h'.symm

/-- An edge that the packages record. -/
def Recorded (packages : Packages Dir Req Ver) (parent child : Text) (req : Option Req) : Prop :=
  ∃ pkg, packages.get child = some pkg ∧ (⟨parent, req⟩ : DeclarationEdge Req) ∈ pkg.declaredBy

theorem recorded_congr {packages final : Packages Dir Req Ver} (h : ∀ name, final.get name = packages.get name) {parent child : Text} {req : Option Req} :
    Recorded final parent child req ↔ Recorded packages parent child req := by
  unfold Recorded
  rw [h]

variable [LinearOrder Dir]

/-- The manifest in a directory. -/
def manifestAt (project : Project Dir Req Ver Fault) (rootDir : Dir) (rootManifest : Manifest Dir Req) (dir : Dir) :
    Option (Manifest Dir Req) :=
  if dir = rootDir then some rootManifest
  else match project.loader.load dir with
    | .ok manifest => some manifest
    | .error _ => none

def declaredDeps (project : Project Dir Req Ver Fault) (rootDir dir : Dir) (manifest : Manifest Dir Req) :
    Except (DepGraphError Dir Fault) (SortedMap Text (DependencySpec Dir Req)) :=
  deriveDeps dir project.workspaceDeps (decide (dir = rootDir) && project.options.includeDevDeps) manifest

/-- The manifest in a directory declares a dependency. -/
def Declares (project : Project Dir Req Ver Fault) (rootDir : Dir) (rootManifest : Manifest Dir Req) (dir : Dir)
    (depName : Text) (spec : DependencySpec Dir Req) : Prop :=
  ∃ manifest derived, manifestAt project rootDir rootManifest dir = some manifest ∧
    declaredDeps project rootDir dir manifest = .ok derived ∧ derived.get depName = some spec

/-- Where the graph leads from a dependency: the name in the manifest there, its source, and the version fetched. -/
inductive Leads (versions : Versions Ver Req Range) (project : Project Dir Req Ver Fault)
    (graph : DepGraph Dir Req Ver) (dir : Dir) (depName : Text) :
    DependencySpec Dir Req → Text → ResolvedSource Dir → Ver → Prop
  | path {path : Dir} {version : Option Req} {manifest : Manifest Dir Req}
      (hmanifest : graph.manifests.get (pathTarget project.fs project.options.offlineRoot dir depName path) = some manifest) :
      Leads versions project graph dir depName (.path path version) manifest.name
        (.path (pathTarget project.fs project.options.offlineRoot dir depName path)) versions.sentinel
  | registry {req : Req} {res : RegistryResolution Dir Ver} {manifest : Manifest Dir Req}
      (hres : graph.registryResolutions.get (toLex (dir, depName)) = some res)
      (hmanifest : graph.manifests.get res.dir = some manifest) :
      Leads versions project graph dir depName (.registry req) manifest.name (.registry res.upstreamUrl res.dir) res.version
  | git {url : Text} {reference : Option GitRef} {version : Option Req} {res : GitResolution Dir}
      {manifest : Manifest Dir Req}
      (hres : graph.gitResolutions.get (toLex (dir, depName)) = some res)
      (hmanifest : graph.manifests.get res.dir = some manifest) :
      Leads versions project graph dir depName (.git url reference version) manifest.name
        (.git res.url res.reference res.dir res.resolvedRev) versions.sentinel

/-- The manifest in a directory requires a package. -/
def Requires (versions : Versions Ver Req Range) (project : Project Dir Req Ver Fault) (rootManifest : Manifest Dir Req)
    (graph : DepGraph Dir Req Ver) (dir : Dir) (child : Text) (req : Option Req) : Prop :=
  ∃ depName spec source version, Declares project graph.rootDir rootManifest dir depName spec ∧
    Leads versions project graph dir depName spec child source version ∧ requirement spec = req

/-- Every package has the version of the tree in its source directory, a tree of that package; whatever the manifest
there declares is present at a version that satisfies it; and the edges recorded for the package are those of the
manifest. -/
structure Consistent (versions : Versions Ver Req Range) (project : Project Dir Req Ver Fault)
    (rootManifest : Manifest Dir Req) (graph : DepGraph Dir Req Ver) (packages : Packages Dir Req Ver) : Prop where
  holds_tree : ∀ name pkg, packages.get name = some pkg → HoldsTree versions project pkg.source pkg.version
  named : ∀ name pkg, packages.get name = some pkg → ∃ manifest,
    manifestAt project graph.rootDir rootManifest (sourceDir graph.rootDir pkg.source) = some manifest ∧
      manifest.name = name
  present : ∀ name pkg, packages.get name = some pkg → ∀ depName spec,
    Declares project graph.rootDir rootManifest (sourceDir graph.rootDir pkg.source) depName spec →
    ∃ child source version dep,
      Leads versions project graph (sourceDir graph.rootDir pkg.source) depName spec child source version ∧
      packages.get child = some dep ∧ ∀ req ∈ requirement spec, versions.accepts req dep.version = true
  edges : ∀ name pkg, packages.get name = some pkg → ∀ child req, Recorded packages name child req ↔
    Requires versions project rootManifest graph (sourceDir graph.rootDir pkg.source) child req

/-- The packages of the first pass can stand: the solver leaves every version as it is, a manifest visited under
the name of a package requires nothing that the manifest of the package does not, and the versions satisfy what
the manifests of the packages require. -/
structure FirstPassStands (versions : Versions Ver Req Range) (pubgrub : PubGrub Ver Range)
    (project : Project Dir Req Ver Fault) (rootManifest : Manifest Dir Req) (graph : DepGraph Dir Req Ver)
    (pins : SortedMap Text Ver) (packages : Packages Dir Req Ver) : Prop where
  unmoved : ∀ selected,
    solverAnswer versions pubgrub packages rootManifest.name graph.registryCandidates pins = some (.ok selected) →
    ∀ name pkg, packages.get name = some pkg → name ≠ rootManifest.name →
    ∀ version, selected.get name = some version → pkg.version = version
  same_requirements : ∀ name pkg, packages.get name = some pkg → ∀ dir manifest,
    graph.manifests.get dir = some manifest → manifest.name = name → ∀ child req,
    Requires versions project rootManifest graph dir child req →
    Requires versions project rootManifest graph (sourceDir graph.rootDir pkg.source) child req
  satisfied : ∀ name pkg, packages.get name = some pkg → ∀ child req,
    Requires versions project rootManifest graph (sourceDir graph.rootDir pkg.source) child (some req) →
    ∀ dep, packages.get child = some dep → versions.accepts req dep.version = true

/-! The walk. -/

/-- What holds of a walk in every manifest that it enters and leaves. -/
structure Walk.Sound (project : Project Dir Req Ver Fault) (rootDir : Dir) (rootManifest : Manifest Dir Req)
    (s : Walk Dir Req Ver) : Prop where
  root_seen : rootDir ∈ s.visitingSet ∨ rootDir ∈ s.visited
  loaded : ∀ dir manifest, s.manifests.get dir = some manifest →
    manifestAt project rootDir rootManifest dir = some manifest
  derived : ∀ dir manifest, s.manifests.get dir = some manifest →
    ∃ deps, s.derivedDeps.get dir = some deps ∧ declaredDeps project rootDir dir manifest = .ok deps
  visited : ∀ dir deps, s.derivedDeps.get dir = some deps → ∃ manifest, s.manifests.get dir = some manifest
  fetched : ∀ key res, s.registryResolutions.get key = some res → ∃ provider,
    project.options.registryProvider = some provider ∧ ∃ name materialized,
      ((∃ req, provider.fetch name req = .ok materialized) ∨ ∃ v, provider.fetchExact name v = .ok materialized) ∧
      res.version = materialized.version ∧ res.dir = canonicalizeOrSelf project.fs materialized.rootDir

namespace Walk.Sound

variable {project : Project Dir Req Ver Fault} {rootDir : Dir} {rootManifest : Manifest Dir Req}
  {s s' : Walk Dir Req Ver}

/-- Enter a manifest: the entry point, or one that was loaded from another directory. -/
theorem enter {dir : Dir} {manifest : Manifest Dir Req} {deps : SortedMap Text (DependencySpec Dir Req)}
    (hroot : dir = rootDir ∨ rootDir ∈ s.visitingSet ∨ rootDir ∈ s.visited)
    (hloaded : manifestAt project rootDir rootManifest dir = some manifest)
    (hdeps : declaredDeps project rootDir dir manifest = .ok deps)
    (hrest : s = Walk.start ∨ s.Sound project rootDir rootManifest) :
    (s.enter dir manifest deps).Sound project rootDir rootManifest where
  root_seen := by
    rcases hroot with rfl | h | h
    · exact Or.inl (Finset.mem_insert_self _ _)
    · exact Or.inl (Finset.mem_insert_of_mem h)
    · exact Or.inr h
  loaded d m h := by
    rw [show (s.enter dir manifest deps).manifests = s.manifests.insert dir manifest from rfl, SortedMap.get_insert] at h
    split_ifs at h with hd
    · rw [hd, ← Option.some.inj h]
      exact hloaded
    · rcases hrest with rfl | hrest
      · cases h
      · exact hrest.loaded d m h
  derived d m h := by
    rw [show (s.enter dir manifest deps).manifests = s.manifests.insert dir manifest from rfl, SortedMap.get_insert] at h
    rw [show (s.enter dir manifest deps).derivedDeps = s.derivedDeps.insert dir deps from rfl, SortedMap.get_insert]
    split_ifs at h ⊢ with hd
    · rw [hd, ← Option.some.inj h]
      exact ⟨deps, rfl, hdeps⟩
    · rcases hrest with rfl | hrest
      · cases h
      · exact hrest.derived d m h
  visited d ds h := by
    rw [show (s.enter dir manifest deps).derivedDeps = s.derivedDeps.insert dir deps from rfl, SortedMap.get_insert] at h
    rw [show (s.enter dir manifest deps).manifests = s.manifests.insert dir manifest from rfl, SortedMap.get_insert]
    split_ifs at h ⊢ with hd
    · exact ⟨manifest, rfl⟩
    · rcases hrest with rfl | hrest
      · cases h
      · exact hrest.visited d ds h
  fetched key res h := by
    rcases hrest with rfl | hrest
    · cases h
    · exact hrest.fetched key res h

theorem recordGit (h : s.Sound project rootDir rootManifest) (dir : Dir) (depName : Text) (res : GitResolution Dir) :
    (s.recordGit dir depName res).Sound project rootDir rootManifest :=
  ⟨h.root_seen, h.loaded, h.derived, h.visited, h.fetched⟩

theorem recordCandidates (h : s.Sound project rootDir rootManifest) (depName : Text)
    (candidates : List (RegistryCandidate Req Ver)) :
    (s.recordCandidates depName candidates).Sound project rootDir rootManifest := by
  unfold Walk.recordCandidates
  split_ifs
  · exact h
  · exact ⟨h.root_seen, h.loaded, h.derived, h.visited, h.fetched⟩

theorem recordRegistry (h : s.Sound project rootDir rootManifest) {provider : RegistryProvider Dir Req Ver}
    (hprovider : project.options.registryProvider = some provider) (dir : Dir) {depName : Text} {req : Req}
    {materialized : MaterializedDep Dir Ver} (hfetch : fetchRegistryDep project provider depName req = .ok materialized) :
    (s.recordRegistry dir depName ⟨canonicalizeOrSelf project.fs materialized.rootDir, materialized.version,
      materialized.upstreamUrl⟩).Sound project rootDir rootManifest where
  root_seen := h.root_seen
  loaded := h.loaded
  derived := h.derived
  visited := h.visited
  fetched key res hres := by
    have hmap : (s.registryResolutions.insert (toLex (dir, depName)) ⟨canonicalizeOrSelf project.fs materialized.rootDir,
      materialized.version, materialized.upstreamUrl⟩).get key = some res := hres
    rw [SortedMap.get_insert] at hmap
    split_ifs at hmap with hkey
    · refine ⟨provider, hprovider, depName, materialized, ?_, ?_, ?_⟩
      · unfold fetchRegistryDep at hfetch
        cases hpinned : pinnedVersion project depName with
        | none => exact Or.inl ⟨req, by simpa only [hpinned] using hfetch⟩
        | some v => exact Or.inr ⟨v, by simpa only [hpinned] using hfetch⟩
      · rw [← Option.some.inj hmap]
      · rw [← Option.some.inj hmap]
    · exact h.fetched key res hmap

theorem leave (h : s.Sound project rootDir rootManifest) (dir : Dir) :
    (s.leave dir).Sound project rootDir rootManifest where
  root_seen := by
    by_cases hd : rootDir = dir
    · exact Or.inr (hd ▸ Finset.mem_insert_self _ _)
    · rcases h.root_seen with hs | hs
      · exact Or.inl (Finset.mem_erase.mpr ⟨hd, hs⟩)
      · exact Or.inr (Finset.mem_insert_of_mem hs)
  loaded := h.loaded
  derived := h.derived
  visited := h.visited
  fetched := h.fetched

/-- The directory fetched for a registry dependency holds the tree of the version fetched. -/
theorem holds_tree {versions : Versions Ver Req Range} (h : s.Sound project rootDir rootManifest)
    (hdoc : ∀ provider, project.options.registryProvider = some provider → provider.Documented project.fs)
    {key : Dir ×ₗ Text} {res : RegistryResolution Dir Ver} (hres : s.registryResolutions.get key = some res) :
    HoldsTree versions project (.registry res.upstreamUrl res.dir) res.version := by
  obtain ⟨provider, hprovider, name, materialized, hfetch, hversion, hdir⟩ := h.fetched key res hres
  have hlaws := hdoc provider hprovider
  rw [hversion, hdir]
  rcases hfetch with ⟨req, hfetch⟩ | ⟨v, hfetch⟩
  · obtain ⟨exactly, hexact, htree⟩ := hlaws.fetch_exact _ _ _ hfetch
    exact ⟨provider, hprovider, name, exactly, hexact, by rw [htree]⟩
  · rw [hlaws.exact_version _ _ _ hfetch]
    exact ⟨provider, hprovider, name, materialized, hfetch, rfl⟩

end Walk.Sound

section

variable {project : Project Dir Req Ver Fault} {rootDir : Dir} {rootManifest : Manifest Dir Req}

/-- A visit of a manifest other than the entry point's keeps the walk sound. -/
def VisitSound (project : Project Dir Req Ver Fault) (rootDir : Dir) (rootManifest : Manifest Dir Req)
    (recur : Dir → Manifest Dir Req → Walk Dir Req Ver → WalkResult Dir Req Ver Fault) : Prop :=
  ∀ dir manifest s s', dir ≠ rootDir → project.loader.load dir = .ok manifest →
    s.Sound project rootDir rootManifest → recur dir manifest s = .ok s' → s'.Sound project rootDir rootManifest

variable {recur : Dir → Manifest Dir Req → Walk Dir Req Ver → WalkResult Dir Req Ver Fault}

theorem follow_sound (hrecur : VisitSound project rootDir rootManifest recur) {dir target : Dir} {depName : Text}
    {missing : Option (DepGraphError Dir Fault)} {s s' : Walk Dir Req Ver} (hs : s.Sound project rootDir rootManifest)
    (h : follow project.loader recur dir depName target missing s = .ok s') :
    s'.Sound project rootDir rootManifest := by
  unfold follow at h
  by_cases hvisiting : target ∈ s.visitingSet
  · rw [if_pos hvisiting] at h
    cases h
  · rw [if_neg hvisiting] at h
    by_cases hvisited : target ∈ s.visited
    · rw [if_pos hvisited] at h
      exact Except.ok.inj h ▸ hs
    · rw [if_neg hvisited] at h
      have hne : target ≠ rootDir := by
        rintro rfl
        exact hs.root_seen.elim hvisiting hvisited
      cases missing with
      | some e => cases h
      | none =>
        cases hload : project.loader.load target with
        | error e =>
          rw [hload] at h
          cases h
        | ok child =>
          rw [hload] at h
          exact hrecur target child s s' hne hload hs h

theorem visitPathDep_sound (hrecur : VisitSound project rootDir rootManifest recur) {dir : Dir}
    {dep : Text × DependencySpec Dir Req} {s s' : Walk Dir Req Ver} (hs : s.Sound project rootDir rootManifest)
    (h : visitPathDep project recur dir s dep = .ok s') : s'.Sound project rootDir rootManifest := by
  obtain ⟨depName, spec⟩ := dep
  cases spec with
  | path path version => exact follow_sound hrecur hs h
  | registry _ => exact Except.ok.inj h ▸ hs
  | git _ _ _ => exact Except.ok.inj h ▸ hs
  | workspace => exact Except.ok.inj h ▸ hs

theorem visitGitDep_sound (hrecur : VisitSound project rootDir rootManifest recur) {dir : Dir}
    {provider : GitProvider Dir} {dep : Text × DependencySpec Dir Req} {s s' : Walk Dir Req Ver}
    (hs : s.Sound project rootDir rootManifest) (h : visitGitDep project recur dir provider s dep = .ok s') :
    s'.Sound project rootDir rootManifest := by
  obtain ⟨depName, spec⟩ := dep
  cases spec with
  | git url reference _ =>
    unfold visitGitDep at h
    cases hfetch : provider.fetch url reference with
    | error message =>
      simp only [hfetch] at h
      cases h
    | ok materialized =>
      simp only [hfetch] at h
      exact follow_sound hrecur (hs.recordGit dir depName _) h
  | registry _ => exact Except.ok.inj h ▸ hs
  | path _ _ => exact Except.ok.inj h ▸ hs
  | workspace => exact Except.ok.inj h ▸ hs

theorem visitGitDeps_sound (hrecur : VisitSound project rootDir rootManifest recur) {dir : Dir}
    {deps : List (Text × DependencySpec Dir Req)} {s s' : Walk Dir Req Ver}
    (hs : s.Sound project rootDir rootManifest) (h : visitGitDeps project recur dir deps s = .ok s') :
    s'.Sound project rootDir rootManifest := by
  unfold visitGitDeps at h
  split at h
  · exact foldlM_keeps (fun _ _ _ hs h => visitGitDep_sound hrecur hs h) hs h
  · exact Except.ok.inj h ▸ hs

variable [DecidableEq Ver]

theorem visitRegistryDep_sound (hrecur : VisitSound project rootDir rootManifest recur) {dir : Dir}
    {provider : RegistryProvider Dir Req Ver} (hprovider : project.options.registryProvider = some provider)
    {dep : Text × DependencySpec Dir Req} {s s' : Walk Dir Req Ver} (hs : s.Sound project rootDir rootManifest)
    (h : visitRegistryDep project recur dir provider s dep = .ok s') : s'.Sound project rootDir rootManifest := by
  obtain ⟨depName, spec⟩ := dep
  cases spec with
  | registry req =>
    unfold visitRegistryDep at h
    cases hfetch : fetchRegistryDep project provider depName req with
    | error message =>
      simp only [hfetch] at h
      cases h
    | ok materialized =>
      simp only [hfetch] at h
      have hrecorded := (hs.recordRegistry hprovider dir hfetch).recordCandidates depName
        (candidatesWithPin project provider depName (pinnedVersion project depName)
          (canonicalizeOrSelf project.fs materialized.rootDir))
      exact follow_sound hrecur hrecorded h
  | git _ _ _ => exact Except.ok.inj h ▸ hs
  | path _ _ => exact Except.ok.inj h ▸ hs
  | workspace => exact Except.ok.inj h ▸ hs

theorem visitRegistryDeps_sound (hrecur : VisitSound project rootDir rootManifest recur) {dir : Dir}
    {deps : List (Text × DependencySpec Dir Req)} {s s' : Walk Dir Req Ver}
    (hs : s.Sound project rootDir rootManifest) (h : visitRegistryDeps project recur dir deps s = .ok s') :
    s'.Sound project rootDir rootManifest := by
  unfold visitRegistryDeps at h
  split at h
  · next provider hprovider _ => exact foldlM_keeps (fun _ _ _ hs h => visitRegistryDep_sound hrecur hprovider hs h) hs h
  · exact Except.ok.inj h ▸ hs

theorem visitDeps_sound (hrecur : VisitSound project rootDir rootManifest recur) {dir : Dir}
    {deps : List (Text × DependencySpec Dir Req)} {s s' : Walk Dir Req Ver}
    (hs : s.Sound project rootDir rootManifest) (h : visitDeps project recur dir deps s = .ok s') :
    s'.Sound project rootDir rootManifest := by
  unfold visitDeps at h
  obtain ⟨s₁, hpath, h⟩ := bind_ok h
  have hs₁ := foldlM_keeps (fun _ _ _ hs h => visitPathDep_sound hrecur hs h) hs hpath
  obtain ⟨s₂, hregistry, hgit⟩ := bind_ok h
  have hs₂ := visitRegistryDeps_sound hrecur hs₁ hregistry
  exact visitGitDeps_sound hrecur hs₂ hgit

/-- One visit, given that the visits below it are sound. -/
theorem visit_succ_sound {depth : ℕ} (hrecur : VisitSound project rootDir rootManifest (visit project depth false))
    {isRoot : Bool} {dir : Dir} {manifest : Manifest Dir Req} {s s' : Walk Dir Req Ver}
    (hflag : isRoot = decide (dir = rootDir)) (hloaded : manifestAt project rootDir rootManifest dir = some manifest)
    (hroot : dir = rootDir ∨ rootDir ∈ s.visitingSet ∨ rootDir ∈ s.visited)
    (hs : s = Walk.start ∨ s.Sound project rootDir rootManifest)
    (h : visit project (depth + 1) isRoot dir manifest s = .ok s') : s'.Sound project rootDir rootManifest := by
  unfold visit at h
  cases hderive : deriveDeps dir project.workspaceDeps (isRoot && project.options.includeDevDeps) manifest with
  | error e =>
    rw [hderive] at h
    cases h
  | ok deps =>
    rw [hderive] at h
    obtain ⟨s₁, hdeps, h⟩ := bind_ok h
    rw [hflag] at hderive
    have hentered := Walk.Sound.enter hroot hloaded hderive hs
    have hs₁ := visitDeps_sound hrecur hentered hdeps
    exact Except.ok.inj h ▸ hs₁.leave dir

theorem visit_sound (depth : ℕ) : VisitSound project rootDir rootManifest (visit project depth false) := by
  induction depth with
  | zero =>
    intro dir manifest s s' _ _ _ h
    cases h
  | succ depth ih =>
    intro dir manifest s s' hne hload hs h
    have hflag : false = decide (dir = rootDir) := by simp [hne]
    have hloaded : manifestAt project rootDir rootManifest dir = some manifest := by
      unfold manifestAt
      rw [if_neg hne, hload]
    exact visit_succ_sound ih hflag hloaded (Or.inr hs.root_seen) (Or.inr hs) h

end

/-- What a graph that was built holds. -/
theorem build_sound [DecidableEq Ver] {depth : ℕ} {fs : FileSystem Dir} {loader : ManifestLoader Dir Req Fault}
    {options : DepGraphOptions Dir Req Ver} {rootDir : Dir} {rootManifest : Manifest Dir Req}
    {graph : DepGraph Dir Req Ver}
    (h : buildDepGraphWithOptions depth fs loader options rootDir rootManifest = .ok graph) :
    ∃ s : Walk Dir Req Ver,
      s.Sound (projectAt fs loader options rootDir rootManifest) graph.rootDir rootManifest ∧
      graph.manifests = s.manifests ∧ graph.derivedDeps = s.derivedDeps ∧
      graph.registryResolutions = s.registryResolutions := by
  unfold buildDepGraphWithOptions at h
  obtain ⟨s, hvisit, h⟩ := bind_ok h
  refine ⟨s, ?_, ?_⟩
  · have hroot : graph.rootDir = canonicalizeOrSelf fs rootDir := by rw [← Except.ok.inj h]
    rw [hroot]
    cases depth with
    | zero => cases hvisit
    | succ depth =>
      have hloaded : manifestAt (projectAt fs loader options rootDir rootManifest) (canonicalizeOrSelf fs rootDir)
          rootManifest (canonicalizeOrSelf fs rootDir) = some rootManifest := if_pos rfl
      exact visit_succ_sound (visit_sound depth) (by simp) hloaded (Or.inl rfl) (Or.inl rfl) hvisit
  · rw [← Except.ok.inj h]
    exact ⟨rfl, rfl, rfl⟩

/-! The first pass. -/

section

variable {versions : Versions Ver Req Range} {project : Project Dir Req Ver Fault} {graph : DepGraph Dir Req Ver}

theorem Leads.unique {dir : Dir} {depName : Text} {spec : DependencySpec Dir Req} {child child' : Text}
    {source source' : ResolvedSource Dir} {version version' : Ver}
    (h : Leads versions project graph dir depName spec child source version)
    (h' : Leads versions project graph dir depName spec child' source' version') :
    child = child' ∧ source = source' ∧ version = version' := by
  cases h with
  | path hmanifest =>
    cases h' with
    | path hmanifest' =>
      rw [hmanifest] at hmanifest'
      exact ⟨by rw [Option.some.inj hmanifest'], rfl, rfl⟩
  | registry hres hmanifest =>
    cases h' with
    | registry hres' hmanifest' =>
      rw [hres] at hres'
      obtain rfl := Option.some.inj hres'
      rw [hmanifest] at hmanifest'
      exact ⟨by rw [Option.some.inj hmanifest'], rfl, rfl⟩
  | git hres hmanifest =>
    cases h' with
    | git hres' hmanifest' =>
      rw [hres] at hres'
      obtain rfl := Option.some.inj hres'
      rw [hmanifest] at hmanifest'
      exact ⟨by rw [Option.some.inj hmanifest'], rfl, rfl⟩

/-- The manifest in the directory of the source gives the package its name. -/
theorem Leads.manifest {dir : Dir} {depName : Text} {spec : DependencySpec Dir Req} {child : Text}
    {source : ResolvedSource Dir} {version : Ver} (rootDir : Dir)
    (h : Leads versions project graph dir depName spec child source version) :
    ∃ manifest, graph.manifests.get (sourceDir rootDir source) = some manifest ∧ manifest.name = child := by
  cases h with
  | path hmanifest => exact ⟨_, hmanifest, rfl⟩
  | registry _ hmanifest => exact ⟨_, hmanifest, rfl⟩
  | git _ hmanifest => exact ⟨_, hmanifest, rfl⟩

/-- A dependency that resolves leads to the package that is inserted, or that gets the edge. -/
theorem resolveDep_ok {offlineRoot : Option Dir} (hoffline : offlineRoot = project.options.offlineRoot) {dir : Dir}
    {packages packages' : Packages Dir Req Ver} {depName : Text} {spec : DependencySpec Dir Req}
    (h : resolveDep versions project.fs graph offlineRoot dir packages (depName, spec) = .ok packages') :
    ∃ child source version agrees, Leads versions project graph dir depName spec child source version ∧
      upsert agrees packages child version source ⟨parentName project.fs graph dir, requirement spec⟩ = .ok packages' := by
  subst hoffline
  unfold resolveDep at h
  cases spec with
  | path path version =>
    simp only at h
    cases hmanifest : graph.manifests.get (pathTarget project.fs project.options.offlineRoot dir depName path) with
    | none =>
      rw [hmanifest] at h
      cases h
    | some child =>
      rw [hmanifest] at h
      exact ⟨_, _, _, _, .path hmanifest, h⟩
  | registry req =>
    simp only at h
    cases hres : graph.registryResolutions.get (toLex (dir, depName)) with
    | none =>
      rw [hres] at h
      cases h
    | some res =>
      rw [hres] at h
      simp only at h
      cases hmanifest : graph.manifests.get res.dir with
      | none =>
        rw [hmanifest] at h
        cases h
      | some child =>
        rw [hmanifest] at h
        exact ⟨_, _, _, _, .registry hres hmanifest, h⟩
  | git url reference version =>
    simp only at h
    cases hres : graph.gitResolutions.get (toLex (dir, depName)) with
    | none =>
      rw [hres] at h
      cases h
    | some res =>
      rw [hres] at h
      simp only at h
      cases hmanifest : graph.manifests.get res.dir with
      | none =>
        rw [hmanifest] at h
        cases h
      | some child =>
        rw [hmanifest] at h
        exact ⟨_, _, _, _, .git hres hmanifest, h⟩
  | workspace => cases h

end

/-- The packages after the pass has met some dependencies: each has its edge, there are no other edges, and every
package but the root has its source and version from one of them. -/
structure PassedOver (versions : Versions Ver Req Range) (project : Project Dir Req Ver Fault)
    (graph : DepGraph Dir Req Ver) (rootName : Text) (met : Dir → Text → DependencySpec Dir Req → Prop)
    (packages : Packages Dir Req Ver) : Prop where
  recorded : ∀ dir depName spec, met dir depName spec → ∃ child source version pkg,
    Leads versions project graph dir depName spec child source version ∧ packages.get child = some pkg ∧
      (⟨parentName project.fs graph dir, requirement spec⟩ : DeclarationEdge Req) ∈ pkg.declaredBy
  explained : ∀ name pkg, packages.get name = some pkg → ∀ edge ∈ pkg.declaredBy, ∃ dir depName spec source version,
    met dir depName spec ∧ Leads versions project graph dir depName spec name source version ∧
      edge = ⟨parentName project.fs graph dir, requirement spec⟩
  sourced : ∀ name pkg, packages.get name = some pkg →
    (name = rootName ∧ pkg.source = .root ∧ pkg.version = versions.sentinel) ∨ ∃ dir depName spec,
      met dir depName spec ∧ Leads versions project graph dir depName spec name pkg.source pkg.version

namespace PassedOver

variable {versions : Versions Ver Req Range} {project : Project Dir Req Ver Fault} {graph : DepGraph Dir Req Ver}
  {rootName : Text} {met met' : Dir → Text → DependencySpec Dir Req → Prop} {packages packages' : Packages Dir Req Ver}

theorem congr (h : PassedOver versions project graph rootName met packages)
    (hmet : ∀ dir depName spec, met' dir depName spec ↔ met dir depName spec) :
    PassedOver versions project graph rootName met' packages := by
  have : met' = met := by
    funext dir depName spec
    exact propext (hmet dir depName spec)
  rwa [this]

/-- The package that one dependency leads to is replaced by one with the edge added. -/
theorem insert {dir : Dir} {depName : Text} {spec : DependencySpec Dir Req} {child : Text} {source : ResolvedSource Dir}
    {version : Ver} {pkg : ResolvedPackage Dir Req Ver} {edges : List (DeclarationEdge Req)}
    (h : PassedOver versions project graph rootName met packages)
    (hleads : Leads versions project graph dir depName spec child source version)
    (hedges : pkg.declaredBy = edges ++ [⟨parentName project.fs graph dir, requirement spec⟩])
    (hold : (∃ existing, packages.get child = some existing ∧ edges = existing.declaredBy ∧
        pkg.source = existing.source ∧ pkg.version = existing.version) ∨
      packages.get child = none ∧ edges = [] ∧ pkg.source = source ∧ pkg.version = version) :
    PassedOver versions project graph rootName
      (fun dir' depName' spec' => met dir' depName' spec' ∨ dir' = dir ∧ depName' = depName ∧ spec' = spec)
      (packages.insert child pkg) where
  recorded dir' depName' spec' hmet := by
    rcases hmet with hmet | ⟨rfl, rfl, rfl⟩
    · obtain ⟨child', source', version', pkg', hleads', hget, hedge⟩ := h.recorded dir' depName' spec' hmet
      by_cases hchild : child' = child
      · subst hchild
        refine ⟨child', source', version', pkg, hleads', SortedMap.get_insert_self .., ?_⟩
        rcases hold with ⟨existing, hexisting, rfl, -⟩ | ⟨hnone, -⟩
        · rw [hget] at hexisting
          obtain rfl := Option.some.inj hexisting
          rw [hedges]
          exact List.mem_append_left _ hedge
        · rw [hget] at hnone
          cases hnone
      · exact ⟨child', source', version', pkg', hleads', by rw [SortedMap.get_insert_of_ne _ hchild, hget], hedge⟩
    · refine ⟨child, source, version, pkg, hleads, SortedMap.get_insert_self .., ?_⟩
      rw [hedges]
      exact List.mem_append_right _ (List.mem_singleton_self _)
  explained name pkg' hget edge hedge := by
    rw [SortedMap.get_insert] at hget
    split_ifs at hget with hname
    · obtain rfl := Option.some.inj hget
      subst hname
      rw [hedges] at hedge
      rcases List.mem_append.mp hedge with hedge | hedge
      · rcases hold with ⟨existing, hexisting, rfl, -⟩ | ⟨-, rfl, -⟩
        · obtain ⟨dir', depName', spec', source', version', hmet, hrest⟩ := h.explained name existing hexisting edge hedge
          exact ⟨dir', depName', spec', source', version', Or.inl hmet, hrest⟩
        · cases hedge
      · exact ⟨dir, depName, spec, source, version, Or.inr ⟨rfl, rfl, rfl⟩, hleads, List.mem_singleton.mp hedge⟩
    · obtain ⟨dir', depName', spec', source', version', hmet, hrest⟩ := h.explained name pkg' hget edge hedge
      exact ⟨dir', depName', spec', source', version', Or.inl hmet, hrest⟩
  sourced name pkg' hget := by
    rw [SortedMap.get_insert] at hget
    split_ifs at hget with hname
    · obtain rfl := Option.some.inj hget
      subst hname
      rcases hold with ⟨existing, hexisting, -, hsource, hversion⟩ | ⟨-, -, hsource, hversion⟩
      · rw [hsource, hversion]
        refine (h.sourced name existing hexisting).imp_right ?_
        rintro ⟨dir', depName', spec', hmet, hleads'⟩
        exact ⟨dir', depName', spec', Or.inl hmet, hleads'⟩
      · rw [hsource, hversion]
        exact Or.inr ⟨dir, depName, spec, Or.inr ⟨rfl, rfl, rfl⟩, hleads⟩
    · refine (h.sourced name pkg' hget).imp_right ?_
      rintro ⟨dir', depName', spec', hmet, hleads'⟩
      exact ⟨dir', depName', spec', Or.inl hmet, hleads'⟩

theorem resolveDep {offlineRoot : Option Dir} (hoffline : offlineRoot = project.options.offlineRoot) {dir : Dir}
    {dep : Text × DependencySpec Dir Req} (h : PassedOver versions project graph rootName met packages)
    (hres : Resolver.resolveDep versions project.fs graph offlineRoot dir packages dep = .ok packages') :
    PassedOver versions project graph rootName
      (fun dir' depName' spec' => met dir' depName' spec' ∨ dir' = dir ∧ depName' = dep.1 ∧ spec' = dep.2) packages' := by
  obtain ⟨depName, spec⟩ := dep
  obtain ⟨child, source, version, agrees, hleads, hupsert⟩ := resolveDep_ok hoffline hres
  rcases upsert_ok hupsert with ⟨existing, hget, rfl⟩ | ⟨hget, rfl⟩
  · exact h.insert hleads rfl (Or.inl ⟨existing, hget, rfl, rfl, rfl⟩)
  · exact h.insert hleads (List.nil_append _).symm (Or.inr ⟨hget, rfl, rfl, rfl⟩)

end PassedOver

/-- The graph has a dependency. -/
def Met (graph : DepGraph Dir Req Ver) (dir : Dir) (depName : Text) (spec : DependencySpec Dir Req) : Prop :=
  ∃ deps, graph.derivedDeps.get dir = some deps ∧ deps.get depName = some spec

theorem firstPass_passedOver {versions : Versions Ver Req Range} {project : Project Dir Req Ver Fault}
    {graph : DepGraph Dir Req Ver} {offlineRoot : Option Dir} (hoffline : offlineRoot = project.options.offlineRoot)
    {rootName : Text} {packages : Packages Dir Req Ver}
    (h : firstPass versions project.fs graph offlineRoot rootName = .ok packages) :
    PassedOver versions project graph rootName (Met graph) packages := by
  have hstart : PassedOver versions project graph rootName (fun _ _ _ => False)
      (SortedMap.empty.insert rootName (rootPackage versions rootName)) := by
    refine ⟨fun _ _ _ h => h.elim, fun name pkg hget edge hedge => ?_, fun name pkg hget => ?_⟩
    · rw [SortedMap.get_insert] at hget
      split_ifs at hget
      · rw [← Option.some.inj hget] at hedge
        cases hedge
      · cases hget
    · rw [SortedMap.get_insert] at hget
      split_ifs at hget with hname
      · rw [← Option.some.inj hget]
        exact Or.inl ⟨hname, rfl, rfl⟩
      · cases hget
  -- the entries passed so far, as (directory, dependencies)
  have hpass := foldlM_ok (fun done packages => PassedOver versions project graph rootName
    (fun dir depName spec => ∃ e ∈ done, dir = e.1 ∧ (depName, spec) ∈ e.2.entries) packages) ?_
    graph.derivedDeps.entries [] _ packages (hstart.congr (by simp)) h
  · refine hpass.congr fun dir depName spec => ?_
    constructor
    · rintro ⟨deps, hdeps, hspec⟩
      exact ⟨(dir, deps), SortedMap.get_eq_some_iff.mp hdeps, rfl, SortedMap.get_eq_some_iff.mp hspec⟩
    · rintro ⟨⟨dir', deps⟩, hmem, rfl, hspec⟩
      exact ⟨deps, SortedMap.get_eq_some_iff.mpr hmem, SortedMap.get_eq_some_iff.mpr hspec⟩
  · intro done e before after hbefore hfold
    have hdeps := foldlM_ok (fun passed packages => PassedOver versions project graph rootName
      (fun dir depName spec => (∃ e ∈ done, dir = e.1 ∧ (depName, spec) ∈ e.2.entries) ∨
        dir = e.1 ∧ (depName, spec) ∈ passed) packages) ?_ e.2.entries [] _ after (hbefore.congr (by simp)) hfold
    · refine hdeps.congr fun dir depName spec => ?_
      simp
    · intro passed dep before after hbefore hres
      refine (hbefore.resolveDep hoffline hres).congr fun dir depName spec => ?_
      simp only [List.mem_append, List.mem_singleton, Prod.ext_iff, or_assoc, and_or_left]

/-! The selection. -/

/-- A resolution has the packages of the first pass, at the versions of the solver where it gave an answer. -/
theorem resolveWithPins_ok {versions : Versions Ver Req Range} {pubgrub : PubGrub Ver Range} {fs : FileSystem Dir}
    {graph : DepGraph Dir Req Ver} {activeToolchain : Ver} {offlineRoot : Option Dir} {pins : SortedMap Text Ver}
    {resolution : Resolution Dir Req Ver}
    (h : resolveWithPins versions pubgrub fs graph activeToolchain offlineRoot pins = .ok resolution) :
    ∃ rootManifest packages, graph.manifests.get graph.rootDir = some rootManifest ∧
      firstPass versions fs graph offlineRoot rootManifest.name = .ok packages ∧
      ((∃ selected, solverAnswer versions pubgrub packages rootManifest.name graph.registryCandidates pins =
          some (.ok selected) ∧
          resolution.packages = selected.entries.foldl (adoptVersion rootManifest.name) packages) ∨
        (∀ selected, solverAnswer versions pubgrub packages rootManifest.name graph.registryCandidates pins ≠
          some (.ok selected)) ∧ resolution.packages = packages) := by
  unfold resolveWithPins at h
  cases htoolchain : toolchainTooOld versions graph activeToolchain with
  | some e =>
    rw [htoolchain] at h
    cases h
  | none =>
    rw [htoolchain] at h
    simp only at h
    cases hroot : graph.manifests.get graph.rootDir with
    | none =>
      rw [hroot] at h
      cases h
    | some rootManifest =>
      rw [hroot] at h
      obtain ⟨packages, hpass, h⟩ := bind_ok h
      refine ⟨rootManifest, packages, rfl, hpass, ?_⟩
      unfold selectVersionsWithPubgrub at h
      cases hanswer : solverAnswer versions pubgrub packages rootManifest.name graph.registryCandidates pins with
      | none =>
        rw [hanswer] at h
        cases h
      | some answer =>
        rw [hanswer] at h
        cases answer with
        | ok selected => exact Or.inl ⟨selected, rfl, by rw [← Except.ok.inj h]⟩
        | error e =>
          refine Or.inr ⟨fun selected hsel => by simp at hsel, ?_⟩
          cases e with
          | noSolution report =>
            simp only [Option.map_some] at h
            split at h <;> cases h
          | internal message =>
            simp only [Option.map_some] at h
            split at h
            · cases h
            · rw [← Except.ok.inj h]

/-- What the graph and the first pass over it hold, of a project that was walked. -/
structure Passed (versions : Versions Ver Req Range) (project : Project Dir Req Ver Fault)
    (rootManifest : Manifest Dir Req) (graph : DepGraph Dir Req Ver) (packages : Packages Dir Req Ver) : Prop where
  root : graph.manifests.get graph.rootDir = some rootManifest
  loaded : ∀ dir manifest, graph.manifests.get dir = some manifest →
    manifestAt project graph.rootDir rootManifest dir = some manifest
  derived : ∀ dir manifest, graph.manifests.get dir = some manifest →
    ∃ deps, graph.derivedDeps.get dir = some deps ∧ declaredDeps project graph.rootDir dir manifest = .ok deps
  visited : ∀ dir deps, graph.derivedDeps.get dir = some deps → ∃ manifest, graph.manifests.get dir = some manifest
  passed : PassedOver versions project graph rootManifest.name (Met graph) packages
  holds_tree : ∀ name pkg, packages.get name = some pkg → HoldsTree versions project pkg.source pkg.version

namespace Passed

variable {versions : Versions Ver Req Range} {project : Project Dir Req Ver Fault} {rootManifest : Manifest Dir Req}
  {graph : DepGraph Dir Req Ver} {packages : Packages Dir Req Ver}

theorem parentName_eq {dir : Dir} {manifest : Manifest Dir Req} (hdir : graph.manifests.get dir = some manifest) :
    parentName project.fs graph dir = manifest.name := by
  unfold parentName
  rw [hdir]

theorem met_of_declares (h : Passed versions project rootManifest graph packages) {dir : Dir}
    {manifest : Manifest Dir Req} (hdir : graph.manifests.get dir = some manifest) {depName : Text}
    {spec : DependencySpec Dir Req} (hdeclares : Declares project graph.rootDir rootManifest dir depName spec) :
    Met graph dir depName spec := by
  obtain ⟨manifest', deps', hmanifest', hdeps', hspec⟩ := hdeclares
  rw [h.loaded dir manifest hdir] at hmanifest'
  obtain rfl := Option.some.inj hmanifest'
  obtain ⟨deps, hderived, hdeps⟩ := h.derived dir manifest hdir
  rw [hdeps] at hdeps'
  obtain rfl := Except.ok.inj hdeps'
  exact ⟨deps, hderived, hspec⟩

theorem declares_of_met (h : Passed versions project rootManifest graph packages) {dir : Dir} {depName : Text}
    {spec : DependencySpec Dir Req} (hmet : Met graph dir depName spec) : ∃ manifest,
      graph.manifests.get dir = some manifest ∧ Declares project graph.rootDir rootManifest dir depName spec := by
  obtain ⟨deps, hderived, hspec⟩ := hmet
  obtain ⟨manifest, hmanifest⟩ := h.visited dir deps hderived
  obtain ⟨deps', hderived', hdeps'⟩ := h.derived dir manifest hmanifest
  rw [hderived] at hderived'
  obtain rfl := Option.some.inj hderived'
  exact ⟨manifest, hmanifest, manifest, deps, h.loaded dir manifest hmanifest, hdeps', hspec⟩

/-- The directory of a package was visited, and its manifest has the name of the package. -/
theorem manifest_of_package (h : Passed versions project rootManifest graph packages) {name : Text}
    {pkg : ResolvedPackage Dir Req Ver} (hpkg : packages.get name = some pkg) :
    ∃ manifest, graph.manifests.get (sourceDir graph.rootDir pkg.source) = some manifest ∧ manifest.name = name := by
  rcases h.passed.sourced name pkg hpkg with ⟨hname, hsource, -⟩ | ⟨dir, depName, spec, -, hleads⟩
  · rw [hsource]
    exact ⟨rootManifest, h.root, hname.symm⟩
  · exact hleads.manifest graph.rootDir

/-- The edges recorded for a name are what the manifests visited under it require. -/
theorem recorded_iff (h : Passed versions project rootManifest graph packages) {name child : Text} {req : Option Req} :
    Recorded packages name child req ↔ ∃ dir manifest, graph.manifests.get dir = some manifest ∧ manifest.name = name ∧
      Requires versions project rootManifest graph dir child req := by
  constructor
  · rintro ⟨pkg, hpkg, hedge⟩
    obtain ⟨dir, depName, spec, source, version, hmet, hleads, heq⟩ := h.passed.explained child pkg hpkg _ hedge
    obtain ⟨manifest, hdir, hdeclares⟩ := h.declares_of_met hmet
    rw [DeclarationEdge.mk.injEq] at heq
    refine ⟨dir, manifest, hdir, ?_, depName, spec, source, version, hdeclares, hleads, heq.2.symm⟩
    rw [heq.1, parentName_eq hdir]
  · rintro ⟨dir, manifest, hdir, hname, depName, spec, source, version, hdeclares, hleads, hreq⟩
    obtain ⟨child', source', version', pkg, hleads', hpkg, hedge⟩ :=
      h.passed.recorded dir depName spec (h.met_of_declares hdir hdeclares)
    obtain ⟨rfl, -, -⟩ := hleads.unique hleads'
    rw [parentName_eq hdir, hname, hreq] at hedge
    exact ⟨pkg, hpkg, hedge⟩

end Passed

/-- The walk and the first pass, of a project that resolves. -/
theorem passed_of_build [DecidableEq Ver] {versions : Versions Ver Req Range} {depth : ℕ} {fs : FileSystem Dir}
    {loader : ManifestLoader Dir Req Fault} {options : DepGraphOptions Dir Req Ver} {rootDir : Dir}
    {rootManifest manifest : Manifest Dir Req} {graph : DepGraph Dir Req Ver} {packages : Packages Dir Req Ver}
    (hdoc : ∀ provider, options.registryProvider = some provider → provider.Documented fs)
    (hbuild : buildDepGraphWithOptions depth fs loader options rootDir rootManifest = .ok graph)
    (hroot : graph.manifests.get graph.rootDir = some manifest)
    (hpass : firstPass versions fs graph options.offlineRoot manifest.name = .ok packages) :
    manifest = rootManifest ∧
      Passed versions (projectAt fs loader options rootDir rootManifest) rootManifest graph packages := by
  obtain ⟨s, hs, hmanifests, hderived, hresolutions⟩ := build_sound hbuild
  have hmanifest : manifest = rootManifest := by
    have := hs.loaded graph.rootDir manifest (hmanifests ▸ hroot)
    unfold manifestAt at this
    rw [if_pos rfl] at this
    exact (Option.some.inj this).symm
  subst hmanifest
  have hover : PassedOver versions (projectAt fs loader options rootDir manifest) graph manifest.name (Met graph) packages :=
    firstPass_passedOver rfl hpass
  refine ⟨rfl, hroot, ?_, ?_, ?_, hover, ?_⟩
  · rw [hmanifests]
    exact hs.loaded
  · rw [hmanifests, hderived]
    exact hs.derived
  · rw [hmanifests, hderived]
    exact hs.visited
  · intro name pkg hpkg
    rcases hover.sourced name pkg hpkg with ⟨-, hsource, hversion⟩ | ⟨dir, depName, spec, -, hleads⟩
    · rw [hsource]
      exact hversion
    · obtain ⟨pkgName, version, source, edges⟩ := pkg
      cases hleads with
      | path _ => exact rfl
      | git _ _ => exact rfl
      | registry hres _ => exact hs.holds_tree hdoc (hresolutions ▸ hres)

variable {versions : Versions Ver Req Range} {pubgrub : PubGrub Ver Range} {project : Project Dir Req Ver Fault}
  {rootManifest : Manifest Dir Req} {graph : DepGraph Dir Req Ver} {pins : SortedMap Text Ver}
  {packages final : Packages Dir Req Ver}

/-- The packages of the resolution: those of the first pass, at the versions of the solver's answer. -/
def Finishes (versions : Versions Ver Req Range) (pubgrub : PubGrub Ver Range) (rootManifest : Manifest Dir Req)
    (graph : DepGraph Dir Req Ver) (pins : SortedMap Text Ver) (packages final : Packages Dir Req Ver) : Prop :=
  (∃ selected, solverAnswer versions pubgrub packages rootManifest.name graph.registryCandidates pins =
      some (.ok selected) ∧ final = selected.entries.foldl (adoptVersion rootManifest.name) packages) ∨
    (∀ selected, solverAnswer versions pubgrub packages rootManifest.name graph.registryCandidates pins ≠
      some (.ok selected)) ∧ final = packages

theorem Finishes.get (h : Finishes versions pubgrub rootManifest graph pins packages final) (name : Text) :
    (∃ selected, solverAnswer versions pubgrub packages rootManifest.name graph.registryCandidates pins =
      some (.ok selected) ∧ final.get name = (packages.get name).map (adopted rootManifest.name selected.entries name)) ∨
    (∀ selected, solverAnswer versions pubgrub packages rootManifest.name graph.registryCandidates pins ≠
      some (.ok selected)) ∧ final.get name = packages.get name := by
  rcases h with ⟨selected, hanswer, rfl⟩ | ⟨hanswer, rfl⟩
  · exact Or.inl ⟨selected, hanswer, get_foldl_adoptVersion _ _ selected.sorted _ _⟩
  · exact Or.inr ⟨hanswer, rfl⟩

/-- The solver leaves the versions alone exactly when the packages are those of the first pass. -/
theorem Finishes.same_of_unmoved (h : Finishes versions pubgrub rootManifest graph pins packages final)
    (hunmoved : ∀ selected,
      solverAnswer versions pubgrub packages rootManifest.name graph.registryCandidates pins = some (.ok selected) →
      ∀ name pkg, packages.get name = some pkg → name ≠ rootManifest.name →
      ∀ version, selected.get name = some version → pkg.version = version) (name : Text) :
    final.get name = packages.get name := by
  rcases h.get name with ⟨selected, hanswer, hget⟩ | ⟨-, hget⟩
  · rw [hget]
    cases hpkg : packages.get name with
    | none => rfl
    | some pkg =>
      rw [Option.map_some]
      unfold adopted
      split_ifs with hroot
      · rfl
      · cases hfind : SortedMap.find name selected.entries with
        | none => rfl
        | some version => rw [← hunmoved selected hanswer name pkg hpkg hroot version hfind]
  · exact hget

/-- A first pass that stands is consistent. -/
theorem FirstPassStands.consistent (h : FirstPassStands versions pubgrub project rootManifest graph pins packages)
    (hpassed : Passed versions project rootManifest graph packages)
    (hfinal : Finishes versions pubgrub rootManifest graph pins packages final) :
    Consistent versions project rootManifest graph final := by
  have hsame := hfinal.same_of_unmoved h.unmoved
  refine ⟨fun name pkg hpkg => ?_, fun name pkg hpkg => ?_, fun name pkg hpkg depName spec hdeclares => ?_,
    fun name pkg hpkg child req => ?_⟩ <;> rw [hsame] at hpkg
  · exact hpassed.holds_tree name pkg hpkg
  · obtain ⟨manifest, hdir, hname⟩ := hpassed.manifest_of_package hpkg
    exact ⟨manifest, hpassed.loaded _ _ hdir, hname⟩
  · obtain ⟨manifest, hdir, -⟩ := hpassed.manifest_of_package hpkg
    obtain ⟨child, source, version, dep, hleads, hdep, -⟩ :=
      hpassed.passed.recorded _ _ _ (hpassed.met_of_declares hdir hdeclares)
    refine ⟨child, source, version, dep, hleads, by rw [hsame, hdep], fun req hreq => ?_⟩
    exact h.satisfied name pkg hpkg child req ⟨depName, spec, source, version, hdeclares, hleads, hreq⟩ dep hdep
  · rw [recorded_congr hsame, hpassed.recorded_iff]
    constructor
    · rintro ⟨dir, manifest, hdir, hname, hrequires⟩
      exact h.same_requirements name pkg hpkg dir manifest hdir hname child req hrequires
    · intro hrequires
      obtain ⟨manifest, hdir, hname⟩ := hpassed.manifest_of_package hpkg
      exact ⟨_, manifest, hdir, hname, hrequires⟩

/-- A consistent resolution is the first pass, which stands. -/
theorem Consistent.firstPassStands (h : Consistent versions project rootManifest graph final)
    (hdoc : ∀ provider, project.options.registryProvider = some provider → provider.Documented project.fs)
    (hpassed : Passed versions project rootManifest graph packages)
    (hfinal : Finishes versions pubgrub rootManifest graph pins packages final) :
    FirstPassStands versions pubgrub project rootManifest graph pins packages := by
  have hunmoved : ∀ selected,
      solverAnswer versions pubgrub packages rootManifest.name graph.registryCandidates pins = some (.ok selected) →
      ∀ name pkg, packages.get name = some pkg → name ≠ rootManifest.name →
      ∀ version, selected.get name = some version → pkg.version = version := by
    intro selected hanswer name pkg hpkg hroot version hversion
    rcases hfinal.get name with ⟨selected', hanswer', hget⟩ | ⟨hanswer', -⟩
    · rw [hanswer] at hanswer'
      obtain rfl := Except.ok.inj (Option.some.inj hanswer')
      have hadopted : adopted rootManifest.name selected.entries name pkg = { pkg with version := version } := by
        unfold adopted
        rw [if_neg hroot, show SortedMap.find name selected.entries = some version from hversion]
      rw [hpkg, Option.map_some, hadopted] at hget
      exact (hpassed.holds_tree name pkg hpkg).unique hdoc (h.holds_tree name _ hget)
    · exact absurd hanswer (hanswer' selected)
  have hsame := hfinal.same_of_unmoved hunmoved
  refine ⟨hunmoved, fun name pkg hpkg dir manifest hdir hname child req hrequires => ?_,
    fun name pkg hpkg child req hrequires dep hdep => ?_⟩
  · have hrecorded := hpassed.recorded_iff.mpr ⟨dir, manifest, hdir, hname, hrequires⟩
    exact (h.edges name pkg ((hsame name).trans hpkg) child req).mp ((recorded_congr hsame).mpr hrecorded)
  · obtain ⟨depName, spec, source, version, hdeclares, hleads, hreq⟩ := hrequires
    obtain ⟨child', source', version', dep', hleads', hdep', haccepts⟩ :=
      h.present name pkg ((hsame name).trans hpkg) depName spec hdeclares
    obtain ⟨rfl, -, -⟩ := hleads.unique hleads'
    rw [hsame, hdep] at hdep'
    obtain rfl := Option.some.inj hdep'
    exact haccepts req hreq

end

section

variable {Pre Build Dir Fault : Type} [LinearOrder Pre] [LinearOrder Build] [OrderTop Pre] [OrderBot Build]
  [LinearOrder Dir]

end

/-- The rows of a table that a selection takes have their dependencies in it. -/
def Solves {V : Type} (crate : RangeCrate V) (table : List (Dependencies V crate.Range)) (root : Text) (rootVersion : V)
    (selected : SortedMap Text V) : Prop :=
  selected.get root = some rootVersion ∧ ∀ e ∈ selected.entries, ∃ row ∈ table, row.package = e.1 ∧ row.version = e.2 ∧
    ∀ dep ∈ row.deps, ∃ v ∈ selected.get dep.1, crate.contains dep.2 v

/-! A registry with a package `a` that needs the older of two versions of `b`. -/

abbrev SemVersion := Version PreTag BuildTag

abbrev SemReq := List (Comparator PreTag)

/-- Ranges as tests. -/
def testCrate : RangeCrate SemVersion where
  Range := SemVersion → Bool
  full := fun _ => true
  singleton a := fun v => decide (v = a)
  between a b := fun v => decide (a ≤ v ∧ v < b)
  higherThan a := fun v => decide (a ≤ v)
  strictlyHigherThan a := fun v => decide (a < v)
  lowerThan a := fun v => decide (v ≤ a)
  strictlyLowerThan a := fun v => decide (v < a)
  intersection r s := fun v => r v && s v
  contains r v := r v = true

instance (r : testCrate.Range) (v : SemVersion) : Decidable (testCrate.contains r v) :=
  inferInstanceAs (Decidable (r v = true))

/-- Exact and caret requirements, at releases. -/
def acceptsRelease (req : SemReq) (v : SemVersion) : Bool :=
  req.all fun c => if c.op = .exact then decide (v = exact c) else decide (c.major = v.major ∧ exact c ≤ v)

theorem none_patch_of_minor (_ : (none : Option U64) = none) : (none : Option U64) = none := rfl

theorem release_of_patch (_ : (none : Option U64) = none) : (⊤ : PreTag) = ⊤ := rfl

theorem none_patch_of_wildcard (_ : Op.caret = .wildcard) : (none : Option U64) = none := rfl

def caretOne : SemReq :=
  [⟨.caret, 1, none, none, ⊤, none_patch_of_minor, release_of_patch, none_patch_of_wildcard⟩]

def exactlyOne : SemReq := [⟨.exact, 1, some 0, some 0, ⊤, by simp, by simp, by simp⟩]

def olderVersion : SemVersion := .new 1 0 0

def newerVersion : SemVersion := .new 1 1 0

def published (name : Text) : List SemVersion :=
  if name = ['a'] then [olderVersion] else if name = ['b'] then [olderVersion, newerVersion] else []

def treeDir (name : Text) (v : SemVersion) : Text := '/' :: 'q' :: (if v = newerVersion then '1' else '0') :: name

def fetchPublished (name : Text) (v : SemVersion) : Except Text (MaterializedDep Text SemVersion) :=
  if v ∈ published name then .ok ⟨treeDir name v, v, name⟩ else .error []

def publishedProvider : RegistryProvider Text SemReq SemVersion where
  fetch name req := match ((published name).filter (acceptsRelease req)).getLast? with
    | some v => fetchPublished name v
    | none => .error []
  availableVersions name := .ok (published name)
  fetchExact := fetchPublished

def plainPaths : FileSystem Text where
  canonicalize := some
  isAbsolute p := p.head? = some '/'
  join p q := p ++ '/' :: q
  ofName := id
  display := id
  ancestors p := [p]

theorem fetchPublished_ok {name : Text} {v : SemVersion} {materialized : MaterializedDep Text SemVersion}
    (h : fetchPublished name v = .ok materialized) : v ∈ published name ∧ materialized = ⟨treeDir name v, v, name⟩ := by
  unfold fetchPublished at h
  split_ifs at h with hmem
  exact ⟨hmem, (Except.ok.inj h).symm⟩

theorem eq_or_eq_of_published {name : Text} {v : SemVersion} (h : v ∈ published name) :
    v = olderVersion ∨ v = newerVersion := by
  unfold published at h
  split_ifs at h
  · exact Or.inl (List.mem_singleton.mp h)
  · simpa using h
  · cases h

theorem publishedProvider_documented : publishedProvider.Documented plainPaths where
  fetch_exact name req materialized h := by
    change (match ((published name).filter (acceptsRelease req)).getLast? with
      | some v => fetchPublished name v
      | none => .error []) = .ok materialized at h
    cases hlast : ((published name).filter (acceptsRelease req)).getLast? with
    | none =>
      rw [hlast] at h
      cases h
    | some v =>
      rw [hlast] at h
      obtain ⟨-, rfl⟩ := fetchPublished_ok h
      exact ⟨_, h, rfl⟩
  exact_version name version materialized h := by
    obtain ⟨-, rfl⟩ := fetchPublished_ok h
    rfl
  trees_apart name version materialized name' version' materialized' h h' hdir := by
    obtain ⟨hmem, rfl⟩ := fetchPublished_ok h
    obtain ⟨hmem', rfl⟩ := fetchPublished_ok h'
    have hdigit := (List.cons.inj (List.cons.inj (List.cons.inj hdir).2).2).1
    rcases eq_or_eq_of_published hmem with rfl | rfl <;> rcases eq_or_eq_of_published hmem' with rfl | rfl
    · rfl
    · exact absurd hdigit (by decide)
    · exact absurd hdigit (by decide)
    · rfl

def manifestOf (name : Text) (deps : List (Text × SemReq)) : Manifest Text SemReq :=
  ⟨name, none, .ofEntries (deps.map fun d => (d.1, .registry d.2)), .empty, .empty, false⟩

def publishedLoader : ManifestLoader Text SemReq Unit where
  load dir :=
    if dir = treeDir ['a'] olderVersion then .ok (manifestOf ['a'] [(['b'], exactlyOne)])
    else if dir = treeDir ['b'] olderVersion ∨ dir = treeDir ['b'] newerVersion then .ok (manifestOf ['b'] [])
    else .error ()
  manifestExists _ := true

def registryOptions : DepGraphOptions Text SemReq SemVersion := ⟨none, false, some publishedProvider, none, none⟩

instance (table : List (Dependencies SemVersion testCrate.Range)) (root : Text) (rootVersion : SemVersion)
    (selected : SortedMap Text SemVersion) : Decidable (Solves testCrate table root rootVersion selected) :=
  inferInstanceAs (Decidable (_ ∧ _))

/-- A solver that knows one selection, and answers it where it is a solution. -/
def solverOf (selection : SortedMap Text SemVersion) : PubGrub SemVersion testCrate.Range :=
  fun table _ root rootVersion =>
    if Solves testCrate table root rootVersion selection then .ok selection else .error (.noSolution [])

def builtGraph (rootManifest : Manifest Text SemReq) : DepGraph Text SemReq SemVersion :=
  match buildDepGraphWithOptions 4 plainPaths publishedLoader registryOptions ['/', 'p'] rootManifest with
  | .ok graph => graph
  | .error _ => ⟨[], .empty, .empty, .empty, .empty, .empty⟩

def resolutionOf (selection : SortedMap Text SemVersion) (graph : DepGraph Text SemReq SemVersion) :
    Resolution Text SemReq SemVersion :=
  match resolveWithPins (semverVersions testCrate acceptsRelease) (solverOf selection) plainPaths graph olderVersion none
      .empty with
  | .ok resolution => resolution
  | .error _ => ⟨.empty⟩

/-- The project needs any version of `b`. -/
def oneManifest : Manifest Text SemReq := manifestOf ['p'] [(['b'], caretOne)]

def oneSelection : SortedMap Text SemVersion := .ofEntries [(['p'], .new 0 0 0), (['b'], newerVersion)]

def onePackages : Packages Text SemReq SemVersion := .ofEntries
  [(['p'], ⟨['p'], .new 0 0 0, .root, []⟩),
    (['b'], ⟨['b'], newerVersion, .registry ['b'] (treeDir ['b'] newerVersion), [⟨['p'], some caretOne⟩]⟩)]

theorem onePackages_cases {name : Text} {pkg : ResolvedPackage Text SemReq SemVersion}
    (h : onePackages.get name = some pkg) :
    (name = ['b'] ∧ pkg.version = newerVersion ∧ pkg.source = .registry ['b'] (treeDir ['b'] newerVersion)) ∨
      name = ['p'] ∧ pkg.source = .root := by
  have hmem := SortedMap.get_eq_some_iff.mp h
  have hentries : onePackages.entries =
      [(['b'], ⟨['b'], newerVersion, .registry ['b'] (treeDir ['b'] newerVersion), [⟨['p'], some caretOne⟩]⟩),
        (['p'], ⟨['p'], .new 0 0 0, .root, []⟩)] := by rfl
  rw [hentries] at hmem
  rcases List.mem_cons.mp hmem with heq | hmem
  · obtain ⟨rfl, rfl⟩ := Prod.mk.inj heq
    exact Or.inl ⟨rfl, rfl, rfl⟩
  · obtain ⟨rfl, rfl⟩ := Prod.mk.inj (List.mem_singleton.mp hmem)
    exact Or.inr ⟨rfl, rfl⟩

theorem oneManifests_cases {dir : Text} {manifest : Manifest Text SemReq}
    (h : (builtGraph oneManifest).manifests.get dir = some manifest) :
    (dir = ['/', 'p'] ∧ manifest.name = ['p']) ∨ dir = treeDir ['b'] newerVersion ∧ manifest.name = ['b'] := by
  have hmem := SortedMap.get_eq_some_iff.mp h
  have hentries : (builtGraph oneManifest).manifests.entries =
      [(['/', 'p'], oneManifest), (treeDir ['b'] newerVersion, manifestOf ['b'] [])] := by rfl
  rw [hentries] at hmem
  rcases List.mem_cons.mp hmem with heq | hmem
  · obtain ⟨rfl, rfl⟩ := Prod.mk.inj heq
    exact Or.inl ⟨rfl, rfl⟩
  · obtain ⟨rfl, rfl⟩ := Prod.mk.inj (List.mem_singleton.mp hmem)
    exact Or.inr ⟨rfl, rfl⟩

theorem oneProject_stands : FirstPassStands (semverVersions testCrate acceptsRelease) (solverOf oneSelection)
    (projectAt plainPaths publishedLoader registryOptions ['/', 'p'] oneManifest) oneManifest (builtGraph oneManifest)
    .empty onePackages where
  unmoved selected hanswer name pkg hpkg hroot version hversion := by
    have hselected : oneSelection = selected := by
      have hone : solverAnswer (semverVersions testCrate acceptsRelease) (solverOf oneSelection) onePackages
          oneManifest.name (builtGraph oneManifest).registryCandidates .empty = some (.ok oneSelection) := by rfl
      rw [hone] at hanswer
      exact Except.ok.inj (Option.some.inj hanswer)
    rcases onePackages_cases hpkg with ⟨rfl, hpkgVersion, -⟩ | ⟨rfl, -⟩
    · have hb : oneSelection.get ['b'] = some newerVersion := by rfl
      rw [← hselected, hb] at hversion
      exact hpkgVersion.trans (Option.some.inj hversion)
    · exact absurd rfl hroot
  same_requirements name pkg hpkg dir manifest hdir hname child req hrequires := by
    rcases onePackages_cases hpkg with ⟨rfl, -, hsource⟩ | ⟨rfl, hsource⟩ <;> rw [hsource] <;>
      rcases oneManifests_cases hdir with ⟨rfl, hdirName⟩ | ⟨rfl, hdirName⟩
    · exact absurd (hdirName.symm.trans hname) (by decide)
    · exact hrequires
    · exact hrequires
    · exact absurd (hdirName.symm.trans hname) (by decide)
  satisfied name pkg hpkg child req hrequires dep hdep := by
    obtain ⟨depName, spec, source, version, ⟨manifest, deps, hmanifest, hdeps, hspec⟩, hleads, hreq⟩ := hrequires
    rcases onePackages_cases hpkg with ⟨rfl, -, hsource⟩ | ⟨rfl, hsource⟩
    · rw [hsource] at hmanifest hdeps
      obtain rfl : manifestOf ['b'] [] = manifest := Option.some.inj hmanifest
      obtain rfl : SortedMap.empty = deps := Except.ok.inj hdeps
      cases hspec
    · rw [hsource] at hmanifest hdeps hleads
      obtain rfl : oneManifest = manifest := Option.some.inj hmanifest
      obtain rfl : SortedMap.ofEntries [(['b'], .registry caretOne)] = deps := Except.ok.inj hdeps
      have hmem := SortedMap.get_eq_some_iff.mp hspec
      obtain ⟨rfl, rfl⟩ := Prod.mk.inj (List.mem_singleton.mp hmem)
      obtain rfl : caretOne = req := Option.some.inj hreq
      cases hleads with
      | registry hres hchild =>
        rcases onePackages_cases hdep with ⟨-, hversion, -⟩ | ⟨hp, -⟩
        · rw [hversion]
          rfl
        · rcases oneManifests_cases hchild with ⟨hdir, -⟩ | ⟨-, hname⟩
          · have hone : (builtGraph oneManifest).registryResolutions.get (toLex (['/', 'p'], ['b'])) =
                some ⟨treeDir ['b'] newerVersion, newerVersion, ['b']⟩ := by rfl
            have hres' := hone.symm.trans hres
            rw [← Option.some.inj hres'] at hdir
            exact absurd hdir (by decide)
          · exact absurd (hname.symm.trans hp) (by decide)

/-- The project needs `a`, and any version of `b`. -/
def bothManifest : Manifest Text SemReq := manifestOf ['p'] [(['a'], caretOne), (['b'], caretOne)]

def bothSelection : SortedMap Text SemVersion :=
  .ofEntries [(['p'], .new 0 0 0), (['a'], olderVersion), (['b'], olderVersion)]

end Karac.Resolver
