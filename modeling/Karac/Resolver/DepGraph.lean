import Karac.Lib.SortedMap
import Karac.Resolver.Lockfile

/-! The dependency graph of a project. The walk loads the manifests that the entry point reaches, and
fetches what they name from a registry or from git. The file system, the manifests on it and the two
sources enter as what they answer; paths are those of the file system, in its order. -/

namespace Karac.Resolver

open Lib Lib.Toml

inductive DependencySpec (Dir Req : Type)
  | registry (version : Req)
  | path (path : Dir) (version : Option Req)
  | git (url : Text) (reference : Option GitRef) (version : Option Req)
  | workspace

structure Manifest (Dir Req : Type) where
  name : Text
  karaVersion : Option Req
  dependencies : SortedMap Text (DependencySpec Dir Req)
  devDependencies : SortedMap Text (DependencySpec Dir Req)
  workspaceDependencies : SortedMap Text (DependencySpec Dir Req)
  isWorkspaceRoot : Bool

structure FileSystem (Dir : Type) where
  canonicalize : Dir → Option Dir
  isAbsolute : Dir → Bool
  join : Dir → Dir → Dir
  ofName : Text → Dir
  display : Dir → Text
  /-- A path and its parents, innermost first. -/
  ancestors : Dir → List Dir

structure ManifestLoader (Dir Req Fault : Type) where
  load : Dir → Except Fault (Manifest Dir Req)
  manifestExists : Dir → Bool

structure MaterializedDep (Dir Ver : Type) where
  rootDir : Dir
  version : Ver
  upstreamUrl : Text

structure RegistryProvider (Dir Req Ver : Type) where
  fetch : Text → Req → Except Text (MaterializedDep Dir Ver)
  availableVersions : Text → Except Text (List Ver)
  fetchExact : Text → Ver → Except Text (MaterializedDep Dir Ver)

structure MaterializedGitDep (Dir : Type) where
  rootDir : Dir
  resolvedRev : Text

structure GitProvider (Dir : Type) where
  fetch : Text → Option GitRef → Except Text (MaterializedGitDep Dir)

structure RegistryResolution (Dir Ver : Type) where
  dir : Dir
  version : Ver
  upstreamUrl : Text

/-- A published version and the registry requirements of its manifest. -/
structure RegistryCandidate (Req Ver : Type) where
  version : Ver
  deps : List (Text × Req)

structure GitResolution (Dir : Type) where
  dir : Dir
  url : Text
  reference : Option GitRef
  resolvedRev : Text

inductive DepGraphError (Dir Fault : Type)
  | workspaceDepNotDeclared (manifestDir : Dir) (depName : Text)
  | workspaceDepOutsideWorkspace (manifestDir : Dir) (depName : Text)
  | dependencyCycle (chain : List Dir)
  | pathDepNotFound (fromDir : Dir) (depName : Text) (target : Dir)
  | offlineVendorEntryMissing (fromDir : Dir) (depName : Text) (expected : Dir)
  | pathDepManifestInvalid (fromDir : Dir) (depName : Text) (source : Fault)
  | registryFetchFailed (fromDir : Dir) (depName : Text) (message : Text)
  | gitFetchFailed (fromDir : Dir) (depName : Text) (message : Text)

/-- How a computation ends without a result: with an error, in a panic, or past the depth it was given. -/
inductive Halt (Error : Type)
  | error (e : Error)
  | panic
  | tooDeep

structure DepGraphOptions (Dir Req Ver : Type) where
  offlineRoot : Option Dir
  includeDevDeps : Bool
  registryProvider : Option (RegistryProvider Dir Req Ver)
  gitProvider : Option (GitProvider Dir)
  pins : Option (SortedMap Text Ver)

variable {Dir Req Ver Fault : Type}

def canonicalizeOrSelf (fs : FileSystem Dir) (path : Dir) : Dir := (fs.canonicalize path).getD path

def resolvePathDepDir (fs : FileSystem Dir) (fromDir path : Dir) : Dir :=
  if fs.isAbsolute path then path else fs.join fromDir path

/-- Where a path dependency leads: offline, to its entry in the vendor directory. -/
def pathTarget (fs : FileSystem Dir) (offlineRoot : Option Dir) (dir : Dir) (depName : Text) (path : Dir) : Dir :=
  canonicalizeOrSelf fs <| match offlineRoot with
    | some vendorRoot => fs.join vendorRoot (fs.ofName depName)
    | none => resolvePathDepDir fs dir path

def derefWorkspace (manifestDir : Dir) (depName : Text) (spec : DependencySpec Dir Req)
    (workspaceDeps : SortedMap Text (DependencySpec Dir Req)) :
    Except (DepGraphError Dir Fault) (DependencySpec Dir Req) :=
  match spec with
  | .workspace =>
    if workspaceDeps.entries.isEmpty then .error (.workspaceDepOutsideWorkspace manifestDir depName)
    else match workspaceDeps.get depName with
      | some declared => .ok declared
      | none => .error (.workspaceDepNotDeclared manifestDir depName)
  | other => .ok other

def derefAll (dir : Dir) (workspaceDeps : SortedMap Text (DependencySpec Dir Req)) :
    SortedMap Text (DependencySpec Dir Req) → List (Text × DependencySpec Dir Req) →
    Except (DepGraphError Dir Fault) (SortedMap Text (DependencySpec Dir Req))
  | derived, [] => .ok derived
  | derived, (name, spec) :: rest => do
    let resolved ← derefWorkspace dir name spec workspaceDeps
    derefAll dir workspaceDeps (derived.insert name resolved) rest

/-- The dependencies of a manifest without workspace entries; the entry point may add those for tests. -/
def deriveDeps (dir : Dir) (workspaceDeps : SortedMap Text (DependencySpec Dir Req)) (withDev : Bool)
    (manifest : Manifest Dir Req) : Except (DepGraphError Dir Fault) (SortedMap Text (DependencySpec Dir Req)) := do
  let derived ← derefAll dir workspaceDeps .empty manifest.dependencies.entries
  if withDev then derefAll dir workspaceDeps derived manifest.devDependencies.entries else .ok derived

def registryDepsOf (manifest : Manifest Dir Req) : List (Text × Req) :=
  manifest.dependencies.entries.filterMap fun e => match e.2 with
    | .registry req => some (e.1, req)
    | _ => none

/-- The versions that can be selected, as far as their manifests can be read. -/
def recordRegistryCandidates (fs : FileSystem Dir) (provider : RegistryProvider Dir Req Ver)
    (loader : ManifestLoader Dir Req Fault) (name : Text) : List (RegistryCandidate Req Ver) :=
  match provider.availableVersions name with
  | .error _ => []
  | .ok versions => versions.filterMap fun version =>
    match provider.fetchExact name version with
    | .error _ => none
    | .ok materialized => match loader.load (canonicalizeOrSelf fs materialized.rootDir) with
      | .error _ => none
      | .ok manifest => some ⟨version, registryDepsOf manifest⟩

/-- The shared dependencies of the nearest enclosing workspace. -/
def discoverAncestorWorkspaceDeps (fs : FileSystem Dir) (loader : ManifestLoader Dir Req Fault) (startDir : Dir) :
    SortedMap Text (DependencySpec Dir Req) :=
  (((fs.ancestors startDir).drop 1).findSome? fun ancestor =>
    if loader.manifestExists ancestor then
      match loader.load ancestor with
      | .ok manifest => if manifest.isWorkspaceRoot then some manifest.workspaceDependencies else none
      | .error _ => none
    else none).getD .empty

variable [LinearOrder Dir]

/-- What the walk has found, and the manifests it is in. -/
structure Walk (Dir Req Ver : Type) [LinearOrder Dir] where
  manifests : SortedMap Dir (Manifest Dir Req)
  derivedDeps : SortedMap Dir (SortedMap Text (DependencySpec Dir Req))
  registryResolutions : SortedMap (Dir ×ₗ Text) (RegistryResolution Dir Ver)
  registryCandidates : SortedMap Text (List (RegistryCandidate Req Ver))
  gitResolutions : SortedMap (Dir ×ₗ Text) (GitResolution Dir)
  visitingStack : List Dir
  visitingSet : Finset Dir
  visited : Finset Dir

namespace Walk

def start : Walk Dir Req Ver := ⟨.empty, .empty, .empty, .empty, .empty, [], ∅, ∅⟩

def enter (s : Walk Dir Req Ver) (dir : Dir) (manifest : Manifest Dir Req)
    (derived : SortedMap Text (DependencySpec Dir Req)) : Walk Dir Req Ver :=
  { s with
    derivedDeps := s.derivedDeps.insert dir derived
    manifests := s.manifests.insert dir manifest
    visitingStack := s.visitingStack ++ [dir]
    visitingSet := Insert.insert dir s.visitingSet }

def leave (s : Walk Dir Req Ver) (dir : Dir) : Walk Dir Req Ver :=
  { s with
    visitingStack := s.visitingStack.dropLast
    visitingSet := s.visitingSet.erase dir
    visited := Insert.insert dir s.visited }

def recordRegistry (s : Walk Dir Req Ver) (dir : Dir) (depName : Text) (res : RegistryResolution Dir Ver) :
    Walk Dir Req Ver :=
  { s with registryResolutions := s.registryResolutions.insert (toLex (dir, depName)) res }

/-- The candidates of a package are recorded where it is first met. -/
def recordCandidates (s : Walk Dir Req Ver) (depName : Text) (candidates : List (RegistryCandidate Req Ver)) :
    Walk Dir Req Ver :=
  if (s.registryCandidates.get depName).isSome then s
  else { s with registryCandidates := s.registryCandidates.insert depName candidates }

def recordGit (s : Walk Dir Req Ver) (dir : Dir) (depName : Text) (res : GitResolution Dir) : Walk Dir Req Ver :=
  { s with gitResolutions := s.gitResolutions.insert (toLex (dir, depName)) res }

end Walk

/-- What the walk is over. -/
structure Project (Dir Req Ver Fault : Type) where
  fs : FileSystem Dir
  loader : ManifestLoader Dir Req Fault
  workspaceDeps : SortedMap Text (DependencySpec Dir Req)
  options : DepGraphOptions Dir Req Ver

abbrev WalkResult (Dir Req Ver Fault : Type) [LinearOrder Dir] :=
  Except (Halt (DepGraphError Dir Fault)) (Walk Dir Req Ver)

/-- Go to a manifest: one that the walk is in closes a cycle, one it has left is not read again. -/
def follow (loader : ManifestLoader Dir Req Fault)
    (recur : Dir → Manifest Dir Req → Walk Dir Req Ver → WalkResult Dir Req Ver Fault)
    (dir : Dir) (depName : Text) (target : Dir) (missing : Option (DepGraphError Dir Fault))
    (s : Walk Dir Req Ver) : WalkResult Dir Req Ver Fault :=
  if target ∈ s.visitingSet then
    let cycleStart := (s.visitingStack.findIdx? fun p => p = target).getD 0
    .error (.error (.dependencyCycle (s.visitingStack.drop cycleStart ++ [target])))
  else if target ∈ s.visited then .ok s
  else match missing with
    | some e => .error (.error e)
    | none => match loader.load target with
      | .error e => .error (.error (.pathDepManifestInvalid dir depName e))
      | .ok child => recur target child s

section

variable (project : Project Dir Req Ver Fault)
  (recur : Dir → Manifest Dir Req → Walk Dir Req Ver → WalkResult Dir Req Ver Fault) (dir : Dir)

def visitPathDep (s : Walk Dir Req Ver) (dep : Text × DependencySpec Dir Req) : WalkResult Dir Req Ver Fault :=
  match dep.2 with
  | .path path _ =>
    let target := pathTarget project.fs project.options.offlineRoot dir dep.1 path
    let missing := if project.loader.manifestExists target then none
      else if project.options.offlineRoot.isSome then some (.offlineVendorEntryMissing dir dep.1 target)
      else some (.pathDepNotFound dir dep.1 target)
    follow project.loader recur dir dep.1 target missing s
  | _ => .ok s

/-- The candidates of a package, with a locked version that can no longer be selected. -/
def candidatesWithPin (provider : RegistryProvider Dir Req Ver) [DecidableEq Ver] (depName : Text)
    (pinned : Option Ver) (target : Dir) : List (RegistryCandidate Req Ver) :=
  let candidates := recordRegistryCandidates project.fs provider project.loader depName
  match pinned with
  | none => candidates
  | some v =>
    if candidates.any fun c => c.version = v then candidates
    else
      let deps := match project.loader.load target with
        | .ok manifest => registryDepsOf manifest
        | .error _ => []
      candidates ++ [⟨v, deps⟩]

/-- The version that the lock file names, or one that the requirement selects. -/
def pinnedVersion (depName : Text) : Option Ver := project.options.pins.bind fun pins => pins.get depName

def fetchRegistryDep (provider : RegistryProvider Dir Req Ver) (depName : Text) (req : Req) :
    Except Text (MaterializedDep Dir Ver) :=
  match pinnedVersion project depName with
  | some v => provider.fetchExact depName v
  | none => provider.fetch depName req

def visitRegistryDep [DecidableEq Ver] (provider : RegistryProvider Dir Req Ver) (s : Walk Dir Req Ver)
    (dep : Text × DependencySpec Dir Req) : WalkResult Dir Req Ver Fault :=
  match dep.2 with
  | .registry req =>
    match fetchRegistryDep project provider dep.1 req with
    | .error message => .error (.error (.registryFetchFailed dir dep.1 message))
    | .ok materialized =>
      let target := canonicalizeOrSelf project.fs materialized.rootDir
      let candidates := candidatesWithPin project provider dep.1 (pinnedVersion project dep.1) target
      follow project.loader recur dir dep.1 target none
        ((s.recordRegistry dir dep.1 ⟨target, materialized.version, materialized.upstreamUrl⟩).recordCandidates dep.1 candidates)
  | _ => .ok s

def visitGitDep (provider : GitProvider Dir) (s : Walk Dir Req Ver) (dep : Text × DependencySpec Dir Req) :
    WalkResult Dir Req Ver Fault :=
  match dep.2 with
  | .git url reference _ =>
    match provider.fetch url reference with
    | .error message => .error (.error (.gitFetchFailed dir dep.1 message))
    | .ok materialized =>
      let target := canonicalizeOrSelf project.fs materialized.rootDir
      follow project.loader recur dir dep.1 target none
        (s.recordGit dir dep.1 ⟨target, url, reference, materialized.resolvedRev⟩)
  | _ => .ok s

/-- Registry dependencies are followed with a provider only, and never offline. -/
def visitRegistryDeps [DecidableEq Ver] (deps : List (Text × DependencySpec Dir Req)) (s : Walk Dir Req Ver) :
    WalkResult Dir Req Ver Fault :=
  match project.options.registryProvider, project.options.offlineRoot with
  | some provider, none => deps.foldlM (visitRegistryDep project recur dir provider) s
  | _, _ => .ok s

def visitGitDeps (deps : List (Text × DependencySpec Dir Req)) (s : Walk Dir Req Ver) :
    WalkResult Dir Req Ver Fault :=
  match project.options.gitProvider, project.options.offlineRoot with
  | some provider, none => deps.foldlM (visitGitDep project recur dir provider) s
  | _, _ => .ok s

/-- The three passes over the dependencies of a manifest. -/
def visitDeps [DecidableEq Ver] (deps : List (Text × DependencySpec Dir Req)) (s : Walk Dir Req Ver) :
    WalkResult Dir Req Ver Fault := do
  let s ← deps.foldlM (visitPathDep project recur dir) s
  let s ← visitRegistryDeps project recur dir deps s
  visitGitDeps project recur dir deps s

end

/-- Visit a manifest, to the depth given. -/
def visit [DecidableEq Ver] (project : Project Dir Req Ver Fault) :
    ℕ → Bool → Dir → Manifest Dir Req → Walk Dir Req Ver → WalkResult Dir Req Ver Fault
  | 0, _, _, _, _ => .error .tooDeep
  | depth + 1, isRoot, dir, manifest, s =>
    match deriveDeps dir project.workspaceDeps (isRoot && project.options.includeDevDeps) manifest with
    | .error e => .error (.error e)
    | .ok derived => do
      let s ← visitDeps project (visit project depth false) dir derived.entries (s.enter dir manifest derived)
      .ok (s.leave dir)

structure DepGraph (Dir Req Ver : Type) [LinearOrder Dir] where
  rootDir : Dir
  manifests : SortedMap Dir (Manifest Dir Req)
  derivedDeps : SortedMap Dir (SortedMap Text (DependencySpec Dir Req))
  registryResolutions : SortedMap (Dir ×ₗ Text) (RegistryResolution Dir Ver)
  registryCandidates : SortedMap Text (List (RegistryCandidate Req Ver))
  gitResolutions : SortedMap (Dir ×ₗ Text) (GitResolution Dir)

/-- The dependencies that `workspace = true` stands for. -/
def effectiveWorkspaceDeps (fs : FileSystem Dir) (loader : ManifestLoader Dir Req Fault) (rootDir : Dir)
    (rootManifest : Manifest Dir Req) : SortedMap Text (DependencySpec Dir Req) :=
  if rootManifest.isWorkspaceRoot then rootManifest.workspaceDependencies
  else discoverAncestorWorkspaceDeps fs loader (canonicalizeOrSelf fs rootDir)

def projectAt (fs : FileSystem Dir) (loader : ManifestLoader Dir Req Fault) (options : DepGraphOptions Dir Req Ver)
    (rootDir : Dir) (rootManifest : Manifest Dir Req) : Project Dir Req Ver Fault :=
  ⟨fs, loader, effectiveWorkspaceDeps fs loader rootDir rootManifest, options⟩

def buildDepGraphWithOptions [DecidableEq Ver] (depth : ℕ) (fs : FileSystem Dir)
    (loader : ManifestLoader Dir Req Fault) (options : DepGraphOptions Dir Req Ver) (rootDir : Dir)
    (rootManifest : Manifest Dir Req) : Except (Halt (DepGraphError Dir Fault)) (DepGraph Dir Req Ver) := do
  let rootCanonical := canonicalizeOrSelf fs rootDir
  let s ← visit (projectAt fs loader options rootDir rootManifest) depth true rootCanonical rootManifest Walk.start
  .ok ⟨rootCanonical, s.manifests, s.derivedDeps, s.registryResolutions, s.registryCandidates, s.gitResolutions⟩

end Karac.Resolver
