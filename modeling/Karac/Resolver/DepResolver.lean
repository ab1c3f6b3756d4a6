import Karac.Resolver.DepGraph
import Karac.Resolver.VersionReq

/-! The resolver. A first pass over the dependency graph takes each package at the version that was fetched
where it is first met; the solver then selects versions, which replace those of the first pass. -/

namespace Karac.Resolver

open Lib Lib.Toml

inductive ResolvedSource (Dir : Type)
  | root
  | path (dir : Dir)
  | registry (url : Text) (dir : Dir)
  | git (url : Text) (reference : Option GitRef) (dir : Dir) (resolvedRev : Text)

/-- A parent that declared a package, and the requirement it put on it. -/
structure DeclarationEdge (Req : Type) where
  parent : Text
  req : Option Req

structure ResolvedPackage (Dir Req Ver : Type) where
  name : Text
  version : Ver
  source : ResolvedSource Dir
  declaredBy : List (DeclarationEdge Req)

structure ConstraintLink (Dir Req : Type) where
  parentDir : Dir
  req : Req

inductive ResolverError (Dir Req Ver : Type)
  | registryDepUnsupported (package : Text) (declaredIn : Dir)
  | gitDepUnsupported (package : Text) (declaredIn : Dir)
  | versionConflict (package : Text) (candidate : Ver) (chain : List (ConstraintLink Dir Req))
  | sourceConflict (package : Text) (firstSource secondSource : ResolvedSource Dir)
  | toolchainTooOld (package : Text) (manifestDir : Dir) (karaVersionReq : Req) (activeVersion : Ver)
  | unsatisfiableGraph (report : Text)

/-- What the resolver takes from the version crates: the version of path dependencies, the requirement `*`,
and the meaning of a requirement, as a test and as a range. -/
structure Versions (Ver Req Range : Type) where
  sentinel : Ver
  star : Req
  accepts : Req → Ver → Bool
  versionReqToRange : Req → Option Range

abbrev Packages (Dir Req Ver : Type) := SortedMap Text (ResolvedPackage Dir Req Ver)

abbrev Resolve (Dir Req Ver α : Type) := Except (Halt (ResolverError Dir Req Ver)) α

/-! The solver over candidate versions. -/

structure CandidateVersion (Req Ver : Type) where
  version : Ver
  deps : List (Text × Req)

structure PackageCandidates (Req Ver : Type) where
  versions : List (CandidateVersion Req Ver)

inductive SolveError
  | noSolution (report : Text)
  | internal (message : Text)

inductive PubGrubError
  | noSolution (report : Text)
  | other (message : Text)

/-- What a version of a package depends on. -/
structure Dependencies (Ver Range : Type) where
  package : Text
  version : Ver
  deps : List (Text × Range)

/-- The solver crate: its answer to a table of dependencies, with versions to prefer, for a root. -/
abbrev PubGrub (Ver Range : Type) :=
  List (Dependencies Ver Range) → SortedMap Text Ver → Text → Ver → Except PubGrubError (SortedMap Text Ver)

section

variable {Dir Req Ver Range : Type} (versions : Versions Ver Req Range)

def toRangeDeps (deps : List (Text × Req)) : Option (List (Text × Range)) :=
  deps.mapM fun dep => (versions.versionReqToRange dep.2).map fun range => (dep.1, range)

def candidateDependencies (name : Text) (candidate : CandidateVersion Req Ver) : Option (Dependencies Ver Range) :=
  (toRangeDeps versions candidate.deps).map fun deps => ⟨name, candidate.version, deps⟩

/-- The table that the solver is given; none where a range does not fit its machine integers. -/
def dependencyTable (root : Text) (rootVersion : Ver) (rootDeps : List (Text × Req))
    (registry : SortedMap Text (PackageCandidates Req Ver)) : Option (List (Dependencies Ver Range)) := do
  let rootRow ← candidateDependencies versions root ⟨rootVersion, rootDeps⟩
  let rows ← registry.entries.mapM fun e => e.2.versions.mapM (candidateDependencies versions e.1)
  some (rootRow :: rows.flatten)

def solveWithPins (pubgrub : PubGrub Ver Range) (root : Text) (rootVersion : Ver) (rootDeps : List (Text × Req))
    (registry : SortedMap Text (PackageCandidates Req Ver)) (pins : SortedMap Text Ver) :
    Option (Except SolveError (SortedMap Text Ver)) :=
  (dependencyTable versions root rootVersion rootDeps registry).map fun table =>
    match pubgrub table pins root rootVersion with
    | .ok selected => .ok selected
    | .error (.noSolution report) => .error (.noSolution report)
    | .error (.other message) => .error (.internal message)

/-! The first pass. -/

/-- Insert a package, or add an edge to it where its source can stand for the new one. -/
def upsert (agrees : ResolvedSource Dir → Bool) (packages : Packages Dir Req Ver) (name : Text) (version : Ver)
    (source : ResolvedSource Dir) (edge : DeclarationEdge Req) : Resolve Dir Req Ver (Packages Dir Req Ver) :=
  match packages.get name with
  | some existing =>
    if agrees existing.source then
      .ok (packages.insert name { existing with declaredBy := existing.declaredBy ++ [edge] })
    else .error (.error (.sourceConflict name existing.source source))
  | none => .ok (packages.insert name ⟨name, version, source, [edge]⟩)

def upsertPath [DecidableEq Dir] (packages : Packages Dir Req Ver) (name : Text) (dir : Dir) (version : Ver)
    (edge : DeclarationEdge Req) : Resolve Dir Req Ver (Packages Dir Req Ver) :=
  upsert (fun source => match source with | .path existing => existing = dir | _ => false)
    packages name version (.path dir) edge

def upsertRegistry (packages : Packages Dir Req Ver) (name : Text) (version : Ver) (url : Text) (dir : Dir)
    (edge : DeclarationEdge Req) : Resolve Dir Req Ver (Packages Dir Req Ver) :=
  upsert (fun source => match source with | .registry _ _ => true | _ => false)
    packages name version (.registry url dir) edge

def upsertGit (packages : Packages Dir Req Ver) (name url : Text) (reference : Option GitRef) (dir : Dir)
    (resolvedRev : Text) (version : Ver) (edge : DeclarationEdge Req) : Resolve Dir Req Ver (Packages Dir Req Ver) :=
  upsert (fun source => match source with | .git _ _ _ _ => true | _ => false)
    packages name version (.git url reference dir resolvedRev) edge

variable [LinearOrder Dir]

def parentName (fs : FileSystem Dir) (graph : DepGraph Dir Req Ver) (manifestDir : Dir) : Text :=
  match graph.manifests.get manifestDir with
  | some manifest => manifest.name
  | none => fs.display manifestDir

def resolveDep (fs : FileSystem Dir) (graph : DepGraph Dir Req Ver) (offlineRoot : Option Dir) (manifestDir : Dir)
    (packages : Packages Dir Req Ver) (dep : Text × DependencySpec Dir Req) :
    Resolve Dir Req Ver (Packages Dir Req Ver) :=
  let parent := parentName fs graph manifestDir
  match dep.2 with
  | .path path version =>
    let targetDir := pathTarget fs offlineRoot manifestDir dep.1 path
    match graph.manifests.get targetDir with
    | none => .error (.error (.sourceConflict dep.1 (.path manifestDir) (.path targetDir)))
    | some child => upsertPath packages child.name targetDir versions.sentinel ⟨parent, version⟩
  | .registry req =>
    match graph.registryResolutions.get (toLex (manifestDir, dep.1)) with
    | none => .error (.error (.registryDepUnsupported dep.1 manifestDir))
    | some res => match graph.manifests.get res.dir with
      | none => .error (.error (.registryDepUnsupported dep.1 manifestDir))
      | some child => upsertRegistry packages child.name res.version res.upstreamUrl res.dir ⟨parent, some req⟩
  | .git _ _ version =>
    match graph.gitResolutions.get (toLex (manifestDir, dep.1)) with
    | none => .error (.error (.gitDepUnsupported dep.1 manifestDir))
    | some res => match graph.manifests.get res.dir with
      | none => .error (.error (.gitDepUnsupported dep.1 manifestDir))
      | some child => upsertGit packages child.name res.url res.reference res.dir res.resolvedRev versions.sentinel
        ⟨parent, version⟩
  | .workspace => .error .panic

def rootPackage (name : Text) : ResolvedPackage Dir Req Ver := ⟨name, versions.sentinel, .root, []⟩

/-- Every dependency of every manifest, in the order of the directories and the names. -/
def firstPass (fs : FileSystem Dir) (graph : DepGraph Dir Req Ver) (offlineRoot : Option Dir) (rootName : Text) :
    Resolve Dir Req Ver (Packages Dir Req Ver) :=
  graph.derivedDeps.entries.foldlM
    (fun packages e => e.2.entries.foldlM (resolveDep versions fs graph offlineRoot e.1) packages)
    (SortedMap.empty.insert rootName (rootPackage versions rootName))

/-! The selection. -/

/-- The requirements that each parent declared. -/
def depsOf (packages : Packages Dir Req Ver) : SortedMap Text (List (Text × Req)) :=
  packages.values.foldl (fun acc pkg => pkg.declaredBy.foldl (fun acc edge =>
    acc.insert edge.parent ((acc.get edge.parent).getD [] ++ [(pkg.name, edge.req.getD versions.star)])) acc) .empty

def candidatesOf (packages : Packages Dir Req Ver) (registryCandidates : SortedMap Text (List (RegistryCandidate Req Ver)))
    (pkg : ResolvedPackage Dir Req Ver) : PackageCandidates Req Ver :=
  match registryCandidates.get pkg.name with
  | some (cand :: cands) => ⟨(cand :: cands).map fun c => ⟨c.version, c.deps⟩⟩
  | _ => ⟨[⟨pkg.version, ((depsOf versions packages).get pkg.name).getD []⟩]⟩

def candidateRegistry (packages : Packages Dir Req Ver) (rootName : Text)
    (registryCandidates : SortedMap Text (List (RegistryCandidate Req Ver))) : SortedMap Text (PackageCandidates Req Ver) :=
  .ofEntries ((packages.values.filter fun p => p.name ≠ rootName).map fun p =>
    (p.name, candidatesOf versions packages registryCandidates p))

/-- The solver's answer for the packages of the first pass. -/
def solverAnswer (pubgrub : PubGrub Ver Range) (packages : Packages Dir Req Ver) (rootName : Text)
    (registryCandidates : SortedMap Text (List (RegistryCandidate Req Ver))) (pins : SortedMap Text Ver) :
    Option (Except SolveError (SortedMap Text Ver)) :=
  solveWithPins versions pubgrub rootName versions.sentinel (((depsOf versions packages).get rootName).getD [])
    (candidateRegistry versions packages rootName registryCandidates) pins

def adoptVersion (rootName : Text) (packages : Packages Dir Req Ver) (selected : Text × Ver) : Packages Dir Req Ver :=
  if selected.1 = rootName then packages
  else match packages.get selected.1 with
    | some p => packages.insert selected.1 { p with version := selected.2 }
    | none => packages

inductive PubgrubOutcome
  | solved
  | noSolution (report : Text)
  | inconclusive

def selectVersionsWithPubgrub (pubgrub : PubGrub Ver Range) (packages : Packages Dir Req Ver) (rootName : Text)
    (registryCandidates : SortedMap Text (List (RegistryCandidate Req Ver))) (pins : SortedMap Text Ver) :
    Option (PubgrubOutcome × Packages Dir Req Ver) :=
  (solverAnswer versions pubgrub packages rootName registryCandidates pins).map fun answer =>
    match answer with
    | .ok selected => (.solved, selected.entries.foldl (adoptVersion rootName) packages)
    | .error (.noSolution report) => (.noSolution report, packages)
    | .error (.internal _) => (.inconclusive, packages)

def violatingLinks (fs : FileSystem Dir) (pkg : ResolvedPackage Dir Req Ver) : List (ConstraintLink Dir Req) :=
  pkg.declaredBy.filterMap fun edge => match edge.req with
    | none => none
    | some req => if versions.accepts req pkg.version then none else some ⟨fs.ofName edge.parent, req⟩

def firstVersionConflict (fs : FileSystem Dir) (packages : Packages Dir Req Ver) :
    Option (ResolverError Dir Req Ver) :=
  packages.values.findSome? fun pkg =>
    if (violatingLinks versions fs pkg).isEmpty then none
    else some (.versionConflict pkg.name pkg.version (violatingLinks versions fs pkg))

def toolchainTooOld (graph : DepGraph Dir Req Ver) (activeToolchain : Ver) : Option (ResolverError Dir Req Ver) :=
  graph.manifests.entries.findSome? fun e => match e.2.karaVersion with
    | none => none
    | some req =>
      if versions.accepts req activeToolchain then none else some (.toolchainTooOld e.2.name e.1 req activeToolchain)

structure Resolution (Dir Req Ver : Type) where
  packages : Packages Dir Req Ver

def resolveWithPins (pubgrub : PubGrub Ver Range) (fs : FileSystem Dir) (graph : DepGraph Dir Req Ver)
    (activeToolchain : Ver) (offlineRoot : Option Dir) (pins : SortedMap Text Ver) :
    Resolve Dir Req Ver (Resolution Dir Req Ver) :=
  match toolchainTooOld versions graph activeToolchain with
  | some e => .error (.error e)
  | none => match graph.manifests.get graph.rootDir with
    | none => .error .panic
    | some rootManifest => do
      let packages ← firstPass versions fs graph offlineRoot rootManifest.name
      match selectVersionsWithPubgrub versions pubgrub packages rootManifest.name graph.registryCandidates pins with
      | none => .error .panic
      | some (.solved, packages) => .ok ⟨packages⟩
      | some (.noSolution report, packages) => match firstVersionConflict versions fs packages with
        | some e => .error (.error e)
        | none => .error (.error (.unsatisfiableGraph report))
      | some (.inconclusive, packages) => match firstVersionConflict versions fs packages with
        | some e => .error (.error e)
        | none => .ok ⟨packages⟩

end

/-- The version crates: `0.0.0` for path dependencies, no comparators for `*`. -/
def semverVersions {Pre Build : Type} [LinearOrder Pre] [LinearOrder Build] [OrderTop Pre] [OrderBot Build]
    (crate : RangeCrate (Version Pre Build)) (accepts : List (Comparator Pre) → Version Pre Build → Bool) :
    Versions (Version Pre Build) (List (Comparator Pre)) crate.Range :=
  ⟨Version.new 0 0 0, [], accepts, versionReqToRange crate⟩

end Karac.Resolver
