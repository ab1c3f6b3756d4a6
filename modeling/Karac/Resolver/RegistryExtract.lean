import Karac.Lib.FileTree
import Karac.Resolver.DepGraph

/-! `registry_extract.rs`: fetched tarballs are unpacked into a cache, and what is found there is used again. The
registry's replies and the disk's failures enter call by call. -/

namespace Karac.Resolver

open Lib Lib.Toml

/-- A file or a directory of an archive, at its path below the destination. Entries are listed as `unpack` writes
them: the directories come last. -/
structure Entry where
  path : List Text
  node : FileNode (List UInt8)
  deriving DecidableEq

abbrev SourceTree := FileTree Text (List UInt8)

structure FetchedPackage (Ver : Type) where
  version : Ver
  upstreamUrl : Text
  tarball : List Entry

/-- What the disk does to an extraction. -/
structure Disk where
  creates : Bool
  /-- How many entries are unpacked before it fails, if it does. -/
  stop : Option ℕ
  error : Text

local instance : LawfulBEq Text := inferInstance

/-- An entry that leads out of the destination is skipped. -/
def Entry.put (e : Entry) (t : SourceTree) : Option SourceTree :=
  if "..".toList ∈ e.path then some t else t.put e.path e.node

/-- `archive.unpack`: the tree it leaves, and whether it was finished. -/
def unpack : List Entry → Option ℕ → SourceTree → SourceTree × Bool
  | [], stop, t => (t, stop.isNone)
  | e :: entries, stop, t =>
    if stop = some 0 then (t, false)
    else
      match e.put t with
      | none => (t, false)
      | some t' => unpack entries (stop.map (· - 1)) t'

def extractTarball (dest : Text) (tarball : List Entry) (disk : Disk) (t : SourceTree) : SourceTree × Except Text Unit :=
  if disk.creates then
    let unpacked := unpack tarball disk.stop t
    (unpacked.1, if unpacked.2 then .ok () else .error ("could not extract tarball: ".toList ++ disk.error))
  else (t, .error ("could not create ".toList ++ dest ++ ": ".toList ++ disk.error))

def isFile (t : SourceTree) (p : List Text) : Bool :=
  match t.get p with
  | some (.file _) => true
  | _ => false

def karaToml : Text := "kara.toml".toList

def subdirs (t : SourceTree) : List Text :=
  (t.nodes.filterMap fun e => if e.1.length = 1 then e.1.head? else none).dedup.filter fun x => t.get [x] = some .dir

/-- The manifest's directory, from the extraction directory. -/
def findManifestRoot (t : SourceTree) : Option (List Text) :=
  if isFile t [karaToml] then some []
  else
    match subdirs t with
    | [only] => if isFile t [only, karaToml] then some [only] else none
    | _ => none

variable {Dir Ver : Type}

/-- The trees in `<cache_root>/<name>/<version>/src`. -/
abbrev RegistryCache (Ver : Type) := Text × Ver → SourceTree

structure ProxyRegistryProvider (Dir Ver : Type) where
  fs : FileSystem Dir
  cacheRoot : Dir
  /-- `version.to_string()`. -/
  versionText : Ver → Text

namespace ProxyRegistryProvider

variable (p : ProxyRegistryProvider Dir Ver)

def extractDir (name : Text) (version : Ver) : Dir :=
  p.fs.join (p.fs.join (p.fs.join p.cacheRoot (p.fs.ofName name)) (p.fs.ofName (p.versionText version)))
    (p.fs.ofName "src".toList)

def below (dir : Dir) (root : List Text) : Dir := root.foldl (fun d x => p.fs.join d (p.fs.ofName x)) dir

variable [DecidableEq Ver]

def extractMaterialized (cache : RegistryCache Ver) (name : Text) (pkg : FetchedPackage Ver) (disk : Disk) :
    RegistryCache Ver × Except Text (MaterializedDep Dir Ver) :=
  let extractDir := p.extractDir name pkg.version
  let materialized root := ⟨p.below extractDir root, pkg.version, pkg.upstreamUrl⟩
  match findManifestRoot (cache (name, pkg.version)) with
  | some root => (cache, .ok (materialized root))
  | none =>
    let extracted := extractTarball (p.fs.display extractDir) pkg.tarball disk (cache (name, pkg.version))
    (Function.update cache (name, pkg.version) extracted.1,
      match extracted.2 with
      | .error e => .error e
      | .ok () =>
        match findManifestRoot extracted.1 with
        | some root => .ok (materialized root)
        | none => .error ("extracted tarball for `".toList ++ name ++ "` ".toList ++ p.versionText pkg.version ++
            " contains no kara.toml".toList))

/-- `served` is what `fetch_registry_package` makes of the registry's reply. -/
def fetch (cache : RegistryCache Ver) (name : Text) (served : Except Text (FetchedPackage Ver)) (disk : Disk) :
    RegistryCache Ver × Except Text (MaterializedDep Dir Ver) :=
  match served with
  | .error e => (cache, .error e)
  | .ok pkg => p.extractMaterialized cache name pkg disk

/-- `served` is what `fetch_registry_package_at` makes of it. -/
def fetchExact (cache : RegistryCache Ver) (name : Text) (served : Except Text (FetchedPackage Ver)) (disk : Disk) :
    RegistryCache Ver × Except Text (MaterializedDep Dir Ver) :=
  match served with
  | .error e => (cache, .error e)
  | .ok pkg => p.extractMaterialized cache name pkg disk

end ProxyRegistryProvider

/-! Runs of the provider. -/

structure Call (Ver : Type) where
  exact : Bool
  name : Text
  served : Except Text (FetchedPackage Ver)
  disk : Disk

structure Extraction (Ver : Type) where
  key : Text × Ver
  tarball : List Entry
  completed : Bool

/-- The cache, and for the statements the extractions into it so far. -/
structure Session (Ver : Type) where
  cache : RegistryCache Ver
  extractions : List (Extraction Ver)

variable [DecidableEq Ver] (p : ProxyRegistryProvider Dir Ver)

def Call.run (c : Call Ver) (cache : RegistryCache Ver) : RegistryCache Ver × Except Text (MaterializedDep Dir Ver) :=
  if c.exact then p.fetchExact cache c.name c.served c.disk else p.fetch cache c.name c.served c.disk

/-- Whether `extract_tarball` succeeds on the archive. -/
def completes (disk : Disk) (tarball : List Entry) (t : SourceTree) : Bool := disk.creates && (unpack tarball disk.stop t).2

/-- The tree that it leaves. -/
def leaves (disk : Disk) (tarball : List Entry) (t : SourceTree) : SourceTree :=
  if disk.creates then (unpack tarball disk.stop t).1 else t

/-- The extraction that a call makes, unless it finds a manifest. -/
def Call.extraction (c : Call Ver) (cache : RegistryCache Ver) : Option (Extraction Ver) :=
  match c.served with
  | .error _ => none
  | .ok pkg =>
    let t := cache (c.name, pkg.version)
    if findManifestRoot t = none then some ⟨(c.name, pkg.version), pkg.tarball, completes c.disk pkg.tarball t⟩ else none

def Session.step (s : Session Ver) (c : Call Ver) : Session Ver :=
  ⟨(c.run p s.cache).1, s.extractions ++ (c.extraction s.cache).toList⟩

def session (calls : List (Call Ver)) : Session Ver := calls.foldl (Session.step p) ⟨fun _ => FileTree.empty, []⟩

def Session.lastExtraction (s : Session Ver) (key : Text × Ver) : Option (Extraction Ver) :=
  (s.extractions.filter (·.key = key)).getLast?

/-- The tree below the root is that of the archive unpacked by itself, and the archive was unpacked last. -/
def Session.IsPackage (s : Session Ver) (key : Text × Ver) (root : List Text) : Prop :=
  ∃ x fresh, s.lastExtraction key = some x ∧ x.completed = true ∧ unpack x.tarball none FileTree.empty = (fresh, true) ∧
    findManifestRoot fresh = some root ∧ ∀ q, root <+: q → (s.cache key).get q = fresh.get q

/-- What a call returns after the calls before it is complete. -/
def Returned (pre : List (Call Ver)) (c : Call Ver) : Prop :=
  ∀ dep, (c.run p (session p pre).cache).2 = .ok dep →
    ∃ pkg root, c.served = .ok pkg ∧ dep.rootDir = p.below (p.extractDir c.name pkg.version) root ∧
      dep.version = pkg.version ∧ (session p (pre ++ [c])).IsPackage (c.name, pkg.version) root

/-- Every call returns a complete package. -/
def Materialized (calls : List (Call Ver)) : Prop := ∀ pre c, pre ++ [c] <+: calls → Returned p pre c

/-- A call that would find a manifest in the cache. -/
def Call.Reuses (c : Call Ver) (cache : RegistryCache Ver) : Prop :=
  ∃ pkg, c.served = .ok pkg ∧ findManifestRoot (cache (c.name, pkg.version)) ≠ none

def written (tarball : List Entry) : List (List Text × FileNode (List UInt8)) :=
  (tarball.filter fun e => "..".toList ∉ e.path).map fun e => (e.path, e.node)

/-- What an extraction has to meet for the package to be what it leaves below a root: it completes, and finds nothing
there that the archive does not write. -/
def Extracts (c : Call Ver) (pkg : FetchedPackage Ver) (t : SourceTree) (root : List Text) : Prop :=
  completes c.disk pkg.tarball t = true ∧ ∀ q, root <+: q → t.get q ≠ none → FileTree.Covers (written pkg.tarball) q

/-- An extraction that leaves a manifest meets it. -/
def Call.Clean (c : Call Ver) (cache : RegistryCache Ver) : Prop :=
  ∀ pkg, c.served = .ok pkg → findManifestRoot (cache (c.name, pkg.version)) = none →
    ∀ root, findManifestRoot (leaves c.disk pkg.tarball (cache (c.name, pkg.version))) = some root →
      Extracts c pkg (cache (c.name, pkg.version)) root

/-- Where a manifest is found, there is a package. -/
def Session.Complete (s : Session Ver) : Prop :=
  ∀ key root, findManifestRoot (s.cache key) = some root → s.IsPackage key root

end Karac.Resolver
