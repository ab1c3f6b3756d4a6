import Karac.Resolver.RegistryExtract

/-! Where the registry's packages are complete: a run of the provider returns the packages of its archives if and only
if no extraction leaves a manifest behind a failure, or below it files that are not its own. -/

namespace Karac.Resolver

open Lib Lib.Toml

variable {Dir Ver : Type} [DecidableEq Ver]

/-! Unpacking. -/

theorem written_cons (e : Entry) (entries : List Entry) :
    written (e :: entries) = if "..".toList ∈ e.path then written entries else (e.path, e.node) :: written entries := by
  unfold written
  rw [List.filter_cons]
  split_ifs with hkept hup hup
  · exact absurd hup (of_decide_eq_true hkept)
  · rfl
  · rfl
  · exact absurd (decide_eq_true hup) hkept

theorem putAll_written_cons (e : Entry) (entries : List Entry) (t : SourceTree) :
    FileTree.putAll (written (e :: entries)) t = (e.put t).bind (FileTree.putAll (written entries)) := by
  rw [written_cons, Entry.put]
  split_ifs
  · rfl
  · rfl

variable {tarball : List Entry} {stop : Option ℕ} {t t' f : SourceTree} {root : List Text}

theorem putAll_of_unpack (h : unpack tarball stop t = (t', true)) : FileTree.putAll (written tarball) t = some t' := by
  induction tarball generalizing stop t with
  | nil => exact congrArg some (congrArg Prod.fst h)
  | cons e entries ih =>
    rw [unpack] at h
    split_ifs at h with hstop
    · cases h
    rw [putAll_written_cons]
    cases hput : e.put t with
    | none =>
      rw [hput] at h
      cases h
    | some mid =>
      rw [hput] at h
      exact ih h

theorem unpack_of_putAll (h : FileTree.putAll (written tarball) t = some t') : unpack tarball none t = (t', true) := by
  induction tarball generalizing t with
  | nil => rw [← Option.some.inj h]; rfl
  | cons e entries ih =>
    rw [putAll_written_cons] at h
    obtain ⟨mid, hmid, hrest⟩ := Option.bind_eq_some_iff.mp h
    rw [unpack, if_neg (Option.some_ne_none 0).symm, hmid]
    exact ih hrest

/-! The manifest. -/

theorem isFile_iff {q : List Text} : isFile t q = true ↔ ∃ bytes, t.get q = some (.file bytes) := by
  unfold isFile
  split <;> simp_all

theorem mem_subdirs {x : Text} : x ∈ subdirs t ↔ t.get [x] = some .dir := by
  unfold subdirs
  rw [List.mem_filter, List.mem_dedup, List.mem_filterMap, decide_eq_true_iff, and_iff_right_iff_imp]
  exact fun hdir => ⟨([x], .dir), FileTree.mem_nodes hdir, rfl⟩

theorem subdirs_eq_singleton {w : Text} : subdirs t = [w] ↔ t.get [w] = some .dir ∧ ∀ x, t.get [x] = some .dir → x = w := by
  have hnodup : (subdirs t).Nodup := (List.nodup_dedup _).filter _
  constructor
  · intro h
    refine ⟨mem_subdirs.mp (h ▸ List.mem_singleton_self w), fun x hx => ?_⟩
    exact List.mem_singleton.mp (h ▸ mem_subdirs.mpr hx)
  · rintro ⟨hw, hall⟩
    exact List.perm_singleton.mp ((List.perm_ext_iff_of_nodup hnodup (List.nodup_singleton w)).mpr fun x => by
      rw [mem_subdirs, List.mem_singleton]
      exact ⟨hall x, fun h => h ▸ hw⟩)

theorem dir_of_isFile {w : Text} (h : isFile t [w, karaToml] = true) : t.get [w] = some .dir := by
  obtain ⟨bytes, hbytes⟩ := isFile_iff.mp h
  exact FileTree.get_prefix hbytes (List.cons_ne_nil _ _) ⟨[karaToml], rfl⟩ (by simp)

theorem findManifestRoot_eq_some : findManifestRoot t = some root ↔
    isFile t [karaToml] = true ∧ root = [] ∨
      isFile t [karaToml] = false ∧
        ∃ w, root = [w] ∧ isFile t [w, karaToml] = true ∧ ∀ x, t.get [x] = some .dir → x = w := by
  unfold findManifestRoot
  split_ifs with htop
  · exact ⟨fun h => .inl ⟨htop, (Option.some.inj h).symm⟩, fun h => h.elim (fun h => congrArg some h.2.symm)
      fun h => absurd htop (h.1 ▸ Bool.false_ne_true)⟩
  · constructor
    · intro h
      split at h
      · rename_i w hsub
        split_ifs at h with hfile
        exact .inr ⟨Bool.not_eq_true _ ▸ htop, w, (Option.some.inj h).symm, hfile, (subdirs_eq_singleton.mp hsub).2⟩
      · cases h
    · intro h
      obtain ⟨htop', -⟩ | ⟨-, w, rfl, hfile, hall⟩ := h
      · exact absurd htop' htop
      · rw [subdirs_eq_singleton.mpr ⟨dir_of_isFile hfile, hall⟩]
        exact if_pos hfile

theorem isFile_of_get {q : List Text} (h : isFile t q = true) (heq : t'.get q = t.get q) : isFile t' q = true := by
  rw [isFile, heq]
  exact h

/-- A manifest that unpacking brings is in the archive, at the same root. -/
theorem findManifestRoot_alone (hput : FileTree.putAll (written tarball) t = some t') (hnone : findManifestRoot t = none)
    (hroot : findManifestRoot t' = some root) (hcov : ∀ q, FileTree.Covers (written tarball) q → f.get q = t'.get q)
    (hnot : ∀ q, ¬FileTree.Covers (written tarball) q → f.get q = none) : findManifestRoot f = some root := by
  have hold : ∀ q, isFile t' q = true → ¬FileTree.Covers (written tarball) q → isFile t q = true :=
    fun q hq hc => isFile_of_get hq (FileTree.get_putAll_of_not_covers hput hc).symm
  have hnew : ∀ q node, f.get q = some node → t'.get q = some node := by
    intro q node hq
    by_cases hc : FileTree.Covers (written tarball) q
    · exact (hcov q hc).symm.trans hq
    · rw [hnot q hc] at hq
      cases hq
  obtain ⟨htop, rfl⟩ | ⟨htop, w, rfl, hw, hall⟩ := findManifestRoot_eq_some.mp hroot
  · refine findManifestRoot_eq_some.mpr (.inl ⟨isFile_of_get htop (hcov _ ?_), rfl⟩)
    by_contra hc
    rw [findManifestRoot_eq_some.mpr (.inl ⟨hold _ htop hc, rfl⟩)] at hnone
    cases hnone
  · have hwcov : FileTree.Covers (written tarball) [w, karaToml] := by
      by_contra hc
      cases htop' : isFile t [karaToml] with
      | true =>
        rw [findManifestRoot_eq_some.mpr (.inl ⟨htop', rfl⟩)] at hnone
        cases hnone
      | false =>
        rw [findManifestRoot_eq_some.mpr (.inr ⟨htop', w, rfl, hold _ hw hc,
          fun x hx => hall x (FileTree.putAll_dir hput hx)⟩)] at hnone
        cases hnone
    refine findManifestRoot_eq_some.mpr (.inr ⟨?_, w, rfl, isFile_of_get hw (hcov _ hwcov), fun x hx => hall x (hnew _ _ hx)⟩)
    cases htop' : isFile f [karaToml] with
    | false => rfl
    | true =>
      obtain ⟨bytes, hbytes⟩ := isFile_iff.mp htop'
      rw [isFile_iff.mpr ⟨bytes, hnew _ _ hbytes⟩] at htop
      exact htop

/-- The tree is the archive's own below a root if and only if nothing older is left there. -/
theorem below_root_iff (hput : FileTree.putAll (written tarball) t = some t')
    (hcov : ∀ q, FileTree.Covers (written tarball) q → f.get q = t'.get q)
    (hnot : ∀ q, ¬FileTree.Covers (written tarball) q → f.get q = none) :
    (∀ q, root <+: q → t'.get q = f.get q) ↔
      ∀ q, root <+: q → t.get q ≠ none → FileTree.Covers (written tarball) q := by
  refine forall₂_congr fun q _ => ?_
  by_cases hc : FileTree.Covers (written tarball) q
  · exact iff_of_true (hcov q hc).symm fun _ => hc
  · rw [FileTree.get_putAll_of_not_covers hput hc, hnot q hc]
    exact ⟨fun h hne => absurd h hne, fun h => not_not.mp fun hne => hc (h hne)⟩

/-! A call. -/

variable {p : ProxyRegistryProvider Dir Ver} {cache : RegistryCache Ver} {c : Call Ver}
  {pkg : FetchedPackage Ver} {dep : MaterializedDep Dir Ver} {s : Session Ver} {key : Text × Ver}

theorem run_error {e : Text} (h : c.served = .error e) : c.run p cache = (cache, .error e) := by
  simp only [Call.run, ProxyRegistryProvider.fetch, ProxyRegistryProvider.fetchExact, h, ite_self]

theorem run_ok (h : c.served = .ok pkg) : c.run p cache = p.extractMaterialized cache c.name pkg c.disk := by
  simp only [Call.run, ProxyRegistryProvider.fetch, ProxyRegistryProvider.fetchExact, h, ite_self]

theorem run_found (h : c.served = .ok pkg) (hroot : findManifestRoot (cache (c.name, pkg.version)) = some root) :
    c.run p cache = (cache, .ok ⟨p.below (p.extractDir c.name pkg.version) root, pkg.version, pkg.upstreamUrl⟩) := by
  rw [run_ok h, ProxyRegistryProvider.extractMaterialized]
  simp only [hroot]

theorem extractTarball_fst (dest : Text) (tarball : List Entry) (disk : Disk) (t : SourceTree) :
    (extractTarball dest tarball disk t).1 = leaves disk tarball t := by
  unfold extractTarball leaves
  split_ifs <;> rfl

theorem run_new_fst (h : c.served = .ok pkg) (hnone : findManifestRoot (cache (c.name, pkg.version)) = none) :
    (c.run p cache).1 = Function.update cache (c.name, pkg.version) (leaves c.disk pkg.tarball (cache (c.name, pkg.version))) := by
  rw [run_ok h, ProxyRegistryProvider.extractMaterialized]
  simp only [hnone, extractTarball_fst]

theorem run_new_ok (h : c.served = .ok pkg) (hnone : findManifestRoot (cache (c.name, pkg.version)) = none) :
    (c.run p cache).2 = .ok dep ↔ completes c.disk pkg.tarball (cache (c.name, pkg.version)) = true ∧
      ∃ root, findManifestRoot (leaves c.disk pkg.tarball (cache (c.name, pkg.version))) = some root ∧
        dep = ⟨p.below (p.extractDir c.name pkg.version) root, pkg.version, pkg.upstreamUrl⟩ := by
  rw [run_ok h, ProxyRegistryProvider.extractMaterialized]
  simp only [hnone, extractTarball_fst]
  generalize cache (c.name, pkg.version) = t
  unfold extractTarball completes
  cases c.disk.creates with
  | false => simp
  | true =>
    cases hfin : (unpack pkg.tarball c.disk.stop t).2 with
    | false => simp [hfin]
    | true =>
      cases hroot : findManifestRoot (leaves c.disk pkg.tarball t) with
      | none => simp [hfin]
      | some root => simp [hfin, eq_comm]

/-! A session. -/

theorem session_concat (pre : List (Call Ver)) (c : Call Ver) : session p (pre ++ [c]) = (session p pre).step p c :=
  List.foldl_concat _ _ _ _

theorem lastExtraction_step_some {x : Extraction Ver} (h : c.extraction s.cache = some x) :
    (s.step p c).lastExtraction key = if x.key = key then some x else s.lastExtraction key := by
  unfold Session.lastExtraction Session.step
  rw [h, Option.toList_some, List.filter_append, List.filter_singleton]
  split_ifs with hkey
  · simp [hkey]
  · simp [hkey]

omit [DecidableEq Ver] in
theorem extraction_error {e : Text} (h : c.served = .error e) : c.extraction cache = none := by
  simp only [Call.extraction, h]

omit [DecidableEq Ver] in
theorem extraction_found (h : c.served = .ok pkg) (hroot : findManifestRoot (cache (c.name, pkg.version)) = some root) :
    c.extraction cache = none := by
  simp [Call.extraction, h, hroot]

omit [DecidableEq Ver] in
theorem extraction_new (h : c.served = .ok pkg) (hnone : findManifestRoot (cache (c.name, pkg.version)) = none) :
    c.extraction cache =
      some ⟨(c.name, pkg.version), pkg.tarball, completes c.disk pkg.tarball (cache (c.name, pkg.version))⟩ := by
  simp [Call.extraction, h, hnone]

theorem isPackage_congr {s' : Session Ver} (hcache : s'.cache key = s.cache key)
    (hlast : s'.lastExtraction key = s.lastExtraction key) : s'.IsPackage key root ↔ s.IsPackage key root := by
  simp only [Session.IsPackage, hcache, hlast]

theorem putAll_of_completes {disk : Disk} (h : completes disk tarball t = true) :
    FileTree.putAll (written tarball) t = some (leaves disk tarball t) := by
  obtain ⟨hcreates, hfin⟩ := Bool.and_eq_true_iff.mp h
  rw [leaves, if_pos hcreates]
  exact putAll_of_unpack (Prod.ext rfl hfin)

section

variable (h : c.served = .ok pkg) (hnone : findManifestRoot (s.cache (c.name, pkg.version)) = none)
include h hnone

theorem lastExtraction_new : (s.step p c).lastExtraction (c.name, pkg.version) =
    some ⟨(c.name, pkg.version), pkg.tarball, completes c.disk pkg.tarball (s.cache (c.name, pkg.version))⟩ :=
  (lastExtraction_step_some (extraction_new h hnone)).trans (if_pos rfl)

theorem cache_new :
    (s.step p c).cache (c.name, pkg.version) = leaves c.disk pkg.tarball (s.cache (c.name, pkg.version)) :=
  (congrFun (run_new_fst h hnone) _).trans (Function.update_self _ _ _)

variable (hroot : findManifestRoot (leaves c.disk pkg.tarball (s.cache (c.name, pkg.version))) = some root)
include hroot

theorem isPackage_of_extracts (hext : Extracts c pkg (s.cache (c.name, pkg.version)) root) :
    (s.step p c).IsPackage (c.name, pkg.version) root := by
  obtain ⟨hcompleted, hall⟩ := hext
  have hput := putAll_of_completes hcompleted
  obtain ⟨f, hf, hcov, hnot⟩ := FileTree.putAll_empty hput
  refine ⟨_, f, lastExtraction_new h hnone, hcompleted, unpack_of_putAll hf,
    findManifestRoot_alone hput hnone hroot hcov hnot, ?_⟩
  rw [cache_new h hnone]
  exact (below_root_iff hput hcov hnot).mpr hall

theorem extracts_of_isPackage {r : List Text} (hpackage : (s.step p c).IsPackage (c.name, pkg.version) r) :
    Extracts c pkg (s.cache (c.name, pkg.version)) root := by
  obtain ⟨x, fresh, hx, hcompleted, hfresh, hr, hsame⟩ := hpackage
  obtain rfl := Option.some.inj ((lastExtraction_new h hnone).symm.trans hx)
  have hput := putAll_of_completes hcompleted
  obtain ⟨f, hf, hcov, hnot⟩ := FileTree.putAll_empty hput
  obtain rfl : f = fresh := Option.some.inj (hf.symm.trans (putAll_of_unpack hfresh))
  obtain rfl : r = root := Option.some.inj (hr.symm.trans (findManifestRoot_alone hput hnone hroot hcov hnot))
  rw [cache_new h hnone] at hsame
  exact ⟨hcompleted, (below_root_iff hput hcov hnot).mp hsame⟩

end

/-- A call that extracts nothing into a directory leaves it as it is. -/
theorem step_error {e : Text} (h : c.served = .error e) : s.step p c = s := by
  simp [Session.step, run_error h, extraction_error h]

theorem step_found (h : c.served = .ok pkg) (hroot : findManifestRoot (s.cache (c.name, pkg.version)) = some root) :
    s.step p c = s := by
  simp [Session.step, run_found h hroot, extraction_found h hroot]

theorem step_complete (hs : s.Complete) (hclean : c.Clean s.cache) : (s.step p c).Complete := by
  intro key root hroot
  cases h : c.served with
  | error e =>
    rw [step_error h] at hroot ⊢
    exact hs key root hroot
  | ok pkg =>
    cases hfound : findManifestRoot (s.cache (c.name, pkg.version)) with
    | some found =>
      rw [step_found h hfound] at hroot ⊢
      exact hs key root hroot
    | none =>
      by_cases hkey : key = (c.name, pkg.version)
      · subst hkey
        rw [cache_new h hfound] at hroot
        exact isPackage_of_extracts h hfound hroot (hclean pkg h hfound root hroot)
      · have hcache : (s.step p c).cache key = s.cache key :=
          (congrFun (run_new_fst h hfound) key).trans (Function.update_of_ne hkey _ _)
        have hlast : (s.step p c).lastExtraction key = s.lastExtraction key :=
          (lastExtraction_step_some (extraction_new h hfound)).trans (if_neg (Ne.symm hkey))
        rw [isPackage_congr hcache hlast]
        rw [hcache] at hroot
        exact hs key root hroot

theorem session_complete {calls : List (Call Ver)}
    (hclean : ∀ pre c, pre ++ [c] <+: calls → c.Clean (session p pre).cache) {pre : List (Call Ver)} (hpre : pre <+: calls) :
    (session p pre).Complete := by
  induction pre using List.reverseRecOn with
  | nil =>
    intro key root hroot
    cases hroot
  | append_singleton pre c ih =>
    rw [session_concat]
    exact step_complete (ih ((List.prefix_append pre [c]).trans hpre)) (hclean pre c hpre)

theorem returned_of_found {pre : List (Call Ver)} (hpre : (session p pre).Complete) (h : c.served = .ok pkg)
    (hroot : findManifestRoot ((session p pre).cache (c.name, pkg.version)) = some root) : Returned p pre c := by
  intro dep hdep
  rw [run_found h hroot] at hdep
  obtain rfl := Except.ok.inj hdep
  refine ⟨pkg, root, h, rfl, rfl, ?_⟩
  rw [session_concat, step_found h hroot]
  exact hpre _ root hroot

theorem returned_of_clean {pre : List (Call Ver)} (hpre : (session p pre).Complete) (hclean : c.Clean (session p pre).cache) :
    Returned p pre c := by
  cases h : c.served with
  | error e =>
    intro dep hdep
    rw [run_error h] at hdep
    cases hdep
  | ok pkg =>
    cases hfound : findManifestRoot ((session p pre).cache (c.name, pkg.version)) with
    | some found => exact returned_of_found hpre h hfound
    | none =>
      intro dep hdep
      obtain ⟨-, root, hroot, rfl⟩ := (run_new_ok h hfound).mp hdep
      refine ⟨pkg, root, h, rfl, rfl, ?_⟩
      rw [session_concat]
      exact isPackage_of_extracts h hfound hroot (hclean pkg h hfound root hroot)

/-- The same call again returns what the call left. -/
theorem clean_of_returned {pre : List (Call Ver)}
    (hagain : c.Reuses (session p (pre ++ [c])).cache → Returned p (pre ++ [c]) c) : c.Clean (session p pre).cache := by
  intro pkg h hnone root hroot
  have hleft : findManifestRoot ((session p (pre ++ [c])).cache (c.name, pkg.version)) = some root := by
    rw [session_concat, cache_new h hnone]
    exact hroot
  have hreuses : c.Reuses (session p (pre ++ [c])).cache := ⟨pkg, h, by simp [hleft]⟩
  obtain ⟨pkg', r, h', -, -, hpackage⟩ := hagain hreuses _ (congrArg Prod.snd (run_found h hleft))
  obtain rfl : pkg = pkg' := Except.ok.inj (h.symm.trans h')
  rw [session_concat, step_found h hleft, session_concat] at hpackage
  exact extracts_of_isPackage h hnone hroot hpackage

def exampleProvider : ProxyRegistryProvider (List Text) ℕ :=
  ⟨⟨some, fun _ => false, fun dir name => dir ++ name, fun name => [name], fun dir => dir.flatten, fun dir => [dir]⟩, [],
    fun version => List.replicate version '1'⟩

def examplePackage : FetchedPackage ℕ :=
  ⟨1, [], [⟨[karaToml], .file [0x31]⟩, ⟨["src".toList, "lib.kara".toList], .file [0x32]⟩]⟩

def interrupted : Call ℕ := ⟨false, "http".toList, .ok examplePackage, ⟨true, some 1, "disk full".toList⟩⟩

def repeated : Call ℕ := ⟨true, "http".toList, .ok examplePackage, ⟨true, none, []⟩⟩

end Karac.Resolver
