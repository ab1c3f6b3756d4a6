import Karac.Resolver.Lockfile

/-! Writing a lockfile and reading it back: the source strings, the quoted strings, and the whole file. -/

namespace Karac.Resolver

open Lib.Toml

/-! The source strings. -/

/-- The path is text; the URL has no `?` and no `#`, the reference no `#`. -/
def LockSource.Faithful : LockSource → Prop
  | .root => True
  | .path p => ∀ u ∈ p, ∃ c, u = .char c
  | .registry _ _ => True
  | .git url reference _ _ => '?' ∉ url ∧ '#' ∉ url ∧ ∀ r ∈ reference, '#' ∉ r.name

theorem stripPrefix_append (start : String) (s : Text) : stripPrefix start (start.toList ++ s) = some s :=
  List.dropPrefix?_eq_some_iff.mpr ⟨_, rfl, beq_self_eq_true _⟩

theorem splitOnce_append {d : Char} {a : Text} (h : d ∉ a) (r : Text) : splitOnce d (a ++ d :: r) = (a, some r) := by
  have hall : ∀ c ∈ a, decide (c ≠ d) = true := fun c hc => decide_eq_true fun heq => h (heq ▸ hc)
  obtain ⟨htake, hdrop⟩ := takeWhile_append_of_all hall (by simp : decide (d ≠ d) = false) r
  unfold splitOnce
  rw [htake, hdrop]
  rfl

theorem splitOnce_of_notMem {d : Char} {a : Text} (h : d ∉ a) : splitOnce d a = (a, none) := by
  have hall : ∀ c ∈ a, decide (c ≠ d) = true := fun c hc => decide_eq_true fun heq => h (heq ▸ hc)
  unfold splitOnce
  rw [List.takeWhile_eq_self_iff.mpr hall, List.dropWhile_eq_nil_iff.mpr hall]
  rfl

theorem notMem_splitOnce (d : Char) (s : Text) : d ∉ (splitOnce d s).1 := by
  intro hmem
  exact absurd (List.mem_takeWhile_imp hmem) (by simp)

theorem splitOnce_subset (d : Char) (s : Text) : (splitOnce d s).1 ⊆ s := fun _ hc => (List.takeWhile_prefix _).subset hc

theorem splitOnce_snd_subset {d : Char} {s r : Text} (h : (splitOnce d s).2 = some r) : r ⊆ s := by
  unfold splitOnce at h
  have hsub := (List.dropWhile_suffix (l := s) fun c => decide (c ≠ d)).subset
  cases hdrop : s.dropWhile fun c => decide (c ≠ d) with
  | nil =>
    rw [hdrop] at h
    exact absurd h (by simp)
  | cons x l =>
    rw [hdrop] at h hsub
    obtain rfl := Option.some.inj h
    exact fun c hc => hsub (List.mem_cons_of_mem _ hc)

theorem ofText_display_iff {p : PathBuf} : PathBuf.ofText p.display = p ↔ ∀ u ∈ p, ∃ c, u = .char c := by
  unfold PathBuf.ofText PathBuf.display
  rw [List.map_map]
  constructor
  · intro h u hu
    rw [← h] at hu
    obtain ⟨w, -, rfl⟩ := List.mem_map.mp hu
    exact ⟨_, rfl⟩
  · intro h
    refine (List.map_congr_left fun u hu => ?_).trans (List.map_id p)
    obtain ⟨c, rfl⟩ := h u hu
    rfl

theorem stripPrefix_subset {start : String} {s r : Text} (h : stripPrefix start s = some r) : r ⊆ s := by
  obtain ⟨p, hs, -⟩ := List.dropPrefix?_eq_some_iff.mp h
  rw [hs]
  exact List.subset_append_right _ _

theorem decodeReference_subset {query : Text} {reference : GitRef} (h : decodeReference query = some reference) :
    reference.name ⊆ query := by
  unfold decodeReference at h
  split at h
  · rename_i b hb
    obtain rfl := Option.some.inj h
    exact stripPrefix_subset hb
  · split at h
    · rename_i t ht
      obtain rfl := Option.some.inj h
      exact stripPrefix_subset ht
    · obtain ⟨r, hr, rfl⟩ := Option.map_eq_some_iff.mp h
      exact stripPrefix_subset hr

/-- What the decoder makes of a git source has no separator in the URL and no `#` in the reference. -/
theorem decodeGit_faithful {path : PathBuf} {s rest : Text} {source : LockSource}
    (h : decodeGit path s rest = .ok source) : source.Faithful := by
  unfold decodeGit at h
  have hhash : '#' ∉ (splitOnce '#' rest).1 := notMem_splitOnce '#' rest
  generalize splitOnce '#' rest = cut at h hhash
  obtain ⟨before, frag⟩ := cut
  simp only at h hhash
  have hquestion := notMem_splitOnce '?' before
  have hurl := splitOnce_subset '?' before
  have hquery := @splitOnce_snd_subset '?' before
  generalize splitOnce '?' before = cut at h hquestion hurl hquery
  obtain ⟨url, _ | query⟩ := cut
  · obtain rfl := Except.ok.inj h
    exact ⟨hquestion, fun hmem => hhash (hurl hmem), fun r hr => absurd hr (by simp)⟩
  · simp only at h
    cases href : decodeReference query with
    | none =>
      rw [href] at h
      exact absurd h (by simp)
    | some reference =>
      rw [href] at h
      obtain rfl := Except.ok.inj h
      refine ⟨hquestion, fun hmem => hhash (hurl hmem), fun r hr => ?_⟩
      obtain rfl := Option.some.inj hr
      exact fun hmem => hhash (hquery rfl (decodeReference_subset href hmem))

theorem decodeReference_encode (r : GitRef) : ∃ query, encodeReference (some r) = '?' :: query ∧
    decodeReference query = some r ∧ ('#' ∉ r.name → '#' ∉ query) := by
  cases r with
  | branch b =>
    refine ⟨"branch=".toList ++ b, rfl, ?_, fun hnot => ?_⟩
    · unfold decodeReference
      rw [stripPrefix_append]
    · simpa [GitRef.name] using hnot
  | tag t =>
    refine ⟨"tag=".toList ++ t, rfl, ?_, fun hnot => ?_⟩
    · have hbranch : stripPrefix "branch=" ("tag=".toList ++ t) = none := rfl
      unfold decodeReference
      rw [hbranch, stripPrefix_append]
    · simpa [GitRef.name] using hnot
  | rev r =>
    refine ⟨"rev=".toList ++ r, rfl, ?_, fun hnot => ?_⟩
    · have hbranch : stripPrefix "branch=" ("rev=".toList ++ r) = none := rfl
      have htag : stripPrefix "tag=" ("rev=".toList ++ r) = none := rfl
      unfold decodeReference
      rw [hbranch, htag, stripPrefix_append]
      rfl
    · simpa [GitRef.name] using hnot

/-- The commit is split off where the rest has no `#`. -/
theorem splitOnce_commit {base : Text} (h : '#' ∉ base) (resolvedRev : Option Text) :
    splitOnce '#' (base ++ (resolvedRev.map fun rev => '#' :: rev).getD []) = (base, resolvedRev) := by
  cases resolvedRev with
  | none => simpa using splitOnce_of_notMem h
  | some rev => exact splitOnce_append h rev

theorem decodeGit_encode {path : PathBuf} {s url : Text} {reference : Option GitRef} {resolvedRev : Option Text}
    (hquestion : '?' ∉ url) (hhash : '#' ∉ url) (hname : ∀ r ∈ reference, '#' ∉ r.name) :
    decodeGit path s (url ++ encodeReference reference ++ (resolvedRev.map fun rev => '#' :: rev).getD []) =
      .ok (.git url reference resolvedRev none) := by
  cases reference with
  | none =>
    have hcut := splitOnce_commit hhash resolvedRev
    have hurl := splitOnce_of_notMem hquestion
    have hencode : encodeReference none = [] := rfl
    simp only [decodeGit, hencode, List.append_nil, hcut, hurl]
  | some r =>
    obtain ⟨query, hencode, hdecode, hclean⟩ := decodeReference_encode r
    have hbase : '#' ∉ url ++ '?' :: query := by
      have := hclean (hname r rfl)
      simp [hhash, this]
    have hcut := splitOnce_commit hbase resolvedRev
    have hurl := splitOnce_append hquestion query
    simp only [decodeGit, hencode, hcut, hurl, hdecode]

/-- Decoding undoes encoding on faithful sources, and on no other. -/
theorem decode_encode_iff (path : PathBuf) (source : LockSource) :
    ((decodeSource path (encodeSource source)).bind fun d => applyMirror path d (sourceMirror source)) = .ok source ↔
      source.Faithful := by
  cases source with
  | root => exact iff_of_true rfl trivial
  | path p =>
    have hdecode : decodeSource path (encodeSource (.path p)) = .ok (.path (PathBuf.ofText p.display)) := by
      unfold decodeSource encodeSource
      rw [if_neg (by simp), stripPrefix_append]
    rw [hdecode]
    refine Iff.trans ?_ ofText_display_iff
    exact ⟨fun h => LockSource.path.inj (Except.ok.inj h), fun h => congrArg (Except.ok ∘ LockSource.path) h⟩
  | registry url mirror =>
    have hpath : stripPrefix "path+" ("registry+".toList ++ url) = none := rfl
    have hdecode : decodeSource path (encodeSource (.registry url mirror)) = .ok (.registry url none) := by
      unfold decodeSource encodeSource
      rw [if_neg (by simp), hpath, stripPrefix_append]
    rw [hdecode]
    refine iff_of_true ?_ trivial
    cases mirror <;> rfl
  | git url reference resolvedRev mirror =>
    have hencode : encodeSource (.git url reference resolvedRev mirror) = "git+".toList ++
        (url ++ encodeReference reference ++ (resolvedRev.map fun rev => '#' :: rev).getD []) := by
      unfold encodeSource
      cases resolvedRev <;> simp
    have hdecode : decodeSource path (encodeSource (.git url reference resolvedRev mirror)) =
        decodeGit path (encodeSource (.git url reference resolvedRev mirror))
          (url ++ encodeReference reference ++ (resolvedRev.map fun rev => '#' :: rev).getD []) := by
      generalize url ++ encodeReference reference ++ (resolvedRev.map fun rev => '#' :: rev).getD [] = rest at hencode
      have hpath : stripPrefix "path+" ("git+".toList ++ rest) = none := rfl
      have hregistry : stripPrefix "registry+" ("git+".toList ++ rest) = none := rfl
      unfold decodeSource
      rw [hencode, if_neg (by simp), hpath, hregistry, stripPrefix_append]
    rw [hdecode]
    constructor
    · intro h
      cases hgit : decodeGit path (encodeSource (.git url reference resolvedRev mirror))
          (url ++ encodeReference reference ++ (resolvedRev.map fun rev => '#' :: rev).getD []) with
      | error e =>
        rw [hgit] at h
        exact absurd h (by simp [Except.bind])
      | ok d =>
        have hfaithful := decodeGit_faithful hgit
        rw [hgit] at h
        have happly : applyMirror path d mirror = .ok (.git url reference resolvedRev mirror) := h
        clear hgit h hdecode hencode
        unfold applyMirror at happly
        split at happly
        · obtain rfl := Except.ok.inj happly
          exact hfaithful
        · split at happly
          · exact absurd (Except.ok.inj happly) (by simp)
          · obtain ⟨rfl, rfl, rfl, -⟩ := LockSource.git.inj (Except.ok.inj happly)
            exact hfaithful
          · exact absurd happly (by simp)
          · exact absurd happly (by simp)
    · rintro ⟨hquestion, hhash, hname⟩
      rw [decodeGit_encode hquestion hhash hname]
      cases mirror <;> rfl

/-! The quoted strings. -/

theorem quotes_quoteChar {c : Char} (hc : c ≠ delete) {q s : Text} (h : Quotes q s) : Quotes (quoteChar c ++ q) (c :: s) := by
  unfold quoteChar
  split_ifs with h1 h2 h3 h4 h5 h6
  · rw [h1]
    exact h.escape rfl
  · rw [h2]
    exact h.escape rfl
  · rw [h3]
    exact h.escape rfl
  · rw [h4]
    exact h.escape rfl
  · rw [h5]
    exact h.escape rfl
  · have hall : ∀ n < 0x20, scalarValue (hexDigitUpper (n / 4096 % 16)) (hexDigitUpper (n / 256 % 16))
        (hexDigitUpper (n / 16 % 16)) (hexDigitUpper (n % 16)) = some (Char.ofNat n) := by decide
    have hscalar := hall c.toNat h6
    rw [Char.ofNat_toNat] at hscalar
    exact h.unicode hscalar
  · have hcontrol : isControl c = false := by
      unfold isControl
      simp [h6, h5, hc]
    exact h.raw hcontrol h1 h2

theorem quotes_quoteString {s : Text} (h : delete ∉ s) : Quotes (s.flatMap quoteChar) s := by
  induction s with
  | nil => exact Quotes.nil
  | cons c s ih =>
    obtain ⟨hc, hs⟩ := not_or.mp (fun hor => h (List.mem_cons.mpr hor))
    rw [List.flatMap_cons]
    exact quotes_quoteChar (Ne.symm hc) (ih hs)

theorem delete_mem_quoteChar {c : Char} : delete ∈ quoteChar c ↔ c = delete := by
  constructor
  · intro h
    unfold quoteChar at h
    split_ifs at h with h1 h2 h3 h4 h5 h6
    iterate 5 exact absurd h (by decide)
    · have hall : ∀ n < 0x20, delete ∉ unicodeEscape n := by decide
      exact absurd h (hall _ h6)
    · exact (List.mem_singleton.mp h).symm
  · rintro rfl
    decide

theorem delete_mem_quoteString {s : Text} : delete ∈ quoteString s ↔ delete ∈ s := by
  unfold quoteString
  rw [List.mem_append, List.mem_cons, List.mem_flatMap]
  constructor
  · rintro ((h | ⟨c, hc, hmem⟩) | h)
    · exact absurd h (by decide)
    · exact delete_mem_quoteChar.mp hmem ▸ hc
    · exact absurd h (by decide)
  · intro h
    exact Or.inl (Or.inr ⟨delete, h, delete_mem_quoteChar.mpr rfl⟩)

/-! The file line by line. -/

def stringLine (key : String) (s : Text) : Line := ⟨key.toList, quoteString s, .string s⟩

def dependenciesLine (dependencies : List Text) : Line :=
  ⟨"dependencies".toList, dependenciesText dependencies, .array ((sortedDependencies dependencies).map .string)⟩

def mirrorLines (source : LockSource) : List Line := (sourceMirror source).toList.map (stringLine "mirror")

def packageLines (pkg : LockedPackage) : List Line :=
  [stringLine "name" pkg.name, stringLine "version" pkg.version, stringLine "source" (encodeSource pkg.source)] ++
    mirrorLines pkg.source ++ [stringLine "content_hash" pkg.contentHash, dependenciesLine pkg.dependencies]

def versionLine (version : Fin (2 ^ 32)) : Line :=
  ⟨"version".toList, Nat.toDigits 10 version, .integer (version : ℕ)⟩

def headerComments : List Text :=
  [" This file is auto-generated by karac.".toList, " Do not edit manually.".toList]

theorem stringLine_write (key : String) (s : Text) : (stringLine key s).write = fieldText key (quoteString s) := rfl

theorem dependenciesLine_write (dependencies : List Text) :
    (dependenciesLine dependencies).write = fieldText "dependencies" (dependenciesText dependencies) := rfl

theorem versionLine_write (version : Fin (2 ^ 32)) :
    (versionLine version).write = fieldText "version" (Nat.toDigits 10 version) := rfl

theorem packageText_eq (pkg : LockedPackage) :
    packageText pkg = '\n' :: sectionText "package".toList (packageLines pkg) := by
  have hheader : "\n[[package]]\n".toList = '\n' :: ("[[".toList ++ "package".toList ++ "]]\n".toList) := by decide
  unfold packageText sectionText packageLines mirrorLines
  rw [hheader]
  cases sourceMirror pkg.source with
  | none =>
    simp only [Option.toList_none, List.map_nil, List.append_nil, List.flatMap_cons, List.flatMap_nil,
      stringLine_write, dependenciesLine_write, List.cons_append, List.nil_append, List.append_assoc]
  | some mirror =>
    simp only [Option.toList_some, List.map_cons, List.map_nil, List.append_nil, List.flatMap_cons, List.flatMap_nil,
      stringLine_write, dependenciesLine_write, List.cons_append, List.nil_append, List.append_assoc]

theorem lockfileHeader_eq : lockfileHeader = headerComments.flatMap commentLine := by decide

theorem toToml_eq (lockfile : Lockfile) : toToml lockfile = documentText headerComments [versionLine lockfile.version]
    "package".toList ((sortedPackages lockfile.packages).map packageLines) := by
  have hpackages : (sortedPackages lockfile.packages).flatMap packageText =
      sectionsText "package".toList ((sortedPackages lockfile.packages).map packageLines) := by
    unfold sectionsText
    rw [List.flatMap_map]
    exact List.flatMap_congr fun pkg _ => packageText_eq pkg
  unfold toToml documentText
  rw [hpackages, lockfileHeader_eq]
  simp only [List.flatMap_cons, List.flatMap_nil, versionLine_write, List.append_assoc, List.append_nil, List.cons_append,
    List.nil_append]

theorem stringLine_valid {key : String} (hne : key.toList ≠ []) (hchars : key.toList.all isKeyChar = true) {s : Text}
    (hs : delete ∉ s) : (stringLine key s).Valid where
  key_ne := hne
  key_chars := List.all_eq_true.mp hchars
  reads r := by
    have hvalue := value_string (quotes_quoteString hs) ('\n' :: r)
    have htext : quoteString s ++ '\n' :: r = '"' :: s.flatMap quoteChar ++ '"' :: '\n' :: r := by
      unfold quoteString
      rw [List.append_assoc]
      rfl
    exact (congrArg value htext).trans hvalue

/-- Sorting by a text leaves the texts in order. -/
theorem pairwise_sort {α : Type} (key : α → Text) (l : List α) :
    (l.mergeSort fun a b => decide (key a ≤ key b)).Pairwise fun a b => decide (key a ≤ key b) = true := by
  have htrans : ∀ a b c : α, decide (key a ≤ key b) = true → decide (key b ≤ key c) = true →
      decide (key a ≤ key c) = true :=
    fun _ _ _ hab hbc => decide_eq_true (le_trans (of_decide_eq_true hab) (of_decide_eq_true hbc))
  have htotal : ∀ a b : α, (decide (key a ≤ key b) || decide (key b ≤ key a)) = true := by
    intro a b
    simpa using le_total (key a) (key b)
  exact List.pairwise_mergeSort htrans htotal l

theorem sorted_dependencies (dependencies : List Text) :
    (dependencies.mergeSort fun a b => decide (a ≤ b)).Pairwise (· ≤ ·) :=
  (pairwise_sort id dependencies).imp fun hab => of_decide_eq_true hab

theorem mem_sortedDependencies {dependencies : List Text} {d : Text} :
    d ∈ sortedDependencies dependencies ↔ d ∈ dependencies := by
  unfold sortedDependencies
  rw [(sorted_dependencies dependencies).destutter_eq_dedup, List.mem_dedup, List.mem_mergeSort]

theorem itemLine_quote (d : Text) : "    ".toList ++ quoteString d ++ ",\n".toList = itemLine (d.flatMap quoteChar) := by
  unfold quoteString itemLine
  rw [List.append_assoc, List.append_assoc, List.append_assoc]
  rfl

theorem dependenciesLine_valid {dependencies : List Text} (h : ∀ d ∈ dependencies, delete ∉ d) :
    (dependenciesLine dependencies).Valid where
  key_ne := (by decide : "dependencies".toList ≠ [])
  key_chars := List.all_eq_true.mp (by rfl : "dependencies".toList.all isKeyChar = true)
  reads r := by
    unfold dependenciesLine dependenciesText
    simp only
    have hquotes : ∀ d ∈ sortedDependencies dependencies, Quotes (d.flatMap quoteChar) d := fun d hd =>
      quotes_quoteString (h d (mem_sortedDependencies.mp hd))
    generalize sortedDependencies dependencies = deps at hquotes
    by_cases hempty : deps = []
    · rw [hempty]
      rfl
    · have htext : ("[\n".toList ++ deps.flatMap (fun d => "    ".toList ++ quoteString d ++ ",\n".toList) ++
          "]".toList) ++ '\n' :: r = '[' :: ('\n' :: deps.flatMap (fun d => itemLine (d.flatMap quoteChar)) ++
            ']' :: '\n' :: r) := by
        simp only [itemLine_quote]
        rw [List.append_assoc, List.append_assoc]
        rfl
      have hlength := @mul_length_le_flatMap _ _ 1 (fun d => itemLine (d.flatMap quoteChar)) deps fun d _ => by
        simp [itemLine]
      have hfuel : deps.length < ('\n' :: deps.flatMap (fun d => itemLine (d.flatMap quoteChar)) ++
          ']' :: '\n' :: r).length + 1 := by
        rw [List.length_append, List.length_cons]
        omega
      rw [if_neg (by simpa using hempty), htext, value, items_lines deps hquotes _ hfuel]
      rfl

/-! Reading the lines back. -/

/-- The dependencies sorted and deduplicated. -/
def LockedPackage.normalize (pkg : LockedPackage) : LockedPackage :=
  { pkg with dependencies := sortedDependencies pkg.dependencies }

/-- The packages sorted by name, each normalized. -/
def Lockfile.normalize (lockfile : Lockfile) : Lockfile :=
  { lockfile with packages := (sortedPackages lockfile.packages).map LockedPackage.normalize }

/-- The table that a package's section is read as. -/
def packageTable (pkg : LockedPackage) : Table := tableOf (entries (packageLines pkg))

theorem stringItems_strings (path : PathBuf) (ss : List Text) : stringItems path (ss.map .string) = .ok ss := by
  induction ss with
  | nil => rfl
  | cons s ss ih =>
    rw [List.map_cons, stringItems, ih]
    rfl

theorem parseMirror_packageTable (path : PathBuf) (pkg : LockedPackage) :
    parseMirror path (packageTable pkg) = .ok (sourceMirror pkg.source) := by
  unfold parseMirror packageTable packageLines mirrorLines
  cases sourceMirror pkg.source <;> rfl

theorem expectStringField_packageTable (path : PathBuf) (pkg : LockedPackage) :
    expectStringField path (packageTable pkg) "name" = .ok pkg.name ∧
      expectStringField path (packageTable pkg) "version" = .ok pkg.version ∧
      expectStringField path (packageTable pkg) "source" = .ok (encodeSource pkg.source) ∧
      expectStringField path (packageTable pkg) "content_hash" = .ok pkg.contentHash := by
  unfold expectStringField packageTable packageLines mirrorLines
  cases sourceMirror pkg.source <;> exact ⟨rfl, rfl, rfl, rfl⟩

theorem parseDependencies_packageTable (path : PathBuf) (pkg : LockedPackage) :
    parseDependencies path (packageTable pkg) = .ok (sortedDependencies pkg.dependencies) := by
  have hlookup : packageTable pkg "dependencies".toList =
      some (.array ((sortedDependencies pkg.dependencies).map .string)) := by
    unfold packageTable packageLines mirrorLines
    cases sourceMirror pkg.source <;> rfl
  unfold parseDependencies
  rw [hlookup]
  exact stringItems_strings path _

theorem parsePackage_iff (path : PathBuf) (pkg : LockedPackage) :
    parsePackage path (packageTable pkg) = .ok pkg.normalize ↔ pkg.source.Faithful := by
  obtain ⟨hname, hversion, hsource, hhash⟩ := expectStringField_packageTable path pkg
  rw [← decode_encode_iff path]
  unfold parsePackage
  rw [hname, hversion, hsource, hhash, parseMirror_packageTable, parseDependencies_packageTable]
  simp only [bind, Except.bind]
  cases decodeSource path (encodeSource pkg.source) with
  | error e => simp
  | ok d =>
    simp only
    cases applyMirror path d (sourceMirror pkg.source) with
    | error e => simp
    | ok source =>
      simp only [Except.ok.injEq]
      exact ⟨fun h => congrArg LockedPackage.source h, fun h => by rw [h]; rfl⟩

theorem parsePackages_iff (path : PathBuf) (pkgs : List LockedPackage) :
    parsePackages path (pkgs.map fun pkg => .table (packageTable pkg)) = .ok (pkgs.map LockedPackage.normalize) ↔
      ∀ pkg ∈ pkgs, pkg.source.Faithful := by
  induction pkgs with
  | nil => simp [parsePackages]
  | cons pkg pkgs ih =>
    rw [List.forall_mem_cons, ← ih, ← parsePackage_iff path, List.map_cons, List.map_cons, parsePackages]
    simp only [bind, Except.bind]
    cases parsePackage path (packageTable pkg) with
    | error e => simp
    | ok p =>
      simp only
      cases parsePackages path (pkgs.map fun pkg => .table (packageTable pkg)) with
      | error e => simp
      | ok ps => simp

/-! The delete character is the one that the writer lets through. -/

/-- The texts that a package is written with. -/
def LockedPackage.texts (pkg : LockedPackage) : List Text :=
  pkg.name :: pkg.version :: encodeSource pkg.source :: pkg.contentHash :: ((sourceMirror pkg.source).toList ++
    pkg.dependencies)

theorem delete_mem_fieldText {key : String} (hkey : delete ∉ key.toList) {text : Text} :
    delete ∈ fieldText key text ↔ delete ∈ text := by
  have hassign : delete ∉ " = ".toList := by decide
  have hline : delete ≠ '\n' := by decide
  unfold fieldText
  simp only [List.mem_append, List.mem_singleton, hkey, hassign, hline, false_or, or_false]

theorem delete_mem_dependenciesText {dependencies : List Text} :
    delete ∈ dependenciesText dependencies ↔ ∃ d ∈ dependencies, delete ∈ d := by
  have hopen : delete ∉ "[\n".toList := by decide
  have hclose : delete ∉ "]".toList := by decide
  have hindent : delete ∉ "    ".toList := by decide
  have hcomma : delete ∉ ",\n".toList := by decide
  have hitems : (∃ d ∈ sortedDependencies dependencies, delete ∈ d) ↔ ∃ d ∈ dependencies, delete ∈ d := by
    simp only [mem_sortedDependencies]
  rw [← hitems]
  unfold dependenciesText
  simp only
  split
  · rename_i hempty
    rw [List.isEmpty_iff.mp hempty]
    exact iff_of_false (by decide) (by simp)
  · simp only [List.mem_append, List.mem_flatMap, delete_mem_quoteString, hopen, hclose, hindent, hcomma, false_or,
      or_false]

theorem delete_mem_packageText {pkg : LockedPackage} : delete ∈ packageText pkg ↔ ∃ s ∈ pkg.texts, delete ∈ s := by
  have hheader : delete ∉ "\n[[package]]\n".toList := by decide
  have hname : delete ∉ "name".toList := by decide
  have hversion : delete ∉ "version".toList := by decide
  have hsource : delete ∉ "source".toList := by decide
  have hmirror : delete ∉ "mirror".toList := by decide
  have hhash : delete ∉ "content_hash".toList := by decide
  have hdeps : delete ∉ "dependencies".toList := by decide
  unfold packageText LockedPackage.texts
  cases sourceMirror pkg.source with
  | none =>
    simp only [List.mem_append, List.exists_mem_cons_iff, hheader, delete_mem_fieldText hname,
      delete_mem_fieldText hversion, delete_mem_fieldText hsource, delete_mem_fieldText hhash,
      delete_mem_fieldText hdeps, delete_mem_quoteString, delete_mem_dependenciesText, false_or, or_assoc,
      Option.toList_none, List.nil_append, List.not_mem_nil]
  | some mirror =>
    simp only [List.mem_append, List.exists_mem_cons_iff, hheader, delete_mem_fieldText hname,
      delete_mem_fieldText hversion, delete_mem_fieldText hsource, delete_mem_fieldText hmirror,
      delete_mem_fieldText hhash, delete_mem_fieldText hdeps, delete_mem_quoteString, delete_mem_dependenciesText,
      false_or, or_assoc, Option.toList_some, List.cons_append, List.nil_append]
    tauto

theorem delete_mem_toToml {lockfile : Lockfile} :
    delete ∈ toToml lockfile ↔ ∃ pkg ∈ lockfile.packages, ∃ s ∈ pkg.texts, delete ∈ s := by
  have hheader : delete ∉ lockfileHeader := by decide
  have hline : delete ≠ '\n' := by decide
  have hversion : delete ∉ "version".toList := by decide
  have hdigits : delete ∉ Nat.toDigits 10 lockfile.version := fun h =>
    absurd (Nat.isDigit_of_mem_toDigits (by decide) le_rfl h) (by decide)
  have hsorted : ∀ pkg, pkg ∈ sortedPackages lockfile.packages ↔ pkg ∈ lockfile.packages := fun pkg => List.mem_mergeSort
  unfold toToml
  simp only [List.mem_append, List.mem_singleton, List.mem_flatMap, hheader, hline, delete_mem_fieldText hversion, hdigits,
    hsorted, delete_mem_packageText, false_or]

/-! The whole file. -/

/-- Reading what is written gives the normalized lockfile, which is written alike. -/
def RoundTrips (read : Text → Option Table) (path : PathBuf) (lockfile : Lockfile) : Prop :=
  ∃ lockfile', parse read path (toToml lockfile) = .ok lockfile' ∧ lockfile' = lockfile.normalize ∧
    toToml lockfile' = toToml lockfile

theorem sortedDependencies_idem (dependencies : List Text) :
    sortedDependencies (sortedDependencies dependencies) = sortedDependencies dependencies := by
  have hsorted := (sorted_dependencies dependencies).sublist (List.destutter_sublist (· ≠ ·) _)
  have hsame := List.mergeSort_of_pairwise (hsorted.imp fun hab => decide_eq_true hab)
  unfold sortedDependencies
  rw [hsame, List.destutter_idem]

theorem packageText_normalize (pkg : LockedPackage) : packageText pkg.normalize = packageText pkg := by
  have hdeps : dependenciesText (sortedDependencies pkg.dependencies) = dependenciesText pkg.dependencies := by
    unfold dependenciesText
    rw [sortedDependencies_idem]
  unfold packageText LockedPackage.normalize
  simp only
  rw [hdeps]

theorem sortedPackages_normalize (packages : List LockedPackage) :
    sortedPackages ((sortedPackages packages).map LockedPackage.normalize) =
      (sortedPackages packages).map LockedPackage.normalize := by
  exact List.mergeSort_of_pairwise (List.pairwise_map.mpr (pairwise_sort LockedPackage.name packages))

theorem toToml_normalize (lockfile : Lockfile) : toToml lockfile.normalize = toToml lockfile := by
  unfold toToml Lockfile.normalize
  simp only
  rw [sortedPackages_normalize, List.flatMap_map]
  exact congrArg (_ ++ ·) (List.flatMap_congr fun pkg _ => packageText_normalize pkg)

theorem packageLines_valid {pkg : LockedPackage} (h : ∀ s ∈ pkg.texts, delete ∉ s) :
    (∀ l ∈ packageLines pkg, l.Valid) ∧ ((packageLines pkg).map Line.key).Nodup := by
  unfold LockedPackage.texts at h
  simp only [List.forall_mem_cons, List.forall_mem_append] at h
  obtain ⟨hname, hversion, hsource, hhash, hmirror, hdeps⟩ := h
  have hlines : (stringLine "name" pkg.name).Valid ∧ (stringLine "version" pkg.version).Valid ∧
      (stringLine "source" (encodeSource pkg.source)).Valid ∧ (stringLine "content_hash" pkg.contentHash).Valid ∧
      (dependenciesLine pkg.dependencies).Valid :=
    ⟨stringLine_valid (by decide) rfl hname, stringLine_valid (by decide) rfl hversion,
      stringLine_valid (by decide) rfl hsource, stringLine_valid (by decide) rfl hhash, dependenciesLine_valid hdeps⟩
  obtain ⟨h1, h2, h3, h5, h6⟩ := hlines
  unfold packageLines mirrorLines
  cases hm : sourceMirror pkg.source with
  | none =>
    refine ⟨?_, (by decide : (["name".toList, "version".toList, "source".toList, "content_hash".toList,
      "dependencies".toList] : List Text).Nodup)⟩
    simp only [Option.toList_none, List.map_nil, List.append_nil, List.forall_mem_append, List.forall_mem_cons]
    exact ⟨⟨h1, h2, h3, fun l hl => absurd hl List.not_mem_nil⟩, h5, h6, fun l hl => absurd hl List.not_mem_nil⟩
  | some mirror =>
    refine ⟨?_, (by decide : (["name".toList, "version".toList, "source".toList, "mirror".toList,
      "content_hash".toList, "dependencies".toList] : List Text).Nodup)⟩
    have h4 : (stringLine "mirror" mirror).Valid :=
      stringLine_valid (by decide) rfl (hmirror mirror (by rw [hm]; exact List.mem_singleton_self _))
    simp only [Option.toList_some, List.map_cons, List.map_nil, List.forall_mem_append, List.forall_mem_cons]
    exact ⟨⟨⟨h1, h2, h3, fun l hl => absurd hl List.not_mem_nil⟩, h4, fun l hl => absurd hl List.not_mem_nil⟩,
      h5, h6, fun l hl => absurd hl List.not_mem_nil⟩

theorem versionLine_valid (version : Fin (2 ^ 32)) : (versionLine version).Valid where
  key_ne := (by decide : "version".toList ≠ [])
  key_chars := List.all_eq_true.mp (by rfl : "version".toList.all isKeyChar = true)
  reads r := value_integer (lt_trans version.isLt (by norm_num)) r

theorem headerComments_plain : ∀ text ∈ headerComments, ∀ c ∈ text, c ≠ '\n' ∧ isControl c = false := by
  have h : (headerComments.all fun text => text.all fun c => decide (c ≠ '\n') && !isControl c) = true := by rfl
  intro text htext c hc
  have hc' := List.all_eq_true.mp (List.all_eq_true.mp h text htext) c hc
  simpa using hc'

/-- The table that a written lockfile is read as. -/
theorem document_toToml {lockfile : Lockfile} (h : ∀ pkg ∈ lockfile.packages, ∀ s ∈ pkg.texts, delete ∉ s) :
    document (toToml lockfile) = some (tableOf (entries [versionLine lockfile.version] ++
      if (sortedPackages lockfile.packages).map packageLines = [] then [] else [("package".toList,
        .array ((sortedPackages lockfile.packages).map fun pkg => .table (packageTable pkg)))])) := by
  have hlines : ∀ ls ∈ (sortedPackages lockfile.packages).map packageLines,
      (∀ l ∈ ls, l.Valid) ∧ (ls.map Line.key).Nodup := by
    intro ls hls
    obtain ⟨pkg, hpkg, rfl⟩ := List.mem_map.mp hls
    exact packageLines_valid (h pkg (List.mem_mergeSort.mp hpkg))
  have htop : ∀ l ∈ [versionLine lockfile.version], l.Valid := fun l hl =>
    List.mem_singleton.mp hl ▸ versionLine_valid lockfile.version
  have hspec := @document_spec headerComments [versionLine lockfile.version] "package".toList
    ((sortedPackages lockfile.packages).map packageLines) headerComments_plain htop (List.nodup_singleton _)
    (by decide) (List.all_eq_true.mp (by rfl : "package".toList.all isKeyChar = true))
    (by decide : "package".toList ∉ ["version".toList]) (fun ls hls => (hlines ls hls).1) fun ls hls => (hlines ls hls).2
  rw [toToml_eq, hspec, List.map_map]
  rfl

theorem parseVersionField_versionLine (path : PathBuf) (version : Fin (2 ^ 32)) (rest : List (Text × Value)) :
    parseVersionField path (tableOf (entries [versionLine version] ++ rest)) = .ok version := by
  have hlookup : tableOf (entries [versionLine version] ++ rest) "version".toList =
      some (.integer ((version : ℕ) : ℤ)) := rfl
  unfold parseVersionField
  rw [hlookup]
  simp only
  rw [dif_pos ⟨Int.natCast_nonneg _, by exact_mod_cast version.isLt⟩]
  rfl

theorem lookup_package (version : Fin (2 ^ 32)) (rest : List (Text × Value)) :
    tableOf (entries [versionLine version] ++ rest) "package".toList = rest.lookup "package".toList := rfl

theorem parse_other_version {read : Text → Option Table} {path : PathBuf} {source : Text} {table : Table}
    (hread : read source = some table) {version : Fin (2 ^ 32)} (hfield : parseVersionField path table = .ok version)
    (hne : version ≠ lockfileSchemaVersion) :
    parse read path source = .error (.schemaVersion path version lockfileSchemaVersion) := by
  unfold parse
  rw [hread]
  simp only [bind, Except.bind]
  rw [hfield]
  exact if_pos hne

theorem parse_supported_version {read : Text → Option Table} {path : PathBuf} {source : Text} {table : Table}
    (hread : read source = some table) {version : Fin (2 ^ 32)} (hfield : parseVersionField path table = .ok version)
    (heq : version = lockfileSchemaVersion) : parse read path source = match table "package".toList with
      | none => .ok ⟨version, []⟩
      | some (.array pkgs) => (parsePackages path pkgs).map fun packages => ⟨version, packages⟩
      | some _ => .error (.invalidField path "package".toList "expected array of tables".toList) := by
  unfold parse
  rw [hread]
  simp only [bind, Except.bind]
  rw [hfield]
  exact if_neg (not_not_intro heq)

theorem lookup_packages (version : Fin (2 ^ 32)) (pkgs : List LockedPackage) :
    tableOf (entries [versionLine version] ++ if pkgs.map packageLines = [] then [] else [("package".toList,
      .array (pkgs.map fun pkg => .table (packageTable pkg)))]) "package".toList =
        if pkgs = [] then none else some (.array (pkgs.map fun pkg => .table (packageTable pkg))) := by
  rw [lookup_package]
  cases pkgs with
  | nil => rfl
  | cons pkg pkgs =>
    rw [if_neg (by simp), if_neg (by simp)]
    rfl

/-- A clean lockfile of the supported version is read back exactly where its sources are faithful. -/
theorem parse_toToml_iff {read : Text → Option Table} (hread : Documented read) (path : PathBuf) {lockfile : Lockfile}
    (h : ∀ pkg ∈ lockfile.packages, ∀ s ∈ pkg.texts, delete ∉ s) :
    parse read path (toToml lockfile) = .ok lockfile.normalize ↔ lockfile.version = lockfileSchemaVersion ∧
      ∀ pkg ∈ lockfile.packages, pkg.source.Faithful := by
  have hclean : delete ∉ toToml lockfile := fun hmem => by
    obtain ⟨pkg, hpkg, s, hs, hdel⟩ := delete_mem_toToml.mp hmem
    exact h pkg hpkg s hs hdel
  have hsorted : (∀ pkg ∈ lockfile.packages, pkg.source.Faithful) ↔
      ∀ pkg ∈ sortedPackages lockfile.packages, pkg.source.Faithful := by
    unfold sortedPackages
    simp only [List.mem_mergeSort]
  have htable := hread.fragment _ _ hclean (document_toToml h)
  have hfield := parseVersionField_versionLine path lockfile.version
  rw [hsorted, ← parsePackages_iff path]
  by_cases hversion : lockfile.version = lockfileSchemaVersion
  · rw [parse_supported_version htable (hfield _) hversion, lookup_packages]
    unfold Lockfile.normalize
    generalize sortedPackages lockfile.packages = pkgs
    by_cases hempty : pkgs = []
    · rw [hempty]
      exact iff_of_true rfl ⟨hversion, rfl⟩
    · rw [if_neg hempty]
      simp only
      cases parsePackages path (pkgs.map fun pkg => .table (packageTable pkg)) with
      | error e => exact iff_of_false (by simp [Except.map]) (by simp)
      | ok packages =>
        simp only [Except.map, Except.ok.injEq, Lockfile.mk.injEq, true_and, hversion]
  · rw [parse_other_version htable (hfield _) hversion]
    exact iff_of_false (by simp) fun hboth => hversion hboth.1

/-- A lockfile round trips exactly when its version is the supported one, its sources are faithful, and no text
holds the delete character. -/
theorem lockfile_round_trip_iff {read : Text → Option Table} (hread : Documented read) (path : PathBuf)
    (lockfile : Lockfile) : RoundTrips read path lockfile ↔ lockfile.version = lockfileSchemaVersion ∧
      ∀ pkg ∈ lockfile.packages, pkg.source.Faithful ∧ ∀ s ∈ pkg.texts, delete ∉ s := by
  have htrip : RoundTrips read path lockfile ↔ parse read path (toToml lockfile) = .ok lockfile.normalize := by
    constructor
    · rintro ⟨lockfile', hparse, rfl, -⟩
      exact hparse
    · exact fun hparse => ⟨_, hparse, rfl, toToml_normalize lockfile⟩
  rw [htrip]
  by_cases hclean : ∀ pkg ∈ lockfile.packages, ∀ s ∈ pkg.texts, delete ∉ s
  · rw [parse_toToml_iff hread path hclean]
    exact and_congr_right fun _ => forall₂_congr fun pkg hpkg => (and_iff_left (hclean pkg hpkg)).symm
  · have hmem : delete ∈ toToml lockfile := by
      rw [delete_mem_toToml]
      by_contra hnone
      exact hclean fun pkg hpkg s hs hdel => hnone ⟨pkg, hpkg, s, hs, hdel⟩
    refine iff_of_false (fun hparse => ?_) fun hboth => hclean fun pkg hpkg => (hboth.2 pkg hpkg).2
    unfold parse at hparse
    rw [hread.control _ hmem] at hparse
    exact absurd hparse (by simp)

/-! Lockfiles of one package, read by the fragment reader. -/

/-- The reader of the fragment, refusing the delete character. -/
def fragmentReader (t : Text) : Option Table := if delete ∈ t then none else document t

theorem fragmentReader_documented : Documented fragmentReader where
  fragment _ _ hclean hdocument := (if_neg hclean).trans hdocument
  control _ hmem := if_pos hmem

/-- A git package at a branch, with its resolved commit. -/
def gitLockfile (name branch : String) : Lockfile where
  version := lockfileSchemaVersion
  packages := [{
    name := name.toList
    version := "2.0.0".toList
    source := .git "https://github.com/foo/bar".toList (some (.branch branch.toList)) (some "deadbeef".toList) none
    contentHash := "blake3:pending-fetch".toList
    dependencies := ["alpha".toList] }]

theorem lockfile_round_trip_git : RoundTrips fragmentReader [] (gitLockfile "beta" "main") := by
  refine (lockfile_round_trip_iff fragmentReader_documented [] _).mpr ⟨rfl, fun pkg hpkg => ?_⟩
  obtain rfl := List.mem_singleton.mp hpkg
  exact ⟨⟨by decide, by decide, fun r hr => Option.some.inj hr ▸ by decide⟩, by decide⟩

/-- A branch name with `#` and a package name with the delete character do not come back. -/
theorem lockfile_not_round_trip : Documented fragmentReader ∧ ¬ RoundTrips fragmentReader [] (gitLockfile "beta" "a#b") ∧
    ¬ RoundTrips fragmentReader [] (gitLockfile (String.singleton delete) "main") := by
  refine ⟨fragmentReader_documented, ?_, ?_⟩
  · rintro ⟨lockfile', hparse, rfl, -⟩
    have hclean : ∀ pkg ∈ (gitLockfile "beta" "a#b").packages, ∀ s ∈ pkg.texts, delete ∉ s := by
      intro pkg hpkg
      obtain rfl := List.mem_singleton.mp hpkg
      decide
    have hfaithful := ((parse_toToml_iff fragmentReader_documented [] hclean).mp hparse).2 _ List.mem_cons_self
    exact absurd (hfaithful.2.2 _ rfl) (by decide)
  · rintro ⟨lockfile', hparse, rfl, -⟩
    have hmem : delete ∈ toToml (gitLockfile (String.singleton delete) "main") :=
      delete_mem_toToml.mpr ⟨_, List.mem_cons_self, _, List.mem_cons_self, by decide⟩
    unfold parse at hparse
    rw [fragmentReader_documented.control _ hmem] at hparse
    exact absurd hparse (by simp)

end Karac.Resolver
