import Karac.Lib.Toml

/-! The lockfile: its values, the writer, and the reader over a TOML table. Texts are lists of characters. -/

namespace Karac.Resolver

open Lib.Toml

/-- One unit of a path: a character, or bytes that are none. -/
inductive OsUnit
  | char (c : Char)
  | undecodable (bytes : List UInt8)
  deriving DecidableEq

/-- Bytes that are no character are shown as U+FFFD. -/
def OsUnit.shown : OsUnit → Char
  | char c => c
  | undecodable _ => Char.ofNat 0xfffd

abbrev PathBuf := List OsUnit

namespace PathBuf

/-- `p.display()` -/
def display (p : PathBuf) : Text := p.map OsUnit.shown

def ofText (s : Text) : PathBuf := s.map .char

end PathBuf

inductive GitRef
  | branch (name : Text)
  | tag (name : Text)
  | rev (name : Text)
  deriving DecidableEq

def GitRef.name : GitRef → Text
  | branch n => n
  | tag n => n
  | rev n => n

inductive LockSource
  | root
  | path (p : PathBuf)
  | registry (url : Text) (mirror : Option Text)
  | git (url : Text) (reference : Option GitRef) (resolvedRev : Option Text) (mirror : Option Text)
  deriving DecidableEq

structure LockedPackage where
  name : Text
  version : Text
  source : LockSource
  contentHash : Text
  dependencies : List Text
  deriving DecidableEq

structure Lockfile where
  version : Fin (2 ^ 32)
  packages : List LockedPackage
  deriving DecidableEq

inductive LockfileError
  | parse (path : PathBuf)
  | schemaVersion (path : PathBuf) (found supported : Fin (2 ^ 32))
  | invalidSource (path : PathBuf) (sourceStr : Text)
  | invalidField (path : PathBuf) (field message : Text)

def lockfileSchemaVersion : Fin (2 ^ 32) := 1

/-! The writer. -/

def hexDigitUpper (n : ℕ) : Char := Char.ofNat (if n < 10 then 48 + n else 55 + n)

/-- `\u` and four hexadecimal digits. -/
def unicodeEscape (n : ℕ) : Text :=
  ['\\', 'u', hexDigitUpper (n / 4096 % 16), hexDigitUpper (n / 256 % 16), hexDigitUpper (n / 16 % 16),
    hexDigitUpper (n % 16)]

def quoteChar (c : Char) : Text :=
  if c = '\\' then ['\\', '\\']
  else if c = '"' then ['\\', '"']
  else if c = '\n' then ['\\', 'n']
  else if c = '\r' then ['\\', 'r']
  else if c = '\t' then ['\\', 't']
  else if c.toNat < 0x20 then unicodeEscape c.toNat
  else [c]

/-- TOML basic-string escape. -/
def quoteString (s : Text) : Text := '"' :: s.flatMap quoteChar ++ ['"']

def encodeReference : Option GitRef → Text
  | none => []
  | some (.branch b) => "?branch=".toList ++ b
  | some (.tag t) => "?tag=".toList ++ t
  | some (.rev r) => "?rev=".toList ++ r

/-- The resolved commit is a fragment. -/
def encodeSource : LockSource → Text
  | .root => "root".toList
  | .path p => "path+".toList ++ p.display
  | .registry url _ => "registry+".toList ++ url
  | .git url reference resolvedRev _ =>
    let base := "git+".toList ++ url ++ encodeReference reference
    match resolvedRev with
    | some rev => base ++ '#' :: rev
    | none => base

def sourceMirror : LockSource → Option Text
  | .registry _ mirror => mirror
  | .git _ _ _ mirror => mirror
  | .root => none
  | .path _ => none

/-- `deps.sort(); deps.dedup()` -/
def sortedDependencies (dependencies : List Text) : List Text :=
  (dependencies.mergeSort fun a b => decide (a ≤ b)).destutter (· ≠ ·)

def sortedPackages (packages : List LockedPackage) : List LockedPackage :=
  packages.mergeSort fun a b => decide (a.name ≤ b.name)

def fieldText (key : String) (text : Text) : Text := key.toList ++ " = ".toList ++ text ++ ['\n']

def dependenciesText (dependencies : List Text) : Text :=
  let deps := sortedDependencies dependencies
  if deps.isEmpty then "[]".toList
  else "[\n".toList ++ deps.flatMap (fun d => "    ".toList ++ quoteString d ++ ",\n".toList) ++ "]".toList

def packageText (pkg : LockedPackage) : Text :=
  "\n[[package]]\n".toList ++ fieldText "name" (quoteString pkg.name) ++ fieldText "version" (quoteString pkg.version) ++
    fieldText "source" (quoteString (encodeSource pkg.source)) ++
    (match sourceMirror pkg.source with
      | some mirror => fieldText "mirror" (quoteString mirror)
      | none => []) ++
    fieldText "content_hash" (quoteString pkg.contentHash) ++
    fieldText "dependencies" (dependenciesText pkg.dependencies)

def lockfileHeader : Text := "# This file is auto-generated by karac.\n# Do not edit manually.\n".toList

def toToml (lockfile : Lockfile) : Text :=
  lockfileHeader ++ ['\n'] ++ fieldText "version" (Nat.toDigits 10 lockfile.version) ++
    (sortedPackages lockfile.packages).flatMap packageText

/-! The reader. -/

/-- The text before the first separator, and after it. -/
def splitOnce (separator : Char) (s : Text) : Text × Option Text :=
  (s.takeWhile fun c => c ≠ separator, (s.dropWhile fun c => c ≠ separator).tail?)

def stripPrefix (start : String) (s : Text) : Option Text := s.dropPrefix? start.toList

def decodeReference (query : Text) : Option GitRef :=
  match stripPrefix "branch=" query with
  | some b => some (.branch b)
  | none =>
    match stripPrefix "tag=" query with
    | some t => some (.tag t)
    | none => (stripPrefix "rev=" query).map .rev

/-- The first `#` separates the commit. -/
def decodeGit (path : PathBuf) (s rest : Text) : Except LockfileError LockSource :=
  let (rest, resolvedRev) := splitOnce '#' rest
  match splitOnce '?' rest with
  | (url, none) => .ok (.git url none resolvedRev none)
  | (url, some query) =>
    match decodeReference query with
    | some reference => .ok (.git url (some reference) resolvedRev none)
    | none => .error (.invalidSource path s)

def decodeSource (path : PathBuf) (s : Text) : Except LockfileError LockSource :=
  if s = "root".toList then .ok .root
  else
    match stripPrefix "path+" s with
    | some rest => .ok (.path (PathBuf.ofText rest))
    | none =>
      match stripPrefix "registry+" s with
      | some rest => .ok (.registry rest none)
      | none =>
        match stripPrefix "git+" s with
        | some rest => decodeGit path s rest
        | none => .error (.invalidSource path s)

def applyMirror (path : PathBuf) (source : LockSource) : Option Text → Except LockfileError LockSource
  | none => .ok source
  | some m =>
    match source with
    | .registry url _ => .ok (.registry url (some m))
    | .git url reference resolvedRev _ => .ok (.git url reference resolvedRev (some m))
    | .root => .error (.invalidField path "mirror".toList
        "mirror is only valid on `registry+` or `git+` sources".toList)
    | .path _ => .error (.invalidField path "mirror".toList
        "mirror is only valid on `registry+` or `git+` sources".toList)

def expectStringField (path : PathBuf) (table : Table) (field : String) : Except LockfileError Text :=
  match table field.toList with
  | some (.string s) => .ok s
  | some _ => .error (.invalidField path field.toList "expected string".toList)
  | none => .error (.invalidField path field.toList "missing required field".toList)

def stringItems (path : PathBuf) : List Value → Except LockfileError (List Text)
  | [] => .ok []
  | .string s :: vs => (stringItems path vs).map (s :: ·)
  | _ :: _ => .error (.invalidField path "dependencies".toList "expected array of strings".toList)

def parseMirror (path : PathBuf) (table : Table) : Except LockfileError (Option Text) :=
  match table "mirror".toList with
  | some (.string s) => .ok (some s)
  | some _ => .error (.invalidField path "mirror".toList "expected string".toList)
  | none => .ok none

def parseDependencies (path : PathBuf) (table : Table) : Except LockfileError (List Text) :=
  match table "dependencies".toList with
  | some (.array a) => stringItems path a
  | some _ => .error (.invalidField path "dependencies".toList "expected array of strings".toList)
  | none => .ok []

def parsePackage (path : PathBuf) (table : Table) : Except LockfileError LockedPackage := do
  let name ← expectStringField path table "name"
  let version ← expectStringField path table "version"
  let sourceStr ← expectStringField path table "source"
  let contentHash ← expectStringField path table "content_hash"
  let source ← decodeSource path sourceStr
  let mirror ← parseMirror path table
  let source ← applyMirror path source mirror
  let dependencies ← parseDependencies path table
  .ok { name, version, source, contentHash, dependencies }

def parseVersionField (path : PathBuf) (table : Table) : Except LockfileError (Fin (2 ^ 32)) :=
  match table "version".toList with
  | some (.integer i) =>
    if h : 0 ≤ i ∧ i < 2 ^ 32 then .ok ⟨i.toNat, by omega⟩
    else .error (.invalidField path "version".toList
      ("expected non-negative integer fitting u32, got ".toList ++ (toString i).toList))
  | some _ => .error (.invalidField path "version".toList "expected integer".toList)
  | none => .error (.invalidField path "version".toList "missing required field".toList)

def parsePackages (path : PathBuf) : List Value → Except LockfileError (List LockedPackage)
  | [] => .ok []
  | .table t :: vs => do
    let pkg ← parsePackage path t
    let pkgs ← parsePackages path vs
    .ok (pkg :: pkgs)
  | _ :: _ => .error (.invalidField path "package".toList "expected table elements".toList)

/-- `Lockfile::parse` over a TOML reader; the reader's own message is left out of its error. -/
def parse (read : Text → Option Table) (path : PathBuf) (source : Text) : Except LockfileError Lockfile :=
  match read source with
  | none => .error (.parse path)
  | some table => do
    let version ← parseVersionField path table
    if version ≠ lockfileSchemaVersion then
      .error (.schemaVersion path version lockfileSchemaVersion)
    else
      match table "package".toList with
      | none => .ok ⟨version, []⟩
      | some (.array pkgs) => do
        let packages ← parsePackages path pkgs
        .ok ⟨version, packages⟩
      | some _ => .error (.invalidField path "package".toList "expected array of tables".toList)

end Karac.Resolver
