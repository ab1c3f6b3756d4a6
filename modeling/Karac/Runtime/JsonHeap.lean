import Karac.Lib.BinaryFloat
import Karac.Lib.BlockHeap
import Karac.Runtime.Utf8Lossy

/-! JSON trees across the foreign interface: from a value to a tree of tagged structs in the heap, back, and the
destructor. Reading what is not there, or another kind of block, is undefined and has no result. -/

namespace Karac.Runtime.Json

open Karac.Lib

/-! The values. -/

/-- `serde_json::Number`. -/
inductive Number
  | posInt (n : BitVec 64)
  | negInt (i : BitVec 64)
  /-- The bits of an `f64`. -/
  | float (bits : BitVec 64)
deriving DecidableEq

def isFinite (bits : BitVec 64) : Bool := bits.extractLsb' 52 11 != 0x7FF#11

namespace Number

def asI64 : Number → Option (BitVec 64)
  | posInt n => if n.toNat < 2 ^ 63 then some n else none
  | negInt i => some i
  | float _ => none

/-- An integer is rounded to the nearest double, ties to even. -/
def asF64 : Number → Option (BitVec 64)
  | posInt n => some (BitVec.ofNat 64 (floatIndex 52 (-1074) n.toNat))
  | negInt i => some (BitVec.ofNat 64 (2 ^ 63 + floatIndex 52 (-1074) (-i.toInt : ℤ)))
  | float bits => some bits

def ofI64 (i : BitVec 64) : Number := if i.slt 0 then negInt i else posInt i

def fromF64 (bits : BitVec 64) : Option Number := if isFinite bits then some (float bits) else none

end Number

/-- `serde_json::Value`. Strings are their bytes, and an object has its entries in the order of their insertion. -/
inductive Value
  | null
  | bool (b : Bool)
  | number (n : Number)
  | string (s : List UInt8)
  | array (items : List Value)
  | object (entries : List (List UInt8 × Value))

/-- `serde_json::Map::insert`: a key that is there keeps its place. -/
def mapInsert (map : List (List UInt8 × Value)) (key : List UInt8) (value : Value) : List (List UInt8 × Value) :=
  if key ∈ map.map Prod.fst then map.map fun e => if e.1 = key then (key, value) else e else map ++ [(key, value)]

/-! The structs. -/

inductive KaracJsonTag
  | null | bool | number | string | array | object | int
deriving DecidableEq

def KaracJsonTag.toU8 : KaracJsonTag → UInt8
  | null => 0
  | bool => 1
  | number => 2
  | string => 3
  | array => 4
  | object => 5
  | int => 6

/-- A struct with its fields' zeros, and pointers as addresses. -/
structure KaracJsonValue where
  tag : UInt8
  boolVal : Bool := false
  numVal : BitVec 64 := 0
  strPtr : ℕ := 0
  strLen : ℕ := 0
  arrItems : ℕ := 0
  arrLen : ℕ := 0
  objKeys : ℕ := 0
  objVals : ℕ := 0
  objLen : ℕ := 0
  intVal : BitVec 64 := 0

inductive Block
  | node (n : KaracJsonValue)
  | bytes (bs : List UInt8)
  /-- The buffer of a vector of pointers. -/
  | pointers (ps : List ℕ)
  /-- A C string, without its terminator. -/
  | cstring (bs : List UInt8)

abbrev Heap := BlockHeap Block

/-- `CString::new`, or the empty string. -/
def cstringOf (k : List UInt8) : List UInt8 := if 0 ∈ k then [] else k

mutual

def jsonValueToKarac : Value → Heap → ℕ × Heap
  | .null, h => h.alloc (.node { tag := KaracJsonTag.null.toU8 })
  | .bool b, h => h.alloc (.node { tag := KaracJsonTag.bool.toU8, boolVal := b })
  | .number n, h =>
    match n.asI64 with
    | some i => h.alloc (.node { tag := KaracJsonTag.int.toU8, intVal := i })
    | none => h.alloc (.node { tag := KaracJsonTag.number.toU8, numVal := n.asF64.getD 0 })
  | .string s, h =>
    if s.isEmpty then h.alloc (.node { tag := KaracJsonTag.string.toU8 })
    else
      let buf := h.alloc (.bytes s)
      buf.2.alloc (.node { tag := KaracJsonTag.string.toU8, strPtr := buf.1, strLen := s.length })
  | .array items, h =>
    if items.isEmpty then h.alloc (.node { tag := KaracJsonTag.array.toU8 })
    else
      let children := itemsToKarac items h
      let buf := children.2.alloc (.pointers children.1)
      buf.2.alloc (.node { tag := KaracJsonTag.array.toU8, arrItems := buf.1, arrLen := items.length })
  | .object entries, h =>
    if entries.isEmpty then h.alloc (.node { tag := KaracJsonTag.object.toU8 })
    else
      let pairs := entriesToKarac entries h
      let keys := pairs.2.alloc (.pointers (pairs.1.map Prod.fst))
      let vals := keys.2.alloc (.pointers (pairs.1.map Prod.snd))
      vals.2.alloc (.node {
        tag := KaracJsonTag.object.toU8, objKeys := keys.1, objVals := vals.1, objLen := entries.length })

def itemsToKarac : List Value → Heap → List ℕ × Heap
  | [], h => ([], h)
  | item :: items, h =>
    let child := jsonValueToKarac item h
    let children := itemsToKarac items child.2
    (child.1 :: children.1, children.2)

def entriesToKarac : List (List UInt8 × Value) → Heap → List (ℕ × ℕ) × Heap
  | [], h => ([], h)
  | (k, v) :: entries, h =>
    let key := h.alloc (.cstring (cstringOf k))
    let val := jsonValueToKarac v key.2
    let pairs := entriesToKarac entries val.2
    ((key.1, val.1) :: pairs.1, pairs.2)

end

/-! The way back. -/

section

variable (h : Heap)

/-- So many pointers of a buffer, read one after another. -/
def readPointers (ptr len : ℕ) : Option (List ℕ) :=
  if len = 0 then some []
  else
    match h.blocks ptr with
    | some (.pointers ps) => if len ≤ ps.length then some (ps.take len) else none
    | _ => none

def readString (ptr len : ℕ) : Option (List UInt8) :=
  if ptr = 0 ∨ len = 0 then some []
  else
    match h.blocks ptr with
    | some (.bytes bs) => if len ≤ bs.length then some (fromUtf8Lossy (bs.take len)) else none
    | _ => none

/-- A key is read up to its first zero. -/
def readKey (ptr : ℕ) : Option (List UInt8) :=
  if ptr = 0 then some []
  else
    match h.blocks ptr with
    | some (.cstring bs) => some (fromUtf8Lossy (bs.takeWhile (· ≠ 0)))
    | _ => none

/-- What a struct stands for, when its children are read so. -/
def readNode (read : ℕ → Option Value) (n : KaracJsonValue) : Option Value :=
  if n.tag = KaracJsonTag.null.toU8 then some .null
  else if n.tag = KaracJsonTag.bool.toU8 then some (.bool n.boolVal)
  else if n.tag = KaracJsonTag.number.toU8 then some (((Number.fromF64 n.numVal).map .number).getD .null)
  else if n.tag = KaracJsonTag.int.toU8 then some (.number (.ofI64 n.intVal))
  else if n.tag = KaracJsonTag.string.toU8 then (readString h n.strPtr n.strLen).map .string
  else if n.tag = KaracJsonTag.array.toU8 then
    (readPointers h n.arrItems n.arrLen).bind fun items => (items.mapM read).map .array
  else if n.tag = KaracJsonTag.object.toU8 then
    (readPointers h n.objKeys n.objLen).bind fun keys =>
      (readPointers h n.objVals n.objLen).bind fun vals =>
        ((keys.zip vals).foldlM (fun map pair => (readKey h pair.1).bind fun key =>
          (read pair.2).map fun value => mapInsert map key value) []).map .object
  else some .null

/-- Trees that are deeper than the fuel have no result either. -/
def karacToJsonValue : ℕ → ℕ → Option Value
  | 0, _ => none
  | fuel + 1, ptr =>
    if ptr = 0 then some .null
    else
      match h.blocks ptr with
      | some (.node n) => readNode h (fun item => karacToJsonValue fuel item) n
      | _ => none

end

/-! The destructor. -/

/-- A buffer goes back with the size it is taken to have. -/
def freeBytes (h : Heap) (ptr len : ℕ) : Option Heap :=
  (h.free ptr).bind fun r =>
    match r.1 with
    | .bytes bs => if bs.length = len then some r.2 else none
    | _ => none

def ownedPointers (h : Heap) (ptr len : ℕ) : Option (List ℕ) :=
  match h.blocks ptr with
  | some (.pointers ps) => if ps.length = len then some ps else none
  | _ => none

def freePointers (h : Heap) (ptr : ℕ) : Option Heap := (h.free ptr).map Prod.snd

def freeKey (h : Heap) (ptr : ℕ) : Option Heap :=
  if ptr = 0 then some h
  else
    (h.free ptr).bind fun r =>
      match r.1 with
      | .cstring _ => some r.2
      | _ => none

/-- A vector of pointers: what each points at is freed, then its buffer. -/
def freeVector (freeItem : Heap → ℕ → Option Heap) (h : Heap) (ptr len : ℕ) : Option Heap :=
  (ownedPointers h ptr len).bind fun items => (items.foldlM freeItem h).bind fun h => freePointers h ptr

/-- What the struct points at, by its tag. -/
def freePayload (freeItem : Heap → ℕ → Option Heap) (h : Heap) (n : KaracJsonValue) : Option Heap :=
  if n.tag = KaracJsonTag.string.toU8 ∧ n.strPtr ≠ 0 ∧ 0 < n.strLen then freeBytes h n.strPtr n.strLen
  else if n.tag = KaracJsonTag.array.toU8 ∧ n.arrItems ≠ 0 ∧ 0 < n.arrLen then freeVector freeItem h n.arrItems n.arrLen
  else if n.tag = KaracJsonTag.object.toU8 ∧ 0 < n.objLen then
    (if n.objKeys ≠ 0 then freeVector freeKey h n.objKeys n.objLen else some h).bind fun h =>
      if n.objVals ≠ 0 then freeVector freeItem h n.objVals n.objLen else some h
  else some h

/-- `karac_runtime_json_free_value`. The struct itself goes last. -/
def freeValue : ℕ → Heap → ℕ → Option Heap
  | 0, _, _ => none
  | fuel + 1, h, ptr =>
    if ptr = 0 then some h
    else
      match h.blocks ptr with
      | some (.node n) => (freePayload (fun h item => freeValue fuel h item) h n).bind fun h => (h.free ptr).map Prod.snd
      | _ => none

end Karac.Runtime.Json
