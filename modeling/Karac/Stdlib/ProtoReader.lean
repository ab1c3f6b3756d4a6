import Karac.Lib.Computations

/-! `ProtoReader`: a cursor over the bytes of a protobuf message. An index outside the bytes, an `i64` that overflows
and a shift by the width or more trap. The calls that return are noted, with the reader before and after. -/

namespace Karac.Stdlib.Protobuf

open Lib

structure ProtoReader where
  bytes : List UInt8
  pos : ℤ
deriving DecidableEq

inductive Stop
  | trap
  /-- The model's bound on recursion, not the program's. -/
  | fuel
deriving DecidableEq

inductive Op
  | readVarint
  | readZigzag
  | readTag
  | readLenDelim
  | readString
  | readFixed64
  | readFixed32
deriving DecidableEq

inductive Event
  | read (op : Op) (before after : ProtoReader)
  | skip (before after : ProtoReader)
  /-- One round of a loop, from one test of `at_end` to the next. -/
  | round (before after : ProtoReader)
deriving DecidableEq

abbrev Run := Traced Event Stop

def index (bytes : List UInt8) (i : ℤ) : Run UInt8 :=
  if i < 0 then .stop .trap
  else match bytes[i.toNat]? with
    | some b => pure b
    | none => .stop .trap

def addI64 (a b : ℤ) : Run ℤ := if -2 ^ 63 ≤ a + b ∧ a + b < 2 ^ 63 then pure (a + b) else .stop .trap

/-- `as i64`. -/
def asI64 (v : UInt64) : ℤ := v.toBitVec.toInt

namespace ProtoReader

def new (bytes : List UInt8) : ProtoReader := ⟨bytes, 0⟩

def atEnd (r : ProtoReader) : Bool := r.pos ≥ r.bytes.length

/-- The rounds of `read_varint`, of which the eleventh shifts by 70. -/
def varintLoop : ℕ → UInt64 → ProtoReader → Run (UInt64 × ProtoReader)
  | 0, _, _ => .stop .trap
  | n + 1, result, r => do
    let shift := 7 * (9 - n)
    let b ← index r.bytes r.pos
    let pos ← addI64 r.pos 1
    let result := result ||| ((b &&& 127).toUInt64 <<< shift.toUInt64)
    if b &&& 128 = 0 then pure (result, ⟨r.bytes, pos⟩) else varintLoop n result ⟨r.bytes, pos⟩

def readVarint (r : ProtoReader) : Run (UInt64 × ProtoReader) :=
  (varintLoop 10 0 r).noting fun p => .read .readVarint r p.2

def zigzagDecode (value : UInt64) : ℤ := ((value >>> 1).toInt64 ^^^ (0 - (value &&& 1).toInt64)).toInt

def readZigzag (r : ProtoReader) : Run (ℤ × ProtoReader) :=
  Traced.noting (do
    let (v, r) ← readVarint r
    pure (zigzagDecode v, r)) fun p => .read .readZigzag r p.2

/-- The field number and the wire type. -/
def readTag (r : ProtoReader) : Run ((ℤ × ℤ) × ProtoReader) :=
  Traced.noting (do
    let (v, r) ← readVarint r
    let key := asI64 v
    pure ((key / 8, key % 8), r)) fun p => .read .readTag r p.2

/-- The next bytes, from offset `i` on. -/
def copy (r : ProtoReader) : ℕ → ℤ → Run (List UInt8)
  | 0, _ => pure []
  | n + 1, i => do
    let at_ ← addI64 r.pos i
    let b ← index r.bytes at_
    let out ← copy r n (i + 1)
    pure (b :: out)

def readLenDelim (r : ProtoReader) : Run (List UInt8 × ProtoReader) :=
  Traced.noting (do
    let (v, r) ← readVarint r
    let len := asI64 v
    let out ← r.copy len.toNat 0
    let pos ← addI64 r.pos len
    pure (out, ⟨r.bytes, pos⟩)) fun p => .read .readLenDelim r p.2

def readString (r : ProtoReader) : Run (String × ProtoReader) :=
  Traced.noting (do
    let (raw, r) ← readLenDelim r
    pure ((String.fromUTF8? ⟨raw.toArray⟩).getD "", r)) fun p => .read .readString r p.2

def littleEndian (bytes : List UInt8) : ℕ := bytes.foldr (fun b n => b.toNat + 256 * n) 0

def readFixed64 (r : ProtoReader) : Run (UInt64 × ProtoReader) :=
  Traced.noting (do
    let bytes ← r.copy 8 0
    let pos ← addI64 r.pos 8
    pure (.ofNat (littleEndian bytes), ⟨r.bytes, pos⟩)) fun p => .read .readFixed64 r p.2

def readFixed32 (r : ProtoReader) : Run (UInt32 × ProtoReader) :=
  Traced.noting (do
    let bytes ← r.copy 4 0
    let pos ← addI64 r.pos 4
    pure (.ofNat (littleEndian bytes), ⟨r.bytes, pos⟩)) fun p => .read .readFixed32 r p.2

/-- Some wire types are not known and take no bytes. -/
def skipField (r : ProtoReader) (wireType : ℤ) : Run ProtoReader :=
  Traced.noting (
    if wireType = 0 then do
      let (_, r) ← readVarint r
      pure r
    else if wireType = 1 then do
      let pos ← addI64 r.pos 8
      pure ⟨r.bytes, pos⟩
    else if wireType = 2 then do
      let (_, r) ← readLenDelim r
      pure r
    else if wireType = 5 then do
      let pos ← addI64 r.pos 4
      pure ⟨r.bytes, pos⟩
    else pure r) fun r' => .skip r r'

/-- `while not r.at_end()`: the body changes the reader and `a`. -/
def untilEnd {α : Type} (body : ProtoReader → α → Run (α × ProtoReader)) : ℕ → ProtoReader → α → Run α
  | 0, _, _ => .stop .fuel
  | n + 1, r, a =>
    if r.atEnd then pure a
    else do
      let (a, r) ← (body r a).noting fun p => .round r p.2
      untilEnd body n r a

end ProtoReader

end Karac.Stdlib.Protobuf
