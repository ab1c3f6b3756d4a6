import Karac.Stdlib.ProtoReader

/-! `#[derive(Message)]`: the `decode` and `merge` that it writes for a struct, as functions of the struct's fields. -/

namespace Karac.Stdlib.Protobuf

open Lib

/-! The message types. -/

inductive Scalar
  | string
  | bytes
  | bool
  | u64
  | i64
  | i32
  | u32
  | f64
  | f32
deriving DecidableEq

/-- The wires of `#[karac::proto(..)]`. -/
inductive Override
  | sint32
  | sint64
  | fixed32
  | fixed64
  | sfixed32
  | sfixed64
deriving DecidableEq

/-- What one wire value is for. The messages are numbered, and an enum is its number of variants. -/
inductive Elem (count : ℕ)
  | scalar (s : Scalar)
  | enum (variants : ℕ)
  | message (name : Fin count)
deriving DecidableEq

/-- In a oneof a variant may have no payload. -/
inductive FieldType (count : ℕ)
  | single (e : Elem count)
  | override (wire : Override)
  | repeated (e : Elem count)
  | map (key : Scalar) (value : Elem count)
  | oneof (cases : List (Option (Elem count)))
deriving DecidableEq

/-- A field: the number of `#[karac::field(N)]`, or 0, and the type. -/
structure Field (count : ℕ) where
  attrNumber : ℤ
  ty : FieldType count

/-- The types that derive `Message`. None contains itself: the compiler refuses ownership cycles. -/
structure Schema where
  count : ℕ
  fields : Fin count → List (Field count)
  rank : Fin count → ℕ
  rank_le : ∀ m, rank m ≤ count
  rank_lt : ∀ m, ∀ f ∈ fields m, ∀ m', f.ty = .single (.message m') → rank m' < rank m

/-! The values. -/

inductive Datum
  | text (s : String)
  | bytes (bs : List UInt8)
  | bool (b : Bool)
  | int (n : ℤ)
  | float64 (bits : UInt64)
  | float32 (bits : UInt32)
deriving DecidableEq

inductive Value
  | datum (d : Datum)
  | variant (index : ℕ)
  | case (index : ℕ) (payload : Value)
  | list (elems : List Value)
  | map (entries : List (Datum × Value))
  | message (fields : List Value)

def Value.push (target v : Value) : Value :=
  match target with
  | .list elems => .list (elems ++ [v])
  | other => other

def Value.insert (target : Value) (k : Datum) (v : Value) : Value :=
  match target with
  | .map entries => .map (entries.filter (fun e => e.1 ≠ k) ++ [(k, v)])
  | other => other

/-- `proto_default`. -/
def protoDefault : Scalar → Datum
  | .string => .text ""
  | .bytes => .bytes []
  | .bool => .bool false
  | .f64 => .float64 0
  | .f32 => .float32 0
  | _ => .int 0

/-! Reading one value. -/

/-- `proto_read_expr` and its twins. -/
def readScalar (s : Scalar) (r : ProtoReader) : Run (Datum × ProtoReader) :=
  match s with
  | .string => do
    let (v, r) ← r.readString
    pure (.text v, r)
  | .bytes => do
    let (v, r) ← r.readLenDelim
    pure (.bytes v, r)
  | .bool => do
    let (v, r) ← r.readVarint
    pure (.bool (v ≠ 0), r)
  | .u64 => do
    let (v, r) ← r.readVarint
    pure (.int v.toNat, r)
  | .i64 => do
    let (v, r) ← r.readVarint
    pure (.int (asI64 v), r)
  | .i32 => do
    let (v, r) ← r.readVarint
    pure (.int (v.toUInt32.toBitVec.toInt), r)
  | .u32 => do
    let (v, r) ← r.readVarint
    pure (.int v.toUInt32.toNat, r)
  | .f64 => do
    let (v, r) ← r.readFixed64
    pure (.float64 v, r)
  | .f32 => do
    let (v, r) ← r.readFixed32
    pure (.float32 v, r)

/-- `proto_read_override`. -/
def readOverride (wire : Override) (r : ProtoReader) : Run (Datum × ProtoReader) :=
  match wire with
  | .sint64 => do
    let (v, r) ← r.readVarint
    pure (.int (ProtoReader.zigzagDecode v), r)
  | .sint32 => do
    let (v, r) ← r.readVarint
    pure (.int ((BitVec.ofInt 32 (ProtoReader.zigzagDecode v)).toInt), r)
  | .fixed64 => do
    let (v, r) ← r.readFixed64
    pure (.int v.toNat, r)
  | .sfixed64 => do
    let (v, r) ← r.readFixed64
    pure (.int (asI64 v), r)
  | .fixed32 => do
    let (v, r) ← r.readFixed32
    pure (.int v.toNat, r)
  | .sfixed32 => do
    let (v, r) ← r.readFixed32
    pure (.int v.toBitVec.toInt, r)

/-- `proto_index_to_enum`: an index that is none stands for the first variant. -/
def indexToEnum (variants : ℕ) (v : UInt64) : Value := .variant (if v.toNat < variants then v.toNat else 0)

section

variable {count : ℕ} (decode : Fin count → List UInt8 → Run Value)

/-- `decode` is the method of the message types. -/
def readElem (e : Elem count) (r : ProtoReader) : Run (Value × ProtoReader) :=
  match e with
  | .scalar s => do
    let (d, r) ← readScalar s r
    pure (.datum d, r)
  | .enum variants => do
    let (v, r) ← r.readVarint
    pure (indexToEnum variants v, r)
  | .message name => do
    let (bytes, r) ← r.readLenDelim
    let m ← decode name bytes
    pure (m, r)

/-- The elements that may come packed. -/
def Elem.packable : Elem count → Bool
  | .scalar .string => false
  | .scalar .bytes => false
  | .message _ => false
  | _ => true

/-- One element of a packed field. -/
def packedElem (e : Elem count) (sub : ProtoReader) (target : Value) : Run (Value × ProtoReader) := do
  let (v, sub) ← readElem decode e sub
  pure (target.push v, sub)

/-- `proto_decode_repeated`. -/
def decodeRepeated (fuel : ℕ) (e : Elem count) (wire : ℤ) (r : ProtoReader) (target : Value) :
    Run (Value × ProtoReader) :=
  if e.packable ∧ wire = 2 then do
    let (bytes, r) ← r.readLenDelim
    let target ← ProtoReader.untilEnd (packedElem decode e) fuel (.new bytes) target
    pure (target, r)
  else do
    let (v, r) ← readElem decode e r
    pure (target.push v, r)

/-- One field of a map entry. -/
def entryField (key : Scalar) (value : Elem count) (sub : ProtoReader) (kv : Datum × Value) :
    Run ((Datum × Value) × ProtoReader) := do
  let ((field, wire), sub) ← sub.readTag
  if field = 1 then do
    let (k, sub) ← readScalar key sub
    pure ((k, kv.2), sub)
  else if field = 2 then do
    let (v, sub) ← readElem decode value sub
    pure ((kv.1, v), sub)
  else do
    let sub ← sub.skipField wire
    pure (kv, sub)

/-- What a value is before it is read. -/
def elemDefault : Elem count → Run Value
  | .scalar s => pure (.datum (protoDefault s))
  | .enum _ => pure (.variant 0)
  | .message name => decode name []

/-- `proto_map_decode`. -/
def mapDecode (fuel : ℕ) (key : Scalar) (value : Elem count) (r : ProtoReader) (target : Value) :
    Run (Value × ProtoReader) := do
  let (bytes, r) ← r.readLenDelim
  let v ← elemDefault decode value
  let kv ← ProtoReader.untilEnd (entryField decode key value) fuel (.new bytes) (protoDefault key, v)
  pure (target.insert kv.1 kv.2, r)

/-! The arms of the dispatch on the field number. -/

inductive Action (count : ℕ)
  | set (e : Elem count)
  | setOverride (wire : Override)
  | setCase (index : ℕ) (e : Elem count)
  | repeated (e : Elem count)
  | map (key : Scalar) (value : Elem count)

/-- What the body of an arm does with its field, `target`. -/
def runAction (fuel : ℕ) (a : Action count) (wire : ℤ) (r : ProtoReader) (target : Value) : Run (Value × ProtoReader) :=
  match a with
  | .set e => readElem decode e r
  | .setOverride w => do
    let (d, r) ← readOverride w r
    pure (.datum d, r)
  | .setCase index e => do
    let (v, r) ← readElem decode e r
    pure (.case index v, r)
  | .repeated e => decodeRepeated decode fuel e wire r target
  | .map key value => mapDecode decode fuel key value r target

structure Arm (count : ℕ) where
  number : ℤ
  /-- The field's index. -/
  slot : ℕ
  action : Action count

/-- The arms of a oneof: each case with a payload has the next number. -/
def caseArms (slot : ℕ) : List (Option (Elem count)) → ℕ → ℤ → List (Arm count)
  | [], _, _ => []
  | none :: cases, index, number => caseArms slot cases (index + 1) number
  | some e :: cases, index, number => ⟨number, slot, .setCase index e⟩ :: caseArms slot cases (index + 1) (number + 1)

/-- The numbers of `derive_message`: `idx` counts the fields, and the cases of a oneof. -/
def armsOf : List (Field count) → ℕ → ℤ → List (Arm count)
  | [], _, _ => []
  | f :: fields, slot, idx =>
    let number := if f.attrNumber > 0 then f.attrNumber else idx
    match f.ty with
    | .single e => ⟨number, slot, .set e⟩ :: armsOf fields (slot + 1) (idx + 1)
    | .override wire => ⟨number, slot, .setOverride wire⟩ :: armsOf fields (slot + 1) (idx + 1)
    | .repeated e => ⟨number, slot, .repeated e⟩ :: armsOf fields (slot + 1) (idx + 1)
    | .map key value => ⟨number, slot, .map key value⟩ :: armsOf fields (slot + 1) (idx + 1)
    | .oneof cases =>
      let arms := caseArms slot cases 0 idx
      arms ++ armsOf fields (slot + 1) (idx + arms.length)

/-- One field of a message. -/
def messageField (fuel : ℕ) (arms : List (Arm count)) (r : ProtoReader) (locals : List Value) :
    Run (List Value × ProtoReader) := do
  let ((field, wire), r) ← r.readTag
  match arms.find? fun a => a.number = field with
  | some a => do
    let (v, r) ← runAction decode fuel a.action wire r (locals.getD a.slot (.variant 0))
    pure (locals.set a.slot v, r)
  | none => do
    let r ← r.skipField wire
    pure (locals, r)

def fieldDefault (f : Field count) : Run Value :=
  match f.ty with
  | .single e => elemDefault decode e
  | .override _ => pure (.datum (.int 0))
  | .repeated _ => pure (.list [])
  | .map _ _ => pure (.map [])
  | .oneof _ => pure (.variant 0)

def fieldDefaults : List (Field count) → Run (List Value)
  | [] => pure []
  | f :: fields => do
    let v ← fieldDefault decode f
    let vs ← fieldDefaults fields
    pure (v :: vs)

end

namespace Schema

variable (S : Schema)

def decode : ℕ → Fin S.count → List UInt8 → Run Value
  | 0, _, _ => .stop .fuel
  | fuel + 1, name, bytes => do
    let locals ← fieldDefaults (decode fuel) (S.fields name)
    let arms := armsOf (S.fields name) 0 1
    let locals ← ProtoReader.untilEnd (messageField (decode fuel) fuel arms) fuel (.new bytes) locals
    pure (.message locals)

/-- `merge`, on the fields of `self`. -/
def merge : ℕ → Fin S.count → List Value → List UInt8 → Run (List Value)
  | 0, _, _, _ => .stop .fuel
  | fuel + 1, name, self, bytes =>
    ProtoReader.untilEnd (messageField (S.decode fuel) fuel (armsOf (S.fields name) 0 1)) fuel (.new bytes) self

end Schema

end Karac.Stdlib.Protobuf
