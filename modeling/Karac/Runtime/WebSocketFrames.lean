import Karac.Lib.Positional
import Karac.Lib.PrefixCodes
import Karac.Runtime.Transport

/-! `ws_recv_data_frame_inner`: one message is read, frame by frame, and the control frames in between are
answered. -/

namespace Karac.Runtime.WebSocket

open Karac.Lib

/-- What `accept_opcode` says. -/
inductive MessageKind where
  | text
  | binary
  deriving DecidableEq, Repr

def MessageKind.opcode : MessageKind → UInt8
  | text => 0x1
  | binary => 0x2

/-- `std::str::from_utf8(..).is_ok()`. -/
def isUtf8 (bs : List UInt8) : Bool := (ByteArray.mk bs.toArray).validateUTF8

/-- The header of a frame to the client: the last fragment, unmasked. -/
def unmaskedHeader (opcode : UInt8) (len : ℕ) : List UInt8 :=
  (0x80 ||| opcode) ::
    if len < 126 then [UInt8.ofNat len]
    else if len < 65536 then 126 :: toBeBytes 2 len
    else 127 :: toBeBytes 8 len

def wsWriteUnmaskedFrame (t : Transport) (opcode : UInt8) (payload : List UInt8) : Bool × Transport :=
  let header := t.writeAll (unmaskedHeader opcode payload.length)
  if !header.1 then (false, header.2)
  else if payload.isEmpty then (true, header.2)
  else header.2.writeAll payload

/-- The reply's own failure is passed over. -/
def wsFailClose (t : Transport) (code : ℕ) : ℤ × Transport :=
  (-1, (wsWriteUnmaskedFrame t 0x8 (toBeBytes 2 code)).2)

def wsCloseCodeValid (code : ℕ) : Bool :=
  1000 ≤ code && code ≤ 1003 || 1007 ≤ code && code ≤ 1014 || 3000 ≤ code && code ≤ 4999

/-- `*byte ^= mask_key[i % 4]` over the whole slice. -/
def applyMask (mask payload : List UInt8) : List UInt8 := payload.mapIdx fun i b => b ^^^ mask.getD (i % 4) 0

/-- The message so far: the bytes in the caller's buffer, and whether a fragment was read. -/
structure Reassembly where
  out : List UInt8
  inFragment : Bool
  deriving DecidableEq, Repr

/-- One round of the loop. -/
inductive Turn where
  | stop (result : ℤ × Transport)
  | again (r : Reassembly) (t : Transport)

inductive PayloadLen where
  | known (len : ℕ)
  | topBitSet
  | cut
  deriving DecidableEq, Repr

/-- The length from the seven bits in the header, or from the bytes behind it. -/
def readPayloadLen (len7 : ℕ) (t : Transport) : PayloadLen × Transport :=
  if len7 ≤ 125 then (.known len7, t)
  else if len7 = 126 then
    match wsReadExactOrEof t 2 with
    | (.full buf, t) => (.known (fromBeBytes buf), t)
    | (_, t) => (.cut, t)
  else
    match wsReadExactOrEof t 8 with
    | (.full buf, t) => (if buf.headD 0 &&& 0x80 ≠ 0 then .topBitSet else .known (fromBeBytes buf), t)
    | (_, t) => (.cut, t)

/-- The answer to a Close frame with that body. -/
def closeFrame (t : Transport) : List UInt8 → ℤ × Transport
  | [] => (0, (wsWriteUnmaskedFrame t 0x8 []).2)
  | [_] => wsFailClose t 1002
  | c0 :: c1 :: reason =>
    let code := fromBeBytes [c0, c1]
    if !wsCloseCodeValid code || !isUtf8 reason then wsFailClose t 1002
    else (0, (wsWriteUnmaskedFrame t 0x8 (toBeBytes 2 code)).2)

/-- What a control frame with that body does. -/
def controlFrame (opcode : UInt8) (body : List UInt8) (r : Reassembly) (t : Transport) : Turn :=
  if opcode = 0x8 then .stop (closeFrame t body)
  else if opcode = 0x9 then
    let (ok, t) := wsWriteUnmaskedFrame t 0xA body
    if ok then .again r t else .stop (-1, t)
  else if opcode = 0xA then .again r t
  else .stop (wsFailClose t 1002)

/-- What the bytes of a data frame do, once they are in the buffer. -/
def dataFrame (kind : MessageKind) (fin : Bool) (out : List UInt8) (t : Transport) : Turn :=
  if !fin then .again ⟨out, true⟩ t
  else if kind = .text ∧ out ≠ [] ∧ !isUtf8 out then .stop (wsFailClose t 1007)
  else .stop (out.length, t)

/-- The payload of a frame with that header. -/
def framePayload (kind : MessageKind) (outMaxLen : ℕ) (fin : Bool) (opcode : UInt8) (len : ℕ) (mask : List UInt8)
    (r : Reassembly) (t : Transport) : Turn :=
  if 0x8 ≤ opcode then
    if !fin || 125 < len then .stop (wsFailClose t 1002)
    else match wsReadExactOrEof t len with
      | (.full buf, t) => controlFrame opcode (applyMask mask buf) r t
      | (_, t) => .stop (-1, t)
  else if r.inFragment ∧ opcode ≠ 0x0 then .stop (wsFailClose t 1002)
  else if ¬r.inFragment ∧ opcode ≠ kind.opcode then .stop (-1, t)
  else if outMaxLen < r.out.length + len then .stop (wsFailClose t 1009)
  else match wsReadExactOrEof t len with
    | (.full buf, t) => dataFrame kind fin (r.out ++ applyMask mask buf) t
    | (_, t) => .stop (-1, t)

/-- The rest of a frame, behind the two bytes of its header. -/
def afterHeader (kind : MessageKind) (outMaxLen : ℕ) (b0 b1 : UInt8) (r : Reassembly) (t : Transport) : Turn :=
  if b0 &&& 0x70 ≠ 0 ∨ b1 &&& 0x80 = 0 then .stop (wsFailClose t 1002)
  else match readPayloadLen (b1 &&& 0x7F).toNat t with
    | (.cut, t) => .stop (-1, t)
    | (.topBitSet, t) => .stop (wsFailClose t 1002)
    | (.known len, t) =>
      match wsReadExactOrEof t 4 with
      | (.full mask, t) => framePayload kind outMaxLen (b0 &&& 0x80 ≠ 0) (b0 &&& 0x0F) len mask r t
      | (_, t) => .stop (-1, t)

/-- A round of the loop: one frame. -/
def turn (kind : MessageKind) (outMaxLen : ℕ) (r : Reassembly) (t : Transport) : Turn :=
  match wsReadExactOrEof t 2 with
  | (.eof, t) => .stop (0, t)
  | (.failed, t) => .stop (-1, t)
  | (.full header2, t) => afterHeader kind outMaxLen (header2.getD 0 0) (header2.getD 1 0) r t

/-- The loop; `none` when the rounds run out. -/
def recvLoop (kind : MessageKind) (outMaxLen : ℕ) : ℕ → Reassembly → Transport → Option (ℤ × Transport)
  | 0, _, _ => none
  | rounds + 1, r, t =>
    match turn kind outMaxLen r t with
    | .stop result => some result
    | .again r t => recvLoop kind outMaxLen rounds r t

/-- `ws_recv_data_frame_inner`. A round that does not return reads a frame, so there are no more rounds than
bytes, and one. -/
def wsRecvDataFrameInner (kind : MessageKind) (outMaxLen : ℕ) (t : Transport) : Option (ℤ × Transport) :=
  recvLoop kind outMaxLen (t.bytes.length + 1) ⟨[], false⟩ t

end Karac.Runtime.WebSocket
