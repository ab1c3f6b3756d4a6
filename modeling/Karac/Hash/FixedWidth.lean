import Karac.Lib.Positional
import Karac.Map.Table

/-! SipHash and FxHash, of a byte string and of an integer held in a register: the two entry points give one digest, so
one key has one bucket however its hash is computed. The process seed is the pair of keys. -/

namespace Karac.Hash

open Karac.Lib
open Karac.Map (Byte Word KaracMap)

/-- The SipHash state. The round counts of `State<C, D>` are arguments of the functions that use them. -/
structure State where
  v0 : Word
  v1 : Word
  v2 : Word
  v3 : Word

namespace State

def new (k0 k1 : Word) : State where
  v0 := k0 ^^^ 0x736f6d6570736575
  v1 := k1 ^^^ 0x646f72616e646f6d
  v2 := k0 ^^^ 0x6c7967656e657261
  v3 := k1 ^^^ 0x7465646279746573

def sipRound (s : State) : State :=
  let v0 := s.v0 + s.v1
  let v1 := s.v1.rotateLeft 13
  let v1 := v1 ^^^ v0
  let v0 := v0.rotateLeft 32
  let v2 := s.v2 + s.v3
  let v3 := s.v3.rotateLeft 16
  let v3 := v3 ^^^ v2
  let v0 := v0 + v3
  let v3 := v3.rotateLeft 21
  let v3 := v3 ^^^ v0
  let v2 := v2 + v1
  let v1 := v1.rotateLeft 17
  let v1 := v1 ^^^ v2
  let v2 := v2.rotateLeft 32
  ⟨v0, v1, v2, v3⟩

/-- Absorbs one message word. -/
def roundMsg (c : ℕ) (s : State) (m : Word) : State :=
  let s := sipRound^[c] { s with v3 := s.v3 ^^^ m }
  { s with v0 := s.v0 ^^^ m }

def finish (d : ℕ) (s : State) : Word :=
  let s := sipRound^[d] { s with v2 := s.v2 ^^^ 0xff }
  s.v0 ^^^ s.v1 ^^^ s.v2 ^^^ s.v3

end State

/-- The trailing bytes in little-endian order, each or-ed in at its place over the length byte. -/
def lastWord (len : ℕ) (rem : List Byte) : Word :=
  rem.zipIdx.foldl (fun (last : Word) (b : Byte × ℕ) => last ||| b.1.setWidth 64 <<< (8 * b.2))
    ((BitVec.ofNat 64 len &&& 0xff) <<< 56)

def sip (c d : ℕ) (bytes : List Byte) (k0 k1 : Word) : Word :=
  let split := asChunks bytes
  let st := split.1.foldl (fun st chunk => st.roundMsg c (ofLeBytes 64 chunk)) (State.new k0 k1)
  (st.roundMsg c (lastWord bytes.length split.2)).finish d

def hashBytesWithKey (bytes : List Byte) (k0 k1 : Word) : Word := sip 1 3 bytes k0 k1

def hashIntWithKey (v : Word) (nbytes : ℕ) (k0 k1 : Word) : Word :=
  let st := State.new k0 k1
  let n := BitVec.ofNat 64 nbytes
  if nbytes ≥ 8 then
    ((st.roundMsg 1 v).roundMsg 1 (n <<< 56)).finish 3
  else
    let keep := 1#64 <<< (8 * nbytes) - 1#64
    (st.roundMsg 1 ((n <<< 56) ||| (v &&& keep))).finish 3

/-- `hash_u64`: the eight-byte width, pinned. -/
def hashU64 (v k0 k1 : Word) : Word := hashIntWithKey v 8 k0 k1

def fxMultiplier : Word := 0x517cc1b727220a95

def fxAdd (h word : Word) : Word := (h.rotateLeft 5 ^^^ word) * fxMultiplier

def fxFinalize (h : Word) : Word :=
  let h := h ^^^ (h >>> 27)
  let h := h * 0x3C79AC492BA7B653
  let h := h ^^^ (h >>> 33)
  let h := h * 0x1C69B3F74AC4AE35
  h ^^^ (h >>> 27)

def fxHashBytes (bytes : List Byte) : Word :=
  let split := asChunks bytes
  let h := split.1.foldl (fun h chunk => fxAdd h (ofLeBytes 64 chunk)) 0
  fxFinalize (split.2.foldl (fun h b => fxAdd h (b.setWidth 64)) h)

def fxHashInt (v : Word) (nbytes : ℕ) : Word :=
  if nbytes ≥ 8 then fxFinalize (fxAdd 0 v)
  else fxFinalize ((List.range nbytes).foldl (fun h i => fxAdd h ((v >>> (8 * i)) &&& 0xff)) 0)

def fxHashU64 (v : Word) : Word := fxFinalize (fxAdd 0 v)

/-- The hashers that have an entry point for integers; a user's hasher is handed bytes always. -/
inductive HasherKind
  | sipHash13
  | fx

/-- `emit_hash_bytes_call`: the digest of the key's bytes. -/
def HasherKind.hashBytes (kind : HasherKind) (bytes : List Byte) (k0 k1 : Word) : Word :=
  match kind with
  | .sipHash13 => hashBytesWithKey bytes k0 k1
  | .fx => fxHashBytes bytes

/-- `emit_hash_int_call`: a full-width key takes the pinned entry point, a narrower one is handed its width, which the
callee clamps. -/
def HasherKind.hashInt (kind : HasherKind) (value : Word) (nbytes : ℕ) (k0 k1 : Word) : Word :=
  match kind with
  | .sipHash13 => if nbytes ≥ 8 then hashU64 value k0 k1 else hashIntWithKey value (min nbytes 8) k0 k1
  | .fx => if nbytes ≥ 8 then fxHashU64 value else fxHashInt value (min nbytes 8)

theorem lastWord_eq (len : ℕ) (rem : List Byte) :
    lastWord len rem = ((BitVec.ofNat 64 len &&& 0xff) <<< 56) ||| ofLeBytes 64 rem := by
  rw [lastWord, foldl_or_bytes, Nat.mul_zero, BitVec.shiftLeft_zero]

theorem lengthByte_of_le {n : ℕ} (h : n ≤ 8) : BitVec.ofNat 64 n &&& 0xff = BitVec.ofNat 64 n := by
  interval_cases n <;> rfl

/-- A byte of the value, as the integer's loop masks it out and as the byte string holds it. -/
theorem shifted_byte (v : Word) (i : ℕ) : (v >>> (8 * i)) &&& 0xff = (v.extractLsb' (8 * i) 8).setWidth 64 := by
  have hff : (0xff : Word) = 1#64 <<< 8 - 1#64 := rfl
  refine BitVec.eq_of_getLsbD_eq fun j hj => ?_
  rw [hff, BitVec.getLsbD_and, getLsbD_mask (by omega), BitVec.getLsbD_ushiftRight, BitVec.getLsbD_setWidth,
    BitVec.getLsbD_extractLsb']
  by_cases hj8 : j < 8 <;> simp [hj, hj8]

theorem hashBytesWithKey_eight {bytes : List Byte} (h : bytes.length = 8) (k0 k1 : Word) :
    hashBytesWithKey bytes k0 k1 =
      (((State.new k0 k1).roundMsg 1 (ofLeBytes 64 bytes)).roundMsg 1 (BitVec.ofNat 64 8 <<< 56)).finish 3 := by
  rw [hashBytesWithKey, sip, asChunks_eight h, lastWord_eq, h, lengthByte_of_le (le_refl 8), ofLeBytes]
  simp only [List.foldl_cons, List.foldl_nil, BitVec.ofNat_eq_ofNat, BitVec.or_zero]

theorem hashBytesWithKey_short {bytes : List Byte} (h : bytes.length < 8) (k0 k1 : Word) :
    hashBytesWithKey bytes k0 k1 =
      ((State.new k0 k1).roundMsg 1 (BitVec.ofNat 64 bytes.length <<< 56 ||| ofLeBytes 64 bytes)).finish 3 := by
  rw [hashBytesWithKey, sip, asChunks_short h, lastWord_eq, lengthByte_of_le (by omega)]
  rfl

theorem hashIntWithKey_eq {n : ℕ} (h : n ≤ 8) (v k0 k1 : Word) :
    hashIntWithKey v n k0 k1 = hashBytesWithKey (leBytes n v) k0 k1 := by
  have hlen : (leBytes n v).length = n := length_leBytes n v
  obtain rfl | hlt := Nat.eq_or_lt_of_le h
  · rw [hashBytesWithKey_eight hlen, ofLeBytes_leBytes (by omega), hashIntWithKey, if_pos (le_refl 8)]
  · rw [hashBytesWithKey_short (by omega), hlen, ofLeBytes_leBytes_mask (by omega), hashIntWithKey,
      if_neg (by omega)]

theorem fxHashInt_eq {n : ℕ} (h : n ≤ 8) (v : Word) : fxHashInt v n = fxHashBytes (leBytes n v) := by
  have hlen : (leBytes n v).length = n := length_leBytes n v
  obtain rfl | hlt := Nat.eq_or_lt_of_le h
  · have hword : ofLeBytes 64 (leBytes 8 v) = v := ofLeBytes_leBytes (by omega) v
    rw [fxHashBytes, asChunks_eight hlen, fxHashInt, if_pos (le_refl 8)]
    simp only [List.foldl_cons, List.foldl_nil, hword]
  · rw [fxHashBytes, asChunks_short (by omega), fxHashInt, if_neg (by omega)]
    simp only [List.foldl_nil, leBytes, List.foldl_map, shifted_byte]

theorem hashInt_eq {n : ℕ} (h : n ≤ 8) (kind : HasherKind) (v k0 k1 : Word) :
    kind.hashInt v n k0 k1 = kind.hashBytes (leBytes n v) k0 k1 := by
  cases kind with
  | sipHash13 =>
    rw [HasherKind.hashInt, HasherKind.hashBytes, hashU64, Nat.min_eq_left h, ← hashIntWithKey_eq h]
    split_ifs with hn
    · rw [Nat.le_antisymm h hn]
    · rfl
  | fx =>
    rw [HasherKind.hashInt, HasherKind.hashBytes, fxHashU64, Nat.min_eq_left h, ← fxHashInt_eq h]
    split_ifs with hn
    · rw [fxHashInt, if_pos hn]
    · rfl

variable {K V : Type}

/-- The digest of a key held in a register is the digest of its low bytes under both hashers, and a lookup that hashes
the register probes as one that hashes the bytes. -/
theorem fixed_width_hash_agrees (k0 k1 v : Word) (n : ℕ) (hn : 1 ≤ n ∧ n ≤ 8) :
    hashIntWithKey v n k0 k1 = hashBytesWithKey ((leBytes 8 v).take n) k0 k1 ∧
      fxHashInt v n = fxHashBytes ((leBytes 8 v).take n) ∧
      ∀ (kind : HasherKind) (m : KaracMap K V) (eq : ℕ → Bool),
        m.lookupHashed (kind.hashInt v n k0 k1) eq =
          m.lookupHashed (kind.hashBytes ((leBytes 8 v).take n) k0 k1) eq := by
  rw [take_leBytes hn.2]
  refine ⟨hashIntWithKey_eq hn.2 v k0 k1, fxHashInt_eq hn.2 v, fun kind m eq => ?_⟩
  rw [hashInt_eq hn.2]

/-- A two-byte key with dirty high bytes. -/
theorem fixed_width_hash_agrees_two :
    hashIntWithKey 0xdeadbeef 2 1 2 = hashBytesWithKey ((leBytes 8 (0xdeadbeef : Word)).take 2) 1 2 :=
  (fixed_width_hash_agrees (K := Unit) (V := Unit) 1 2 0xdeadbeef 2 (by decide)).1

end Karac.Hash
