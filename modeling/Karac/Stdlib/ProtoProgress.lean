import Karac.Stdlib.ProtoMessage

/-! Whether the readers move forward. A length prefix is a varint that becomes an `i64`: from 2^63 on it is negative,
and the cursor moves back over what it has read. -/

namespace Karac.Stdlib.Protobuf

open Lib

/-- The base-128 number that the bytes begin with, and how many bytes it takes. -/
def base128 : List UInt8 → Option (ℕ × ℕ)
  | [] => none
  | b :: rest =>
    if b.toNat < 128 then some (1, b.toNat)
    else (base128 rest).map fun (k, v) => (k + 1, b.toNat % 128 + 128 * v)

/-- The `k` bytes of the length prefix and the bytes that it announces, together. -/
def Spans (r : ProtoReader) (d : ℤ) : Prop :=
  ∃ k v, base128 (r.bytes.drop r.pos.toNat) = some (k, v) ∧ d = k + asI64 (.ofNat v)

/-- The announced bytes do not reach back to where the prefix begins. -/
def Forward (r : ProtoReader) : Prop := ∃ d, Spans r d ∧ 0 < d

namespace Event

/-- A read moves forward, a skipped field does not move back, and a round moves forward. -/
def Advances : Event → Prop
  | .read _ before after => before.pos < after.pos
  | .skip before after => before.pos ≤ after.pos
  | .round before after => before.pos < after.pos

def PrefixForward : Event → Prop
  | .read .readLenDelim before _ => Forward before
  | _ => True

def isLenDelim : Event → Bool
  | .read .readLenDelim _ _ => true
  | _ => false

end Event

theorem base128_pos {bytes : List UInt8} {k v : ℕ} (h : base128 bytes = some (k, v)) : 0 < k := by
  induction bytes generalizing k v with
  | nil => cases h
  | cons b rest ih =>
    unfold base128 at h
    split at h
    · cases h
      exact Nat.one_pos
    · obtain ⟨⟨k', v'⟩, -, heq⟩ := Option.map_eq_some_iff.mp h
      cases heq
      exact Nat.succ_pos k'

/-! The varint loop computes the base-128 number, modulo 2^64. -/

theorem toNat_and_127 (b : UInt8) : (b &&& 127).toNat = b.toNat % 128 := by
  rw [UInt8.toNat_and]
  exact Nat.and_two_pow_sub_one_eq_mod b.toNat 7

theorem and_128_eq_zero_iff (b : UInt8) : b &&& 128 = 0 ↔ b.toNat < 128 := by
  revert b
  decide +kernel

/-- Seven more bits, above those that there are. -/
theorem toNat_or_shiftLeft {result : UInt64} (b : UInt8) {j : ℕ} (hj : j < 10) (hresult : result.toNat < 2 ^ (7 * j)) :
    (result ||| ((b &&& 127).toUInt64 <<< (7 * j).toUInt64)).toNat =
      (result.toNat + 2 ^ (7 * j) * (b.toNat % 128)) % 2 ^ 64 := by
  have hshift : (7 * j).toUInt64.toNat = 7 * j := by
    rw [Nat.toUInt64, UInt64.toNat_ofNat']
    omega
  have hsplit : 2 ^ 64 = 2 ^ (7 * j) * 2 ^ (64 - 7 * j) := by
    rw [← Nat.pow_add]
    congr 1
    omega
  rw [UInt64.toNat_or, UInt64.toNat_shiftLeft, hshift, Nat.mod_eq_of_lt (by omega : 7 * j < 64), UInt8.toNat_toUInt64,
    toNat_and_127, Nat.shiftLeft_eq, hsplit, Nat.mul_comm _ (2 ^ (7 * j)), Nat.mul_mod_mul_left, Nat.or_comm,
    ← Nat.two_pow_add_eq_or_of_lt hresult, Nat.mod_mul, Nat.add_mul_mod_self_left, Nat.mod_eq_of_lt hresult,
    Nat.add_mul_div_left _ _ (Nat.two_pow_pos _), Nat.div_eq_of_lt hresult, Nat.zero_add, Nat.add_comm]

/-! One pass over the program serves both directions: what the length prefixes say gives what the events do, and what
the events do gives what the prefixes say. -/

/-- `A` is given of every event, and `P` is to be shown; `R` are the ways to stop. -/
structure Rules (A P : Event → Prop) (R : Stop → Prop) : Prop where
  trap : R .trap
  prefixes : ∀ before after, Spans before (after.pos - before.pos) → A (.read .readLenDelim before after) →
    P (.read .readLenDelim before after) ∧ before.pos < after.pos
  others : ∀ e : Event, e.isLenDelim = false → e.Advances → P e

/-- What a call leaves of the reader. -/
structure Moved (before after : ProtoReader) : Prop where
  bytes : after.bytes = before.bytes
  within : 0 ≤ before.pos ∧ before.pos < before.bytes.length
  forward : before.pos < after.pos

theorem Moved.trans {r r' r'' : ProtoReader} (h : Moved r r') (h' : Moved r' r'') : Moved r r'' :=
  ⟨h'.bytes.trans h.bytes, h.within, h.forward.trans h'.forward⟩

theorem Moved.skip {r r' r'' : ProtoReader} (h : Moved r r') (hbytes : r''.bytes = r'.bytes) (hpos : r'.pos ≤ r''.pos) :
    Moved r r'' :=
  ⟨hbytes.trans h.bytes, h.within, h.forward.trans_le hpos⟩

section

variable {A P : Event → Prop} {R : Stop → Prop} (hrules : Rules A P R) {α : Type}
include hrules

theorem index_ensures (bytes : List UInt8) (i : ℤ) :
    Traced.Ensures A P R (fun b => 0 ≤ i ∧ bytes[i.toNat]? = some b) (index bytes i) := by
  unfold index
  split
  · exact Traced.ensures_stop hrules.trap
  · rename_i hi
    split
    · rename_i b hb
      exact Traced.ensures_pure ⟨not_lt.mp hi, hb⟩
    · exact Traced.ensures_stop hrules.trap

theorem addI64_ensures (a b : ℤ) : Traced.Ensures A P R (· = a + b) (addI64 a b) := by
  unfold addI64
  split
  · exact Traced.ensures_pure rfl
  · exact Traced.ensures_stop hrules.trap

/-- What the loop reads: the rest of the number, above the bits that it has. -/
structure VarintRest (r : ProtoReader) (j : ℕ) (result : UInt64) (p : UInt64 × ProtoReader) : Prop where
  bytes : p.2.bytes = r.bytes
  within : 0 ≤ r.pos ∧ r.pos < r.bytes.length
  number : ∃ k v, base128 (r.bytes.drop r.pos.toNat) = some (k, v) ∧ p.2.pos = r.pos + k ∧
    p.1.toNat = (result.toNat + 2 ^ (7 * j) * v) % 2 ^ 64

theorem varintLoop_ensures {n j : ℕ} (hj : n + j = 10) {result : UInt64} (hresult : result.toNat < 2 ^ (7 * j))
    (r : ProtoReader) : Traced.Ensures A P R (VarintRest r j result) (r.varintLoop n result) := by
  induction n generalizing j result r with
  | zero => exact Traced.ensures_stop hrules.trap
  | succ n ih =>
    obtain rfl : j = 9 - n := by omega
    unfold ProtoReader.varintLoop
    apply (index_ensures hrules r.bytes r.pos).bind
    rintro b ⟨hpos, hb⟩
    apply (addI64_ensures hrules r.pos 1).bind
    rintro _ rfl
    have hnumber := toNat_or_shiftLeft b (by omega : 9 - n < 10) hresult
    obtain ⟨hlt, hget⟩ := List.getElem?_eq_some_iff.mp hb
    have hwithin : 0 ≤ r.pos ∧ r.pos < r.bytes.length := ⟨hpos, by omega⟩
    have hdrop : r.bytes.drop r.pos.toNat = b :: r.bytes.drop (r.pos.toNat + 1) := by
      rw [List.drop_eq_getElem_cons hlt, hget]
    dsimp only
    split
    · rename_i hlast
      rw [and_128_eq_zero_iff] at hlast
      refine Traced.ensures_pure ⟨rfl, hwithin, 1, b.toNat, ?_, by simp, ?_⟩
      · rw [hdrop, base128, if_pos hlast]
      · rw [hnumber, Nat.mod_eq_of_lt hlast]
    · rename_i hmore
      rw [and_128_eq_zero_iff] at hmore
      have hnext : (result ||| ((b &&& 127).toUInt64 <<< (7 * (9 - n)).toUInt64)).toNat < 2 ^ (7 * (9 - n + 1)) := by
        rw [hnumber]
        apply (Nat.mod_le _ _).trans_lt
        have hbits : b.toNat % 128 ≤ 127 := Nat.le_of_lt_succ (Nat.mod_lt _ (by norm_num))
        have hseven := Nat.mul_le_mul_left (2 ^ (7 * (9 - n))) hbits
        rw [Nat.mul_add, Nat.pow_add]
        omega
      apply (ih (by omega) hnext ⟨r.bytes, r.pos + 1⟩).mono
      rintro p ⟨hbytes, -, k, v, hrest, hafter, hvalue⟩
      refine ⟨hbytes, hwithin, k + 1, b.toNat % 128 + 128 * v, ?_, ?_, ?_⟩
      · have hcursor : (r.pos + 1).toNat = r.pos.toNat + 1 := by omega
        rw [hcursor] at hrest
        rw [hdrop, base128, if_neg hmore, hrest]
        rfl
      · rw [hafter]
        push_cast
        ring
      · rw [hvalue, hnumber, Nat.mod_add_mod]
        congr 1
        ring

/-- What `read_varint` leaves: the number that stands at the cursor. -/
structure VarintRead (r : ProtoReader) (p : UInt64 × ProtoReader) : Prop extends Moved r p.2 where
  number : ∃ k v, base128 (r.bytes.drop r.pos.toNat) = some (k, v) ∧ p.2.pos = r.pos + k ∧ p.1 = .ofNat v

theorem readVarint_ensures (r : ProtoReader) : Traced.Ensures A P R (VarintRead r) r.readVarint := by
  apply (varintLoop_ensures hrules (j := 0) rfl (by decide) r).noting
  rintro p ⟨hbytes, hwithin, k, v, hnumber, hafter, hvalue⟩ -
  have hforward : r.pos < p.2.pos := by
    have := base128_pos hnumber
    omega
  have hread : p.1 = .ofNat v := by
    apply UInt64.toNat_inj.mp
    simpa using hvalue
  exact ⟨hrules.others _ rfl hforward, ⟨hbytes, hwithin, hforward⟩, k, v, hnumber, hafter, hread⟩

/-- The calls other than `read_len_delim`. -/
theorem noting_ensures {op : Op} (hop : op ≠ .readLenDelim) {r : ProtoReader} {x : Run (α × ProtoReader)}
    (hx : Traced.Ensures A P R (fun p => Moved r p.2) x) :
    Traced.Ensures A P R (fun p => Moved r p.2) (x.noting fun p => .read op r p.2) := by
  apply hx.noting
  intro p hp _
  have hlen : Event.isLenDelim (.read op r p.2) = false := by
    cases op <;> first | rfl | exact absurd rfl hop
  exact ⟨hrules.others _ hlen hp.forward, hp⟩

theorem readTag_ensures (r : ProtoReader) : Traced.Ensures A P R (fun p => Moved r p.2) r.readTag := by
  unfold ProtoReader.readTag
  apply noting_ensures hrules (by decide)
  exact (readVarint_ensures hrules r).bind fun p hp => Traced.ensures_pure hp.toMoved

/-- The copied bytes lie within the buffer. -/
theorem copy_ensures (r : ProtoReader) (n : ℕ) (i : ℤ) : Traced.Ensures A P R
    (fun out => out.length = n ∧ (0 < n → 0 ≤ r.pos + i ∧ r.pos + i + n ≤ r.bytes.length)) (r.copy n i) := by
  induction n generalizing i with
  | zero => exact Traced.ensures_pure ⟨rfl, fun h => absurd h (lt_irrefl 0)⟩
  | succ n ih =>
    unfold ProtoReader.copy
    apply (addI64_ensures hrules r.pos i).bind
    rintro _ rfl
    apply (index_ensures hrules r.bytes (r.pos + i)).bind
    rintro b ⟨hpos, hb⟩
    obtain ⟨hlt, -⟩ := List.getElem?_eq_some_iff.mp hb
    apply (ih (i + 1)).bind
    rintro out ⟨hlength, hwithin⟩
    refine Traced.ensures_pure ⟨by rw [List.length_cons, hlength], fun _ => ⟨hpos, ?_⟩⟩
    by_cases hn : 0 < n
    · have hend := (hwithin hn).2
      push_cast
      linarith
    · obtain rfl : n = 0 := Nat.eq_zero_of_not_pos hn
      push_cast
      omega

theorem readLenDelim_ensures (r : ProtoReader) :
    Traced.Ensures A P R (fun p => Moved r p.2 ∧ p.1.length < r.bytes.length) r.readLenDelim := by
  have hread : Traced.Ensures A P R (fun p : List UInt8 × ProtoReader => p.2.bytes = r.bytes ∧
      (0 ≤ r.pos ∧ r.pos < r.bytes.length) ∧ Spans r (p.2.pos - r.pos) ∧ p.1.length < r.bytes.length) (do
        let number ← r.readVarint
        let out ← number.2.copy (asI64 number.1).toNat 0
        let pos ← addI64 number.2.pos (asI64 number.1)
        pure (out, ⟨number.2.bytes, pos⟩)) := by
    apply (readVarint_ensures hrules r).bind
    rintro ⟨v, r'⟩ ⟨⟨hbytes, hwithin, hforward⟩, k, n, hnumber, hafter, hvalue⟩
    apply (copy_ensures hrules r' (asI64 v).toNat 0).bind
    rintro out ⟨hlength, hcopied⟩
    apply (addI64_ensures hrules r'.pos (asI64 v)).bind
    rintro _ rfl
    refine Traced.ensures_pure ⟨hbytes, hwithin, ⟨k, n, hnumber, ?_⟩, ?_⟩
    · simp only at hafter hvalue ⊢
      rw [hafter, ← hvalue]
      ring
    · simp only at hbytes hforward hcopied hlength ⊢
      rw [hbytes] at hcopied
      by_cases hlen : 0 < (asI64 v).toNat
      · have hend := (hcopied hlen).2
        omega
      · omega
  apply hread.noting
  rintro p ⟨hbytes, hwithin, hspans, hlength⟩ hA
  obtain ⟨hP, hforward⟩ := hrules.prefixes r p.2 hspans hA
  exact ⟨hP, ⟨hbytes, hwithin, hforward⟩, hlength⟩

theorem readString_ensures (r : ProtoReader) : Traced.Ensures A P R (fun p => Moved r p.2) r.readString := by
  unfold ProtoReader.readString
  apply noting_ensures hrules (by decide)
  exact (readLenDelim_ensures hrules r).bind fun p hp => Traced.ensures_pure hp.1

theorem fixed_ensures {n : ℕ} (hn : 0 < n) (f : List UInt8 → α) (r : ProtoReader) :
    Traced.Ensures A P R (fun p => Moved r p.2) (do
      let bytes ← r.copy n 0
      let pos ← addI64 r.pos n
      pure (f bytes, (⟨r.bytes, pos⟩ : ProtoReader))) := by
  apply (copy_ensures hrules r n 0).bind
  rintro out ⟨-, hwithin⟩
  apply (addI64_ensures hrules r.pos n).bind
  rintro _ rfl
  obtain ⟨hstart, hend⟩ := hwithin hn
  exact Traced.ensures_pure ⟨rfl, ⟨by omega, by omega⟩, by simp only; omega⟩

theorem readFixed64_ensures (r : ProtoReader) : Traced.Ensures A P R (fun p => Moved r p.2) r.readFixed64 := by
  unfold ProtoReader.readFixed64
  apply noting_ensures hrules (by decide)
  exact fixed_ensures hrules (by decide : 0 < 8) _ r

theorem readFixed32_ensures (r : ProtoReader) : Traced.Ensures A P R (fun p => Moved r p.2) r.readFixed32 := by
  unfold ProtoReader.readFixed32
  apply noting_ensures hrules (by decide)
  exact fixed_ensures hrules (by decide : 0 < 4) _ r

theorem skipField_ensures (r : ProtoReader) (wireType : ℤ) :
    Traced.Ensures A P R (fun r' => r'.bytes = r.bytes ∧ r.pos ≤ r'.pos) (r.skipField wireType) := by
  have hskip : ∀ x : Run ProtoReader, Traced.Ensures A P R (fun r' => r'.bytes = r.bytes ∧ r.pos ≤ r'.pos) x →
      Traced.Ensures A P R (fun r' => r'.bytes = r.bytes ∧ r.pos ≤ r'.pos) (x.noting fun r' => .skip r r') :=
    fun x hx => hx.noting fun r' hr' _ => ⟨hrules.others _ rfl hr'.2, hr'⟩
  have hjump : ∀ n : ℕ, Traced.Ensures A P R (fun r' : ProtoReader => r'.bytes = r.bytes ∧ r.pos ≤ r'.pos) (do
      let pos ← addI64 r.pos n
      pure ⟨r.bytes, pos⟩) := by
    intro n
    apply (addI64_ensures hrules r.pos n).bind
    rintro _ rfl
    exact Traced.ensures_pure ⟨rfl, by simp only; omega⟩
  apply hskip
  split_ifs
  · exact (readVarint_ensures hrules r).bind fun p hp => Traced.ensures_pure ⟨hp.bytes, hp.forward.le⟩
  · exact hjump 8
  · exact (readLenDelim_ensures hrules r).bind fun p hp => Traced.ensures_pure ⟨hp.1.bytes, hp.1.forward.le⟩
  · exact hjump 4
  · exact Traced.ensures_pure ⟨rfl, le_refl r.pos⟩

end

end Karac.Stdlib.Protobuf
