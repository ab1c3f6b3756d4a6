import Mathlib

/-! `String::from_utf8_lossy`: what it does to bytes that are UTF-8 already. -/

namespace Karac.Runtime

/-- The ranges of the bytes that may follow a lead byte; `none` for a byte that starts no scalar. -/
def followers (b0 : UInt8) : Option (List (UInt8 × UInt8)) :=
  let any := (0x80, 0xBF)
  if b0 < 0x80 then some []
  else if b0 < 0xC2 then none
  else if b0 < 0xE0 then some [any]
  else if b0 = 0xE0 then some [(0xA0, 0xBF), any]
  else if b0 = 0xED then some [(0x80, 0x9F), any]
  else if b0 < 0xF0 then some [any, any]
  else if b0 = 0xF0 then some [(0x90, 0xBF), any, any]
  else if b0 < 0xF4 then some [any, any, any]
  else if b0 = 0xF4 then some [(0x80, 0x8F), any, any]
  else none

/-- How many of the bytes lie in their ranges, up to the first that does not. -/
def matching : List (UInt8 × UInt8) → List UInt8 → ℕ
  | (lo, hi) :: ranges, b :: bs => if lo ≤ b ∧ b ≤ hi then matching ranges bs + 1 else 0
  | _, _ => 0

/-- Scalars are kept; U+FFFD stands for a byte that starts none, and for a piece of one. -/
def lossyLoop : ℕ → List UInt8 → List UInt8
  | fuel + 1, b0 :: bs =>
    match followers b0 with
    | none => [0xEF, 0xBF, 0xBD] ++ lossyLoop fuel bs
    | some ranges =>
      let n := matching ranges bs
      (if n = ranges.length then b0 :: bs.take n else [0xEF, 0xBF, 0xBD]) ++ lossyLoop fuel (bs.drop n)
  | _, _ => []

/-- The bytes of the string. Every round takes a byte. -/
def fromUtf8Lossy (bs : List UInt8) : List UInt8 := lossyLoop bs.length bs

abbrev Fits : List (UInt8 × UInt8) → List UInt8 → Prop := List.Forall₂ fun range b => range.1 ≤ b ∧ b ≤ range.2

theorem matching_fits {ranges : List (UInt8 × UInt8)} {bs : List UInt8} (h : Fits ranges bs) (rest : List UInt8) :
    matching ranges (bs ++ rest) = bs.length := by
  induction h with
  | nil => simp [matching]
  | cons hb _ ih => simp [matching, hb, ih]

theorem followers_eq (b0 : UInt8) : followers b0 =
    if b0.toNat < 0x80 then some []
    else if b0.toNat < 0xC2 then none
    else if b0.toNat < 0xE0 then some [(0x80, 0xBF)]
    else if b0.toNat = 0xE0 then some [(0xA0, 0xBF), (0x80, 0xBF)]
    else if b0.toNat = 0xED then some [(0x80, 0x9F), (0x80, 0xBF)]
    else if b0.toNat < 0xF0 then some [(0x80, 0xBF), (0x80, 0xBF)]
    else if b0.toNat = 0xF0 then some [(0x90, 0xBF), (0x80, 0xBF), (0x80, 0xBF)]
    else if b0.toNat < 0xF4 then some [(0x80, 0xBF), (0x80, 0xBF), (0x80, 0xBF)]
    else if b0.toNat = 0xF4 then some [(0x80, 0x8F), (0x80, 0xBF), (0x80, 0xBF)]
    else none := by
  simp only [followers, UInt8.lt_iff_toNat_lt, ← UInt8.toNat_inj]
  rfl

/-- Overlong forms lie below the range of the second byte, surrogates above it. -/
theorem followers_three {b0 : UInt8} (hlo : 0xE0 ≤ b0.toNat) (hhi : b0.toNat < 0xF0) : followers b0 =
    some [(if b0.toNat = 0xE0 then 0xA0 else 0x80, if b0.toNat = 0xED then 0x9F else 0xBF), (0x80, 0xBF)] := by
  rw [followers_eq, if_neg (by omega), if_neg (by omega), if_neg (by omega)]
  by_cases hfirst : b0.toNat = 0xE0
  · simp only [hfirst, if_true]
    rfl
  · rw [if_neg hfirst, if_neg hfirst]
    by_cases hlast : b0.toNat = 0xED
    · rw [if_pos hlast, if_pos hlast]
    · rw [if_neg hlast, if_pos hhi, if_neg hlast]

/-- Overlong forms lie below the range of the second byte, what is past U+10FFFF above it. -/
theorem followers_four {b0 : UInt8} (hlo : 0xF0 ≤ b0.toNat) (hhi : b0.toNat ≤ 0xF4) : followers b0 =
    some [(if b0.toNat = 0xF0 then 0x90 else 0x80, if b0.toNat = 0xF4 then 0x8F else 0xBF), (0x80, 0xBF),
      (0x80, 0xBF)] := by
  rw [followers_eq, if_neg (by omega), if_neg (by omega), if_neg (by omega), if_neg (by omega), if_neg (by omega),
    if_neg (by omega)]
  by_cases hfirst : b0.toNat = 0xF0
  · simp only [hfirst, if_true]
    rfl
  · rw [if_neg hfirst, if_neg hfirst]
    by_cases hlast : b0.toNat = 0xF4
    · rw [if_neg (by omega), if_pos hlast, if_pos hlast]
    · rw [if_pos (by omega), if_neg hlast]

theorem inRange_ofNat {lo hi : UInt8} {x : ℕ} (hlo : lo.toNat ≤ x) (hhi : x ≤ hi.toNat) :
    lo ≤ UInt8.ofNat x ∧ UInt8.ofNat x ≤ hi := by
  have := hi.toNat_lt
  simp only [UInt8.le_iff_toNat_le, UInt8.toNat_ofNat']
  omega

theorem inRange_continuation (x : ℕ) : (0x80 : UInt8) ≤ UInt8.ofNat (x % 64 + 128) ∧ UInt8.ofNat (x % 64 + 128) ≤ 0xBF :=
  inRange_ofNat (Nat.le_add_left _ _) (show x % 64 + 128 ≤ 191 by omega)

/-- A scalar's bytes after the first lie in the ranges that the first asks for. -/
theorem followers_encoded (c : Char) :
    ∃ b0 bs ranges, String.utf8EncodeChar c = b0 :: bs ∧ followers b0 = some ranges ∧ Fits ranges bs := by
  have hscalar : c.val.toNat < 0xD800 ∨ 0xDFFF < c.val.toNat ∧ c.val.toNat < 0x110000 := c.valid
  unfold String.utf8EncodeChar
  simp only
  generalize c.val.toNat = v at hscalar ⊢
  split_ifs with h1 h2 h3
  · refine ⟨_, [], [], rfl, ?_, .nil⟩
    rw [followers_eq, UInt8.toNat_ofNat', if_pos (by omega)]
  · refine ⟨_, [_], [(0x80, 0xBF)], rfl, ?_, .cons (inRange_continuation _) .nil⟩
    rw [followers_eq, UInt8.toNat_ofNat', if_neg (by omega), if_neg (by omega), if_pos (by omega)]
  · have hfirst : (UInt8.ofNat (v / 4096 % 16 + 224)).toNat = v / 4096 % 16 + 224 := by
      rw [UInt8.toNat_ofNat', Nat.mod_eq_of_lt (by omega)]
    refine ⟨_, [_, _], _, rfl, followers_three (by omega) (by omega),
      .cons (inRange_ofNat ?_ ?_) (.cons (inRange_continuation _) .nil)⟩
    · rw [hfirst]
      split_ifs <;> simp <;> omega
    · rw [hfirst]
      split_ifs <;> simp <;> omega
  · have hfirst : (UInt8.ofNat (v / 262144 % 8 + 240)).toNat = v / 262144 % 8 + 240 := by
      rw [UInt8.toNat_ofNat', Nat.mod_eq_of_lt (by omega)]
    refine ⟨_, [_, _, _], _, rfl, followers_four (by omega) (by omega),
      .cons (inRange_ofNat ?_ ?_) (.cons (inRange_continuation _) (.cons (inRange_continuation _) .nil))⟩
    · rw [hfirst]
      split_ifs <;> simp <;> omega
    · rw [hfirst]
      split_ifs <;> simp <;> omega

theorem lossyLoop_encoded {fuel : ℕ} (cs : List Char) (hfuel : (cs.flatMap String.utf8EncodeChar).length ≤ fuel) :
    lossyLoop fuel (cs.flatMap String.utf8EncodeChar) = cs.flatMap String.utf8EncodeChar := by
  induction cs generalizing fuel with
  | nil => cases fuel <;> rfl
  | cons c cs ih =>
    obtain ⟨b0, bs, ranges, henc, hranges, hfits⟩ := followers_encoded c
    rw [List.flatMap_cons, henc, List.cons_append] at hfuel ⊢
    obtain _ | fuel := fuel
    · simp at hfuel
    have hn := matching_fits hfits (cs.flatMap String.utf8EncodeChar)
    simp only [List.length_cons, List.length_append] at hfuel
    rw [lossyLoop, hranges]
    simp only [hn, hfits.length_eq, if_true, List.take_left, List.drop_left]
    rw [ih (by omega)]
    rfl

/-- The bytes of a string stay as they are. -/
theorem fromUtf8Lossy_utf8 (cs : List Char) :
    fromUtf8Lossy (cs.flatMap String.utf8EncodeChar) = cs.flatMap String.utf8EncodeChar :=
  lossyLoop_encoded cs le_rfl

end Karac.Runtime
