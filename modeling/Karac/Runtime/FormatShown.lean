import Karac.Lib.Positional
import Karac.Lib.Computations
import Karac.Runtime.FormatSpec

/-! What the reference formatter shows: a sign, the digits and the padding, if the width is not too much for a
`String`. -/

namespace Karac.Runtime.Format

open Lib

/-! The layout. -/

/-- Sign, digits and padding in their order. -/
def layout {α : Type} (zero blank : α) (zeroPad left : Bool) (width : ℕ) (sign digits : List α) : List α :=
  let pad := width - (sign.length + digits.length)
  if zeroPad ∧ pad > 0 then sign ++ List.replicate pad zero ++ digits
  else if left then sign ++ digits ++ List.replicate pad blank
  else List.replicate pad blank ++ sign ++ digits

theorem layout_map {α β : Type} (f : α → β) (zero blank : α) (zeroPad left : Bool) (width : ℕ) (sign digits : List α) :
    (layout zero blank zeroPad left width sign digits).map f =
      layout (f zero) (f blank) zeroPad left width (sign.map f) (digits.map f) := by
  unfold layout
  simp only [List.length_map, apply_ite (List.map f), List.map_append, List.map_replicate]

/-! The reference. -/

/-- Every character takes one byte. -/
def Narrow (text : Text) : Prop := ∀ c ∈ text, c.utf8Size = 1

theorem Narrow.byteLength {text : Text} (h : Narrow text) : byteLength text = text.length := by
  unfold Format.byteLength
  rw [List.map_congr_left h, List.map_const', List.sum_replicate, smul_eq_mul, Nat.mul_one]

theorem Narrow.bytes {text : Text} (h : Narrow text) :
    text.flatMap String.utf8EncodeChar = text.map fun c => c.val.toUInt8 := by
  induction text with
  | nil => rfl
  | cons c text ih =>
    rw [List.flatMap_cons, List.map_cons, String.utf8EncodeChar_eq_singleton (h c List.mem_cons_self),
      ih fun c' hc' => h c' (List.mem_cons_of_mem c hc')]
    rfl

theorem narrow_replicate {c : Char} (hc : c.utf8Size = 1) (n : ℕ) : Narrow (List.replicate n c) := by
  intro c' hc'
  rw [List.eq_of_mem_replicate hc']
  exact hc

theorem Narrow.append {s t : Text} (hs : Narrow s) (ht : Narrow t) : Narrow (s ++ t) := fun c hc =>
  (List.mem_append.mp hc).elim (hs c) (ht c)

/-- A base, and whether its letters are large. -/
def Radix.base : Radix → ℕ
  | .dec => 10
  | .hex => 16
  | .hexUpper => 16
  | .oct => 8
  | .bin => 2

def Radix.upper (r : Radix) : Bool := r = .hexUpper

variable (spec : FormatSpec)

theorem Radix.base_bounds (r : Radix) : 1 < r.base ∧ r.base ≤ 16 := by
  cases r <;> decide

theorem renderIntMagnitude_eq (mag : ℕ) : spec.renderIntMagnitude mag =
    (Nat.toDigits spec.radix.base mag).map fun c => if spec.radix.upper then c.toUpper else c := by
  unfold FormatSpec.renderIntMagnitude
  cases spec.radix <;> simp [Radix.base, Radix.upper]

theorem narrow_digits (mag : ℕ) : Narrow (spec.renderIntMagnitude mag) := by
  obtain ⟨hb, hb'⟩ := spec.radix.base_bounds
  have hall : ∀ upper : Bool, ∀ d < 16, (if upper then d.digitChar.toUpper else d.digitChar).utf8Size = 1 := by decide
  intro c hc
  rw [renderIntMagnitude_eq] at hc
  obtain ⟨c', hc', heq⟩ := List.mem_map.mp hc
  rw [← heq]
  exact forall_mem_toDigits (P := fun c => (if spec.radix.upper then c.toUpper else c).utf8Size = 1) hb
    (fun d hd => hall _ d (hd.trans_le hb')) mag c' hc'

theorem length_digits {mag : ℕ} (hmag : mag < 2 ^ 128) : (spec.renderIntMagnitude mag).length ≤ 128 := by
  obtain ⟨hb, -⟩ := spec.radix.base_bounds
  rw [renderIntMagnitude_eq, List.length_map, Nat.length_toDigits_le_iff hb (by decide)]
  exact hmag.trans_le (Nat.pow_le_pow_left hb 128)

def signText (neg : Bool) : Text := if neg then ['-'] else []

theorem signText_spec (neg : Bool) : Narrow (signText neg) ∧ (signText neg).length ≤ 1 := by
  cases neg with
  | false => exact ⟨fun c hc => absurd hc List.not_mem_nil, Nat.zero_le 1⟩
  | true => exact ⟨fun c hc => by rw [List.mem_singleton.mp hc]; rfl, le_rfl⟩

theorem concat_narrow {parts : List Text} (h : ∀ t ∈ parts, Narrow t) :
    concat parts = if parts.flatten.length ≤ maxBytes then some parts.flatten else none := by
  unfold concat
  rw [List.map_congr_left fun t ht => (h t ht).byteLength, List.length_flatten]

theorem repeated_narrow {c : Char} (hc : c.utf8Size = 1) (n : ℕ) :
    repeated c n = if n ≤ maxBytes then some (List.replicate n c) else none := by
  rw [repeated, hc, Nat.mul_one]

theorem concat_repeated {c : Char} (hc : c.utf8Size = 1) (n : ℕ) (pre post : List Text) (hpre : ∀ t ∈ pre, Narrow t)
    (hpost : ∀ t ∈ post, Narrow t) : ((repeated c n).bind fun r => concat (pre ++ r :: post)) =
      if pre.flatten.length + n + post.flatten.length ≤ maxBytes then
        some (pre.flatten ++ List.replicate n c ++ post.flatten) else none := by
  have hparts : ∀ t ∈ pre ++ List.replicate n c :: post, Narrow t := by
    intro t ht
    obtain ht | ht := List.mem_append.mp ht
    · exact hpre t ht
    · obtain rfl | ht := List.mem_cons.mp ht
      · exact narrow_replicate hc n
      · exact hpost t ht
  have hflat : (pre ++ List.replicate n c :: post).flatten = pre.flatten ++ List.replicate n c ++ post.flatten := by
    rw [List.flatten_append, List.flatten_cons, List.append_assoc]
  rw [repeated_narrow hc]
  by_cases hn : n ≤ maxBytes
  · rw [if_pos hn, Option.bind_some, concat_narrow hparts, hflat]
    simp only [List.length_append, List.length_replicate]
  · rw [if_neg hn, if_neg (by omega)]
    rfl

variable {spec}

theorem fast_fields (hfast : spec.needsRuntimeFormatter = false) :
    spec.align ≠ some .center ∧ spec.radix ≠ .bin ∧ spec.fill.getD ' ' = ' ' := by
  unfold FormatSpec.needsRuntimeFormatter at hfast
  cases hfill : spec.fill with
  | none => simpa [hfill] using hfast
  | some c => simpa [hfill, and_assoc] using hfast

theorem pad_eq (hfast : spec.needsRuntimeFormatter = false) {body : Text} (hbody : Narrow body)
    (hlen : body.length ≤ 129) : spec.pad body false =
      if spec.width.getD 0 ≤ maxBytes then
        some (if spec.numericAlignLeft then body ++ List.replicate (spec.width.getD 0 - body.length) ' '
          else List.replicate (spec.width.getD 0 - body.length) ' ' ++ body)
      else none := by
  obtain ⟨hcenter, -, hfill⟩ := fast_fields hfast
  have hmax : 129 ≤ maxBytes := by decide
  have hnarrow : ∀ t ∈ [body], Narrow t := fun t ht => List.mem_singleton.mp ht ▸ hbody
  have hnil : ∀ t ∈ ([] : List Text), Narrow t := fun t ht => absurd ht List.not_mem_nil
  unfold FormatSpec.pad FormatSpec.numericAlignLeft
  cases spec.width with
  | none =>
    rw [Option.getD_none, if_pos (Nat.zero_le _), Nat.zero_sub]
    simp
  | some width =>
    simp only [Option.getD_some, hfill]
    by_cases hle : body.length ≥ width
    · rw [if_pos hle, if_pos (by omega), Nat.sub_eq_zero_of_le hle]
      simp
    · have hleft := concat_repeated (c := ' ') rfl (width - body.length) _ _ hnarrow hnil
      have hright := concat_repeated (c := ' ') rfl (width - body.length) _ _ hnil hnarrow
      simp only [List.flatten_cons, List.flatten_nil, List.append_nil, List.nil_append, List.length_nil, Nat.zero_add,
        Nat.add_zero, List.singleton_append] at hleft hright
      rw [if_neg hle]
      have hsum : body.length + (width - body.length) = width := by omega
      rw [hsum] at hleft
      rw [Nat.add_comm, hsum] at hright
      cases halign : spec.align with
      | none => simpa using hright
      | some align =>
        cases align with
        | left => simpa using hleft
        | right => simpa using hright
        | center => exact absurd halign hcenter

/-- The rendering with its padding. -/
def shown (spec : FormatSpec) (neg : Bool) (mag : ℕ) : Text :=
  layout '0' ' ' spec.zeroPad spec.numericAlignLeft (spec.width.getD 0) (signText neg) (spec.renderIntMagnitude mag)

/-- The reference renders unless the width is more than a `String` can hold. -/
theorem applyMagnitude_eq (hfast : spec.needsRuntimeFormatter = false) (neg : Bool) {mag : ℕ} (hmag : mag < 2 ^ 128) :
    spec.applyMagnitude neg mag = if spec.width.getD 0 ≤ maxBytes then some (shown spec neg mag) else none := by
  obtain ⟨hsign, hsignlen⟩ := signText_spec neg
  have hdigits := narrow_digits spec mag
  have hlen := length_digits spec hmag
  have hmax : 129 ≤ maxBytes := by decide
  have hbody : concat [signText neg, spec.renderIntMagnitude mag] =
      some (signText neg ++ spec.renderIntMagnitude mag) := by
    have hparts : ∀ t ∈ [signText neg, spec.renderIntMagnitude mag], Narrow t := by
      simp [hsign, hdigits]
    rw [concat_narrow hparts, List.flatten_cons, List.flatten_cons, List.flatten_nil, List.append_nil,
      if_pos (by rw [List.length_append]; omega)]
  have hpad := pad_eq hfast (hsign.append hdigits) (by rw [List.length_append]; omega)
  have hfold : (if neg then ['-'] else []) = signText neg := rfl
  simp only [FormatSpec.applyMagnitude, shown, layout, hfold]
  generalize spec.renderIntMagnitude mag = digits at *
  by_cases hzero : spec.zeroPad ∧ ∃ width ∈ spec.width, (signText neg).length + digits.length < width
  · obtain ⟨hz, width, hwidth, hlt⟩ := hzero
    have hgetD : spec.width.getD 0 = width := by rw [Option.mem_def.mp hwidth, Option.getD_some]
    have hzeros := concat_repeated (c := '0') rfl (width - ((signText neg).length + digits.length)) [signText neg]
      [digits] (by simpa using hsign) (by simpa using hdigits)
    simp only [List.flatten_cons, List.flatten_nil, List.append_nil, List.singleton_append] at hzeros
    have hsum : (signText neg).length + (width - ((signText neg).length + digits.length)) + digits.length = width := by
      omega
    rw [hsum] at hzeros
    have hpos : spec.zeroPad ∧ width - ((signText neg).length + digits.length) > 0 := ⟨hz, Nat.sub_pos_of_lt hlt⟩
    rw [if_pos ⟨hz, width, hwidth, hlt⟩, hgetD, if_pos hpos]
    exact hzeros
  · have hnot : ¬(spec.zeroPad ∧ spec.width.getD 0 - ((signText neg).length + digits.length) > 0) := by
      intro h
      refine hzero ⟨h.1, ?_⟩
      cases hwidth : spec.width with
      | none => simp [hwidth] at h
      | some width =>
        rw [hwidth, Option.getD_some] at h
        exact ⟨width, rfl, by omega⟩
    rw [if_neg hzero, if_neg hnot]
    refine (congrArg (fun r => r.bind fun body => spec.pad body false) hbody).trans ?_
    rw [Option.bind_some, hpad, List.length_append]
    simp only [List.append_assoc]

theorem shown_narrow (neg : Bool) (mag : ℕ) : Narrow (shown spec neg mag) := by
  obtain ⟨hsign, -⟩ := signText_spec neg
  have hdigits := narrow_digits spec mag
  have hblank := narrow_replicate (c := ' ') rfl
  have hzero := narrow_replicate (c := '0') rfl
  unfold shown layout
  simp only
  split_ifs
  · exact (hsign.append (hzero _)).append hdigits
  · exact (hsign.append hdigits).append (hblank _)
  · exact ((hblank _).append hsign).append hdigits

/-! The bytes. -/

/-- The byte of a digit's character. -/
def charByte (upper : Bool) (c : Char) : UInt8 := (if upper then c.toUpper else c).val.toUInt8

theorem bytes_digits (mag : ℕ) : (spec.renderIntMagnitude mag).map (fun c => c.val.toUInt8) =
    (Nat.toDigits spec.radix.base mag).map (charByte spec.radix.upper) := by
  rw [renderIntMagnitude_eq, List.map_map]
  rfl

/-- The bytes of the rendering, from the digits' bytes. -/
def shownBytes (spec : FormatSpec) (width : ℕ) (neg : Bool) (mag : ℕ) : List UInt8 :=
  layout 48 32 spec.zeroPad spec.numericAlignLeft width (if neg then [45] else [])
    ((Nat.toDigits spec.radix.base mag).map (charByte spec.radix.upper))

theorem bytes_shown (neg : Bool) (mag : ℕ) :
    (shown spec neg mag).flatMap String.utf8EncodeChar = shownBytes spec (spec.width.getD 0) neg mag := by
  have hsign : (signText neg).map (fun c => c.val.toUInt8) = if neg then [45] else [] := by
    cases neg <;> rfl
  rw [(shown_narrow neg mag).bytes, shown, layout_map, bytes_digits, hsign]
  rfl

/-- What a byte counts as a digit. -/
def digitOf (b : UInt8) : ℕ :=
  if b.toNat < 58 then b.toNat - 48 else if b.toNat < 97 then b.toNat - 55 else b.toNat - 87

theorem digitOf_charByte (upper : Bool) {d : ℕ} (hd : d < 16) :
    digitOf (charByte upper d.digitChar) = d ∧ charByte upper d.digitChar ≠ 32 := by
  have hall : ∀ upper : Bool, ∀ d < 16, digitOf (charByte upper d.digitChar) = d ∧ charByte upper d.digitChar ≠ 32 := by
    decide
  exact hall upper d hd

/-- Without blanks, a rendering of a word reads as the word. -/
theorem readDigits_shownBytes (width mag : ℕ) :
    readDigits spec.radix.base digitOf ((shownBytes spec width false mag).filter (· ≠ 32)) = mag := by
  obtain ⟨hb, hb'⟩ := spec.radix.base_bounds
  have hread := readDigits_toDigits hb (fun d hd => (digitOf_charByte spec.radix.upper (hd.trans_le hb')).1) mag
  have hdigits : ((Nat.toDigits spec.radix.base mag).map (charByte spec.radix.upper)).filter (· ≠ 32) =
      (Nat.toDigits spec.radix.base mag).map (charByte spec.radix.upper) := by
    refine List.filter_eq_self.mpr fun c hc => ?_
    obtain ⟨c', hc', heq⟩ := List.mem_map.mp hc
    rw [← heq, decide_eq_true_iff]
    exact forall_mem_toDigits (P := fun c => charByte spec.radix.upper c ≠ 32) hb
      (fun d hd => (digitOf_charByte spec.radix.upper (hd.trans_le hb')).2) mag c' hc'
  have hblank : ∀ k, (List.replicate k (32 : UInt8)).filter (· ≠ 32) = [] := fun k => by
    rw [List.filter_replicate, if_neg (by decide)]
  have hzero : ∀ k, (List.replicate k (48 : UInt8)).filter (· ≠ 32) = List.replicate k 48 := fun k => by
    rw [List.filter_replicate, if_pos (by decide)]
  unfold shownBytes layout
  simp only [Bool.false_eq_true, if_false, List.nil_append]
  split_ifs
  · rw [List.filter_append, hzero, hdigits, readDigits_zeros (by decide), hread]
  · rw [List.filter_append, hblank, hdigits, List.append_nil, hread]
  · rw [List.append_nil, List.filter_append, hblank, hdigits, List.nil_append, hread]

theorem shownBytes_injective {width mag mag' : ℕ}
    (h : shownBytes spec width false mag = shownBytes spec width false mag') :
    mag = mag' := by
  rw [← @readDigits_shownBytes spec width mag, h, readDigits_shownBytes]

/-! The width of a specifier is a `usize`. -/

theorem parseUsize_lt {digits : Text} {n : ℕ} (h : parseUsize digits = some n) : n < 2 ^ 64 := by
  unfold parseUsize at h
  simp only at h
  split_ifs at h with hlt
  rwa [Option.some.inj h] at hlt

theorem parseWidth_lt {chars rest : Text} {width : Option ℕ} (h : parseWidth chars = .ok (width, rest)) :
    width.getD 0 < 2 ^ 64 := by
  unfold parseWidth at h
  simp only at h
  split_ifs at h
  · cases h
    decide
  · cases hn : parseUsize (chars.takeWhile Char.isDigit) with
    | none => simp [hn] at h
    | some n =>
      simp only [hn] at h
      cases h
      exact parseUsize_lt hn

theorem parse_width_lt {raw : Text} (h : parse raw = .ok spec) : spec.width.getD 0 < 2 ^ 64 := by
  unfold parse at h
  simp only at h
  obtain ⟨⟨width, rest⟩, hwidth, h⟩ := ok_of_bind h
  obtain ⟨⟨precision, rest'⟩, -, h⟩ := ok_of_bind h
  obtain ⟨⟨radix, rest''⟩, -, h⟩ := ok_of_bind h
  simp only at h
  split_ifs at h
  cases h
  exact parseWidth_lt hwidth

end Karac.Runtime.Format
