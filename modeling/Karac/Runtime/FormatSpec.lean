import Mathlib

/-! The specifiers of f-string holes, `f"{expr:spec}"`: their parser, and the formatter that the interpreter calls. A
`String` of more than `isize::MAX` bytes cannot be made: `none` is the panic. -/

namespace Karac.Runtime.Format

abbrev Text := List Char

inductive Align
  | left
  | right
  | center
deriving DecidableEq

inductive Radix
  | dec
  | hex
  | hexUpper
  | oct
  | bin
deriving DecidableEq

structure FormatSpec where
  fill : Option Char
  align : Option Align
  zeroPad : Bool
  width : Option ℕ
  precision : Option ℕ
  radix : Radix
deriving DecidableEq

/-! The parser. Each part gives what is left of the text. -/

def alignOf : Char → Option Align
  | '<' => some .left
  | '>' => some .right
  | '^' => some .center
  | _ => none

def loneAlign : Text → Option Char × Option Align × Text
  | [] => (none, none, [])
  | c :: rest => match alignOf c with
    | some a => (none, some a, rest)
    | none => (none, none, c :: rest)

/-- `[[fill] align]`: a fill is one only before an align. -/
def fillAndAlign : Text → Option Char × Option Align × Text
  | fill :: c :: rest => match alignOf c with
    | some a => (some fill, some a, rest)
    | none => loneAlign (fill :: c :: rest)
  | chars => loneAlign chars

/-- `str::parse::<usize>` of decimal digits. -/
def parseUsize (digits : Text) : Option ℕ :=
  let n := Nat.ofDigitChars 10 digits 0
  if n < 2 ^ 64 then some n else none

def parseWidth (chars : Text) : Except Text (Option ℕ × Text) :=
  let w := chars.takeWhile Char.isDigit
  if w = [] then .ok (none, chars)
  else match parseUsize w with
    | some n => .ok (some n, chars.dropWhile Char.isDigit)
    | none => .error ("format spec width `".toList ++ w ++ "` is out of range".toList)

def parsePrecision (raw : Text) : Text → Except Text (Option ℕ × Text)
  | '.' :: chars =>
    let p := chars.takeWhile Char.isDigit
    if p = [] then
      .error ("format spec `".toList ++ raw ++ "`: `.` must be followed by a precision (e.g. `.2`)".toList)
    else match parseUsize p with
      | some n => .ok (some n, chars.dropWhile Char.isDigit)
      | none => .error ("format spec precision `".toList ++ p ++ "` is out of range".toList)
  | chars => .ok (none, chars)

def parseType (raw : Text) : Text → Except Text (Radix × Text)
  | [] => .ok (.dec, [])
  | 'x' :: chars => .ok (.hex, chars)
  | 'X' :: chars => .ok (.hexUpper, chars)
  | 'o' :: chars => .ok (.oct, chars)
  | 'b' :: chars => .ok (.bin, chars)
  | 'd' :: chars => .ok (.dec, chars)
  | other :: _ => .error ("format spec `".toList ++ raw ++ "`: unsupported type `".toList ++ [other] ++
      "` (expected one of x, X, o, b, d)".toList)

def parse (raw : Text) : Except Text FormatSpec :=
  let (fill, align, chars) := fillAndAlign raw
  let zeroPad := chars.head? = some '0'
  do
    let (width, chars) ← parseWidth (if zeroPad then chars.tail else chars)
    let (precision, chars) ← parsePrecision raw chars
    let (radix, chars) ← parseType raw chars
    if chars ≠ [] then
      .error ("format spec `".toList ++ raw ++ "`: unexpected trailing `".toList ++ chars ++ "`".toList)
    else if radix ≠ .dec ∧ precision.isSome then
      .error ("format spec `".toList ++ raw ++ "`: precision is not valid with an integer type".toList)
    else .ok ⟨fill, align, zeroPad, width, precision, radix⟩

/-! The formatter. -/

def byteLength (text : Text) : ℕ := (text.map Char.utf8Size).sum

/-- `isize::MAX`. -/
def maxBytes : ℕ := 2 ^ 63 - 1

/-- `format!` of texts one after the other. -/
def concat (parts : List Text) : Option Text :=
  if (parts.map byteLength).sum ≤ maxBytes then some parts.flatten else none

/-- `str::repeat` of one character. -/
def repeated (c : Char) (n : ℕ) : Option Text :=
  if n * c.utf8Size ≤ maxBytes then some (List.replicate n c) else none

namespace FormatSpec

variable (spec : FormatSpec)

def needsRuntimeFormatter : Bool :=
  spec.align = some .center || spec.radix = .bin || (spec.fill.isSome && spec.fill ≠ some ' ')

def pad (body : Text) (defaultLeft : Bool) : Option Text :=
  match spec.width with
  | none => some body
  | some width =>
    let len := body.length
    if len ≥ width then some body
    else
      let pad := width - len
      let fills := repeated (spec.fill.getD ' ')
      match spec.align.getD (if defaultLeft then .left else .right) with
      | .left => do concat [body, ← fills pad]
      | .right => do concat [← fills pad, body]
      | .center =>
        let left := pad / 2
        do concat [← fills left, body, ← fills (pad - left)]

def renderIntMagnitude (mag : ℕ) : Text :=
  match spec.radix with
  | .dec => Nat.toDigits 10 mag
  | .hex => Nat.toDigits 16 mag
  | .hexUpper => (Nat.toDigits 16 mag).map Char.toUpper
  | .oct => Nat.toDigits 8 mag
  | .bin => Nat.toDigits 2 mag

/-- Zero padding goes between the sign and the digits. -/
def applyMagnitude (neg : Bool) (mag : ℕ) : Option Text :=
  let digits := spec.renderIntMagnitude mag
  let sign := if neg then ['-'] else []
  let shown := sign.length + digits.length
  if spec.zeroPad ∧ ∃ width ∈ spec.width, shown < width then
    do concat [sign, ← repeated '0' (spec.width.getD 0 - shown), digits]
  else do spec.pad (← concat [sign, digits]) false

/-- Only decimal takes the sign; the other radices show the word. -/
def applySigned {w : ℕ} (v : BitVec w) : Option Text :=
  let dec := spec.radix = .dec
  let mag := if dec then v.toInt.natAbs else v.toNat
  spec.applyMagnitude (v.toInt < 0 ∧ dec) mag

def applyInt (v : BitVec 64) : Option Text := spec.applySigned v

def applyUint (v : BitVec 64) : Option Text := spec.applyMagnitude false v.toNat

def applyInt128 (v : BitVec 128) : Option Text := spec.applySigned v

def applyUint128 (v : BitVec 128) : Option Text := spec.applyMagnitude false v.toNat

/-- The radix operand of the fast path. -/
def fastRadixCode : ℤ :=
  match spec.radix with
  | .dec => 10
  | .oct => 8
  | .hex => 16
  | .hexUpper => -16
  | .bin => 2

def numericAlignLeft : Bool := spec.align = some .left

end FormatSpec

end Karac.Runtime.Format
