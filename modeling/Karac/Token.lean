import Mathlib

/-! Positions in the source text. -/

namespace Karac

structure Span where
  line : ℕ
  column : ℕ
  offset : ℕ
  length : ℕ
  deriving DecidableEq, Repr

end Karac
