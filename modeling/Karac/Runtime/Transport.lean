import Mathlib

/-! A byte stream as the runtime's socket code meets it: reads that return what has arrived, up to the room
in the buffer, and writes that succeed or fail. -/

namespace Karac.Runtime

/-- What one `read` finds: some bytes, at least one, or a signal. -/
inductive Arrival where
  | chunk (first : UInt8) (rest : List UInt8)
  | interrupted
  deriving DecidableEq, Repr

/-- What a `read` returns after the last arrival: `Ok(0)`, or an error other than `Interrupted`. -/
inductive Ending where
  | closed
  | failed
  deriving DecidableEq, Repr

structure Transport where
  arrivals : List Arrival
  ending : Ending
  /-- Whether a `write_all` succeeds, given what was sent before it. -/
  accepts : List UInt8 → List UInt8 → Bool
  sent : List UInt8

namespace Arrival

def bytes : Arrival → List UInt8
  | chunk first rest => first :: rest
  | interrupted => []

end Arrival

namespace Transport

/-- The bytes still to come. -/
def bytes (t : Transport) : List UInt8 := t.arrivals.flatMap Arrival.bytes

def writeAll (t : Transport) (buf : List UInt8) : Bool × Transport :=
  (t.accepts t.sent buf, { t with sent := t.sent ++ buf })

end Transport

/-- The reads of `ws_read_exact_or_eof` with `need` bytes to go: what they put in the buffer and what they
leave. Each takes what has arrived, and the last one leaves the bytes there is no room for. -/
def fillBuffer : List Arrival → ℕ → List UInt8 × List Arrival
  | arrivals, 0 => ([], arrivals)
  | [], _ + 1 => ([], [])
  | .interrupted :: rest, need + 1 => fillBuffer rest (need + 1)
  | .chunk first more :: rest, need + 1 =>
    match more.drop need with
    | [] => let (buf, left) := fillBuffer rest (need - more.length); (first :: more ++ buf, left)
    | b :: bs => (first :: more.take need, .chunk b bs :: rest)

/-- `io::Result<bool>`, with the buffer when it was filled. -/
inductive ReadExact where
  | full (buf : List UInt8)
  | eof
  | failed
  deriving DecidableEq, Repr

/-- `ws_read_exact_or_eof` for a buffer of `need` bytes. -/
def wsReadExactOrEof (t : Transport) (need : ℕ) : ReadExact × Transport :=
  let (buf, left) := fillBuffer t.arrivals need
  (if buf.length = need then .full buf else match t.ending with
    | .closed => .eof
    | .failed => .failed,
   { t with arrivals := left })

theorem fillBuffer_spec (arrivals : List Arrival) (need : ℕ) :
    (fillBuffer arrivals need).1 = (arrivals.flatMap Arrival.bytes).take need ∧
      (fillBuffer arrivals need).2.flatMap Arrival.bytes = (arrivals.flatMap Arrival.bytes).drop need := by
  induction arrivals, need using fillBuffer.induct with
  | case1 arrivals => simp [fillBuffer]
  | case2 need => simp [fillBuffer]
  | case3 rest need ih => simpa [fillBuffer, Arrival.bytes] using ih
  | case4 first more rest need hmore buf left hrec ih =>
    have hlen : more.length ≤ need := List.drop_eq_nil_iff.mp hmore
    rw [hrec] at ih
    simp only [fillBuffer, hmore, hrec, List.flatMap_cons, Arrival.bytes, List.cons_append, List.take_succ_cons,
      List.drop_succ_cons, List.take_append, List.drop_append, List.take_of_length_le hlen, List.nil_append]
    exact ⟨congrArg (first :: more ++ ·) ih.1, ih.2⟩
  | case5 first more rest need b bs hmore =>
    have hlen : need ≤ more.length := by
      by_contra hlt
      rw [List.drop_of_length_le (by omega)] at hmore
      cases hmore
    simp [fillBuffer, hmore, Arrival.bytes, List.take_append_of_le_length hlen, List.drop_append_of_le_length hlen]

/-- The stream after a call for `n` bytes. -/
def Transport.skip (t : Transport) (n : ℕ) : Transport := { t with arrivals := (fillBuffer t.arrivals n).2 }

namespace Transport

variable (t : Transport) (n : ℕ)

@[simp] theorem bytes_skip : (t.skip n).bytes = t.bytes.drop n := (fillBuffer_spec t.arrivals n).2

end Transport

theorem wsReadExactOrEof_full {t : Transport} {n : ℕ} (h : n ≤ t.bytes.length) :
    wsReadExactOrEof t n = (.full (t.bytes.take n), t.skip n) := by
  have hbuf : (fillBuffer t.arrivals n).1 = t.bytes.take n := (fillBuffer_spec t.arrivals n).1
  have hlen : (t.bytes.take n).length = n := List.length_take_of_le h
  simp [wsReadExactOrEof, hbuf, hlen, Transport.skip]

theorem wsReadExactOrEof_short {t : Transport} {n : ℕ} (h : t.bytes.length < n) :
    wsReadExactOrEof t n = (if t.ending = .closed then .eof else .failed, t.skip n) := by
  have hbuf : (fillBuffer t.arrivals n).1 = t.bytes.take n := (fillBuffer_spec t.arrivals n).1
  cases hend : t.ending <;> simp [wsReadExactOrEof, hbuf, h, hend, Transport.skip]

theorem wsReadExactOrEof_append {t : Transport} {x y : List UInt8} (h : t.bytes = x ++ y) :
    wsReadExactOrEof t x.length = (.full x, t.skip x.length) ∧ (t.skip x.length).bytes = y := by
  constructor
  · rw [wsReadExactOrEof_full (by simp [h]), h, List.take_left]
  · rw [Transport.bytes_skip, h, List.drop_left]

end Karac.Runtime
