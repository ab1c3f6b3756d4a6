import Karac.Runtime.WebSocketReceive

/-! When 0 means that the connection ended cleanly. The end of the stream counts as clean at every frame
boundary, and an empty message is 0 bytes long. -/

namespace Karac.Runtime.WebSocket

open Karac.Lib

namespace Frame

abbrev IsControl (f : Frame) : Prop := 0x8 ≤ f.opcode

/-- A Close frame that the protocol allows. -/
structure IsClose (f : Frame) : Prop where
  valid : f.Valid
  fin : f.fin = true
  opcode : f.opcode = 0x8
  short : f.payload.length ≤ 125
  body : closeBodyOk f.payload = true

end Frame

/-- The frames of a message of a kind, `started` once a fragment was sent, with pings and pongs in between. -/
inductive Framing (kind : MessageKind) : Bool → List Frame → Prop
  | last {started : Bool} {f : Frame} (hf : f.Valid) (hfin : f.fin = true)
    (hop : f.opcode = if started then 0x0 else kind.opcode) : Framing kind started [f]
  | fragment {started : Bool} {f : Frame} {fs : List Frame} (hf : f.Valid) (hfin : f.fin = false)
    (hop : f.opcode = if started then 0x0 else kind.opcode) (hrest : Framing kind true fs) : Framing kind started (f :: fs)
  | control {started : Bool} {f : Frame} {fs : List Frame} (hf : f.Valid) (hfin : f.fin = true)
    (hop : f.opcode = 0x9 ∨ f.opcode = 0xA) (hshort : f.payload.length ≤ 125) (hrest : Framing kind started fs) :
    Framing kind started (f :: fs)

/-- The first byte of a message, text or binary. -/
def StartsMessage (b : UInt8) : Prop := b = 0x01 ∨ b = 0x81 ∨ b = 0x02 ∨ b = 0x82

/-- At least one byte of a message is there, behind control frames. -/
def MessageBegun (bs : List UInt8) : Prop :=
  ∃ controls b tail, (∀ c ∈ controls, c.Valid ∧ c.IsControl) ∧ StartsMessage b ∧
    bs = Frame.codec.encodeAll controls ++ b :: tail

/-- A well-formed Close frame is there, before the end of a message. -/
def CloseReceived (bs : List UInt8) : Prop :=
  ∃ fs close tail, (∀ f ∈ fs, f.Valid ∧ (f.IsControl ∨ f.fin = false)) ∧ close.IsClose ∧
    bs = Frame.codec.encodeAll (fs ++ [close]) ++ tail

/-- A message cut off inside is an error. -/
def ReportsTruncation (kind : MessageKind) (outMaxLen : ℕ) (t : Transport) : Prop :=
  ∀ fs missing, Framing kind false fs → missing ≠ [] → t.bytes ++ missing = Frame.codec.encodeAll fs →
    MessageBegun t.bytes → t.ending = .closed → recvValue kind outMaxLen t = some (-1)

/-- 0 is returned for a stream that ended before a message, or for a Close frame. -/
def ZeroMeansClean (kind : MessageKind) (outMaxLen : ℕ) (t : Transport) : Prop :=
  recvValue kind outMaxLen t = some 0 → (t.ending = .closed ∧ ¬MessageBegun t.bytes) ∨ CloseReceived t.bytes

/-- The stream ends with a message under way, behind a whole frame or one byte into the next header. -/
def EndsBetweenFrames (kind : MessageKind) (outMaxLen : ℕ) (t : Transport) : Prop :=
  t.ending = .closed ∧ MessageBegun t.bytes ∧
    ∃ fs q rest, Passes kind outMaxLen t.accepts (callStart t) fs q ∧ t.bytes = Frame.codec.encodeAll fs ++ rest ∧
      rest.length < 2

/-- The message of the stream has no bytes. -/
def EmptyMessage (kind : MessageKind) (outMaxLen : ℕ) (t : Transport) : Prop :=
  ∃ fs q f tail, Passes kind outMaxLen t.accepts (callStart t) fs q ∧ f.Valid ∧ f.fin = true ∧
    f.opcode = (if q.inFragment then 0x0 else kind.opcode) ∧ q.out = [] ∧ f.payload = [] ∧
    t.bytes = Frame.codec.encodeAll (fs ++ [f]) ++ tail

variable {kind : MessageKind} {outMaxLen : ℕ} {accepts : List UInt8 → List UInt8 → Bool} {p q : Progress} {f : Frame}
  {t : Transport}

theorem kind_opcode_lt (kind : MessageKind) : ¬(0x8 : UInt8) ≤ kind.opcode := by
  cases kind <;> decide

theorem dataOpcode_lt {started : Bool} (hop : f.opcode = if started then 0x0 else kind.opcode) : ¬f.IsControl := by
  unfold Frame.IsControl
  rw [hop]
  cases started with
  | true => exact show ¬(0x8 : UInt8) ≤ 0x0 by decide
  | false => exact kind_opcode_lt kind

/-- What a verdict says of a frame that passes. -/
theorem passed_frame (h : f.verdict kind outMaxLen accepts p = .again q) :
    (f.IsControl ∧ ¬f.IsClose ∧ q.inFragment = p.inFragment) ∨
      (¬f.IsControl ∧ f.fin = false ∧ f.opcode = (if p.inFragment then 0x0 else kind.opcode) ∧ q.inFragment = true) := by
  unfold Frame.verdict at h
  dsimp only at h
  by_cases hcontrol : 0x8 ≤ f.opcode
  · have hpass : f.opcode ≠ 0x8 ∧ q.inFragment = p.inFragment := by
      rw [if_pos hcontrol] at h
      split_ifs at h with hbad hclose hping hsent hpong
      · exact ⟨hclose, by rw [← Verdict.again.inj h]⟩
      · exact ⟨hclose, by rw [← Verdict.again.inj h]⟩
    exact .inl ⟨hcontrol, fun hc => hpass.1 hc.opcode, hpass.2⟩
  · rw [if_neg hcontrol] at h
    split_ifs at h with hmid hfirst hbig hfin
    refine .inr ⟨hcontrol, hfin, ?_, by rw [← Verdict.again.inj h]⟩
    cases hp : p.inFragment with
    | true => simpa [hp] using hmid
    | false => simpa [hp] using hfirst

/-- A verdict that stops at a control frame: 0 for a Close frame that the protocol allows. -/
theorem control_stops {value : ℤ} (hcontrol : f.IsControl) (h : f.verdict kind outMaxLen accepts p = .stop value) :
    value = -1 ∨ (value = 0 ∧ f.fin = true ∧ f.opcode = 0x8 ∧ f.payload.length ≤ 125 ∧ closeBodyOk f.payload = true) := by
  unfold Frame.verdict at h
  dsimp only at h
  rw [if_pos hcontrol] at h
  split_ifs at h with hbad hclose hbody hping hsent hpong
  · exact .inl (Verdict.stop.inj h).symm
  · rw [not_or, Bool.not_eq_false, not_lt] at hbad
    exact .inr ⟨(Verdict.stop.inj h).symm, hbad.1, hclose, hbad.2, hbody⟩
  · exact .inl (Verdict.stop.inj h).symm
  · exact .inl (Verdict.stop.inj h).symm
  · exact .inl (Verdict.stop.inj h).symm

/-- A verdict that stops at a data frame: the length of the message at its end. -/
theorem data_stops {value : ℤ} (hdata : ¬f.IsControl) (h : f.verdict kind outMaxLen accepts p = .stop value) :
    value = -1 ∨ (value = (p.out ++ f.payload).length ∧ f.fin = true ∧
      f.opcode = (if p.inFragment then 0x0 else kind.opcode)) := by
  unfold Frame.verdict at h
  dsimp only at h
  rw [if_neg hdata] at h
  split_ifs at h with hmid hfirst hbig hfin htext
  · exact .inl (Verdict.stop.inj h).symm
  · exact .inl (Verdict.stop.inj h).symm
  · exact .inl (Verdict.stop.inj h).symm
  · exact .inl (Verdict.stop.inj h).symm
  · refine .inr ⟨(Verdict.stop.inj h).symm, Bool.not_eq_false _ ▸ hfin, ?_⟩
    cases hp : p.inFragment with
    | true => simpa [hp] using hmid
    | false => simpa [hp] using hfirst

theorem verdict_empty (hfin : f.fin = true) (hop : f.opcode = (if p.inFragment then 0x0 else kind.opcode))
    (hout : p.out = []) (hpayload : f.payload = []) : f.verdict kind outMaxLen accepts p = .stop 0 := by
  have hmid : ¬(p.inFragment = true ∧ f.opcode ≠ 0x0) := by
    rw [hop]
    cases p.inFragment <;> simp
  have hfirst : ¬(¬p.inFragment = true ∧ f.opcode ≠ kind.opcode) := by
    rw [hop]
    cases p.inFragment <;> simp
  have hdata : ¬(0x8 : UInt8) ≤ f.opcode := dataOpcode_lt hop
  rw [Frame.verdict, if_neg hdata, if_neg hmid, if_neg hfirst]
  simp [hout, hpayload, hfin]

theorem not_isClose_of_data (hdata : ¬f.IsControl) : ¬f.IsClose := by
  intro hclose
  apply hdata
  rw [Frame.IsControl, hclose.opcode]
  decide

theorem passed_frames {fs : List Frame} (h : Passes kind outMaxLen accepts p fs q) :
    ∀ f ∈ fs, f.Valid ∧ (f.IsControl ∨ f.fin = false) ∧ ¬f.IsClose := by
  induction h with
  | nil => simp
  | cons hf hstep _ ih =>
    have hfirst := passed_frame hstep
    intro f hmem
    obtain rfl | hmem := List.mem_cons.mp hmem
    · obtain ⟨hcontrol, hclose, -⟩ | ⟨hdata, hfin, -, -⟩ := hfirst
      · exact ⟨hf, .inl hcontrol, hclose⟩
      · exact ⟨hf, .inr hfin, not_isClose_of_data hdata⟩
    · exact ih f hmem

/-! Whether a message has begun. -/

theorem startsMessage_firstByte (hop : f.opcode = kind.opcode) : StartsMessage f.firstByte := by
  unfold StartsMessage Frame.firstByte
  rw [hop]
  cases f.fin <;> cases kind <;> decide

theorem MessageBegun.cons {bs : List UInt8} (hf : f.Valid) (hcontrol : f.IsControl) (h : MessageBegun bs) :
    MessageBegun (f.encode ++ bs) := by
  obtain ⟨controls, b, tail, hcontrols, hb, rfl⟩ := h
  refine ⟨f :: controls, b, tail, ?_, hb, ?_⟩
  · intro c hc
    obtain rfl | hc := List.mem_cons.mp hc
    · exact ⟨hf, hcontrol⟩
    · exact hcontrols c hc
  · rw [PrefixCodec.encodeAll_cons, List.append_assoc]
    rfl

variable (kind) in
theorem messageBegun_frame (hop : f.opcode = kind.opcode) (rest : List UInt8) : MessageBegun (f.encode ++ rest) :=
  ⟨[], f.firstByte, _, by simp, startsMessage_firstByte hop, rfl⟩

/-- Frames that begin no message leave it to what follows. -/
theorem begun_of_passes {fs : List Frame} (h : Passes kind outMaxLen accepts p fs q) (hp : p.inFragment = false)
    {rest : List UInt8} (hrest : q.inFragment = false → MessageBegun rest) :
    MessageBegun (Frame.codec.encodeAll fs ++ rest) := by
  induction h with
  | nil => exact hrest hp
  | cons hf hstep _ ih =>
    rw [PrefixCodec.encodeAll_cons, List.append_assoc]
    obtain ⟨hcontrol, -, hsame⟩ | ⟨-, -, hop, -⟩ := passed_frame hstep
    · exact .cons hf hcontrol (ih (hsame.trans hp) hrest)
    · rw [hp] at hop
      exact messageBegun_frame kind hop _

/-! Whether a Close frame was received. -/

/-- A Close frame stands behind frames that are none. -/
theorem close_behind {fs : List Frame} {rest : List UInt8} (hfs : ∀ f ∈ fs, f.Valid ∧ ¬f.IsClose)
    (h : CloseReceived (Frame.codec.encodeAll fs ++ rest)) :
    ∃ before close tail, (∀ f ∈ fs ++ before, f.Valid ∧ (f.IsControl ∨ f.fin = false)) ∧ close.IsClose ∧
      rest = Frame.codec.encodeAll (before ++ [close]) ++ tail := by
  obtain ⟨gs, close, tail, hgs, hclose, hbytes⟩ := h
  have hvalid : ∀ g ∈ gs ++ [close], Frame.codec.Valid g := by
    intro g hg
    obtain hg | hg := List.mem_append.mp hg
    · exact (hgs g hg).1
    · rw [List.mem_singleton.mp hg]
      exact hclose.valid
  obtain ⟨more, hmore, hrest⟩ | ⟨more, hmore, -⟩ :=
    Frame.codec.encodeAll_split (fun f hf => (hfs f hf).1) hvalid hbytes
  · obtain rfl | ⟨before, last, rfl⟩ := List.eq_nil_or_concat' more
    · rw [List.append_nil] at hmore
      exact absurd hclose (hfs close (by simp [← hmore])).2
    · rw [← List.append_assoc] at hmore
      obtain ⟨rfl, hlast⟩ := List.append_inj' hmore rfl
      obtain rfl := List.singleton_inj.mp hlast
      exact ⟨before, _, tail, hgs, hclose, hrest⟩
  · exact absurd hclose (hfs close (by simp [hmore])).2

theorem not_closeReceived_short {fs : List Frame} {rest : List UInt8} (hfs : ∀ f ∈ fs, f.Valid ∧ ¬f.IsClose)
    (hrest : rest.length < 2) : ¬CloseReceived (Frame.codec.encodeAll fs ++ rest) := by
  intro h
  obtain ⟨before, close, tail, -, -, rfl⟩ := close_behind hfs h
  have hlen : 2 ≤ (Frame.codec.encode close).length := by
    change 2 ≤ close.encode.length
    simp [Frame.encode]
  simp only [PrefixCodec.encodeAll_append, PrefixCodec.encodeAll_cons, PrefixCodec.encodeAll_nil, List.length_append] at hrest
  omega

theorem not_closeReceived_ended {fs : List Frame} {tail : List UInt8} (hfs : ∀ g ∈ fs, g.Valid ∧ ¬g.IsClose)
    (hf : f.Valid) (hdata : ¬f.IsControl) (hfin : f.fin = true) :
    ¬CloseReceived (Frame.codec.encodeAll (fs ++ [f]) ++ tail) := by
  intro h
  have hall : ∀ g ∈ fs ++ [f], g.Valid ∧ ¬g.IsClose := by
    intro g hg
    obtain hg | hg := List.mem_append.mp hg
    · exact hfs g hg
    · rw [List.mem_singleton.mp hg]
      exact ⟨hf, not_isClose_of_data hdata⟩
  obtain ⟨before, close, tail', hbefore, -, -⟩ := close_behind hall h
  obtain hcontrol | hmore := (hbefore f (by simp)).2
  · exact hdata hcontrol
  · rw [hfin] at hmore
    cases hmore

/-! The two ways to return 0 without a clean end. -/

theorem decode_short {bs : List UInt8} (h : bs.length < 2) : Frame.decode bs = none := by
  cases bs with
  | nil => rfl
  | cons b bs =>
    obtain rfl := List.length_eq_zero_iff.mp (show bs.length = 0 by simp only [List.length_cons] at h; omega)
    rfl

theorem not_zeroMeansClean_of_endsBetween (h : EndsBetweenFrames kind outMaxLen t) : ¬ZeroMeansClean kind outMaxLen t := by
  obtain ⟨hclosed, hbegun, fs, q, rest, hpasses, hbytes, hrest⟩ := h
  intro hclean
  have hframes := passed_frames hpasses
  have hzero : recvValue kind outMaxLen t = some 0 := by
    have hreturns : ReturnsAt kind outMaxLen t.accepts t.ending q rest _ := .cut (decode_short hrest)
    rw [if_pos ⟨hrest, hclosed⟩] at hreturns
    exact recvValue_passes hpasses hbytes hreturns
  obtain ⟨-, hnot⟩ | hclose := hclean hzero
  · exact hnot hbegun
  · rw [hbytes] at hclose
    exact not_closeReceived_short (fun f hf => ⟨(hframes f hf).1, (hframes f hf).2.2⟩) hrest hclose

theorem not_zeroMeansClean_of_empty (h : EmptyMessage kind outMaxLen t) : ¬ZeroMeansClean kind outMaxLen t := by
  obtain ⟨fs, q, f, tail, hpasses, hf, hfin, hop, hout, hpayload, hbytes⟩ := h
  intro hclean
  have hframes := passed_frames hpasses
  have hsplit : Frame.codec.encodeAll (fs ++ [f]) ++ tail = Frame.codec.encodeAll fs ++ (f.encode ++ tail) :=
    Frame.codec.encodeAll_concat fs f tail
  have hzero : recvValue kind outMaxLen t = some 0 :=
    recvValue_passes hpasses (hbytes.trans hsplit) (.frame hf (verdict_empty hfin hop hout hpayload))
  obtain ⟨-, hnot⟩ | hclose := hclean hzero
  · apply hnot
    rw [hbytes, hsplit]
    refine begun_of_passes hpasses rfl fun hq => ?_
    rw [hq] at hop
    exact messageBegun_frame kind hop tail
  · rw [hbytes] at hclose
    exact not_closeReceived_ended (fun g hg => ⟨(hframes g hg).1, (hframes g hg).2.2⟩) hf (dataOpcode_lt hop) hfin hclose

theorem zeroMeansClean (hbetween : ¬EndsBetweenFrames kind outMaxLen t) (hempty : ¬EmptyMessage kind outMaxLen t) :
    ZeroMeansClean kind outMaxLen t := by
  intro hzero
  obtain ⟨fs, q, rest, value, hpasses, hbytes, hreturns⟩ :=
    exists_passes kind outMaxLen t.accepts t.ending (callStart t) t.bytes
  have hframes := passed_frames hpasses
  have hvalue : value = 0 := Option.some.inj ((recvValue_passes hpasses hbytes hreturns).symm.trans hzero)
  cases hreturns with
  | @frame f tail _ hf hverdict =>
    have hsplit : t.bytes = Frame.codec.encodeAll (fs ++ [f]) ++ tail :=
      hbytes.trans (Frame.codec.encodeAll_concat fs f tail).symm
    by_cases hcontrol : f.IsControl
    · obtain hminus | ⟨-, hfin, hop, hshort, hbody⟩ := control_stops hcontrol hverdict
      · omega
      · exact .inr ⟨fs, f, tail, fun g hg => ⟨(hframes g hg).1, (hframes g hg).2.1⟩, ⟨hf, hfin, hop, hshort, hbody⟩, hsplit⟩
    · obtain hminus | ⟨hlen, hfin, hop⟩ := data_stops hcontrol hverdict
      · omega
      · have hnil : q.out ++ f.payload = [] := List.length_eq_zero_iff.mp (by omega)
        obtain ⟨hout, hpayload⟩ := List.append_eq_nil_iff.mp hnil
        exact absurd ⟨fs, q, f, tail, hpasses, hf, hfin, hop, hout, hpayload, hsplit⟩ hempty
  | cut hcut =>
    split_ifs at hvalue with hshort
    exact .inl ⟨hshort.2, fun hbegun => hbetween ⟨hshort.2, hbegun, fs, q, rest, hpasses, hbytes, hshort.1⟩⟩

/-! Messages that are cut off. -/

theorem Framing.valid {started : Bool} {fs : List Frame} (h : Framing kind started fs) : ∀ f ∈ fs, f.Valid := by
  induction h with
  | last hf => exact fun f hmem => List.mem_singleton.mp hmem ▸ hf
  | fragment hf _ _ _ ih => exact List.forall_mem_cons.mpr ⟨hf, ih⟩
  | control hf _ _ _ _ ih => exact List.forall_mem_cons.mpr ⟨hf, ih⟩

/-- Before its last frame a message has fragments, pings and pongs. -/
theorem Framing.inner {started : Bool} {fs before more : List Frame} (h : Framing kind started fs)
    (hfs : fs = before ++ f :: more) (hmore : more ≠ []) : f.opcode ≠ 0x8 ∧ (f.IsControl ∨ f.fin = false) := by
  induction h generalizing before with
  | last hf hfin hop =>
    have hlen := congrArg List.length hfs
    have hpos := List.length_pos_iff.mpr hmore
    simp only [List.length_append, List.length_cons, List.length_nil] at hlen
    omega
  | fragment hf hfin hop _ ih =>
    cases before with
    | nil =>
      obtain ⟨rfl, -⟩ := List.cons.inj hfs
      exact ⟨fun hclose => dataOpcode_lt hop (by rw [Frame.IsControl, hclose]; decide), .inr hfin⟩
    | cons g before => exact ih (List.cons.inj hfs).2
  | control hf hfin hop _ _ ih =>
    cases before with
    | nil =>
      obtain ⟨rfl, -⟩ := List.cons.inj hfs
      obtain hop | hop := hop
      · exact ⟨by rw [hop]; decide, .inl (by rw [Frame.IsControl, hop]; decide)⟩
      · exact ⟨by rw [hop]; decide, .inl (by rw [Frame.IsControl, hop]; decide)⟩
    | cons g before => exact ih (List.cons.inj hfs).2

theorem reportsTruncation (hbetween : ¬EndsBetweenFrames kind outMaxLen t) : ReportsTruncation kind outMaxLen t := by
  intro fs₀ missing hframing hmissing hcut hbegun hclosed
  obtain ⟨fs, q, rest, value, hpasses, hbytes, hreturns⟩ :=
    exists_passes kind outMaxLen t.accepts t.ending (callStart t) t.bytes
  rw [recvValue_passes hpasses hbytes hreturns]
  congr 1
  cases hreturns with
  | @frame f tail _ hf hverdict =>
    have hread : Frame.codec.encodeAll (fs ++ [f]) ++ (tail ++ missing) = Frame.codec.encodeAll fs₀ ++ [] := by
      rw [Frame.codec.encodeAll_concat, List.append_nil, ← hcut, hbytes]
      simp only [List.append_assoc]
      rfl
    have hvalid : ∀ g ∈ fs ++ [f], Frame.codec.Valid g := by
      intro g hg
      obtain hg | hg := List.mem_append.mp hg
      · exact (passed_frames hpasses g hg).1
      · rw [List.mem_singleton.mp hg]
        exact hf
    obtain ⟨more, hmore, hrest⟩ | ⟨more, -, hnil⟩ := Frame.codec.encodeAll_split hvalid hframing.valid hread
    · have hne : more ≠ [] := by
        rintro rfl
        exact hmissing (List.append_eq_nil_iff.mp hrest).2
      rw [List.append_assoc] at hmore
      obtain ⟨hop, hinner⟩ := hframing.inner hmore hne
      by_cases hcontrol : f.IsControl
      · obtain hminus | ⟨-, -, hclose, -⟩ := control_stops hcontrol hverdict
        · exact hminus
        · exact absurd hclose hop
      · obtain hminus | ⟨-, hfin, -⟩ := data_stops hcontrol hverdict
        · exact hminus
        · rw [hinner.resolve_left hcontrol] at hfin
          cases hfin
    · have hboth := List.append_eq_nil_iff.mp hnil.symm
      exact absurd (List.append_eq_nil_iff.mp hboth.2).2 hmissing
  | cut hread =>
    split_ifs with hshort
    · exact absurd ⟨hclosed, hbegun, fs, q, rest, hpasses, hbytes, hshort.1⟩ hbetween
    · rfl

/-- A message cut off inside is reported and 0 means a clean end if and only if the stream does not end
between two frames of a message and brings no empty message. -/
theorem clean_end_iff (kind : MessageKind) (outMaxLen : ℕ) (t : Transport) :
    (ReportsTruncation kind outMaxLen t ∧ ZeroMeansClean kind outMaxLen t) ↔
      ¬EndsBetweenFrames kind outMaxLen t ∧ ¬EmptyMessage kind outMaxLen t := by
  constructor
  · intro h
    exact ⟨fun hbetween => not_zeroMeansClean_of_endsBetween hbetween h.2,
      fun hempty => not_zeroMeansClean_of_empty hempty h.2⟩
  · intro h
    exact ⟨reportsTruncation h.1, zeroMeansClean h.1 h.2⟩

/-- A stream of those bytes in one piece, at whose end the peer has closed. -/
def closedAfter (first : UInt8) (rest : List UInt8) : Transport :=
  ⟨[.chunk first rest], .closed, fun _ _ => true, []⟩

/-- A text message of two fragments, cut off behind the first one: the call returns 0. -/
theorem truncated_message_ends_cleanly :
    ¬(ReportsTruncation .text 16 (closedAfter 0x01 [0x81, 0, 0, 0, 0, 0x68]) ∧
      ZeroMeansClean .text 16 (closedAfter 0x01 [0x81, 0, 0, 0, 0, 0x68])) := by
  intro h
  apply not_zeroMeansClean_of_endsBetween _ h.2
  have hvalid : (⟨false, 0x1, .short, [0, 0, 0, 0], [0x68]⟩ : Frame).Valid := ⟨by decide, show 1 ≤ 125 by omega, rfl⟩
  refine ⟨rfl, messageBegun_frame .text (f := ⟨false, 0x1, .short, [0, 0, 0, 0], [0x68]⟩) rfl [], ?_⟩
  exact ⟨[⟨false, 0x1, .short, [0, 0, 0, 0], [0x68]⟩], ⟨[0x68], true, []⟩, [], .cons hvalid (by decide) .nil, by decide,
    by decide⟩

end Karac.Runtime.WebSocket
