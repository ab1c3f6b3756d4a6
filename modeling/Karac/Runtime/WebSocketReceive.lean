import Karac.Runtime.WebSocketCodec

/-! What ends a call of `ws_recv_data_frame_inner`: the frames it passes, and the frame or the piece of one
that it returns at. -/

namespace Karac.Runtime.WebSocket

open Karac.Lib

/-- What was written after a frame to the client, and whether all of it went out. -/
def sendFrame (accepts : List UInt8 → List UInt8 → Bool) (sent : List UInt8) (opcode : UInt8) (payload : List UInt8) :
    Bool × List UInt8 :=
  let header := unmaskedHeader opcode payload.length
  if !accepts sent header then (false, sent ++ header)
  else if payload.isEmpty then (true, sent ++ header)
  else (accepts (sent ++ header) payload, sent ++ header ++ payload)

theorem wsWriteUnmaskedFrame_eq (t : Transport) (opcode : UInt8) (payload : List UInt8) :
    wsWriteUnmaskedFrame t opcode payload =
      ((sendFrame t.accepts t.sent opcode payload).1, { t with sent := (sendFrame t.accepts t.sent opcode payload).2 }) := by
  unfold wsWriteUnmaskedFrame sendFrame Transport.writeAll
  dsimp only
  split_ifs <;> rfl

/-! The loop on whole frames. -/

/-- The body of a Close frame: empty, or a valid code and a reason in UTF-8. -/
def closeBodyOk : List UInt8 → Bool
  | [] => true
  | [_] => false
  | c0 :: c1 :: reason => wsCloseCodeValid (fromBeBytes [c0, c1]) && isUtf8 reason

/-- The message so far, and what was sent in answer. -/
structure Progress where
  out : List UInt8
  inFragment : Bool
  sent : List UInt8
  deriving DecidableEq

inductive Verdict where
  | stop (value : ℤ)
  | again (p : Progress)
  deriving DecidableEq

/-- What a whole frame does to the call. -/
def Frame.verdict (kind : MessageKind) (outMaxLen : ℕ) (accepts : List UInt8 → List UInt8 → Bool) (p : Progress)
    (f : Frame) : Verdict :=
  if 0x8 ≤ f.opcode then
    if f.fin = false ∨ 125 < f.payload.length then .stop (-1)
    else if f.opcode = 0x8 then .stop (if closeBodyOk f.payload then 0 else -1)
    else if f.opcode = 0x9 then
      let pong := sendFrame accepts p.sent 0xA f.payload
      if pong.1 then .again { p with sent := pong.2 } else .stop (-1)
    else if f.opcode = 0xA then .again p
    else .stop (-1)
  else if p.inFragment ∧ f.opcode ≠ 0x0 then .stop (-1)
  else if ¬p.inFragment ∧ f.opcode ≠ kind.opcode then .stop (-1)
  else if outMaxLen < p.out.length + f.payload.length then .stop (-1)
  else if f.fin = false then .again { p with out := p.out ++ f.payload, inFragment := true }
  else if kind = .text ∧ p.out ++ f.payload ≠ [] ∧ !isUtf8 (p.out ++ f.payload) then .stop (-1)
  else .stop (p.out ++ f.payload).length

/-- A round does what the verdict on the frame says, and leaves the bytes behind the frame. -/
inductive Turn.Meets (t : Transport) (rest : List UInt8) : Turn → Verdict → Prop
  | stop {result : ℤ × Transport} {value : ℤ} (h : result.1 = value) : Meets t rest (.stop result) (.stop value)
  | again {t' : Transport} {p : Progress} (hrest : t'.bytes = rest) (hending : t'.ending = t.ending)
    (haccepts : t'.accepts = t.accepts) (hsent : t'.sent = p.sent) :
    Meets t rest (.again ⟨p.out, p.inFragment⟩ t') (.again p)

theorem Turn.Meets.of_same {t t' : Transport} {rest : List UInt8} {turn : Turn} {verdict : Verdict}
    (h : turn.Meets t' rest verdict) (hending : t'.ending = t.ending) (haccepts : t'.accepts = t.accepts) :
    turn.Meets t rest verdict := by
  cases h with
  | stop h => exact .stop h
  | again hrest hending' haccepts' hsent =>
    exact .again hrest (hending'.trans hending) (haccepts'.trans haccepts) hsent

variable {kind : MessageKind} {outMaxLen : ℕ} {r : Reassembly} {t : Transport} {rest : List UInt8}

theorem closeFrame_value (t : Transport) (body : List UInt8) :
    (closeFrame t body).1 = if closeBodyOk body then 0 else -1 := by
  cases body with
  | nil => rfl
  | cons c0 body =>
  cases body with
  | nil => rfl
  | cons c1 reason =>
    by_cases hcode : wsCloseCodeValid (fromBeBytes [c0, c1])
    · by_cases hreason : isUtf8 reason <;> simp [closeFrame, closeBodyOk, wsFailClose, hcode, hreason]
    · simp [closeFrame, closeBodyOk, wsFailClose, hcode]

/-- The length is read from its bytes. -/
theorem readPayloadLen_extra {form : LengthForm} {len : ℕ} (hlen : form.Holds len) {t : Transport} {rest : List UInt8}
    (ht : t.bytes = form.extra len ++ rest) :
    ∃ t', readPayloadLen (form.len7 len).toNat t = (.known len, t') ∧ t'.bytes = rest ∧ t'.ending = t.ending ∧
      t'.accepts = t.accepts ∧ t'.sent = t.sent := by
  cases form with
  | short =>
    have hle : len ≤ 125 := hlen
    have hnat : (UInt8.ofNat len).toNat = len := by
      rw [UInt8.toNat_ofNat']
      omega
    exact ⟨t, by simp [readPayloadLen, LengthForm.len7, hnat, hle], ht, rfl, rfl, rfl⟩
  | medium =>
    have hbound : len < 256 ^ 2 := hlen
    obtain ⟨hread, hrest⟩ := wsReadExactOrEof_append ht
    rw [LengthForm.extra, length_toBeBytes] at hread hrest
    refine ⟨t.skip 2, ?_, hrest, rfl, rfl, rfl⟩
    change readPayloadLen 126 t = _
    rw [readPayloadLen, if_neg (by decide), if_pos rfl, hread]
    simp only [fromBeBytes_toBeBytes, Nat.mod_eq_of_lt hbound]
  | long =>
    have hbound : len < 2 ^ 63 := hlen
    obtain ⟨hread, hrest⟩ := wsReadExactOrEof_append ht
    rw [LengthForm.extra, length_toBeBytes] at hread hrest
    have hval : fromBeBytes (toBeBytes 8 len) = len := by
      rw [fromBeBytes_toBeBytes, Nat.mod_eq_of_lt (by omega)]
    have htop : ¬((toBeBytes 8 len).headD 0 &&& 0x80 ≠ 0) := by
      rw [topBit_fromBeBytes (length_toBeBytes 8 len), hval]
      omega
    refine ⟨t.skip 8, ?_, hrest, rfl, rfl, rfl⟩
    change readPayloadLen 127 t = _
    rw [readPayloadLen, if_neg (by decide), if_neg (by decide), hread]
    simp only [if_neg htop, hval]

/-- A control frame's body does what the verdict says. -/
theorem controlFrame_meets (opcode : UInt8) (body : List UInt8) {t' : Transport} (hrest : t'.bytes = rest)
    (hending : t'.ending = t.ending) (haccepts : t'.accepts = t.accepts) (hsent : t'.sent = t.sent) :
    (controlFrame opcode body r t').Meets t rest
      (if opcode = 0x8 then .stop (if closeBodyOk body then 0 else -1)
       else if opcode = 0x9 then
         let pong := sendFrame t.accepts t.sent 0xA body
         if pong.1 then .again ⟨r.out, r.inFragment, pong.2⟩ else .stop (-1)
       else if opcode = 0xA then .again ⟨r.out, r.inFragment, t.sent⟩
       else .stop (-1)) := by
  unfold controlFrame
  by_cases hclose : opcode = 0x8
  · rw [if_pos hclose, if_pos hclose]
    exact .stop (closeFrame_value t' body)
  rw [if_neg hclose, if_neg hclose]
  by_cases hping : opcode = 0x9
  · rw [if_pos hping, if_pos hping, wsWriteUnmaskedFrame_eq, hsent, ← haccepts]
    dsimp only
    split_ifs with hok
    · exact .again (p := ⟨r.out, r.inFragment, _⟩) hrest hending haccepts rfl
    · exact .stop rfl
  rw [if_neg hping, if_neg hping]
  split_ifs with hpong
  · exact .again (p := ⟨r.out, r.inFragment, _⟩) hrest hending haccepts hsent
  · exact .stop rfl

theorem dataFrame_meets (fin : Bool) (out : List UInt8) {t' : Transport} (hrest : t'.bytes = rest)
    (hending : t'.ending = t.ending) (haccepts : t'.accepts = t.accepts) (hsent : t'.sent = t.sent) :
    (dataFrame kind fin out t').Meets t rest
      (if fin = false then .again ⟨out, true, t.sent⟩
       else if kind = .text ∧ out ≠ [] ∧ !isUtf8 out then .stop (-1)
       else .stop out.length) := by
  unfold dataFrame
  cases fin with
  | false => exact .again (p := ⟨out, true, _⟩) hrest hending haccepts hsent
  | true =>
    rw [if_neg (show ¬(!true) = true by decide), if_neg (show ¬true = false by decide)]
    split_ifs with hutf8
    · exact .stop rfl
    · exact .stop rfl

variable (kind outMaxLen r) in
/-- The payload is read, unless its header is refused before. -/
theorem framePayload_meets (f : Frame) (ht : t.bytes = applyMask f.mask f.payload ++ rest) :
    (framePayload kind outMaxLen f.fin f.opcode f.payload.length f.mask r t).Meets t rest
      (f.verdict kind outMaxLen t.accepts ⟨r.out, r.inFragment, t.sent⟩) := by
  obtain ⟨hread, hrest⟩ := wsReadExactOrEof_append ht
  rw [length_applyMask] at hread hrest
  unfold framePayload Frame.verdict
  rw [hread]
  dsimp only
  rw [applyMask_applyMask]
  by_cases hcontrol : 0x8 ≤ f.opcode
  · rw [if_pos hcontrol, if_pos hcontrol]
    by_cases hbad : f.fin = false ∨ 125 < f.payload.length
    · rw [if_pos (by simpa using hbad), if_pos hbad]
      exact .stop rfl
    · rw [if_neg (by simpa using hbad), if_neg hbad]
      exact controlFrame_meets f.opcode f.payload hrest rfl rfl rfl
  · rw [if_neg hcontrol, if_neg hcontrol]
    by_cases hmid : r.inFragment ∧ f.opcode ≠ 0x0
    · rw [if_pos hmid, if_pos hmid]
      exact .stop rfl
    rw [if_neg hmid, if_neg hmid]
    by_cases hfirst : ¬r.inFragment ∧ f.opcode ≠ kind.opcode
    · rw [if_pos hfirst, if_pos hfirst]
      exact .stop rfl
    rw [if_neg hfirst, if_neg hfirst]
    by_cases hbig : outMaxLen < r.out.length + f.payload.length
    · rw [if_pos hbig, if_pos hbig]
      exact .stop rfl
    rw [if_neg hbig, if_neg hbig]
    exact dataFrame_meets f.fin (r.out ++ f.payload) hrest rfl rfl rfl

theorem turn_header {b0 b1 : UInt8} {bs : List UInt8} (ht : t.bytes = b0 :: b1 :: bs) :
    turn kind outMaxLen r t = afterHeader kind outMaxLen b0 b1 r (t.skip 2) := by
  have hread : wsReadExactOrEof t 2 = (.full [b0, b1], t.skip 2) := (wsReadExactOrEof_append (x := [b0, b1]) ht).1
  unfold turn
  rw [hread]
  rfl

variable (kind outMaxLen r) in
/-- A round on a whole frame does what the verdict says. -/
theorem turn_frame {f : Frame} (hf : f.Valid) (ht : t.bytes = f.encode ++ rest) :
    (turn kind outMaxLen r t).Meets t rest (f.verdict kind outMaxLen t.accepts ⟨r.out, r.inFragment, t.sent⟩) := by
  obtain ⟨hrsv, hop, hfin⟩ := bits_firstByte f.opcode hf.opcode_lt f.fin
  obtain ⟨hmasked, h7⟩ := bits_secondByte _ (Frame.len7_lt hf.holds)
  have hbytes₀ : (t.skip 2).bytes =
      f.form.extra f.payload.length ++ (f.mask ++ (applyMask f.mask f.payload ++ rest)) := by
    simp [ht, Frame.encode]
  obtain ⟨t₁, hlen, hbytes₁, hending₁, haccepts₁, hsent₁⟩ := readPayloadLen_extra hf.holds hbytes₀
  obtain ⟨hmask, hbytes₂⟩ := wsReadExactOrEof_append hbytes₁
  rw [hf.mask_length] at hmask hbytes₂
  have hpay := framePayload_meets kind outMaxLen r f hbytes₂
  have hending : (t₁.skip 4).ending = t.ending := hending₁
  have haccepts : (t₁.skip 4).accepts = t.accepts := haccepts₁
  have hsent : (t₁.skip 4).sent = t.sent := hsent₁
  have hturn : turn kind outMaxLen r t =
      framePayload kind outMaxLen f.fin f.opcode f.payload.length f.mask r (t₁.skip 4) := by
    rw [turn_header ht, afterHeader, Frame.firstByte, Frame.secondByte, hrsv, hop, hfin, h7, if_neg (by simpa using hmasked),
      hlen]
    dsimp only
    rw [hmask]
  rw [haccepts, hsent] at hpay
  rw [hturn]
  exact hpay.of_same hending haccepts

/-! Where the stream is cut. -/

theorem wsReadExactOrEof_not_full {n : ℕ} (h : t.bytes.length < n) :
    wsReadExactOrEof t n = (.eof, t.skip n) ∨ wsReadExactOrEof t n = (.failed, t.skip n) := by
  rw [wsReadExactOrEof_short h]
  split_ifs
  · exact .inl rfl
  · exact .inr rfl

theorem readPayloadLen_cut {len7 : UInt8} (h : Frame.decodeLen len7 t.bytes = none) :
    ∃ t', readPayloadLen len7.toNat t = (.cut, t') ∨ readPayloadLen len7.toNat t = (.topBitSet, t') := by
  unfold Frame.decodeLen at h
  have h125 : len7 ≤ 125 ↔ len7.toNat ≤ 125 := UInt8.le_iff_toNat_le
  have h126 : len7 = 126 ↔ len7.toNat = 126 := UInt8.toNat_inj.symm
  unfold readPayloadLen
  split_ifs at h with hle heq hshort hlong
  · rw [if_neg (fun hn => hle (h125.mpr hn)), if_pos (h126.mp heq)]
    obtain hread | hread := wsReadExactOrEof_not_full hshort
    · exact ⟨t.skip 2, .inl (by rw [hread])⟩
    · exact ⟨t.skip 2, .inl (by rw [hread])⟩
  · rw [if_neg (fun hn => hle (h125.mpr hn)), if_neg (fun hn => heq (h126.mpr hn))]
    by_cases hshort : t.bytes.length < 8
    · obtain hread | hread := wsReadExactOrEof_not_full hshort
      · exact ⟨t.skip 8, .inl (by rw [hread])⟩
      · exact ⟨t.skip 8, .inl (by rw [hread])⟩
    · have hhead : (t.bytes.take 8).headD 0 = t.bytes.headD 0 := by cases t.bytes <;> rfl
      rw [wsReadExactOrEof_full (not_lt.mp hshort)]
      dsimp only
      rw [hhead, if_pos (hlong.resolve_left hshort)]
      exact ⟨t.skip 8, .inr rfl⟩

theorem framePayload_cut {fin : Bool} {opcode : UInt8} {len : ℕ} {mask : List UInt8} (h : t.bytes.length < len) :
    ∃ t', framePayload kind outMaxLen fin opcode len mask r t = .stop (-1, t') := by
  unfold framePayload
  obtain hread | hread := wsReadExactOrEof_not_full h
  · rw [hread]
    split_ifs <;> exact ⟨_, rfl⟩
  · rw [hread]
    split_ifs <;> exact ⟨_, rfl⟩

theorem afterHeader_cut {b0 b1 : UInt8} {bs : List UInt8} (ht : t.bytes = bs) (h : Frame.decode (b0 :: b1 :: bs) = none) :
    ∃ t', afterHeader kind outMaxLen b0 b1 r t = .stop (-1, t') := by
  unfold afterHeader
  rw [Frame.decode] at h
  split_ifs with hbits
  · exact ⟨_, rfl⟩
  rw [if_neg hbits] at h
  cases hlen : Frame.decodeLen (b1 &&& 0x7F) bs with
  | none =>
    rw [← ht] at hlen
    obtain ⟨t', hread | hread⟩ := readPayloadLen_cut hlen
    · exact ⟨t', by rw [hread]⟩
    · exact ⟨_, by rw [hread]; rfl⟩
  | some lenRest =>
    obtain ⟨⟨form, len⟩, tail⟩ := lenRest
    obtain ⟨hholds, h7, hbs⟩ := Frame.decodeLen_sound (low7_lt b1) hlen
    obtain ⟨t', hread, htail, -, -, -⟩ := readPayloadLen_extra hholds (ht.trans hbs)
    rw [h7] at hread
    rw [hread]
    dsimp only
    have hroom : tail.length < 4 + len := by
      by_contra hroom
      rw [hlen, Option.bind_some, if_neg hroom] at h
      cases h
    by_cases hmask : t'.bytes.length < 4
    · obtain hread4 | hread4 := wsReadExactOrEof_not_full hmask
      · exact ⟨t'.skip 4, by rw [hread4]⟩
      · exact ⟨t'.skip 4, by rw [hread4]⟩
    · rw [wsReadExactOrEof_full (not_lt.mp hmask)]
      apply framePayload_cut
      rw [Transport.bytes_skip, List.length_drop, htail]
      rw [htail] at hmask
      omega

/-- A piece of a frame, or bytes that are none, end the call: cleanly when the stream ends in the first two bytes. -/
theorem turn_cut (h : Frame.decode t.bytes = none) :
    ∃ t', turn kind outMaxLen r t = .stop (if t.bytes.length < 2 ∧ t.ending = .closed then 0 else -1, t') := by
  by_cases hshort : t.bytes.length < 2
  · refine ⟨t.skip 2, ?_⟩
    unfold turn
    rw [wsReadExactOrEof_short hshort]
    cases hend : t.ending <;> simp [hshort]
  · rw [if_neg fun hboth => hshort hboth.1]
    obtain ⟨b0, tail, htail⟩ := List.exists_cons_of_length_pos (show 0 < t.bytes.length by omega)
    have hlen : t.bytes.length = tail.length + 1 := by rw [htail, List.length_cons]
    obtain ⟨b1, bs, rfl⟩ := List.exists_cons_of_length_pos (show 0 < tail.length by omega)
    have hbytes : t.bytes = b0 :: b1 :: bs := htail
    rw [turn_header hbytes]
    rw [hbytes] at h
    exact afterHeader_cut (by rw [Transport.bytes_skip, hbytes]; rfl) h

/-! A whole call. -/

/-- The frames take the call from `p` on to another round. -/
inductive Passes (kind : MessageKind) (outMaxLen : ℕ) (accepts : List UInt8 → List UInt8 → Bool) :
    Progress → List Frame → Progress → Prop
  | nil {p : Progress} : Passes kind outMaxLen accepts p [] p
  | cons {p q s : Progress} {f : Frame} {fs : List Frame} (hf : f.Valid)
    (hstep : f.verdict kind outMaxLen accepts p = .again q) (hrest : Passes kind outMaxLen accepts q fs s) :
    Passes kind outMaxLen accepts p (f :: fs) s

/-- The call returns `value` at what stands there: a frame, or a piece of one. -/
inductive ReturnsAt (kind : MessageKind) (outMaxLen : ℕ) (accepts : List UInt8 → List UInt8 → Bool) (ending : Ending)
    (p : Progress) : List UInt8 → ℤ → Prop
  | frame {f : Frame} {tail : List UInt8} {value : ℤ} (hf : f.Valid) (h : f.verdict kind outMaxLen accepts p = .stop value) :
    ReturnsAt kind outMaxLen accepts ending p (f.encode ++ tail) value
  | cut {bs : List UInt8} (h : Frame.decode bs = none) :
    ReturnsAt kind outMaxLen accepts ending p bs (if bs.length < 2 ∧ ending = .closed then 0 else -1)

theorem Frame.length_encode_pos (f : Frame) : 0 < f.encode.length := by
  simp [Frame.encode]

/-- Every stream is passed up to a point where the call returns. -/
theorem exists_passes (kind : MessageKind) (outMaxLen : ℕ) (accepts : List UInt8 → List UInt8 → Bool) (ending : Ending)
    (p : Progress) (bs : List UInt8) :
    ∃ fs q rest value, Passes kind outMaxLen accepts p fs q ∧ bs = Frame.codec.encodeAll fs ++ rest ∧
      ReturnsAt kind outMaxLen accepts ending q rest value := by
  induction hlen : bs.length using Nat.strong_induction_on generalizing bs p with
  | _ n ih =>
    cases hread : Frame.decode bs with
    | none => exact ⟨[], p, bs, _, .nil, rfl, .cut hread⟩
    | some read =>
      obtain ⟨hf, rfl⟩ := Frame.encode_decode bs read.1 read.2 hread
      cases hverdict : read.1.verdict kind outMaxLen accepts p with
      | stop value => exact ⟨[], p, _, value, .nil, rfl, .frame hf hverdict⟩
      | again q =>
        have hpos := read.1.length_encode_pos
        rw [List.length_append] at hlen
        obtain ⟨fs, s, rest, value, hpasses, hrest, hreturns⟩ := ih _ (by omega) q read.2 rfl
        refine ⟨read.1 :: fs, s, rest, value, .cons hf hverdict hpasses, ?_, hreturns⟩
        rw [PrefixCodec.encodeAll_cons, List.append_assoc, ← hrest]
        rfl

/-- The stream during a call: the bytes to come, and what the call has sent. -/
structure At (accepts : List UInt8 → List UInt8 → Bool) (ending : Ending) (p : Progress) (bs : List UInt8) (t : Transport) :
    Prop where
  accepts : t.accepts = accepts
  ending : t.ending = ending
  sent : t.sent = p.sent
  bytes : t.bytes = bs

variable {accepts : List UInt8 → List UInt8 → Bool} {ending : Ending} {p q : Progress} {f : Frame} {value : ℤ}

theorem turn_stop (hat : At accepts ending p (f.encode ++ rest) t) (hf : f.Valid)
    (h : f.verdict kind outMaxLen accepts p = .stop value) :
    ∃ t', turn kind outMaxLen ⟨p.out, p.inFragment⟩ t = .stop (value, t') := by
  have hmeets := turn_frame kind outMaxLen ⟨p.out, p.inFragment⟩ hf hat.bytes
  rw [hat.accepts, hat.sent, h] at hmeets
  cases hturn : turn kind outMaxLen ⟨p.out, p.inFragment⟩ t with
  | stop result =>
    rw [hturn] at hmeets
    cases hmeets with
    | stop hvalue => exact ⟨result.2, by rw [← hvalue]⟩
  | again r' t' =>
    rw [hturn] at hmeets
    cases hmeets

theorem turn_again (hat : At accepts ending p (f.encode ++ rest) t) (hf : f.Valid)
    (h : f.verdict kind outMaxLen accepts p = .again q) :
    ∃ t', turn kind outMaxLen ⟨p.out, p.inFragment⟩ t = .again ⟨q.out, q.inFragment⟩ t' ∧ At accepts ending q rest t' := by
  have hmeets := turn_frame kind outMaxLen ⟨p.out, p.inFragment⟩ hf hat.bytes
  rw [hat.accepts, hat.sent, h] at hmeets
  cases hturn : turn kind outMaxLen ⟨p.out, p.inFragment⟩ t with
  | stop result =>
    rw [hturn] at hmeets
    cases hmeets
  | again r' t' =>
    rw [hturn] at hmeets
    cases hmeets with
    | again hrest hending haccepts hsent =>
      exact ⟨t', rfl, haccepts.trans hat.accepts, hending.trans hat.ending, hsent, hrest⟩

/-- The loop goes through the frames that pass and returns behind them. -/
theorem recvLoop_passes {fs : List Frame} (hpasses : Passes kind outMaxLen accepts p fs q)
    (hreturns : ReturnsAt kind outMaxLen accepts ending q rest value) {rounds : ℕ} (hrounds : t.bytes.length < rounds)
    (hat : At accepts ending p (Frame.codec.encodeAll fs ++ rest) t) :
    ∃ t', recvLoop kind outMaxLen rounds ⟨p.out, p.inFragment⟩ t = some (value, t') := by
  induction hpasses generalizing t rounds with
  | nil =>
    obtain ⟨rounds, rfl⟩ := Nat.exists_eq_succ_of_ne_zero (Nat.ne_zero_of_lt hrounds)
    cases hreturns with
    | frame hf hverdict =>
      obtain ⟨t', hturn⟩ := turn_stop hat hf hverdict
      exact ⟨t', by rw [recvLoop, hturn]⟩
    | cut hcut =>
      have hbytes : t.bytes = rest := hat.bytes
      subst hbytes
      obtain ⟨t', hturn⟩ := turn_cut hcut
      rw [hat.ending] at hturn
      exact ⟨t', by rw [recvLoop, hturn]⟩
  | @cons _ _ _ f _ hf hstep _ ih =>
    obtain ⟨rounds, rfl⟩ := Nat.exists_eq_succ_of_ne_zero (Nat.ne_zero_of_lt hrounds)
    rw [PrefixCodec.encodeAll_cons, List.append_assoc] at hat
    obtain ⟨t', hturn, hat'⟩ := turn_again hat hf hstep
    have hfewer : t'.bytes.length < rounds := by
      have hpos := f.length_encode_pos
      have hlen := congrArg List.length hat.bytes
      rw [List.length_append, ← hat'.bytes] at hlen
      change t.bytes.length = f.encode.length + t'.bytes.length at hlen
      omega
    obtain ⟨t'', hrec⟩ := ih hreturns hfewer hat'
    refine ⟨t'', ?_⟩
    rw [recvLoop, hturn]
    exact hrec

/-- What the call returns. -/
def recvValue (kind : MessageKind) (outMaxLen : ℕ) (t : Transport) : Option ℤ :=
  (wsRecvDataFrameInner kind outMaxLen t).map Prod.fst

/-- The call before its first frame. -/
def callStart (t : Transport) : Progress := ⟨[], false, t.sent⟩

theorem recvValue_passes {fs : List Frame} (hpasses : Passes kind outMaxLen t.accepts (callStart t) fs q)
    (hbytes : t.bytes = Frame.codec.encodeAll fs ++ rest)
    (hreturns : ReturnsAt kind outMaxLen t.accepts t.ending q rest value) : recvValue kind outMaxLen t = some value := by
  obtain ⟨t', hloop⟩ := recvLoop_passes (t := t) hpasses hreturns (Nat.lt_succ_self _) ⟨rfl, rfl, rfl, hbytes⟩
  have hcall : wsRecvDataFrameInner kind outMaxLen t = some (value, t') := hloop
  rw [recvValue, hcall, Option.map_some]

end Karac.Runtime.WebSocket
