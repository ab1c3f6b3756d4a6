import Karac.Stdlib.ProtoProgress

/-! `decode` and `merge` come to an end: each round of a loop takes bytes, and a nested message is read from fewer bytes
or, where there are none, is of a lower rank. -/

namespace Karac.Stdlib.Protobuf

open Lib

section

variable {A P : Event → Prop} {R : Stop → Prop} (hrules : Rules A P R) {α : Type}
include hrules

/-- A loop whose body moves the reader ends within as many rounds as there are bytes left. With less fuel it may stop
for that. -/
theorem untilEnd_ensures {bytes : List UInt8} {body : ProtoReader → α → Run (α × ProtoReader)}
    (hbody : ∀ r a, r.bytes = bytes → Traced.Ensures A P R (fun p => Moved r p.2) (body r a)) {n : ℕ} {r : ProtoReader}
    (hr : r.bytes = bytes) (hn : R .fuel ∨ 0 < n ∧ bytes.length - r.pos < n) (a : α) :
    Traced.Ensures A P R (fun _ => True) (ProtoReader.untilEnd body n r a) := by
  induction n generalizing r a with
  | zero =>
    have hfuel : R .fuel := hn.resolve_right fun h => lt_irrefl 0 h.1
    exact Traced.ensures_stop hfuel
  | succ n ih =>
    unfold ProtoReader.untilEnd
    split
    · exact Traced.ensures_pure trivial
    · rename_i hend
      have hmore : r.pos < bytes.length := by simpa [ProtoReader.atEnd, hr] using hend
      have hround := (hbody r a hr).noting fun p hp _ => ⟨hrules.others (.round r p.2) rfl hp.forward, hp⟩
      apply hround.bind
      intro p hp
      have hforward := hp.forward
      exact ih (hp.bytes.trans hr) (hn.imp_right fun _ => by omega) p.1

theorem readScalar_ensures (s : Scalar) (r : ProtoReader) :
    Traced.Ensures A P R (fun p => Moved r p.2) (readScalar s r) := by
  cases s with
  | string => exact (readString_ensures hrules r).bind fun p hp => Traced.ensures_pure hp
  | bytes => exact (readLenDelim_ensures hrules r).bind fun p hp => Traced.ensures_pure hp.1
  | f64 => exact (readFixed64_ensures hrules r).bind fun p hp => Traced.ensures_pure hp
  | f32 => exact (readFixed32_ensures hrules r).bind fun p hp => Traced.ensures_pure hp
  | _ => exact (readVarint_ensures hrules r).bind fun p hp => Traced.ensures_pure hp.toMoved

theorem readOverride_ensures (wire : Override) (r : ProtoReader) :
    Traced.Ensures A P R (fun p => Moved r p.2) (readOverride wire r) := by
  cases wire with
  | sint32 => exact (readVarint_ensures hrules r).bind fun p hp => Traced.ensures_pure hp.toMoved
  | sint64 => exact (readVarint_ensures hrules r).bind fun p hp => Traced.ensures_pure hp.toMoved
  | fixed64 => exact (readFixed64_ensures hrules r).bind fun p hp => Traced.ensures_pure hp
  | sfixed64 => exact (readFixed64_ensures hrules r).bind fun p hp => Traced.ensures_pure hp
  | _ => exact (readFixed32_ensures hrules r).bind fun p hp => Traced.ensures_pure hp

section

variable {count : ℕ} {decode : Fin count → List UInt8 → Run Value} {size fuel : ℕ} (hfuel : R .fuel ∨ size ≤ fuel)
  (hdecode : ∀ name bytes, bytes.length < size → Traced.Ensures A P R (fun _ => True) (decode name bytes))
  {r : ProtoReader} (hr : r.bytes.length ≤ size)
include hdecode hr

theorem readElem_ensures (e : Elem count) : Traced.Ensures A P R (fun p => Moved r p.2) (readElem decode e r) := by
  cases e with
  | scalar s => exact (readScalar_ensures hrules s r).bind fun p hp => Traced.ensures_pure hp
  | enum variants => exact (readVarint_ensures hrules r).bind fun p hp => Traced.ensures_pure hp.toMoved
  | message name =>
    apply (readLenDelim_ensures hrules r).bind
    rintro p ⟨hmoved, hlength⟩
    exact (hdecode name p.1 (hlength.trans_le hr)).bind fun m _ => Traced.ensures_pure hmoved

omit hdecode in
include hfuel in
/-- A loop over a reader of its own, for bytes that come from `r`. -/
theorem sub_ensures {body : ProtoReader → α → Run (α × ProtoReader)}
    (hbody : ∀ sub a, sub.bytes.length ≤ size → Traced.Ensures A P R (fun p => Moved sub p.2) (body sub a))
    {bytes : List UInt8} (hbytes : bytes.length < r.bytes.length) (a : α) :
    Traced.Ensures A P R (fun _ => True) (ProtoReader.untilEnd body fuel (.new bytes) a) := by
  have hsub : ∀ sub a, sub.bytes = bytes → Traced.Ensures A P R (fun p => Moved sub p.2) (body sub a) := by
    intro sub a heq
    apply hbody
    rw [heq]
    omega
  apply untilEnd_ensures hrules hsub rfl
  exact hfuel.imp_right fun hsize => ⟨by omega, by simp only [ProtoReader.new]; omega⟩

omit hr in
theorem packedElem_ensures (e : Elem count) (sub : ProtoReader) (target : Value) (hsub : sub.bytes.length ≤ size) :
    Traced.Ensures A P R (fun p => Moved sub p.2) (packedElem decode e sub target) :=
  (readElem_ensures hrules hdecode hsub e).bind fun _ hp => Traced.ensures_pure hp

omit hr in
theorem entryField_ensures (key : Scalar) (value : Elem count) (sub : ProtoReader) (kv : Datum × Value)
    (hsub : sub.bytes.length ≤ size) :
    Traced.Ensures A P R (fun p => Moved sub p.2) (entryField decode key value sub kv) := by
  apply (readTag_ensures hrules sub).bind
  rintro ⟨⟨field, wire⟩, sub'⟩ htag
  have hsub' : sub'.bytes.length ≤ size := by rwa [htag.bytes]
  dsimp only
  split_ifs
  · exact (readScalar_ensures hrules key sub').bind fun p hp => Traced.ensures_pure (htag.trans hp)
  · exact (readElem_ensures hrules hdecode hsub' value).bind fun p hp => Traced.ensures_pure (htag.trans hp)
  · exact (skipField_ensures hrules sub' wire).bind fun r' hr' => Traced.ensures_pure (htag.skip hr'.1 hr'.2)

include hfuel

theorem decodeRepeated_ensures (e : Elem count) (wire : ℤ) (target : Value) :
    Traced.Ensures A P R (fun p => Moved r p.2) (decodeRepeated decode fuel e wire r target) := by
  unfold decodeRepeated
  split_ifs
  · apply (readLenDelim_ensures hrules r).bind
    rintro p ⟨hmoved, hlength⟩
    have hloop := sub_ensures hrules hfuel hr (packedElem_ensures hrules hdecode e) hlength target
    exact hloop.bind fun a _ => Traced.ensures_pure hmoved
  · exact (readElem_ensures hrules hdecode hr e).bind fun p hp => Traced.ensures_pure hp

omit hrules hfuel hr in
theorem elemDefault_ensures (hsize : 0 < size) (e : Elem count) :
    Traced.Ensures A P R (fun _ => True) (elemDefault decode e) := by
  cases e with
  | scalar s => exact Traced.ensures_pure trivial
  | enum variants => exact Traced.ensures_pure trivial
  | message name => exact hdecode name [] hsize

theorem mapDecode_ensures (key : Scalar) (value : Elem count) (target : Value) :
    Traced.Ensures A P R (fun p => Moved r p.2) (mapDecode decode fuel key value r target) := by
  apply (readLenDelim_ensures hrules r).bind
  rintro p ⟨hmoved, hlength⟩
  apply (elemDefault_ensures hdecode (by omega) value).bind
  intro v _
  have hloop := sub_ensures hrules hfuel hr (entryField_ensures hrules hdecode key value) hlength (protoDefault key, v)
  exact hloop.bind fun kv _ => Traced.ensures_pure hmoved

theorem runAction_ensures (a : Action count) (wire : ℤ) (target : Value) :
    Traced.Ensures A P R (fun p => Moved r p.2) (runAction decode fuel a wire r target) := by
  cases a with
  | set e => exact readElem_ensures hrules hdecode hr e
  | setOverride w => exact (readOverride_ensures hrules w r).bind fun p hp => Traced.ensures_pure hp
  | setCase index e => exact (readElem_ensures hrules hdecode hr e).bind fun p hp => Traced.ensures_pure hp
  | repeated e => exact decodeRepeated_ensures hrules hfuel hdecode hr e wire target
  | map key value => exact mapDecode_ensures hrules hfuel hdecode hr key value target

theorem messageField_ensures (arms : List (Arm count)) (locals : List Value) :
    Traced.Ensures A P R (fun p => Moved r p.2) (messageField decode fuel arms r locals) := by
  apply (readTag_ensures hrules r).bind
  rintro ⟨⟨field, wire⟩, r'⟩ htag
  have hr' : r'.bytes.length ≤ size := by rwa [htag.bytes]
  dsimp only
  split
  · rename_i a ha
    exact (runAction_ensures hrules hfuel hdecode hr' a.action wire _).bind fun p hp =>
      Traced.ensures_pure (htag.trans hp)
  · exact (skipField_ensures hrules r' wire).bind fun r'' hskip => Traced.ensures_pure (htag.skip hskip.1 hskip.2)

end

end

/-! The whole of `decode` and `merge`. -/

/-- Fuel enough for a message of that many bytes. -/
def Schema.bound (S : Schema) (name : Fin S.count) (length : ℕ) : ℕ := length * (S.count + 1) + S.rank name + 2

theorem Schema.bound_shorter (S : Schema) (name name' : Fin S.count) {length length' : ℕ} (h : length' < length) :
    S.bound name' length' < S.bound name length := by
  have hrank := S.rank_le name'
  have hlength := Nat.mul_le_mul_right (S.count + 1) (Nat.succ_le_of_lt h)
  rw [Nat.succ_mul] at hlength
  simp only [Schema.bound]
  omega

theorem Schema.length_lt_bound (S : Schema) (name : Fin S.count) (length : ℕ) : length + 1 < S.bound name length := by
  have hlength : length ≤ length * (S.count + 1) := Nat.le_mul_of_pos_right length (Nat.succ_pos S.count)
  simp only [Schema.bound]
  omega

section

variable {A P : Event → Prop} {R : Stop → Prop} (hrules : Rules A P R) (S : Schema)

theorem fieldDefault_ensures {count : ℕ} {decode : Fin count → List UInt8 → Run Value} (f : Field count)
    (hdecode : ∀ name, f.ty = .single (.message name) → Traced.Ensures A P R (fun _ => True) (decode name [])) :
    Traced.Ensures A P R (fun _ => True) (fieldDefault decode f) := by
  unfold fieldDefault
  split
  · rename_i e he
    cases e with
    | scalar s => exact Traced.ensures_pure trivial
    | enum variants => exact Traced.ensures_pure trivial
    | message name => exact hdecode name he
  all_goals exact Traced.ensures_pure trivial

theorem fieldDefaults_ensures {count : ℕ} {decode : Fin count → List UInt8 → Run Value} {fields : List (Field count)}
    (hdecode : ∀ f ∈ fields, ∀ name, f.ty = .single (.message name) →
      Traced.Ensures A P R (fun _ => True) (decode name [])) :
    Traced.Ensures A P R (fun _ => True) (fieldDefaults decode fields) := by
  induction fields with
  | nil => exact Traced.ensures_pure trivial
  | cons f rest ih =>
    obtain ⟨hf, hrest⟩ := List.forall_mem_cons.mp hdecode
    apply (fieldDefault_ensures f hf).bind
    intro v _
    exact (ih hrest).bind fun vs _ => Traced.ensures_pure trivial

include hrules

/-- The loop of a message over all of its bytes. -/
theorem messageLoop_ensures {count : ℕ} {decode : Fin count → List UInt8 → Run Value} {fuel : ℕ} {bytes : List UInt8}
    (hfuel : R .fuel ∨ bytes.length < fuel) (hdecode : ∀ name bytes', bytes'.length < bytes.length →
      Traced.Ensures A P R (fun _ => True) (decode name bytes')) (arms : List (Arm count)) (locals : List Value) :
    Traced.Ensures A P R (fun _ => True)
      (ProtoReader.untilEnd (messageField decode fuel arms) fuel (.new bytes) locals) := by
  have hfield : ∀ r locals, r.bytes = bytes →
      Traced.Ensures A P R (fun p => Moved r p.2) (messageField decode fuel arms r locals) := by
    intro r locals hr
    exact messageField_ensures hrules (hfuel.imp_right Nat.le_of_lt) hdecode (by rw [hr]) arms locals
  apply untilEnd_ensures hrules hfield rfl
  exact hfuel.imp_right fun h => ⟨by omega, by simp only [ProtoReader.new]; omega⟩

theorem decode_ensures {fuel : ℕ} {name : Fin S.count} {bytes : List UInt8}
    (hfuel : R .fuel ∨ S.bound name bytes.length ≤ fuel) :
    Traced.Ensures A P R (fun _ => True) (S.decode fuel name bytes) := by
  induction fuel generalizing name bytes with
  | zero =>
    have hstop : R .fuel := hfuel.resolve_right fun h => by simp [Schema.bound] at h
    exact Traced.ensures_stop hstop
  | succ fuel ih =>
    have hsub : ∀ name' bytes', bytes'.length < bytes.length →
        Traced.Ensures A P R (fun _ => True) (S.decode fuel name' bytes') := by
      intro name' bytes' hlength
      have hshorter := S.bound_shorter name name' hlength
      exact ih (hfuel.imp_right fun h => by omega)
    unfold Schema.decode
    apply Traced.Ensures.bind (Q := fun _ => True)
    · apply fieldDefaults_ensures
      intro f hf name' hname'
      have hrank := S.rank_lt name f hf name' hname'
      exact ih (hfuel.imp_right fun h => by simp only [Schema.bound, List.length_nil] at h ⊢; omega)
    · intro locals _
      have hlength := S.length_lt_bound name bytes.length
      have hloop : R .fuel ∨ bytes.length < fuel := hfuel.imp_right fun h => by omega
      exact (messageLoop_ensures hrules hloop hsub _ locals).bind fun fields _ => Traced.ensures_pure trivial

theorem merge_ensures {fuel : ℕ} {name : Fin S.count} {self : List Value} {bytes : List UInt8}
    (hfuel : R .fuel ∨ S.bound name bytes.length ≤ fuel) :
    Traced.Ensures A P R (fun _ => True) (S.merge fuel name self bytes) := by
  cases fuel with
  | zero =>
    have hstop : R .fuel := hfuel.resolve_right fun h => by simp [Schema.bound] at h
    exact Traced.ensures_stop hstop
  | succ fuel =>
    have hlength := S.length_lt_bound name bytes.length
    apply messageLoop_ensures hrules (hfuel.imp_right fun h => by omega)
    intro name' bytes' hbytes
    have hshorter := S.bound_shorter name name' hbytes
    exact decode_ensures hrules S (hfuel.imp_right fun h => by omega)

end

/-- A computation with every amount of fuel comes to its end with some, and the readers move forward in each. -/
def Progresses {α : Type} (run : ℕ → Run α) : Prop :=
  (∀ fuel, ∀ e ∈ (run fuel).log, e.Advances) ∧ ∃ fuel, (run fuel).result ≠ .error .fuel

/-- Every length prefix that is read announces more than it takes to go back to where it begins. -/
def PrefixesForward {α : Type} (run : ℕ → Run α) : Prop := ∀ fuel, ∀ e ∈ (run fuel).log, e.PrefixForward

theorem rules_advances (R : Stop → Prop) (hR : R .trap) : Rules Event.PrefixForward Event.Advances R where
  trap := hR
  prefixes := by
    rintro before after ⟨k, v, hnumber, hspan⟩ ⟨d, ⟨k', v', hnumber', rfl⟩, hd⟩
    obtain ⟨rfl, rfl⟩ : k = k' ∧ v = v' := by simpa using hnumber.symm.trans hnumber'
    have hforward : before.pos < after.pos := by omega
    exact ⟨hforward, hforward⟩
  others := fun e _ h => h

theorem rules_prefixes : Rules Event.Advances Event.PrefixForward fun _ => True where
  trap := trivial
  prefixes := fun before after hspans h => ⟨⟨_, hspans, sub_pos.mpr h⟩, h⟩
  others := by
    intro e he _
    cases e with
    | read op before after => cases op <;> trivial
    | _ => trivial

theorem progresses_iff {α : Type} {run : ℕ → Run α} (hrun : ∀ {A P R}, Rules A P R →
    ∃ bound, ∀ fuel, R .fuel ∨ bound ≤ fuel → Traced.Ensures A P R (fun _ => True) (run fuel)) :
    Progresses run ↔ PrefixesForward run := by
  constructor
  · rintro ⟨hadvances, -⟩ fuel
    obtain ⟨bound, h⟩ := hrun rules_prefixes
    exact (h fuel (.inl trivial) (hadvances fuel)).1
  · intro hprefixes
    refine ⟨fun fuel => ?_, ?_⟩
    · obtain ⟨bound, h⟩ := hrun (rules_advances (fun _ => True) trivial)
      exact (h fuel (.inl trivial) (hprefixes fuel)).1
    · obtain ⟨bound, h⟩ := hrun (rules_advances (· = .trap) rfl)
      refine ⟨bound, fun hstop => ?_⟩
      cases (h bound (.inr le_rfl) (hprefixes bound)).2.1 _ hstop

/-- Decoding and merging move forward and come to an end exactly if no length prefix that they read leads back. -/
theorem decode_progresses_iff (S : Schema) (name : Fin S.count) (self : List Value) (bytes : List UInt8) :
    (Progresses (fun fuel => S.decode fuel name bytes) ↔ PrefixesForward fun fuel => S.decode fuel name bytes) ∧
      (Progresses (fun fuel => S.merge fuel name self bytes) ↔
        PrefixesForward fun fuel => S.merge fuel name self bytes) := by
  constructor
  · exact progresses_iff fun hrules => ⟨_, fun fuel hfuel => decode_ensures hrules S hfuel⟩
  · exact progresses_iff fun hrules => ⟨_, fun fuel hfuel => merge_ensures hrules S hfuel⟩

/-- A loop that leaves the reader where it is never ends. -/
theorem untilEnd_endless {α : Type} {body : ProtoReader → α → Run (α × ProtoReader)} {r : ProtoReader} {a : α}
    (hend : r.atEnd = false) (hround : (body r a).result = .ok (a, r)) (n : ℕ) :
    (ProtoReader.untilEnd body n r a).result = .error .fuel := by
  induction n with
  | zero => rfl
  | succ n ih =>
    unfold ProtoReader.untilEnd
    rw [if_neg (by simp [hend]), Traced.bind_of_ok (by rw [Traced.noting_of_ok hround])]
    exact ih

/-- `struct Counter { value: u64 }` -/
def counter : Schema where
  count := 1
  fields := fun _ => [⟨0, .single (.scalar .u64)⟩]
  rank := fun _ => 0
  rank_le := fun _ => Nat.zero_le 1
  rank_lt := by
    intro m f hf m' hm'
    obtain rfl := List.mem_singleton.mp hf
    cases hm'

def counterName : Fin counter.count := ⟨0, Nat.one_pos⟩

/-- Field 2, which `Counter` does not have, of -11 bytes. -/
def backBytes : List UInt8 := [0x12, 0xF5, 0xFF, 0xFF, 0xFF, 0xFF, 0xFF, 0xFF, 0xFF, 0xFF, 0x01]

theorem backBytes_tag : (ProtoReader.new backBytes).readTag.result = .ok ((2, 2), ⟨backBytes, 1⟩) := by
  decide +kernel

/-- The prefix takes the cursor to 11, and then back. -/
theorem backBytes_skip : ((⟨backBytes, 1⟩ : ProtoReader).skipField 2).result = .ok (.new backBytes) := by
  decide +kernel

theorem backBytes_round (decode : Fin counter.count → List UInt8 → Run Value) (fuel : ℕ) (locals : List Value) :
    (messageField decode fuel (armsOf (counter.fields counterName) 0 1) (.new backBytes) locals).result =
      .ok (locals, .new backBytes) := by
  have hskip : (do
      let r ← (⟨backBytes, 1⟩ : ProtoReader).skipField 2
      pure (locals, r) : Run (List Value × ProtoReader)).result = .ok (locals, .new backBytes) := by
    rw [Traced.bind_of_ok backBytes_skip]
    rfl
  unfold messageField
  rw [Traced.bind_of_ok backBytes_tag]
  exact hskip

theorem counter_decode_endless (fuel : ℕ) : (counter.decode fuel counterName backBytes).result = .error .fuel := by
  cases fuel with
  | zero => rfl
  | succ fuel =>
    have hloop := untilEnd_endless (r := .new backBytes) rfl
      (backBytes_round (counter.decode fuel) fuel [.datum (.int 0)]) fuel
    have hdefaults : (fieldDefaults (counter.decode fuel) (counter.fields counterName)).result =
        .ok [.datum (.int 0)] := rfl
    rw [Schema.decode, Traced.bind_of_ok hdefaults, Traced.bind_of_error hloop]

theorem decode_endless : ¬∀ (S : Schema) (name : Fin S.count) (bytes : List UInt8),
    Progresses fun fuel => S.decode fuel name bytes := by
  intro h
  obtain ⟨-, fuel, hfuel⟩ := h counter counterName backBytes
  exact hfuel (counter_decode_endless fuel)

end Karac.Stdlib.Protobuf
