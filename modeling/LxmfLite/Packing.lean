import LxmfLite.Authentication
import LxmfLite.Build
import LxmfLite.Framing

namespace LxmfLite.Packing

open ByteString Execution Message Primitives Reader Writer Build Payload Framing Authentication

variable {LocalIdentity VerifyingKey : Type} {P : Platform LocalIdentity VerifyingKey}
  {source : LocalIdentity} {recipientPublicKey : Block 64} {timestamp : F64}
  {title content : Bytes} {fields : OuterFields} {admitted : PayloadFields Bytes}

def signatureOf (P : Platform LocalIdentity VerifyingKey) (source : LocalIdentity)
    (recipientPublicKey : Block 64) (payload : Bytes) : Block 64 :=
  P.sign source (signedPart P (P.deliveryHash recipientPublicKey) (P.lxmfDeliveryHash source) payload)

def plaintextFor (P : Platform LocalIdentity VerifyingKey) (source : LocalIdentity)
    (recipientPublicKey : Block 64) (payload : Bytes) : Bytes :=
  plaintextOf (P.lxmfDeliveryHash source) (signatureOf P source recipientPublicKey payload) payload

def packedFor (P : Platform LocalIdentity VerifyingKey) (source : LocalIdentity)
    (recipientPublicKey : Block 64) (payload : Bytes) : Bytes :=
  packedOf (P.deliveryHash recipientPublicKey) (P.lxmfDeliveryHash source)
    (signatureOf P source recipientPublicKey payload) payload

def messageIdFor (P : Platform LocalIdentity VerifyingKey) (source : LocalIdentity)
    (recipientPublicKey : Block 64) (payload : Bytes) : Block 32 :=
  messageIdOf P (P.deliveryHash recipientPublicKey) (P.lxmfDeliveryHash source) payload

theorem packedFor_eq (payload : Bytes) : packedFor P source recipientPublicKey payload =
    (P.deliveryHash recipientPublicKey).val ++ plaintextFor P source recipientPublicKey payload := rfl

@[simp] theorem packedFor_length (payload : Bytes) :
    (packedFor P source recipientPublicKey payload).length = 96 + payload.length := packedOf_length

section Parts

variable {dest sourceHash : Block 16} {signature : Block 64} {payload buf : Bytes} {n : Nat}

theorem copy_signature (h : 96 ≤ buf.length) :
    (copyFromSlice (overwrite buf 0 (dest.val ++ sourceHash.val)) 32 96 signature.val :
      Result Bytes) = .ok (overwrite buf 0 (dest.val ++ sourceHash.val ++ signature.val)) :=
  copyFromSlice_append (by rw [List.length_append, dest.2, sourceHash.2]) (by rw [signature.2]) h

theorem copy_packed (hn : n = payload.length) (h : 96 + n ≤ buf.length) :
    (copyFromSlice (overwrite buf 0 (dest.val ++ sourceHash.val ++ signature.val)) 96 (96 + n) payload :
      Result Bytes) = .ok (overwrite buf 0 (packedOf dest sourceHash signature payload)) := by
  subst hn
  rw [copyFromSlice_append
    (by simp only [List.length_append, dest.2, sourceHash.2, signature.2]) rfl h]
  simp only [packedOf, plaintextOf, List.append_assoc]

theorem copy_plaintext_signature (h : 80 ≤ buf.length) :
    (copyFromSlice (overwrite buf 0 sourceHash.val) 16 80 signature.val : Result Bytes) =
      .ok (overwrite buf 0 (sourceHash.val ++ signature.val)) :=
  copyFromSlice_append (by rw [sourceHash.2]) (by rw [signature.2]) h

theorem copy_plaintext (hn : n = payload.length) (h : 80 + n ≤ buf.length) :
    (copyFromSlice (overwrite buf 0 (sourceHash.val ++ signature.val)) 80 (80 + n) payload :
      Result Bytes) = .ok (overwrite buf 0 (plaintextOf sourceHash signature payload)) := by
  subst hn
  rw [copyFromSlice_append (by rw [List.length_append, sourceHash.2, signature.2]) rfl h]
  simp only [plaintextOf, List.append_assoc]

/-- The payload is packed behind the place of the two hashes; the hashes fill it. -/
theorem overwrite_hashes (h : 32 + payload.length ≤ buf.length) :
    overwrite (overwrite (overwrite buf 32 payload) 0 dest.val) 16 sourceHash.val =
      overwrite buf 0 (hashedPart dest sourceHash payload) := by
  have hlen : (dest.val ++ sourceHash.val).length = 32 := by
    rw [List.length_append, dest.2, sourceHash.2]
  have hbuf : (overwrite buf 32 payload).length = buf.length := overwrite_length h
  have htwo := overwrite_overwrite sourceHash.val
    (show 0 + dest.val.length ≤ (overwrite buf 32 payload).length by rw [dest.2, hbuf]; omega)
  rw [dest.2] at htwo
  rw [htwo]
  have hbefore := overwrite_before
    (show 0 + (dest.val ++ sourceHash.val).length + payload.length ≤ buf.length by rw [hlen]; omega)
  rw [hlen] at hbefore
  rw [hbefore, List.append_assoc, hashedPart]

theorem slice_hashed_payload (hn : n = payload.length) (h : 64 + n ≤ buf.length) :
    (slice (overwrite buf 0 (signedPart P dest sourceHash payload)) 32 (32 + n) : Result Bytes) =
      .ok payload := by
  subst hn
  have hsplit : signedPart P dest sourceHash payload =
      (dest.val ++ sourceHash.val) ++ (payload ++ (messageIdOf P dest sourceHash payload).val) := by
    simp only [signedPart, hashedPart, List.append_assoc]
  rw [overwrite, List.take_zero, List.nil_append, hsplit, List.append_assoc, List.append_assoc payload]
  exact slice_middle (by rw [List.length_append, dest.2, sourceHash.2]) rfl

end Parts

theorem buildLinkInner_ok (h : admission fields = .ok admitted) (he : Encodable title content fields)
    {payload : Bytes} (hp : payload = payloadBytes timestamp title content fields)
    (hmax : payload.length ≤ P.usizeMax) {buffers : LinkBuffers}
    (hscratch : 64 + payload.length ≤ buffers.scratch.length)
    (hout : 96 + payload.length ≤ buffers.out.length) :
    (buildLinkInner P source recipientPublicKey timestamp title content admitted).run buffers =
      (.ok (96 + payload.length),
        ⟨overwrite buffers.out 0 (packedFor P source recipientPublicKey payload),
          overwrite buffers.scratch 0 (signedPart P (P.deliveryHash recipientPublicKey)
            (P.lxmfDeliveryHash source) payload),
          P.deliveryHash recipientPublicKey, messageIdFor P source recipientPublicKey payload⟩) := by
  have hge : 15 ≤ payload.length := hp ▸ payloadBytes_length_ge
  have hroom : (buffers.scratch.extract 32 (buffers.scratch.length - 32)).length =
      buffers.scratch.length - 64 := by
    rw [extract_length (by omega)]
    omega
  have hpack := packPayload_ok h he (hp ▸ hmax)
    (show (payloadBytes timestamp title content fields).length ≤
      (buffers.scratch.extract 32 (buffers.scratch.length - 32)).length by rw [hroom, ← hp]; omega)
  rw [← hp] at hpack
  have hscr : (overwrite buffers.scratch 32 payload).length = buffers.scratch.length :=
    overwrite_length (by omega)
  have hdest := copy_dest (P.deliveryHash recipientPublicKey)
    (show 16 ≤ (overwrite buffers.scratch 32 payload).length by rw [hscr]; omega)
  have hsource : (copyFromSlice (overwrite (overwrite buffers.scratch 32 payload) 0
      (P.deliveryHash recipientPublicKey).val) 16 32 (P.lxmfDeliveryHash source).val : Result Bytes) =
      .ok (overwrite buffers.scratch 0 (hashedPart (P.deliveryHash recipientPublicKey)
        (P.lxmfDeliveryHash source) payload)) := by
    rw [copyFromSlice_eq (by rw [(P.lxmfDeliveryHash source).2]), overwrite_hashes (by omega)]
    rw [overwrite_length (by rw [hscr, (P.deliveryHash recipientPublicKey).2]; omega), hscr]
    omega
  simp only [buildLinkInner, Exec.run_get_bind, Exec.run_rejectIf_bind]
  rw [if_neg (by rw [lxmfPackedPrefix_eq]; omega), slice_eq (by omega) (by omega), Exec.run_ok_bind, hpack]
  simp only [mapErr, overwrite_piece (show 32 + payload.length ≤ buffers.scratch.length - 32 by omega)
    (Nat.sub_le _ _), Exec.run_set_bind, Exec.run_ok_bind, Exec.run_rejectIf_bind]
  rw [if_neg (by rw [lxmfPackedPrefix_eq]; omega), ← Platform.deliveryHash, hdest, Exec.run_ok_bind,
    hsource, Exec.run_ok_bind, slice_hashed rfl (by omega), Exec.run_ok_bind, ← messageIdOf,
    copy_hash P rfl (by omega), Exec.run_ok_bind, slice_signed P rfl (by omega), Exec.run_ok_bind,
    copy_dest _ (by omega), Exec.run_ok_bind, copy_source (by omega), Exec.run_ok_bind,
    copy_signature (by omega), Exec.run_ok_bind, slice_hashed_payload rfl (by omega),
    Exec.run_ok_bind, lxmfPackedPrefix_eq, copy_packed rfl (by omega), Exec.run_ok_bind]
  rfl

theorem buildLinkInner_fails (h : admission fields = .ok admitted) {payload : Bytes}
    (hp : payload = payloadBytes timestamp title content fields) {buffers : LinkBuffers}
    (hfit : ¬(Encodable title content fields ∧ payload.length ≤ P.usizeMax ∧
      64 + payload.length ≤ buffers.scratch.length ∧ 96 + payload.length ≤ buffers.out.length)) :
    ∃ e buffers', (buildLinkInner P source recipientPublicKey timestamp title content admitted).run
      buffers = (fail e, buffers') := by
  simp only [buildLinkInner, Exec.run_get_bind, Exec.run_rejectIf_bind]
  split
  · exact ⟨_, _, rfl⟩
  next hguard =>
  rw [lxmfPackedPrefix_eq] at hguard
  have hroom : (buffers.scratch.extract 32 (buffers.scratch.length - 32)).length =
      buffers.scratch.length - 64 := by
    rw [extract_length (by omega)]
    omega
  rw [slice_eq (by omega) (by omega), Exec.run_ok_bind]
  by_cases hpack : Encodable title content fields ∧ payload.length ≤ P.usizeMax ∧
      payload.length ≤ (buffers.scratch.extract 32 (buffers.scratch.length - 32)).length
  · rw [packPayload_ok h hpack.1 (hp ▸ hpack.2.1) (hp ▸ hpack.2.2), ← hp]
    have hout : ¬96 + payload.length ≤ buffers.out.length := by
      intro hle
      refine hfit ⟨hpack.1, hpack.2.1, ?_, hle⟩
      have := hpack.2.2
      omega
    simp only [mapErr, Exec.run_set_bind, Exec.run_ok_bind, Exec.run_rejectIf_bind]
    rw [if_pos (by rw [lxmfPackedPrefix_eq]; omega)]
    exact ⟨_, _, rfl⟩
  · subst hp
    obtain ⟨e, room, hr, -⟩ := packPayload_fails h hpack
    rw [hr]
    exact ⟨_, _, rfl⟩

def buildLinkOf (P : Platform LocalIdentity VerifyingKey) (source : LocalIdentity)
    (recipientPublicKey : Block 64) (timestamp : F64) (title content : Bytes) :
    OuterFields → Exec LxmfError LinkBuffers Nat
  | .empty => buildLink P source recipientPublicKey timestamp title content
  | .audio field => buildLinkWithAudio P source recipientPublicKey timestamp title content field
  | .encoded entries => buildLinkWithFields P source recipientPublicKey timestamp title content entries

theorem buildLinkOf_eq : buildLinkOf P source recipientPublicKey timestamp title content fields =
    liftM (admission fields) >>= buildLinkInner P source recipientPublicKey timestamp title content := by
  cases fields with
  | empty => rfl
  | audio field => rfl
  | encoded entries =>
      rw [buildLinkOf, buildLinkWithFields, admission]
      cases encodedFieldSet entries <;> rfl

structure Buildable (P : Platform LocalIdentity VerifyingKey) (timestamp : F64)
    (title content : Bytes) (fields : OuterFields) (payload : Bytes) : Prop where
  admitted : ∃ admitted, admission fields = .ok admitted
  encodable : Encodable title content fields
  eq : payload = payloadBytes timestamp title content fields
  countable : payload.length ≤ P.usizeMax

theorem Buildable.fieldsAdmitted {payload : Bytes} (h : Buildable P timestamp title content fields payload) :
    Admitted 1 fields := by
  obtain ⟨admitted, ha⟩ := h.admitted
  exact admission_ok ha h.encodable.2.2

/-- A Link builder writes the whole message or it fails. -/
theorem buildLinkOf_run (P : Platform LocalIdentity VerifyingKey) (source : LocalIdentity)
    (recipientPublicKey : Block 64) (payload : Bytes)
    (hp : payload = payloadBytes timestamp title content fields) (buffers : LinkBuffers) :
    ((buildLinkOf P source recipientPublicKey timestamp title content fields).run buffers =
        (.ok (96 + payload.length),
          ⟨overwrite buffers.out 0 (packedFor P source recipientPublicKey payload),
            overwrite buffers.scratch 0 (signedPart P (P.deliveryHash recipientPublicKey)
              (P.lxmfDeliveryHash source) payload),
            P.deliveryHash recipientPublicKey, messageIdFor P source recipientPublicKey payload⟩) ∧
      Buildable P timestamp title content fields payload ∧
      64 + payload.length ≤ buffers.scratch.length ∧ 96 + payload.length ≤ buffers.out.length) ∨
    (∃ e buffers', (buildLinkOf P source recipientPublicKey timestamp title content fields).run buffers =
        (fail e, buffers')) ∧
      ¬(Buildable P timestamp title content fields payload ∧
        64 + payload.length ≤ buffers.scratch.length ∧ 96 + payload.length ≤ buffers.out.length) := by
  rw [buildLinkOf_eq]
  rcases admission_cases fields with ⟨admitted, ha⟩ | ⟨e, -, ha⟩
  · rw [ha, Exec.run_ok_bind]
    by_cases hfit : Encodable title content fields ∧ payload.length ≤ P.usizeMax ∧
        64 + payload.length ≤ buffers.scratch.length ∧ 96 + payload.length ≤ buffers.out.length
    · obtain ⟨he, hmax, hscratch, hout⟩ := hfit
      exact .inl ⟨buildLinkInner_ok ha he hp hmax hscratch hout, ⟨⟨admitted, ha⟩, he, hp, hmax⟩,
        hscratch, hout⟩
    · refine .inr ⟨buildLinkInner_fails ha hp hfit, ?_⟩
      rintro ⟨hb, hroom⟩
      exact hfit ⟨hb.encodable, hb.countable, hroom⟩
  · rw [ha]
    refine .inr ⟨⟨e, buffers, rfl⟩, ?_⟩
    rintro ⟨hb, -⟩
    obtain ⟨admitted, hok⟩ := hb.admitted
    rw [ha] at hok
    exact absurd hok (by simp)

theorem buildLinkOf_eq_ok {buffers buffers' : LinkBuffers} {n : Nat} :
    (buildLinkOf P source recipientPublicKey timestamp title content fields).run buffers =
        (.ok n, buffers') ↔
      ∃ payload, Buildable P timestamp title content fields payload ∧
        64 + payload.length ≤ buffers.scratch.length ∧ 96 + payload.length ≤ buffers.out.length ∧
        n = 96 + payload.length ∧ buffers' =
          ⟨overwrite buffers.out 0 (packedFor P source recipientPublicKey payload),
            overwrite buffers.scratch 0 (signedPart P (P.deliveryHash recipientPublicKey)
              (P.lxmfDeliveryHash source) payload),
            P.deliveryHash recipientPublicKey, messageIdFor P source recipientPublicKey payload⟩ := by
  rcases buildLinkOf_run P source recipientPublicKey _ rfl buffers
    with ⟨hr, hp, hscratch, hout⟩ | ⟨⟨e, final, hr⟩, hno⟩
  · rw [hr]
    constructor
    · intro h
      cases h
      exact ⟨_, hp, hscratch, hout, rfl, rfl⟩
    · rintro ⟨payload, hp', -, -, rfl, rfl⟩
      obtain rfl := hp'.eq
      rfl
  · rw [hr]
    constructor
    · intro h
      cases h
    · rintro ⟨payload, hp, hscratch, hout, -⟩
      obtain rfl := hp.eq
      exact absurd ⟨hp, hscratch, hout⟩ hno

section Written

variable {payload buffer : Bytes}

structure Written (P : Platform LocalIdentity VerifyingKey) (source : LocalIdentity)
    (recipientPublicKey : Block 64) (payload buffer : Bytes) : Prop where
  inside : 96 + payload.length ≤ buffer.length
  take : buffer.take (96 + payload.length) = packedFor P source recipientPublicKey payload
  marker : ∃ items, payload = 0x94 :: items

theorem Written.drop (h : Written P source recipientPublicKey payload buffer) :
    (buffer.take (96 + payload.length)).drop 96 = payload := by
  rw [h.take, packedFor, packedOf_drop]

theorem Written.getElem (h : Written P source recipientPublicKey payload buffer) :
    buffer[96]? = some 0x94 := by
  obtain ⟨items, hm⟩ := h.marker
  have hlen : payload.length = items.length + 1 := by rw [hm, List.length_cons]
  have hdrop := congrArg (fun bs => bs[0]?) h.drop
  simp only [List.getElem?_drop, Nat.add_zero] at hdrop
  rw [List.getElem?_take_of_lt (by omega)] at hdrop
  rw [hdrop, hm]
  rfl

theorem Written.dest (h : Written P source recipientPublicKey payload buffer) :
    buffer.take 16 = (P.deliveryHash recipientPublicKey).val := by
  have := congrArg (List.take 16) h.take
  rwa [List.take_take, Nat.min_eq_left (by omega), packedFor, packedOf_take_dest] at this

theorem Written.pos (h : Written P source recipientPublicKey payload buffer) : 0 < payload.length := by
  obtain ⟨items, hm⟩ := h.marker
  rw [hm, List.length_cons]
  exact Nat.succ_pos _

theorem Written.plaintext (h : Written P source recipientPublicKey payload buffer) :
    buffer.extract 16 (96 + payload.length) = plaintextFor P source recipientPublicKey payload := by
  have hdrop := congrArg (List.drop 16) h.take
  rw [packedFor_eq, List.drop_left' (P.deliveryHash recipientPublicKey).2, List.drop_take] at hdrop
  rw [List.extract_eq_take_drop, hdrop]

/-- A buffer that starts with the same bytes holds the same message. -/
theorem Written.of_take (h : Written P source recipientPublicKey payload buffer) {other : Bytes}
    (hsame : other.take (96 + payload.length) = buffer.take (96 + payload.length)) :
    Written P source recipientPublicKey payload other := by
  have hlen := congrArg List.length hsame
  have hinside := h.inside
  rw [List.length_take, List.length_take] at hlen
  exact ⟨by omega, hsame.trans h.take, h.marker⟩

theorem Buildable.written (source : LocalIdentity) (recipientPublicKey : Block 64) {timestamp : F64}
    {title content : Bytes} {fields : OuterFields} {out : Bytes}
    (h : Buildable P timestamp title content fields payload) (hout : 96 + payload.length ≤ out.length) :
    Written P source recipientPublicKey payload
      (overwrite out 0 (packedFor P source recipientPublicKey payload)) := by
  have htake := overwrite_start out (packedFor P source recipientPublicKey payload)
  rw [packedFor_length] at htake
  refine ⟨?_, htake, ?_⟩
  · rw [overwrite_length (by rw [packedFor_length]; omega)]
    exact hout
  · rw [h.eq]
    exact ⟨_, rfl⟩

end Written

end LxmfLite.Packing
