import LxmfLite.Decoding

namespace LxmfLite.Authentication

open ByteString Execution SelfDelimiting MessagePack Message Primitives Reader Skipping FieldMaps
  Parse Decoding

variable {LocalIdentity VerifyingKey : Type} (P : Platform LocalIdentity VerifyingKey)

/-- dest || source || payload, the bytes whose hash is the message id. -/
def hashedPart (dest source : Block 16) (payload : Bytes) : Bytes := dest.val ++ (source.val ++ payload)

def messageIdOf (dest source : Block 16) (payload : Bytes) : Block 32 :=
  P.sha256 (hashedPart dest source payload)

def signedPart (dest source : Block 16) (payload : Bytes) : Bytes :=
  hashedPart dest source payload ++ (messageIdOf P dest source payload).val

def plaintextOf (source : Block 16) (signature : Block 64) (payload : Bytes) : Bytes :=
  source.val ++ (signature.val ++ payload)

def packedOf (dest source : Block 16) (signature : Block 64) (payload : Bytes) : Bytes :=
  dest.val ++ plaintextOf source signature payload

/-- What a parser does with the parts of a message: bind the source, decode,
validate the fields, verify. room is the length of the scratch memory. -/
def authenticate (me : LocalIdentity) (sourcePublicKey : Block 64) (source : Block 16)
    (signature : Block 64) (payload : Bytes) (room : Nat) : Result LxmfView := do
  rejectIf (P.deliveryHash sourcePublicKey ≠ source) .sourceHashMismatch
  let d ← frame payload
  checkFields d.fields
  rejectIf (room < 64 + d.length) .outputTooSmall
  let key ← orFail (P.verifyingKey (last32 sourcePublicKey)) .signatureInvalid
  let payload4 := stripped payload d.length
  rejectIf (P.verify key (signedPart P (P.lxmfDeliveryHash me) source payload4) signature = false)
    .signatureInvalid
  pure ⟨messageIdOf P (P.lxmfDeliveryHash me) source payload4, source, d.timestamp, d.title,
    d.content, d.fields⟩

/-- What parse_decrypted does with the parts of a plaintext of any length: its
working arrays bound the signed payload. -/
def authenticateOpened (me : LocalIdentity) (sourcePublicKey : Block 64) (source : Block 16)
    (signature : Block 64) (payload : Bytes) : Result LxmfView := do
  rejectIf (P.deliveryHash sourcePublicKey ≠ source) .sourceHashMismatch
  let d ← frame payload
  checkFields d.fields
  rejectIf (d.length > P.maxLxmfPayload) .malformedPayload
  let key ← orFail (P.verifyingKey (last32 sourcePublicKey)) .signatureInvalid
  let payload4 := stripped payload d.length
  rejectIf (P.verify key (signedPart P (P.lxmfDeliveryHash me) source payload4) signature = false)
    .signatureInvalid
  pure ⟨messageIdOf P (P.lxmfDeliveryHash me) source payload4, source, d.timestamp, d.title,
    d.content, d.fields⟩

section Lengths

variable {dest source : Block 16} {signature : Block 64} {payload : Bytes}

@[simp] theorem hashedPart_length : (hashedPart dest source payload).length = 32 + payload.length := by
  simp only [hashedPart, List.length_append, dest.2, source.2]
  omega

@[simp] theorem signedPart_length :
    (signedPart P dest source payload).length = 64 + payload.length := by
  simp only [signedPart, List.length_append, hashedPart_length, (messageIdOf P dest source payload).2]
  omega

@[simp] theorem plaintextOf_length :
    (plaintextOf source signature payload).length = 80 + payload.length := by
  simp only [plaintextOf, List.length_append, source.2, signature.2]
  omega

@[simp] theorem packedOf_length :
    (packedOf dest source signature payload).length = 96 + payload.length := by
  simp only [packedOf, List.length_append, dest.2, plaintextOf_length]
  omega

theorem packedOf_take : (packedOf dest source signature payload).take 32 = dest.val ++ source.val := by
  rw [packedOf, plaintextOf, ← List.append_assoc, List.take_left']
  rw [List.length_append, dest.2, source.2]

theorem packedOf_take_dest : (packedOf dest source signature payload).take 16 = dest.val :=
  List.take_left' dest.2

theorem packedOf_drop : (packedOf dest source signature payload).drop 96 = payload := by
  rw [packedOf, plaintextOf, ← List.append_assoc, ← List.append_assoc, List.drop_left']
  simp only [List.length_append, dest.2, source.2, signature.2]

theorem toArray_block {n : Nat} (b : Block n) : toArray n b.val = .ok b := dif_pos b.2

theorem toArray_extract {bytes : Bytes} {i n : Nat} (h : i + n ≤ bytes.length) :
    toArray n (bytes.extract i (i + n)) = .ok ⟨bytes.extract i (i + n),
      by rw [extract_length h, Nat.add_sub_cancel_left]⟩ := dif_pos _

theorem exists_packed {data : Bytes} (h : 97 ≤ data.length) :
    ∃ dest source signature payload, data = packedOf dest source signature payload ∧
      payload ≠ [] := by
  refine ⟨⟨data.take 16, ?_⟩, ⟨(data.drop 16).take 16, ?_⟩, ⟨(data.drop 32).take 64, ?_⟩,
    data.drop 96, ?_, ?_⟩
  · rw [List.length_take]
    omega
  · rw [List.length_take, List.length_drop]
    omega
  · rw [List.length_take, List.length_drop]
    omega
  · have h96 : data.drop 96 = (data.drop 32).drop 64 := by rw [List.drop_drop]
    have h32 : data.drop 32 = (data.drop 16).drop 16 := by rw [List.drop_drop]
    simp only [packedOf, plaintextOf]
    rw [h96, List.take_append_drop, h32, List.take_append_drop, List.take_append_drop]
  · rw [ne_eq, List.drop_eq_nil_iff]
    omega

end Lengths

section Region

variable {dest source : Block 16} {payload buf : Bytes} {n : Nat}

theorem copy_dest (dest : Block 16) (h : 16 ≤ buf.length) :
    (copyFromSlice buf 0 16 dest.val : Result Bytes) = .ok (overwrite buf 0 dest.val) :=
  copyFromSlice_eq (by rw [dest.2]) h

theorem copy_source (h : 32 ≤ buf.length) :
    (copyFromSlice (overwrite buf 0 dest.val) 16 32 source.val : Result Bytes) =
      .ok (overwrite buf 0 (dest.val ++ source.val)) :=
  copyFromSlice_append (by rw [dest.2]) (by rw [source.2]) h

theorem copy_payload (hn : n = payload.length) (h : 32 + n ≤ buf.length) :
    (copyFromSlice (overwrite buf 0 (dest.val ++ source.val)) 32 (32 + n) payload : Result Bytes) =
      .ok (overwrite buf 0 (hashedPart dest source payload)) := by
  subst hn
  rw [copyFromSlice_append (by rw [List.length_append, dest.2, source.2]) rfl h, List.append_assoc,
    hashedPart]

theorem slice_hashed (hn : n = payload.length) (h : 32 + n ≤ buf.length) :
    (slice (overwrite buf 0 (hashedPart dest source payload)) 0 (32 + n) : Result Bytes) =
      .ok (hashedPart dest source payload) := by
  subst hn
  exact slice_overwrite (by rw [hashedPart_length, Nat.zero_add]) h

theorem copy_hash (hn : n = payload.length) (h : 64 + n ≤ buf.length) :
    (copyFromSlice (overwrite buf 0 (hashedPart dest source payload)) (32 + n) (64 + n)
      (messageIdOf P dest source payload).val : Result Bytes) =
      .ok (overwrite buf 0 (signedPart P dest source payload)) := by
  subst hn
  refine copyFromSlice_append (by rw [hashedPart_length, Nat.zero_add]) ?_ h
  rw [(messageIdOf P dest source payload).2]
  omega

theorem slice_signed (hn : n = payload.length) (h : 64 + n ≤ buf.length) :
    (slice (overwrite buf 0 (signedPart P dest source payload)) 0 (64 + n) : Result Bytes) =
      .ok (signedPart P dest source payload) := by
  subst hn
  exact slice_overwrite (by rw [signedPart_length, Nat.zero_add]) h

theorem copy_marker {m : UInt8} {tail : Bytes} (h : 33 + tail.length ≤ buf.length) :
    (copyFromSlice (overwrite buf 0 (hashedPart dest source ([m] ++ tail))) 32 33 [0x94] :
      Result Bytes) = .ok (overwrite buf 0 (hashedPart dest source ([0x94] ++ tail))) := by
  have hsplit (b : UInt8) : hashedPart dest source ([b] ++ tail) =
      (dest.val ++ source.val) ++ ([b] ++ tail) := (List.append_assoc _ _ _).symm
  have hlen : (dest.val ++ source.val).length = 32 := by rw [List.length_append, dest.2, source.2]
  have hfit : 0 + (dest.val ++ source.val ++ ([m] ++ tail)).length ≤ buf.length := by
    rw [List.length_append, hlen, List.length_append, List.length_singleton]
    omega
  have hinside := overwrite_inside [0x94] hfit rfl
  rw [hlen, Nat.zero_add] at hinside
  rw [hsplit, hsplit, ← hinside]
  refine copyFromSlice_eq rfl ?_
  rw [overwrite_length hfit]
  omega

end Region

section Markers

/-- The two tests of the array marker let 0x94 ..= 0x9f pass. -/
theorem marker_tests (m : UInt8) :
    (m &&& 0xf0 = 0x90 ∧ ¬m &&& 0x0f < 4) ↔ (0x94 ≤ m.toNat ∧ m.toNat ≤ 0x9f) := by
  have h : ∀ m : Fin 256, (UInt8.ofNat m.val &&& 0xf0 = 0x90 ∧ ¬UInt8.ofNat m.val &&& 0x0f < 4) ↔
      (0x94 ≤ m.val ∧ m.val ≤ 0x9f) := by decide +kernel
  simpa using h ⟨m.toNat, toNat_lt m⟩

theorem marker_guards {α : Type} (m : UInt8) (x : Result α) :
    (if m &&& 0xf0 ≠ 0x90 then fail .malformedPayload
      else if m &&& 0x0f < 4 then fail .malformedPayload else x) =
    if ¬(0x94 ≤ m.toNat ∧ m.toNat ≤ 0x9f) then fail .malformedPayload else x := by
  have h := marker_tests m
  by_cases h1 : m &&& 0xf0 = 0x90
  · rw [if_neg (not_not_intro h1)]
    by_cases h2 : m &&& 0x0f < 4
    · rw [if_pos h2, if_pos (fun hc => (h.mpr hc).2 h2)]
    · rw [if_neg h2, if_neg (not_not_intro (h.mp ⟨h1, h2⟩))]
  · rw [if_pos h1, if_pos (fun hc => h1 (h.mpr hc).1)]

end Markers

section Link

variable {P}
variable {me : LocalIdentity} {sourcePublicKey : Block 64} {dest source : Block 16}
  {signature : Block 64} {payload : Bytes}

theorem stripped_eq_of_pos (length : Nat) (h1 : 1 ≤ length) (hl : length ≤ payload.length) :
    ∃ m tail, payload.take length = [m] ++ tail ∧ stripped payload length = [0x94] ++ tail ∧
      1 + tail.length = length := by
  obtain ⟨m, rest, rfl⟩ := List.exists_cons_of_ne_nil (List.length_pos_iff.mp (by omega) : payload ≠ [])
  obtain ⟨n, rfl⟩ : ∃ n, length = n + 1 := ⟨length - 1, by omega⟩
  refine ⟨m, rest.take n, rfl, rfl, ?_⟩
  rw [List.length_cons] at hl
  rw [List.length_take_of_le (by omega)]
  omega

theorem eval_parseLink_short {data : Bytes} (h : data.length < 97) (buffers : LinkScratch) :
    (parseLink P me data sourcePublicKey).eval buffers = fail .malformedPayload := by
  rw [parseLink, Exec.eval_rejectIf_bind, if_pos (by rw [lxmfPackedPrefix_eq]; exact h)]

theorem slice_packed_dest :
    (slice (packedOf dest source signature payload) 0 16 : Result Bytes) = .ok dest.val :=
  slice_middle (a := []) rfl (by rw [dest.2])

theorem slice_packed_source (dest source : Block 16) (signature : Block 64) (payload : Bytes) :
    (slice (packedOf dest source signature payload) 16 32 : Result Bytes) = .ok source.val :=
  slice_middle dest.2 (by rw [source.2])

theorem slice_packed_signature (dest source : Block 16) (signature : Block 64) (payload : Bytes) :
    (slice (packedOf dest source signature payload) 32 96 : Result Bytes) = .ok signature.val := by
  rw [packedOf, plaintextOf, ← List.append_assoc]
  exact slice_middle (by rw [List.length_append, dest.2, source.2]) (by rw [signature.2])

theorem slice_packed_payload :
    (slice (packedOf dest source signature payload) 96 (96 + payload.length) : Result Bytes) =
      .ok payload := by
  rw [packedOf, plaintextOf, ← List.append_assoc, ← List.append_assoc]
  exact slice_end (by simp only [List.length_append, dest.2, source.2, signature.2]) rfl

theorem frame_bind {β : Type} {rest : Elements → Result β}
    {tail : Block 8 → Bytes × Nat → Bytes × Nat → Nat → Bytes → Result β}
    (h : ∀ stamp title content p fields, 1 ≤ p → p ≤ payload.length →
      tail stamp title content p fields =
        rest ⟨F64.fromBeBytes stamp.val, title.1, content.1, fields, p⟩) :
    (if payload.length = 0 then fail .malformedPayload
      else index payload 0 >>= fun marker =>
        if marker &&& 0xf0 ≠ 0x90 then fail .malformedPayload
        else if marker &&& 0x0f < 4 then fail .malformedPayload
        else if payload.length < 10 then fail .malformedPayload
        else index payload 1 >>= fun second =>
          if second ≠ 0xcb then fail .malformedPayload
          else slice payload 2 10 >>= fun bytes => toArray 8 bytes >>= fun stamp =>
            readBin payload 10 >>= fun title => readBin payload title.2 >>= fun content =>
              skipValue payload content.2 0 >>= fun p => slice payload content.2 p >>= fun fields =>
                tail stamp title content p fields) =
      frame payload >>= rest := by
  simp only [frame, rejectIf_bind, ite_bind, fail_bind, bind_assoc, marker_guards]
  apply ite_congr rfl (fun _ => rfl)
  intro _
  refine bind_congr (fun marker => ite_congr rfl (fun _ => rfl) (fun _ => ?_))
  apply ite_congr rfl (fun _ => rfl)
  intro hlen
  refine bind_congr (fun second => ite_congr rfl (fun _ => rfl) (fun _ => ?_))
  rw [slice_eq (by omega) (by omega), ok_bind, ok_bind, toArray_extract (by omega), ok_bind]
  refine bind_congr (fun title => bind_congr (fun content => ?_))
  rcases malformed_skipValue payload content.2 0 with ⟨afterFields, hf⟩ | hf
  swap
  · rw [hf]
    rfl
  obtain ⟨enc, hp, hv, rfl⟩ := skipValue_eq_ok.mp hf
  have hend := prefix_end_of_ne_nil hp hv.ne_nil
  have hone : 1 ≤ content.2 + enc.length := Nat.le_add_left_of_le hv.length_pos
  rw [hf, ok_bind, ok_bind]
  apply bind_congr
  intro fields
  exact h _ title content _ fields hone hend

theorem eval_parseLink (hne : payload ≠ []) (buffers : LinkScratch) :
    (parseLink P me (packedOf dest source signature payload) sourcePublicKey).eval buffers =
      if dest ≠ P.lxmfDeliveryHash me then fail .destinationMismatch
      else authenticate P me sourcePublicKey source signature payload buffers.scratch.length := by
  have hpos := List.length_pos_iff.mpr hne
  simp only [parseLink, authenticate, Exec.eval_rejectIf_bind, Exec.eval_lift_bind, packedOf_length,
    slice_packed_dest, slice_packed_source, slice_packed_signature, slice_packed_payload, ok_bind,
    toArray_block, rejectIf_bind]
  rw [if_neg (by rw [lxmfPackedPrefix_eq]; omega)]
  by_cases hd : dest ≠ P.lxmfDeliveryHash me
  · rw [if_pos hd, if_pos hd]
  rw [if_neg hd, if_neg hd]
  obtain rfl : dest = P.lxmfDeliveryHash me := by tauto
  apply ite_congr rfl (fun _ => rfl)
  intro _
  apply frame_bind
  intro stamp title content p fields hone hend
  simp only [Exec.eval_get_bind, Exec.eval_set_bind, Exec.eval_lift_bind, run_validateFields,
    Exec.eval_rejectIf_bind, pure_eq_ok]
  refine bind_congr (fun _ => ite_congr rfl (fun _ => rfl) (fun hroom => ?_))
  obtain ⟨m, tail, htake, hstrip, hlen⟩ := stripped_eq_of_pos p (by omega) hend
  have hhead : (slice payload 0 p : Result Bytes) = .ok ([m] ++ tail) := by
    rw [slice_eq (Nat.zero_le p) hend, List.extract_eq_take_drop, ← htake]
    rfl
  rw [copy_dest _ (by omega), ok_bind, copy_source (by omega), ok_bind, hhead, ok_bind,
    copy_payload (by simp only [List.length_append, List.length_singleton]; omega) (by omega), ok_bind,
    copy_marker (by omega), ok_bind, ← hstrip]
  have hn : p = (stripped payload p).length := by
    rw [hstrip, List.length_append, List.length_singleton, hlen]
  rw [slice_hashed hn (by omega), ok_bind, ← messageIdOf, copy_hash P hn (by omega), ok_bind,
    slice_signed P hn (by omega)]
  rfl

theorem setFirst_eq {tail : Bytes} {m : UInt8} {buf : Bytes} (h : 1 + tail.length ≤ buf.length) :
    setFirst (overwrite buf 0 ([m] ++ tail)) 0x94 = .ok (overwrite buf 0 ([0x94] ++ tail)) := by
  have hfit : 0 + ([] ++ ([m] ++ tail)).length ≤ buf.length := by simpa [Nat.add_comm] using h
  have hinside := overwrite_inside [0x94] hfit rfl
  simp only [List.nil_append, List.length_nil] at hinside
  rw [setFirst, ← hinside]
  refine copyFromSlice_eq rfl ?_
  rw [overwrite_length (by simpa [Nat.add_comm] using h)]
  omega

theorem eval_parseDecrypted_short {scratch : Bytes} {ptLen : Nat} (h : ptLen ≤ scratch.length)
    (hlt : ptLen < 81) (fieldScratch : FieldScratch) :
    (parseDecrypted P me sourcePublicKey scratch ptLen).eval fieldScratch = fail .malformedPayload := by
  rw [parseDecrypted, Exec.eval_lift_bind, slice_eq (Nat.zero_le ptLen) h, ok_bind,
    Exec.eval_rejectIf_bind, if_pos]
  rw [extract_length h, plaintextPrefix_eq]
  omega

theorem slice_plaintext_source :
    (slice (plaintextOf source signature payload) 0 16 : Result Bytes) = .ok source.val :=
  slice_middle (a := []) rfl (by rw [source.2])

theorem slice_plaintext_signature :
    (slice (plaintextOf source signature payload) 16 80 : Result Bytes) = .ok signature.val :=
  slice_middle source.2 (by rw [signature.2])

theorem slice_plaintext_payload :
    (slice (plaintextOf source signature payload) 80 (80 + payload.length) : Result Bytes) =
      .ok payload := by
  rw [plaintextOf, ← List.append_assoc]
  exact slice_end (by simp only [List.length_append, source.2, signature.2]) rfl

theorem eval_parseDecrypted_opened {scratch : Bytes} {ptLen : Nat} (hne : payload ≠ [])
    (hpt : slice scratch 0 ptLen = (.ok (plaintextOf source signature payload) : Result Bytes))
    (fieldScratch : FieldScratch) :
    (parseDecrypted P me sourcePublicKey scratch ptLen).eval fieldScratch =
      authenticateOpened P me sourcePublicKey source signature payload := by
  have hpos := List.length_pos_iff.mpr hne
  simp only [parseDecrypted, authenticateOpened, Exec.eval_rejectIf_bind, Exec.eval_lift_bind, hpt, ok_bind,
    plaintextOf_length, slice_plaintext_source, slice_plaintext_signature, slice_plaintext_payload,
    toArray_block, rejectIf_bind]
  rw [if_neg (by rw [plaintextPrefix_eq]; omega)]
  apply ite_congr rfl (fun _ => rfl)
  intro _
  have hless (marker : UInt8) : (marker &&& 0x0f).toNat < 4 ↔ marker &&& 0x0f < 4 := Iff.rfl
  simp only [hless]
  apply frame_bind
  intro stamp title content p fields hone hend
  have hcheck : (validateFields fields).eval fieldScratch = checkFields fields :=
    run_validateFields fieldScratch
  rw [Exec.eval_bind, hcheck]
  simp only [Exec.eval_lift_bind, Exec.eval_rejectIf_bind]
  refine bind_congr (fun _ => ite_congr rfl (fun _ => rfl) (fun hroom => ?_))
  have hp : p ≤ P.maxLxmfPayload := by omega
  obtain ⟨m, tail, htake, hstrip, hlen⟩ := stripped_eq_of_pos p (by omega) hend
  have hn : p = (stripped payload p).length := by
    rw [hstrip, List.length_append, List.length_singleton, hlen]
  have hhead : (slice payload 0 p : Result Bytes) = .ok ([m] ++ tail) := by
    rw [slice_eq (Nat.zero_le p) hend, List.extract_eq_take_drop, ← htake]
    rfl
  have hpay (n : Nat) : (List.replicate n (0 : UInt8)).length = n := List.length_replicate
  have hsigned : (List.replicate (lxmfDestLength * 2 + P.maxLxmfPayload + messageIdLength)
      (0 : UInt8)).length = 64 + P.maxLxmfPayload := by
    rw [List.length_replicate]
    rw [lxmfDestLength, messageIdLength]
    omega
  have hcopy : (copyFromSlice (List.replicate P.maxLxmfPayload 0) 0 p ([m] ++ tail) : Result Bytes) =
      .ok (overwrite (List.replicate P.maxLxmfPayload 0) 0 ([m] ++ tail)) :=
    copyFromSlice_eq (by rw [List.length_append, List.length_singleton]; omega) (by rw [hpay]; exact hp)
  rw [hhead, ok_bind, hcopy, ok_bind,
    setFirst_eq (by rw [hpay]; omega), ok_bind, copy_dest _ (by omega), ok_bind,
    copy_source (by omega), ok_bind, ← hstrip, slice_overwrite (by omega) (by rw [hpay]; exact hp),
    ok_bind, copy_payload hn (by omega), ok_bind, slice_hashed hn (by omega), ok_bind, ← messageIdOf,
    show 32 + p + 32 = 64 + p by omega, copy_hash P hn (by omega), ok_bind]
  rw [slice_signed P hn (by omega)]
  rfl

/-- With room for the payload in the working arrays their bound does not matter. -/
theorem authenticateOpened_eq (hmax : payload.length ≤ P.maxLxmfPayload) :
    authenticateOpened P me sourcePublicKey source signature payload =
      authenticate P me sourcePublicKey source signature payload (64 + payload.length) := by
  rw [authenticateOpened, authenticate]
  apply bind_congr
  intro _
  rcases malformed_frame payload with ⟨d, hd⟩ | hd
  · have hle := (frame_eq_ok.mp hd).length_le
    simp only [hd, ok_bind, rejectIf_bind]
    rw [if_neg (by omega), if_neg (by omega)]
  · rw [hd]
    rfl

theorem eval_parseDecrypted {scratch : Bytes} {ptLen : Nat} (hne : payload ≠ [])
    (hpt : slice scratch 0 ptLen = (.ok (plaintextOf source signature payload) : Result Bytes))
    (hmax : payload.length ≤ P.maxLxmfPayload) (fieldScratch : FieldScratch) :
    (parseDecrypted P me sourcePublicKey scratch ptLen).eval fieldScratch =
      authenticate P me sourcePublicKey source signature payload (64 + payload.length) := by
  rw [eval_parseDecrypted_opened hne hpt, authenticateOpened_eq hmax]

end Link

end LxmfLite.Authentication
