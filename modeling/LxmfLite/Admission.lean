import LxmfLite.Packing

namespace LxmfLite.Admission

open ByteString Execution Message Primitives Writer Encoder Payload Framing Build Packing

variable {LocalIdentity VerifyingKey : Type} {P : Platform LocalIdentity VerifyingKey}
  {usizeMax : Nat} {title content : Bytes} {fields : OuterFields} {admitted : PayloadFields Bytes}
  {entries : List EncodedField} {e : LxmfError}

def packedLenOf (usizeMax titleLen contentLen : Nat) : OuterFields → Result Nat
  | .empty => packedLen usizeMax titleLen contentLen
  | .audio field => packedLenWithAudio usizeMax titleLen contentLen field.mode field.bytes.length
  | .encoded entries => packedLenWithFields usizeMax titleLen contentLen entries

theorem packedLenOf_eq (titleLen contentLen : Nat) :
    packedLenOf usizeMax titleLen contentLen fields = admission fields >>= fun admitted =>
      countPayload usizeMax titleLen contentLen (lengths admitted) := by
  cases fields with
  | empty => rfl
  | audio field => rfl
  | encoded entries =>
      rw [packedLenOf, packedLenWithFields, admission]
      cases encodedFieldSet entries <;> rfl

section Sum

def binSize (length : Nat) : Nat :=
  (if length ≤ 0xff then 2 else if length ≤ 0xffff then 3 else 5) + length

def uintSize (n : UInt8) : Nat := if n ≤ 0x7f then 1 else 2

def mapSize (count : Nat) : Nat := if count < 16 then 1 else 3

def audioSize (mode : UInt8) (audioLen : Nat) : Nat := 1 + (2 + (uintSize mode + binSize audioLen))

def encodedSize (entries : List EncodedField) : Nat :=
  mapSize entries.length + (entries.map (fun entry => uintSize entry.1 + entry.2.length)).sum

def packedSize (titleLen contentLen fieldsLen : Nat) : Nat :=
  96 + (10 + (binSize titleLen + (binSize contentLen + fieldsLen)))

theorem binBytes_length (payload : Bytes) : (binBytes payload).length = binSize payload.length := by
  rw [binBytes, List.length_append, binSize, binPrefix]
  congr 1
  split
  · rfl
  split
  · rw [List.length_cons, toBe_length]
  · rw [List.length_cons, toBe_length]

theorem uintBytes_length (n : UInt8) : (uintBytes n).length = uintSize n := by
  rw [uintBytes, uintSize]
  split <;> rfl

theorem mapPrefix_length (count : Nat) : (mapPrefix count).length = mapSize count := by
  rw [mapPrefix, mapSize]
  split <;> rfl

theorem entries_length (entries : List EncodedField) : (entries.flatMap entryBytes).length =
    (entries.map (fun entry => uintSize entry.1 + entry.2.length)).sum := by
  rw [List.length_flatMap]
  congr 1
  apply List.map_congr_left
  intro entry _
  rw [entryBytes, List.length_append, uintBytes_length]

theorem bytes_length_audio (field : AudioField) :
    (OuterFields.audio field).bytes.length = audioSize field.mode field.bytes.length := by
  have hmap : mapSize 1 = 1 := rfl
  have hid : uintSize fieldAudio = 1 := rfl
  simp only [OuterFields.bytes, OuterFields.entries, List.length_append, mapPrefix_length,
    List.flatMap_cons, List.flatMap_nil, entryBytes, uintBytes_length, List.length_cons,
    binBytes_length, List.length_nil, audioSize, Nat.zero_add, hmap, hid]
  omega

theorem bytes_length_encoded (h : (entries.map Prod.fst).Nodup) :
    (OuterFields.encoded entries).bytes.length = encodedSize entries := by
  have hperm := ordered_perm h
  rw [OuterFields.bytes, List.length_append, mapPrefix_length, entries_length, encodedSize,
    OuterFields.entries, hperm.length_eq, (hperm.map _).sum_nat]

/-- Counting yields the true sum or fails; it never wraps. -/
theorem countPayload_sum (fields : OuterFields) (h : admission fields = .ok admitted)
    (hge : 0xffffffff ≤ usizeMax) (titleLen contentLen : Nat) :
    (countPayload usizeMax titleLen contentLen (lengths admitted) =
        .ok (packedSize titleLen contentLen fields.bytes.length) ∧
      packedSize titleLen contentLen fields.bytes.length ≤ usizeMax) ∨
    countPayload usizeMax titleLen contentLen (lengths admitted) = fail .tooLong := by
  have hlen : lxmfPackedPrefix + (payloadBytes ⟨0⟩ (List.replicate titleLen 0)
      (List.replicate contentLen 0) fields).length =
      packedSize titleLen contentLen fields.bytes.length := by
    rw [payloadBytes_length, binBytes_length, binBytes_length, List.length_replicate,
      List.length_replicate, lxmfPackedPrefix_eq, packedSize]
  by_cases hfit : Encodable (List.replicate titleLen 0) (List.replicate contentLen 0) fields ∧
      lxmfPackedPrefix + (payloadBytes ⟨0⟩ (List.replicate titleLen 0)
        (List.replicate contentLen 0) fields).length ≤ usizeMax
  · have hok := countPayload_ok ⟨0⟩ h hfit.1 hfit.2
    rw [List.length_replicate, List.length_replicate, hlen] at hok
    exact .inl ⟨hok, by rw [← hlen]; exact hfit.2⟩
  · have hfails := countPayload_fails ⟨0⟩ h hge hfit
    rw [List.length_replicate, List.length_replicate] at hfails
    exact .inr hfails

theorem packedLen_sum (hge : 0xffffffff ≤ usizeMax) (titleLen contentLen : Nat) :
    (packedLen usizeMax titleLen contentLen = .ok (packedSize titleLen contentLen 1) ∧
      packedSize titleLen contentLen 1 ≤ usizeMax) ∨
    packedLen usizeMax titleLen contentLen = fail .tooLong :=
  countPayload_sum .empty rfl hge titleLen contentLen

theorem packedLenWithAudio_sum (hge : 0xffffffff ≤ usizeMax) (titleLen contentLen : Nat) (mode : UInt8)
    (audioLen : Nat) :
    (packedLenWithAudio usizeMax titleLen contentLen mode audioLen =
        .ok (packedSize titleLen contentLen (audioSize mode audioLen)) ∧
      packedSize titleLen contentLen (audioSize mode audioLen) ≤ usizeMax) ∨
    packedLenWithAudio usizeMax titleLen contentLen mode audioLen = fail .tooLong := by
  have h := countPayload_sum (.audio ⟨mode, List.replicate audioLen 0⟩) rfl hge titleLen contentLen
  simp only [bytes_length_audio, lengths, List.length_replicate] at h
  exact h

theorem packedLenWithFields_sum (hge : 0xffffffff ≤ usizeMax) (titleLen contentLen : Nat)
    (entries : List EncodedField) :
    (packedLenWithFields usizeMax titleLen contentLen entries =
        .ok (packedSize titleLen contentLen (encodedSize entries)) ∧
      packedSize titleLen contentLen (encodedSize entries) ≤ usizeMax) ∨
    packedLenWithFields usizeMax titleLen contentLen entries = fail .tooLong ∨
    ∃ e, Refused e ∧ encodedFieldSet entries = fail e ∧
      packedLenWithFields usizeMax titleLen contentLen entries = fail e := by
  rw [packedLenWithFields]
  rcases encodedFieldSet_cases entries with ⟨present, hp⟩ | ⟨e, he, hp⟩
  · have h := countPayload_sum (.encoded entries)
      (show admission (.encoded entries) = .ok (.encoded entries present) by rw [admission, hp]; rfl)
      hge titleLen contentLen
    rw [bytes_length_encoded (encodedFieldSet_ok hp).2.1] at h
    rw [hp, ok_bind]
    exact h.imp_right .inl
  · rw [hp]
    exact .inr (.inr ⟨e, he, rfl, rfl⟩)

end Sum

theorem packedLenOf_run (P : Platform LocalIdentity VerifyingKey) (timestamp : F64)
    (title content : Bytes) (fields : OuterFields) {payload : Bytes}
    (hp : payload = payloadBytes timestamp title content fields) :
    (packedLenOf P.usizeMax title.length content.length fields = .ok (96 + payload.length) ∧
      Buildable P timestamp title content fields payload ∧ 96 + payload.length ≤ P.usizeMax) ∨
    (∃ e, packedLenOf P.usizeMax title.length content.length fields = fail e) ∧
      ¬(Buildable P timestamp title content fields payload ∧ 96 + payload.length ≤ P.usizeMax) := by
  rw [packedLenOf_eq]
  rcases admission_cases fields with ⟨admitted, ha⟩ | ⟨e, -, ha⟩
  · rw [ha, ok_bind]
    by_cases hfit : Encodable title content fields ∧ 96 + payload.length ≤ P.usizeMax
    · obtain ⟨he, hmax⟩ := hfit
      refine .inl ⟨?_, ⟨⟨admitted, ha⟩, he, hp, by omega⟩, hmax⟩
      rw [countPayload_ok timestamp ha he
        (by rw [lxmfPackedPrefix_eq, ← hp]; exact hmax), ← hp]
      rfl
    · refine .inr ⟨⟨_, countPayload_fails timestamp ha P.usizeMax_ge ?_⟩, ?_⟩
      · rw [lxmfPackedPrefix_eq, ← hp]
        exact hfit
      · rintro ⟨hb, hmax⟩
        exact hfit ⟨hb.encodable, hmax⟩
  · rw [ha]
    refine .inr ⟨⟨e, rfl⟩, ?_⟩
    rintro ⟨hb, -⟩
    obtain ⟨admitted, hok⟩ := hb.admitted
    rw [ha] at hok
    exact absurd hok (by simp)

/-- A list that encoded_field_set refuses is refused by every builder that
takes one, before it writes anything. -/
theorem builders_refuse (he : encodedFieldSet entries = fail e) (source : LocalIdentity)
    (recipientPublicKey : Block 64) (timestamp : F64) :
    (∀ buffers, (buildLinkWithFields P source recipientPublicKey timestamp title content entries).run
      buffers = (fail e, buffers)) ∧
    (∀ ratchet ephemeralPriv iv packet, (buildOpportunisticRatchetWithFields P source recipientPublicKey
      ratchet timestamp title content entries ephemeralPriv iv).run packet = (fail e, packet)) ∧
    ∀ ephemeralPriv iv packet, (buildOpportunisticWithFields P source recipientPublicKey timestamp title
      content entries ephemeralPriv iv).run packet = (fail e, packet) := by
  refine ⟨fun buffers => ?_, fun ratchet ephemeralPriv iv packet => ?_, fun ephemeralPriv iv packet => ?_⟩
  · rw [buildLinkWithFields, he, Exec.run_fail_bind]
  · rw [buildOpportunisticRatchetWithFields, he, Exec.run_fail_bind]
  · rw [buildOpportunisticWithFields, buildOpportunisticRatchetWithFields, he, Exec.run_fail_bind]

/-- A link builder succeeds when the counted length fits the buffers, and returns it. -/
theorem packedLenOf_decides {s : Nat} (source : LocalIdentity) (recipientPublicKey : Block 64)
    (timestamp : F64) (buffers : LinkBuffers)
    (hs : packedLenOf P.usizeMax title.length content.length fields = .ok s) :
    ((∃ n buffers', (buildLinkOf P source recipientPublicKey timestamp title content fields).run
        buffers = (.ok n, buffers')) ↔
      s ≤ buffers.out.length ∧ s - 32 ≤ buffers.scratch.length) ∧
    ∀ n buffers', (buildLinkOf P source recipientPublicKey timestamp title content fields).run
      buffers = (.ok n, buffers') → n = s := by
  rcases packedLenOf_run P timestamp title content fields rfl with ⟨hsize, hb, -⟩ | ⟨⟨e, hsize⟩, -⟩
  swap
  · rw [hsize] at hs
    exact absurd hs (by simp)
  rw [hsize] at hs
  cases hs
  constructor
  · constructor
    · rintro ⟨n, buffers', hrun⟩
      obtain ⟨payload, hb', hscratch, hout, -, -⟩ := buildLinkOf_eq_ok.mp hrun
      obtain rfl := hb'.eq
      exact ⟨hout, by omega⟩
    · rintro ⟨hout, hscratch⟩
      exact ⟨_, _, buildLinkOf_eq_ok.mpr ⟨_, hb, by omega, hout, rfl, rfl⟩⟩
  · intro n buffers' hrun
    obtain ⟨payload, hb', -, -, rfl, -⟩ := buildLinkOf_eq_ok.mp hrun
    rw [hb'.eq]

theorem packedLenOf_refuses {f : Fault LxmfError} (source : LocalIdentity)
    (recipientPublicKey : Block 64) (timestamp : F64) {buffers : LinkBuffers}
    (hslice : buffers.out.length ≤ P.usizeMax)
    (hf : packedLenOf P.usizeMax title.length content.length fields = .error f) :
    ∃ e buffers', (buildLinkOf P source recipientPublicKey timestamp title content fields).run buffers =
      (fail e, buffers') := by
  rcases packedLenOf_run P timestamp title content fields rfl with ⟨hsize, -, -⟩ | ⟨-, hno⟩
  · rw [hsize] at hf
    exact absurd hf (by simp)
  rcases buildLinkOf_run P source recipientPublicKey _ rfl buffers with ⟨-, hb, -, hout⟩ | ⟨hfails, -⟩
  · exact absurd ⟨hb, by omega⟩ hno
  · exact hfails

/-- The size functions decide which buffers the builders succeed on. -/
theorem packedLen_exact (P : Platform LocalIdentity VerifyingKey) (source : LocalIdentity)
    (recipientPublicKey : Block 64) (timestamp : F64) (title content : Bytes) (fields : OuterFields) :
    (∀ s, packedLenOf P.usizeMax title.length content.length fields = .ok s → ∀ buffers,
      ((∃ n buffers', (buildLinkOf P source recipientPublicKey timestamp title content fields).run
          buffers = (.ok n, buffers')) ↔
        s ≤ buffers.out.length ∧ s - 32 ≤ buffers.scratch.length) ∧
      ∀ n buffers', (buildLinkOf P source recipientPublicKey timestamp title content fields).run
        buffers = (.ok n, buffers') → n = s) ∧
    (∀ f, packedLenOf P.usizeMax title.length content.length fields = .error f → ∀ buffers,
      buffers.out.length ≤ P.usizeMax → ∃ e buffers', (buildLinkOf P source recipientPublicKey timestamp
        title content fields).run buffers = (fail e, buffers')) ∧
    (∀ entries e, packedLenWithFields P.usizeMax title.length content.length entries = fail e →
      Refused e →
      (∀ buffers, (buildLinkWithFields P source recipientPublicKey timestamp title content entries).run
        buffers = (fail e, buffers)) ∧
      (∀ ratchet ephemeralPriv iv packet, (buildOpportunisticRatchetWithFields P source
        recipientPublicKey ratchet timestamp title content entries ephemeralPriv iv).run packet =
          (fail e, packet)) ∧
      ∀ ephemeralPriv iv packet, (buildOpportunisticWithFields P source recipientPublicKey timestamp
        title content entries ephemeralPriv iv).run packet = (fail e, packet)) ∧
    ∀ titleLen contentLen,
      ((packedLen P.usizeMax titleLen contentLen = .ok (packedSize titleLen contentLen 1) ∧
          packedSize titleLen contentLen 1 ≤ P.usizeMax) ∨
        packedLen P.usizeMax titleLen contentLen = fail .tooLong) ∧
      (∀ mode audioLen,
        (packedLenWithAudio P.usizeMax titleLen contentLen mode audioLen =
            .ok (packedSize titleLen contentLen (audioSize mode audioLen)) ∧
          packedSize titleLen contentLen (audioSize mode audioLen) ≤ P.usizeMax) ∨
        packedLenWithAudio P.usizeMax titleLen contentLen mode audioLen = fail .tooLong) ∧
      ∀ entries,
        (packedLenWithFields P.usizeMax titleLen contentLen entries =
            .ok (packedSize titleLen contentLen (encodedSize entries)) ∧
          packedSize titleLen contentLen (encodedSize entries) ≤ P.usizeMax) ∨
        packedLenWithFields P.usizeMax titleLen contentLen entries = fail .tooLong ∨
        ∃ e, Refused e ∧ encodedFieldSet entries = fail e ∧
          packedLenWithFields P.usizeMax titleLen contentLen entries = fail e := by
  refine ⟨fun s hs buffers => packedLenOf_decides source recipientPublicKey timestamp buffers hs,
    fun f hf buffers hslice => packedLenOf_refuses source recipientPublicKey timestamp hslice hf, ?_,
    fun titleLen contentLen => ⟨packedLen_sum P.usizeMax_ge titleLen contentLen,
      packedLenWithAudio_sum P.usizeMax_ge titleLen contentLen,
      packedLenWithFields_sum P.usizeMax_ge titleLen contentLen⟩⟩
  intro entries e he hrefused
  rcases packedLenWithFields_sum P.usizeMax_ge title.length content.length entries with
    ⟨hok, -⟩ | hlong | ⟨e', -, hset, hfail⟩
  · rw [hok] at he
    exact absurd he (by simp [fail])
  · rw [hlong] at he
    cases he
    rcases hrefused with h | h | h <;> exact absurd h (by decide)
  · rw [hfail] at he
    cases he
    exact builders_refuse hset source recipientPublicKey timestamp

end LxmfLite.Admission
