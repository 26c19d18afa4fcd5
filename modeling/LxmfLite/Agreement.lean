import LxmfLite.Correspondence
import LxmfLite.Packets

namespace LxmfLite.Agreement

open ByteString Execution Message Primitives Writer Parse Payload Framing Build Decoding Authentication Inbound
  Packing Signing RoundTrip Opportunistic Publication Outbound Carriage Packets Correspondence

variable {LocalIdentity VerifyingKey : Type}

deriving instance DecidableEq for OuterFields

structure Letter (LocalIdentity : Type) where
  source : LocalIdentity
  recipientPublicKey : Block 64
  timestamp : F64
  title : Bytes
  content : Bytes
  fields : OuterFields
  deriving DecidableEq

/-- What a builder has signed: the bytes that it signed, and the signature and
the id that it made of them. -/
structure Sent (LocalIdentity : Type) where
  letter : Letter LocalIdentity
  signedPart : Bytes
  signature : Bytes
  messageId : Block 32
  deriving DecidableEq

/-- What a parser accepted: packed is the message it was given, or its
destination and what it decrypted. -/
structure Taken (LocalIdentity : Type) where
  me : LocalIdentity
  sourcePublicKey : Block 64
  packed : Bytes
  view : LxmfView
  deriving DecidableEq

inductive Call (LocalIdentity : Type)
  | buildLink (letter : Letter LocalIdentity) (buffers : LinkBuffers)
  | buildPacket (source : LocalIdentity) (recipientPublicKey : Block 64) (ratchet : Option (Block 32))
      (timestamp : F64) (title content : Bytes) (ephemeralPriv : Block 32) (iv : Block 16)
      (entries : Option (List EncodedField)) (packet : PacketBuffers)
  | buildPlaintext (source : LocalIdentity) (recipientPublicKey : Block 64) (timestamp : F64)
      (title content : Bytes) (buffers : PlaintextBuffers)
  | parseLink (me : LocalIdentity) (data : Bytes) (sourcePublicKey : Block 64) (scratch : LinkScratch)
  | parsePacket (me : LocalIdentity) (packetPayload : Bytes) (sourcePublicKey : Block 64)
      (scratch : LinkScratch)
  | parseRatchet (me : LocalIdentity) (ring : List (Block 32)) (packetPayload : Bytes)
      (sourcePublicKey : Block 64) (scratch : LinkScratch)
  | parseHint (me : LocalIdentity) (ring : List (Block 32)) (which : Option Nat) (packetPayload : Bytes)
      (sourcePublicKey : Block 64) (scratch : LinkScratch)

section Events

variable (P : InboundPlatform LocalIdentity VerifyingKey)

/-- A Link builder signs behind its last check. What it signed is left in the
scratch, the signature is in the message. -/
def sentLink (letter : Letter LocalIdentity) :
    Result Nat × LinkBuffers → Option (Sent LocalIdentity ⊕ Taken LocalIdentity)
  | (.ok n, buffers) => some (.inl ⟨letter, buffers.scratch.take (n - 32), buffers.out.extract 32 96,
      buffers.outMessageId⟩)
  | (.error _, _) => none

/-- build_plaintext has signed once it has a payload, whatever the caller's
buffer or the encryption then makes of it. -/
def sentPayload (letter : Letter LocalIdentity) : Option (Sent LocalIdentity ⊕ Taken LocalIdentity) :=
  match admission letter.fields >>= signPayload P.toPlatform letter.source letter.recipientPublicKey
      letter.timestamp letter.title letter.content with
  | .ok s => some (.inl ⟨letter, s.signedPart, s.signature.val, s.hash⟩)
  | .error _ => none

def takes (me : LocalIdentity) (sourcePublicKey : Block 64) (packed : Bytes) :
    Result LxmfView → Option (Sent LocalIdentity ⊕ Taken LocalIdentity)
  | .ok view => some (.inr ⟨me, sourcePublicKey, packed, view⟩)
  | .error _ => none

theorem sentLink_eq {letter : Letter LocalIdentity} {result : Result Nat × LinkBuffers}
    {sent : Sent LocalIdentity} (h : sentLink letter result = some (.inl sent)) :
    ∃ n buffers, result = (.ok n, buffers) ∧ sent = ⟨letter, buffers.scratch.take (n - 32),
      buffers.out.extract 32 96, buffers.outMessageId⟩ := by
  obtain ⟨result, buffers⟩ := result
  cases result with
  | error e => cases h
  | ok n =>
      cases h
      exact ⟨n, buffers, rfl, rfl⟩

theorem sentLink_ne {letter : Letter LocalIdentity} {taken : Taken LocalIdentity}
    {result : Result Nat × LinkBuffers} : sentLink letter result ≠ some (.inr taken) := by
  obtain ⟨result, buffers⟩ := result
  cases result with
  | error e => exact fun h => by cases h
  | ok n => exact fun h => by cases h

theorem sentPayload_ne {letter : Letter LocalIdentity} {taken : Taken LocalIdentity} :
    sentPayload P letter ≠ some (.inr taken) := by
  rw [sentPayload]
  split
  · exact fun h => by cases h
  · exact fun h => by cases h

theorem takes_eq {me : LocalIdentity} {key : Block 64} {packed : Bytes} {result : Result LxmfView}
    {taken : Taken LocalIdentity} (h : takes me key packed result = some (.inr taken)) :
    ∃ view, result = .ok view ∧ taken = ⟨me, key, packed, view⟩ := by
  cases result with
  | error e => cases h
  | ok view =>
      cases h
      exact ⟨view, rfl, rfl⟩

theorem takes_ne {me : LocalIdentity} {key : Block 64} {packed : Bytes} {result : Result LxmfView}
    {sent : Sent LocalIdentity} : takes me key packed result ≠ some (.inl sent) := by
  cases result with
  | error e => exact fun h => by cases h
  | ok view => exact fun h => by cases h

def opened (me : LocalIdentity) {room : Nat} (decrypted : Except CryptoError Nat × Block room) : Bytes :=
  (P.lxmfDeliveryHash me).val ++
    match decrypted.1 with
    | .ok n => decrypted.2.val.take n
    | .error _ => []

def event : Call LocalIdentity → Option (Sent LocalIdentity ⊕ Taken LocalIdentity)
  | .buildLink letter buffers =>
      sentLink letter ((buildLinkOf P.toPlatform letter.source letter.recipientPublicKey letter.timestamp
        letter.title letter.content letter.fields).run buffers)
  | .buildPacket source recipientPublicKey _ timestamp title content _ _ entries _ =>
      sentPayload P ⟨source, recipientPublicKey, timestamp, title, content, fieldsOf entries⟩
  | .buildPlaintext source recipientPublicKey timestamp title content _ =>
      sentPayload P ⟨source, recipientPublicKey, timestamp, title, content, .empty⟩
  | .parseLink me data sourcePublicKey scratch =>
      takes me sourcePublicKey data
        ((Parse.parseLink P.toPlatform me data sourcePublicKey).eval scratch)
  | .parsePacket me packetPayload sourcePublicKey scratch =>
      takes me sourcePublicKey
        (opened P me (P.eciesDecrypt packetPayload (first32 (P.privateKey me)) (P.localIdentityHash me)
          scratch.scratch))
        ((parseOpportunistic P me packetPayload sourcePublicKey).eval scratch)
  | .parseRatchet me ring packetPayload sourcePublicKey scratch =>
      let decrypted := P.eciesDecryptWithRatchets packetPayload ring (first32 (P.privateKey me))
        (P.localIdentityHash me) scratch.scratch
      takes me sourcePublicKey (opened P me (decrypted.1.map Prod.fst, decrypted.2))
        ((parseOpportunisticRatchet P me ring packetPayload sourcePublicKey).eval scratch >>= fun r =>
          .ok r.1)
  | .parseHint me ring which packetPayload sourcePublicKey scratch =>
      takes me sourcePublicKey
        (opened P me (P.eciesDecryptWithRatchetHint packetPayload ring (first32 (P.privateKey me))
          (P.localIdentityHash me) which scratch.scratch))
        ((parseOpportunisticRatchetHint P me ring which packetPayload sourcePublicKey).eval scratch)

end Events

section Accepted

variable {P : Platform LocalIdentity VerifyingKey} {me : LocalIdentity} {sourcePublicKey : Block 64}
  {view : LxmfView}

def Accepted (P : Platform LocalIdentity VerifyingKey) (taken : Taken LocalIdentity) : Prop :=
  ∃ room d hashed, Authentic P taken.me taken.packed taken.sourcePublicKey room d hashed ∧
    viewOf P hashed = .ok taken.view

theorem accepted_of_link {data : Bytes} {scratch : LinkScratch}
    (h : (Parse.parseLink P me data sourcePublicKey).eval scratch = .ok view) :
    Accepted P ⟨me, sourcePublicKey, data, view⟩ := by
  obtain ⟨d, hashed, ha, hv⟩ := parseLink_eq_ok.mp h
  exact ⟨_, d, hashed, ha, hv⟩

/-- What the working arrays of parse_decrypted let pass, memory of the size of
the message lets pass. -/
theorem authenticate_of_opened {source : Block 16} {signature : Block 64} {payload : Bytes}
    (h : authenticateOpened P me sourcePublicKey source signature payload = .ok view) :
    authenticate P me sourcePublicKey source signature payload (64 + payload.length) = .ok view := by
  simp only [authenticateOpened, authenticate, rejectIf_bind] at h ⊢
  split at h
  · cases h
  next hs =>
  obtain ⟨d, hd, h⟩ := bind_eq_ok.mp h
  obtain ⟨_, hc, h⟩ := bind_eq_ok.mp h
  split at h
  · cases h
  have hle := (frame_eq_ok.mp hd).length_le
  rw [if_neg hs, hd, ok_bind, hc, ok_bind, if_neg (by omega)]
  exact h

theorem accepted_of_message {plaintext : Bytes}
    (h : messageIn P me sourcePublicKey plaintext = .ok view) :
    Accepted P ⟨me, sourcePublicKey, (P.lxmfDeliveryHash me).val ++ plaintext, view⟩ := by
  by_cases hlen : plaintext.length < 81
  · rw [messageIn_short hlen] at h
    cases h
  · obtain ⟨source, signature, payload, rfl, hne⟩ := exists_plaintext (Nat.le_of_not_lt hlen)
    rw [messageIn_plaintextOf hne] at h
    have hlink : (Parse.parseLink P me (packedOf (P.lxmfDeliveryHash me) source signature payload)
        sourcePublicKey).eval ⟨List.replicate (64 + payload.length) 0, .new⟩ = _ := eval_parseLink hne _
    rw [if_neg (by simp), List.length_replicate, authenticate_of_opened h] at hlink
    exact accepted_of_link hlink

end Accepted

section Parsers

variable {P : InboundPlatform LocalIdentity VerifyingKey} {me : LocalIdentity}
  {sourcePublicKey : Block 64} {view : LxmfView}

theorem ofCrypto_map {α β : Type} {f : α → β} {x : Except CryptoError α} {a : α}
    (h : ofCrypto x = .ok a) : ofCrypto (x.map f) = .ok (f a) := by
  cases x with
  | error e => cases h
  | ok b =>
      cases h
      rfl

theorem message_of_scratch {n : Nat} {buffers : LinkScratch}
    (h : (parseScratch P me sourcePublicKey n).eval buffers = .ok view) :
    messageIn P.toPlatform me sourcePublicKey (buffers.scratch.take n) = .ok view := by
  rw [eval_parseScratch] at h
  by_cases hn : n ≤ buffers.scratch.length
  · have hlen : (buffers.scratch.take n).length = n := List.length_take_of_le hn
    rw [← eval_parseDecrypted_take (by rw [hlen]) buffers.fieldScratch, hlen]
    exact h
  · rw [parseDecrypted, Exec.eval_lift_bind, slice, if_neg (by omega)] at h
    cases h

theorem accepted_of_opened {room : Nat} {decrypted : Except CryptoError Nat × Block room}
    {fieldScratch : FieldScratch} (h : (ofCrypto decrypted.1 >>= fun n =>
      (parseScratch P me sourcePublicKey n).eval ⟨decrypted.2.val, fieldScratch⟩) = .ok view) :
    Accepted P.toPlatform ⟨me, sourcePublicKey, opened P me decrypted, view⟩ := by
  obtain ⟨n, hn, h⟩ := bind_eq_ok.mp h
  have hopened : opened P me decrypted = (P.lxmfDeliveryHash me).val ++ decrypted.2.val.take n := by
    rw [opened]
    cases hd : decrypted.1 with
    | error e =>
        rw [hd] at hn
        cases hn
    | ok m =>
        rw [hd] at hn
        cases hn
        rfl
  rw [hopened]
  exact accepted_of_message (message_of_scratch h)

theorem event_taken {call : Call LocalIdentity} {taken : Taken LocalIdentity}
    (h : event P call = some (.inr taken)) : Accepted P.toPlatform taken := by
  cases call with
  | buildLink letter buffers => exact absurd h sentLink_ne
  | buildPacket source key ratchet timestamp title content ephemeralPriv iv entries packet =>
      exact absurd h (sentPayload_ne P)
  | buildPlaintext source key timestamp title content buffers => exact absurd h (sentPayload_ne P)
  | parseLink me data key scratch =>
      obtain ⟨view, hv, rfl⟩ := takes_eq h
      exact accepted_of_link hv
  | parsePacket me packet key scratch =>
      obtain ⟨view, hv, rfl⟩ := takes_eq h
      rw [parseOpportunistic, Exec.eval_get_bind, Exec.eval_rejectIf_bind] at hv
      split at hv
      · cases hv
      · simp only [Exec.eval_set_bind, Exec.eval_lift_bind] at hv
        exact accepted_of_opened hv
  | parseRatchet me ring packet key scratch =>
      obtain ⟨view, hv, rfl⟩ := takes_eq h
      obtain ⟨found, hr, hv⟩ := bind_eq_ok.mp hv
      rw [parseOpportunisticRatchet, Exec.eval_get_bind, Exec.eval_rejectIf_bind] at hr
      split at hr
      · cases hr
      · simp only [Exec.eval_set_bind, Exec.eval_lift_bind] at hr
        obtain ⟨which, hw, hr⟩ := bind_eq_ok.mp hr
        rw [Exec.eval_bind] at hr
        obtain ⟨view', hparse, hr⟩ := bind_eq_ok.mp hr
        cases hr
        cases hv
        exact accepted_of_opened (bind_eq_ok.mpr ⟨which.1, ofCrypto_map hw, hparse⟩)
  | parseHint me ring which packet key scratch =>
      obtain ⟨view, hv, rfl⟩ := takes_eq h
      rw [parseOpportunisticRatchetHint, Exec.eval_get_bind, Exec.eval_rejectIf_bind] at hv
      split at hv
      · cases hv
      · simp only [Exec.eval_set_bind, Exec.eval_lift_bind] at hv
        exact accepted_of_opened hv

end Parsers

namespace Letter

variable (P : Platform LocalIdentity VerifyingKey)

def payload (letter : Letter LocalIdentity) : Bytes :=
  payloadBytes letter.timestamp letter.title letter.content letter.fields

def signed (letter : Letter LocalIdentity) : Bytes :=
  signedPart P (P.deliveryHash letter.recipientPublicKey) (P.lxmfDeliveryHash letter.source) letter.payload

def messageId (letter : Letter LocalIdentity) : Block 32 :=
  messageIdFor P letter.source letter.recipientPublicKey letter.payload

def Built (letter : Letter LocalIdentity) : Prop :=
  Buildable P letter.timestamp letter.title letter.content letter.fields letter.payload

end Letter

/-- The encoder took the letter, and what was signed and made of it is what
the letter says. -/
structure Sent.Faithful (P : Platform LocalIdentity VerifyingKey) (sent : Sent LocalIdentity) : Prop where
  built : sent.letter.Built P
  signedPart_eq : sent.signedPart = sent.letter.signed P
  signature_eq : sent.signature = (P.sign sent.letter.source sent.signedPart).val
  messageId_eq : sent.messageId = sent.letter.messageId P

section Builders

variable {P : InboundPlatform LocalIdentity VerifyingKey} {letter : Letter LocalIdentity}
  {sent : Sent LocalIdentity}

theorem packedOf_signature {dest source : Block 16} {signature : Block 64} {payload out : Bytes} :
    (overwrite out 0 (packedOf dest source signature payload)).extract 32 96 = signature.val := by
  have h : (overwrite out 0 (packedOf dest source signature payload)).extract (0 + 32) (0 + 32 + 64) =
      (packedOf dest source signature payload).extract 32 (32 + 64) :=
    overwrite_extract_inside (Nat.zero_le _) (by rw [packedOf_length]; omega)
  exact h.trans (extract_of_slice (slice_packed_signature dest source signature payload))

theorem faithful_link {buffers buffers' : LinkBuffers} {n : Nat}
    (h : (buildLinkOf P.toPlatform letter.source letter.recipientPublicKey letter.timestamp letter.title
      letter.content letter.fields).run buffers = (.ok n, buffers')) :
    Sent.Faithful P.toPlatform ⟨letter, buffers'.scratch.take (n - 32), buffers'.out.extract 32 96,
      buffers'.outMessageId⟩ := by
  obtain ⟨payload, hb, -, -, rfl, rfl⟩ := buildLinkOf_eq_ok.mp h
  obtain rfl := hb.eq
  have hpart := overwrite_start buffers.scratch (letter.signed P.toPlatform)
  rw [Letter.signed, signedPart_length] at hpart
  have hn : 96 + letter.payload.length - 32 = 64 + letter.payload.length := by omega
  have hscratch : (overwrite buffers.scratch 0 (letter.signed P.toPlatform)).take
      (96 + letter.payload.length - 32) = letter.signed P.toPlatform := by
    rw [hn]
    exact hpart
  refine ⟨hb, hscratch, ?_, rfl⟩
  exact packedOf_signature.trans (congrArg (fun part => (P.sign letter.source part).val) hscratch.symm)

theorem sentPayload_eq (h : sentPayload P letter = some (.inl sent)) : letter.Built P.toPlatform ∧
    sent = ⟨letter, letter.signed P.toPlatform, (P.sign letter.source (letter.signed P.toPlatform)).val,
      letter.messageId P.toPlatform⟩ := by
  rcases admission_cases letter.fields with ⟨admitted, ha⟩ | ⟨e, -, ha⟩
  swap
  · rw [sentPayload, ha] at h
    cases h
  rw [sentPayload, ha, ok_bind] at h
  by_cases hone : OnePacket P.toPlatform letter.title letter.content letter.fields letter.payload
  · rw [signPayload_ok letter.source letter.recipientPublicKey ha rfl hone] at h
    cases h
    exact ⟨⟨⟨admitted, ha⟩, hone.encodable, rfl, hone.countable⟩, rfl⟩
  · rw [signPayload_fails letter.source letter.recipientPublicKey ha rfl hone] at h
    cases h

theorem event_sent {call : Call LocalIdentity} (h : event P call = some (.inl sent)) :
    sent.Faithful P.toPlatform := by
  cases call with
  | buildLink letter buffers =>
      obtain ⟨n, buffers', hr, rfl⟩ := sentLink_eq h
      exact faithful_link hr
  | buildPacket source key ratchet timestamp title content ephemeralPriv iv entries packet =>
      obtain ⟨hb, rfl⟩ := sentPayload_eq h
      exact ⟨hb, rfl, rfl, rfl⟩
  | buildPlaintext source key timestamp title content buffers =>
      obtain ⟨hb, rfl⟩ := sentPayload_eq h
      exact ⟨hb, rfl, rfl, rfl⟩
  | parseLink me data key scratch => exact absurd h takes_ne
  | parsePacket me packet key scratch => exact absurd h takes_ne
  | parseRatchet me ring packet key scratch => exact absurd h takes_ne
  | parseHint me ring which packet key scratch => exact absurd h takes_ne

end Builders

def hashedBytes (packed : Bytes) : Result Bytes := do
  let d ← frame (packed.drop 96)
  pure (packed.take 32 ++ stripped (packed.drop 96) d.length)

section Agreement

variable (P : Platform LocalIdentity VerifyingKey)

variable {P}

theorem hashedBytes_eq {me : LocalIdentity} {packed : Bytes} {sourcePublicKey : Block 64} {room : Nat}
    {d : Elements} {hashed : Bytes} (h : Authentic P me packed sourcePublicKey room d hashed) :
    hashedBytes packed = .ok hashed := by
  rw [hashedBytes, frame_eq_ok.mpr h.framed, ok_bind, h.hashed_eq]
  rfl

theorem hashed_take {me : LocalIdentity} {packed : Bytes} {sourcePublicKey : Block 64} {room : Nat}
    {d : Elements} {hashed : Bytes} (h : Authentic P me packed sourcePublicKey room d hashed) :
    hashed.take 16 = (P.lxmfDeliveryHash me).val := by
  have hlen := h.length
  rw [h.hashed_eq, List.take_append_of_le_length (by rw [List.length_take]; omega), List.take_take,
    Nat.min_eq_left (by omega), h.dest]

theorem viewOf_letter {letter : Letter LocalIdentity} (hb : letter.Built P) :
    viewOf P (hashedPart (P.deliveryHash letter.recipientPublicKey) (P.lxmfDeliveryHash letter.source)
      letter.payload) = .ok (viewFor P letter.source letter.recipientPublicKey letter.timestamp
        letter.title letter.content letter.fields letter.payload) := by
  have hframed := framed_payloadBytes letter.timestamp hb.fieldsAdmitted hb.encodable
  have hview : viewOf P (hashedPart (P.deliveryHash letter.recipientPublicKey)
      (P.lxmfDeliveryHash letter.source) _) = _ := viewOf_hashedPart hframed
  rw [stripped_payloadBytes] at hview
  exact hview

end Agreement

def helloLetter : Letter Vectors.Party :=
  ⟨.source, Vectors.platform.publicKey .recipient, Vectors.timestamp, Vectors.title, Vectors.content, .empty⟩

def helloSent : Sent Vectors.Party :=
  ⟨helloLetter, Vectors.hello.hashedPart ++ Vectors.hello.messageId.val, Vectors.hello.signature.val,
    Vectors.hello.messageId⟩

def helloView : LxmfView :=
  viewFor Vectors.platform .source (Vectors.platform.publicKey .recipient) Vectors.timestamp Vectors.title
    Vectors.content .empty helloLetter.payload

def helloTaken : Taken Vectors.Party :=
  ⟨.recipient, Vectors.platform.publicKey .source, Vectors.hello.packed ++ [0], helloView⟩

def answerCall : Call Vectors.Party :=
  .buildLink ⟨.source, Vectors.platform.publicKey .recipient, Vectors.timestamp, Vectors.title,
    Vectors.content, .encoded [(0x0a, Vectors.shallowValue)]⟩ Vectors.unwritten

/-- The message is signed by a call that then finds its buffer too short. It
comes in as it was signed, with its content changed, and with a byte behind it. -/
def helloCalls : List (Call Vectors.Party) :=
  [.buildPlaintext .source (Vectors.platform.publicKey .recipient) Vectors.timestamp Vectors.title
      Vectors.content ⟨[], Vectors.block 16 0, Vectors.block 32 0⟩,
    .parseLink .recipient Vectors.hello.packed (Vectors.platform.publicKey .source) Vectors.linkScratch,
    .parseLink .recipient (Vectors.hello.packed.set 120 0) (Vectors.platform.publicKey .source)
      Vectors.linkScratch,
    .parseLink .recipient helloTaken.packed (Vectors.platform.publicKey .source) Vectors.linkScratch,
    answerCall]

theorem hashedBytes_hello : hashedBytes helloTaken.packed = .ok Vectors.hello.hashedPart := by
  decide +kernel

theorem record_hello :
    (record (event Vectors.inboundPlatform) helloCalls).ended.map Prod.fst = [1, 1] ∧
    (1, helloTaken) ∈ (record (event Vectors.inboundPlatform) helloCalls).ended ∧
    helloSent ∈ (record (event Vectors.inboundPlatform) helloCalls).begun.take 1 := by
  decide +kernel

section Ids

variable {P : InboundPlatform LocalIdentity VerifyingKey}
  {log : Log (Sent LocalIdentity) (Taken LocalIdentity)} {dest dest' : Block 16} {view view' : LxmfView}
  {hashed hashed' : Bytes}

/-- The messages of a run: their destination, what is read in them, and the
bytes that are hashed to their id. -/
inductive Seen (P : InboundPlatform LocalIdentity VerifyingKey)
    (log : Log (Sent LocalIdentity) (Taken LocalIdentity)) : Block 16 → LxmfView → Bytes → Prop
  | sent {sent : Sent LocalIdentity} (h : sent ∈ log.begun) :
      Seen P log (P.deliveryHash sent.letter.recipientPublicKey)
        ⟨sent.messageId, P.lxmfDeliveryHash sent.letter.source, sent.letter.timestamp, sent.letter.title,
          sent.letter.content, sent.letter.fields.bytes⟩
        (sent.signedPart.take (sent.signedPart.length - 32))
  | taken {n : Nat} {taken : Taken LocalIdentity} {hashed : Bytes} (h : (n, taken) ∈ log.ended)
      (hh : hashedBytes taken.packed = .ok hashed) :
      Seen P log (P.lxmfDeliveryHash taken.me) taken.view hashed

theorem Sent.Faithful.hashed_eq {sent : Sent LocalIdentity} (h : sent.Faithful P.toPlatform) :
    sent.signedPart.take (sent.signedPart.length - 32) = hashedPart
      (P.deliveryHash sent.letter.recipientPublicKey) (P.lxmfDeliveryHash sent.letter.source)
      sent.letter.payload := by
  rw [h.signedPart_eq, Letter.signed, signedPart_length]
  exact List.take_left' (by rw [hashedPart_length]; omega)

/-- The hashed bytes tell the destination and the view. -/
theorem Seen.read (h : Corresponds (Sent.Faithful P.toPlatform) (fun _ => Accepted P.toPlatform) log)
    (hs : Seen P log dest view hashed) :
    hashed.take 16 = dest.val ∧ viewOf P.toPlatform hashed = .ok view := by
  cases hs with
  | @sent sent hl =>
      have hsent := h.begun _ hl
      rw [hsent.hashed_eq, hsent.messageId_eq]
      exact ⟨List.take_left' (P.deliveryHash _).2, viewOf_letter hsent.built⟩
  | taken ht hh =>
      obtain ⟨room, d, bytes, ha, hv⟩ := (h.ended _ _ ht).2
      rw [hashedBytes_eq ha] at hh
      cases hh
      exact ⟨hashed_take ha, hv⟩

/-- Two messages of a run with one id have one destination and one view, or
what is hashed in them is a collision. -/
theorem messageId_binds (P : InboundPlatform LocalIdentity VerifyingKey)
    (calls : List (Call LocalIdentity)) (hs : Seen P (record (event P) calls) dest view hashed)
    (hs' : Seen P (record (event P) calls) dest' view' hashed')
    (hid : view.messageId = view'.messageId) :
    (dest = dest' ∧ view = view') ∨ (hashed ≠ hashed' ∧ P.sha256 hashed = P.sha256 hashed') := by
  have h : Corresponds (Sent.Faithful P.toPlatform) (fun _ => Accepted P.toPlatform)
      (record (event P) calls) :=
    record_corresponds (fun _ _ => event_sent) (fun _ _ he _ _ => event_taken he) calls
  obtain ⟨hdest, hview⟩ := hs.read h
  obtain ⟨hdest', hview'⟩ := hs'.read h
  by_cases hsame : hashed = hashed'
  · subst hsame
    rw [hview] at hview'
    exact .inl ⟨Subtype.ext (hdest.symm.trans hdest'), Except.ok.inj hview'⟩
  · rw [viewOf_messageId hview, viewOf_messageId hview'] at hid
    exact .inr ⟨hsame, hid⟩

end Ids

theorem messageId_hello :
    Seen Vectors.inboundPlatform (record (event Vectors.inboundPlatform) helloCalls)
      (Vectors.platform.lxmfDeliveryHash .recipient) helloView Vectors.hello.hashedPart ∧
    ((Vectors.platform.lxmfDeliveryHash .recipient =
        Vectors.platform.deliveryHash (Vectors.platform.publicKey .recipient) ∧ helloView = helloView) ∨
      (Vectors.hello.hashedPart ≠ Vectors.hello.hashedPart ∧
        Vectors.platform.sha256 Vectors.hello.hashedPart =
          Vectors.platform.sha256 Vectors.hello.hashedPart)) := by
  obtain ⟨-, htaken, hfirst⟩ := record_hello
  have hsent := List.mem_of_mem_take hfirst
  exact ⟨.taken htaken hashedBytes_hello,
    messageId_binds Vectors.inboundPlatform helloCalls (.taken htaken hashedBytes_hello) (.sent hsent) rfl⟩

end LxmfLite.Agreement
