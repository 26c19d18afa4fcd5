import LxmfLite.Packets
import LxmfLite.Uploads
import LxmfLite.Envelope

namespace LxmfLite.Delivery

open ByteString Execution Message Primitives Laws Parse Writer Payload Framing Build Authentication Packing
  RoundTrip Propagation Stamping Encryption Envelope Opportunistic Replies Arrays Uploads Carriage Packets

variable {LocalIdentity VerifyingKey : Type}

/-- How far a message has come. Once encrypted it is under the key it was
encrypted for, an entry for propagation under its transient id as well. -/
inductive Stage
  | packed
  | packet (target : Block 32)
  | entry (target transientId : Block 32)
  | upload (target transientId stamp : Block 32)

structure Outgoing where
  buffer : Bytes
  length : Nat
  stage : Stage

inductive Call
  | appendRecipientStamp (stamp : Bytes)
  | sealOpportunistic (ratchet : Option (Block 32)) (ephemeralPriv : Block 32) (iv : Block 16)
  | encryptMessage (ratchet : Option (Block 32)) (ephemeralPriv : Block 32) (iv : Block 16)
  | wrapUpload (stamp : Block 32) (timestamp : F64)

/-- One call on the buffer. A call that fails leaves the message at its stage,
and no call is made at a stage it is not for. -/
def step (P : Platform LocalIdentity VerifyingKey) (recipientPublicKey : Block 64) (s : Outgoing)
    (call : Call) : Outgoing :=
  match s.stage, call with
  | .packed, .appendRecipientStamp stamp =>
      match (appendRecipientStamp P s.length stamp).run s.buffer with
      | (.ok n, buffer) => ⟨buffer, n, .packed⟩
      | (.error _, buffer) => { s with buffer := buffer }
  | .packed, .sealOpportunistic ratchet ephemeralPriv iv =>
      match (sealOpportunistic P s.length recipientPublicKey ratchet ephemeralPriv iv).run s.buffer with
      | (.ok n, buffer) => ⟨buffer, n, .packet (targetKey ratchet recipientPublicKey)⟩
      | (.error _, buffer) => { s with buffer := buffer }
  | .packed, .encryptMessage ratchet ephemeralPriv iv =>
      match (encryptMessage P s.length recipientPublicKey ratchet ephemeralPriv iv).run s.buffer with
      | (.ok (n, transientId), buffer) =>
          ⟨buffer, n, .entry (targetKey ratchet recipientPublicKey) transientId⟩
      | (.error _, buffer) => { s with buffer := buffer }
  | .entry target transientId, .wrapUpload stamp timestamp =>
      match (wrapUpload P s.length stamp timestamp).run s.buffer with
      | (.ok n, buffer) => ⟨buffer, n, .upload target transientId stamp⟩
      | (.error _, buffer) => { s with buffer := buffer }
  | _, _ => s

def run (P : Platform LocalIdentity VerifyingKey) (recipientPublicKey : Block 64) (calls : List Call)
    (s : Outgoing) : Outgoing :=
  calls.foldl (step P recipientPublicKey) s

/-- What the recipient makes of an entry for the target: under the first key
of the ring that opens it the message, with the id the entry is purged by;
under no other key anything, and the entry is left for another ring. -/
structure Retrieved (P : Platform LocalIdentity VerifyingKey) (opens : Block 32 → Block 32 → Bool)
    (source me : LocalIdentity) (target transientId : Block 32) (entry : Bytes) (view : LxmfView) :
    Prop where
  hash : P.sha256 entry = transientId
  opened : ∀ ring : List (Block 32),
    (∃ key ∈ ring ++ [first32 (P.privateKey me)], opens key target = true) → ∃ n restored,
      (decryptMessage P me ring).run entry =
        (.ok (n, transientId, ring.findIdx? (opens · target)), restored) ∧
      ∀ scratch : LinkScratch, n - 32 ≤ scratch.scratch.length →
        (parseLink P me (restored.take n) (P.publicKey source)).eval scratch = .ok view
  closed : ∀ ring : List (Block 32),
    (∀ key ∈ ring ++ [first32 (P.privateKey me)], opens key target = false) →
      (decryptMessage P me ring).run entry = (fail .crypto, entry)

def Delivered (P : InboundPlatform LocalIdentity VerifyingKey) (opens : Block 32 → Block 32 → Bool)
    (source me : LocalIdentity) (view : LxmfView) (s : Outgoing) : Prop :=
  match s.stage with
  | .packed => ∀ scratch : LinkScratch, s.length - 32 ≤ scratch.scratch.length →
      (parseLink P.toPlatform me (s.buffer.take s.length) (P.publicKey source)).eval scratch = .ok view
  | .packet target => Received P opens source me target (s.buffer.take s.length) view
  | .entry target transientId =>
      Retrieved P.toPlatform opens source me target transientId (s.buffer.take s.length) view
  | .upload target transientId stamp => ∃ items timestamp inner entry,
      arrayItems (s.buffer.take s.length) = .ok items ∧ Yields items [timestamp, inner] ∧
      fetchedMessage inner = .ok (some (entry ++ stamp.val)) ∧
      Retrieved P.toPlatform opens source me target transientId entry view

variable {P : InboundPlatform LocalIdentity VerifyingKey}
  {cipher : Bytes → Block 32 → Block 16 → Block 32 → Block 16 → Bytes}
  {opens : Block 32 → Block 32 → Bool} {opened : Bytes → Block 32 → Block 16 → Except CryptoError Bytes}
  {refused : Bytes → List (Block 32) → Block 32 → Block 16 → CryptoError}
  {source me : LocalIdentity} {timestamp : F64} {title content : Bytes} {fields : OuterFields}
  {payload packed entry : Bytes} {target : Block 32}

section Retrieval

variable {P : Platform LocalIdentity VerifyingKey} (laws : IdentityLaws P)
  (decipher : DecipherLaws P cipher opens)
  (hb : Buildable P timestamp title content fields payload)
include laws decipher

theorem entry_restores (h : Carries P source (P.publicKey me) payload packed) {ephemeralPriv : Block 32}
    {iv : Block 16} (he : Entry P cipher me target ephemeralPriv iv (packed.drop 16) entry)
    (hdest : entry.take 16 = packed.take 16) (ring : List (Block 32)) :
    ((∃ key ∈ ring ++ [first32 (P.privateKey me)], opens key target = true) → ∃ n restored,
      (decryptMessage P me ring).run entry =
        (.ok (n, P.sha256 entry, ring.findIdx? (opens · target)), restored) ∧ restored.take n = packed) ∧
    ((∀ key ∈ ring ++ [first32 (P.privateKey me)], opens key target = false) →
      (decryptMessage P me ring).run entry = (fail .crypto, entry)) := by
  have hmine : entry.take 16 = (P.lxmfDeliveryHash me).val := by
    rw [hdest, h.dest, laws.deliveryHash_eq me]
  obtain ⟨hopened, hclosed⟩ := decryptMessage_entry decipher he hmine ring
  refine ⟨fun hk => ?_, hclosed⟩
  obtain ⟨restored, hrun, htake⟩ := hopened hk
  rw [hdest, List.take_append_drop] at htake
  exact ⟨_, restored, hrun, htake⟩

include hb in
theorem retrieved_entry (h : Carries P source (P.publicKey me) payload packed) {ephemeralPriv : Block 32}
    {iv : Block 16} (he : Entry P cipher me target ephemeralPriv iv (packed.drop 16) entry)
    (hdest : entry.take 16 = packed.take 16) :
    Retrieved P opens source me target (P.sha256 entry) entry
      (viewFor P source (P.publicKey me) timestamp title content fields payload) := by
  refine ⟨rfl, fun ring hk => ?_, fun ring => (entry_restores laws decipher h he hdest ring).2⟩
  obtain ⟨n, restored, hrun, htake⟩ := (entry_restores laws decipher h he hdest ring).1 hk
  refine ⟨n, restored, hrun, fun scratch hroom => ?_⟩
  have hle := h.length_le
  have hn : packed.length ≤ n := by
    rw [← htake]
    exact List.length_take_le n restored
  rw [htake]
  exact h.parseLink laws hb scratch (by omega)

omit laws in
theorem entry_enclosed {buffer : Bytes} {n m : Nat} (he : Enclosable P buffer n (P.publicKey me) m)
    (ratchet : Option (Block 32)) (ephemeralPriv : Block 32) (iv : Block 16) :
    Entry P cipher me (targetKey ratchet (P.publicKey me)) ephemeralPriv iv ((buffer.take n).drop 16)
        ((ciphered P buffer n 16 m (P.publicKey me) ratchet ephemeralPriv iv).take (16 + m)) ∧
      ((ciphered P buffer n 16 m (P.publicKey me) ratchet ephemeralPriv iv).take (16 + m)).take 16 =
        (buffer.take n).take 16 := by
  have hprefixed := he.prefixed
  obtain ⟨hentry, hhead⟩ := entry_ciphered decipher he ratchet ephemeralPriv iv
  rw [List.extract_eq_take_drop, ← List.drop_take] at hentry
  refine ⟨hentry, ?_⟩
  rw [hhead, List.take_take, Nat.min_eq_left (by omega)]

include hb in
theorem retrieved_enclosed {buffer : Bytes} {n m : Nat}
    (h : Carries P source (P.publicKey me) payload (buffer.take n))
    (he : Enclosable P buffer n (P.publicKey me) m) (ratchet : Option (Block 32))
    (ephemeralPriv : Block 32) (iv : Block 16) :
    Retrieved P opens source me (targetKey ratchet (P.publicKey me))
      (P.sha256 ((ciphered P buffer n 16 m (P.publicKey me) ratchet ephemeralPriv iv).take (16 + m)))
      ((ciphered P buffer n 16 m (P.publicKey me) ratchet ephemeralPriv iv).take (16 + m))
      (viewFor P source (P.publicKey me) timestamp title content fields payload) := by
  obtain ⟨hentry, hhead⟩ := entry_enclosed decipher he ratchet ephemeralPriv iv
  exact retrieved_entry laws decipher hb h hentry hhead

end Retrieval

/-- What every call keeps: the message can be delivered at its stage, and
before it is encrypted it is there as it was packed. -/
structure Held (P : InboundPlatform LocalIdentity VerifyingKey) (opens : Block 32 → Block 32 → Bool)
    (source me : LocalIdentity) (payload : Bytes) (view : LxmfView) (capacity : Nat) (s : Outgoing) :
    Prop where
  delivered : Delivered P opens source me view s
  carries : s.stage = .packed →
    Carries P.toPlatform source (P.publicKey me) payload (s.buffer.take s.length)
  capacity : s.buffer.length = capacity

theorem wrapped_reads {P : Platform LocalIdentity VerifyingKey} {buffer : Bytes} {n : Nat} (stamp : Block 32)
    {timestamp : F64} (hw : Wrappable P buffer n timestamp) :
    ∃ items clock inner,
      arrayItems ((overwrite buffer 0 (uploadBytes timestamp (buffer.take n ++ stamp.val))).take
        (n + 32 + entryStart n)) = .ok items ∧
      Yields items [clock, inner] ∧ fetchedMessage inner = .ok (some (buffer.take n ++ stamp.val)) := by
  have hcount := hw.countable
  have hentry : (buffer.take n ++ stamp.val).length = n + 32 := by
    rw [List.length_append, List.length_take_of_le hw.inside, stamp.property]
  have htake := overwrite_start buffer (uploadBytes timestamp (buffer.take n ++ stamp.val))
  rw [uploadBytes_length timestamp hentry hcount] at htake
  have hsmall : (buffer.take n ++ stamp.val).length ≤ 0xffffffff := by omega
  obtain ⟨items, hitems, hyields⟩ := uploadBytes_items timestamp hsmall
  rw [htake]
  exact ⟨items, _, _, hitems, hyields, entriesBytes_fetched hsmall⟩

/-- wrap_upload encloses the entry that was retrieved before. -/
theorem held_wrapped {buffer : Bytes} {n : Nat} {target transientId : Block 32} {view : LxmfView}
    (h : Retrieved P.toPlatform opens source me target transientId (buffer.take n) view)
    (stamp : Block 32) {timestamp : F64} (hw : Wrappable P.toPlatform buffer n timestamp) :
    Held P opens source me payload view buffer.length
      ⟨overwrite buffer 0 (uploadBytes timestamp (buffer.take n ++ stamp.val)), n + 32 + entryStart n,
        .upload target transientId stamp⟩ := by
  have hroom := hw.room
  have hentry : (buffer.take n ++ stamp.val).length = n + 32 := by
    rw [List.length_append, List.length_take_of_le hw.inside, stamp.property]
  have hlen := uploadBytes_length timestamp hentry hw.countable
  obtain ⟨items, clock, inner, hitems, hyields, hfetched⟩ := wrapped_reads stamp hw
  exact ⟨⟨items, clock, inner, _, hitems, hyields, hfetched, h⟩, nofun,
    overwrite_length (by rw [hlen]; omega)⟩

section Steps

variable (laws : IdentityLaws P.toPlatform) (decipher : DecipherLaws P.toPlatform cipher opens)
  (ratchets : RatchetLaws P opened refused) (opening : OpeningLaws P.toPlatform cipher opens opened)
  (hb : Buildable P.toPlatform timestamp title content fields payload)

include laws hb in
theorem held_packed {buffer : Bytes} {n : Nat}
    (h : Carries P.toPlatform source (P.publicKey me) payload (buffer.take n)) :
    Held P opens source me payload
      (viewFor P.toPlatform source (P.publicKey me) timestamp title content fields payload) buffer.length
      ⟨buffer, n, .packed⟩ := by
  refine ⟨fun scratch hroom => h.parseLink laws hb scratch ?_, fun _ => h, rfl⟩
  have hle := h.length_le
  rw [List.length_take] at hle
  simp only at hroom
  omega

include laws decipher ratchets opening hb

/-- One call keeps the message. -/
theorem held_step {capacity : Nat} {s : Outgoing} (h : Held P opens source me payload
      (viewFor P.toPlatform source (P.publicKey me) timestamp title content fields payload) capacity s)
    (call : Call) : Held P opens source me payload
      (viewFor P.toPlatform source (P.publicKey me) timestamp title content fields payload) capacity
      (step P.toPlatform (P.publicKey me) s call) := by
  obtain ⟨buffer, n, stage⟩ := s
  obtain rfl := h.capacity
  cases stage with
  | packed =>
      have hcarries := h.carries rfl
      simp only at hcarries
      cases call with
      | appendRecipientStamp stamp =>
          rcases appendRecipientStamp_run P.toPlatform buffer n stamp with ⟨hr, hs⟩ | ⟨⟨e, hr⟩, -⟩
          · have hkept : Held P opens source me payload _ _ _ := held_packed laws hb (hcarries.stamped hs)
            rw [stamped_length hs] at hkept
            simpa only [step, hr] using hkept
          · simpa only [step, hr, fail] using h
      | sealOpportunistic ratchet ephemeralPriv iv =>
          rcases sealOpportunistic_run buffer n (P.publicKey me) ratchet ephemeralPriv iv
            decipher.toInPlaceLaws with ⟨total, hs, hr⟩ | ⟨⟨e, hr⟩, -⟩
          · simp only [step, hr]
            refine ⟨received_sealed laws ratchets opening decipher hb hcarries hs ratchet ephemeralPriv iv,
              (fun h => by cases h), ciphered_length _ _ _ _ hs.inside (decipher.plaintext_fits _ _ hs.cipher) ?_⟩
            rw [Nat.zero_add]
            exact hs.room
          · simpa only [step, hr, fail] using h
      | encryptMessage ratchet ephemeralPriv iv =>
          rcases encryptMessage_run buffer n (P.publicKey me) ratchet ephemeralPriv iv
            decipher.toInPlaceLaws with ⟨m, he, hr⟩ | ⟨⟨e, hr⟩, -⟩
          · simp only [step, hr]
            exact ⟨retrieved_enclosed laws decipher hb hcarries he ratchet ephemeralPriv iv,
              (fun h => by cases h),
              ciphered_length _ _ _ _ he.inside (decipher.plaintext_fits _ _ he.cipher) he.room⟩
          · simpa only [step, hr, fail] using h
      | wrapUpload stamp timestamp => exact h
  | packet target => cases call <;> exact h
  | entry target transientId =>
      cases call with
      | wrapUpload stamp timestamp =>
          by_cases hw : Wrappable P.toPlatform buffer n timestamp
          · have hr : (wrapUpload P.toPlatform n stamp timestamp).run buffer = _ := wrapUpload_run hw
            simp only [step, hr]
            exact held_wrapped h.delivered stamp hw
          · obtain ⟨e, hr⟩ := wrapUpload_fails stamp hw
            simpa only [step, hr, fail] using h
      | appendRecipientStamp stamp => exact h
      | sealOpportunistic ratchet ephemeralPriv iv => exact h
      | encryptMessage ratchet ephemeralPriv iv => exact h
  | upload target transientId stamp => cases call <;> exact h

/-- Any calls in any order keep it. -/
theorem held_run {capacity : Nat} {s : Outgoing} (calls : List Call) (h : Held P opens source me payload
      (viewFor P.toPlatform source (P.publicKey me) timestamp title content fields payload) capacity s) :
    Held P opens source me payload
      (viewFor P.toPlatform source (P.publicKey me) timestamp title content fields payload) capacity
      (run P.toPlatform (P.publicKey me) calls s) := by
  induction calls generalizing s with
  | nil => exact h
  | cons call calls ih => exact ih (held_step laws decipher ratchets opening hb h call)

end Steps

/-- A message from a Link builder reaches the recipient as it was given,
whatever calls are made on its buffer, in whatever order, and whichever of
them fail. -/
theorem delivered_run (laws : IdentityLaws P.toPlatform) (decipher : DecipherLaws P.toPlatform cipher opens)
    (ratchets : RatchetLaws P opened refused) (opening : OpeningLaws P.toPlatform cipher opens opened)
    {buffers buffers' : LinkBuffers} {n : Nat}
    (h : (buildLinkOf P.toPlatform source (P.publicKey me) timestamp title content fields).run buffers =
      (.ok n, buffers')) :
    ∃ view, ReadBack source timestamp title content fields P.toPlatform buffers'.outMessageId view ∧
      ∀ calls : List Call,
        Delivered P opens source me view
          (run P.toPlatform (P.publicKey me) calls ⟨buffers'.out, n, .packed⟩) ∧
        (run P.toPlatform (P.publicKey me) calls ⟨buffers'.out, n, .packed⟩).buffer.length =
          buffers'.out.length := by
  obtain ⟨payload, hb, -, hout, rfl, rfl⟩ := buildLinkOf_eq_ok.mp h
  have hcarries := Carries.of_written (hb.written source (P.publicKey me) hout)
  refine ⟨_, readBack_viewFor hb (P.publicKey me), fun calls => ?_⟩
  have hstart : Held P opens source me payload _ _ _ := held_packed laws hb hcarries
  have hheld := held_run laws decipher ratchets opening hb calls hstart
  exact ⟨hheld.delivered, hheld.capacity⟩

theorem delivered_hello : ∃ view, ReadBack .source Vectors.timestamp Vectors.title Vectors.content .empty
      Vectors.platform Vectors.hello.messageId view ∧
    ∀ calls : List Call,
      Delivered Vectors.inboundPlatform Vectors.opens .source .recipient view
        (run Vectors.platform (Vectors.platform.publicKey .recipient) calls
          ⟨Vectors.hello.written.out, 124, .packed⟩) ∧
      (run Vectors.platform (Vectors.platform.publicKey .recipient) calls
        ⟨Vectors.hello.written.out, 124, .packed⟩).buffer.length = Vectors.hello.written.out.length :=
  delivered_run Vectors.platform_identity Vectors.platform_decipher Vectors.platform_ratchets
    Vectors.platform_opening Vectors.buildLink_hello

/-- A stamp of no length is refused, and the message goes out as an upload. -/
example : (run Vectors.platform (Vectors.platform.publicKey .recipient)
    [.appendRecipientStamp [], .encryptMessage none Vectors.ephemeralPriv Vectors.iv,
      .wrapUpload (Vectors.block 32 0) Vectors.timestamp]
    ⟨Vectors.hello.written.out, 124, .packed⟩).length = 253 := by decide +kernel

end LxmfLite.Delivery
