import LxmfLite.Carriage
import LxmfLite.Publication

namespace LxmfLite.Packets

open ByteString Execution Message Primitives Laws Parse Writer Payload Framing Build Authentication
  Packing RoundTrip Propagation Encryption Signing Opportunistic Outbound Publication Carriage

variable {LocalIdentity VerifyingKey : Type} {P : InboundPlatform LocalIdentity VerifyingKey}
  {cipher : Bytes → Block 32 → Block 16 → Block 32 → Block 16 → Bytes}
  {opens : Block 32 → Block 32 → Bool} {opened : Bytes → Block 32 → Block 16 → Except CryptoError Bytes}
  {refused : Bytes → List (Block 32) → Block 32 → Block 16 → CryptoError}
  {source me : LocalIdentity} {timestamp : F64} {title content : Bytes} {fields : OuterFields}
  {payload packed : Bytes} {target ephemeralPriv : Block 32} {iv : Block 16}

/-- What the recipient makes of an opportunistic packet for the target: under
every key that opens it the same view, and the index of the key; under no
other key, and under no hint past the ring, anything. -/
structure Received (P : InboundPlatform LocalIdentity VerifyingKey)
    (opens : Block 32 → Block 32 → Bool) (source me : LocalIdentity) (target : Block 32)
    (packet : Bytes) (view : LxmfView) : Prop where
  ring : ∀ (ring : List (Block 32)) (buffers : LinkScratch),
    P.maxEciesPlaintext ≤ buffers.scratch.length →
    (∃ key ∈ ring ++ [first32 (P.privateKey me)], opens key target = true) →
      (parseOpportunisticRatchet P me ring packet (P.publicKey source)).eval buffers =
        .ok (view, ring.findIdx? (opens · target))
  hint : ∀ (ring : List (Block 32)) (which : Option Nat) (key : Block 32) (buffers : LinkScratch),
    P.maxEciesPlaintext ≤ buffers.scratch.length →
    hintedKey ring (first32 (P.privateKey me)) which = some key → opens key target = true →
      (parseOpportunisticRatchetHint P me ring which packet (P.publicKey source)).eval buffers = .ok view
  base : ∀ buffers : LinkScratch, P.maxEciesPlaintext ≤ buffers.scratch.length →
    opens (first32 (P.privateKey me)) target = true →
      (parseOpportunistic P me packet (P.publicKey source)).eval buffers = .ok view
  peek : ∀ (ring : List (Block 32)) (scratch : Bytes), P.maxEciesPlaintext ≤ scratch.length →
    (∃ key ∈ ring ++ [first32 (P.privateKey me)], opens key target = true) →
      (peekSourceOpportunisticRatchet P me ring packet).eval scratch =
        .ok (view.sourceHash, ring.findIdx? (opens · target))
  peekBase : ∀ scratch : Bytes, P.maxEciesPlaintext ≤ scratch.length →
    opens (first32 (P.privateKey me)) target = true →
      (peekSourceOpportunistic P me packet).eval scratch = .ok view.sourceHash
  ringClosed : ∀ (ring : List (Block 32)) (buffers : LinkScratch),
    P.maxEciesPlaintext ≤ buffers.scratch.length →
    (∀ key ∈ ring ++ [first32 (P.privateKey me)], opens key target = false) →
      ∃ e, (parseOpportunisticRatchet P me ring packet (P.publicKey source)).eval buffers = fail e
  hintClosed : ∀ (ring : List (Block 32)) (which : Option Nat) (buffers : LinkScratch),
    P.maxEciesPlaintext ≤ buffers.scratch.length →
    (∀ key, hintedKey ring (first32 (P.privateKey me)) which = some key → opens key target = false) →
      ∃ e, (parseOpportunisticRatchetHint P me ring which packet (P.publicKey source)).eval buffers =
        fail e
  baseClosed : ∀ buffers : LinkScratch, P.maxEciesPlaintext ≤ buffers.scratch.length →
    opens (first32 (P.privateKey me)) target = false →
      ∃ e, (parseOpportunistic P me packet (P.publicKey source)).eval buffers = fail e
  peekClosed : ∀ (ring : List (Block 32)) (scratch : Bytes), P.maxEciesPlaintext ≤ scratch.length →
    (∀ key ∈ ring ++ [first32 (P.privateKey me)], opens key target = false) →
      ∃ e, (peekSourceOpportunisticRatchet P me ring packet).eval scratch = fail e
  peekBaseClosed : ∀ scratch : Bytes, P.maxEciesPlaintext ≤ scratch.length →
    opens (first32 (P.privateKey me)) target = false →
      ∃ e, (peekSourceOpportunistic P me packet).eval scratch = fail e

/-- Where a key opens a packet or fails on it, the scan stops at the first key
that opens it. -/
theorem firstOpened_eq {under : Block 32 → Except CryptoError Bytes} {p : Block 32 → Bool}
    {plaintext : Bytes} (hyes : ∀ key, p key = true → under key = .ok plaintext)
    (hno : ∀ key, p key = false → ∃ e, under key = .error e) (base : Block 32) (start : Nat)
    (ring : List (Block 32)) :
    firstOpened under base start ring =
      if (ring ++ [base]).any p then some (plaintext, (ring.findIdx? p).map (start + ·)) else none := by
  induction ring generalizing start with
  | nil =>
      rw [List.nil_append, List.any_cons, List.any_nil, Bool.or_false, firstOpened]
      cases hp : p base with
      | true => rw [hyes base hp, if_pos rfl]; rfl
      | false =>
          obtain ⟨e, he⟩ := hno base hp
          rw [he, if_neg Bool.false_ne_true]
  | cons key ring ih =>
      rw [firstOpened, List.cons_append, List.any_cons, List.findIdx?_cons]
      cases hp : p key with
      | true => rw [hyes key hp, Bool.true_or, if_pos rfl]; rfl
      | false =>
          obtain ⟨e, he⟩ := hno key hp
          rw [he]
          simp only
          rw [ih, Bool.false_or, if_neg Bool.false_ne_true, Option.map_map]
          simp only [Function.comp_def, Nat.add_assoc, Nat.add_comm 1]

section Cipher

variable (opening : OpeningLaws P.toPlatform cipher opens opened)
include opening

theorem scanned_cipher (ring : List (Block 32)) {plaintext : Bytes}
    (hfit : plaintext.length ≤ P.maxEciesPlaintext) :
    scanned P opened me (cipher plaintext target (P.localIdentityHash me) ephemeralPriv iv) ring =
      if (ring ++ [first32 (P.privateKey me)]).any (opens · target) then
        some (plaintext, ring.findIdx? (opens · target)) else none := by
  have hscan := firstOpened_eq (p := (opens · target)) (fun key hk => opening.finds key target
    (P.localIdentityHash me) ephemeralPriv iv plaintext hk hfit) (fun key hk => opening.refuses key target
    (P.localIdentityHash me) ephemeralPriv iv plaintext hk) (first32 (P.privateKey me)) 0 ring
  simp only [Nat.zero_add, Option.map_id'] at hscan
  exact hscan

/-- A packet with the plaintext of a message in it is received. -/
theorem received_cipher (laws : IdentityLaws P.toPlatform) (ratchets : RatchetLaws P opened refused)
    (hb : Buildable P.toPlatform timestamp title content fields payload)
    (h : Carries P.toPlatform source (P.publicKey me) payload packed)
    (hfit : packed.length ≤ 16 + P.maxEciesPlaintext) (target ephemeralPriv : Block 32) (iv : Block 16) :
    Received P opens source me target
      (cipher (packed.drop 16) target (P.localIdentityHash me) ephemeralPriv iv)
      (viewFor P.toPlatform source (P.publicKey me) timestamp title content fields payload) := by
  have hplain : (packed.drop 16).length ≤ P.maxEciesPlaintext := by
    rw [List.length_drop]
    omega
  have hfound (ring : List (Block 32))
      (hk : ∃ key ∈ ring ++ [first32 (P.privateKey me)], opens key target = true) :
      scanned P opened me (cipher (packed.drop 16) target (P.localIdentityHash me) ephemeralPriv iv) ring =
        some (packed.drop 16, ring.findIdx? (opens · target)) := by
    rw [scanned_cipher opening ring hplain, if_pos (List.any_eq_true.mpr hk)]
  have hview := h.messageIn laws hb hfit
  have hpeek (ring : List (Block 32)) (scratch : Bytes) (hroom : P.maxEciesPlaintext ≤ scratch.length)
      (hk : ∃ key ∈ ring ++ [first32 (P.privateKey me)], opens key target = true) :
      (peekSourceOpportunisticRatchet P me ring (cipher (packed.drop 16) target
        (P.localIdentityHash me) ephemeralPriv iv)).eval scratch =
        .ok (P.lxmfDeliveryHash source, ring.findIdx? (opens · target)) := by
    have hscan := hfound ring hk
    obtain ⟨rest, hm⟩ := h
    rw [packedOf, List.drop_left' (P.deliveryHash (P.publicKey me)).2] at hscan ⊢
    exact eval_peek_opened ratchets hroom (List.cons_ne_nil _ _) hscan
  have hnone (ring : List (Block 32))
      (hk : ∀ key ∈ ring ++ [first32 (P.privateKey me)], opens key target = false) :
      scanned P opened me (cipher (packed.drop 16) target (P.localIdentityHash me) ephemeralPriv iv) ring =
        none := by
    rw [scanned_cipher opening ring hplain, if_neg]
    rw [List.any_eq_true]
    rintro ⟨key, hm, ho⟩
    rw [hk key hm] at ho
    cases ho
  have hbase (hk : opens (first32 (P.privateKey me)) target = false) :
      ∀ key ∈ [] ++ [first32 (P.privateKey me)], opens key target = false := by
    intro key hm
    rw [List.mem_singleton.mp hm]
    exact hk
  exact {
    ring := fun ring buffers hroom hk => by
      rw [eval_ratchet_opened ratchets hroom (hfound ring hk), hview]
      rfl
    hint := fun ring which key buffers hroom hhint hk => by
      rw [eval_hint_opened ratchets hroom hhint (opening.finds _ _ _ _ _ _ hk hplain)]
      exact hview
    base := fun buffers hroom hk => by
      rw [eval_base_opened ratchets hroom (opening.finds _ _ _ _ _ _ hk hplain)]
      exact hview
    peek := hpeek
    peekBase := fun scratch hroom hk => by
      rw [peekSourceOpportunistic, Exec.eval_bind,
        hpeek [] scratch hroom ⟨_, List.mem_singleton_self _, hk⟩]
      rfl
    ringClosed := fun ring buffers hroom hk => ⟨_, eval_ratchet_refused ratchets hroom (hnone ring hk)⟩
    hintClosed := fun ring which buffers hroom hk => eval_hint_refused ratchets hroom
      fun key hkey => opening.refuses _ _ _ _ _ _ (hk key hkey)
    baseClosed := fun buffers hroom hk => by
      obtain ⟨e, he⟩ := opening.refuses _ _ (P.localIdentityHash me) ephemeralPriv iv (packed.drop 16) hk
      exact ⟨_, eval_base_rejected ratchets hroom he⟩
    peekClosed := fun ring scratch hroom hk => ⟨_, eval_peek_refused ratchets hroom (hnone ring hk)⟩
    peekBaseClosed := fun scratch hroom hk => by
      have hpeek := eval_peek_refused ratchets hroom (hnone [] (hbase hk))
      rw [peekSourceOpportunistic, Exec.eval_bind, hpeek]
      exact ⟨_, rfl⟩ }

end Cipher

theorem received_sealed (laws : IdentityLaws P.toPlatform) (ratchets : RatchetLaws P opened refused)
    (opening : OpeningLaws P.toPlatform cipher opens opened)
    (decipher : DecipherLaws P.toPlatform cipher opens)
    (hb : Buildable P.toPlatform timestamp title content fields payload) {buffer : Bytes} {n total : Nat}
    (h : Carries P.toPlatform source (P.publicKey me) payload (buffer.take n))
    (hs : Sealable P.toPlatform buffer n (P.publicKey me) total) (ratchet : Option (Block 32))
    (ephemeralPriv : Block 32) (iv : Block 16) :
    Received P opens source me (targetKey ratchet (P.publicKey me))
      ((ciphered P.toPlatform buffer n 0 total (P.publicKey me) ratchet ephemeralPriv iv).take total)
      (viewFor P.toPlatform source (P.publicKey me) timestamp title content fields payload) := by
  have hplain : buffer.extract 16 n = (buffer.take n).drop 16 := by
    rw [List.extract_eq_take_drop, List.drop_take]
  obtain ⟨htake, -⟩ := ciphered_take (P.publicKey me) ratchet ephemeralPriv iv
    decipher.toCipherLaws hs.inside hs.cipher (show 0 + total ≤ buffer.length by
      rw [Nat.zero_add]
      exact hs.room)
  rw [Nat.zero_add, List.take_zero, List.nil_append, hplain, ← decipher.identityHash_eq me] at htake
  rw [htake]
  refine received_cipher opening laws ratchets hb h ?_ _ _ _
  have hfits := hs.fits
  rw [List.length_take]
  omega

def buildPacketOf (P : Platform LocalIdentity VerifyingKey) (source : LocalIdentity)
    (recipientPublicKey : Block 64) (ratchet : Option (Block 32)) (timestamp : F64)
    (title content : Bytes) (ephemeralPriv : Block 32) (iv : Block 16) :
    Option (List EncodedField) → Exec LxmfError PacketBuffers Nat
  | none => buildOpportunisticRatchet P source recipientPublicKey ratchet timestamp title content
      ephemeralPriv iv
  | some entries => buildOpportunisticRatchetWithFields P source recipientPublicKey ratchet timestamp
      title content entries ephemeralPriv iv

def fieldsOf : Option (List EncodedField) → OuterFields
  | none => .empty
  | some entries => .encoded entries

theorem buildPacketOf_eq {P : Platform LocalIdentity VerifyingKey} {recipientPublicKey : Block 64}
    {ratchet : Option (Block 32)} {entries : Option (List EncodedField)} :
    buildPacketOf P source recipientPublicKey ratchet timestamp title content ephemeralPriv iv entries =
      liftM (admission (fieldsOf entries)) >>= fun admitted => buildOpportunisticInner P source
        recipientPublicKey ratchet timestamp title content admitted ephemeralPriv iv := by
  cases entries with
  | none => exact buildOpportunisticRatchet_eq
  | some entries => exact buildOpportunisticRatchetWithFields_eq

/-- A builder that succeeds had a payload for one packet, and wrote its ciphertext. -/
theorem buildPacketOf_eq_ok {P : Platform LocalIdentity VerifyingKey} (output : OutputLaws P)
    (packets : PacketLaws P cipher) {recipientPublicKey : Block 64} {ratchet : Option (Block 32)}
    {entries : Option (List EncodedField)} {packet packet' : PacketBuffers} {n : Nat}
    (h : (buildPacketOf P source recipientPublicKey ratchet timestamp title content ephemeralPriv iv
      entries).run packet = (.ok n, packet')) :
    ∃ payload, Buildable P timestamp title content (fieldsOf entries) payload ∧
      80 + payload.length ≤ P.maxEciesPlaintext ∧
      packet'.out.take n = cipher (plaintextFor P source recipientPublicKey payload)
        (targetKey ratchet recipientPublicKey) (P.identityHash recipientPublicKey) ephemeralPriv iv ∧
      packet'.outDestHash = P.deliveryHash recipientPublicKey ∧
      packet'.outMessageId = messageIdFor P source recipientPublicKey payload := by
  rw [buildPacketOf_eq] at h
  rcases admission_cases (fieldsOf entries) with ⟨admitted, ha⟩ | ⟨e, -, ha⟩
  swap
  · rw [ha] at h
    cases h
  rw [ha, Exec.run_ok_bind] at h
  by_cases hone : OnePacket P title content (fieldsOf entries)
      (payloadBytes timestamp title content (fieldsOf entries))
  swap
  · rw [inner_fails source recipientPublicKey ratchet ephemeralPriv iv ha rfl hone] at h
    cases h
  refine ⟨_, ⟨⟨admitted, ha⟩, hone.encodable, rfl, hone.countable⟩, hone.fits, ?_⟩
  generalize hp : payloadBytes timestamp title content (fieldsOf entries) = payload at hone
  have hplain : (plaintextFor P source recipientPublicKey payload).length = 80 + payload.length :=
    plaintextOf_length
  have hfits : (plaintextFor P source recipientPublicKey payload).length ≤ P.maxEciesPlaintext := by
    rw [hplain]
    exact hone.fits
  obtain ⟨m, hm, -⟩ := output.sized _ hfits
  rw [buildOpportunisticInner_ok source recipientPublicKey ha hone.encodable hp.symm hone.countable hone.fits]
    at h
  by_cases hroom : m ≤ packet.out.length
  · obtain ⟨hok, htake⟩ := packets.copied (targetKey ratchet recipientPublicKey)
      (P.identityHash recipientPublicKey) ephemeralPriv iv packet.out _ m hfits hm hroom
    rw [hok] at h
    cases h
    exact ⟨htake, rfl, rfl⟩
  · rw [output.overruns _ _ _ _ _ _ _ hfits hm (Nat.lt_of_not_le hroom)] at h
    cases h

/-- What an opportunistic builder writes, the recipient reads back under every
key that opens the packet, through every parser. -/
theorem received_buildPacketOf (laws : IdentityLaws P.toPlatform) (output : OutputLaws P.toPlatform)
    (packets : PacketLaws P.toPlatform cipher) (decipher : DecipherLaws P.toPlatform cipher opens)
    (ratchets : RatchetLaws P opened refused) (opening : OpeningLaws P.toPlatform cipher opens opened)
    {ratchet : Option (Block 32)} {entries : Option (List EncodedField)} {packet packet' : PacketBuffers}
    {n : Nat} (h : (buildPacketOf P.toPlatform source (P.publicKey me) ratchet timestamp title content
      ephemeralPriv iv entries).run packet = (.ok n, packet')) :
    packet'.outDestHash = P.lxmfDeliveryHash me ∧
    ∃ view, ReadBack source timestamp title content (fieldsOf entries) P.toPlatform packet'.outMessageId
        view ∧
      Received P opens source me (targetKey ratchet (P.publicKey me)) (packet'.out.take n) view := by
  obtain ⟨payload, hb, hfits, htake, hdest, hid⟩ := buildPacketOf_eq_ok output packets h
  have hcarries : Carries P.toPlatform source (P.publicKey me) payload
      (packedFor P.toPlatform source (P.publicKey me) payload) := by
    have hw := hb.written source (P.publicKey me)
      (show 96 + payload.length ≤ (List.replicate (96 + payload.length) (0 : UInt8)).length by simp)
    have hc := Carries.of_written hw
    rwa [hw.take] at hc
  have hdrop : (packedFor P.toPlatform source (P.publicKey me) payload).drop 16 =
      plaintextFor P.toPlatform source (P.publicKey me) payload :=
    List.drop_left' (P.deliveryHash (P.publicKey me)).2
  refine ⟨hdest.trans (laws.deliveryHash_eq me).symm, _, hid ▸ readBack_viewFor hb (P.publicKey me), ?_⟩
  rw [htake, ← decipher.identityHash_eq me, ← hdrop]
  exact received_cipher opening laws ratchets hb hcarries (by rw [packedFor_length]; omega) _ _ _

theorem received_hello : ∃ packet' : PacketBuffers,
    (buildPacketOf Vectors.platform .source (Vectors.platform.publicKey .recipient) none Vectors.timestamp
      Vectors.title Vectors.content Vectors.ephemeralPriv Vectors.iv none).run
        ⟨List.replicate 192 0, Vectors.block 16 0, Vectors.block 32 0⟩ = (.ok 192, packet') ∧
    ∃ view, ReadBack .source Vectors.timestamp Vectors.title Vectors.content .empty Vectors.platform
        packet'.outMessageId view ∧
      Received Vectors.inboundPlatform Vectors.opens .source .recipient
        (targetKey none (Vectors.platform.publicKey .recipient)) (packet'.out.take 192) view := by
  have h : (buildPacketOf Vectors.platform .source (Vectors.platform.publicKey .recipient) none
      Vectors.timestamp Vectors.title Vectors.content Vectors.ephemeralPriv Vectors.iv none).run
        ⟨List.replicate 192 0, Vectors.block 16 0, Vectors.block 32 0⟩ =
      (.ok 192, ⟨Vectors.helloCiphertext, Vectors.Party.recipient.deliveryHash,
        Vectors.hello.messageId⟩) := by
    decide +kernel
  exact ⟨_, h, (received_buildPacketOf Vectors.platform_identity Vectors.platform_output
    Vectors.platform_packet Vectors.platform_decipher Vectors.platform_ratchets Vectors.platform_opening
    h).2⟩

end LxmfLite.Packets
