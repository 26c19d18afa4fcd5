import LxmfLite.Handover
import LxmfLite.Opportunistic

namespace LxmfLite.Carriage

open ByteString Execution SelfDelimiting MessagePack KeyedMap Message Primitives Laws Reader Skipping
  FieldReading Parse Decoding Authentication Inbound Writer Encoder Payload Framing Build Packing
  RoundTrip Propagation Stamping Opportunistic

variable {LocalIdentity VerifyingKey : Type} {P : Platform LocalIdentity VerifyingKey}
  {source me : LocalIdentity} {timestamp : F64} {title content : Bytes} {fields : OuterFields}
  {payload packed : Bytes}

/-- A packed message from the source that carries its signed payload. The
marker may count more than four elements, and a stamp may stand behind. -/
inductive Carries (P : Platform LocalIdentity VerifyingKey) (source : LocalIdentity)
    (recipientPublicKey : Block 64) : Bytes → Bytes → Prop
  | mk {m : UInt8} {items : Bytes} (rest : Bytes) (hm : 0x94 ≤ m.toNat ∧ m.toNat ≤ 0x9f) :
      Carries P source recipientPublicKey (0x94 :: items)
        (packedOf (P.deliveryHash recipientPublicKey) (P.lxmfDeliveryHash source)
          (signatureOf P source recipientPublicKey (0x94 :: items)) (m :: (items ++ rest)))

namespace Carries

variable {recipientPublicKey : Block 64}

theorem of_written {buffer : Bytes} (h : Written P source recipientPublicKey payload buffer) :
    Carries P source recipientPublicKey payload (buffer.take (96 + payload.length)) := by
  obtain ⟨items, rfl⟩ := h.marker
  have hmk : Carries P source recipientPublicKey (0x94 :: items) (packedOf _ _ _ (0x94 :: (items ++ []))) :=
    .mk [] (by decide)
  rw [List.append_nil] at hmk
  rwa [h.take]

theorem dest (h : Carries P source recipientPublicKey payload packed) :
    packed.take 16 = (P.deliveryHash recipientPublicKey).val := by
  cases h
  exact packedOf_take_dest

theorem length_le (h : Carries P source recipientPublicKey payload packed) :
    96 + payload.length ≤ packed.length := by
  cases h
  rw [packedOf_length]
  simp only [List.length_cons, List.length_append]
  omega

theorem stamped {buffer stamp : Bytes} {n : Nat}
    (h : Carries P source recipientPublicKey payload (buffer.take n)) (hs : Stampable P buffer n stamp) :
    Carries P source recipientPublicKey payload
      ((Stamping.stamped buffer n stamp).take (n + (2 + stamp.length))) := by
  obtain ⟨head, tail, hhead, hold, hnew⟩ := stamped_parts hs
  rw [hnew]
  generalize buffer.take n = packed at h hold
  obtain ⟨rest, hm⟩ := h
  rename_i m items
  have hparts (b : UInt8) (bs : Bytes) : packedOf (P.deliveryHash recipientPublicKey)
      (P.lxmfDeliveryHash source) (signatureOf P source recipientPublicKey (0x94 :: items)) (b :: bs) =
      (P.deliveryHash recipientPublicKey).val ++ ((P.lxmfDeliveryHash source).val ++
        (signatureOf P source recipientPublicKey (0x94 :: items)).val) ++ b :: bs := by
    simp only [packedOf, plaintextOf, List.append_assoc]
  rw [hparts] at hold
  obtain ⟨rfl, htail⟩ := List.append_inj hold (by
    simp only [List.length_append, (P.deliveryHash recipientPublicKey).2,
      (P.lxmfDeliveryHash source).2, (signatureOf P source recipientPublicKey (0x94 :: items)).2, hhead])
  obtain ⟨-, rfl⟩ := List.cons.inj htail
  rw [← hparts, List.append_assoc]
  exact .mk (rest ++ stampBytes stamp) (by decide)

section Readers

variable (laws : IdentityLaws P) (hb : Buildable P timestamp title content fields payload)
  (h : Carries P source (P.publicKey me) payload packed)
include laws hb h

theorem parseLink (scratch : LinkScratch) (hroom : 64 + payload.length ≤ scratch.scratch.length) :
    (Parse.parseLink P me packed (P.publicKey source)).eval scratch =
      .ok (viewFor P source (P.publicKey me) timestamp title content fields payload) := by
  obtain ⟨rest, hm⟩ := h
  rw [eval_parseLink (List.cons_ne_nil _ _), laws.deliveryHash_eq me, if_neg (by simp)]
  exact authenticate_carried laws hb hm rest hroom

theorem messageIn (hfit : packed.length ≤ 16 + P.maxEciesPlaintext) :
    Opportunistic.messageIn P me (P.publicKey source) (packed.drop 16) =
      .ok (viewFor P source (P.publicKey me) timestamp title content fields payload) := by
  obtain ⟨rest, hm⟩ := h
  rw [packedOf_length] at hfit
  have hmax := hfit
  rw [packedOf, List.drop_left' (P.deliveryHash (P.publicKey me)).2,
    messageIn_plaintextOf (List.cons_ne_nil _ _), authenticateOpened_eq (by
      rw [Platform.maxLxmfPayload, plaintextPrefix_eq]
      omega)]
  refine authenticate_carried laws hb hm rest ?_
  simp only [List.length_cons, List.length_append]
  omega

end Readers

end Carries

end LxmfLite.Carriage
