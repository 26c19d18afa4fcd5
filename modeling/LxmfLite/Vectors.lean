import LxmfLite.Laws
import LxmfLite.Packing
import LxmfLite.Stamp

namespace LxmfLite.Vectors

open ByteString Message Primitives Laws Parse Build Packing Stamp

def block (n value : Nat) : Block n := ⟨toBe n value, toBe_length n value⟩

def pair (a b : Nat) : Block 64 :=
  ⟨toBe 32 a ++ toBe 32 b, by rw [List.length_append, toBe_length, toBe_length]⟩

/-- The two identities of the interoperability tests. -/
inductive Party
  | source
  | recipient
  deriving DecidableEq

namespace Party

def privateKey : Party → Block 64
  | source => pair
      0x000102030405060708090a0b0c0d0e0f101112131415161718191a1b1c1d1e1f
      0x202122232425262728292a2b2c2d2e2f303132333435363738393a3b3c3d3e3f
  | recipient => pair
      0x404142434445464748494a4b4c4d4e4f505152535455565758595a5b5c5d5e5f
      0x606162636465666768696a6b6c6d6e6f707172737475767778797a7b7c7d7e7f

def publicKey : Party → Block 64
  | source => pair
      0x8f40c5adb68f25624ae5b214ea767a6ec94d829d3d7b5e1ad1ba6f3e2138285f
      0x29acbae141bccaf0b22e1a94d34d0bc7361e526d0bfe12c89794bc9322966dd7
  | recipient => pair
      0x79a631eede1bf9c98f12032cdeadd0e7a079398fc786b88cc846ec89af85a51a
      0x174553b456dddfc6908ecab1c101fe6ab21e2baa0617795b7d43a63482993fd5

def identityHash : Party → Block 16
  | source => block 16 0xaca31af0441d81dbec71e82da0b4b5f5
  | recipient => block 16 0x069092a03c194639207219dd05f9c840

def deliveryHash : Party → Block 16
  | source => block 16 0xfae321c442e3c9bdcd7a3e79d850e03c
  | recipient => block 16 0xcf0b2a4a8d2a0b6978b71290da7cc80e

end Party

structure Vector where
  payload : Bytes
  messageId : Block 32
  signature : Block 64

namespace Vector

variable (v : Vector)

def hashedPart : Bytes := Party.recipient.deliveryHash.val ++ (Party.source.deliveryHash.val ++ v.payload)

def plaintext : Bytes := Party.source.deliveryHash.val ++ (v.signature.val ++ v.payload)

def packed : Bytes := Party.recipient.deliveryHash.val ++ v.plaintext

end Vector

/-- 1234567890.5 -/
def timestamp : F64 := ⟨0x41d26580b4a00000⟩

def title : Bytes := toBe 2 0x4869

def content : Bytes := toBe 11 0x68656c6c6f20776f726c64

def hello : Vector where
  payload := toBe 28 0x94cb41d26580b4a00000c4024869c40b68656c6c6f20776f726c6480
  messageId := block 32 0xdceab683f560aad56d128fc7051ceb41ef4cd935430df0eb089a4ea0095be1a4
  signature := pair
    0x886ce9da0df0d8088d5abaf4aee20f88daed4b5f0795015556e650bcfc215045
    0xab73129f6e1e5a9ae45cf7efe6aed1a2ede7fbc089d977c5ea47fff3da2c6e08

def nestedValue : Bytes := toBe 8 0x91919191919191c0

def nested : Vector where
  payload := toBe 37 0x94cb41d26580b4a00000c4024869c40b68656c6c6f20776f726c64810a91919191919191c0
  messageId := block 32 0x0ba8b1599b8ab3ce25c5e9ec1e475ae11263251afd6daa87e3ae99ae4bfb07be
  signature := pair
    0x5238bdd514987e76e0291846874eb108100f212578ca0603bf116a32d6b76d9f
    0x474f2d3ebefd42b8232ca2e9ef08f8a03b19cb5e422fddb2c6fd39bd5edc920c

def shallowValue : Bytes := [0x91, 0xc0]

def answer : Vector where
  payload := toBe 31 0x94cb41d26580b4a00000c4024869c40b68656c6c6f20776f726c64810a91c0
  messageId := block 32 0x8338e33730ee90391691d6a744d390d326a8407985e7d383c45941152ce2add5
  signature := pair
    0xd4fc0731d1c7f1966004084faefa11326eff169a2772237e980e478154c8ecab
    0x16a0baafe1d439a4a491b29545902731a70fcd2300845542546f1c2d73681703

def ephemeralPriv : Block 32 := block 32 0x3333333333333333333333333333333333333333333333333333333333333333

def iv : Block 16 := block 16 0x44444444444444444444444444444444

def helloCiphertext : Bytes :=
  toBe 48 0x7b0d47d93427f8311160781c7c733fd89f88970aef490d8aa0ee19a4cb8a1b1444444444444444444444444444444444 ++
  toBe 48 0x0d7c1dee5eb3705ffb1071c5a2793fbd560c3b182efc727d9941535dcbc9b12df1985a5fb1084d7efc4e2d3cf97ff76d ++
  toBe 48 0xee026669294ec05d51bf843cd4c3b998b2e66be6b571f6a02cf5fb88480a474b389ba269ae44cf74ac6f699680c83c20 ++
  toBe 48 0x8d2d3be4fcf5ba8de6b2b18b20a1c90bc0324fa01763f8468836445c617b9ab8b87bda7cf9e4cc0760763516a0ef8f69

def helloTransientId : Block 32 := block 32 0x7c5e0adf4615b2e773abe5ec1b6b3a9fdc6a8c81e9c44749de00c797f5b05222

def deliveryNameHash : Bytes := toBe 10 0x6ec60bc318e2c0f0d908

def table {α β : Type} [DecidableEq α] (rows : List (α × β)) (otherwise : β) (x : α) : β :=
  (rows.lookup x).getD otherwise

def nameHash : String → Bytes := table [("lxmf.delivery", deliveryNameHash)] []

def destinationHash (name : Bytes) (identity : Option (Block 16)) : Block 16 :=
  table [((deliveryNameHash, some Party.source.identityHash), Party.source.deliveryHash),
    ((deliveryNameHash, some Party.recipient.identityHash), Party.recipient.deliveryHash)]
    (block 16 0) (name, identity)

def sign (party : Party) (message : Bytes) : Block 64 :=
  table [((Party.source, hello.hashedPart ++ hello.messageId.val), hello.signature),
    ((.source, nested.hashedPart ++ nested.messageId.val), nested.signature),
    ((.source, answer.hashedPart ++ answer.messageId.val), answer.signature)] (pair 0 0) (party, message)

section Cipher

variable {plaintext : Bytes} {target ephemeral key : Block 32} {hash nonce : Block 16}

def cipherLen (n : Nat) : Nat := 80 + 16 * (n / 16 + 1)

def padding (n : Nat) : Bytes := List.replicate (16 - n % 16) (UInt8.ofNat (16 - n % 16))

/-- A cipher that hides nothing, apart from the message of the tests. -/
def cipher (plaintext : Bytes) (target : Block 32) (hash : Block 16) (ephemeral : Block 32)
    (nonce : Block 16) : Bytes :=
  if plaintext = hello.plaintext ∧ target = first32 Party.recipient.publicKey ∧
      hash = Party.recipient.identityHash ∧ ephemeral = ephemeralPriv ∧ nonce = iv then
    helloCiphertext
  else target.val ++ (nonce.val ++ (plaintext ++ (padding plaintext.length ++ List.replicate 32 0)))

def opens (key target : Block 32) : Bool :=
  [Party.source, .recipient].any fun party =>
    key = first32 party.privateKey ∧ target = first32 party.publicKey

def fitted (n : Nat) (bytes : Bytes) : Block n :=
  ⟨(bytes ++ List.replicate n 0).take n, by simp⟩

def targetOf (ciphertext : Bytes) : Block 32 :=
  if ciphertext = helloCiphertext then first32 Party.recipient.publicKey else fitted 32 ciphertext

def plainOf (ciphertext : Bytes) : Bytes :=
  if ciphertext = helloCiphertext then hello.plaintext
  else ciphertext.extract 48 (ciphertext.length - 32 - (ciphertext.getD (ciphertext.length - 33) 0).toNat)

theorem fitted_eq {n : Nat} {bytes : Bytes} (h : bytes.length = n) : (fitted n bytes).val = bytes :=
  List.take_left' h

theorem padding_length (n : Nat) : (padding n).length = 16 - n % 16 := List.length_replicate

theorem cipher_cases (plaintext : Bytes) (target : Block 32) (hash : Block 16) (ephemeral : Block 32)
    (nonce : Block 16) :
    (cipher plaintext target hash ephemeral nonce = helloCiphertext ∧ plaintext = hello.plaintext ∧
      target = first32 Party.recipient.publicKey) ∨
    (cipher plaintext target hash ephemeral nonce ≠ helloCiphertext ∧
      cipher plaintext target hash ephemeral nonce = target.val ++ (nonce.val ++ (plaintext ++
        (padding plaintext.length ++ List.replicate 32 0)))) := by
  rw [cipher]
  split
  next h => exact .inl ⟨rfl, h.1, h.2.1⟩
  next =>
    refine .inr ⟨fun h => ?_, rfl⟩
    have hlast := congrArg List.getLast? h
    have hhello : helloCiphertext.getLast? = some 0x69 := by decide +kernel
    simp only [hhello, List.getLast?_append, List.getLast?_replicate] at hlast
    exact absurd hlast (by simp)

theorem cipher_length (plaintext : Bytes) (target : Block 32) (hash : Block 16) (ephemeral : Block 32)
    (nonce : Block 16) : (cipher plaintext target hash ephemeral nonce).length =
      cipherLen plaintext.length := by
  rcases cipher_cases plaintext target hash ephemeral nonce with ⟨h, hp, -⟩ | ⟨-, h⟩
  · rw [h, hp]
    decide +kernel
  · simp only [h, List.length_append, List.length_replicate, padding_length, target.2, nonce.2, cipherLen]
    omega

theorem targetOf_cipher : targetOf (cipher plaintext target hash ephemeral nonce) = target := by
  rcases cipher_cases plaintext target hash ephemeral nonce with ⟨h, -, ht⟩ | ⟨hne, h⟩
  · rw [targetOf, if_pos h, ht]
  · rw [targetOf, if_neg hne, h]
    apply Subtype.ext
    simp only [fitted, List.append_assoc]
    exact List.take_left' target.2

theorem plainOf_cipher : plainOf (cipher plaintext target hash ephemeral nonce) = plaintext := by
  rcases cipher_cases plaintext target hash ephemeral nonce with ⟨h, hp, -⟩ | ⟨hne, h⟩
  · rw [plainOf, if_pos h, hp]
  · rw [plainOf, if_neg hne, h]
    generalize hq : 16 - plaintext.length % 16 = q
    obtain ⟨r, rfl⟩ : ∃ r, q = r + 1 := ⟨q - 1, by omega⟩
    have hhead : (target.val ++ nonce.val).length = 48 := by rw [List.length_append, target.2, nonce.2]
    have hfront : (target.val ++ nonce.val ++ plaintext ++ List.replicate r (UInt8.ofNat (r + 1))).length =
        48 + plaintext.length + r := by
      rw [List.length_append, List.length_append, hhead, List.length_replicate]
    have hsplit : target.val ++ (nonce.val ++ (plaintext ++ (padding plaintext.length ++
        List.replicate 32 0))) = (target.val ++ nonce.val ++ plaintext ++
          List.replicate r (UInt8.ofNat (r + 1))) ++ (UInt8.ofNat (r + 1) :: List.replicate 32 0) := by
      rw [padding, hq, List.replicate_succ']
      simp only [List.append_assoc, List.singleton_append]
    have htotal : (target.val ++ (nonce.val ++ (plaintext ++ (padding plaintext.length ++
        List.replicate 32 0)))).length = 48 + plaintext.length + r + 33 := by
      rw [hsplit, List.length_append, hfront, List.length_cons, List.length_replicate]
    have hmark : (target.val ++ (nonce.val ++ (plaintext ++ (padding plaintext.length ++
        List.replicate 32 0)))).getD (48 + plaintext.length + r) 0 = UInt8.ofNat (r + 1) := by
      rw [hsplit, List.getD_eq_getElem?_getD, List.getElem?_append_right (Nat.le_of_eq hfront), hfront,
        Nat.sub_self]
      rfl
    rw [htotal, show 48 + plaintext.length + r + 33 - 33 = 48 + plaintext.length + r by omega, hmark,
      toNat_ofNat_of_lt (by omega),
      show 48 + plaintext.length + r + 33 - 32 - (r + 1) = 48 + plaintext.length by omega,
      List.extract_eq_take_drop, ← List.append_assoc, List.drop_left' hhead, Nat.add_sub_cancel_left,
      List.take_left' rfl]

end Cipher

def decrypt (key : Block 32) (buffer : Bytes) : Except CryptoError Nat × Block buffer.length :=
  if opens key (targetOf buffer) then
    (.ok (plainOf buffer).length, fitted buffer.length (overwrite buffer 48 (plainOf buffer)))
  else (.error .authenticationFailed, ⟨buffer, rfl⟩)

theorem decrypt_opens {key : Block 32} {buffer : Bytes} (h : opens key (targetOf buffer)) :
    decrypt key buffer = (.ok (plainOf buffer).length,
      fitted buffer.length (overwrite buffer 48 (plainOf buffer))) := if_pos h

theorem decrypt_closed {key : Block 32} {buffer : Bytes} (h : ¬opens key (targetOf buffer)) :
    decrypt key buffer = (.error .authenticationFailed, ⟨buffer, rfl⟩) := if_neg h

/-- A network stack that answers the messages of the tests as the real one. -/
def platform : Platform Party Party where
  usizeMax := 0xffffffffffffffff
  sha256 := table [(hello.hashedPart, hello.messageId), (nested.hashedPart, nested.messageId),
    (answer.hashedPart, answer.messageId),
    (Party.recipient.deliveryHash.val ++ helloCiphertext, helloTransientId)] (block 32 0)
  lxmfDeliveryName := "lxmf.delivery"
  nameHash := nameHash
  identityHash := table [(Party.source.publicKey, Party.source.identityHash),
    (Party.recipient.publicKey, Party.recipient.identityHash)] (block 16 0)
  destinationHashFromParts := destinationHash
  destinationHashFromName name := destinationHash (nameHash name)
  publicKey := Party.publicKey
  privateKey := Party.privateKey
  localIdentityHash := Party.identityHash
  lxmfDeliveryHash := Party.deliveryHash
  sign := sign
  verifyingKey := table [(last32 Party.source.publicKey, some .source),
    (last32 Party.recipient.publicKey, some .recipient)] none
  verify party message signature := signature = sign party message
  maxEciesPlaintext := 383
  eciesPlaintextOffset := 48
  eciesFixedOverhead := 80
  eciesCiphertextLen n := .ok (cipherLen n)
  eciesEncrypt plaintext target hash ephemeral nonce out :=
    if 383 < plaintext.length then (.error .plaintextTooLong, ⟨out, rfl⟩)
    else if out.length < cipherLen plaintext.length then (.error .outputTooSmall, ⟨out, rfl⟩)
    else (.ok (cipherLen plaintext.length),
      fitted out.length (overwrite out 0 (cipher plaintext target hash ephemeral nonce)))
  eciesEncryptInPlace target hash ephemeral nonce buffer n :=
    if buffer.length = cipherLen n then
      (.ok (), fitted buffer.length (cipher (buffer.extract 48 (48 + n)) target hash ephemeral nonce))
    else (.error .outputTooSmall, ⟨buffer, rfl⟩)
  eciesDecryptInPlace key _ buffer := decrypt key buffer
  usizeMax_ge := by decide
  plaintextPrefix_le := by decide

theorem platform_identity : IdentityLaws platform where
  deliveryHash_eq identity := by cases identity <;> decide +kernel
  verifies identity message := by
    refine ⟨identity, ?_, decide_eq_true rfl⟩
    cases identity <;> decide +kernel

theorem platform_destination : DestinationLaw platform := fun _ => rfl

theorem platform_inPlace : InPlaceLaws platform where
  plaintext_fits n m h := by
    cases h
    simp only [platform, cipherLen]
    omega
  encrypts target recipientHash ephemeralPriv iv buffer n h := by
    have hlen : buffer.length = cipherLen n := (Except.ok.inj h).symm
    simp only [platform, if_pos hlen]

theorem platform_cipher : CipherLaws platform cipher where
  toInPlaceLaws := platform_inPlace
  inPlace target recipientHash ephemeralPriv iv buffer plaintext h hplain := by
    have hlen : buffer.length = cipherLen plaintext.length := (Except.ok.inj h).symm
    simp only [platform, if_pos hlen] at hplain ⊢
    rw [hplain]
    exact fitted_eq (by rw [cipher_length, hlen])

theorem platform_packet : PacketLaws platform cipher where
  toCipherLaws := platform_cipher
  copied target recipientHash ephemeralPriv iv out plaintext m hmax h hroom := by
    obtain rfl : cipherLen plaintext.length = m := Except.ok.inj h
    have hlen := cipher_length plaintext target recipientHash ephemeralPriv iv
    have hover : (overwrite out 0 (cipher plaintext target recipientHash ephemeralPriv iv)).length =
        out.length := overwrite_length (by omega)
    have hmax' : ¬383 < plaintext.length := Nat.not_lt.mpr hmax
    simp only [platform, if_neg hmax', if_neg (Nat.not_lt.mpr hroom), fitted_eq hover, true_and]
    rw [← hlen]
    exact overwrite_start _ _

theorem platform_output : OutputLaws platform where
  sized n h := by
    have hmax : n ≤ 383 := h
    refine ⟨cipherLen n, rfl, ?_, ?_⟩
    · rw [cipherLen]
      omega
    · simp only [platform, cipherLen]
      omega
  writes plaintext target recipientHash ephemeralPriv iv out m hmax h hroom := by
    obtain rfl : cipherLen plaintext.length = m := Except.ok.inj h
    have hmax' : ¬383 < plaintext.length := Nat.not_lt.mpr hmax
    simp only [platform, if_neg hmax', if_neg (Nat.not_lt.mpr hroom)]
  overruns plaintext target recipientHash ephemeralPriv iv out m hmax h hshort := by
    obtain rfl : cipherLen plaintext.length = m := Except.ok.inj h
    have hmax' : ¬383 < plaintext.length := Nat.not_lt.mpr hmax
    simp only [platform, if_neg hmax', if_pos hshort]

theorem platform_decipher : DecipherLaws platform cipher opens where
  toCipherLaws := platform_cipher
  identityHash_eq identity := by cases identity <;> decide +kernel
  overhead n m h := by
    cases h
    simp only [platform, cipherLen]
    omega
  decrypts key target hash ephemeralPriv iv plaintext m hopens h := by
    have hlen := cipher_length plaintext target hash ephemeralPriv iv
    generalize hc : cipher plaintext target hash ephemeralPriv iv = ciphertext at hlen
    have hfit : 48 + plaintext.length ≤ ciphertext.length := by
      rw [hlen, cipherLen]
      omega
    have hplain : plainOf ciphertext = plaintext := by rw [← hc, plainOf_cipher]
    have hrun := decrypt_opens (show opens key (targetOf ciphertext) = true by
      rw [← hc, targetOf_cipher]
      exact hopens)
    rw [hplain] at hrun
    refine ⟨congrArg Prod.fst hrun, ?_⟩
    have hbody := congrArg (fun result => result.2.val) hrun
    simp only [fitted_eq (overwrite_length hfit)] at hbody
    exact (congrArg (fun body => body.extract 48 (48 + plaintext.length)) hbody).trans
      (overwrite_extract plaintext (show 48 ≤ ciphertext.length by omega))
  rejects key target hash ephemeralPriv iv plaintext m hopens h := by
    have hrun := decrypt_closed (show ¬opens key (targetOf (cipher plaintext target hash ephemeralPriv iv)) by
      rw [targetOf_cipher, hopens]
      exact Bool.false_ne_true)
    exact ⟨⟨_, congrArg Prod.fst hrun⟩, congrArg (fun result => result.2.val) hrun⟩

section Inbound

def openPacket (packet : Bytes) (key : Block 32) (_hash : Block 16) : Except CryptoError Bytes :=
  if opens key (targetOf packet) ∧ (plainOf packet).length ≤ 383 then .ok (plainOf packet)
  else .error .authenticationFailed

def place {α : Type} (out : Bytes) (found : Except CryptoError (α × Bytes)) :
    Except CryptoError α × Block out.length :=
  match found with
  | .ok (a, plaintext) => (.ok a, fitted out.length (overwrite out 0 plaintext))
  | .error e => (.error e, ⟨out, rfl⟩)

def measured (found : Except CryptoError Bytes) : Except CryptoError (Nat × Bytes) :=
  found.map fun plaintext => (plaintext.length, plaintext)

def inboundPlatform : InboundPlatform Party Party where
  toPlatform := platform
  eciesDecrypt packet key hash out := place out (measured (openPacket packet key hash))
  eciesDecryptWithRatchets packet ring base hash out :=
    place out (match firstOpened (openPacket packet · hash) base 0 ring with
      | some (plaintext, which) => .ok ((plaintext.length, which), plaintext)
      | none => .error .authenticationFailed)
  eciesDecryptWithRatchetHint packet ring base hash which out :=
    place out (match hintedKey ring base which with
      | some key => measured (openPacket packet key hash)
      | none => .error .authenticationFailed)

theorem place_opens {α : Type} {out plaintext : Bytes} {a : α} (h : plaintext.length ≤ out.length) :
    Opens (place out (.ok (a, plaintext))) a plaintext := by
  refine ⟨rfl, ?_⟩
  have hfit : 0 + plaintext.length ≤ out.length := by omega
  simp only [place, fitted_eq (overwrite_length hfit)]
  exact overwrite_start out plaintext

theorem openPacket_length {packet plaintext : Bytes} {key : Block 32} {hash : Block 16}
    (h : openPacket packet key hash = .ok plaintext) : plaintext.length ≤ 383 := by
  rw [openPacket] at h
  split at h
  next hc =>
    cases h
    exact hc.2
  next => cases h

theorem openPacket_error {packet : Bytes} {key : Block 32} {hash : Block 16} {e : CryptoError}
    (h : openPacket packet key hash = .error e) : e = .authenticationFailed := by
  rw [openPacket] at h
  split at h
  next => cases h
  next =>
    cases h
    rfl

theorem firstOpened_length {packet plaintext : Bytes} {ring : List (Block 32)} {base : Block 32}
    {hash : Block 16} {i : Nat} {which : Option Nat}
    (h : firstOpened (openPacket packet · hash) base i ring = some (plaintext, which)) :
    plaintext.length ≤ 383 := by
  induction ring generalizing i with
  | nil =>
      rw [firstOpened] at h
      cases hb : openPacket packet base hash with
      | error e =>
          rw [hb] at h
          cases h
      | ok pt =>
          rw [hb] at h
          cases h
          exact openPacket_length hb
  | cons key ring ih =>
      rw [firstOpened] at h
      cases hk : openPacket packet key hash with
      | error e =>
          rw [hk] at h
          exact ih h
      | ok pt =>
          rw [hk] at h
          cases h
          exact openPacket_length hk

theorem platform_ratchets :
    RatchetLaws inboundPlatform openPacket (fun _ _ _ _ => .authenticationFailed) where
  decrypts packet key hash out plaintext hroom h := by
    simp only [inboundPlatform, h]
    exact place_opens (Nat.le_trans (openPacket_length h) hroom)
  rejects packet key hash out e hroom h := by
    simp only [inboundPlatform, h]
    rfl
  scans packet ring base hash out plaintext which hroom h := by
    simp only [inboundPlatform, h]
    exact place_opens (Nat.le_trans (firstOpened_length h) hroom)
  refuses packet ring base hash out hroom h := by
    simp only [inboundPlatform, h]
    rfl
  refuses_base packet base hash e h := (openPacket_error h).symm
  hinted packet ring base hash which key out plaintext hroom hk h := by
    simp only [inboundPlatform, hk, h]
    exact place_opens (Nat.le_trans (openPacket_length h) hroom)
  hinted_rejects packet ring base hash which key out e hroom hk h := by
    simp only [inboundPlatform, hk, h]
    rfl
  out_of_range packet ring base hash which out hroom hk := by
    refine ⟨.authenticationFailed, ?_⟩
    simp only [inboundPlatform, hk]
    rfl

theorem platform_opening : OpeningLaws platform cipher opens openPacket where
  finds key target hash ephemeralPriv iv plaintext hopens hmax := by
    rw [openPacket, targetOf_cipher, plainOf_cipher, if_pos ⟨hopens, hmax⟩]
  refuses key target hash ephemeralPriv iv plaintext hopens := by
    refine ⟨.authenticationFailed, ?_⟩
    rw [openPacket, targetOf_cipher, hopens, if_neg (by simp)]

def packetScratch : LinkScratch := ⟨List.replicate 383 0, .new⟩

end Inbound

section Built

def linkScratch : LinkScratch := ⟨List.replicate 256 0, ⟨List.replicate 64 0, rfl⟩⟩

/-- The stamp for the message from a ticket of sixteen bytes 0x5a. -/
def ticketStamp : Bytes := toBe 16 0x8f0b0ad8ab297f5ec1be6ed58597626c

def Vector.written (v : Vector) : LinkBuffers :=
  ⟨(fitted 256 v.packed).val, (fitted 256 (v.hashedPart ++ v.messageId.val)).val,
    Party.recipient.deliveryHash, v.messageId⟩

def unwritten : LinkBuffers :=
  ⟨List.replicate 256 0, List.replicate 256 0, block 16 0, block 32 0⟩

theorem buildLink_hello : (buildLinkOf platform .source (platform.publicKey .recipient) timestamp title
    content .empty).run unwritten = (.ok 124, hello.written) := by
  decide +kernel

theorem buildLink_nested : (buildLinkOf platform .source (platform.publicKey .recipient) timestamp title
    content (.encoded [(0x0a, nestedValue)])).run unwritten = (.ok 133, nested.written) := by
  decide +kernel

theorem buildLink_answer : (buildLinkOf platform .source (platform.publicKey .recipient) timestamp title
    content (.encoded [(0x0a, shallowValue)])).run unwritten = (.ok 127, answer.written) := by
  decide +kernel

end Built

section Work

def firstSalt : Block 32 := block 32 0x48c14f6cbe7b6f80189fbd067c1819f1700184e0dbad42a4d6497e998d57c4a8

def firstChunk : Block 256 :=
  fitted 256 (
    toBe 32 0xda6a39b93c87f1e6798ac5d105466120117d57e32fe2c471841a8d6d26a567e3 ++
    toBe 32 0x84432bd78497aa1f6062f5a15173b6a7dd7d10f5108236ab5cd32c3b9817d26f ++
    toBe 32 0x2281cb844b2d7a16067107133d21a5e12f95e4f4b2c9ba5ab9f98d47a7a05437 ++
    toBe 32 0x5c258d0a877399c9abc6687a334269dea499413236795cd2f09bb07c3d787103 ++
    toBe 32 0x880cbc977ebc8d32028e8030154ea4d220b5aea5f2a1bc8b2f9d93fc2ebaf68b ++
    toBe 32 0xb85fe35f7c63727ea7611101e487df6e0b60be4dc95ffdce9e0b6250982c1e7b ++
    toBe 32 0x53cbb16a92ec85fc97854840117f033536e244cfaa148c955d58ac112f5f1d68 ++
    toBe 32 0xd1814810c35569ca4cefd4929c0077183175d9b6eebb34629fd7607478904777)

def hashing : Hashing where
  sha256 := table [(hello.messageId.val ++ [0], firstSalt)] (block 32 0)
  hkdf salt key := table [((firstSalt, hello.messageId), firstChunk)] (block 256 0) (salt, key)

end Work

end LxmfLite.Vectors
