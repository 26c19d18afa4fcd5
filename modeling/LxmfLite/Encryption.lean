import LxmfLite.Laws
import LxmfLite.Build
import LxmfLite.Propagation
import LxmfLite.Skipping

namespace LxmfLite.Encryption

open ByteString Execution SelfDelimiting MessagePack Message Primitives Laws Reader Skipping Build
  Propagation

variable {LocalIdentity VerifyingKey : Type} {P : Platform LocalIdentity VerifyingKey}
  {buffer : Bytes} {packedLen total : Nat} {recipientPublicKey : Block 64}
  {ratchet : Option (Block 32)} {ephemeralPriv : Block 32} {iv : Block 16}

section Shift

/-- The buffer with the plaintext of the packed message moved to its place
behind the header of a ciphertext that starts at the given index. -/
def shifted (P : Platform LocalIdentity VerifyingKey) (buffer : Bytes) (packedLen start : Nat) : Bytes :=
  overwrite buffer (start + P.eciesPlaintextOffset) (buffer.extract 16 packedLen)

def region (P : Platform LocalIdentity VerifyingKey) (buffer : Bytes) (packedLen start m : Nat) : Bytes :=
  (shifted P buffer packedLen start).extract start (start + m)

variable {start m : Nat}

theorem plaintext_length (h : packedLen ≤ buffer.length) :
    (buffer.extract 16 packedLen).length = packedLen - 16 := extract_length h

theorem shifted_length (h : packedLen ≤ buffer.length)
    (hfit : P.eciesPlaintextOffset + (packedLen - 16) ≤ m) (hroom : start + m ≤ buffer.length) :
    (shifted P buffer packedLen start).length = buffer.length :=
  overwrite_length (by rw [plaintext_length h]; omega)

theorem copyWithin_shifted (h16 : 16 ≤ packedLen) (h : packedLen ≤ buffer.length)
    (hfit : P.eciesPlaintextOffset + (packedLen - 16) ≤ m) (hroom : start + m ≤ buffer.length) :
    (copyWithin buffer 16 packedLen (start + P.eciesPlaintextOffset) : Result Bytes) =
      .ok (shifted P buffer packedLen start) :=
  copyWithin_eq h16 h (by omega)

theorem region_length (h : packedLen ≤ buffer.length)
    (hfit : P.eciesPlaintextOffset + (packedLen - 16) ≤ m) (hroom : start + m ≤ buffer.length) :
    (region P buffer packedLen start m).length = m := by
  rw [region, extract_length (by rw [shifted_length h hfit hroom]; exact hroom)]
  omega

theorem slice_region (h : packedLen ≤ buffer.length)
    (hfit : P.eciesPlaintextOffset + (packedLen - 16) ≤ m) (hroom : start + m ≤ buffer.length) :
    (slice (shifted P buffer packedLen start) start (start + m) : Result Bytes) =
      .ok (region P buffer packedLen start m) :=
  slice_eq (Nat.le_add_right _ _) (by rw [shifted_length h hfit hroom]; exact hroom)

theorem region_plaintext (h : packedLen ≤ buffer.length)
    (hfit : P.eciesPlaintextOffset + (packedLen - 16) ≤ m) (hroom : start + m ≤ buffer.length) :
    (region P buffer packedLen start m).extract P.eciesPlaintextOffset
      (P.eciesPlaintextOffset + (buffer.extract 16 packedLen).length) = buffer.extract 16 packedLen := by
  have hlen := plaintext_length h
  have hplace := overwrite_extract (buffer.extract 16 packedLen)
    (show start + P.eciesPlaintextOffset ≤ buffer.length by omega)
  rw [region, shifted]
  rw [List.extract_eq_take_drop] at hplace ⊢
  rw [List.extract_eq_take_drop (l := overwrite _ _ _), List.drop_take, List.take_take, List.drop_drop,
    Nat.min_eq_left (by omega)]
  rw [Nat.add_sub_cancel_left] at hplace ⊢
  exact hplace

theorem overwrite_cover {buf a b : Bytes} {i k : Nat} (hk : k + a.length ≤ b.length)
    (h : i + b.length ≤ buf.length) : overwrite (overwrite buf (i + k) a) i b = overwrite buf i b := by
  have hhead : (overwrite buf (i + k) a).take i = buf.take i := by
    have := congrArg (List.take i) (overwrite_take a (show i + k ≤ buf.length by omega))
    rwa [List.take_take, List.take_take, Nat.min_eq_left (Nat.le_add_right i k)] at this
  have htail : (overwrite buf (i + k) a).drop (i + b.length) = buf.drop (i + b.length) := by
    have := congrArg (List.drop (b.length - k - a.length))
      (overwrite_drop_end a (show i + k ≤ buf.length by omega))
    rwa [List.drop_drop, List.drop_drop,
      show i + k + a.length + (b.length - k - a.length) = i + b.length by omega] at this
  rw [overwrite, hhead, htail]
  rfl

end Shift

def encrypted (P : Platform LocalIdentity VerifyingKey) (buffer : Bytes) (packedLen start m : Nat)
    (recipientPublicKey : Block 64) (ratchet : Option (Block 32)) (ephemeralPriv : Block 32)
    (iv : Block 16) : Except CryptoError Unit × Block (region P buffer packedLen start m).length :=
  P.eciesEncryptInPlace (targetKey ratchet recipientPublicKey) (P.identityHash recipientPublicKey)
    ephemeralPriv iv (region P buffer packedLen start m) (packedLen - 16)

def ciphered (P : Platform LocalIdentity VerifyingKey) (buffer : Bytes) (packedLen start m : Nat)
    (recipientPublicKey : Block 64) (ratchet : Option (Block 32)) (ephemeralPriv : Block 32)
    (iv : Block 16) : Bytes :=
  overwrite (shifted P buffer packedLen start) start
    (encrypted P buffer packedLen start m recipientPublicKey ratchet ephemeralPriv iv).2.val

theorem ciphered_length (recipientPublicKey : Block 64) (ratchet : Option (Block 32))
    (ephemeralPriv : Block 32) (iv : Block 16) {start m : Nat} (h : packedLen ≤ buffer.length)
    (hfit : P.eciesPlaintextOffset + (packedLen - 16) ≤ m) (hroom : start + m ≤ buffer.length) :
    (ciphered P buffer packedLen start m recipientPublicKey ratchet ephemeralPriv iv).length =
      buffer.length := by
  have hshifted := shifted_length (P := P) h hfit hroom
  rw [ciphered, overwrite_length, hshifted]
  rw [hshifted, (encrypted P buffer packedLen start m recipientPublicKey ratchet ephemeralPriv iv).2.2,
    region_length h hfit hroom]
  exact hroom

/-- The region has the length that the encryption in place never fails on. -/
theorem encrypted_ok (recipientPublicKey : Block 64) (ratchet : Option (Block 32))
    (ephemeralPriv : Block 32) (iv : Block 16) (laws : InPlaceLaws P) {start m : Nat}
    (h : packedLen ≤ buffer.length) (hcipher : P.eciesCiphertextLen (packedLen - 16) = .ok m)
    (hroom : start + m ≤ buffer.length) :
    (encrypted P buffer packedLen start m recipientPublicKey ratchet ephemeralPriv iv).1 = .ok () := by
  have hfit := laws.plaintext_fits _ _ hcipher
  exact laws.encrypts _ _ _ _ _ _ (by rw [region_length h hfit hroom]; exact hcipher)

/-- With one cipher behind it, the ciphertext is all that is written. -/
theorem ciphered_eq {cipher : Bytes → Block 32 → Block 16 → Block 32 → Block 16 → Bytes}
    (recipientPublicKey : Block 64) (ratchet : Option (Block 32)) (ephemeralPriv : Block 32)
    (iv : Block 16) (laws : CipherLaws P cipher) {start m : Nat} (h : packedLen ≤ buffer.length)
    (hcipher : P.eciesCiphertextLen (packedLen - 16) = .ok m) (hroom : start + m ≤ buffer.length) :
    ciphered P buffer packedLen start m recipientPublicKey ratchet ephemeralPriv iv =
        overwrite buffer start (cipher (buffer.extract 16 packedLen) (targetKey ratchet recipientPublicKey)
          (P.identityHash recipientPublicKey) ephemeralPriv iv) ∧
      (cipher (buffer.extract 16 packedLen) (targetKey ratchet recipientPublicKey)
        (P.identityHash recipientPublicKey) ephemeralPriv iv).length = m := by
  have hfit := laws.plaintext_fits _ _ hcipher
  have hplain := plaintext_length h
  have hregion := region_length h hfit hroom
  have hin := laws.inPlace (targetKey ratchet recipientPublicKey) (P.identityHash recipientPublicKey)
    ephemeralPriv iv (region P buffer packedLen start m) (buffer.extract 16 packedLen)
    (by rw [hplain, hregion]; exact hcipher) (region_plaintext h hfit hroom)
  rw [hplain] at hin
  have hlen : (cipher (buffer.extract 16 packedLen) (targetKey ratchet recipientPublicKey)
      (P.identityHash recipientPublicKey) ephemeralPriv iv).length = m := by
    rw [← hin, (P.eciesEncryptInPlace _ _ _ _ _ _).2.2, hregion]
  refine ⟨?_, hlen⟩
  rw [ciphered, encrypted, hin, shifted, overwrite_cover (by rw [hplain, hlen]; exact hfit)
    (by rw [hlen]; exact hroom)]

theorem ciphered_take {cipher : Bytes → Block 32 → Block 16 → Block 32 → Block 16 → Bytes}
    (recipientPublicKey : Block 64) (ratchet : Option (Block 32)) (ephemeralPriv : Block 32)
    (iv : Block 16) (laws : CipherLaws P cipher) {start m : Nat} (h : packedLen ≤ buffer.length)
    (hcipher : P.eciesCiphertextLen (packedLen - 16) = .ok m) (hroom : start + m ≤ buffer.length) :
    (ciphered P buffer packedLen start m recipientPublicKey ratchet ephemeralPriv iv).take (start + m) =
        buffer.take start ++ cipher (buffer.extract 16 packedLen) (targetKey ratchet recipientPublicKey)
          (P.identityHash recipientPublicKey) ephemeralPriv iv ∧
      (cipher (buffer.extract 16 packedLen) (targetKey ratchet recipientPublicKey)
        (P.identityHash recipientPublicKey) ephemeralPriv iv).length = m := by
  obtain ⟨heq, hlen⟩ := ciphered_eq recipientPublicKey ratchet ephemeralPriv iv laws h hcipher hroom
  have htake := overwrite_take_end (cipher (buffer.extract 16 packedLen)
    (targetKey ratchet recipientPublicKey) (P.identityHash recipientPublicKey) ephemeralPriv iv)
    (show start ≤ buffer.length by omega)
  rw [hlen] at htake
  rw [heq]
  exact ⟨htake, hlen⟩

section Seal

structure Sealable (P : Platform LocalIdentity VerifyingKey) (buffer : Bytes) (packedLen : Nat)
    (recipientPublicKey : Block 64) (total : Nat) : Prop where
  prefixed : 96 < packedLen
  inside : packedLen ≤ buffer.length
  marker : buffer[96]? = some 0x94 ∨ buffer[96]? = some 0x95
  value : Value 8 0 ((buffer.take packedLen).drop 96)
  dest : buffer.take 16 = (P.deliveryHash recipientPublicKey).val
  fits : packedLen - 16 ≤ P.maxEciesPlaintext
  cipher : P.eciesCiphertextLen (packedLen - 16) = .ok total
  room : total ≤ buffer.length

/-- seal_opportunistic moves nothing before it has checked everything. -/
theorem sealOpportunistic_run (buffer : Bytes) (packedLen : Nat) (recipientPublicKey : Block 64)
    (ratchet : Option (Block 32)) (ephemeralPriv : Block 32) (iv : Block 16) (laws : InPlaceLaws P) :
    (∃ total, Sealable P buffer packedLen recipientPublicKey total ∧
      (sealOpportunistic P packedLen recipientPublicKey ratchet ephemeralPriv iv).run buffer =
        (.ok total, ciphered P buffer packedLen 0 total recipientPublicKey ratchet ephemeralPriv iv)) ∨
    (∃ e, (sealOpportunistic P packedLen recipientPublicKey ratchet ephemeralPriv iv).run buffer =
      (fail e, buffer)) ∧ ∀ total, ¬Sealable P buffer packedLen recipientPublicKey total := by
  simp only [sealOpportunistic, Exec.run_get_bind, Exec.run_rejectIf_bind]
  rw [lxmfPackedPrefix_eq]
  by_cases hguard : packedLen ≤ 96 ∨ packedLen > buffer.length
  · rw [if_pos hguard]
    refine .inr ⟨⟨_, rfl⟩, fun total h => ?_⟩
    rcases hguard with hg | hg
    · exact absurd h.prefixed (by omega)
    · exact absurd h.inside (by omega)
  rw [if_neg hguard, index_of_lt (by omega), Exec.run_ok_bind, Exec.run_rejectIf_bind]
  have hget : buffer[96]? = some (buffer[96]) := List.getElem?_eq_getElem (by omega)
  by_cases hmarker : ¬(buffer[96] = 0x94 ∨ buffer[96] = 0x95)
  · rw [if_pos hmarker]
    refine .inr ⟨⟨_, rfl⟩, fun total h => hmarker ?_⟩
    have hm := h.marker
    rw [hget, Option.some.injEq, Option.some.injEq] at hm
    exact hm
  rw [if_neg hmarker]
  by_cases hvalue : Value 8 0 ((buffer.take packedLen).drop 96)
  swap
  · rw [run_notWhole_bind (by omega) (by omega) hvalue]
    exact .inr ⟨⟨_, rfl⟩, fun total h => hvalue h.value⟩
  have hprefix : slice buffer 0 lxmfDestLength = (.ok (buffer.take 16) : Result Bytes) :=
    slice_take (by rw [lxmfDestLength]; omega)
  rw [run_whole_bind (by omega) (by omega) hvalue, hprefix, Exec.run_ok_bind, Exec.run_rejectIf_bind]
  by_cases hdest : buffer.take 16 ≠ (P.destinationHashFromParts (P.nameHash P.lxmfDeliveryName)
      (some (P.identityHash recipientPublicKey))).val
  · rw [if_pos hdest]
    exact .inr ⟨⟨_, rfl⟩, fun total h => hdest h.dest⟩
  rw [if_neg hdest, Exec.run_rejectIf_bind]
  by_cases hfits : packedLen - lxmfDestLength > P.plaintextMax
  · rw [if_pos hfits]
    exact .inr ⟨⟨_, rfl⟩, fun total h => absurd h.fits (Nat.not_le.mpr hfits)⟩
  rw [if_neg hfits]
  cases hcipher : P.eciesCiphertextLen (packedLen - lxmfDestLength) with
  | error e =>
      refine .inr ⟨⟨_, rfl⟩, fun total h => ?_⟩
      have hc := h.cipher
      rw [show packedLen - 16 = packedLen - lxmfDestLength from rfl, hcipher] at hc
      cases hc
  | ok total =>
      rw [ofCrypto, Exec.run_ok_bind, Exec.run_rejectIf_bind]
      by_cases hroom : total > buffer.length
      · rw [if_pos hroom]
        refine .inr ⟨⟨_, rfl⟩, fun total' h => ?_⟩
        have hc := h.cipher
        rw [show packedLen - 16 = packedLen - lxmfDestLength from rfl, hcipher] at hc
        cases hc
        exact absurd h.room (by omega)
      rw [if_neg hroom]
      have hfit := laws.plaintext_fits _ _ hcipher
      have hroom' : 0 + total ≤ buffer.length := by omega
      have hcopy := copyWithin_shifted (by omega) (by omega) hfit hroom'
      have hregion := slice_region (by omega) hfit hroom'
      have hok := encrypted_ok recipientPublicKey ratchet ephemeralPriv iv laws
        (show packedLen ≤ buffer.length by omega) hcipher hroom'
      rw [encrypted] at hok
      rw [Nat.zero_add] at hcopy hregion
      rw [show lxmfDestLength = 16 from rfl, hcopy, Exec.run_ok_bind, Exec.run_set_bind, hregion,
        Exec.run_ok_bind, Exec.run_set_bind, ← targetKey, hok, ofCrypto, Exec.run_ok_bind]
      refine .inl ⟨total, ⟨by omega, by omega, ?_, hvalue, not_not.mp hdest,
        Nat.not_lt.mp hfits, hcipher, by omega⟩, rfl⟩
      rw [hget, Option.some.injEq, Option.some.injEq]
      exact not_not.mp hmarker

/-- Behind its checks of the length and the marker, seal_opportunistic calls
the message malformed only for its framing. -/
theorem sealOpportunistic_malformed (laws : InPlaceLaws P) (hprefixed : 96 < packedLen)
    (hinside : packedLen ≤ buffer.length) (hmarker : buffer[96]? = some 0x94 ∨ buffer[96]? = some 0x95) :
    (sealOpportunistic P packedLen recipientPublicKey ratchet ephemeralPriv iv).eval buffer =
        fail .malformedPayload ↔ ¬Value 8 0 ((buffer.take packedLen).drop 96) := by
  have hguard : ¬(packedLen ≤ 96 ∨ packedLen > buffer.length) := by omega
  have hget : buffer[96]? = some (buffer[96]) := List.getElem?_eq_getElem (by omega)
  have hmarked : ¬¬(buffer[96] = 0x94 ∨ buffer[96] = 0x95) := by
    rw [hget, Option.some.injEq, Option.some.injEq] at hmarker
    exact not_not_intro hmarker
  rw [Exec.eval]
  by_cases hvalue : Value 8 0 ((buffer.take packedLen).drop 96)
  · refine iff_of_false (fun h => ?_) (not_not_intro hvalue)
    rcases sealOpportunistic_run buffer packedLen recipientPublicKey ratchet ephemeralPriv iv laws
      with ⟨total, -, hr⟩ | ⟨-, hno⟩
    · rw [hr] at h
      cases h
    -- only the destination, the lengths and the ciphertext are left to refuse
    have hprefix : slice buffer 0 lxmfDestLength = (.ok (buffer.take 16) : Result Bytes) :=
      slice_take (by rw [lxmfDestLength]; omega)
    rw [sealOpportunistic, Exec.run_get_bind, Exec.run_rejectIf_bind, lxmfPackedPrefix_eq,
      if_neg hguard, index_of_lt (by omega), Exec.run_ok_bind, Exec.run_rejectIf_bind, if_neg hmarked,
      run_whole_bind hprefixed.le hinside hvalue, hprefix, Exec.run_ok_bind, Exec.run_rejectIf_bind] at h
    by_cases hdest : buffer.take 16 ≠ (P.destinationHashFromParts (P.nameHash P.lxmfDeliveryName)
        (some (P.identityHash recipientPublicKey))).val
    · rw [if_pos hdest] at h
      cases h
    rw [if_neg hdest, Exec.run_rejectIf_bind] at h
    by_cases hfits : packedLen - lxmfDestLength > P.plaintextMax
    · rw [if_pos hfits] at h
      cases h
    rw [if_neg hfits] at h
    cases hcipher : P.eciesCiphertextLen (packedLen - lxmfDestLength) with
    | error e =>
        rw [hcipher] at h
        cases e <;> cases h
    | ok total =>
        rw [hcipher, ofCrypto, Exec.run_ok_bind, Exec.run_rejectIf_bind] at h
        by_cases hroom : total > buffer.length
        · rw [if_pos hroom] at h
          cases h
        exact hno total ⟨hprefixed, hinside, hmarker, hvalue, not_not.mp hdest, Nat.not_lt.mp hfits,
          hcipher, by omega⟩
  · refine iff_of_true ?_ hvalue
    rw [sealOpportunistic, Exec.run_get_bind, Exec.run_rejectIf_bind, lxmfPackedPrefix_eq,
      if_neg hguard, index_of_lt (by omega), Exec.run_ok_bind, Exec.run_rejectIf_bind, if_neg hmarked,
      run_notWhole_bind hprefixed.le hinside hvalue]

theorem sealOpportunistic_eq_ok (laws : InPlaceLaws P) {sealedBuffer : Bytes} :
    (sealOpportunistic P packedLen recipientPublicKey ratchet ephemeralPriv iv).run buffer =
        (.ok total, sealedBuffer) ↔
      Sealable P buffer packedLen recipientPublicKey total ∧ sealedBuffer =
        ciphered P buffer packedLen 0 total recipientPublicKey ratchet ephemeralPriv iv := by
  rcases sealOpportunistic_run buffer packedLen recipientPublicKey ratchet ephemeralPriv iv laws
    with ⟨total', hs, hr⟩ | ⟨⟨e, hr⟩, hno⟩
  · rw [hr]
    constructor
    · intro h
      cases h
      exact ⟨hs, rfl⟩
    · rintro ⟨hs', rfl⟩
      have := hs.cipher.symm.trans hs'.cipher
      cases this
      rfl
  · rw [hr]
    constructor
    · intro h
      cases h
    · rintro ⟨hs, -⟩
      exact absurd hs (hno total)

end Seal

section Enclose

/-- m is the length of the ciphertext. -/
structure Enclosable (P : Platform LocalIdentity VerifyingKey) (buffer : Bytes) (packedLen : Nat)
    (recipientPublicKey : Block 64) (m : Nat) : Prop where
  prefixed : 96 < packedLen
  inside : packedLen ≤ buffer.length
  dest : buffer.take 16 =
    (P.destinationHashFromName "lxmf.delivery" (some (P.identityHash recipientPublicKey))).val
  cipher : P.eciesCiphertextLen (packedLen - 16) = .ok m
  countable : 16 + m ≤ P.usizeMax
  room : 16 + m ≤ buffer.length

/-- encrypt_message moves nothing before it has checked everything. -/
theorem encryptMessage_run (buffer : Bytes) (packedLen : Nat) (recipientPublicKey : Block 64)
    (ratchet : Option (Block 32)) (ephemeralPriv : Block 32) (iv : Block 16) (laws : InPlaceLaws P) :
    (∃ m, Enclosable P buffer packedLen recipientPublicKey m ∧
      (encryptMessage P packedLen recipientPublicKey ratchet ephemeralPriv iv).run buffer =
        (.ok (16 + m, P.sha256 ((ciphered P buffer packedLen 16 m recipientPublicKey ratchet
            ephemeralPriv iv).take (16 + m))),
          ciphered P buffer packedLen 16 m recipientPublicKey ratchet ephemeralPriv iv)) ∨
    (∃ e, (encryptMessage P packedLen recipientPublicKey ratchet ephemeralPriv iv).run buffer =
      (fail e, buffer)) ∧ ∀ m, ¬Enclosable P buffer packedLen recipientPublicKey m := by
  simp only [encryptMessage, Exec.run_get_bind, Exec.run_rejectIf_bind]
  rw [lxmfPackedPrefix_eq]
  by_cases hguard : packedLen ≤ 96 ∨ packedLen > buffer.length
  · rw [if_pos hguard]
    refine .inr ⟨⟨_, rfl⟩, fun m h => ?_⟩
    rcases hguard with hg | hg
    · exact absurd h.prefixed (by omega)
    · exact absurd h.inside (by omega)
  rw [if_neg hguard, slice_take (by omega), Exec.run_ok_bind, Exec.run_rejectIf_bind]
  by_cases hdest : buffer.take 16 ≠
      (P.destinationHashFromName "lxmf.delivery" (some (P.identityHash recipientPublicKey))).val
  · rw [if_pos hdest]
    exact .inr ⟨⟨_, rfl⟩, fun m h => hdest h.dest⟩
  rw [if_neg hdest]
  cases hcipher : P.eciesCiphertextLen (packedLen - 16) with
  | error e =>
      refine .inr ⟨⟨_, rfl⟩, fun m h => ?_⟩
      have hc := h.cipher
      rw [hcipher] at hc
      cases hc
  | ok m =>
      have hsame {m' : Nat} (h : Enclosable P buffer packedLen recipientPublicKey m') : m' = m := by
        have hc := h.cipher
        rw [hcipher] at hc
        exact (Except.ok.inj hc).symm
      rw [ofCrypto, Exec.run_ok_bind, Exec.run_rejectIf_bind]
      by_cases hmax : 16 + m > P.usizeMax
      · rw [if_pos hmax]
        exact .inr ⟨⟨_, rfl⟩, fun m' h => absurd h.countable (by rw [hsame h]; omega)⟩
      rw [if_neg hmax, Exec.run_rejectIf_bind]
      by_cases hroom : 16 + m > buffer.length
      · rw [if_pos hroom]
        exact .inr ⟨⟨_, rfl⟩, fun m' h => absurd h.room (by rw [hsame h]; omega)⟩
      rw [if_neg hroom]
      have hfit := laws.plaintext_fits _ _ hcipher
      have hroom' : 16 + m ≤ buffer.length := by omega
      have hok := encrypted_ok recipientPublicKey ratchet ephemeralPriv iv laws
        (show packedLen ≤ buffer.length by omega) hcipher hroom'
      rw [encrypted] at hok
      have hlen := ciphered_length recipientPublicKey ratchet ephemeralPriv iv
        (show packedLen ≤ buffer.length by omega) hfit hroom'
      have hciphered : overwrite (shifted P buffer packedLen 16) 16
          (P.eciesEncryptInPlace (targetKey ratchet recipientPublicKey) (P.identityHash recipientPublicKey)
            ephemeralPriv iv (region P buffer packedLen 16 m) (packedLen - 16)).2.val =
          ciphered P buffer packedLen 16 m recipientPublicKey ratchet ephemeralPriv iv := rfl
      rw [copyWithin_shifted (by omega) (by omega) hfit hroom', Exec.run_ok_bind, Exec.run_set_bind,
        slice_region (by omega) hfit hroom', Exec.run_ok_bind, Exec.run_set_bind, ← targetKey, hok,
        ofCrypto, Exec.run_ok_bind, hciphered, slice_take (by rw [hlen]; exact hroom'), Exec.run_ok_bind]
      exact .inl ⟨m, ⟨by omega, by omega, not_not.mp hdest, hcipher, by omega, hroom'⟩, rfl⟩

theorem encryptMessage_eq_ok (laws : InPlaceLaws P) {final : Bytes} {tid : Block 32} :
    (encryptMessage P packedLen recipientPublicKey ratchet ephemeralPriv iv).run buffer =
        (.ok (total, tid), final) ↔
      ∃ m, Enclosable P buffer packedLen recipientPublicKey m ∧ total = 16 + m ∧
        tid = P.sha256 (final.take total) ∧
        final = ciphered P buffer packedLen 16 m recipientPublicKey ratchet ephemeralPriv iv := by
  rcases encryptMessage_run buffer packedLen recipientPublicKey ratchet ephemeralPriv iv laws
    with ⟨m, he, hr⟩ | ⟨⟨e, hr⟩, hno⟩
  · rw [hr]
    constructor
    · intro h
      cases h
      exact ⟨m, he, rfl, rfl, rfl⟩
    · rintro ⟨m', he', rfl, rfl, rfl⟩
      have := he.cipher.symm.trans he'.cipher
      cases this
      rfl
  · rw [hr]
    constructor
    · intro h
      cases h
    · rintro ⟨m, he, -⟩
      exact absurd he (hno m)

end Enclose

end LxmfLite.Encryption
