import LxmfLite.Vectors
import LxmfLite.Laws
import LxmfLite.Encryption

namespace LxmfLite.Envelope

open ByteString Execution Message Primitives Laws Propagation Encryption

variable {LocalIdentity VerifyingKey : Type} {P : Platform LocalIdentity VerifyingKey}
  {cipher : Bytes → Block 32 → Block 16 → Block 32 → Block 16 → Bytes}
  {opens : Block 32 → Block 32 → Bool} {me : LocalIdentity}

structure Entry (P : Platform LocalIdentity VerifyingKey)
    (cipher : Bytes → Block 32 → Block 16 → Block 32 → Block 16 → Bytes) (me : LocalIdentity)
    (target ephemeralPriv : Block 32) (iv : Block 16) (plaintext entry : Bytes) : Prop where
  body : entry.drop 16 = cipher plaintext target (P.localIdentityHash me) ephemeralPriv iv
  cipherLen : ∃ m, P.eciesCiphertextLen plaintext.length = .ok m ∧ entry.length = 16 + m

section Keys

variable {target ephemeralPriv : Block 32} {iv : Block 16} {plaintext entry : Bytes}

theorem overwrite_drop {buf : Bytes} {i : Nat} (h : i ≤ buf.length) :
    overwrite buf i (buf.drop i) = buf := by
  rw [overwrite, List.take_append_drop, List.drop_eq_nil_of_le, List.append_nil]
  rw [List.length_drop]
  omega

theorem Entry.slice (h : Entry P cipher me target ephemeralPriv iv plaintext entry) :
    (slice entry 16 entry.length : Result Bytes) =
      .ok (cipher plaintext target (P.localIdentityHash me) ephemeralPriv iv) := by
  obtain ⟨m, -, hlen⟩ := h.cipherLen
  rw [slice_eq (by omega) (Nat.le_refl _), List.extract_eq_take_drop, h.body, List.take_of_length_le]
  rw [← h.body, List.length_drop]

/-- A key that does not open the entry leaves it to the keys behind it. -/
theorem tryKeys_rejected (laws : DecipherLaws P cipher opens)
    (h : Entry P cipher me target ephemeralPriv iv plaintext entry) {key : Block 32}
    (hkey : opens key target = false) (i : Nat) (keys : List (Block 32)) :
    (tryKeys P me i (key :: keys)).run entry = (tryKeys P me (i + 1) keys).run entry := by
  obtain ⟨m, hcipher, hlen⟩ := h.cipherLen
  obtain ⟨⟨e, hfails⟩, hsame⟩ := laws.rejects key target (P.localIdentityHash me) ephemeralPriv iv plaintext
    m hkey hcipher
  simp only [tryKeys, Exec.run_get_bind]
  rw [h.slice, Exec.run_ok_bind, Exec.run_set_bind, hsame, ← h.body, overwrite_drop (by omega)]
  rw [h.body, hfails]

theorem tryKeys_opened (laws : DecipherLaws P cipher opens)
    (h : Entry P cipher me target ephemeralPriv iv plaintext entry) {key : Block 32}
    (hkey : opens key target = true) (i : Nat) (keys : List (Block 32)) :
    ∃ restored, (tryKeys P me i (key :: keys)).run entry = (.ok (plaintext.length, i), restored) ∧
      restored.take (16 + plaintext.length) = entry.take 16 ++ plaintext := by
  obtain ⟨m, hcipher, hlen⟩ := h.cipherLen
  obtain ⟨hok, hplain⟩ := laws.decrypts key target (P.localIdentityHash me) ephemeralPriv iv plaintext
    m hkey hcipher
  have hfit := laws.plaintext_fits _ _ hcipher
  have hbody : (P.eciesDecryptInPlace key (P.localIdentityHash me)
      (cipher plaintext target (P.localIdentityHash me) ephemeralPriv iv)).2.val.length = m := by
    rw [(P.eciesDecryptInPlace _ _ _).2.2, ← h.body, List.length_drop]
    omega
  generalize hout : (P.eciesDecryptInPlace key (P.localIdentityHash me)
    (cipher plaintext target (P.localIdentityHash me) ephemeralPriv iv)).2.val = out at hplain hbody
  have hbuf : (overwrite entry 16 out).length = entry.length := overwrite_length (by rw [hbody]; omega)
  have hcopy : (copyWithin (overwrite entry 16 out) (16 + P.eciesPlaintextOffset)
      (16 + P.eciesPlaintextOffset + plaintext.length) 16 : Result Bytes) =
      .ok (overwrite (overwrite entry 16 out) 16 plaintext) := by
    rw [copyWithin_eq (Nat.le_add_right _ _) (by omega) (by omega),
      overwrite_extract_inside (by omega) (by omega), hplain]
  refine ⟨overwrite (overwrite entry 16 out) 16 plaintext, ?_, ?_⟩
  · simp only [tryKeys, Exec.run_get_bind]
    rw [h.slice, Exec.run_ok_bind, hout, Exec.run_set_bind, hok]
    simp only
    rw [hcopy, Exec.run_ok_bind, Exec.run_set_bind, Exec.run_pure]
  · rw [overwrite_take_end _ (by omega), overwrite_take _ (by omega)]

/-- The loop stops at the first key that opens the entry. -/
theorem tryKeys_run (laws : DecipherLaws P cipher opens)
    (h : Entry P cipher me target ephemeralPriv iv plaintext entry) (keys : List (Block 32)) (i : Nat) :
    (∀ j, keys.findIdx? (opens · target) = some j → ∃ restored,
      (tryKeys P me i keys).run entry = (.ok (plaintext.length, i + j), restored) ∧
        restored.take (16 + plaintext.length) = entry.take 16 ++ plaintext) ∧
    (keys.findIdx? (opens · target) = none → (tryKeys P me i keys).run entry = (fail .crypto, entry)) := by
  induction keys generalizing i with
  | nil => exact ⟨nofun, fun _ => rfl⟩
  | cons key keys ih =>
      rw [List.findIdx?_cons]
      cases hkey : opens key target with
      | true =>
          refine ⟨fun j hj => ?_, nofun⟩
          cases hj
          exact tryKeys_opened laws h hkey i keys
      | false =>
          rw [tryKeys_rejected laws h hkey]
          obtain ⟨hfound, hnone⟩ := ih (i + 1)
          constructor
          · intro j hj
            obtain ⟨j', hj', rfl⟩ := Option.map_eq_some_iff.mp hj
            obtain ⟨restored, hr, htake⟩ := hfound j' hj'
            exact ⟨restored, by rw [hr, Nat.add_assoc, Nat.add_comm 1], htake⟩
          · intro hj
            exact hnone (Option.map_eq_none_iff.mp hj)

end Keys

/-- An index past the ring is the base key's. -/
theorem ring_index {p : Block 32 → Bool} {ring : List (Block 32)} {base : Block 32} {j : Nat}
    (h : (ring ++ [base]).findIdx? p = some j) :
    (if j < ring.length then some j else none) = ring.findIdx? p := by
  rw [List.findIdx?_append] at h
  cases hring : ring.findIdx? p with
  | some i =>
      rw [hring, Option.some_or] at h
      cases h
      rw [if_pos (List.findIdx?_eq_some_iff_getElem.mp hring).1]
  | none =>
      rw [hring, Option.none_or] at h
      obtain ⟨i, -, rfl⟩ := Option.map_eq_some_iff.mp h
      rw [if_neg (by omega)]

section Decrypt

variable {target ephemeralPriv : Block 32} {iv : Block 16} {plaintext entry : Bytes}

theorem run_decryptMessage (laws : DecipherLaws P cipher opens)
    (h : Entry P cipher me target ephemeralPriv iv plaintext entry)
    (hdest : entry.take 16 = (P.lxmfDeliveryHash me).val) (ring : List (Block 32)) :
    (decryptMessage P me ring).run entry =
      (tryKeys P me 0 (ring ++ [first32 (P.privateKey me)]) >>= fun found =>
        pure (16 + found.1, P.sha256 entry,
          if found.2 < ring.length then some found.2 else none)).run entry := by
  obtain ⟨m, hcipher, hlen⟩ := h.cipherLen
  have hoverhead := laws.overhead _ _ hcipher
  have hleading : (slice entry 0 16 : Result Bytes) = .ok (P.lxmfDeliveryHash me).val := by
    rw [slice_take (by omega), hdest]
  simp only [decryptMessage, Exec.run_get_bind, Exec.run_rejectIf_bind]
  rw [if_neg (by omega), hleading, Exec.run_ok_bind, Exec.run_rejectIf_bind, if_neg (by simp)]

theorem decryptMessage_entry (laws : DecipherLaws P cipher opens)
    (h : Entry P cipher me target ephemeralPriv iv plaintext entry)
    (hdest : entry.take 16 = (P.lxmfDeliveryHash me).val) (ring : List (Block 32)) :
    ((∃ key ∈ ring ++ [first32 (P.privateKey me)], opens key target = true) → ∃ restored,
      (decryptMessage P me ring).run entry =
          (.ok (16 + plaintext.length, P.sha256 entry, ring.findIdx? (opens · target)), restored) ∧
        restored.take (16 + plaintext.length) = entry.take 16 ++ plaintext) ∧
    ((∀ key ∈ ring ++ [first32 (P.privateKey me)], opens key target = false) →
      (decryptMessage P me ring).run entry = (fail .crypto, entry)) := by
  obtain ⟨hfound, hnone⟩ := tryKeys_run laws h (ring ++ [first32 (P.privateKey me)]) 0
  rw [run_decryptMessage laws h hdest, Exec.run_bind]
  constructor
  · intro hopens
    obtain ⟨j, hj⟩ := Option.isSome_iff_exists.mp (List.findIdx?_isSome.trans (List.any_eq_true.mpr hopens))
    obtain ⟨restored, hr, htake⟩ := hfound j hj
    refine ⟨restored, ?_, htake⟩
    rw [hr, Nat.zero_add]
    simp only [Exec.run_pure, ring_index hj]
  · intro hcloses
    rw [hnone (List.findIdx?_eq_none_iff.mpr hcloses)]
    rfl

end Decrypt

theorem entry_ciphered (laws : DecipherLaws P cipher opens) {buffer : Bytes} {packedLen m : Nat}
    (h : Enclosable P buffer packedLen (P.publicKey me) m) (ratchet : Option (Block 32))
    (ephemeralPriv : Block 32) (iv : Block 16) :
    Entry P cipher me (targetKey ratchet (P.publicKey me)) ephemeralPriv iv (buffer.extract 16 packedLen)
        ((ciphered P buffer packedLen 16 m (P.publicKey me) ratchet ephemeralPriv iv).take (16 + m)) ∧
      ((ciphered P buffer packedLen 16 m (P.publicKey me) ratchet ephemeralPriv iv).take (16 + m)).take
        16 = buffer.take 16 := by
  have hroom := h.room
  have hhead : (buffer.take 16).length = 16 := List.length_take_of_le (by omega)
  obtain ⟨hentry, hlen⟩ := ciphered_take (P.publicKey me) ratchet ephemeralPriv iv
    laws.toCipherLaws h.inside h.cipher hroom
  rw [← laws.identityHash_eq me] at hentry hlen
  rw [hentry]
  refine ⟨⟨List.drop_left' hhead, m, ?_, ?_⟩, List.take_left' hhead⟩
  · rw [plaintext_length h.inside]
    exact h.cipher
  · rw [List.length_append, hhead, hlen]

/-- Decrypting an encrypted message yields the message and the hash of the
entry, with the index of the first key in the ring that opens it. -/
theorem decryptMessage_encryptMessage (laws : DecipherLaws P cipher opens) {buffer final : Bytes}
    {packedLen total : Nat} {tid : Block 32} {ratchet : Option (Block 32)} {ephemeralPriv : Block 32}
    {iv : Block 16} (hdest : (buffer.take packedLen).take 16 = (P.lxmfDeliveryHash me).val)
    (h : (encryptMessage P packedLen (P.publicKey me) ratchet ephemeralPriv iv).run buffer =
      (.ok (total, tid), final)) (ring : List (Block 32)) :
    ((∃ key ∈ ring ++ [first32 (P.privateKey me)],
        opens key (targetKey ratchet (P.publicKey me)) = true) →
      ∃ restored, (decryptMessage P me ring).run (final.take total) =
          (.ok (packedLen, tid, ring.findIdx? (opens · (targetKey ratchet (P.publicKey me)))), restored) ∧
        restored.take packedLen = buffer.take packedLen) ∧
    ((∀ key ∈ ring ++ [first32 (P.privateKey me)],
        opens key (targetKey ratchet (P.publicKey me)) = false) →
      (decryptMessage P me ring).run (final.take total) = (fail .crypto, final.take total)) := by
  obtain ⟨m, he, rfl, rfl, rfl⟩ := (encryptMessage_eq_ok laws.toInPlaceLaws).mp h
  have hprefixed := he.prefixed
  have hinside := he.inside
  rw [List.take_take, Nat.min_eq_left (by omega)] at hdest
  obtain ⟨hentry, hhead⟩ := entry_ciphered laws he ratchet ephemeralPriv iv
  obtain ⟨hopened, hclosed⟩ := decryptMessage_entry laws hentry (hhead.trans hdest) ring
  have hpacked : 16 + (buffer.extract 16 packedLen).length = packedLen := by
    rw [plaintext_length hinside]
    omega
  have hjoin : buffer.take 16 ++ buffer.extract 16 packedLen = buffer.take packedLen := by
    rw [List.extract_eq_take_drop, ← List.drop_take]
    conv_rhs => rw [← List.take_append_drop 16 (buffer.take packedLen)]
    rw [List.take_take, Nat.min_eq_left (by omega)]
  rw [hpacked, hhead, hjoin] at hopened
  exact ⟨hopened, hclosed⟩

theorem decryptMessage_hello : ∃ restored,
    (decryptMessage Vectors.platform .recipient [Vectors.ephemeralPriv]).run
      ((overwrite Vectors.hello.written.out 16 Vectors.helloCiphertext).take 208) =
        (.ok (124, Vectors.helloTransientId, none), restored) ∧
    restored.take 124 = Vectors.hello.written.out.take 124 := by
  have h : (encryptMessage Vectors.platform 124 (Vectors.platform.publicKey .recipient) none
      Vectors.ephemeralPriv Vectors.iv).run Vectors.hello.written.out =
        (.ok (208, Vectors.helloTransientId),
          overwrite Vectors.hello.written.out 16 Vectors.helloCiphertext) := by
    decide +kernel
  have hdecrypt := (decryptMessage_encryptMessage Vectors.platform_decipher
    (by decide +kernel) h [Vectors.ephemeralPriv]).1
    ⟨first32 (Vectors.platform.privateKey .recipient), by decide +kernel, by decide +kernel⟩
  have hring : [Vectors.ephemeralPriv].findIdx? (Vectors.opens ·
      (targetKey none (Vectors.platform.publicKey .recipient))) = none := by
    decide +kernel
  rwa [hring] at hdecrypt

end LxmfLite.Envelope
