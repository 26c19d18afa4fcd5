import LxmfLite.Contracts
import LxmfLite.Propagation
import LxmfLite.Vectors

namespace LxmfLite.Atomicity

open ByteString Execution Contracts Exec Message Primitives Laws Reader Writer Build Propagation

variable {LocalIdentity VerifyingKey : Type} {P : Platform LocalIdentity VerifyingKey}

/-- A call that fails leaves the buffer to the caller byte for byte. -/
def Atomic {α : Type} (call : Exec LxmfError Bytes α) : Prop :=
  ∀ buffer, OnError call buffer (fun left => left = buffer)

/-- A Link builder that fails leaves everything but its scratch memory. -/
def KeepsAll (builder : Exec LxmfError LinkBuffers Nat) : Prop :=
  ∀ buffers, OnError builder buffers (fun left => left.out = buffers.out ∧
    left.outDestHash = buffers.outDestHash ∧ left.outMessageId = buffers.outMessageId)

theorem appendRecipientStamp_atomic (packedLen : Nat) (stamp : Bytes) :
    Atomic (appendRecipientStamp P packedLen stamp) := by
  intro buffer
  refine onError_get_bind (onError_rejectIf_bind (fun _ => rfl) fun _ => ?_)
  refine onError_lift_bind (fun _ _ => rfl) fun marker _ => ?_
  refine onError_rejectIf_bind (fun _ => rfl) fun _ => ?_
  refine onError_lift_bind (fun _ _ => rfl) fun head _ => ?_
  refine onError_lift_bind (fun _ _ => rfl) fun last _ => ?_
  refine onError_rejectIf_bind (fun _ => rfl) fun _ => ?_
  refine onError_rejectIf_bind (fun _ => rfl) fun _ => ?_
  refine onError_rejectIf_bind (fun _ => rfl) fun _ => ?_
  refine onError_lift_bind (fun _ _ => rfl) fun marked _ => ?_
  refine onError_lift_bind (fun _ _ => rfl) fun sized _ => ?_
  refine onError_lift_bind (fun _ _ => rfl) fun copied _ => ?_
  refine onError_lift_bind (fun _ _ => rfl) fun stamped _ => ?_
  exact onError_set_bind (onError_pure _)

section Writes

variable {α : Type} {E : Bytes → Prop} {buffer : Bytes} {g : Unit → Exec LxmfError Bytes α}

theorem storeByte_ne_fail (bytes : Bytes) (i : Nat) (b : UInt8) (e : LxmfError) :
    storeByte bytes i b ≠ fail e := by
  rw [storeByte]
  split <;> nofun

/-- A write into the buffer fails on nothing. -/
theorem copy_onError {i j : Nat} {src : Bytes} (h : ∀ written, OnError (g ()) written E) :
    OnError (Exec.update (copyFromSlice · i j src) >>= g) buffer E :=
  onError_update_bind (fun e he => absurd he (copyFromSlice_ne_fail _ _ _ _ e)) fun written _ => h written

theorem store_onError {i : Nat} {b : UInt8} (h : ∀ written, OnError (g ()) written E) :
    OnError (Exec.update (storeByte · i b) >>= g) buffer E :=
  onError_update_bind (fun e he => absurd he (storeByte_ne_fail _ _ _ e)) fun written _ => h written

theorem move_onError {i j dest : Nat} (h : ∀ written, OnError (g ()) written E) :
    OnError (Exec.update (copyWithin · i j dest) >>= g) buffer E :=
  onError_update_bind (fun e he => absurd he (copyWithin_ne_fail _ _ _ _ e)) fun written _ => h written

theorem writeEntryHeader_onError {start entryLen : Nat} (h : ∀ written, OnError (g ()) written E) :
    OnError (writeEntryHeader start entryLen >>= g) buffer E := by
  rw [writeEntryHeader]
  split
  · exact copy_onError h
  · rw [Exec.bind_assoc]
    exact store_onError fun _ => copy_onError h

theorem writeBody_onError (request : GetRequest) (h : ∀ written, OnError (g ()) written E) :
    OnError (writeBody request >>= g) buffer E := by
  cases request with
  | list => exact copy_onError h
  | purge durableTransientId =>
      rw [writeBody, Exec.bind_assoc]
      exact copy_onError fun _ => copy_onError h
  | fetch transientId limitBytes =>
      simp only [writeBody, Exec.bind_assoc]
      exact copy_onError fun _ => copy_onError fun _ => store_onError fun _ => store_onError fun _ =>
        copy_onError h

end Writes

theorem wrapUpload_atomic (encryptedLen : Nat) (stamp : Block 32) (timestamp : F64) :
    Atomic (wrapUpload P encryptedLen stamp timestamp) := by
  intro buffer
  refine onError_get_bind (onError_rejectIf_bind (fun _ => rfl) fun _ => ?_)
  refine onError_rejectIf_bind (fun _ => rfl) fun _ => ?_
  refine onError_rejectIf_bind (fun _ => rfl) fun _ => ?_
  refine onError_rejectIf_bind (fun _ => rfl) fun _ => ?_
  refine onError_rejectIf_bind (fun _ => rfl) fun _ => ?_
  -- the checks are over
  refine move_onError fun _ => copy_onError fun _ => copy_onError fun _ => copy_onError fun _ => ?_
  exact store_onError fun _ => writeEntryHeader_onError fun _ => onError_pure _

theorem buildGetRequest_atomic (timestamp : F64) (request : GetRequest) :
    Atomic (buildGetRequest P timestamp request) := by
  intro buffer
  refine onError_rejectIf_bind (fun _ => rfl) fun _ => ?_
  refine onError_get_bind (onError_rejectIf_bind (fun _ => rfl) fun _ => ?_)
  -- the checks are over
  refine store_onError fun _ => store_onError fun _ => copy_onError fun _ => copy_onError fun _ => ?_
  refine onError_lift_bind (fun e hs => absurd hs (slice_ne_fail _ _ _ e)) fun pathHash _ => ?_
  exact copy_onError fun _ => writeBody_onError request fun _ => onError_pure _

theorem ofCrypto_eq_ok {α : Type} {x : Except CryptoError α} {a : α} (h : ofCrypto x = .ok a) :
    x = .ok a := by
  cases x with
  | ok b =>
      cases h
      rfl
  | error e => cases h

theorem encrypt_onError {α : Type} (h : EncryptsInPlace P) {target ephemeralPriv : Block 32}
    {recipientHash iv : Block 16} {region : Bytes} {n : Nat} {E : Bytes → Prop} {s : Bytes}
    (hn : P.eciesCiphertextLen n = .ok region.length) {g : Unit → Exec LxmfError Bytes α}
    (hg : OnError (g ()) s E) :
    OnError (liftM (ofCrypto (P.eciesEncryptInPlace target recipientHash ephemeralPriv iv region n).1) >>= g)
      s E := by
  rw [h _ _ _ _ _ _ hn]
  exact hg

theorem sealOpportunistic_atomic (h : EncryptsInPlace P) (packedLen : Nat)
    (recipientPublicKey : Block 64) (ratchet : Option (Block 32)) (ephemeralPriv : Block 32)
    (iv : Block 16) :
    Atomic (sealOpportunistic P packedLen recipientPublicKey ratchet ephemeralPriv iv) := by
  intro buffer
  refine onError_get_bind (onError_rejectIf_bind (fun _ => rfl) fun _ => ?_)
  refine onError_lift_bind (fun _ _ => rfl) fun marker _ => ?_
  refine onError_rejectIf_bind (fun _ => rfl) fun _ => ?_
  refine onError_lift_bind (fun _ _ => rfl) fun packed _ => ?_
  refine onError_lift_bind (fun _ _ => rfl) fun last _ => ?_
  refine onError_rejectIf_bind (fun _ => rfl) fun _ => ?_
  refine onError_lift_bind (fun _ _ => rfl) fun leading _ => ?_
  refine onError_rejectIf_bind (fun _ => rfl) fun _ => ?_
  refine onError_rejectIf_bind (fun _ => rfl) fun _ => ?_
  refine onError_lift_bind (fun _ _ => rfl) fun total htotal => ?_
  refine onError_rejectIf_bind (fun _ => rfl) fun _ => ?_
  refine onError_lift_bind (fun _ _ => rfl) fun moved _ => ?_
  -- from here on the buffer has changed
  refine onError_set_bind (onError_lift_bind (fun e hs => absurd hs (slice_ne_fail _ _ _ e)) ?_)
  intro region hregion
  refine onError_set_bind (encrypt_onError h ?_ (onError_pure _))
  rw [length_of_slice hregion, Nat.sub_zero]
  exact ofCrypto_eq_ok htotal

theorem encryptMessage_atomic (h : EncryptsInPlace P) (packedLen : Nat)
    (recipientPublicKey : Block 64) (ratchet : Option (Block 32)) (ephemeralPriv : Block 32)
    (iv : Block 16) :
    Atomic (encryptMessage P packedLen recipientPublicKey ratchet ephemeralPriv iv) := by
  intro buffer
  refine onError_get_bind (onError_rejectIf_bind (fun _ => rfl) fun _ => ?_)
  refine onError_lift_bind (fun _ _ => rfl) fun leading _ => ?_
  refine onError_rejectIf_bind (fun _ => rfl) fun _ => ?_
  refine onError_lift_bind (fun _ _ => rfl) fun ciphertextLen hlen => ?_
  refine onError_rejectIf_bind (fun _ => rfl) fun _ => ?_
  refine onError_rejectIf_bind (fun _ => rfl) fun _ => ?_
  refine onError_lift_bind (fun _ _ => rfl) fun moved _ => ?_
  -- from here on the buffer has changed
  refine onError_set_bind (onError_lift_bind (fun e hs => absurd hs (slice_ne_fail _ _ _ e)) ?_)
  intro region hregion
  refine onError_set_bind (encrypt_onError h ?_ ?_)
  · rw [length_of_slice hregion, Nat.add_sub_cancel_left]
    exact ofCrypto_eq_ok hlen
  · refine onError_lift_bind (fun e hs => absurd hs (slice_ne_fail _ _ _ e)) ?_
    exact fun entry _ => onError_pure _

theorem buildLinkInner_keeps (source : LocalIdentity) (recipientPublicKey : Block 64) (timestamp : F64)
    (title content : Bytes) (fields : PayloadFields Bytes) :
    KeepsAll (buildLinkInner P source recipientPublicKey timestamp title content fields) := by
  intro buffers
  have hkept (scratch : Bytes) : ({ buffers with scratch := scratch } : LinkBuffers).out = buffers.out ∧
      ({ buffers with scratch := scratch } : LinkBuffers).outDestHash = buffers.outDestHash ∧
      ({ buffers with scratch := scratch } : LinkBuffers).outMessageId = buffers.outMessageId :=
    ⟨rfl, rfl, rfl⟩
  refine onError_get_bind (onError_rejectIf_bind (fun _ => hkept _) fun _ => ?_)
  refine onError_lift_bind (fun _ _ => hkept _) fun room _ => ?_
  -- only the scratch has changed until the last step
  refine onError_set_bind (onError_lift_bind (fun _ _ => hkept _) fun plen _ => ?_)
  refine onError_rejectIf_bind (fun _ => hkept _) fun _ => ?_
  refine onError_lift_bind (fun _ _ => hkept _) fun addressed _ => ?_
  refine onError_lift_bind (fun _ _ => hkept _) fun sourced _ => ?_
  refine onError_lift_bind (fun _ _ => hkept _) fun hashed _ => ?_
  refine onError_lift_bind (fun _ _ => hkept _) fun identified _ => ?_
  refine onError_lift_bind (fun _ _ => hkept _) fun signedPart _ => ?_
  refine onError_lift_bind (fun _ _ => hkept _) fun out _ => ?_
  refine onError_lift_bind (fun _ _ => hkept _) fun out _ => ?_
  refine onError_lift_bind (fun _ _ => hkept _) fun out _ => ?_
  refine onError_lift_bind (fun _ _ => hkept _) fun payload _ => ?_
  refine onError_lift_bind (fun _ _ => hkept _) fun out _ => ?_
  exact onError_set_bind (onError_pure _)

theorem buildLinkWithFields_keeps (source : LocalIdentity) (recipientPublicKey : Block 64)
    (timestamp : F64) (title content : Bytes) (fields : List EncodedField) :
    KeepsAll (buildLinkWithFields P source recipientPublicKey timestamp title content fields) := by
  intro buffers
  refine onError_lift_bind (fun _ _ => ⟨rfl, rfl, rfl⟩) fun present _ => ?_
  exact buildLinkInner_keeps _ _ _ _ _ _ buffers

/-- The operations that work in place write only once nothing can fail, and the
Link builders write to their caller's outputs only then. -/
theorem atomic_on_error (h : EncryptsInPlace P) :
    (∀ packedLen stamp, Atomic (appendRecipientStamp P packedLen stamp)) ∧
    (∀ packedLen recipientPublicKey ratchet ephemeralPriv iv,
      Atomic (sealOpportunistic P packedLen recipientPublicKey ratchet ephemeralPriv iv) ∧
      Atomic (encryptMessage P packedLen recipientPublicKey ratchet ephemeralPriv iv)) ∧
    (∀ encryptedLen stamp timestamp, Atomic (wrapUpload P encryptedLen stamp timestamp)) ∧
    (∀ timestamp request, Atomic (buildGetRequest P timestamp request)) ∧
    ∀ source recipientPublicKey timestamp title content,
      KeepsAll (buildLink P source recipientPublicKey timestamp title content) ∧
      (∀ audio, KeepsAll (buildLinkWithAudio P source recipientPublicKey timestamp title content audio)) ∧
      ∀ fields, KeepsAll (buildLinkWithFields P source recipientPublicKey timestamp title content fields) :=
  ⟨appendRecipientStamp_atomic,
    fun _ _ _ _ _ => ⟨sealOpportunistic_atomic h _ _ _ _ _, encryptMessage_atomic h _ _ _ _ _⟩,
    wrapUpload_atomic, buildGetRequest_atomic,
    fun _ _ _ _ _ => ⟨buildLinkInner_keeps _ _ _ _ _ _, fun _ => buildLinkInner_keeps _ _ _ _ _ _,
      buildLinkWithFields_keeps _ _ _ _ _⟩⟩

theorem atomic_hello : Atomic (sealOpportunistic Vectors.platform 124
    (Vectors.platform.publicKey .recipient) none Vectors.ephemeralPriv Vectors.iv) :=
  ((atomic_on_error Vectors.platform_inPlace.encrypts).2.1 124 _ none _ _).1

end LxmfLite.Atomicity
