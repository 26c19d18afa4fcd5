import LxmfLite.Requests
import LxmfLite.Atomicity
import LxmfLite.Encryption
import LxmfLite.Packing

namespace LxmfLite.Confinement

open ByteString Execution Contracts Message Primitives Laws Payload Build Packing Propagation Stamping
  Encryption Uploads Requests Atomicity

structure Within (mark : Nat) (before after : Bytes) : Prop where
  inside : mark ≤ before.length
  length : after.length = before.length
  behind : after.drop mark = before.drop mark

namespace Within

variable {mark mark' offset : Nat} {before middle after src : Bytes}

theorem refl (h : mark ≤ before.length) : Within mark before before := ⟨h, rfl, rfl⟩

theorem later (h : Within mark before after) (hle : mark ≤ mark') (hin : mark' ≤ before.length) :
    Within mark' before after := by
  refine ⟨hin, h.length, ?_⟩
  have hdrop := congrArg (List.drop (mark' - mark)) h.behind
  rwa [List.drop_drop, List.drop_drop, Nat.add_sub_cancel' hle] at hdrop

theorem trans (h : Within mark before middle) (h' : Within mark' middle after) :
    Within (max mark mark') before after := by
  have hin : max mark mark' ≤ before.length := Nat.max_le.mpr ⟨h.inside, h.length ▸ h'.inside⟩
  have hone := h.later (Nat.le_max_left _ _) hin
  have htwo := h'.later (Nat.le_max_right mark mark') (by rw [h.length]; exact hin)
  exact ⟨hin, htwo.length.trans hone.length, htwo.behind.trans hone.behind⟩

theorem overwritten (h : offset + src.length ≤ mark) (hin : mark ≤ before.length) :
    Within mark before (overwrite before offset src) := by
  have hwrite : Within (offset + src.length) before (overwrite before offset src) :=
    ⟨by omega, overwrite_length (by omega), overwrite_drop_end src (by omega)⟩
  exact hwrite.later h hin

end Within

variable {LocalIdentity VerifyingKey : Type} {P : Platform LocalIdentity VerifyingKey} {buffer : Bytes}

section Operations

variable {packedLen start m : Nat}

theorem within_stamped {stamp : Bytes} (h : Stampable P buffer packedLen stamp) :
    Within (packedLen + (2 + stamp.length)) buffer (stamped buffer packedLen stamp) := by
  have hprefixed := h.prefixed
  have hroom := h.room
  have hstamp : Within (packedLen + (2 + stamp.length)) buffer
      (overwrite buffer packedLen (stampBytes stamp)) := .overwritten (by rw [stampBytes_length]) hroom
  have hmark : Within (packedLen + (2 + stamp.length)) (overwrite buffer packedLen (stampBytes stamp))
      (stamped buffer packedLen stamp) :=
    .overwritten (by rw [lxmfPackedPrefix_eq, List.length_singleton]; omega) (by rw [hstamp.length]; exact hroom)
  have h := hstamp.trans hmark
  rwa [Nat.max_self] at h

theorem within_ciphered (recipientPublicKey : Block 64) (ratchet : Option (Block 32))
    (ephemeralPriv : Block 32) (iv : Block 16) (h : packedLen ≤ buffer.length)
    (hfit : P.eciesPlaintextOffset + (packedLen - 16) ≤ m) (hroom : start + m ≤ buffer.length) :
    Within (start + m) buffer
      (ciphered P buffer packedLen start m recipientPublicKey ratchet ephemeralPriv iv) := by
  have hshifted : Within (start + m) buffer (shifted P buffer packedLen start) :=
    .overwritten (by rw [plaintext_length h]; omega) hroom
  have hcipher : Within (start + m) (shifted P buffer packedLen start)
      (ciphered P buffer packedLen start m recipientPublicKey ratchet ephemeralPriv iv) := by
    refine .overwritten ?_ (by rw [hshifted.length]; exact hroom)
    rw [(encrypted P buffer packedLen start m recipientPublicKey ratchet ephemeralPriv iv).2.2,
      region_length h hfit hroom]
  have h := hshifted.trans hcipher
  rwa [Nat.max_self] at h

end Operations

/-- The calls that write to a buffer of the caller's, with any lengths and at
any time. A Link builder has its other memory with it. -/
inductive Call (LocalIdentity : Type)
  | buildLink (source : LocalIdentity) (recipientPublicKey : Block 64) (timestamp : F64)
      (title content : Bytes) (fields : OuterFields) (scratch : Bytes) (destHash : Block 16)
      (messageId : Block 32)
  | appendRecipientStamp (packedLen : Nat) (stamp : Bytes)
  | sealOpportunistic (packedLen : Nat) (recipientPublicKey : Block 64) (ratchet : Option (Block 32))
      (ephemeralPriv : Block 32) (iv : Block 16)
  | encryptMessage (packedLen : Nat) (recipientPublicKey : Block 64) (ratchet : Option (Block 32))
      (ephemeralPriv : Block 32) (iv : Block 16)
  | wrapUpload (encryptedLen : Nat) (stamp : Block 32) (timestamp : F64)
  | buildGetRequest (timestamp : F64) (request : GetRequest)

def write (P : Platform LocalIdentity VerifyingKey) (buffer : Bytes) :
    Call LocalIdentity → Result Nat × Bytes
  | .buildLink source recipientPublicKey timestamp title content fields scratch destHash messageId =>
      let (total, buffers) := (buildLinkOf P source recipientPublicKey timestamp title content fields).run
        ⟨buffer, scratch, destHash, messageId⟩
      (total, buffers.out)
  | .appendRecipientStamp packedLen stamp => (appendRecipientStamp P packedLen stamp).run buffer
  | .sealOpportunistic packedLen recipientPublicKey ratchet ephemeralPriv iv =>
      (sealOpportunistic P packedLen recipientPublicKey ratchet ephemeralPriv iv).run buffer
  | .encryptMessage packedLen recipientPublicKey ratchet ephemeralPriv iv =>
      let (entry, buffer) := (encryptMessage P packedLen recipientPublicKey ratchet ephemeralPriv iv).run buffer
      (entry.map Prod.fst, buffer)
  | .wrapUpload encryptedLen stamp timestamp => (wrapUpload P encryptedLen stamp timestamp).run buffer
  | .buildGetRequest timestamp request => (buildGetRequest P timestamp request).run buffer

structure Memory where
  buffer : Bytes
  mark : Nat
  deriving DecidableEq

def step (P : Platform LocalIdentity VerifyingKey) (s : Memory) (call : Call LocalIdentity) : Memory :=
  match write P s.buffer call with
  | (.ok total, buffer) => ⟨buffer, max s.mark total⟩
  | (.error _, buffer) => ⟨buffer, s.mark⟩

def run (P : Platform LocalIdentity VerifyingKey) (calls : List (Call LocalIdentity)) (s : Memory) :
    Memory :=
  calls.foldl (step P) s

section Calls

theorem buildLinkOf_keeps (source : LocalIdentity) (recipientPublicKey : Block 64) (timestamp : F64)
    (title content : Bytes) (fields : OuterFields) :
    KeepsAll (buildLinkOf P source recipientPublicKey timestamp title content fields) := by
  cases fields with
  | empty => exact buildLinkInner_keeps _ _ _ _ _ _
  | audio field => exact buildLinkInner_keeps _ _ _ _ _ _
  | encoded entries => exact buildLinkWithFields_keeps _ _ _ _ _ _

/-- A call writes in front of the length it returns, or it writes nothing. -/
theorem write_within (laws : InPlaceLaws P) (buffer : Bytes) (call : Call LocalIdentity) :
    (∃ total after, write P buffer call = (.ok total, after) ∧ Within total buffer after) ∨
    ∃ e, write P buffer call = (fail e, buffer) := by
  cases call with
  | buildLink source recipientPublicKey timestamp title content fields scratch destHash messageId =>
      have hkeeps := buildLinkOf_keeps (P := P) source recipientPublicKey timestamp title content fields
        ⟨buffer, scratch, destHash, messageId⟩
      rcases buildLinkOf_run P source recipientPublicKey (payloadBytes timestamp title content fields) rfl
        ⟨buffer, scratch, destHash, messageId⟩ with ⟨hr, -, -, hout⟩ | ⟨⟨e, left, hr⟩, -⟩
      · refine .inl ⟨_, _, by simp only [write, hr]; rfl, .overwritten ?_ hout⟩
        rw [packedFor_length, Nat.zero_add]
      · refine .inr ⟨e, ?_⟩
        simp only [write, hr]
        rw [(hkeeps e left hr).1]
  | appendRecipientStamp packedLen stamp =>
      rcases appendRecipientStamp_run P buffer packedLen stamp with ⟨hr, hs⟩ | ⟨⟨e, hr⟩, -⟩
      · exact .inl ⟨_, _, hr, within_stamped hs⟩
      · exact .inr ⟨e, hr⟩
  | sealOpportunistic packedLen recipientPublicKey ratchet ephemeralPriv iv =>
      rcases sealOpportunistic_run buffer packedLen recipientPublicKey ratchet ephemeralPriv iv laws
        with ⟨total, hs, hr⟩ | ⟨⟨e, hr⟩, -⟩
      · have hfit := laws.plaintext_fits _ _ hs.cipher
        have hwithin := within_ciphered recipientPublicKey ratchet ephemeralPriv iv hs.inside hfit
          (show 0 + total ≤ buffer.length by rw [Nat.zero_add]; exact hs.room)
        rw [Nat.zero_add] at hwithin
        exact .inl ⟨_, _, hr, hwithin⟩
      · exact .inr ⟨e, hr⟩
  | encryptMessage packedLen recipientPublicKey ratchet ephemeralPriv iv =>
      rcases encryptMessage_run buffer packedLen recipientPublicKey ratchet ephemeralPriv iv laws
        with ⟨m, he, hr⟩ | ⟨⟨e, hr⟩, -⟩
      · have hfit := laws.plaintext_fits _ _ he.cipher
        exact .inl ⟨_, _, by simp only [write, hr]; rfl,
          within_ciphered recipientPublicKey ratchet ephemeralPriv iv he.inside hfit he.room⟩
      · exact .inr ⟨e, by simp only [write, hr]; rfl⟩
  | wrapUpload encryptedLen stamp timestamp =>
      by_cases hw : Wrappable P buffer encryptedLen timestamp
      · refine .inl ⟨_, _, wrapUpload_run hw, .overwritten ?_ hw.room⟩
        have hentry : (buffer.take encryptedLen ++ stamp.val).length = encryptedLen + 32 := by
          rw [List.length_append, List.length_take_of_le hw.inside, stamp.property]
        rw [uploadBytes_length timestamp hentry hw.countable, Nat.zero_add]
      · exact .inr (wrapUpload_fails stamp hw)
  | buildGetRequest timestamp request =>
      by_cases hreq : Requestable timestamp request buffer
      · refine .inl ⟨_, _, buildGetRequest_run hreq, .overwritten ?_ hreq.room⟩
        rw [requestBytes_length, Nat.zero_add]
      · exact .inr (buildGetRequest_fails P hreq)

theorem step_within (laws : InPlaceLaws P) {before : Bytes} {s : Memory} (h : Within s.mark before s.buffer)
    (call : Call LocalIdentity) : Within (step P s call).mark before (step P s call).buffer := by
  rw [step]
  rcases write_within laws s.buffer call with ⟨total, after, hr, hw⟩ | ⟨e, hr⟩
  · rw [hr]
    exact h.trans hw
  · rw [hr]
    exact h

end Calls

/-- Whatever calls are made on a buffer, with whatever lengths and in whatever
order, failed ones among them, it keeps its length and every byte behind the
largest length that a call returned. -/
theorem run_within (laws : InPlaceLaws P) (calls : List (Call LocalIdentity)) (buffer : Bytes) :
    Within (run P calls ⟨buffer, 0⟩).mark buffer (run P calls ⟨buffer, 0⟩).buffer := by
  have hrun (s : Memory) (h : Within s.mark buffer s.buffer) :
      Within (run P calls s).mark buffer (run P calls s).buffer := by
    induction calls generalizing s with
    | nil => exact h
    | cons call calls ih => exact ih (step P s call) (step_within laws h call)
  exact hrun ⟨buffer, 0⟩ (.refl (Nat.zero_le _))

def helloCalls : List (Call Vectors.Party) :=
  [.buildLink .source (Vectors.platform.publicKey .recipient) Vectors.timestamp Vectors.title Vectors.content
      .empty (List.replicate 256 0) (Vectors.block 16 0) (Vectors.block 32 0),
    .appendRecipientStamp 124 Vectors.ticketStamp, .appendRecipientStamp 142 Vectors.ticketStamp,
    .encryptMessage 142 (Vectors.platform.publicKey .recipient) none Vectors.ephemeralPriv Vectors.iv]

theorem run_within_hello : (run Vectors.platform helloCalls ⟨List.replicate 320 0, 0⟩).mark = 224 ∧
    Within (run Vectors.platform helloCalls ⟨List.replicate 320 0, 0⟩).mark (List.replicate 320 0)
      (run Vectors.platform helloCalls ⟨List.replicate 320 0, 0⟩).buffer :=
  ⟨by decide +kernel, run_within Vectors.platform_inPlace helloCalls (List.replicate 320 0)⟩

end LxmfLite.Confinement
