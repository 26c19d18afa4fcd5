import LxmfLite.Delivery
import LxmfLite.ProofOfWork
import LxmfLite.ExactNumbers

namespace LxmfLite.Endorsement

open ByteString Execution Machine SelfDelimiting MessagePack Grammar Message Primitives Laws Reader
  FieldReading FieldLookup Parse Payload Framing Build Packing RoundTrip Propagation Stamping Encryption
  Envelope FloatingPoint Stamp Search Replies Arrays ReplyDecoding ExactNumbers Uploads Carriage Delivery
  ProofOfWork

section Peers

variable {H : Hashing} {material : Block 32} {kind : StampKind} {cost : UInt8} {stamp : Block 32}

def Searched (H : Hashing) (material : Block 32) (kind : StampKind) (cost : UInt8) (stamp : Block 32) :
    Prop :=
  ∃ seed limit calls value,
    (run (Schedule.call H) calls (Schedule.Job.start ⟨material, kind, cost, seed, limit⟩)).map
      (·.progress) = .ok (.complete stamp value)

/-- However a peer does its rounds over the material, they end in a workblock
that finds the stamp worth the cost. -/
def Accepted (H : Hashing) (material : Block 32) (kind : StampKind) (cost : UInt8) (stamp : Block 32) :
    Prop :=
  ∀ peer : List Streaming.Call,
    ∃ workblock, run (Streaming.call H) peer (.new material kind) = .ok workblock ∧
      (workblock.ready = true ↔ kind.rounds ≤ Streaming.allowed peer) ∧
      (workblock.ready = true → ∃ worth, workblock.value H stamp = some worth ∧ cost.toNat ≤ worth)

theorem Searched.accepted (h : Searched H material kind cost stamp) : Accepted H material kind cost stamp := by
  obtain ⟨seed, limit, calls, value, hrun⟩ := h
  intro peer
  obtain ⟨search, hr, hs, -⟩ :=
    Schedule.run_stage (H := H) calls (Schedule.stage_start ⟨material, kind, cost, seed, limit⟩)
  rw [hr] at hrun
  have hworth := (stage_value hs (Except.ok.inj hrun)).1
  obtain ⟨workblock, hw, hready, hpeer⟩ := peer_value (H := H) material kind peer
  exact ⟨workblock, hw, hready, fun h => ⟨_, (hpeer stamp).trans (if_pos h), hworth⟩⟩

end Peers

variable {LocalIdentity VerifyingKey : Type} {P : Platform LocalIdentity VerifyingKey}
  {source me : LocalIdentity} {timestamp : F64} {title content : Bytes} {fields : OuterFields}
  {buffer stamp : Bytes} {packedLen : Nat}

def Stamped (packed stamp : Bytes) : Prop :=
  ∃ items clock title content fields last, arrayItems (packed.drop lxmfPackedPrefix) = .ok items ∧
    Yields items [clock, title, content, fields, last] ∧ valueAsBytes last = .ok stamp

theorem stamped_reads (hs : Stampable P buffer packedLen stamp) :
    Stamped ((stamped buffer packedLen stamp).take (packedLen + (2 + stamp.length))) stamp := by
  obtain ⟨head, items, hhead, hold, hnew⟩ := stamped_parts hs
  have hvalue := hs.value
  rw [hold, List.drop_left' hhead] at hvalue
  obtain ⟨a, b, c, f, rfl, ha, hb, hc, hf⟩ := four_values hvalue
  have hblob := blob_stampBytes hs.stampLength
  have hheader : ArrayHeader [0x95] [a, b, c, f, stampBytes stamp].length := .fix (n := 5) (by decide) rfl
  have hvalues : ∀ item ∈ [a, b, c, f, stampBytes stamp], Value 8 1 item := by
    intro item hm
    simp only [List.mem_cons, List.not_mem_nil, or_false] at hm
    rcases hm with rfl | rfl | rfl | rfl | rfl
    · exact ha
    · exact hb
    · exact hc
    · exact hf
    · exact hblob.value (by decide)
  have hpayload : 0x95 :: ((a ++ (b ++ (c ++ (f ++ [])))) ++ stampBytes stamp) =
      [0x95] ++ [a, b, c, f, stampBytes stamp].flatten := by
    simp only [List.flatten_cons, List.flatten_nil, List.append_assoc, List.append_nil,
      List.singleton_append]
  obtain ⟨yielded, hi, hy⟩ := array_yields hheader hvalues hpayload
  rw [Stamped, lxmfPackedPrefix_eq, hnew, List.drop_left' hhead]
  exact ⟨yielded, a, b, c, f, _, hi, hy,
    (valueAsBytes_eq_ok (complete_iff.mpr (hblob.value (by decide)))).mpr hblob⟩

/-- What the recipient finds in a stamped message: what was built, under the id
it was built under, and the stamp. -/
structure Arrives (P : Platform LocalIdentity VerifyingKey) (source me : LocalIdentity) (timestamp : F64)
    (title content : Bytes) (fields : OuterFields) (messageId : Block 32) (stamp packed : Bytes)
    (view : LxmfView) : Prop where
  readBack : ReadBack source timestamp title content fields P messageId view
  parsed : ∀ scratch : LinkScratch, packed.length - 32 ≤ scratch.scratch.length →
    (parseLink P me packed (P.publicKey source)).eval scratch = .ok view
  stamped : Stamped packed stamp

theorem arrives_stamped (laws : IdentityLaws P) {buffers buffers' : LinkBuffers} {n e : Nat}
    (hbuild : (buildLinkOf P source (P.publicKey me) timestamp title content fields).run buffers =
      (.ok n, buffers'))
    (happend : (appendRecipientStamp P n stamp).run buffers'.out = (.ok e, buffer)) :
    ∃ payload, Buildable P timestamp title content fields payload ∧
      Carries P source (P.publicKey me) payload (buffer.take e) ∧
      Arrives P source me timestamp title content fields buffers'.outMessageId stamp (buffer.take e)
        (viewFor P source (P.publicKey me) timestamp title content fields payload) := by
  obtain ⟨payload, hb, -, hout, rfl, rfl⟩ := buildLinkOf_eq_ok.mp hbuild
  obtain ⟨hs, rfl, rfl⟩ := appendRecipientStamp_eq_ok.mp happend
  have hcarries := (Carries.of_written (hb.written source (P.publicKey me) hout)).stamped hs
  refine ⟨payload, hb, hcarries, readBack_viewFor hb (P.publicKey me), fun scratch hroom => ?_,
    stamped_reads hs⟩
  refine hcarries.parseLink laws hb scratch (Nat.le_trans (Nat.le_sub_of_add_le ?_) hroom)
  exact Nat.le_trans (by omega) hcarries.length_le

section Tickets

variable {issuer replier : LocalIdentity} {H : Hashing} {value : Bytes} {ticket : Block ticketLength} {v : ℚ}

/-- A ticket goes out in the fields of a message and comes back in the stamp of the
reply. The replier reads it until it expires and not after, and the issuer finds
in the reply the stamp that it computes from the ticket and the id of the reply. -/
theorem ticket_returns (laws : IdentityLaws P) {issue issue' reply reply' : LinkBuffers} {n m e : Nat}
    {issuedAt repliedAt : F64} {title content title' content' : Bytes} {fields fields' : OuterFields}
    (hissue : (buildLinkOf P issuer (P.publicKey replier) issuedAt title content fields).run issue =
      (.ok n, issue'))
    (hfield : (fieldTicket, value) ∈ supplied fields) (hissued : Issued value ticket v)
    (hreply : (buildLinkOf P replier (P.publicKey issuer) repliedAt title' content' fields').run reply =
      (.ok m, reply'))
    (happend : (appendRecipientStamp P m (ticketStamp H ticket reply'.outMessageId).val).run reply'.out =
      (.ok e, buffer)) :
    (∃ view, (∀ scratch : LinkScratch, n - 32 ≤ scratch.scratch.length →
        (parseLink P replier (issue'.out.take n) (P.publicKey issuer)).eval scratch = .ok view) ∧
      view.sourceHash = P.lxmfDeliveryHash issuer ∧ ∀ now τ, now.datum = .finite τ →
        (τ < v → |v| ≤ 2 ^ 53 → ∃ expires, ticketField view.fields now = .ok ⟨expires, ticket⟩) ∧
        (v ≤ τ → ticketField view.fields now = fail ())) ∧
    ∃ view, Arrives P replier issuer repliedAt title' content' fields' reply'.outMessageId
      (ticketStamp H ticket view.messageId).val (buffer.take e) view := by
  constructor
  · obtain ⟨payload, hb, -, hout, rfl, rfl⟩ := buildLinkOf_eq_ok.mp hissue
    have hcarries := Carries.of_written (hb.written issuer (P.publicKey replier) hout)
    have hread : ReadBack issuer _ _ _ _ P _ _ := readBack_viewFor hb (P.publicKey replier)
    have hvalue := (hread.present fieldTicket value).mpr hfield
    obtain ⟨expires, hticket⟩ := ticketField_issued hvalue hissued
    refine ⟨_, fun scratch hroom => hcarries.parseLink laws hb scratch (by omega), hread.sourceHash,
      fun now τ hnow => ⟨fun hlt hsmall => ⟨expires, ?_⟩, fun hle => ?_⟩⟩
    · rw [hticket now τ hnow, if_pos]
      rwa [hissued.rounded hsmall]
    · have hmono : binary64.rounded v ≤ binary64.rounded τ := FloatingPoint.Format.rounded_mono hle
      rw [FloatingPoint.Format.rounded_of_decode (by decide) hnow] at hmono
      rw [hticket now τ hnow, if_neg (not_lt.mpr hmono)]
  · obtain ⟨payload, hb, hcarries, harrives⟩ := arrives_stamped laws hreply happend
    have hid := harrives.readBack.messageId
    generalize viewFor P replier (P.publicKey issuer) repliedAt title' content' fields' payload = view
      at harrives hid
    refine ⟨view, ?_⟩
    rw [hid]
    exact harrives

def helloTicket : Block ticketLength := ⟨List.replicate 16 0x5a, rfl⟩

def helloIssue : Bytes := [0x92] ++ ([2] ++ stampBytes helloTicket.val)

def ticketHashing : Hashing :=
  ⟨Vectors.table [(helloTicket.val ++ Vectors.hello.messageId.val, (Vectors.fitted 32 Vectors.ticketStamp))]
    (Vectors.block 32 0), fun _ _ => Vectors.block 256 0⟩

def ticketIssued : LinkBuffers :=
  ((buildLinkOf Vectors.platform .recipient (Vectors.platform.publicKey .source) Vectors.timestamp
    Vectors.title Vectors.content (.encoded [(fieldTicket, helloIssue)])).run Vectors.unwritten).2

theorem pair_eq {α β : Type} {r : α × β} {a : α} (h : r.1 = a) : r = (a, r.2) := Prod.ext h rfl

theorem ticket_returns_hello :
    (∃ view, (∀ scratch : LinkScratch, 145 - 32 ≤ scratch.scratch.length →
        (parseLink Vectors.platform .source (ticketIssued.out.take 145)
          (Vectors.platform.publicKey .recipient)).eval scratch = .ok view) ∧
      view.sourceHash = Vectors.platform.lxmfDeliveryHash .recipient ∧ ∀ now τ, now.datum = .finite τ →
        (τ < 2 → |(2 : ℚ)| ≤ 2 ^ 53 → ∃ expires, ticketField view.fields now = .ok ⟨expires, helloTicket⟩) ∧
        (2 ≤ τ → ticketField view.fields now = fail ())) ∧
    ∃ view, Arrives Vectors.platform .source .recipient Vectors.timestamp Vectors.title Vectors.content .empty
      Vectors.hello.messageId (ticketStamp ticketHashing helloTicket view.messageId).val
      ((stamped Vectors.hello.written.out 124 Vectors.ticketStamp).take 142) view := by
  have hissue : (buildLinkOf Vectors.platform .recipient (Vectors.platform.publicKey .source) Vectors.timestamp
      Vectors.title Vectors.content (.encoded [(fieldTicket, helloIssue)])).run Vectors.unwritten =
      (.ok 145, ticketIssued) := pair_eq (by decide +kernel)
  have hissued : Issued helloIssue helloTicket 2 :=
    .mk (.fix (n := 2) (by decide) rfl) (.integer (n := 2) (.fix (m := 2) (by decide)))
      (blob_stampBytes (.inl helloTicket.property))
  have happend : (appendRecipientStamp Vectors.platform 124
      (ticketStamp ticketHashing helloTicket Vectors.hello.messageId).val).run Vectors.hello.written.out =
      (.ok 142, stamped Vectors.hello.written.out 124 Vectors.ticketStamp) := by
    decide +kernel
  exact ticket_returns Vectors.platform_identity hissue (List.mem_singleton.mpr rfl) hissued
    Vectors.buildLink_hello happend

end Tickets

section Uploaded

variable {cipher : Bytes → Block 32 → Block 16 → Block 32 → Block 16 → Bytes}
  {opens : Block 32 → Block 32 → Bool} {H : Hashing}

/-- A stamped message goes through a propagation node under a stamp of its own.
The node finds its stamp worth its cost for the entry, and under a key that opens
the entry the recipient finds the message, with a stamp worth the other cost for
the id that the recipient computes. -/
theorem stamped_upload (laws : IdentityLaws P) (decipher : DecipherLaws P cipher opens)
    {buffers buffers' : LinkBuffers} {n n₁ n₂ n₃ : Nat} {buffer₁ buffer₂ buffer₃ : Bytes}
    {cost nodeCost : UInt8} {stamp nodeStamp transientId : Block 32} {ratchet : Option (Block 32)}
    {ephemeralPriv : Block 32} {iv : Block 16} {uploadedAt : F64}
    (hbuild : (buildLinkOf P source (P.publicKey me) timestamp title content fields).run buffers =
      (.ok n, buffers'))
    (hstamp : Searched H buffers'.outMessageId .message cost stamp)
    (happend : (appendRecipientStamp P n stamp.val).run buffers'.out = (.ok n₁, buffer₁))
    (hencrypt : (encryptMessage P n₁ (P.publicKey me) ratchet ephemeralPriv iv).run buffer₁ =
      (.ok (n₂, transientId), buffer₂))
    (hnode : Searched H transientId .propagation nodeCost nodeStamp)
    (hwrap : (wrapUpload P n₂ nodeStamp uploadedAt).run buffer₂ = (.ok n₃, buffer₃)) :
    ∃ items clock inner entry, arrayItems (buffer₃.take n₃) = .ok items ∧ Yields items [clock, inner] ∧
      fetchedMessage inner = .ok (some (entry ++ nodeStamp.val)) ∧
      Accepted H (P.sha256 entry) .propagation nodeCost nodeStamp ∧
      ∀ ring : List (Block 32), (∃ key ∈ ring ++ [first32 (P.privateKey me)],
          opens key (targetKey ratchet (P.publicKey me)) = true) →
        ∃ length restored view, (decryptMessage P me ring).run entry =
            (.ok (length, transientId, ring.findIdx? (opens · (targetKey ratchet (P.publicKey me)))),
              restored) ∧
          Arrives P source me timestamp title content fields buffers'.outMessageId stamp.val
            (restored.take length) view ∧
          Accepted H view.messageId .message cost stamp := by
  obtain ⟨payload, hb, hcarries, harrives⟩ := arrives_stamped laws hbuild happend
  have hstamp' := hstamp.accepted
  rw [← harrives.readBack.messageId] at hstamp'
  rcases encryptMessage_run buffer₁ n₁ (P.publicKey me) ratchet ephemeralPriv iv decipher.toInPlaceLaws
    with ⟨m, he, hr⟩ | ⟨⟨error, hr⟩, -⟩
  · cases hr.symm.trans hencrypt
    by_cases hw : Wrappable P (ciphered P buffer₁ n₁ 16 m (P.publicKey me) ratchet ephemeralPriv iv)
      (16 + m) uploadedAt
    · cases (wrapUpload_run hw).symm.trans hwrap
      obtain ⟨items, clock, inner, hitems, hyields, hfetched⟩ := wrapped_reads nodeStamp hw
      obtain ⟨hentry, hhead⟩ := entry_enclosed decipher he ratchet ephemeralPriv iv
      refine ⟨items, clock, inner, _, hitems, hyields, hfetched, hnode.accepted, fun ring hk => ?_⟩
      obtain ⟨length, restored, hrun, htake⟩ :=
        (entry_restores laws decipher hcarries hentry hhead ring).1 hk
      refine ⟨length, restored, _, hrun, ?_, hstamp'⟩
      rw [htake]
      exact harrives
    · obtain ⟨error, hfails⟩ := wrapUpload_fails nodeStamp hw
      cases hfails.symm.trans hwrap
  · cases hr.symm.trans hencrypt

def zeroHashing : Hashing := ⟨fun _ => Vectors.block 32 0, fun _ _ => Vectors.block 256 0⟩

def roomy : LinkBuffers := ⟨List.replicate 512 0, List.replicate 512 0, Vectors.block 16 0, Vectors.block 32 0⟩

def helloStamp : Block 32 := Vectors.block 32 7

def helloBuilt : LinkBuffers :=
  ((buildLinkOf Vectors.platform .source (Vectors.platform.publicKey .recipient) Vectors.timestamp
    Vectors.title Vectors.content .empty).run roomy).2

def helloStamped : Bytes := ((appendRecipientStamp Vectors.platform 124 helloStamp.val).run helloBuilt.out).2

def helloEncrypted : Bytes :=
  ((encryptMessage Vectors.platform 158 (Vectors.platform.publicKey .recipient) none Vectors.ephemeralPriv
    Vectors.iv).run helloStamped).2

def helloUploaded : Bytes := ((wrapUpload Vectors.platform 240 helloStamp Vectors.timestamp).run helloEncrypted).2

theorem stamped_upload_hello : ∃ items clock inner entry,
    arrayItems (helloUploaded.take 286) = .ok items ∧ Yields items [clock, inner] ∧
      fetchedMessage inner = .ok (some (entry ++ helloStamp.val)) ∧
      Accepted zeroHashing (Vectors.platform.sha256 entry) .propagation 16 helloStamp ∧
      ∀ ring : List (Block 32), (∃ key ∈ ring ++ [first32 (Vectors.platform.privateKey .recipient)],
          Vectors.opens key (targetKey none (Vectors.platform.publicKey .recipient)) = true) →
        ∃ length restored view, (decryptMessage Vectors.platform .recipient ring).run entry =
            (.ok (length, Vectors.platform.sha256 (helloEncrypted.take 240), ring.findIdx?
              (Vectors.opens · (targetKey none (Vectors.platform.publicKey .recipient)))), restored) ∧
          Arrives Vectors.platform .source .recipient Vectors.timestamp Vectors.title Vectors.content .empty
            helloBuilt.outMessageId helloStamp.val (restored.take length) view ∧
          Accepted zeroHashing view.messageId .message 16 helloStamp := by
  have hbuild : (buildLinkOf Vectors.platform .source (Vectors.platform.publicKey .recipient) Vectors.timestamp
      Vectors.title Vectors.content .empty).run roomy = (.ok 124, helloBuilt) := pair_eq (by decide +kernel)
  have happend : (appendRecipientStamp Vectors.platform 124 helloStamp.val).run helloBuilt.out =
      (.ok 158, helloStamped) := pair_eq (by decide +kernel)
  have hencrypt : (encryptMessage Vectors.platform 158 (Vectors.platform.publicKey .recipient) none
      Vectors.ephemeralPriv Vectors.iv).run helloStamped =
      (.ok (240, Vectors.platform.sha256 (helloEncrypted.take 240)), helloEncrypted) :=
    pair_eq (by decide +kernel)
  have hwrap : (wrapUpload Vectors.platform 240 helloStamp Vectors.timestamp).run helloEncrypted =
      (.ok 286, helloUploaded) := pair_eq (by decide +kernel)
  exact stamped_upload Vectors.platform_identity Vectors.platform_decipher hbuild
    ⟨helloStamp, 3, [.step 3000 1, .step 1 1], 256, by decide +kernel⟩ happend hencrypt
    ⟨helloStamp, 3, [.step 3000 1, .step 1 1], 256, by decide +kernel⟩ hwrap

end Uploaded

end LxmfLite.Endorsement
