import LxmfLite.Authentication
import LxmfLite.Bounds
import LxmfLite.Vectors

namespace LxmfLite.Opportunistic

open ByteString Execution MessagePack Message Primitives Reader Skipping FieldReading FieldMaps Parse
  Decoding Authentication Contracts Bounds Laws

section Opened

variable {LocalIdentity VerifyingKey : Type} {P : Platform LocalIdentity VerifyingKey}
  {me : LocalIdentity} {sourcePublicKey : Block 64} {source : Block 16} {signature : Block 64}
  {payload : Bytes}

theorem exists_plaintext {plaintext : Bytes} (h : 81 ≤ plaintext.length) :
    ∃ source signature payload, plaintext = plaintextOf source signature payload ∧ payload ≠ [] := by
  have hlen : 97 ≤ (List.replicate 16 0 ++ plaintext).length := by
    rw [List.length_append, List.length_replicate]
    omega
  obtain ⟨dest, source, signature, payload, hp, hne⟩ := exists_packed hlen
  obtain ⟨-, rfl⟩ := List.append_inj hp (by rw [List.length_replicate, dest.2])
  exact ⟨source, signature, payload, rfl, hne⟩

theorem plaintextOf_take_source : (plaintextOf source signature payload).take 16 = source.val :=
  List.take_left' source.2

theorem fails_walk {fields : Bytes} {E : LxmfError → Prop} (hm : E .malformedPayload)
    (hd : E .duplicateField) (count : Nat) (seen : List Int) (pos : Nat) :
    Fails (walk fields count seen pos) E := by
  induction count generalizing seen pos with
  | zero => exact fails_ok pos
  | succ count ih =>
      apply Fails.bind
      · rcases okOr_readFieldId fields pos with ⟨r, h⟩ | h
        · rw [h]
          exact fails_ok r
        · rw [h]
          exact fails_fail hm
      rintro ⟨key, afterKey⟩
      apply Fails.bind (fails_rejectIf hd)
      intro _
      apply Fails.bind (fails_of_okOr (malformed_skipValue fields afterKey 0) hm)
      intro next
      exact ih _ next

theorem fails_checkFields {fields : Bytes} {E : LxmfError → Prop} (hm : E .malformedPayload)
    (hd : E .duplicateField) (ht : E .tooManyFields) : Fails (checkFields fields) E := by
  rw [checkFields]
  rcases okOr_readMapHeader fields with ⟨⟨pos, count⟩, h⟩ | h
  · rw [h]
    apply Fails.bind (fails_rejectIf ht)
    intro _
    apply Fails.bind (fails_rejectIf hm)
    intro _
    apply Fails.bind (fails_walk hm hd count [] pos)
    intro e
    exact fails_rejectIf hm
  · rw [h]
    exact fails_ok ()

theorem authenticateOpened_mismatch :
    authenticateOpened P me sourcePublicKey source signature payload = fail .sourceHashMismatch ↔
      P.deliveryHash sourcePublicKey ≠ source := by
  rw [authenticateOpened, rejectIf_bind]
  by_cases hs : P.deliveryHash sourcePublicKey ≠ source
  · rw [if_pos hs]
    exact ⟨fun _ => hs, fun _ => rfl⟩
  · rw [if_neg hs]
    refine ⟨fun h => ?_, fun h => absurd h hs⟩
    refine absurd rfl ((?_ : Fails _ (fun e => e ≠ LxmfError.sourceHashMismatch)) _ h)
    refine Fails.bind (fails_of_okOr (malformed_frame payload) (by decide)) (fun d => ?_)
    refine Fails.bind (fails_checkFields (by decide) (by decide) (by decide)) (fun _ => ?_)
    refine Fails.bind (fails_rejectIf (by decide)) (fun _ => ?_)
    refine Fails.bind (fails_orFail (by decide)) (fun key => ?_)
    exact Fails.bind (fails_rejectIf (by decide)) (fun _ => fails_ok _)

/-- A plaintext that passes is framed, its fields hold, and the view shows them. -/
theorem authenticateOpened_inv {view : LxmfView}
    (h : authenticateOpened P me sourcePublicKey source signature payload = .ok view) :
    view.sourceHash = source ∧ ∃ d, frame payload = .ok d ∧ checkFields d.fields = .ok () ∧
      view.fields = d.fields := by
  simp only [authenticateOpened, rejectIf_bind] at h
  split at h
  · exact absurd h (by simp)
  obtain ⟨d, hd, h⟩ := bind_eq_ok.mp h
  obtain ⟨_, hc, h⟩ := bind_eq_ok.mp h
  split at h
  · exact absurd h (by simp)
  obtain ⟨key, -, h⟩ := bind_eq_ok.mp h
  split at h
  · exact absurd h (by simp)
  · cases h
    exact ⟨rfl, d, hd, hc, rfl⟩

theorem ensures_authenticateOpened (P : Platform LocalIdentity VerifyingKey) (me : LocalIdentity)
    (sourcePublicKey : Block 64) (source : Block 16) (signature : Block 64) (payload : Bytes) :
    Ensures (authenticateOpened P me sourcePublicKey source signature payload) (fun _ => True) := by
  apply ensures_rejectIf_bind
  intro _
  apply Ensures.bind (ensures_of_okOr (malformed_frame payload) (Q := fun _ => True)
    (fun _ _ => trivial))
  intro d _
  apply Ensures.bind (ensures_checkFields d.fields)
  intro _ _
  apply ensures_rejectIf_bind
  intro _
  apply Ensures.bind (ensures_orFail _ (Q := fun _ => True) (fun _ _ => trivial))
  intro key _
  apply ensures_rejectIf_bind
  intro _
  trivial

/-- The message in a plaintext, whatever buffer holds the plaintext. -/
def messageIn (P : Platform LocalIdentity VerifyingKey) (me : LocalIdentity)
    (sourcePublicKey : Block 64) (plaintext : Bytes) : Result LxmfView :=
  (parseDecrypted P me sourcePublicKey plaintext plaintext.length).eval .new

theorem length_of_take {scratch plaintext : Bytes} (h : scratch.take plaintext.length = plaintext) :
    plaintext.length ≤ scratch.length := by
  have hl := congrArg List.length h
  rw [List.length_take] at hl
  omega

theorem slice_of_take {scratch plaintext : Bytes} (h : scratch.take plaintext.length = plaintext) :
    (slice scratch 0 plaintext.length : Result Bytes) = .ok plaintext := by
  rw [slice_take (length_of_take h), h]

theorem messageIn_short {plaintext : Bytes} (h : plaintext.length < 81) :
    messageIn P me sourcePublicKey plaintext = fail .malformedPayload :=
  eval_parseDecrypted_short (Nat.le_refl _) h _

theorem messageIn_plaintextOf (hne : payload ≠ []) :
    messageIn P me sourcePublicKey (plaintextOf source signature payload) =
      authenticateOpened P me sourcePublicKey source signature payload :=
  eval_parseDecrypted_opened hne (slice_of_take List.take_length) _

theorem ensures_messageIn (P : Platform LocalIdentity VerifyingKey) (me : LocalIdentity)
    (sourcePublicKey : Block 64) (plaintext : Bytes) :
    Ensures (messageIn P me sourcePublicKey plaintext) (fun _ => True) := by
  by_cases hlen : plaintext.length < 81
  · rw [messageIn_short hlen]
    trivial
  · obtain ⟨source, signature, payload, rfl, hne⟩ := exists_plaintext (Nat.le_of_not_lt hlen)
    rw [messageIn_plaintextOf hne]
    exact ensures_authenticateOpened P me sourcePublicKey source signature payload

/-- parse_decrypted sees the plaintext alone: not what follows it in the
scratch, nor what the field scratch holds. -/
theorem eval_parseDecrypted_take {scratch plaintext : Bytes}
    (h : scratch.take plaintext.length = plaintext) (fieldScratch : FieldScratch) :
    (parseDecrypted P me sourcePublicKey scratch plaintext.length).eval fieldScratch =
      messageIn P me sourcePublicKey plaintext := by
  by_cases hlen : plaintext.length < 81
  · rw [messageIn_short hlen, eval_parseDecrypted_short (length_of_take h) hlen]
  · obtain ⟨source, signature, payload, hp, hne⟩ := exists_plaintext (Nat.le_of_not_lt hlen)
    have hs := slice_of_take h
    rw [hp] at hs ⊢
    rw [messageIn_plaintextOf hne, eval_parseDecrypted_opened hne hs]

end Opened

variable {LocalIdentity VerifyingKey : Type} {P : InboundPlatform LocalIdentity VerifyingKey}
  {me : LocalIdentity} {packetPayload : Bytes} {sourcePublicKey : Block 64} {ring : List (Block 32)}
  {opened : Bytes → Block 32 → Block 16 → Except CryptoError Bytes}
  {refused : Bytes → List (Block 32) → Block 32 → Block 16 → CryptoError}

theorem eval_parseScratch (ptLen : Nat) (buffers : LinkScratch) :
    (parseScratch P me sourcePublicKey ptLen).eval buffers =
      (parseDecrypted P.toPlatform me sourcePublicKey buffers.scratch ptLen).eval
        buffers.fieldScratch := rfl

def scanned (P : InboundPlatform LocalIdentity VerifyingKey)
    (opened : Bytes → Block 32 → Block 16 → Except CryptoError Bytes) (me : LocalIdentity)
    (packetPayload : Bytes) (ring : List (Block 32)) : Option (Bytes × Option Nat) :=
  firstOpened (opened packetPayload · (P.localIdentityHash me)) (first32 (P.privateKey me)) 0 ring

section Calls

variable (hl : RatchetLaws P opened refused) {buffers : LinkScratch}
  (hroom : P.maxEciesPlaintext ≤ buffers.scratch.length)
include hl hroom

theorem eval_ratchet_opened {plaintext : Bytes} {which : Option Nat}
    (h : scanned P opened me packetPayload ring = some (plaintext, which)) :
    (parseOpportunisticRatchet P me ring packetPayload sourcePublicKey).eval buffers =
      messageIn P.toPlatform me sourcePublicKey plaintext >>= fun view => .ok (view, which) := by
  obtain ⟨hn, ht⟩ := hl.scans _ _ _ _ _ _ _ hroom h
  rw [parseOpportunisticRatchet, Exec.eval_get_bind, Exec.eval_rejectIf_bind, if_neg (by omega)]
  simp only [Exec.eval_set_bind, Exec.eval_lift_bind, hn, ofCrypto, ok_bind]
  rw [Exec.eval_bind, eval_parseScratch, eval_parseDecrypted_take ht]
  rfl

theorem eval_ratchet_refused (h : scanned P opened me packetPayload ring = none) :
    (parseOpportunisticRatchet P me ring packetPayload sourcePublicKey).eval buffers =
      fail (.ofCrypto (refused packetPayload ring (first32 (P.privateKey me))
        (P.localIdentityHash me))) := by
  have he := hl.refuses _ _ _ _ _ hroom h
  rw [parseOpportunisticRatchet, Exec.eval_get_bind, Exec.eval_rejectIf_bind, if_neg (by omega)]
  simp only [Exec.eval_set_bind, Exec.eval_lift_bind, he, ofCrypto, fail_bind]

theorem eval_hint_opened {plaintext : Bytes} {which : Option Nat} {key : Block 32}
    (hk : hintedKey ring (first32 (P.privateKey me)) which = some key)
    (h : opened packetPayload key (P.localIdentityHash me) = .ok plaintext) :
    (parseOpportunisticRatchetHint P me ring which packetPayload sourcePublicKey).eval buffers =
      messageIn P.toPlatform me sourcePublicKey plaintext := by
  obtain ⟨hn, ht⟩ := hl.hinted _ _ _ _ _ _ _ _ hroom hk h
  rw [parseOpportunisticRatchetHint, Exec.eval_get_bind, Exec.eval_rejectIf_bind, if_neg (by omega)]
  simp only [Exec.eval_set_bind, Exec.eval_lift_bind, hn, ofCrypto, ok_bind]
  rw [eval_parseScratch, eval_parseDecrypted_take ht]

/-- A hint at a key that does not open the packet fails, and so does one past the ring. -/
theorem eval_hint_refused {which : Option Nat}
    (h : ∀ key, hintedKey ring (first32 (P.privateKey me)) which = some key →
      ∃ e, opened packetPayload key (P.localIdentityHash me) = .error e) :
    ∃ e, (parseOpportunisticRatchetHint P me ring which packetPayload sourcePublicKey).eval
      buffers = fail e := by
  have he : ∃ e, (P.eciesDecryptWithRatchetHint packetPayload ring (first32 (P.privateKey me))
      (P.localIdentityHash me) which buffers.scratch).1 = .error e := by
    cases hk : hintedKey ring (first32 (P.privateKey me)) which with
    | none => exact hl.out_of_range _ _ _ _ _ _ hroom hk
    | some key =>
        obtain ⟨e, he⟩ := h key hk
        exact ⟨e, hl.hinted_rejects _ _ _ _ _ _ _ _ hroom hk he⟩
  obtain ⟨e, he⟩ := he
  refine ⟨.ofCrypto e, ?_⟩
  rw [parseOpportunisticRatchetHint, Exec.eval_get_bind, Exec.eval_rejectIf_bind, if_neg (by omega)]
  simp only [Exec.eval_set_bind, Exec.eval_lift_bind, he, ofCrypto, fail_bind]

theorem eval_base_opened {plaintext : Bytes}
    (h : opened packetPayload (first32 (P.privateKey me)) (P.localIdentityHash me) = .ok plaintext) :
    (parseOpportunistic P me packetPayload sourcePublicKey).eval buffers =
      messageIn P.toPlatform me sourcePublicKey plaintext := by
  obtain ⟨hn, ht⟩ := hl.decrypts _ _ _ _ _ hroom h
  rw [parseOpportunistic, Exec.eval_get_bind, Exec.eval_rejectIf_bind, if_neg (by omega)]
  simp only [Exec.eval_set_bind, Exec.eval_lift_bind, hn, ofCrypto, ok_bind]
  rw [eval_parseScratch, eval_parseDecrypted_take ht]

theorem eval_base_rejected {e : CryptoError}
    (h : opened packetPayload (first32 (P.privateKey me)) (P.localIdentityHash me) = .error e) :
    (parseOpportunistic P me packetPayload sourcePublicKey).eval buffers = fail (.ofCrypto e) := by
  have he := hl.rejects _ _ _ _ _ hroom h
  rw [parseOpportunistic, Exec.eval_get_bind, Exec.eval_rejectIf_bind, if_neg (by omega)]
  simp only [Exec.eval_set_bind, Exec.eval_lift_bind, he, ofCrypto, fail_bind]

end Calls

section Peek

variable (hl : RatchetLaws P opened refused) {scratch : Bytes}
  (hroom : P.maxEciesPlaintext ≤ scratch.length)
include hl hroom

theorem eval_peek_refused (h : scanned P opened me packetPayload ring = none) :
    (peekSourceOpportunisticRatchet P me ring packetPayload).eval scratch =
      fail (.ofCrypto (refused packetPayload ring (first32 (P.privateKey me))
        (P.localIdentityHash me))) := by
  have he := hl.refuses _ _ _ _ _ hroom h
  rw [peekSourceOpportunisticRatchet, Exec.eval_get_bind, Exec.eval_rejectIf_bind, if_neg (by omega)]
  simp only [Exec.eval_set_bind, Exec.eval_lift_bind, he, ofCrypto, fail_bind]

theorem eval_peek_short {plaintext : Bytes} {which : Option Nat}
    (h : scanned P opened me packetPayload ring = some (plaintext, which))
    (hlt : plaintext.length < 81) :
    (peekSourceOpportunisticRatchet P me ring packetPayload).eval scratch =
      fail .malformedPayload := by
  obtain ⟨hn, -⟩ := hl.scans _ _ _ _ _ _ _ hroom h
  rw [peekSourceOpportunisticRatchet, Exec.eval_get_bind, Exec.eval_rejectIf_bind, if_neg (by omega)]
  simp only [Exec.eval_set_bind, Exec.eval_lift_bind, hn, ofCrypto, ok_bind, Exec.eval_rejectIf_bind]
  rw [if_pos (by rw [plaintextPrefix_eq]; exact hlt)]

theorem eval_peek_opened {source : Block 16} {signature : Block 64} {payload : Bytes}
    {which : Option Nat} (hne : payload ≠ [])
    (h : scanned P opened me packetPayload ring =
      some (plaintextOf source signature payload, which)) :
    (peekSourceOpportunisticRatchet P me ring packetPayload).eval scratch = .ok (source, which) := by
  obtain ⟨hn, ht⟩ := hl.scans _ _ _ _ _ _ _ hroom h
  have hpos := List.length_pos_iff.mpr hne
  have hle := length_of_take ht
  rw [plaintextOf_length] at hle
  have h16 : 16 ≤ 80 + payload.length := by omega
  have hsource : ∀ bs : Bytes, bs.take (plaintextOf source signature payload).length =
      plaintextOf source signature payload → bs.take 16 = source.val := by
    intro bs hbs
    have hprefix : (plaintextOf source signature payload).take 16 = source.val :=
      plaintextOf_take_source
    rw [← hprefix, ← hbs, List.take_take, Nat.min_eq_left (by rw [plaintextOf_length]; omega)]
  rw [peekSourceOpportunisticRatchet, Exec.eval_get_bind, Exec.eval_rejectIf_bind, if_neg (by omega)]
  simp only [Exec.eval_set_bind, Exec.eval_lift_bind, hn, ofCrypto, ok_bind, Exec.eval_rejectIf_bind,
    plaintextOf_length]
  rw [if_neg (by rw [plaintextPrefix_eq]; omega), slice_take (Nat.le_trans h16 hle), ok_bind,
    hsource _ ht, toArray_block, ok_bind]
  rfl

end Peek

theorem firstOpened_key {opens : Block 32 → Except CryptoError Bytes} {base : Block 32}
    {plaintext : Bytes} {which : Option Nat} (start : Nat) (before : List (Block 32))
    (hs : before.length = start) (h : firstOpened opens base start ring = some (plaintext, which)) :
    ∃ key, hintedKey (before ++ ring) base which = some key ∧ opens key = .ok plaintext := by
  induction ring generalizing start before with
  | nil =>
      rw [firstOpened] at h
      cases hb : opens base with
      | error e =>
          rw [hb] at h
          cases h
      | ok pt =>
          rw [hb] at h
          cases h
          exact ⟨base, rfl, hb⟩
  | cons key ring ih =>
      rw [firstOpened] at h
      cases hk : opens key with
      | error e =>
          rw [hk] at h
          rw [← List.singleton_append, ← List.append_assoc]
          exact ih (start + 1) (before ++ [key]) (by rw [List.length_append, hs]; rfl) h
      | ok pt =>
          rw [hk] at h
          cases h
          refine ⟨key, ?_, hk⟩
          rw [hintedKey, ← hs, List.getElem?_append_right (Nat.le_refl _), Nat.sub_self]
          rfl

theorem scanned_key {plaintext : Bytes} {which : Option Nat}
    (h : scanned P opened me packetPayload ring = some (plaintext, which)) :
    ∃ key, hintedKey ring (first32 (P.privateKey me)) which = some key ∧
      opened packetPayload key (P.localIdentityHash me) = .ok plaintext :=
  firstOpened_key 0 [] rfl h

def SameMessage (which : Option Nat) (x : Result (LxmfView × Option Nat)) (y : Result LxmfView) : Prop :=
  (∃ view, x = .ok (view, which) ∧ y = .ok view) ∨ ∃ e, x = fail e ∧ y = fail e

theorem sameMessage_messageIn (plaintext : Bytes) (which : Option Nat) :
    SameMessage which (messageIn P.toPlatform me sourcePublicKey plaintext >>= fun view =>
      .ok (view, which)) (messageIn P.toPlatform me sourcePublicKey plaintext) := by
  have h := ensures_messageIn P.toPlatform me sourcePublicKey plaintext
  rcases hm : messageIn P.toPlatform me sourcePublicKey plaintext with (_ | e) | view
  · rw [hm] at h
    exact absurd h (fun h => h)
  · exact .inr ⟨e, rfl, rfl⟩
  · exact .inl ⟨view, rfl, rfl⟩

theorem withIndex_eq_fail {x : Result LxmfView} {which : Option Nat} {e : LxmfError} :
    (x >>= fun view => (.ok (view, which) : Result (LxmfView × Option Nat))) = fail e ↔
      x = fail e := by
  rcases x with (_ | _) | view
  · exact ⟨nofun, nofun⟩
  · constructor
    · intro h
      cases h
      rfl
    · intro h
      cases h
      rfl
  · exact ⟨nofun, nofun⟩

theorem messageIn_source {source : Block 16} {signature : Block 64} {payload : Bytes} {view : LxmfView}
    (hne : payload ≠ []) (h : messageIn P.toPlatform me sourcePublicKey
      (plaintextOf source signature payload) = .ok view) : view.sourceHash = source := by
  rw [messageIn_plaintextOf hne] at h
  exact (authenticateOpened_inv h).1

/-- After a peek both parsers return the message it told of, and refuse it only for
another source. -/
theorem parse_of_peek (hl : RatchetLaws P opened refused) {scratch : Bytes}
    {ringBuffers hintBuffers : LinkScratch} (hscratch : P.maxEciesPlaintext ≤ scratch.length)
    (hring : P.maxEciesPlaintext ≤ ringBuffers.scratch.length)
    (hhint : P.maxEciesPlaintext ≤ hintBuffers.scratch.length) {h : Block 16} {which : Option Nat}
    (hpeek : (peekSourceOpportunisticRatchet P me ring packetPayload).eval scratch = .ok (h, which)) :
    SameMessage which
      ((parseOpportunisticRatchet P me ring packetPayload sourcePublicKey).eval ringBuffers)
      ((parseOpportunisticRatchetHint P me ring which packetPayload sourcePublicKey).eval
        hintBuffers) ∧
    (∀ view, (parseOpportunisticRatchetHint P me ring which packetPayload sourcePublicKey).eval
      hintBuffers = .ok view → view.sourceHash = h) ∧
    ((parseOpportunisticRatchet P me ring packetPayload sourcePublicKey).eval ringBuffers =
      fail .sourceHashMismatch ↔ P.deliveryHash sourcePublicKey ≠ h) ∧
    ((parseOpportunisticRatchetHint P me ring which packetPayload sourcePublicKey).eval
      hintBuffers = fail .sourceHashMismatch ↔ P.deliveryHash sourcePublicKey ≠ h) := by
  cases hs : scanned P opened me packetPayload ring with
  | none =>
      rw [eval_peek_refused hl hscratch hs] at hpeek
      cases hpeek
  | some found =>
      obtain ⟨plaintext, which'⟩ := found
      by_cases hlen : plaintext.length < 81
      · rw [eval_peek_short hl hscratch hs hlen] at hpeek
        cases hpeek
      obtain ⟨source, signature, payload, rfl, hne⟩ := exists_plaintext (Nat.le_of_not_lt hlen)
      rw [eval_peek_opened hl hscratch hne hs] at hpeek
      cases hpeek
      obtain ⟨key, hk, hopen⟩ := scanned_key hs
      rw [eval_ratchet_opened hl hring hs, eval_hint_opened hl hhint hk hopen]
      refine ⟨sameMessage_messageIn _ _, fun view => messageIn_source hne, ?_, ?_⟩
      · rw [withIndex_eq_fail, messageIn_plaintextOf hne]
        exact authenticateOpened_mismatch
      · rw [messageIn_plaintextOf hne]
        exact authenticateOpened_mismatch

/-- What a peek refuses, the parser refuses with the same error. -/
theorem parse_of_peek_fail (hl : RatchetLaws P opened refused) {scratch : Bytes}
    {ringBuffers : LinkScratch} (hscratch : P.maxEciesPlaintext ≤ scratch.length)
    (hring : P.maxEciesPlaintext ≤ ringBuffers.scratch.length) {e : LxmfError}
    (hpeek : (peekSourceOpportunisticRatchet P me ring packetPayload).eval scratch = fail e) :
    (parseOpportunisticRatchet P me ring packetPayload sourcePublicKey).eval ringBuffers = fail e := by
  cases hs : scanned P opened me packetPayload ring with
  | none =>
      rw [eval_peek_refused hl hscratch hs] at hpeek
      cases hpeek
      exact eval_ratchet_refused hl hring hs
  | some found =>
      obtain ⟨plaintext, which⟩ := found
      by_cases hlen : plaintext.length < 81
      · rw [eval_peek_short hl hscratch hs hlen] at hpeek
        cases hpeek
        rw [eval_ratchet_opened hl hring hs, messageIn_short hlen]
        rfl
      · obtain ⟨source, signature, payload, rfl, hne⟩ := exists_plaintext (Nat.le_of_not_lt hlen)
        rw [eval_peek_opened hl hscratch hne hs] at hpeek
        cases hpeek

/-- With no ratchets left the base key decides. -/
theorem parse_without_ratchets (hl : RatchetLaws P opened refused) {ringBuffers buffers : LinkScratch}
    (hring : P.maxEciesPlaintext ≤ ringBuffers.scratch.length)
    (hbuffers : P.maxEciesPlaintext ≤ buffers.scratch.length) :
    SameMessage none
      ((parseOpportunisticRatchet P me [] packetPayload sourcePublicKey).eval ringBuffers)
      ((parseOpportunistic P me packetPayload sourcePublicKey).eval buffers) := by
  cases hb : opened packetPayload (first32 (P.privateKey me)) (P.localIdentityHash me) with
  | ok plaintext =>
      have hs : scanned P opened me packetPayload [] = some (plaintext, none) := by
        rw [scanned, firstOpened, hb]
      rw [eval_ratchet_opened hl hring hs, eval_base_opened hl hbuffers hb]
      exact sameMessage_messageIn _ _
  | error e =>
      have hs : scanned P opened me packetPayload [] = none := by
        rw [scanned, firstOpened, hb]
      rw [eval_ratchet_refused hl hring hs, eval_base_rejected hl hbuffers hb,
        hl.refuses_base _ _ _ _ hb]
      exact .inr ⟨_, rfl, rfl⟩

/-- A peek tells the key and the source of the message that both parsers then
agree on. Each call has memory of its own. -/
theorem peek_parse_agree (hl : RatchetLaws P opened refused) (me : LocalIdentity)
    (ring : List (Block 32)) (packetPayload : Bytes) (sourcePublicKey : Block 64) (scratch : Bytes)
    (ringBuffers hintBuffers buffers : LinkScratch) (hscratch : P.maxEciesPlaintext ≤ scratch.length)
    (hring : P.maxEciesPlaintext ≤ ringBuffers.scratch.length)
    (hhint : P.maxEciesPlaintext ≤ hintBuffers.scratch.length)
    (hbuffers : P.maxEciesPlaintext ≤ buffers.scratch.length) :
    (∀ h which, (peekSourceOpportunisticRatchet P me ring packetPayload).eval scratch = .ok (h, which) →
      SameMessage which
        ((parseOpportunisticRatchet P me ring packetPayload sourcePublicKey).eval ringBuffers)
        ((parseOpportunisticRatchetHint P me ring which packetPayload sourcePublicKey).eval
          hintBuffers) ∧
      (∀ view, (parseOpportunisticRatchetHint P me ring which packetPayload sourcePublicKey).eval
        hintBuffers = .ok view → view.sourceHash = h) ∧
      ((parseOpportunisticRatchet P me ring packetPayload sourcePublicKey).eval ringBuffers =
        fail .sourceHashMismatch ↔ P.deliveryHash sourcePublicKey ≠ h) ∧
      ((parseOpportunisticRatchetHint P me ring which packetPayload sourcePublicKey).eval
        hintBuffers = fail .sourceHashMismatch ↔ P.deliveryHash sourcePublicKey ≠ h)) ∧
    (∀ e, (peekSourceOpportunisticRatchet P me ring packetPayload).eval scratch = fail e →
      (parseOpportunisticRatchet P me ring packetPayload sourcePublicKey).eval ringBuffers = fail e) ∧
    SameMessage none
      ((parseOpportunisticRatchet P me [] packetPayload sourcePublicKey).eval ringBuffers)
      ((parseOpportunistic P me packetPayload sourcePublicKey).eval buffers) :=
  ⟨fun _ _ hpeek => parse_of_peek hl hscratch hring hhint hpeek,
    fun _ hpeek => parse_of_peek_fail hl hscratch hring hpeek,
    parse_without_ratchets hl hring hbuffers⟩

theorem peek_parse_hello :
    (peekSourceOpportunisticRatchet Vectors.inboundPlatform .recipient [Vectors.block 32 0]
      Vectors.helloCiphertext).eval Vectors.packetScratch.scratch =
        .ok (Vectors.platform.lxmfDeliveryHash .source, none) ∧
    SameMessage none
      ((parseOpportunisticRatchet Vectors.inboundPlatform .recipient [Vectors.block 32 0]
        Vectors.helloCiphertext (Vectors.platform.publicKey .source)).eval Vectors.packetScratch)
      ((parseOpportunisticRatchetHint Vectors.inboundPlatform .recipient [Vectors.block 32 0] none
        Vectors.helloCiphertext (Vectors.platform.publicKey .source)).eval Vectors.packetScratch) := by
  have hpeek : (peekSourceOpportunisticRatchet Vectors.inboundPlatform .recipient [Vectors.block 32 0]
      Vectors.helloCiphertext).eval Vectors.packetScratch.scratch =
        .ok (Vectors.platform.lxmfDeliveryHash .source, none) := by
    decide +kernel
  have hroom : Vectors.inboundPlatform.maxEciesPlaintext ≤ Vectors.packetScratch.scratch.length :=
    Nat.le_of_eq List.length_replicate.symm
  exact ⟨hpeek, ((peek_parse_agree Vectors.platform_ratchets .recipient [Vectors.block 32 0]
    Vectors.helloCiphertext (Vectors.platform.publicKey .source) Vectors.packetScratch.scratch
    Vectors.packetScratch Vectors.packetScratch Vectors.packetScratch hroom hroom hroom hroom).1 _ _
    hpeek).1⟩

end LxmfLite.Opportunistic
