import LxmfLite.Inbound
import LxmfLite.Vectors

namespace LxmfLite.Malleability

open ByteString Execution SelfDelimiting MessagePack Message Primitives FieldMaps Parse Decoding
  Authentication Inbound

variable {LocalIdentity VerifyingKey : Type} {P : Platform LocalIdentity VerifyingKey}

/-- The packed messages that hash one body for one pair of parties: with any
signature, any marker, and anything behind the body. -/
def Spells (dest source : Block 16) (body data : Bytes) : Prop :=
  ∃ signature m tail, data = packedOf dest source signature (m :: (body ++ tail))

def hashedIn (dest source : Block 16) (body : Bytes) : Bytes := hashedPart dest source (0x94 :: body)

section Bodies

variable {m m' : UInt8} {body tail tail' payload : Bytes} {d : Elements}

theorem exists_body (h : Framed payload d) : ∃ m body tail, payload = m :: (body ++ tail) ∧
    d.length = 1 + body.length ∧ (0x94 ≤ m.toNat ∧ m.toNat ≤ 0x9f) ∧
    stripped payload d.length = 0x94 :: body := by
  have hle := h.length_le
  obtain ⟨m, rest, rfl⟩ : ∃ m rest, payload = m :: rest := by
    cases h
    exact ⟨_, _, rfl⟩
  have hpos : 1 ≤ d.length ∧ 0x94 ≤ m.toNat ∧ m.toNat ≤ 0x9f := by
    cases h with
    | mk rest hm => exact ⟨by dsimp only; omega, hm⟩
  rw [List.length_cons] at hle
  obtain ⟨n, hn⟩ := Nat.exists_eq_add_of_le hpos.1
  refine ⟨m, rest.take n, rest.drop n, by rw [List.take_append_drop], ?_, hpos.2, ?_⟩
  · rw [hn, List.length_take_of_le (by omega)]
  · rw [stripped, hn, Nat.add_comm 1 n, List.take_succ_cons, List.drop_succ_cons, List.drop_zero]

theorem stripped_body (m : UInt8) (body tail : Bytes) :
    stripped (m :: (body ++ tail)) (1 + body.length) = 0x94 :: body := by
  rw [stripped, Nat.add_comm, List.take_succ_cons, List.drop_succ_cons, List.drop_zero, List.take_left' rfl]

theorem framed_body (h : Framed (m :: (body ++ tail)) d) (hl : d.length = 1 + body.length)
    (hm : 0x94 ≤ m'.toNat ∧ m'.toNat ≤ 0x9f) (tail' : Bytes) : Framed (m' :: (body ++ tail')) d := by
  generalize hp : m :: (body ++ tail) = payload at h
  obtain @⟨m, stamp, title, content, titleEnc, contentEnc, fields, rest, -, hs, ht, hc, hf⟩ := h
  dsimp only at hl
  obtain ⟨-, hp⟩ := List.cons.inj hp
  have hsplit : 0xcb :: (stamp ++ (titleEnc ++ (contentEnc ++ (fields ++ rest)))) =
      (0xcb :: (stamp ++ (titleEnc ++ (contentEnc ++ fields)))) ++ rest := by
    simp only [List.cons_append, List.append_assoc]
  rw [hsplit] at hp
  obtain ⟨rfl, -⟩ := List.append_inj hp (by
    simp only [List.length_cons, List.length_append]
    omega)
  simp only [List.cons_append, List.append_assoc]
  exact .mk tail' hm hs ht hc hf

theorem fields_suffix (h : Framed (m :: body) d) (hl : d.length = 1 + body.length) : d.fields <:+ body := by
  generalize hp : m :: body = payload at h
  obtain @⟨m, stamp, title, content, titleEnc, contentEnc, fields, rest, -, hs, -, -, -⟩ := h
  dsimp only at hl ⊢
  obtain ⟨-, rfl⟩ := List.cons.inj hp
  have hrest : rest = [] := by
    simp only [List.length_cons, List.length_append] at hl
    exact List.length_eq_zero_iff.mp (by omega)
  refine ⟨0xcb :: (stamp ++ (titleEnc ++ contentEnc)), ?_⟩
  rw [hrest]
  simp only [List.cons_append, List.append_assoc, List.append_nil]

end Bodies

section Accepted

variable {me : LocalIdentity} {sourcePublicKey : Block 64} {dest source : Block 16} {signature : Block 64}
  {m : UInt8} {body data : Bytes} {d : Elements} {buffers : LinkScratch} {view : LxmfView}

/-- Of a message with a given body, parse_link looks at the marker, the
signature and the room: not at what stands behind the body. -/
theorem parseLink_body (hf : Framed (0x94 :: body) d) (hl : d.length = 1 + body.length) (tail : Bytes) :
    (parseLink P me (packedOf dest source signature (m :: (body ++ tail))) sourcePublicKey).eval buffers =
        .ok view ↔
      (0x94 ≤ m.toNat ∧ m.toNat ≤ 0x9f) ∧ dest = P.lxmfDeliveryHash me ∧
      source = P.deliveryHash sourcePublicKey ∧ checkFields d.fields = .ok () ∧
      64 + d.length ≤ buffers.scratch.length ∧
      (∃ key, P.verifyingKey (last32 sourcePublicKey) = some key ∧ P.verify key
        (hashedIn dest source body ++ (P.sha256 (hashedIn dest source body)).val) signature = true) ∧
      viewOf P (hashedIn dest source body) = .ok view := by
  have hbare : Framed (0x94 :: (body ++ [])) d := by rwa [List.append_nil]
  have hframed (hm : 0x94 ≤ m.toNat ∧ m.toNat ≤ 0x9f) : Framed (m :: (body ++ tail)) d :=
    framed_body hbare hl hm tail
  have hhashed : hashedIn dest source body =
      hashedPart dest source (stripped (m :: (body ++ tail)) d.length) := by
    rw [hl, stripped_body, hashedIn]
  rw [parseLink_eq_ok]
  simp only [authentic_packed (List.cons_ne_nil m _)]
  constructor
  · rintro ⟨d', hashed, ⟨hd, hs, hf', hc, hr, rfl, hv⟩, hview⟩
    obtain ⟨m', body', tail', hp, -, hm, -⟩ := exists_body hf'
    obtain ⟨rfl, -⟩ := List.cons.inj hp
    have hsame := frame_eq_ok.mpr hf'
    rw [frame_eq_ok.mpr (hframed hm)] at hsame
    obtain rfl := Except.ok.inj hsame
    rw [hhashed]
    exact ⟨hm, hd, hs, hc, hr, hv, hview⟩
  · rintro ⟨hm, hd, hs, hc, hr, hv, hview⟩
    rw [hhashed] at hv hview
    exact ⟨d, _, ⟨hd, hs, hframed hm, hc, hr, rfl, hv⟩, hview⟩

theorem view_fields_suffix (hf : Framed (0x94 :: body) d) (hl : d.length = 1 + body.length)
    (h : viewOf P (hashedIn dest source body) = .ok view) : view.fields <:+ body := by
  have hstripped := stripped_body 0x94 body []
  rw [List.append_nil, ← hl] at hstripped
  have hview : viewOf P (hashedPart dest source (stripped (0x94 :: body) d.length)) = _ := viewOf_hashedPart hf
  rw [hstripped] at hview
  obtain rfl := Except.ok.inj (h.symm.trans hview)
  exact fields_suffix hf hl

theorem exists_accepted (h : (parseLink P me data sourcePublicKey).eval buffers = .ok view) :
    ∃ body d, Framed (0x94 :: body) d ∧ d.length = 1 + body.length ∧
      Spells (P.lxmfDeliveryHash me) (P.deliveryHash sourcePublicKey) body data := by
  obtain ⟨d, hashed, ha, -⟩ := parseLink_eq_ok.mp h
  obtain ⟨dest, source, signature, payload, rfl, hne⟩ := exists_packed ha.length
  obtain ⟨rfl, rfl, hf, -⟩ := (authentic_packed hne).mp ha
  obtain ⟨m, body, tail, rfl, hl, -, hstripped⟩ := exists_body hf
  have hbody := hf.stripped
  rw [hstripped] at hbody
  exact ⟨body, d, hbody, hl, signature, m, tail, rfl⟩

theorem hashedIn_inj {dest' source' : Block 16} {body' : Bytes}
    (h : hashedIn dest source body = hashedIn dest' source' body') :
    dest = dest' ∧ source = source' ∧ body = body' := by
  obtain ⟨hd, h⟩ := List.append_inj h (by rw [dest.2, dest'.2])
  obtain ⟨hs, h⟩ := List.append_inj h (by rw [source.2, source'.2])
  exact ⟨Subtype.ext hd, Subtype.ext hs, (List.cons.inj h).2⟩

end Accepted

/-- What the network may change in a message that is accepted, and all that it
may change without changing the message id: the signature, to one that verifies
as well, the count of elements in the marker, and whatever stands behind the
fields. The view stays the same. -/
theorem parseLink_malleable {me : LocalIdentity} {data : Bytes} {sourcePublicKey : Block 64}
    {buffers : LinkScratch} {view : LxmfView}
    (h : (parseLink P me data sourcePublicKey).eval buffers = .ok view) :
    ∃ body, Spells (P.lxmfDeliveryHash me) (P.deliveryHash sourcePublicKey) body data ∧
      view.fields <:+ body ∧
      (∀ signature m tail (buffers' : LinkScratch), 65 + body.length ≤ buffers'.scratch.length →
        ((parseLink P me (packedOf (P.lxmfDeliveryHash me) (P.deliveryHash sourcePublicKey) signature
            (m :: (body ++ tail))) sourcePublicKey).eval buffers' = .ok view ↔
          (0x94 ≤ m.toNat ∧ m.toNat ≤ 0x9f) ∧
          ∃ key, P.verifyingKey (last32 sourcePublicKey) = some key ∧ P.verify key
            (hashedIn (P.lxmfDeliveryHash me) (P.deliveryHash sourcePublicKey) body ++ view.messageId.val)
            signature = true)) ∧
      ∀ (me' : LocalIdentity) (data' : Bytes) (sourcePublicKey' : Block 64) (buffers' : LinkScratch)
        (view' : LxmfView), (parseLink P me' data' sourcePublicKey').eval buffers' = .ok view' →
        view'.messageId = view.messageId →
        (Spells (P.lxmfDeliveryHash me) (P.deliveryHash sourcePublicKey) body data' ∧ view' = view) ∨
        ∃ dest source body', Spells dest source body' data' ∧
          hashedIn dest source body' ≠
            hashedIn (P.lxmfDeliveryHash me) (P.deliveryHash sourcePublicKey) body ∧
          P.sha256 (hashedIn dest source body') =
            P.sha256 (hashedIn (P.lxmfDeliveryHash me) (P.deliveryHash sourcePublicKey) body) := by
  obtain ⟨body, d, hf, hl, signature₀, m₀, tail₀, rfl⟩ := exists_accepted h
  obtain ⟨-, -, -, hc, -, -, hview⟩ := (parseLink_body hf hl tail₀).mp h
  have hid := viewOf_messageId hview
  refine ⟨body, ⟨signature₀, m₀, tail₀, rfl⟩, view_fields_suffix hf hl hview, ?_, ?_⟩
  · intro signature m tail buffers' hroom
    rw [parseLink_body hf hl tail, hid]
    constructor
    · rintro ⟨hm, -, -, -, -, hv, -⟩
      exact ⟨hm, hv⟩
    · rintro ⟨hm, hv⟩
      exact ⟨hm, rfl, rfl, hc, by omega, hv, hview⟩
  · intro me' data' sourcePublicKey' buffers' view' h' hids
    obtain ⟨body', d', hf', hl', signature, m, tail, rfl⟩ := exists_accepted h'
    obtain ⟨-, -, -, -, -, -, hview'⟩ := (parseLink_body hf' hl' tail).mp h'
    rw [viewOf_messageId hview', hid] at hids
    by_cases hsame : hashedIn (P.lxmfDeliveryHash me') (P.deliveryHash sourcePublicKey') body' =
        hashedIn (P.lxmfDeliveryHash me) (P.deliveryHash sourcePublicKey) body
    · -- The same bytes are hashed, so they are the same message but for what is not hashed.
      rw [hsame, hview] at hview'
      obtain ⟨hd, hs, rfl⟩ := hashedIn_inj hsame
      rw [hd, hs]
      exact .inl ⟨⟨signature, m, tail, rfl⟩, (Except.ok.inj hview').symm⟩
    · exact .inr ⟨_, _, body', ⟨signature, m, tail, rfl⟩, hsame, hids⟩

def helloView : LxmfView :=
  ⟨Vectors.hello.messageId, Vectors.Party.source.deliveryHash, Vectors.timestamp, Vectors.title,
    Vectors.content, [0x80]⟩

theorem parseLink_malleable_hello :
    ∃ body, Spells Vectors.Party.recipient.deliveryHash Vectors.Party.source.deliveryHash body
        Vectors.hello.packed ∧
      [0x80] <:+ body ∧
      ∀ signature m tail (buffers : LinkScratch), 65 + body.length ≤ buffers.scratch.length →
        ((parseLink Vectors.platform .recipient (packedOf Vectors.Party.recipient.deliveryHash
            Vectors.Party.source.deliveryHash signature (m :: (body ++ tail)))
            (Vectors.platform.publicKey .source)).eval buffers = .ok helloView ↔
          (0x94 ≤ m.toNat ∧ m.toNat ≤ 0x9f) ∧
          ∃ key, Vectors.platform.verifyingKey (last32 (Vectors.platform.publicKey .source)) = some key ∧
            Vectors.platform.verify key (hashedIn Vectors.Party.recipient.deliveryHash
              Vectors.Party.source.deliveryHash body ++ Vectors.hello.messageId.val) signature = true) := by
  have h : (parseLink Vectors.platform .recipient Vectors.hello.packed
      (Vectors.platform.publicKey .source)).eval Vectors.linkScratch = .ok helloView := by
    decide +kernel
  have hsource : Vectors.platform.deliveryHash (Vectors.platform.publicKey .source) =
      Vectors.Party.source.deliveryHash := by
    decide +kernel
  obtain ⟨body, hspells, hfields, haccepted, -⟩ := parseLink_malleable h
  rw [hsource] at hspells haccepted
  exact ⟨body, hspells, hfields, haccepted⟩

end LxmfLite.Malleability
