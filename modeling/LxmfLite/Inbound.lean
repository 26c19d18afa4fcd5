import LxmfLite.Vectors
import LxmfLite.Authentication

namespace LxmfLite.Inbound

open ByteString Execution SelfDelimiting MessagePack KeyedMap Message Primitives Reader FieldMaps
  Parse Decoding Authentication

variable {LocalIdentity VerifyingKey : Type} {P : Platform LocalIdentity VerifyingKey}
  {me : LocalIdentity} {sourcePublicKey : Block 64} {data : Bytes}

def IsMap (fields : Bytes) : Prop := ∃ m tail, fields = m :: tail ∧ MapMarker m

/-- On one complete value validate_fields asks of a map, and only of a map,
that it is a field map. -/
theorem checkFields_value {fields : Bytes} (hv : Value 8 0 fields) :
    checkFields fields = .ok () ↔ (IsMap fields → ∃ entries, FieldMap 0 fields entries) := by
  rw [checkFields_eq_ok]
  constructor
  · rintro h ⟨m, tail, rfl, hm⟩
    obtain ⟨-, header, n, items, hh, hb, -⟩ := (map_value_iff hm).mp hv
    exact h header n ⟨items.flatten, hb.symm⟩ hh
  · rintro h header count ⟨rest, rfl⟩ hh
    obtain ⟨m, tail, rfl⟩ := List.exists_cons_of_ne_nil (MapHeader.ne_nil hh)
    exact h ⟨m, tail ++ rest, rfl, MapHeader.marker hh⟩

/-- What has to hold of the data for parse_link to accept it. The elements d
end at the payload offset d.length, and hashed is what the signature covers. -/
structure Authentic (P : Platform LocalIdentity VerifyingKey) (me : LocalIdentity) (data : Bytes)
    (sourcePublicKey : Block 64) (room : Nat) (d : Elements) (hashed : Bytes) : Prop where
  length : 97 ≤ data.length
  dest : data.take 16 = (P.lxmfDeliveryHash me).val
  source : data.extract 16 32 = (P.deliveryHash sourcePublicKey).val
  framed : Framed (data.drop 96) d
  fields : IsMap d.fields → ∃ entries, FieldMap 0 d.fields entries
  scratch : 64 + d.length ≤ room
  hashed_eq : hashed = data.take 32 ++ 0x94 :: ((data.drop 96).take d.length).drop 1
  signature : ∃ key signature, P.verifyingKey (last32 sourcePublicKey) = some key ∧
    signature.val = data.extract 32 96 ∧ P.verify key (hashed ++ (P.sha256 hashed).val) signature = true

def viewOf (P : Platform LocalIdentity VerifyingKey) (hashed : Bytes) : Result LxmfView := do
  let sourceBytes ← slice hashed 16 32
  let source ← toArray 16 sourceBytes
  let d ← frame (hashed.drop 32)
  pure ⟨P.sha256 hashed, source, d.timestamp, d.title, d.content, d.fields⟩

theorem viewOf_messageId {hashed : Bytes} {view : LxmfView} (h : viewOf P hashed = .ok view) :
    view.messageId = P.sha256 hashed := by
  obtain ⟨_, -, h⟩ := bind_eq_ok.mp h
  obtain ⟨source, -, h⟩ := bind_eq_ok.mp h
  obtain ⟨d, -, h⟩ := bind_eq_ok.mp h
  cases h
  rfl

section Parts

variable {dest source : Block 16} {signature : Block 64} {payload : Bytes}

theorem extract_of_slice {bs piece : Bytes} {i j : Nat} (h : (slice bs i j : Result Bytes) = .ok piece) :
    bs.extract i j = piece := by
  rw [slice] at h
  split at h
  · exact Except.ok.inj h
  · exact absurd h (by simp)

theorem authenticate_eq_ok {room : Nat} {view : LxmfView} :
    authenticate P me sourcePublicKey source signature payload room = .ok view ↔
      P.deliveryHash sourcePublicKey = source ∧ ∃ d, Framed payload d ∧ checkFields d.fields = .ok () ∧
        64 + d.length ≤ room ∧ ∃ key, P.verifyingKey (last32 sourcePublicKey) = some key ∧
        P.verify key (signedPart P (P.lxmfDeliveryHash me) source (stripped payload d.length)) signature = true ∧
        view = ⟨messageIdOf P (P.lxmfDeliveryHash me) source (stripped payload d.length), source,
          d.timestamp, d.title, d.content, d.fields⟩ := by
  simp only [authenticate, rejectIf_bind]
  constructor
  · intro h
    split at h
    · exact absurd h (by simp)
    next hsource =>
    obtain ⟨d, hd, h⟩ := bind_eq_ok.mp h
    obtain ⟨_, hc, h⟩ := bind_eq_ok.mp h
    split at h
    · exact absurd h (by simp)
    next hroom =>
    obtain ⟨key, hk, h⟩ := bind_eq_ok.mp h
    split at h
    · exact absurd h (by simp)
    next hverify =>
    cases h
    have hkey : P.verifyingKey (last32 sourcePublicKey) = some key := by
      cases hopt : P.verifyingKey (last32 sourcePublicKey) with
      | none => exact absurd hk (by simp [hopt])
      | some key' =>
          rw [hopt] at hk
          cases hk
          rfl
    exact ⟨by tauto, d, frame_eq_ok.mp hd, hc, by omega, key, hkey, by simpa using hverify, rfl⟩
  · rintro ⟨hsource, d, hd, hc, hroom, key, hk, hverify, rfl⟩
    rw [if_neg (not_not_intro hsource), frame_eq_ok.mpr hd, ok_bind, hc, ok_bind, if_neg (by omega), hk,
      orFail_some, ok_bind, if_neg (by rw [hverify]; simp)]
    rfl

end Parts

theorem authentic_packed {dest source : Block 16} {signature : Block 64} {payload : Bytes}
    (hne : payload ≠ []) {room : Nat} {d : Elements} {hashed : Bytes} :
    Authentic P me (packedOf dest source signature payload) sourcePublicKey room d hashed ↔
      dest = P.lxmfDeliveryHash me ∧ source = P.deliveryHash sourcePublicKey ∧ Framed payload d ∧
        checkFields d.fields = .ok () ∧ 64 + d.length ≤ room ∧
        hashed = hashedPart dest source (stripped payload d.length) ∧
        ∃ key, P.verifyingKey (last32 sourcePublicKey) = some key ∧
          P.verify key (hashed ++ (P.sha256 hashed).val) signature = true := by
  have hpos := List.length_pos_iff.mpr hne
  have hsource := extract_of_slice (slice_packed_source dest source signature payload)
  have hsignature := extract_of_slice (slice_packed_signature dest source signature payload)
  have hhash (length : Nat) : (packedOf dest source signature payload).take 32 ++
      0x94 :: (((packedOf dest source signature payload).drop 96).take length).drop 1 =
      hashedPart dest source (stripped payload length) := by
    rw [packedOf_take, packedOf_drop, List.append_assoc, hashedPart, stripped]
  constructor
  · rintro ⟨-, hd, hs, hf, hm, hr, hh, key, signature', hk, hsig, hv⟩
    rw [packedOf_take_dest] at hd
    rw [hsource] at hs
    rw [packedOf_drop] at hf
    rw [hhash] at hh
    rw [hsignature] at hsig
    obtain rfl : signature' = signature := Subtype.ext hsig
    have hvalue : Value 8 0 d.fields := by
      cases hf
      assumption
    exact ⟨Subtype.ext hd, Subtype.ext hs, hf, (checkFields_value hvalue).mpr hm, hr, hh, key, hk, hv⟩
  · rintro ⟨rfl, rfl, hf, hc, hr, hh, key, hk, hv⟩
    have hvalue : Value 8 0 d.fields := by
      cases hf
      assumption
    exact ⟨by rw [packedOf_length]; omega, packedOf_take_dest, hsource, by rw [packedOf_drop]; exact hf,
      (checkFields_value hvalue).mp hc, hr, by rw [hhash]; exact hh, key, signature, hk,
      hsignature.symm, hv⟩

theorem viewOf_hashedPart {dest source : Block 16} {payload : Bytes} {d : Elements}
    (hf : Framed payload d) : viewOf P (hashedPart dest source (stripped payload d.length)) =
      .ok ⟨messageIdOf P dest source (stripped payload d.length), source, d.timestamp, d.title,
        d.content, d.fields⟩ := by
  have hs : (slice (hashedPart dest source (stripped payload d.length)) 16 32 : Result Bytes) =
      .ok source.val := slice_middle dest.2 (by rw [source.2])
  have hdrop : (hashedPart dest source (stripped payload d.length)).drop 32 =
      stripped payload d.length := by
    rw [hashedPart, ← List.append_assoc, List.drop_left']
    rw [List.length_append, dest.2, source.2]
  rw [viewOf, hs, ok_bind, toArray_block, ok_bind, hdrop, frame_eq_ok.mpr hf.stripped, ok_bind]
  rfl

/-- parse_link accepts exactly the authentic messages. -/
theorem parseLink_eq_ok {buffers : LinkScratch} {view : LxmfView} :
    (parseLink P me data sourcePublicKey).eval buffers = .ok view ↔
      ∃ d hashed, Authentic P me data sourcePublicKey buffers.scratch.length d hashed ∧
        viewOf P hashed = .ok view := by
  by_cases hlen : 97 ≤ data.length
  · obtain ⟨dest, source, signature, payload, rfl, hne⟩ := exists_packed hlen
    rw [eval_parseLink hne]
    simp only [authentic_packed hne]
    constructor
    · intro h
      split at h
      · exact absurd h (by simp)
      next hd =>
      obtain rfl : dest = P.lxmfDeliveryHash me := by tauto
      obtain ⟨rfl, d, hf, hc, hr, key, hk, hv, rfl⟩ := authenticate_eq_ok.mp h
      exact ⟨d, _, ⟨rfl, rfl, hf, hc, hr, rfl, key, hk, hv⟩, viewOf_hashedPart hf⟩
    · rintro ⟨d, hashed, ⟨rfl, rfl, hf, hc, hr, rfl, key, hk, hv⟩, hview⟩
      rw [viewOf_hashedPart hf] at hview
      cases hview
      rw [if_neg (by simp)]
      exact authenticate_eq_ok.mpr ⟨rfl, d, hf, hc, hr, key, hk, hv, rfl⟩
  · rw [eval_parseLink_short (by omega)]
    constructor
    · intro h
      exact absurd h (by simp)
    · rintro ⟨d, hashed, ha, -⟩
      exact absurd ha.length hlen

theorem Authentic.unique {room room' : Nat} {d d' : Elements} {hashed hashed' : Bytes}
    (h : Authentic P me data sourcePublicKey room d hashed)
    (h' : Authentic P me data sourcePublicKey room' d' hashed') : d = d' ∧ hashed = hashed' := by
  have hd : d = d' := by
    have := frame_eq_ok.mpr h.framed
    rw [frame_eq_ok.mpr h'.framed] at this
    exact (Except.ok.inj this).symm
  subst hd
  exact ⟨rfl, h.hashed_eq.trans h'.hashed_eq.symm⟩

/-- Acceptance, the view from the hashed bytes alone, and one view for all
messages with the same hashed bytes. -/
theorem parseLink_exact (P : Platform LocalIdentity VerifyingKey) (me : LocalIdentity) (data : Bytes)
    (sourcePublicKey : Block 64) (buffers : LinkScratch) :
    (∀ view, (parseLink P me data sourcePublicKey).eval buffers = .ok view ↔
      ∃ d hashed, Authentic P me data sourcePublicKey buffers.scratch.length d hashed ∧
        viewOf P hashed = .ok view) ∧
    ∀ (me' : LocalIdentity) (data' : Bytes) (sourcePublicKey' : Block 64) (buffers' : LinkScratch)
      (d d' : Elements) (hashed : Bytes) (view view' : LxmfView),
      Authentic P me data sourcePublicKey buffers.scratch.length d hashed →
      Authentic P me' data' sourcePublicKey' buffers'.scratch.length d' hashed →
      (parseLink P me data sourcePublicKey).eval buffers = .ok view →
      (parseLink P me' data' sourcePublicKey').eval buffers' = .ok view' → view = view' := by
  refine ⟨fun view => parseLink_eq_ok, ?_⟩
  intro me' data' sourcePublicKey' buffers' d d' hashed view view' ha ha' hview hview'
  obtain ⟨_, _, ha₁, hv⟩ := parseLink_eq_ok.mp hview
  obtain ⟨_, _, ha₂, hv'⟩ := parseLink_eq_ok.mp hview'
  obtain ⟨-, rfl⟩ := ha.unique ha₁
  obtain ⟨-, rfl⟩ := ha'.unique ha₂
  rw [hv] at hv'
  exact Except.ok.inj hv'

theorem authenticate_room {source : Block 16} {signature : Block 64} {payload : Bytes}
    {room room' : Nat} (h : 64 + payload.length ≤ room) (h' : 64 + payload.length ≤ room') :
    authenticate P me sourcePublicKey source signature payload room =
      authenticate P me sourcePublicKey source signature payload room' := by
  simp only [authenticate, rejectIf_bind]
  apply ite_congr rfl (fun _ => rfl)
  intro _
  rcases malformed_frame payload with ⟨d, hd⟩ | hd
  · have hle := (frame_eq_ok.mp hd).length_le
    rw [hd, ok_bind, ok_bind, if_neg (by omega), if_neg (by omega)]
  · rw [hd]
    rfl

/-- Authentication reads the first four values of the payload, whatever the
marker counts and whatever follows them. -/
theorem authenticate_of_values {source : Block 16} {signature : Block 64} {room : Nat}
    {m m' : UInt8} {a b c f r r' : Bytes} {da db dc df : Nat} (ha : Value 8 da a)
    (hb : Value 8 db b) (hc : Value 8 dc c) (hf : Value 8 df f)
    (hm : 0x94 ≤ m.toNat ∧ m.toNat ≤ 0x9f) (hm' : 0x94 ≤ m'.toNat ∧ m'.toNat ≤ 0x9f) :
    authenticate P me sourcePublicKey source signature (m :: (a ++ (b ++ (c ++ (f ++ r))))) room =
      authenticate P me sourcePublicKey source signature (m' :: (a ++ (b ++ (c ++ (f ++ r'))))) room := by
  have hsame := frame_of_values r r' ha hb hc hf hm hm'
  simp only [authenticate, rejectIf_bind, ← hsame]
  apply ite_congr rfl (fun _ => rfl)
  intro _
  rcases malformed_frame (m :: (a ++ (b ++ (c ++ (f ++ r))))) with ⟨d, hd⟩ | hd
  · obtain ⟨-, hlen⟩ := (frame_eq_ok.mp hd).of_values r' ha hb hc hf hm'
    have hcut (m : UInt8) (r : Bytes) : stripped (m :: (a ++ (b ++ (c ++ (f ++ r))))) d.length =
        0x94 :: (a ++ (b ++ (c ++ f))) := by
      have hsplit : m :: (a ++ (b ++ (c ++ (f ++ r)))) = (m :: (a ++ (b ++ (c ++ f)))) ++ r := by
        simp only [List.cons_append, List.append_assoc]
      rw [stripped, hsplit, List.take_left' (by rw [hlen, List.length_cons, Nat.add_comm])]
      rfl
    simp only [hd, ok_bind, hcut]
  · rw [hd]
    rfl

/-- The parser of decrypted packets and the parser of packed messages agree,
error for error. -/
theorem parseDecrypted_eq_parseLink (P : Platform LocalIdentity VerifyingKey) (me : LocalIdentity)
    (sourcePublicKey : Block 64) (scratch : Bytes) (ptLen : Nat) (hpt : ptLen ≤ scratch.length)
    (hmax : ptLen ≤ P.maxEciesPlaintext) (fieldScratch : FieldScratch) (buffers : LinkScratch)
    (hroom : 64 + ptLen ≤ buffers.scratch.length) :
    (parseDecrypted P me sourcePublicKey scratch ptLen).eval fieldScratch =
      (parseLink P me ((P.lxmfDeliveryHash me).val ++ scratch.take ptLen) sourcePublicKey).eval
        buffers := by
  have hlen : ((P.lxmfDeliveryHash me).val ++ scratch.take ptLen).length = 16 + ptLen := by
    rw [List.length_append, (P.lxmfDeliveryHash me).2, List.length_take_of_le hpt]
  by_cases hshort : ptLen < 81
  · rw [eval_parseDecrypted_short hpt hshort, eval_parseLink_short (by rw [hlen]; omega)]
  · obtain ⟨dest, source, signature, payload, hdata, hne⟩ := exists_packed
      (show 97 ≤ ((P.lxmfDeliveryHash me).val ++ scratch.take ptLen).length by rw [hlen]; omega)
    obtain ⟨hdest, htake⟩ := List.append_inj hdata (by rw [(P.lxmfDeliveryHash me).2, dest.2])
    obtain rfl : P.lxmfDeliveryHash me = dest := Subtype.ext hdest
    have hpayload : ptLen = 80 + payload.length := by
      have := congrArg List.length htake
      rwa [List.length_take_of_le hpt, plaintextOf_length] at this
    have hslice : slice scratch 0 ptLen = (.ok (plaintextOf source signature payload) : Result Bytes) := by
      rw [slice_eq (Nat.zero_le ptLen) hpt, List.extract_eq_take_drop, ← htake]
      rfl
    have hfit : payload.length ≤ P.maxLxmfPayload := by
      rw [Platform.maxLxmfPayload, plaintextPrefix_eq]
      omega
    rw [hdata, eval_parseDecrypted hne hslice hfit, eval_parseLink hne, if_neg (by simp)]
    exact authenticate_room (Nat.le_refl _) (by omega)

theorem parseDecrypted_hello :
    (parseDecrypted Vectors.platform .recipient (Vectors.platform.publicKey .source)
      Vectors.hello.plaintext 108).eval Vectors.linkScratch.fieldScratch =
    (parseLink Vectors.platform .recipient ((Vectors.platform.lxmfDeliveryHash .recipient).val ++
      Vectors.hello.plaintext.take 108) (Vectors.platform.publicKey .source)).eval Vectors.linkScratch :=
  parseDecrypted_eq_parseLink _ _ _ _ _ (by decide +kernel) (by decide +kernel) _ _ (by decide +kernel)

end LxmfLite.Inbound
