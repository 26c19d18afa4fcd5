import LxmfLite.Inbound
import LxmfLite.Propagation

namespace LxmfLite.Stamping

open ByteString Execution SelfDelimiting MessagePack Message Primitives Reader Skipping Parse Decoding
  Authentication Inbound Propagation

variable {LocalIdentity VerifyingKey : Type} {P : Platform LocalIdentity VerifyingKey}
  {buffer buffer' : Bytes} {packedLen e : Nat} {stamp : Bytes}

def stampBytes (stamp : Bytes) : Bytes := 0xc4 :: UInt8.ofNat stamp.length :: stamp

def stamped (buffer : Bytes) (packedLen : Nat) (stamp : Bytes) : Bytes :=
  overwrite (overwrite buffer packedLen (stampBytes stamp)) lxmfPackedPrefix [0x95]

structure Stampable (P : Platform LocalIdentity VerifyingKey) (buffer : Bytes) (packedLen : Nat)
    (stamp : Bytes) : Prop where
  prefixed : 96 < packedLen
  inside : packedLen ≤ buffer.length
  stampLength : stamp.length = 16 ∨ stamp.length = 32
  marker : buffer[96]? = some 0x94
  value : Value 8 0 ((buffer.take packedLen).drop 96)
  countable : packedLen + (2 + stamp.length) ≤ P.usizeMax
  room : packedLen + (2 + stamp.length) ≤ buffer.length

theorem stampBytes_length : (stampBytes stamp).length = 2 + stamp.length := by
  simp only [stampBytes, List.length_cons]
  omega

theorem blob_stampBytes (h : stamp.length = 16 ∨ stamp.length = 32) : Blob (stampBytes stamp) stamp := by
  refine .sized (k := 0) (by omega) (.inl rfl) (show [UInt8.ofNat stamp.length].length = 1 from rfl) ?_
  rw [ofBe_singleton, toNat_ofNat_of_lt (by omega)]

theorem set_eq_overwrite {bs : Bytes} {i : Nat} {b : UInt8} (h : i < bs.length) :
    bs.set i b = overwrite bs i [b] := by
  rw [List.set_eq_take_append_cons_drop, if_pos h, overwrite]
  simp

theorem storeByte_eq {bs : Bytes} {i : Nat} {b : UInt8} (h : i < bs.length) :
    storeByte bs i b = .ok (overwrite bs i [b]) := by
  rw [storeByte, if_pos h, set_eq_overwrite h]

theorem storeByte_append {bs a : Bytes} {i j : Nat} {b : UInt8} (hj : j = i + a.length)
    (h : j < bs.length) : storeByte (overwrite bs i a) j b = .ok (overwrite bs i (a ++ [b])) := by
  subst hj
  rw [storeByte_eq (by rw [overwrite_length (by omega)]; exact h), overwrite_overwrite _ (by omega)]

/-- append_recipient_stamp writes nothing before it has checked everything. -/
theorem appendRecipientStamp_run (P : Platform LocalIdentity VerifyingKey) (buffer : Bytes)
    (packedLen : Nat) (stamp : Bytes) : (appendRecipientStamp P packedLen stamp).run buffer =
      (.ok (packedLen + (2 + stamp.length)), stamped buffer packedLen stamp) ∧
        Stampable P buffer packedLen stamp ∨
    (∃ e, (appendRecipientStamp P packedLen stamp).run buffer = (fail e, buffer)) ∧
      ¬Stampable P buffer packedLen stamp := by
  simp only [appendRecipientStamp, Exec.run_get_bind, Exec.run_rejectIf_bind]
  rw [lxmfPackedPrefix_eq]
  by_cases hguard : packedLen ≤ 96 ∨ packedLen > buffer.length ∨
      ¬(stamp.length = 16 ∨ stamp.length = 32)
  · rw [if_pos hguard]
    refine .inr ⟨⟨_, rfl⟩, fun h => ?_⟩
    rcases hguard with hg | hg | hg
    · exact absurd h.prefixed (by omega)
    · exact absurd h.inside (by omega)
    · exact hg h.stampLength
  rw [if_neg hguard, index_of_lt (by omega), Exec.run_ok_bind]
  have hget : buffer[96]? = some (buffer[96]) := List.getElem?_eq_getElem (by omega)
  by_cases hmarker : buffer[96] ≠ 0x94
  · rw [Exec.run_rejectIf_bind, if_pos hmarker]
    refine .inr ⟨⟨_, rfl⟩, fun h => hmarker ?_⟩
    exact Option.some.inj (hget.symm.trans h.marker)
  rw [Exec.run_rejectIf_bind, if_neg hmarker]
  by_cases hvalue : Value 8 0 ((buffer.take packedLen).drop 96)
  swap
  · rw [run_notWhole_bind (by omega) (by omega) hvalue]
    exact .inr ⟨⟨_, rfl⟩, fun h => hvalue h.value⟩
  rw [run_whole_bind (by omega) (by omega) hvalue]
  by_cases hmax : packedLen + (2 + stamp.length) > P.usizeMax
  · rw [Exec.run_rejectIf_bind, if_pos hmax]
    exact .inr ⟨⟨_, rfl⟩, fun h => absurd h.countable (by omega)⟩
  by_cases hroom : packedLen + (2 + stamp.length) > buffer.length
  · rw [Exec.run_rejectIf_bind, if_neg hmax, Exec.run_rejectIf_bind, if_pos hroom]
    exact .inr ⟨⟨_, rfl⟩, fun h => absurd h.room (by omega)⟩
  refine .inl ⟨?_, by omega, by omega, by omega, ?_, hvalue, by omega, by omega⟩
  · have hcopy : (copyFromSlice (overwrite buffer packedLen ([0xc4] ++ [UInt8.ofNat stamp.length]))
        (packedLen + 2) (packedLen + (2 + stamp.length)) stamp : Result Bytes) =
        .ok (overwrite buffer packedLen (stampBytes stamp)) :=
      copyFromSlice_append rfl (by omega) (by omega)
    have hsize : storeByte (overwrite buffer packedLen [0xc4]) (packedLen + 1)
        (UInt8.ofNat stamp.length) =
        .ok (overwrite buffer packedLen ([0xc4] ++ [UInt8.ofNat stamp.length])) :=
      storeByte_append rfl (by omega)
    have hbuf : (overwrite buffer packedLen (stampBytes stamp)).length = buffer.length :=
      overwrite_length (by rw [stampBytes_length]; omega)
    rw [Exec.run_rejectIf_bind, if_neg hmax, Exec.run_rejectIf_bind, if_neg hroom,
      storeByte_eq (by omega), Exec.run_ok_bind,
      hsize, Exec.run_ok_bind, hcopy, Exec.run_ok_bind,
      storeByte_eq (by rw [hbuf]; omega), Exec.run_ok_bind]
    rfl
  · rw [hget]
    exact congrArg some (by tauto)

/-- Behind its checks of the arguments and the marker, append_recipient_stamp
calls the message malformed only for its framing. -/
theorem appendRecipientStamp_malformed (hprefixed : 96 < packedLen) (hinside : packedLen ≤ buffer.length)
    (hstamp : stamp.length = 16 ∨ stamp.length = 32) (hmarker : buffer[96]? = some 0x94) :
    (appendRecipientStamp P packedLen stamp).eval buffer = fail .malformedPayload ↔
      ¬Value 8 0 ((buffer.take packedLen).drop 96) := by
  have hguard : ¬(packedLen ≤ 96 ∨ packedLen > buffer.length ∨
      ¬(stamp.length = 16 ∨ stamp.length = 32)) := by omega
  have hindex : (index buffer 96 : Result UInt8) = .ok 0x94 := by
    rw [index, hmarker]
    rfl
  rw [Exec.eval]
  by_cases hvalue : Value 8 0 ((buffer.take packedLen).drop 96)
  · refine iff_of_false (fun h => ?_) (not_not_intro hvalue)
    rcases appendRecipientStamp_run P buffer packedLen stamp with ⟨hr, -⟩ | ⟨-, hno⟩
    · rw [hr] at h
      cases h
    -- only the length is left to refuse
    rw [appendRecipientStamp, Exec.run_get_bind, Exec.run_rejectIf_bind, lxmfPackedPrefix_eq,
      if_neg hguard, hindex, Exec.run_ok_bind, Exec.run_rejectIf_bind, if_neg (not_not_intro rfl),
      run_whole_bind hprefixed.le hinside hvalue, Exec.run_rejectIf_bind] at h
    by_cases hmax : packedLen + (2 + stamp.length) > P.usizeMax
    · rw [if_pos hmax] at h
      cases h
    rw [if_neg hmax, Exec.run_rejectIf_bind] at h
    by_cases hroom : packedLen + (2 + stamp.length) > buffer.length
    · rw [if_pos hroom] at h
      cases h
    exact hno ⟨hprefixed, hinside, hstamp, hmarker, hvalue, by omega, by omega⟩
  · refine iff_of_true ?_ hvalue
    rw [appendRecipientStamp, Exec.run_get_bind, Exec.run_rejectIf_bind, lxmfPackedPrefix_eq,
      if_neg hguard, hindex, Exec.run_ok_bind, Exec.run_rejectIf_bind, if_neg (not_not_intro rfl),
      run_notWhole_bind hprefixed.le hinside hvalue]

theorem appendRecipientStamp_eq_ok :
    (appendRecipientStamp P packedLen stamp).run buffer = (.ok e, buffer') ↔
      Stampable P buffer packedLen stamp ∧ e = packedLen + (2 + stamp.length) ∧
        buffer' = stamped buffer packedLen stamp := by
  rcases appendRecipientStamp_run P buffer packedLen stamp with ⟨hr, hs⟩ | ⟨⟨error, hr⟩, hs⟩
  · rw [hr]
    constructor
    · intro h
      cases h
      exact ⟨hs, rfl, rfl⟩
    · rintro ⟨-, rfl, rfl⟩
      rfl
  · rw [hr]
    constructor
    · intro h
      cases h
    · rintro ⟨h, -⟩
      exact absurd h hs

theorem stamped_length (h : Stampable P buffer packedLen stamp) :
    (stamped buffer packedLen stamp).length = buffer.length := by
  have hroom := h.room
  have hprefixed := h.prefixed
  have hinner : (overwrite buffer packedLen (stampBytes stamp)).length = buffer.length :=
    overwrite_length (by rw [stampBytes_length]; exact hroom)
  rw [stamped, overwrite_length, hinner]
  rw [lxmfPackedPrefix_eq, hinner, List.length_singleton]
  omega

/-- The message in its parts before and after the stamp: the marker counts one
more and the stamp stands behind the payload. -/
theorem stamped_parts (h : Stampable P buffer packedLen stamp) :
    ∃ head items, head.length = 96 ∧ buffer.take packedLen = head ++ 0x94 :: items ∧
      (stamped buffer packedLen stamp).take (packedLen + (2 + stamp.length)) =
        head ++ 0x95 :: (items ++ stampBytes stamp) := by
  have hprefixed := h.prefixed
  have hinside := h.inside
  have hroom := h.room
  have hfit : packedLen + (stampBytes stamp).length ≤ buffer.length := by
    rw [stampBytes_length]
    exact hroom
  have hlen : (buffer.take packedLen).length = packedLen := List.length_take_of_le hinside
  have h96 : (buffer.take packedLen).drop 96 = 0x94 :: (buffer.take packedLen).drop 97 := by
    rw [List.drop_eq_getElem_cons (by rw [hlen]; omega), List.getElem_take]
    congr 1
    exact Option.some.inj ((List.getElem?_eq_getElem (by omega)).symm.trans h.marker)
  have hsplit : buffer.take packedLen =
      (buffer.take packedLen).take 96 ++ ([0x94] ++ (buffer.take packedLen).drop 97) := by
    rw [List.singleton_append, ← h96, List.take_append_drop]
  have hhead : ((buffer.take packedLen).take 96).length = 96 := by
    rw [List.length_take_of_le (by rw [hlen]; omega)]
  refine ⟨(buffer.take packedLen).take 96, (buffer.take packedLen).drop 97, hhead, hsplit, ?_⟩
  -- one write of everything up to the end of the stamp, with the marker inside it
  have hwhole : overwrite buffer packedLen (stampBytes stamp) =
      overwrite buffer 0 (((buffer.take packedLen).take 96) ++
        ([0x94] ++ ((buffer.take packedLen).drop 97 ++ stampBytes stamp))) := by
    rw [overwrite, overwrite, List.take_zero, List.nil_append]
    have hassoc : ((buffer.take packedLen).take 96) ++
        ([0x94] ++ ((buffer.take packedLen).drop 97 ++ stampBytes stamp)) =
        buffer.take packedLen ++ stampBytes stamp := by
      conv_rhs => rw [hsplit]
      simp only [List.append_assoc]
    rw [hassoc, List.length_append, hlen, Nat.zero_add]
  have htotal : ((buffer.take packedLen).take 96 ++
      ([0x94] ++ ((buffer.take packedLen).drop 97 ++ stampBytes stamp))).length =
      packedLen + (2 + stamp.length) := by
    simp only [List.length_append, hhead, List.length_singleton, List.length_drop, hlen,
      stampBytes_length]
    omega
  have hfit : 0 + ((buffer.take packedLen).take 96 ++
      ([0x94] ++ ((buffer.take packedLen).drop 97 ++ stampBytes stamp))).length ≤ buffer.length := by
    rw [htotal]
    omega
  have hinsideMarker := overwrite_inside [0x95] hfit rfl
  rw [hhead, Nat.zero_add] at hinsideMarker
  rw [stamped, lxmfPackedPrefix_eq, hwhole, hinsideMarker, overwrite, List.take_zero, List.nil_append,
    List.take_left' (by rw [← htotal]; simp only [List.length_append, List.length_singleton])]
  rfl

theorem four_values {items : Bytes} (h : Value 8 0 (0x94 :: items)) :
    ∃ a b c f, items = a ++ (b ++ (c ++ (f ++ []))) ∧ Value 8 1 a ∧ Value 8 1 b ∧ Value 8 1 c ∧
      Value 8 1 f := by
  obtain ⟨-, values, rfl, hl, hv⟩ := (array_value_iff (n := 4) rfl (by omega)).mp h
  match values, hl with
  | [a, b, c, f], _ =>
      exact ⟨a, b, c, f, rfl, hv a (by simp), hv b (by simp), hv c (by simp), hv f (by simp)⟩

theorem five_values {a b c f s : Bytes} (ha : Value 8 1 a) (hb : Value 8 1 b) (hc : Value 8 1 c)
    (hf : Value 8 1 f) (hs : Value 8 1 s) : Value 8 0 (0x95 :: (a ++ (b ++ (c ++ (f ++ s))))) := by
  refine (array_value_iff (n := 5) rfl (by omega)).mpr ⟨by omega, [a, b, c, f, s], by simp, rfl, ?_⟩
  intro item hm
  simp only [List.mem_cons, List.not_mem_nil, or_false] at hm
  rcases hm with rfl | rfl | rfl | rfl | rfl <;> assumption

theorem stamped_framed (h : Stampable P buffer packedLen stamp) :
    (stamped buffer packedLen stamp)[96]? = some 0x95 ∧
      Value 8 0 (((stamped buffer packedLen stamp).take (packedLen + (2 + stamp.length))).drop 96) := by
  have hprefixed := h.prefixed
  obtain ⟨head, items, hhead, hold, hnew⟩ := stamped_parts h
  have hvalue := h.value
  rw [hold, List.drop_left' hhead] at hvalue
  obtain ⟨a, b, c, f, rfl, ha, hb, hc, hf⟩ := four_values hvalue
  constructor
  · have hget := congrArg (fun bs => bs[96]?) hnew
    rw [List.getElem?_take_of_lt (by omega), List.getElem?_append_right (Nat.le_of_eq hhead), hhead]
      at hget
    exact hget
  · rw [hnew, List.drop_left' hhead]
    have hfive := five_values ha hb hc hf ((blob_stampBytes h.stampLength).value (by omega))
    simpa only [List.append_assoc, List.nil_append] using hfive

theorem stamped_getElem? (h : Stampable P buffer packedLen stamp) {i : Nat} (hi : i ≠ 96)
    (ho : ¬(packedLen ≤ i ∧ i < packedLen + (2 + stamp.length))) :
    (stamped buffer packedLen stamp)[i]? = buffer[i]? := by
  have hprefixed := h.prefixed
  have hroom := h.room
  rw [← stampBytes_length] at ho hroom
  have hinner : (overwrite buffer packedLen (stampBytes stamp)).length = buffer.length :=
    overwrite_length hroom
  rw [stamped, overwrite_outside (by rw [hinner, lxmfPackedPrefix_eq, List.length_singleton]; omega)
    (by rw [lxmfPackedPrefix_eq, List.length_singleton]; omega), overwrite_outside hroom (by omega)]

/-- A message whose marker counts five elements cannot be stamped. -/
theorem appendRecipientStamp_again (h : buffer[96]? = some 0x95) :
    (appendRecipientStamp P packedLen stamp).run buffer = (fail .malformedPayload, buffer) := by
  have hlt := (List.getElem?_eq_some_iff.mp h).1
  simp only [appendRecipientStamp, Exec.run_get_bind, Exec.run_rejectIf_bind]
  rw [lxmfPackedPrefix_eq]
  split
  · rfl
  · have hi : (index buffer 96 : Result UInt8) = .ok 0x95 := by
      rw [index, h]
      rfl
    rw [hi, Exec.run_ok_bind, Exec.run_rejectIf_bind, if_pos (by decide)]

/-- Stamping never changes what the recipient reads. -/
theorem appendRecipientStamp_reading
    (h : (appendRecipientStamp P packedLen stamp).run buffer = (.ok e, buffer')) :
    e = packedLen + 2 + stamp.length ∧
    (buffer'.length = buffer.length ∧ buffer[96]? = some 0x94 ∧ buffer'[96]? = some 0x95 ∧
      ∀ i, i ≠ 96 → ¬(packedLen ≤ i ∧ i < e) → buffer'[i]? = buffer[i]?) ∧
    (∃ a b c f s, (buffer'.take e).drop 96 = 0x95 :: (a ++ (b ++ (c ++ (f ++ s)))) ∧
      Value 8 0 ((buffer'.take e).drop 96) ∧ Value 8 1 a ∧ Value 8 1 b ∧ Value 8 1 c ∧ Value 8 1 f ∧
      s = 0xc4 :: UInt8.ofNat stamp.length :: stamp ∧ Blob s stamp) ∧
    (∀ (me : LocalIdentity) (sourcePublicKey : Block 64) (scratch : LinkScratch),
      (parseLink P me (buffer'.take e) sourcePublicKey).eval scratch =
        (parseLink P me (buffer.take packedLen) sourcePublicKey).eval scratch) ∧
    ∀ (packedLen' : Nat) (stamp' : Bytes),
      (appendRecipientStamp P packedLen' stamp').run buffer' = (fail .malformedPayload, buffer') := by
  obtain ⟨hs, rfl, rfl⟩ := appendRecipientStamp_eq_ok.mp h
  obtain ⟨head, items, hhead, hold, hnew⟩ := stamped_parts hs
  have hvalue := hs.value
  rw [hold, List.drop_left' hhead] at hvalue
  obtain ⟨a, b, c, f, rfl, ha, hb, hc, hf⟩ := four_values hvalue
  have hblob := blob_stampBytes hs.stampLength
  have hpayload : (a ++ (b ++ (c ++ (f ++ [])))) ++ stampBytes stamp =
      a ++ (b ++ (c ++ (f ++ stampBytes stamp))) := by
    simp only [List.append_assoc, List.nil_append]
  rw [hpayload] at hnew
  have hmarker := (stamped_framed hs).1
  refine ⟨by omega, ⟨stamped_length hs, hs.marker, hmarker, fun i => stamped_getElem? hs⟩, ?_, ?_,
    fun packedLen' stamp' => appendRecipientStamp_again hmarker⟩
  · refine ⟨a, b, c, f, stampBytes stamp, ?_, ?_, ha, hb, hc, hf, rfl, hblob⟩
    · rw [hnew, List.drop_left' hhead]
    · rw [hnew, List.drop_left' hhead]
      exact five_values ha hb hc hf (hblob.value (by omega))
  · intro me sourcePublicKey scratch
    obtain ⟨dest, source, signature, payload, hdata, hne⟩ := exists_packed
      (show 97 ≤ (head ++ 0x94 :: (a ++ (b ++ (c ++ (f ++ []))))).length by
        rw [List.length_append, hhead, List.length_cons]
        omega)
    have hsplit : head = dest.val ++ (source.val ++ signature.val) ∧
        0x94 :: (a ++ (b ++ (c ++ (f ++ [])))) = payload := by
      refine List.append_inj (hdata.trans ?_) ?_
      · simp only [packedOf, plaintextOf, List.append_assoc]
      · simp only [List.length_append, dest.2, source.2, signature.2, hhead]
    obtain ⟨rfl, rfl⟩ := hsplit
    have hpacked (payload : Bytes) : dest.val ++ (source.val ++ signature.val) ++ payload =
        packedOf dest source signature payload := by
      simp only [packedOf, plaintextOf, List.append_assoc]
    rw [hold, hnew, hpacked, hpacked, eval_parseLink (List.cons_ne_nil _ _),
      eval_parseLink (List.cons_ne_nil _ _)]
    apply ite_congr rfl (fun _ => rfl)
    intro _
    exact authenticate_of_values ha hb hc hf (by decide) (by decide)

theorem appendRecipientStamp_hello : ∃ stampedBuffer,
    (appendRecipientStamp Vectors.platform 124 Vectors.ticketStamp).run Vectors.hello.written.out =
      (.ok 142, stampedBuffer) ∧
    (parseLink Vectors.platform .recipient (stampedBuffer.take 142)
        (Vectors.platform.publicKey .source)).eval Vectors.linkScratch =
      (parseLink Vectors.platform .recipient (Vectors.hello.written.out.take 124)
        (Vectors.platform.publicKey .source)).eval Vectors.linkScratch := by
  have h : (appendRecipientStamp Vectors.platform 124 Vectors.ticketStamp).run Vectors.hello.written.out =
      (.ok 142, stamped Vectors.hello.written.out 124 Vectors.ticketStamp) := by
    decide +kernel
  exact ⟨_, h, (appendRecipientStamp_reading h).2.2.2.1 _ _ _⟩

end LxmfLite.Stamping
