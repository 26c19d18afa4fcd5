import LxmfLite.Payload
import LxmfLite.ReplyDecoding
import LxmfLite.Stamping

namespace LxmfLite.Uploads

open ByteString Execution SelfDelimiting MessagePack Grammar Message Primitives Propagation Payload
  Replies Arrays ReplyDecoding Stamping

variable {LocalIdentity VerifyingKey : Type} {P : Platform LocalIdentity VerifyingKey}
  {buffer : Bytes} {encryptedLen : Nat} {stamp : Block 32} {timestamp : F64}

def entryStart (encryptedLen : Nat) : Nat := if encryptedLen + 32 ≤ 0xff then 13 else 14

structure Wrappable (P : Platform LocalIdentity VerifyingKey) (buffer : Bytes) (encryptedLen : Nat)
    (timestamp : F64) : Prop where
  finite : timestamp.isFinite = true
  least : 16 + P.eciesFixedOverhead + 16 ≤ encryptedLen
  inside : encryptedLen ≤ buffer.length
  countable : encryptedLen + 32 ≤ 65535
  room : encryptedLen + 32 + entryStart encryptedLen ≤ buffer.length

def entriesBytes (entry : Bytes) : Bytes := 0x91 :: binBytes entry

def uploadBytes (timestamp : F64) (entry : Bytes) : Bytes :=
  [0x92, 0xcb] ++ (timestamp.toBeBytes ++ entriesBytes entry)

section Writes

theorem entryStart_eq {n : Nat} (h : n + 32 ≤ 65535) :
    entryStart n = 11 + (binPrefix (n + 32)).length := by
  rw [entryStart, binPrefix]
  split
  · rfl
  · rw [List.length_cons, toBe_length]

variable {β : Type} (f : Unit → Exec LxmfError Bytes β) {buf buf' : Bytes} {i j : Nat}

theorem run_copy_bind {src : Bytes} (h : (copyFromSlice buf i j src : Result Bytes) = .ok buf') :
    (Exec.update (copyFromSlice · i j src) >>= f).run buf = (f ()).run buf' :=
  Exec.run_update_bind (copyFromSlice · i j src) h f

theorem run_store_bind {b : UInt8} (h : storeByte buf i b = .ok buf') :
    (Exec.update (storeByte · i b) >>= f).run buf = (f ()).run buf' :=
  Exec.run_update_bind (storeByte · i b) h f

theorem run_copyWithin_bind {dest : Nat} (h : (copyWithin buf i j dest : Result Bytes) = .ok buf') :
    (Exec.update (copyWithin · i j dest) >>= f).run buf = (f ()).run buf' :=
  Exec.run_update_bind (copyWithin · i j dest) h f

theorem writeEntryHeader_bind {head : Bytes} {n : Nat} (hhead : head.length = 11)
    (hn : n + 32 ≤ 65535) (hroom : entryStart n ≤ buf.length) :
    (writeEntryHeader (entryStart n) (n + 32) >>= f).run (overwrite buf 0 head) =
      (f ()).run (overwrite buf 0 (head ++ binPrefix (n + 32))) := by
  rw [entryStart] at hroom ⊢
  by_cases hshort : n + 32 ≤ 0xff
  · rw [if_pos hshort] at hroom ⊢
    have hwrite : (copyFromSlice (overwrite buf 0 head) 11 13 [0xc4, UInt8.ofNat (n + 32)] :
        Result Bytes) = .ok (overwrite buf 0 (head ++ [0xc4, UInt8.ofNat (n + 32)])) :=
      copyFromSlice_append (by rw [hhead]) rfl hroom
    rw [writeEntryHeader, if_pos rfl, run_copy_bind f hwrite, binPrefix, if_pos hshort]
  · rw [if_neg hshort] at hroom ⊢
    have hmark : storeByte (overwrite buf 0 head) 11 0xc5 = .ok (overwrite buf 0 (head ++ [0xc5])) :=
      storeByte_append (by rw [hhead]) (by omega)
    have hsize : (copyFromSlice (overwrite buf 0 (head ++ [0xc5])) 12 14 (toBe 2 (n + 32)) :
        Result Bytes) = .ok (overwrite buf 0 (head ++ [0xc5] ++ toBe 2 (n + 32))) :=
      copyFromSlice_append (by rw [List.length_append, hhead]; rfl) (by rw [toBe_length]) hroom
    rw [writeEntryHeader, if_neg (by decide), Exec.bind_assoc, run_store_bind _ hmark,
      run_copy_bind f hsize, binPrefix, if_neg hshort, if_pos hn, List.append_assoc]
    rfl

theorem writeHead_bind (timestamp : F64) (hroom : 11 ≤ buf.length) :
    (Exec.update (copyFromSlice · 0 2 [0x92, 0xcb]) >>= fun _ =>
      Exec.update (copyFromSlice · 2 10 timestamp.toBeBytes) >>= fun _ =>
        Exec.update (storeByte · 10 0x91) >>= f).run buf =
      (f ()).run (overwrite buf 0 ([0x92, 0xcb] ++ timestamp.toBeBytes ++ [0x91])) := by
  have htime := F64.toBeBytes_length timestamp
  have hmarks : (copyFromSlice buf 0 2 [0x92, 0xcb] : Result Bytes) =
      .ok (overwrite buf 0 [0x92, 0xcb]) :=
    copyFromSlice_eq rfl (by omega)
  have hclock : (copyFromSlice (overwrite buf 0 [0x92, 0xcb]) 2 10 timestamp.toBeBytes :
      Result Bytes) = .ok (overwrite buf 0 ([0x92, 0xcb] ++ timestamp.toBeBytes)) :=
    copyFromSlice_append rfl (by rw [htime]) (by omega)
  have hinner : storeByte (overwrite buf 0 ([0x92, 0xcb] ++ timestamp.toBeBytes)) 10 0x91 =
      .ok (overwrite buf 0 ([0x92, 0xcb] ++ timestamp.toBeBytes ++ [0x91])) :=
    storeByte_append (by rw [List.length_append, htime]; rfl) (by omega)
  rw [run_copy_bind _ hmarks, run_copy_bind _ hclock, run_store_bind _ hinner]

/-- The move reads the entry before anything is written over its head. -/
theorem copyWithin_entry {start : Nat} (hinside : encryptedLen ≤ buffer.length)
    (hroom : start + encryptedLen ≤ buffer.length) :
    (copyWithin buffer 0 encryptedLen start : Result Bytes) =
      .ok (overwrite buffer start (buffer.take encryptedLen)) := by
  rw [copyWithin_eq (Nat.zero_le _) hinside (by omega), List.extract_eq_take_drop]
  rfl

theorem overwrite_upload {entry : Bytes} {n : Nat} (timestamp : F64) (hentry : entry.length = n + 32)
    (hcount : n + 32 ≤ 65535) (hroom : n + 32 + entryStart n ≤ buf.length) :
    overwrite (overwrite buf (entryStart n) entry) 0
        ([0x92, 0xcb] ++ timestamp.toBeBytes ++ [0x91] ++ binPrefix (n + 32)) =
      overwrite buf 0 (uploadBytes timestamp entry) := by
  have hhead : entryStart n =
      0 + ([0x92, 0xcb] ++ timestamp.toBeBytes ++ [0x91] ++ binPrefix (n + 32)).length := by
    rw [entryStart_eq hcount]
    simp only [List.length_append, F64.toBeBytes_length, List.length_cons, List.length_nil]
    omega
  rw [uploadBytes, entriesBytes, binBytes, hentry, hhead,
    overwrite_before (by rw [← hhead, hentry]; omega)]
  simp only [List.append_assoc, List.cons_append, List.nil_append]

theorem uploadBytes_length {entry : Bytes} {n : Nat} (timestamp : F64) (hentry : entry.length = n + 32)
    (hcount : n + 32 ≤ 65535) : (uploadBytes timestamp entry).length = n + 32 + entryStart n := by
  rw [uploadBytes, entriesBytes, binBytes, hentry, entryStart_eq hcount]
  simp only [List.length_append, List.length_cons, List.length_nil, hentry, F64.toBeBytes_length]
  omega

/-- The entry moves up, the stamp follows it, and the rest is written below. -/
theorem wrapUpload_run (h : Wrappable P buffer encryptedLen timestamp) :
    (wrapUpload P encryptedLen stamp timestamp).run buffer =
      (.ok (encryptedLen + 32 + entryStart encryptedLen),
        overwrite buffer 0 (uploadBytes timestamp (buffer.take encryptedLen ++ stamp.val))) := by
  obtain ⟨hfinite, hleast, hinside, hcount, hroom⟩ := h
  have husize := P.usizeMax_ge
  have hstart : entryStart encryptedLen ≤ 14 := by
    rw [entryStart]
    split <;> omega
  have hentry : (buffer.take encryptedLen).length = encryptedLen := List.length_take_of_le hinside
  have hall : (buffer.take encryptedLen ++ stamp.val).length = encryptedLen + 32 := by
    rw [List.length_append, hentry, stamp.property]
  have hguard : ¬(timestamp.isFinite = false ∨ encryptedLen < 16 + P.eciesFixedOverhead + 16 ∨
      encryptedLen > buffer.length) := by
    rw [hfinite]
    rintro (hf | hf | hf)
    · cases hf
    · omega
    · omega
  have hfold : (if encryptedLen + 32 ≤ 0xff then 13 else 14) = entryStart encryptedLen := rfl
  have hmove : (copyWithin buffer 0 encryptedLen (entryStart encryptedLen) : Result Bytes) = _ :=
    copyWithin_entry hinside (by omega)
  have hbehind : (copyFromSlice
      (overwrite buffer (entryStart encryptedLen) (buffer.take encryptedLen))
      (entryStart encryptedLen + encryptedLen) (encryptedLen + 32 + entryStart encryptedLen)
      stamp.val : Result Bytes) = .ok (overwrite buffer (entryStart encryptedLen)
        (buffer.take encryptedLen ++ stamp.val)) :=
    copyFromSlice_append (by rw [hentry]) (by omega) hroom
  have hlen : (overwrite buffer (entryStart encryptedLen)
      (buffer.take encryptedLen ++ stamp.val)).length = buffer.length :=
    overwrite_length (by rw [hall]; omega)
  have hhead : ([0x92, 0xcb] ++ timestamp.toBeBytes ++ [0x91]).length = 11 := by
    rw [List.length_append, List.length_append, F64.toBeBytes_length]
    rfl
  rw [wrapUpload, Exec.run_get_bind, Exec.run_rejectIf_bind, if_neg hguard, Exec.run_rejectIf_bind,
    if_neg (by omega)]
  simp only [hfold]
  rw [Exec.run_rejectIf_bind, if_neg (by omega), Exec.run_rejectIf_bind, if_neg (by omega),
    Exec.run_rejectIf_bind, if_neg (by omega), run_copyWithin_bind _ hmove, run_copy_bind _ hbehind,
    writeHead_bind _ _ (by omega), writeEntryHeader_bind _ hhead hcount (by omega), Exec.run_pure,
    overwrite_upload timestamp hall hcount hroom]

theorem wrapUpload_fails (stamp : Block 32) (h : ¬Wrappable P buffer encryptedLen timestamp) :
    ∃ e, (wrapUpload P encryptedLen stamp timestamp).run buffer = (fail e, buffer) := by
  simp only [wrapUpload, Exec.run_get_bind, Exec.run_rejectIf_bind]
  have hfold : (if encryptedLen + 32 ≤ 0xff then 13 else 14) = entryStart encryptedLen := rfl
  by_cases hguard : timestamp.isFinite = false ∨ encryptedLen < 16 + P.eciesFixedOverhead + 16 ∨
      encryptedLen > buffer.length
  · rw [if_pos hguard]
    exact ⟨_, rfl⟩
  rw [if_neg hguard]
  by_cases hword : encryptedLen + 32 > P.usizeMax
  · rw [if_pos hword]
    exact ⟨_, rfl⟩
  rw [if_neg hword]
  by_cases hcount : encryptedLen + 32 > 0xffff
  · rw [if_pos hcount]
    exact ⟨_, rfl⟩
  rw [if_neg hcount, hfold]
  by_cases htotal : encryptedLen + 32 + entryStart encryptedLen > P.usizeMax
  · rw [if_pos htotal]
    exact ⟨_, rfl⟩
  rw [if_neg htotal, if_pos]
  · exact ⟨_, rfl⟩
  · by_contra hroom
    rw [not_or, not_or, Bool.not_eq_false] at hguard
    exact h ⟨hguard.1, by omega, by omega, by omega, by omega⟩

end Writes

section Decoding

variable {entry : Bytes}

theorem header_one (item : Bytes) : ArrayHeader [0x91] [item].length :=
  .fix (n := 1) (by decide) rfl

theorem header_two (first second : Bytes) : ArrayHeader [0x92] [first, second].length :=
  .fix (n := 2) (by decide) rfl

theorem entriesBytes_eq : entriesBytes entry = [0x91] ++ [binBytes entry].flatten := by
  rw [List.flatten_singleton, List.singleton_append, entriesBytes]

theorem entriesBytes_fetched (h : entry.length ≤ 0xffffffff) :
    fetchedMessage (entriesBytes entry) = .ok (some entry) := by
  have hb := blob_binBytes h
  exact fetchedMessage_eq_ok.mpr ⟨⟨[0x91], [binBytes entry], header_one _,
    List.forall_mem_singleton.mpr (hb.value (by decide))⟩, entriesBytes_eq,
    .inr ⟨binBytes entry, entry, rfl, hb, rfl⟩⟩

theorem uploadBytes_items (timestamp : F64) (h : entry.length ≤ 0xffffffff) :
    ∃ items, arrayItems (uploadBytes timestamp entry) = .ok items ∧
      Yields items [0xcb :: timestamp.toBeBytes, entriesBytes entry] := by
  have hclock : Value 8 1 (0xcb :: timestamp.toBeBytes) :=
    .inline (by decide) (by rfl) (F64.toBeBytes_length timestamp)
  have hentries : Value 8 1 (entriesBytes entry) := by
    rw [entriesBytes_eq]
    exact value_array (by decide) (header_one _)
      (List.forall_mem_singleton.mpr ((blob_binBytes h).value (by decide)))
  let a : ItemArray := ⟨[0x92], [0xcb :: timestamp.toBeBytes, entriesBytes entry], header_two _ _,
    List.forall_mem_cons.mpr ⟨hclock, List.forall_mem_singleton.mpr hentries⟩⟩
  have hbytes : uploadBytes timestamp entry = a.bytes := by
    rw [ItemArray.bytes, uploadBytes]
    simp [a]
  rw [hbytes]
  exact ⟨_, arrayItems_bytes a, yields_drop a (Nat.zero_add _)⟩

end Decoding

/-- An upload is written when it fits, and decodes to the entry and the stamp that
it was made of. -/
theorem wrapUpload_exact (P : Platform LocalIdentity VerifyingKey) (buffer : Bytes)
    (encryptedLen : Nat) (stamp : Block 32) (timestamp : F64) :
    (∀ total, (wrapUpload P encryptedLen stamp timestamp).eval buffer = .ok total ↔
      timestamp.isFinite = true ∧ 16 + P.eciesFixedOverhead + 16 ≤ encryptedLen ∧
      encryptedLen ≤ buffer.length ∧ encryptedLen + 32 ≤ 65535 ∧
      total = encryptedLen + (if encryptedLen + 32 > 255 then 46 else 45) ∧ total ≤ buffer.length) ∧
    ∀ total buffer', (wrapUpload P encryptedLen stamp timestamp).run buffer = (.ok total, buffer') →
      buffer'.length = buffer.length ∧ buffer'.drop total = buffer.drop total ∧
      ∃ items inner, arrayItems (buffer'.take total) = .ok items ∧
        Yields items [0xcb :: timestamp.toBeBytes, inner] ∧
        fetchedMessage inner = .ok (some (buffer.take encryptedLen ++ stamp.val)) := by
  have htotal : encryptedLen + (if encryptedLen + 32 > 255 then 46 else 45) =
      encryptedLen + 32 + entryStart encryptedLen := by
    rw [entryStart]
    split <;> split <;> omega
  constructor
  · intro total
    rw [htotal, Exec.eval]
    by_cases h : Wrappable P buffer encryptedLen timestamp
    · rw [wrapUpload_run h]
      constructor
      · intro he
        cases he
        exact ⟨h.finite, h.least, h.inside, h.countable, rfl, h.room⟩
      · rintro ⟨-, -, -, -, rfl, -⟩
        rfl
    · obtain ⟨e, he⟩ := wrapUpload_fails stamp h
      rw [he]
      constructor
      · intro hok
        exact absurd hok (fail_ne_ok _ _)
      · rintro ⟨hfinite, hleast, hinside, hcount, rfl, hroom⟩
        exact absurd ⟨hfinite, hleast, hinside, hcount, hroom⟩ h
  · intro total buffer' hrun
    by_cases h : Wrappable P buffer encryptedLen timestamp
    swap
    · obtain ⟨e, he⟩ := wrapUpload_fails stamp h
      rw [he] at hrun
      cases hrun
    rw [wrapUpload_run h] at hrun
    cases hrun
    have hentry : (buffer.take encryptedLen ++ stamp.val).length = encryptedLen + 32 := by
      rw [List.length_append, List.length_take_of_le h.inside, stamp.property]
    have hcount := h.countable
    have hlen : (uploadBytes timestamp (buffer.take encryptedLen ++ stamp.val)).length =
        encryptedLen + 32 + entryStart encryptedLen := by
      rw [uploadBytes, entriesBytes, binBytes, hentry, entryStart_eq hcount]
      simp only [List.length_append, List.length_cons, List.length_nil, hentry, F64.toBeBytes_length]
      omega
    have hsmall : (buffer.take encryptedLen ++ stamp.val).length ≤ 0xffffffff := by omega
    obtain ⟨items, hitems, hyields⟩ := uploadBytes_items timestamp hsmall
    refine ⟨overwrite_length (by rw [hlen]; have := h.room; omega), ?_, items, _, ?_, hyields,
      entriesBytes_fetched hsmall⟩
    · rw [← hlen, ← Nat.zero_add (uploadBytes timestamp _).length]
      exact overwrite_drop_end _ (Nat.zero_le _)
    · rw [← hlen, overwrite_start]
      exact hitems

end LxmfLite.Uploads
