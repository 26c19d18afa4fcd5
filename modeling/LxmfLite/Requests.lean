import LxmfLite.ExactNumbers
import LxmfLite.Uploads

namespace LxmfLite.Requests

open ByteString Execution SelfDelimiting MessagePack Grammar FloatingPoint Format Message Primitives
  Reader FieldLookup Propagation Payload Replies Arrays ReplyDecoding Stamping Uploads ExactNumbers

variable {LocalIdentity VerifyingKey : Type} {P : Platform LocalIdentity VerifyingKey}
  {out : Bytes} {timestamp : F64} {request : GetRequest}

structure Requestable (timestamp : F64) (request : GetRequest) (out : Bytes) : Prop where
  finite : timestamp.isFinite = true
  notBefore : timestamp.lt (.ofInt 0) = false
  limited : request.zeroLimit = false
  room : 28 + request.bodyLen ≤ out.length

def limitKb (limitBytes : UInt16) : F64 := F64.div (.ofInt limitBytes.toNat) (.ofInt 1000)

def floatBytes (x : F64) : Bytes := 0xcb :: x.toBeBytes

def dataBytes : GetRequest → Bytes
  | .list => [0x92, 0xc0, 0xc0]
  | .purge durableTransientId => [0x92, 0xc0, 0x91, 0xc4, 32] ++ durableTransientId.val
  | .fetch transientId limitBytes =>
      [0x93, 0x91, 0xc4, 32] ++ (transientId.val ++ ([0x90] ++ floatBytes (limitKb limitBytes)))

def pathHash (P : Platform LocalIdentity VerifyingKey) : Bytes := (P.sha256 getPath).val.take 16

def requestBytes (P : Platform LocalIdentity VerifyingKey) (timestamp : F64) (request : GetRequest) :
    Bytes :=
  [0x93, 0xcb] ++ (timestamp.toBeBytes ++ ([0xc4, 16] ++ (pathHash P ++ dataBytes request)))

theorem pathHash_length : (pathHash P).length = 16 :=
  List.length_take_of_le (by rw [(P.sha256 getPath).property]; omega)

theorem dataBytes_length (request : GetRequest) : (dataBytes request).length = request.bodyLen := by
  cases request with
  | list => rfl
  | purge id => rw [dataBytes, List.length_append, id.property]; rfl
  | fetch id limit =>
      simp only [dataBytes, floatBytes, List.length_append, List.length_cons, List.length_nil, id.property,
        F64.toBeBytes_length]
      rfl

section Writes

variable {β : Type} (f : Unit → Exec LxmfError Bytes β) {head : Bytes}

theorem writeBody_bind (request : GetRequest) (hhead : head.length = 28)
    (hroom : 28 + request.bodyLen ≤ out.length) :
    (writeBody request >>= f).run (overwrite out 0 head) =
      (f ()).run (overwrite out 0 (head ++ dataBytes request)) := by
  cases request with
  | list =>
      have hwrite : (copyFromSlice (overwrite out 0 head) 28 31 [0x92, 0xc0, 0xc0] : Result Bytes) = _ :=
        copyFromSlice_append (by rw [hhead]) rfl hroom
      rw [writeBody, run_copy_bind f hwrite, dataBytes]
  | purge id =>
      have hid := id.property
      have hmarks : (copyFromSlice (overwrite out 0 head) 28 33 [0x92, 0xc0, 0x91, 0xc4, 32] :
          Result Bytes) = _ :=
        copyFromSlice_append (by rw [hhead]) rfl (by rw [GetRequest.bodyLen] at hroom; omega)
      have hwrite : (copyFromSlice (overwrite out 0 (head ++ [0x92, 0xc0, 0x91, 0xc4, 32])) 33 65 id.val :
          Result Bytes) = _ :=
        copyFromSlice_append (by rw [List.length_append, hhead]; rfl) (by rw [hid]) hroom
      rw [writeBody, Exec.bind_assoc, run_copy_bind _ hmarks, run_copy_bind f hwrite, dataBytes,
        List.append_assoc]
  | fetch id limit =>
      have hid := id.property
      have hkb := F64.toBeBytes_length (limitKb limit)
      rw [GetRequest.bodyLen] at hroom
      have hmarks : (copyFromSlice (overwrite out 0 head) 28 32 [0x93, 0x91, 0xc4, 32] :
          Result Bytes) = _ :=
        copyFromSlice_append (by rw [hhead]) rfl (by omega)
      have hwant : (copyFromSlice (overwrite out 0 (head ++ [0x93, 0x91, 0xc4, 32])) 32 64 id.val :
          Result Bytes) = _ :=
        copyFromSlice_append (by rw [List.length_append, hhead]; rfl) (by rw [hid]) (by omega)
      have hhave : storeByte (overwrite out 0 (head ++ [0x93, 0x91, 0xc4, 32] ++ id.val)) 64 0x90 = _ :=
        storeByte_append (by simp only [List.length_append, hhead, hid]; rfl) (by omega)
      have hmark : storeByte (overwrite out 0 (head ++ [0x93, 0x91, 0xc4, 32] ++ id.val ++ [0x90])) 65 0xcb = _ :=
        storeByte_append (by simp only [List.length_append, hhead, hid]; rfl) (by omega)
      have hlimit : (copyFromSlice
          (overwrite out 0 (head ++ [0x93, 0x91, 0xc4, 32] ++ id.val ++ [0x90] ++ [0xcb])) 66 74
          (limitKb limit).toBeBytes : Result Bytes) = _ :=
        copyFromSlice_append (by simp only [List.length_append, hhead, hid]; rfl) (by rw [hkb]) hroom
      simp only [writeBody, Exec.bind_assoc]
      rw [run_copy_bind _ hmarks, run_copy_bind _ hwant, run_store_bind _ hhave, run_store_bind _ hmark]
      rw [limitKb] at hlimit
      rw [run_copy_bind f hlimit, dataBytes, floatBytes, limitKb]
      simp only [List.append_assoc, List.cons_append, List.nil_append]

theorem buildGetRequest_run (h : Requestable timestamp request out) :
    (buildGetRequest P timestamp request).run out =
      (.ok (28 + request.bodyLen), overwrite out 0 (requestBytes P timestamp request)) := by
  obtain ⟨hfinite, hbefore, hlimited, hroom⟩ := h
  have htime := F64.toBeBytes_length timestamp
  have hpath := pathHash_length (P := P)
  have hguard : ¬(timestamp.isFinite = false ∨ timestamp.lt (.ofInt 0) = true ∨ request.zeroLimit = true) := by
    rw [hfinite, hbefore, hlimited]
    decide
  have hfirst : storeByte out 0 0x93 = .ok (overwrite out 0 [0x93]) := storeByte_eq (by omega)
  have hmark : storeByte (overwrite out 0 [0x93]) 1 0xcb = _ := storeByte_append rfl (by omega)
  have hclock : (copyFromSlice (overwrite out 0 ([0x93] ++ [0xcb])) 2 10 timestamp.toBeBytes :
      Result Bytes) = _ :=
    copyFromSlice_append rfl (by rw [htime]) (by omega)
  have hbin : (copyFromSlice (overwrite out 0 ([0x93] ++ [0xcb] ++ timestamp.toBeBytes)) 10 12 [0xc4, 16] :
      Result Bytes) = _ :=
    copyFromSlice_append (by rw [List.length_append, htime]; rfl) rfl (by omega)
  have hslice : (slice (P.sha256 getPath).val 0 16 : Result Bytes) = .ok (pathHash P) := by
    have hsha := (P.sha256 getPath).property
    rw [slice, if_pos ⟨by omega, by omega⟩, pathHash]
    rfl
  have hwrite : (copyFromSlice (overwrite out 0 ([0x93] ++ [0xcb] ++ timestamp.toBeBytes ++ [0xc4, 16])) 12 28
      (pathHash P) : Result Bytes) = _ :=
    copyFromSlice_append (by simp only [List.length_append, htime]; rfl) (by rw [hpath]) (by omega)
  rw [buildGetRequest, Exec.run_rejectIf_bind, if_neg hguard]
  simp only
  rw [Exec.run_get_bind, Exec.run_rejectIf_bind, if_neg (by omega), run_store_bind _ hfirst,
    run_store_bind _ hmark, run_copy_bind _ hclock, run_copy_bind _ hbin, hslice, Exec.run_ok_bind,
    run_copy_bind _ hwrite, writeBody_bind _ request (by simp only [List.length_append, htime, hpath]; rfl) hroom,
    Exec.run_pure, requestBytes]
  simp only [List.append_assoc]
  rfl

theorem buildGetRequest_fails (P : Platform LocalIdentity VerifyingKey)
    (h : ¬Requestable timestamp request out) :
    ∃ e, (buildGetRequest P timestamp request).run out = (fail e, out) := by
  simp only [buildGetRequest, Exec.run_rejectIf_bind, Exec.run_get_bind]
  by_cases hguard : timestamp.isFinite = false ∨ timestamp.lt (.ofInt 0) = true ∨ request.zeroLimit = true
  · rw [if_pos hguard]
    exact ⟨_, rfl⟩
  rw [if_neg hguard, if_pos]
  · exact ⟨_, rfl⟩
  · by_contra hroom
    rw [not_or, not_or, Bool.not_eq_false, Bool.not_eq_true, Bool.not_eq_true] at hguard
    exact h ⟨hguard.1, hguard.2.1, hguard.2.2, by omega⟩

end Writes

section Limits

variable {limitBytes : UInt16}

theorem ofInt_datum_small {n : Nat} (h : n < 2 ^ 16) : (F64.ofInt n).datum = .finite n := by
  have hb := bound_datum (n := (n : Int)) (k := n) (j := 0) (by rw [Nat.pow_zero, Nat.mul_one]; rfl)
    (by omega) (by rw [Int.natAbs_natCast]; omega)
  rw [hb, Int.cast_natCast]

theorem divide_lt (x y : Nat) : binary64.divide x y < 2 ^ 64 := by
  have hinfinity : binary64.infinity = 0x7ff0000000000000 := by decide
  have hnan : binary64.quietNan = 0x7ff8000000000000 := by decide
  have hsign : binary64.signBit = 0x8000000000000000 := by decide
  have hsigned (negative : Bool) {p : Nat} (hp : p ≤ binary64.infinity) :
      binary64.withSign negative p < 2 ^ 64 := by
    rw [withSign]
    split <;> omega
  simp only [divide]
  split
  · split
    · exact round_lt _ _
    · split
      · exact hsigned _ le_rfl
      · omega
  · exact hsigned _ (Nat.zero_le _)
  · exact hsigned _ le_rfl
  · omega

/-- A limit is divided with an error far below a byte. -/
theorem limitKb_datum (hlimit : limitBytes ≠ 0) : ∃ v, (limitKb limitBytes).datum = .finite v ∧
    |v * 1000 - limitBytes.toNat| < 1 / 2 := by
  have hlt := limitBytes.toNat_lt
  have hpos : (0 : ℚ) < limitBytes.toNat := by
    have hne : limitBytes.toNat ≠ 0 := fun h => hlimit (UInt16.toNat_inj.mp h)
    exact_mod_cast Nat.pos_of_ne_zero hne
  have hle : (limitBytes.toNat : ℚ) ≤ 65536 := by exact_mod_cast hlt.le
  have hlimit' := ofInt_datum_small hlt
  have hthousand : (F64.ofInt 1000).datum = .finite 1000 := by
    exact_mod_cast ofInt_datum_small (n := 1000) (by norm_num)
  obtain ⟨x, hx⟩ : ∃ x : ℚ, x = limitBytes.toNat / 1000 := ⟨_, rfl⟩
  have hx0 : 0 < x := by rw [hx]; positivity
  have hx66 : x < 66 := by
    rw [hx, div_lt_iff₀ (by norm_num)]
    linarith
  have hfits : binary64.Fits x := by
    refine fits_of_lt (t := 1030) hx0.le ?_ (by decide)
    have hscale : binary64.scale = 1074 := by decide
    have hbits : binary64.fractionBits = 52 := rfl
    rw [hscale, hbits]
    calc x * 2 ^ 1074 ≤ 2 ^ 7 * 2 ^ 1074 :=
          mul_le_mul_of_nonneg_right (hx66.le.trans (by norm_num)) (by positivity)
      _ = 2 ^ (7 + 1074) := (pow_add 2 7 1074).symm
      _ < 2 ^ (52 + 1030 + 1) := pow_lt_pow_right₀ (by norm_num) (by norm_num)
  refine ⟨binary64.magnitude x, ?_, ?_⟩
  · have hdivide := decode_divide hlimit' hthousand hpos (by norm_num) (by rw [← hx]; exact hfits)
    rw [limitKb, F64.div, fromBits_datum (divide_lt _ _), hdivide, ← hx]
  · have herror := magnitude_error (f := binary64) hx0.le
    have hsmall : max (x / 2 ^ (binary64.fractionBits + 1)) (1 / 2 ^ (binary64.scale + 1)) ≤ 1 / 4096 := by
      refine max_le ?_ ?_
      · have hbits : binary64.fractionBits = 52 := rfl
        rw [hbits, div_le_div_iff₀ (by positivity) (by norm_num)]
        calc x * 4096 ≤ 66 * 4096 := mul_le_mul_of_nonneg_right hx66.le (by norm_num)
          _ ≤ 1 * 2 ^ (52 + 1) := by norm_num
      · have hscale : binary64.scale = 1074 := by decide
        rw [hscale]
        refine one_div_le_one_div_of_le (by norm_num) ?_
        calc (4096 : ℚ) = 2 ^ 12 := by norm_num
          _ ≤ 2 ^ (1074 + 1) := pow_le_pow_right₀ (by norm_num) (by norm_num)
    have hfactor : binary64.magnitude x * 1000 - limitBytes.toNat = (binary64.magnitude x - x) * 1000 := by
      rw [hx]
      ring
    rw [hfactor, abs_mul]
    have hthousand : |(1000 : ℚ)| = 1000 := by norm_num
    rw [hthousand]
    have hle := herror.trans hsmall
    linarith

example : limitKb 1 = ⟨0x3f50624dd2f1a9fc⟩ := by decide +kernel

end Limits

section Decoding

variable {data data' : Bytes}

/-- What the data of a request asks for, read with the iterators: the ids that are
wanted, the ids that are had, and the limit. -/
inductive Asks : GetRequest → Bytes → Prop
  | list {data : Bytes} {items : ArrayItems} (hi : arrayItems data = .ok items)
      (hy : Yields items [[0xc0], [0xc0]]) : Asks .list data
  | purge {data haves : Bytes} {items : ArrayItems} {id : Block 32} (hi : arrayItems data = .ok items)
      (hy : Yields items [[0xc0], haves]) (hid : availableAt haves 0 = .ok (some id, 1)) :
      Asks (.purge id) data
  | fetch {data wants haves limit : Bytes} {items : ArrayItems} {id : Block 32} {limitBytes : UInt16} {v : ℚ}
      (hi : arrayItems data = .ok items) (hy : Yields items [wants, haves, limit])
      (hid : availableAt wants 0 = .ok (some id, 1)) (hnone : availableAt haves 0 = .ok (none, 0))
      (hv : Exact limit v) (hround : |v * 1000 - limitBytes.toNat| < 1 / 2) :
      Asks (.fetch id limitBytes) data

theorem no_haves {o : Option (Block 32)} {n : Nat} : availableAt [0xc0] 0 ≠ .ok (o, n) := by
  intro h
  obtain ⟨a, -, ha, -⟩ := availableAt_eq_ok.mp h
  obtain ⟨m, tail, hm, hmark⟩ := a.exists_marker
  rw [hm] at ha
  cases ha
  exact absurd hmark (by decide)

theorem Asks.unique {request' : GetRequest} (h : Asks request data) (h' : Asks request' data) :
    request = request' := by
  cases h with
  | list hi hy =>
      cases h' with
      | list => rfl
      | purge hi' hy' hid' =>
          cases hi.symm.trans hi'
          cases hy.unique hy'
          exact absurd hid' no_haves
      | fetch hi' hy' =>
          cases hi.symm.trans hi'
          cases hy.unique hy'
  | purge hi hy hid =>
      cases h' with
      | list hi' hy' =>
          cases hi.symm.trans hi'
          cases hy.unique hy'
          exact absurd hid no_haves
      | purge hi' hy' hid' =>
          cases hi.symm.trans hi'
          cases hy.unique hy'
          cases hid.symm.trans hid'
          rfl
      | fetch hi' hy' =>
          cases hi.symm.trans hi'
          cases hy.unique hy'
  | @fetch _ _ _ _ _ _ limitBytes v hi hy hid hnone hv hround =>
      cases h' with
      | list hi' hy' =>
          cases hi.symm.trans hi'
          cases hy.unique hy'
      | purge hi' hy' =>
          cases hi.symm.trans hi'
          cases hy.unique hy'
      | @fetch _ _ _ _ _ _ limitBytes' v' hi' hy' hid' hnone' hv' hround' =>
          cases hi.symm.trans hi'
          cases hy.unique hy'
          cases hid.symm.trans hid'
          obtain rfl := hv.unique hv'
          have hclose : |(limitBytes.toNat : ℚ) - limitBytes'.toNat| < 1 := by
            rw [abs_lt] at *
            constructor <;> linarith
          have hsame : (limitBytes.toNat : Int) - limitBytes'.toNat = 0 :=
            Int.abs_lt_one_iff.mp (by exact_mod_cast hclose)
          rw [UInt16.toNat_inj.mp (Int.ofNat.inj (Int.sub_eq_zero.mp hsame))]

theorem nil_value {d : Nat} (hd : d ≤ 8) : Value 8 d [0xc0] := .inline hd (by rfl) rfl

theorem float_value {d : Nat} (hd : d ≤ 8) (x : F64) : Value 8 d (floatBytes x) :=
  .inline hd (by rfl) (F64.toBeBytes_length x)

def idBytes (id : Block 32) : Bytes := [0x91] ++ [[0xc4, 32] ++ id.val].flatten

theorem blob_id (id : Block 32) : Blob ([0xc4, 32] ++ id.val) id.val := by
  have hsmall : id.val.length ≤ 0xffffffff := by
    rw [id.property]
    omega
  have hb := blob_binBytes hsmall
  rw [binBytes, binPrefix, id.property] at hb
  exact hb

theorem blob_path (P : Platform LocalIdentity VerifyingKey) : Blob ([0xc4, 16] ++ pathHash P) (pathHash P) := by
  have hsmall : (pathHash P).length ≤ 0xffffffff := by
    rw [pathHash_length]
    omega
  have hb := blob_binBytes hsmall
  rw [binBytes, binPrefix, pathHash_length] at hb
  exact hb

theorem idBytes_value {d : Nat} (hd : d < 8) (id : Block 32) : Value 8 d (idBytes id) :=
  value_array hd.le (header_one _) (List.forall_mem_singleton.mpr ((blob_id id).value hd))

theorem idBytes_available (id : Block 32) : availableAt (idBytes id) 0 = .ok (some id, 1) :=
  availableAt_eq_ok.mpr ⟨⟨[0x91], [[0xc4, 32] ++ id.val], header_one _,
    List.forall_mem_singleton.mpr ((blob_id id).value (by decide))⟩, [id], rfl,
    .cons (blob_id id) .nil, rfl, rfl⟩

theorem none_available : availableAt [0x90] 0 = .ok (none, 0) :=
  availableAt_eq_ok.mpr ⟨⟨[0x90], [], .fix (n := 0) (by decide) rfl, List.forall_mem_nil _⟩, [], rfl,
    .nil, rfl, rfl⟩

theorem none_value {d : Nat} (hd : d ≤ 8) : Value 8 d [0x90] := by
  have hheader : ArrayHeader [0x90] ([] : List Bytes).length := .fix (n := 0) (by decide) rfl
  exact value_array hd hheader (List.forall_mem_nil _)

theorem exact_floatBytes {x : F64} {v : ℚ} (h : x.datum = .finite v) : Exact (floatBytes x) v := by
  refine .float64 rfl (F64.toBeBytes_length x) ?_
  rw [F64.toBeBytes, ofBe_toBe_of_lt x.bits.toNat_lt]
  exact h

def dataItems : GetRequest → List Bytes
  | .list => [[0xc0], [0xc0]]
  | .purge durableTransientId => [[0xc0], idBytes durableTransientId]
  | .fetch transientId limitBytes => [idBytes transientId, [0x90], floatBytes (limitKb limitBytes)]

def dataHeader : GetRequest → Bytes
  | .fetch _ _ => [0x93]
  | _ => [0x92]

theorem dataHeader_counts (request : GetRequest) :
    ArrayHeader (dataHeader request) (dataItems request).length := by
  cases request with
  | list => exact header_two _ _
  | purge id => exact header_two _ _
  | fetch id limitBytes => exact .fix (n := 3) (by decide) rfl

theorem dataItems_value {d : Nat} (hd : d < 8) (request : GetRequest) :
    ∀ item ∈ dataItems request, Value 8 d item := by
  cases request with
  | list => exact List.forall_mem_cons.mpr ⟨nil_value hd.le, List.forall_mem_singleton.mpr (nil_value hd.le)⟩
  | purge id =>
      exact List.forall_mem_cons.mpr ⟨nil_value hd.le, List.forall_mem_singleton.mpr (idBytes_value hd id)⟩
  | fetch id limitBytes =>
      exact List.forall_mem_cons.mpr ⟨idBytes_value hd id, List.forall_mem_cons.mpr
        ⟨none_value hd.le, List.forall_mem_singleton.mpr (float_value hd.le _)⟩⟩

theorem dataBytes_eq (request : GetRequest) :
    dataBytes request = dataHeader request ++ (dataItems request).flatten := by
  cases request with
  | list => rfl
  | purge id => simp [dataBytes, dataHeader, dataItems, idBytes]
  | fetch id limitBytes => simp [dataBytes, dataHeader, dataItems, idBytes]

theorem asks_dataBytes (h : request.zeroLimit = false) : Asks request (dataBytes request) := by
  obtain ⟨items, hi, hy⟩ := array_yields (dataHeader_counts request) (dataItems_value (by decide) request)
    (dataBytes_eq request)
  cases request with
  | list => exact .list hi hy
  | purge id => exact .purge hi hy (idBytes_available id)
  | fetch id limitBytes =>
      obtain ⟨v, hv, hround⟩ := limitKb_datum (of_decide_eq_false h)
      exact .fetch hi hy (idBytes_available id) none_available (exact_floatBytes hv) hround

theorem requestBytes_yields (P : Platform LocalIdentity VerifyingKey) (timestamp : F64) (request : GetRequest) :
    ∃ items, arrayItems (requestBytes P timestamp request) = .ok items ∧
      Yields items [floatBytes timestamp, [0xc4, 16] ++ pathHash P, dataBytes request] := by
  have hheader : ArrayHeader [0x93]
      [floatBytes timestamp, [0xc4, 16] ++ pathHash P, dataBytes request].length :=
    .fix (n := 3) (by decide) rfl
  have hdata : Value 8 1 (dataBytes request) := by
    rw [dataBytes_eq]
    exact value_array (by decide) (dataHeader_counts request) (dataItems_value (by decide) request)
  refine array_yields hheader (List.forall_mem_cons.mpr ⟨float_value (by decide) _, List.forall_mem_cons.mpr
    ⟨(blob_path P).value (by decide), List.forall_mem_singleton.mpr hdata⟩⟩) ?_
  simp [requestBytes, floatBytes]

theorem requestBytes_length (P : Platform LocalIdentity VerifyingKey) (timestamp : F64) (request : GetRequest) :
    (requestBytes P timestamp request).length = 28 + request.bodyLen := by
  simp only [requestBytes, List.length_append, List.length_cons, List.length_nil, F64.toBeBytes_length,
    pathHash_length, dataBytes_length]
  omega

end Decoding

/-- A request is built when the clock and the limit make sense and it fits, and
decodes to what was asked for and to nothing else, the limit to the byte. -/
theorem buildGetRequest_asks (P : Platform LocalIdentity VerifyingKey) (timestamp : F64)
    (request : GetRequest) (out : Bytes) :
    (∀ total, (buildGetRequest P timestamp request).eval out = .ok total ↔
      Requestable timestamp request out ∧ total = 28 + request.bodyLen) ∧
    ∀ total written, (buildGetRequest P timestamp request).run out = (.ok total, written) →
      written.length = out.length ∧ written.drop total = out.drop total ∧
      ∃ items path data, arrayItems (written.take total) = .ok items ∧
        Yields items [floatBytes timestamp, path, data] ∧ valueAsBytes path = .ok (pathHash P) ∧
        Asks request data ∧ ∀ request', Asks request' data → request' = request := by
  by_cases h : Requestable timestamp request out
  · have hrun := buildGetRequest_run (P := P) h
    have hroom := h.room
    have hlen := requestBytes_length P timestamp request
    constructor
    · intro total
      rw [Exec.eval, hrun]
      constructor
      · intro he
        cases he
        exact ⟨h, rfl⟩
      · rintro ⟨-, rfl⟩
        rfl
    · intro total written hbuilt
      cases hrun.symm.trans hbuilt
      obtain ⟨items, hi, hy⟩ := requestBytes_yields P timestamp request
      have htake := overwrite_start out (requestBytes P timestamp request)
      have hasks := asks_dataBytes h.limited
      have hdrop := overwrite_drop_end (requestBytes P timestamp request) (Nat.zero_le out.length)
      rw [hlen] at htake hdrop
      rw [Nat.zero_add] at hdrop
      refine ⟨overwrite_length (by omega), hdrop, items, _, _, ?_, hy, ?_, hasks, fun _ h' => h'.unique hasks⟩
      · rw [htake, hi]
      · exact (valueAsBytes_eq_ok (complete_iff.mpr ((blob_path P).value (by decide)))).mpr (blob_path P)
  · obtain ⟨e, hrun⟩ := buildGetRequest_fails P h
    rw [Exec.eval, hrun]
    constructor
    · intro total
      exact iff_of_false (fail_ne_ok _ _) (fun h' => h h'.1)
    · intro total written hbuilt
      cases hbuilt

end LxmfLite.Requests
