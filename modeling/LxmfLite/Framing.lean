import LxmfLite.Payload

namespace LxmfLite.Framing

open ByteString Execution SelfDelimiting MessagePack KeyedMap Message Reader Skipping FieldMaps
  Writer Encoder Wire Payload

variable {fields : OuterFields} {admitted : PayloadFields Bytes} {timestamp : F64}
  {title content : Bytes}

def admission : OuterFields → Result (PayloadFields Bytes)
  | .empty => .ok .empty
  | .audio field => .ok (.audio field.mode field.bytes)
  | .encoded entries => do
      let present ← encodedFieldSet entries
      pure (.encoded entries present)

def Refused (e : LxmfError) : Prop := e = .tooManyFields ∨ e = .duplicateField ∨ e = .malformedPayload

theorem admitFields_cases (entries : List EncodedField) (present : IdSet) :
    (∃ admitted, admitFields entries present = .ok admitted) ∨
      ∃ e, Refused e ∧ admitFields entries present = fail e := by
  induction entries generalizing present with
  | nil => exact .inl ⟨present, rfl⟩
  | cons entry entries ih =>
      obtain ⟨id, value⟩ := entry
      simp only [admitFields, rejectIf_bind]
      split
      · exact .inr ⟨_, .inr (.inl rfl), rfl⟩
      rcases malformed_skipValue value 0 1 with ⟨last, hs⟩ | hs
      · rw [hs, ok_bind]
        split
        · exact .inr ⟨_, .inr (.inr rfl), rfl⟩
        · exact ih _
      · rw [hs]
        exact .inr ⟨_, .inr (.inr rfl), rfl⟩

theorem encodedFieldSet_cases (entries : List EncodedField) :
    (∃ admitted, encodedFieldSet entries = .ok admitted) ∨
      ∃ e, Refused e ∧ encodedFieldSet entries = fail e := by
  rw [encodedFieldSet, rejectIf_bind]
  split
  · exact .inr ⟨_, .inl rfl, rfl⟩
  · exact admitFields_cases entries .empty

theorem admission_cases (fields : OuterFields) :
    (∃ admitted, admission fields = .ok admitted) ∨ ∃ e, Refused e ∧ admission fields = fail e := by
  cases fields with
  | empty => exact .inl ⟨_, rfl⟩
  | audio field => exact .inl ⟨_, rfl⟩
  | encoded entries =>
      rw [admission]
      rcases encodedFieldSet_cases entries with ⟨present, hp⟩ | ⟨e, he, hp⟩
      · exact .inl ⟨_, by rw [hp]; rfl⟩
      · exact .inr ⟨e, he, by rw [hp]; rfl⟩

theorem wire_mapHeaderSteps {count : Nat} (h : count ≤ 64) :
    wire (mapHeaderSteps count) = some (mapPrefix count) := by
  rw [mapHeaderSteps, mapPrefix]
  rw [if_neg (by rw [maxFields]; omega)]
  split <;> rfl

theorem ofNat_or (n : Nat) (h : n < 16) : (0x80 ||| UInt8.ofNat n).toNat = 0x80 + n := by
  have hd : ∀ n : Fin 16, (0x80 ||| UInt8.ofNat n.val).toNat = 0x80 + n.val := by
    decide +kernel
  exact hd ⟨n, h⟩

theorem mapHeader_mapPrefix {count : Nat} (h : count ≤ 64) : MapHeader (mapPrefix count) count := by
  rw [mapPrefix]
  split
  next hc => exact .fix hc (ofNat_or count hc)
  next hc =>
    have hn : ofBe [0, UInt8.ofNat count] = count := by
      rw [ofBe_cons, ofBe_singleton, toNat_ofNat_of_lt (by omega)]
      simp
    have hc : MapHeader (0xde :: [0, UInt8.ofNat count]) (ofBe [0, UInt8.ofNat count]) :=
      .counted (k := 0) (by omega) rfl rfl
    rwa [hn] at hc

theorem integer_uintBytes (n : UInt8) : Integer (uintBytes n) n.toNat := by
  rw [uintBytes]
  split
  next hc => exact .fix hc
  next hc =>
    rw [← ofBe_singleton]
    exact .unsigned (k := 0) (by omega) rfl rfl

theorem value_audio {mode : UInt8} {bytes : Bytes} {limit depth : Nat}
    (hb : bytes.length ≤ 0xffffffff) (hd : depth + 1 ≤ limit) :
    Value limit depth (0x92 :: (uintBytes mode ++ binBytes bytes)) := by
  have h : Value limit depth (0x92 :: [uintBytes mode, binBytes bytes].flatten) := by
    refine .nested (by omega) (layout_fixarray (m := 0x92) (n := 2) rfl (by omega)) rfl (fun item hm => ?_)
    rcases List.mem_cons.mp hm with rfl | hm
    · exact (integer_uintBytes mode).value hd
    · obtain rfl := List.mem_singleton.mp hm
      exact (blob_binBytes hb).value hd
  simpa using h

/-- What the encoder relies on when it writes the fields. -/
structure Admitted (depth : Nat) (fields : OuterFields) : Prop where
  count : fields.entries.length ≤ 64
  nodup : (fields.entries.map Prod.fst).Nodup
  values : ∀ entry ∈ fields.entries, Value 8 depth entry.2

theorem admission_ok (h : admission fields = .ok admitted) (he : fields.Encodable) : Admitted 1 fields := by
  cases fields with
  | empty => exact ⟨Nat.zero_le _, List.nodup_nil, nofun⟩
  | audio field =>
      refine ⟨show 1 ≤ 64 by omega, List.nodup_singleton _, ?_⟩
      rintro entry hm
      obtain rfl := List.mem_singleton.mp hm
      exact value_audio he (by omega)
  | encoded entries =>
      obtain ⟨present, hp, -⟩ := bind_eq_ok.mp h
      obtain ⟨hl, hn, hv, -⟩ := encodedFieldSet_ok hp
      have hperm := ordered_perm hn
      refine ⟨?_, ?_, fun entry hm => hv entry (hperm.mem_iff.mp hm)⟩
      · exact hperm.length_eq ▸ hl
      · exact (hperm.map Prod.fst).nodup_iff.mpr hn

theorem entries_bytes {entries : List EncodedField} {depth : Nat}
    (hv : ∀ entry ∈ entries, Value 8 depth entry.2) :
    Entries 8 depth (entries.flatMap entryBytes)
      (entries.map (fun entry => ((entry.1.toNat : Int), entry.2))) := by
  induction entries with
  | nil => exact .nil
  | cons entry entries ih =>
      rw [List.forall_mem_cons] at hv
      rw [List.flatMap_cons, List.map_cons, entryBytes, List.append_assoc]
      exact .cons (integer_uintBytes entry.1) hv.1 (ih hv.2)

theorem fieldMap_bytes {depth : Nat} (h : Admitted depth fields) :
    FieldMap depth fields.bytes
      (fields.entries.map (fun entry => ((entry.1.toNat : Int), entry.2))) := by
  refine ⟨⟨?_, entries_bytes h.values, ?_⟩, ?_⟩
  · rw [List.length_map]
    exact mapHeader_mapPrefix h.count
  · have hkeys : keys (fields.entries.map (fun entry => ((entry.1.toNat : Int), entry.2))) =
        (fields.entries.map Prod.fst).map (fun id => (id.toNat : Int)) := by
      simp only [keys, List.map_map, Function.comp_def]
    rw [hkeys]
    apply h.nodup.map
    intro a b hab
    exact byte_ext (Int.ofNat_inj.mp hab)
  · rw [List.length_map]
    exact h.count

theorem wire_writes (entries : List EncodedField) :
    wire (entries.map (fun entry => .write entry.2)) = some (entries.flatMap Prod.snd) := by
  induction entries with
  | nil => rfl
  | cons entry entries ih =>
      rw [List.map_cons, wire_cons_ok rfl, ih]
      rfl

theorem wire_entrySteps {entries : List EncodedField} {present : IdSet}
    (hn : (entries.map Prod.fst).Nodup)
    (hp : ∀ id, present.contains id = decide (id ∈ entries.map Prod.fst)) (id : UInt8) :
    wire (entrySteps entries present id) =
      some ((entries.filter (·.1 = id)).flatMap entryBytes) := by
  rw [entrySteps, hp id]
  by_cases hm : id ∈ entries.map Prod.fst
  · rw [if_pos (decide_eq_true hm), wire_cons_ok rfl, wire_writes]
    obtain ⟨entry, he, rfl⟩ := List.mem_map.mp hm
    rw [filter_of_mem hn he]
    simp [entryBytes]
  · rw [if_neg (by simpa using hm), List.filter_eq_nil_iff.mpr]
    · rfl
    · intro entry he hid
      exact hm (List.mem_map.mpr ⟨entry, he, by simpa using hid⟩)

theorem wire_flatMap {f : UInt8 → List (Step Bytes)} {g : UInt8 → Bytes}
    (h : ∀ id, wire (f id) = some (g id)) (ids : List UInt8) :
    wire (ids.flatMap f) = some (ids.flatMap g) := by
  induction ids with
  | nil => rfl
  | cons id ids ih => rw [List.flatMap_cons, wire_append (h id), ih, List.flatMap_cons, Option.map_some]

/-- The scan over the ids writes the entries in the order of their ids. -/
theorem wire_encoded {entries : List EncodedField} {present : IdSet} (hl : entries.length ≤ maxFields)
    (hn : (entries.map Prod.fst).Nodup)
    (hset : ∀ id, present.contains id = decide (id ∈ entries.map Prod.fst)) :
    wire (fieldsSteps List.length (.encoded entries present)) =
      some (OuterFields.encoded entries).bytes := by
  rw [fieldsSteps, wire_append (wire_mapHeaderSteps hl), wire_flatMap (wire_entrySteps hn hset),
    Option.map_some, OuterFields.bytes, OuterFields.entries, ordered, List.flatMap_assoc, ← ordered,
    (ordered_perm hn).length_eq]

theorem wire_fieldsSteps (h : admission fields = .ok admitted) (he : fields.Encodable) :
    wire (fieldsSteps List.length admitted) = some fields.bytes := by
  have hcount := (admission_ok h he).count
  rw [OuterFields.bytes]
  cases fields with
  | empty =>
      cases h
      exact wire_mapHeaderSteps (by omega)
  | audio field =>
      cases h
      rw [fieldsSteps, wire_append (wire_mapHeaderSteps (by omega)), List.cons_append,
        wire_cons_ok rfl, List.cons_append, wire_cons_ok rfl, List.nil_append, wire_binSteps he]
      simp [OuterFields.entries, entryBytes, uintBytes, fieldAudio]
  | encoded entries =>
      obtain ⟨present, hp, hpure⟩ := bind_eq_ok.mp h
      cases hpure
      obtain ⟨hl, hn, -, hset⟩ := encodedFieldSet_ok hp
      exact wire_encoded hl hn hset

def Encodable (title content : Bytes) (fields : OuterFields) : Prop :=
  title.length ≤ 0xffffffff ∧ content.length ≤ 0xffffffff ∧ fields.Encodable

theorem wire_payloadSteps (timestamp : F64) (h : admission fields = .ok admitted)
    (he : Encodable title content fields) :
    wire (payloadSteps List.length timestamp title content admitted) =
      some (payloadBytes timestamp title content fields) := by
  rw [payloadSteps, List.cons_append, wire_cons_ok rfl, List.cons_append, wire_cons_ok rfl,
    List.nil_append, wire_append (wire_binSteps he.1), wire_append (wire_binSteps he.2.1),
    wire_fieldsSteps h he.2.2]
  rfl

theorem wire_payloadSteps_none (h : admission fields = .ok admitted)
    (he : ¬Encodable title content fields) :
    wire (payloadSteps List.length timestamp title content admitted) = none := by
  rw [payloadSteps, List.cons_append, wire_cons_ok rfl, List.cons_append, wire_cons_ok rfl,
    List.nil_append]
  simp only [Option.map_eq_none_iff]
  by_cases ht : title.length ≤ 0xffffffff
  · rw [wire_append (wire_binSteps ht), Option.map_eq_none_iff]
    by_cases hc : content.length ≤ 0xffffffff
    · rw [wire_append (wire_binSteps hc), Option.map_eq_none_iff]
      cases fields with
      | empty => exact absurd ⟨ht, hc, trivial⟩ he
      | audio field =>
          cases h
          rw [fieldsSteps, wire_append (wire_mapHeaderSteps (by omega)), List.cons_append,
            wire_cons_ok rfl, List.cons_append, wire_cons_ok rfl, List.nil_append,
            wire_binSteps_none (fun hf => he ⟨ht, hc, hf⟩)]
          rfl
      | encoded entries =>
          obtain ⟨present, hp, -⟩ := bind_eq_ok.mp h
          obtain ⟨hl, hn, -⟩ := encodedFieldSet_ok hp
          exact absurd ⟨ht, hc, hl, hn⟩ he
    · exact wire_append_none (wire_binSteps_none hc)
  · exact wire_append_none (wire_binSteps_none ht)

theorem reject_binSteps {α : Type} {fieldLen : α → Nat} {field : α} {e : LxmfError}
    (h : .reject e ∈ binSteps fieldLen field) : e = .tooLong := by
  rw [binSteps, binHeaderSteps] at h
  split at h
  · simp at h
  split at h
  · simp at h
  split at h
  · simpa using h
  · simp at h

theorem reject_mapHeaderSteps {α : Type} {count : Nat} (hc : count ≤ 64) {e : LxmfError} :
    (.reject e : Step α) ∉ mapHeaderSteps count := by
  rw [mapHeaderSteps]
  rw [if_neg (by rw [maxFields]; omega)]
  split <;> simp

/-- Behind the admission of the fields the encoder has one error of its own. -/
theorem reject_payloadSteps (h : admission fields = .ok admitted) {e : LxmfError}
    (hm : .reject e ∈ payloadSteps List.length timestamp title content admitted) : e = .tooLong := by
  rw [payloadSteps, List.mem_append, List.mem_append, List.mem_append] at hm
  rcases hm with hm | hm | hm | hm
  · simp at hm
  · exact reject_binSteps hm
  · exact reject_binSteps hm
  · cases fields with
    | empty =>
        cases h
        exact absurd hm (reject_mapHeaderSteps (by omega))
    | audio field =>
        cases h
        rw [fieldsSteps, List.mem_append, List.mem_append] at hm
        rcases hm with hm | hm | hm
        · exact absurd hm (reject_mapHeaderSteps (by omega))
        · simp at hm
        · exact reject_binSteps hm
    | encoded entries =>
        obtain ⟨present, hp, hpure⟩ := bind_eq_ok.mp h
        cases hpure
        rw [fieldsSteps, List.mem_append, List.mem_flatMap] at hm
        rcases hm with hm | ⟨id, -, hm⟩
        · exact absurd hm (reject_mapHeaderSteps (encodedFieldSet_ok hp).1)
        · rw [entrySteps] at hm
          split at hm
          · simp at hm
          · simp at hm

section Pack

variable {usizeMax : Nat} {out : Bytes}

theorem packPayload_ok (h : admission fields = .ok admitted) (he : Encodable title content fields)
    (hmax : (payloadBytes timestamp title content fields).length ≤ usizeMax)
    (hout : (payloadBytes timestamp title content fields).length ≤ out.length) :
    (packPayload usizeMax timestamp title content admitted).run out =
      (.ok (payloadBytes timestamp title content fields).length,
        overwrite out 0 (payloadBytes timestamp title content fields)) := by
  have hr := replay_slice usizeMax ⟨out, 0⟩ (wire_payloadSteps timestamp h he) (by simpa using hmax)
    (by simpa using hout)
  rw [Exec.run, packPayload, writePayload_eq]
  simp only [sliceWriter] at hr ⊢
  rw [hr, Nat.zero_add]

theorem packPayload_fails (h : admission fields = .ok admitted)
    (hfit : ¬(Encodable title content fields ∧
      (payloadBytes timestamp title content fields).length ≤ usizeMax ∧
      (payloadBytes timestamp title content fields).length ≤ out.length)) :
    ∃ e out', (packPayload usizeMax timestamp title content admitted).run out = (fail e, out') ∧
      out'.length = out.length ∧ (e = .tooLong ∨ e = .outputTooSmall) := by
  have hnot : ∀ bytes, wire (payloadSteps List.length timestamp title content admitted) = some bytes →
      ¬(0 + bytes.length ≤ usizeMax ∧ 0 + bytes.length ≤ out.length) := by
    intro bytes hb hle
    by_cases he : Encodable title content fields
    · rw [wire_payloadSteps _ h he] at hb
      cases hb
      rw [Nat.zero_add] at hle
      exact hfit ⟨he, hle⟩
    · rw [wire_payloadSteps_none h he] at hb
      cases hb
  obtain ⟨e, w, hr, hl, herr⟩ := replay_slice_fails usizeMax ⟨out, 0⟩
    ⟨Nat.zero_le _, Nat.zero_le _⟩ hnot
  refine ⟨e, w.output, ?_, hl, ?_⟩
  · rw [Exec.run, packPayload, writePayload_eq]
    simp only [sliceWriter] at hr ⊢
    rw [hr]
    rfl
  · rcases herr with rfl | rfl | hm
    · exact .inl rfl
    · exact .inr rfl
    · exact .inl (reject_payloadSteps h hm)

end Pack

section Size

variable {usizeMax : Nat}

def lengths : PayloadFields Bytes → PayloadFields Nat
  | .empty => .empty
  | .audio mode bytes => .audio mode bytes.length
  | .encoded entries present => .encoded entries present

theorem mapStep_binHeaderSteps {α β : Type} (g : α → β) (length : Nat) :
    (binHeaderSteps length).map (mapStep g) = binHeaderSteps length := by
  simp only [binHeaderSteps]
  split
  · rfl
  split
  · rfl
  split <;> rfl

theorem mapStep_mapHeaderSteps {α β : Type} (g : α → β) (count : Nat) :
    (mapHeaderSteps count).map (mapStep g) = mapHeaderSteps count := by
  simp only [mapHeaderSteps]
  split
  · rfl
  split <;> rfl

theorem mapStep_binSteps (field : Bytes) :
    (binSteps List.length field).map (mapStep List.length) = binSteps id field.length := by
  rw [binSteps, List.map_append, mapStep_binHeaderSteps]
  rfl

theorem mapStep_entrySteps {α β : Type} (g : α → β) (entries : List EncodedField) (present : IdSet)
    (id : UInt8) :
    (entrySteps entries present id).map (mapStep g) = entrySteps entries present id := by
  simp only [entrySteps]
  split
  · rw [List.map_cons, List.map_map]
    rfl
  · rfl

/-- Counting makes the calls of copying, a length in place of each field. -/
theorem payloadSteps_lengths : payloadSteps id timestamp title.length content.length (lengths admitted) =
    (payloadSteps List.length timestamp title content admitted).map (mapStep List.length) := by
  simp only [payloadSteps, List.map_append, mapStep_binSteps]
  congr 3
  cases admitted with
  | empty => exact (mapStep_mapHeaderSteps _ 0).symm
  | audio mode bytes =>
      simp only [lengths, fieldsSteps, List.map_append, mapStep_mapHeaderSteps, mapStep_binSteps]
      rfl
  | encoded entries present =>
      simp only [lengths, fieldsSteps, List.map_append, mapStep_mapHeaderSteps, List.map_flatMap,
        mapStep_entrySteps]

theorem mapPrefix_pos (count : Nat) : 1 ≤ (mapPrefix count).length := by
  rw [mapPrefix]
  split <;> simp

theorem payloadBytes_length (timestamp : F64) : (payloadBytes timestamp title content fields).length =
    10 + ((binBytes title).length + ((binBytes content).length + fields.bytes.length)) := by
  simp only [payloadBytes, List.length_append, F64.toBeBytes_length, List.length_cons,
    List.length_nil]
  omega

theorem payloadBytes_length_ge : 15 ≤ (payloadBytes timestamp title content fields).length := by
  have htitle := binPrefix_pos title.length
  have hcontent := binPrefix_pos content.length
  have hfields := mapPrefix_pos fields.entries.length
  simp only [payloadBytes_length, binBytes, OuterFields.bytes, List.length_append]
  omega

theorem countPayload_ok (timestamp : F64) (h : admission fields = .ok admitted)
    (he : Encodable title content fields)
    (hmax : lxmfPackedPrefix + (payloadBytes timestamp title content fields).length ≤ usizeMax) :
    countPayload usizeMax title.length content.length (lengths admitted) =
      .ok (lxmfPackedPrefix + (payloadBytes timestamp title content fields).length) := by
  rw [payloadBytes_length, ← payloadBytes_length ⟨0⟩] at hmax ⊢
  have hlen := wireLen_map (payloadSteps List.length ⟨0⟩ title content admitted)
  rw [← payloadSteps_lengths, wire_payloadSteps _ h he, Option.map_some] at hlen
  have hr := replay_size hlen hmax
  rw [countPayload, writePayload_eq]
  simp only [sizeWriter] at hr ⊢
  rw [hr]

theorem countPayload_fails (timestamp : F64) (h : admission fields = .ok admitted)
    (hge : 0xffffffff ≤ usizeMax)
    (hfit : ¬(Encodable title content fields ∧
      lxmfPackedPrefix + (payloadBytes timestamp title content fields).length ≤ usizeMax)) :
    countPayload usizeMax title.length content.length (lengths admitted) = fail .tooLong := by
  rw [payloadBytes_length, ← payloadBytes_length ⟨0⟩] at hfit
  have hlen := wireLen_map (payloadSteps List.length ⟨0⟩ title content admitted)
  rw [← payloadSteps_lengths] at hlen
  obtain ⟨e, size, hr, herr⟩ := replay_size_fails
    (payloadSteps id ⟨0⟩ title.length content.length (lengths admitted))
    (show lxmfPackedPrefix ≤ usizeMax by rw [lxmfPackedPrefix_eq]; omega) (fun length hw hle => by
      by_cases he : Encodable title content fields
      · rw [hlen, wire_payloadSteps _ h he] at hw
        cases hw
        exact hfit ⟨he, hle⟩
      · rw [hlen, wire_payloadSteps_none h he] at hw
        cases hw)
  obtain rfl : e = .tooLong := by
    rcases herr with rfl | hm
    · rfl
    · rw [payloadSteps_lengths, List.mem_map] at hm
      obtain ⟨step, hm, hs⟩ := hm
      cases step with
      | reject e' =>
          cases hs
          exact reject_payloadSteps h hm
      | write bytes => cases hs
      | field f => cases hs
  rw [countPayload, writePayload_eq]
  simp only [sizeWriter] at hr ⊢
  rw [hr]
  rfl

end Size

end LxmfLite.Framing
