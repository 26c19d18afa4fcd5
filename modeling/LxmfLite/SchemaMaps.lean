import LxmfLite.FieldLookup

namespace LxmfLite.SchemaMaps

open ByteString Execution SelfDelimiting MessagePack KeyedMap Pairing Message Reader Skipping
  FieldReading FieldMaps Contracts Bounds FieldLookup

variable {isUtf8 : Bytes → Bool} {map : Bytes} {pos e count : Nat}

/-- The keys of a structured field: integers, and strings of valid text. -/
inductive Schema (isUtf8 : Bytes → Bool) : Bytes → SchemaKey → Prop
  | integer {enc : Bytes} {id : FieldId} (h : Integer enc id.val) : Schema isUtf8 enc (.integer id)
  | text {enc payload : Bytes} (h : Text enc payload) (hu : isUtf8 payload = true) :
      Schema isUtf8 enc (.text payload)

theorem Schema.ne_nil {enc : Bytes} {key : SchemaKey} (h : Schema isUtf8 enc key) : enc ≠ [] := by
  cases h with
  | integer h => exact h.ne_nil
  | text h => exact h.blob.ne_nil

abbrev TextMarker (m : UInt8) : Prop :=
  (0xa0 ≤ m.toNat ∧ m.toNat ≤ 0xbf) ∨ (0xd9 ≤ m.toNat ∧ m.toNat ≤ 0xdb)

theorem integer_not_text {m : UInt8} {tail : Bytes} {n : Int} (h : Integer (m :: tail) n) :
    ¬TextMarker m := by
  rw [TextMarker]
  cases h with
  | fix hm => omega
  | negative hm => omega
  | unsigned hk hm hb => omega
  | signed hk hm hb => omega

theorem readSchemaKey_eq_ok {key : SchemaKey} : readSchemaKey isUtf8 map pos = .ok (key, e) ↔
    ∃ enc, enc <+: map.drop pos ∧ Schema isUtf8 enc key ∧ e = pos + enc.length := by
  cases hm : map[pos]? with
  | none =>
      rw [readSchemaKey, hm]
      constructor
      · intro h
        exact absurd h (by simp)
      · rintro ⟨enc, hp, hs, -⟩
        exact absurd (prefix_past hm hp) hs.ne_nil
  | some m =>
      rw [readSchemaKey, hm, orFail_some, ok_bind]
      by_cases ht : TextMarker m
      · rw [if_pos ht]
        simp only [bind_eq_ok, ok_eq_ok, Prod.exists, rejectIf_bind]
        constructor
        · rintro ⟨payload, last, hr, h⟩
          obtain ⟨enc, hp, hb, rfl⟩ := readBin_eq_ok.mp hr
          split at h
          · exact absurd h (by simp)
          next hu =>
            cases h
            obtain ⟨tail, rfl, -⟩ := marker_at hm hp hb.ne_nil
            exact ⟨_, hp, .text (hb.text ht) (by simpa using hu), rfl⟩
        · rintro ⟨enc, hp, hs, rfl⟩
          cases hs with
          | integer h =>
              obtain ⟨tail, rfl, -⟩ := marker_at hm hp h.ne_nil
              exact absurd ht (integer_not_text h)
          | text h hu =>
              refine ⟨_, _, readBin_eq_ok.mpr ⟨enc, hp, h.blob, rfl⟩, ?_⟩
              rw [if_neg (by simp [hu])]
              rfl
      · rw [if_neg ht]
        simp only [bind_eq_ok, Prod.exists]
        constructor
        · rintro ⟨id, last, hr, h⟩
          obtain ⟨enc, hp, hi, rfl⟩ := readFieldId_eq_ok.mp hr
          cases h
          exact ⟨enc, hp, .integer hi, rfl⟩
        · rintro ⟨enc, hp, hs, rfl⟩
          cases hs with
          | integer h => exact ⟨_, _, readFieldId_eq_ok.mpr ⟨enc, hp, h, rfl⟩, rfl⟩
          | text h hu =>
              obtain ⟨tail, rfl, -⟩ := marker_at hm hp h.blob.ne_nil
              exact absurd h.marker ht

theorem ensures_readSchemaKey (isUtf8 : Bytes → Bool) (map : Bytes) (pos : Nat) :
    Ensures (readSchemaKey isUtf8 map pos) (fun r => Past map pos r.2) := by
  apply Ensures.bind (ensures_orFail _ (Q := fun _ => True) (fun _ _ => trivial))
  intro marker _
  apply ensures_ite
  · intro _
    apply Ensures.bind (ensures_ok (ensures_readBin map pos))
    rintro ⟨bytes, last⟩ hpast
    apply ensures_rejectIf_bind
    intro _
    exact hpast
  · intro _
    apply Ensures.bind (ensures_readFieldId map pos)
    rintro ⟨id, last⟩ hpast
    exact hpast

abbrev SchemaMap (isUtf8 : Bytes → Bool) := PairMap (Schema isUtf8) Complete maxFields

abbrev SchemaPair (isUtf8 : Bytes → Bool) := Pair (Schema isUtf8) Complete

variable {pairs before : List (SchemaPair isUtf8)} {first : Nat} {wanted : Bytes}

theorem priorSchemaKeys_eq {current : SchemaKey} (hp : bytesOf pairs <+: map.drop pos) :
    priorSchemaKeys isUtf8 map current pairs.length pos =
      if current ∈ pairs.map Pair.id then fail () else .ok () := by
  induction pairs generalizing pos with
  | nil => rfl
  | cons p pairs ih =>
      rw [bytesOf_cons, prefix_append_iff, prefix_append_iff] at hp
      have hkey := readSchemaKey_eq_ok.mpr ⟨p.key, hp.1, p.isKey, rfl⟩
      have hskip := ok_eq_ok.mpr (skipValue_eq_ok.mpr ⟨p.value, hp.2.1, complete_iff.mp p.isValue, rfl⟩)
      rw [List.length_cons, priorSchemaKeys, hkey]
      simp only [ok_bind, rejectIf_bind, hskip, ih hp.2.2, List.map_cons, List.mem_cons]
      by_cases h : p.id = current
      · rw [if_pos h, if_pos (.inl h.symm)]
      · rw [if_neg h]
        simp only [Ne.symm h, false_or]

def capture (wanted : Bytes) (found : Option Bytes) (pairs : List (SchemaPair isUtf8)) :
    Option Bytes :=
  pairs.foldl (fun found p => if p.id = .text wanted then some p.value else found) found

theorem capture_cons (found : Option Bytes) (p : SchemaPair isUtf8) :
    capture wanted found (p :: pairs) =
      capture wanted (if p.id = .text wanted then some p.value else found) pairs := rfl

theorem capture_of_not_mem {found : Option Bytes} (h : ∀ p ∈ pairs, p.id ≠ .text wanted) :
    capture wanted found pairs = found := by
  induction pairs generalizing found with
  | nil => rfl
  | cons p pairs ih =>
      rw [List.forall_mem_cons] at h
      rw [capture_cons, if_neg h.1]
      exact ih h.2

/-- With distinct keys the loop finds each entry, and nothing else. -/
theorem capture_eq_some (hn : (pairs.map Pair.id).Nodup) {value : Bytes} :
    capture wanted none pairs = some value ↔ ∃ p ∈ pairs, p.id = .text wanted ∧ p.value = value := by
  induction pairs with
  | nil => simp [capture]
  | cons p pairs ih =>
      rw [List.map_cons, List.nodup_cons] at hn
      rw [capture_cons, List.exists_mem_cons_iff]
      by_cases h : p.id = .text wanted
      · have hfresh : ∀ q ∈ pairs, q.id ≠ .text wanted := by
          intro q hq hid
          exact hn.1 (h ▸ hid ▸ List.mem_map_of_mem hq)
        have hrest : ¬∃ q ∈ pairs, q.id = .text wanted ∧ q.value = value :=
          fun ⟨q, hq, hid, _⟩ => hfresh q hq hid
        rw [if_pos h, capture_of_not_mem hfresh, Option.some.injEq]
        simp only [h, true_and, hrest, or_false]
      · rw [if_neg h, ih hn.2]
        simp only [h, false_and, false_or]

theorem schemaEntries_step {found : Option Bytes} {p : SchemaPair isUtf8}
    (hp : bytesOf before <+: map.drop first) (hpair : p.key ++ p.value <+: map.drop pos)
    (hnew : p.id ∉ before.map Pair.id) :
    schemaEntries isUtf8 map wanted first (count + 1) before.length pos found =
      schemaEntries isUtf8 map wanted first count (before ++ [p]).length
        (pos + p.key.length + p.value.length)
        (if p.id = .text wanted then some p.value else found) := by
  obtain ⟨hkp, hvp⟩ := prefix_append_iff.mp hpair
  have hvalue := complete_iff.mp p.isValue
  have hkey := readSchemaKey_eq_ok.mpr ⟨p.key, hkp, p.isKey, rfl⟩
  have hskip := ok_eq_ok.mpr (skipValue_eq_ok.mpr ⟨p.value, hvp, hvalue, rfl⟩)
  rw [schemaEntries, hkey, ok_bind]
  simp only [priorSchemaKeys_eq hp]
  rw [if_neg hnew, ok_bind, hskip, ok_bind, List.length_append, List.length_singleton]
  split
  · rw [slice_eq (Nat.le_add_right _ _) (prefix_end_of_ne_nil hvp hvalue.ne_nil), prefix_extract hvp,
      ok_bind]
  · rfl

theorem bytesOf_step {p : SchemaPair isUtf8} (hp : bytesOf before <+: map.drop first)
    (hpos : pos = first + (bytesOf before).length) (hpair : p.key ++ p.value <+: map.drop pos) :
    bytesOf (before ++ [p]) <+: map.drop first ∧
      pos + p.key.length + p.value.length = first + (bytesOf (before ++ [p])).length := by
  rw [bytesOf_append, bytesOf_cons, bytesOf_nil, List.append_nil, List.length_append,
    List.length_append]
  exact ⟨prefix_append_iff.mpr ⟨hp, hpos ▸ hpair⟩, by omega⟩

theorem not_mem_before_step {p : SchemaPair isUtf8} :
    (∀ q ∈ pairs, q.id ∉ (before ++ [p]).map Pair.id) ↔
      (∀ q ∈ pairs, q.id ∉ before.map Pair.id) ∧ p.id ∉ pairs.map Pair.id := by
  simp only [List.map_append, List.map_cons, List.map_nil, List.mem_append, List.mem_singleton, not_or]
  constructor
  · intro h
    refine ⟨fun q hq => (h q hq).1, ?_⟩
    intro hm
    obtain ⟨q, hq, hid⟩ := List.mem_map.mp hm
    exact (h q hq).2 hid
  · rintro ⟨hb, hp⟩ q hq
    exact ⟨hb q hq, fun hid => hp (hid ▸ List.mem_map_of_mem hq)⟩

/-- The outer loop passes exactly the runs of pairs whose keys differ from one
another and from those before. -/
theorem schemaEntries_eq_ok {found r : Option Bytes} (hp : bytesOf before <+: map.drop first)
    (hpos : pos = first + (bytesOf before).length) :
    schemaEntries isUtf8 map wanted first count before.length pos found = .ok (r, e) ↔
      ∃ pairs : List (SchemaPair isUtf8), pairs.length = count ∧ bytesOf pairs <+: map.drop pos ∧
        (pairs.map Pair.id).Nodup ∧ (∀ p ∈ pairs, p.id ∉ before.map Pair.id) ∧
        r = capture wanted found pairs ∧ e = pos + (bytesOf pairs).length := by
  induction count generalizing before pos found with
  | zero =>
      constructor
      · intro h
        cases h
        exact ⟨[], rfl, List.nil_prefix, List.nodup_nil, by simp, rfl, rfl⟩
      · rintro ⟨pairs, hl, -, -, -, rfl, rfl⟩
        obtain rfl := List.length_eq_zero_iff.mp hl
        rfl
  | succ count ih =>
      have hlength (p : SchemaPair isUtf8) (pairs : List (SchemaPair isUtf8)) :
          pos + (bytesOf (p :: pairs)).length =
            pos + p.key.length + p.value.length + (bytesOf pairs).length := by
        rw [bytesOf_cons, List.length_append, List.length_append]
        omega
      constructor
      · intro hrun
        -- the key and the value that the step reads are a pair
        have hread := hrun
        simp only [schemaEntries, bind_eq_ok, Prod.exists, priorSchemaKeys_eq hp] at hread
        obtain ⟨current, afterKey, hk, _, hfresh, last, hv, -⟩ := hread
        split at hfresh
        · exact absurd hfresh (by simp)
        next hnew =>
        obtain ⟨key, hkp, hks, rfl⟩ := readSchemaKey_eq_ok.mp hk
        obtain ⟨value, hvp, hvv, rfl⟩ := skipValue_eq_ok.mp (ok_eq_ok.mp hv)
        let p : SchemaPair isUtf8 := ⟨key, current, value, hks, complete_iff.mpr hvv⟩
        have hpair : p.key ++ p.value <+: map.drop pos := prefix_append_iff.mpr ⟨hkp, hvp⟩
        obtain ⟨hnext, hend⟩ := bytesOf_step hp hpos hpair
        rw [schemaEntries_step hp hpair hnew] at hrun
        obtain ⟨pairs, rfl, hrest, hn, hb, rfl, rfl⟩ := (ih hnext hend).mp hrun
        obtain ⟨hbefore, hfirst⟩ := not_mem_before_step.mp hb
        refine ⟨p :: pairs, rfl, ?_, ?_, ?_, rfl, (hlength p pairs).symm⟩
        · rw [bytesOf_cons, prefix_append_iff, prefix_append_iff]
          exact ⟨hkp, hvp, hrest⟩
        · rw [List.map_cons, List.nodup_cons]
          exact ⟨hfirst, hn⟩
        · rw [List.forall_mem_cons]
          exact ⟨hnew, hbefore⟩
      · rintro ⟨pairs, hl, hpairs, hn, hb, rfl, rfl⟩
        obtain ⟨p, pairs, rfl⟩ := List.exists_cons_of_length_eq_add_one hl
        rw [bytesOf_cons, prefix_append_iff, prefix_append_iff] at hpairs
        rw [List.map_cons, List.nodup_cons] at hn
        rw [List.forall_mem_cons] at hb
        have hpair : p.key ++ p.value <+: map.drop pos := prefix_append_iff.mpr ⟨hpairs.1, hpairs.2.1⟩
        obtain ⟨hnext, hend⟩ := bytesOf_step hp hpos hpair
        rw [schemaEntries_step hp hpair hb.1]
        exact (ih hnext hend).mpr ⟨pairs, Nat.succ.inj hl, hpairs.2.2, hn.2,
          not_mem_before_step.mpr ⟨hb.2, hn.1⟩, rfl, hlength p pairs⟩

theorem two_mul_length_le (pairs : List (SchemaPair isUtf8)) :
    2 * pairs.length ≤ (bytesOf pairs).length := by
  induction pairs with
  | nil => exact Nat.le_refl 0
  | cons p pairs ih =>
      have hkey := List.length_pos_iff.mpr p.isKey.ne_nil
      have hvalue := (complete_iff.mp p.isValue).length_pos
      rw [bytesOf_cons]
      simp only [List.length_append, List.length_cons]
      omega

theorem mapBytesValue_eq (hu : isUtf8 wanted = true) (map : Bytes) :
    mapBytesValue isUtf8 map wanted = readMapHeader map >>= fun header =>
      if header.2 > 64 ∨ header.2 > (map.length - header.1) / 2 then fail ()
      else schemaEntries isUtf8 map wanted header.1 header.2 0 header.1 none >>= fun r =>
        if r.2 ≠ map.length then fail () else orFail r.1 () := by
  rw [mapBytesValue, rejectIf_bind, if_neg (by simp [hu])]
  simp only [rejectIf_bind]

theorem schemaEntries_start {r : Option Bytes} :
    schemaEntries isUtf8 map wanted first count 0 first none = .ok (r, e) ↔
      ∃ pairs : List (SchemaPair isUtf8), pairs.length = count ∧ bytesOf pairs <+: map.drop first ∧
        (pairs.map Pair.id).Nodup ∧ r = capture wanted none pairs ∧
        e = first + (bytesOf pairs).length := by
  have hp : bytesOf ([] : List (SchemaPair isUtf8)) <+: map.drop first := List.nil_prefix
  refine (schemaEntries_eq_ok hp rfl).trans ?_
  simp

theorem mapBytesValue_map (hu : isUtf8 wanted = true) (m : SchemaMap isUtf8) :
    mapBytesValue isUtf8 m.bytes wanted = orFail (capture wanted none m.pairs) () := by
  have hp : m.header <+: m.bytes := List.prefix_append _ _
  have hheader := readMapHeader_eq_ok.mpr ⟨m.header, hp, m.counted, rfl⟩
  have hrun : schemaEntries isUtf8 m.bytes wanted m.header.length m.pairs.length 0
      m.header.length none = .ok (capture wanted none m.pairs,
        m.header.length + (bytesOf m.pairs).length) :=
    schemaEntries_start.mpr ⟨m.pairs, rfl, ⟨[], by rw [List.append_nil, PairMap.bytes, List.drop_left]⟩,
      m.distinct, rfl, rfl⟩
  have hlen : m.bytes.length = m.header.length + (bytesOf m.pairs).length := List.length_append
  have htwo := two_mul_length_le m.pairs
  have hmost : m.pairs.length ≤ 64 := m.atMost
  rw [mapBytesValue_eq hu, hheader, ok_bind, if_neg (by simp only; omega), hrun, ok_bind,
    if_neg (by simp only; omega)]

/-- map_bytes_value answers from a structured map that the bytes are in full. -/
theorem mapBytesValue_eq_ok {key value : Bytes} : mapBytesValue isUtf8 map key = .ok value ↔
    isUtf8 key = true ∧ ∃ m : SchemaMap isUtf8, map = m.bytes ∧
      ∃ p ∈ m.pairs, p.id = .text key ∧ p.value = value := by
  constructor
  · intro h
    by_cases hu : isUtf8 key = true
    · rw [mapBytesValue_eq hu] at h
      obtain ⟨⟨first, count⟩, hm, hloop⟩ := bind_eq_ok.mp h
      obtain ⟨header, ⟨rest, rfl⟩, hh, rfl⟩ := readMapHeader_eq_ok.mp hm
      split at hloop
      · exact absurd hloop (by simp)
      next hc =>
        obtain ⟨⟨found, e⟩, hrun, hlast⟩ := bind_eq_ok.mp hloop
        split at hlast
        · exact absurd hlast (by simp)
        next hend =>
          obtain ⟨pairs, rfl, ⟨trail, ht⟩, hn, rfl, rfl⟩ := schemaEntries_start.mp hrun
          rw [List.drop_left] at ht
          have hlen := congrArg List.length ht
          simp only [List.length_append] at hlen hend hc
          obtain rfl := List.length_eq_zero_iff.mp (show trail.length = 0 by omega)
          rw [List.append_nil] at ht
          subst ht
          let m : SchemaMap isUtf8 := ⟨header, pairs, hh, by rw [maxFields]; omega, hn⟩
          refine ⟨hu, m, rfl, ?_⟩
          exact (capture_eq_some hn).mp (orFail_eq_ok.mp hlast)
    · rw [mapBytesValue, rejectIf_bind, if_pos (by simpa using hu)] at h
      exact absurd h (by simp)
  · rintro ⟨hu, m, rfl, hp⟩
    rw [mapBytesValue_map hu, orFail_eq_ok]
    exact (capture_eq_some m.distinct).mpr hp

theorem ensures_priorSchemaKeys (isUtf8 : Bytes → Bool) (map : Bytes) (current : SchemaKey)
    (count prior : Nat) :
    Ensures (priorSchemaKeys isUtf8 map current count prior) (fun _ => True) := by
  induction count generalizing prior with
  | zero => trivial
  | succ count ih =>
      apply Ensures.bind (ensures_readSchemaKey isUtf8 map prior)
      rintro ⟨previous, last⟩ _
      apply ensures_rejectIf_bind
      intro _
      apply Ensures.bind (ensures_ok (ensures_skipValue map last 0))
      intro e _
      exact ih e

theorem ensures_schemaEntries (isUtf8 : Bytes → Bool) (map wanted : Bytes)
    (first count position pos : Nat) (found : Option Bytes) :
    Ensures (schemaEntries isUtf8 map wanted first count position pos found) (fun _ => True) := by
  induction count generalizing position pos found with
  | zero => trivial
  | succ count ih =>
      apply Ensures.bind (ensures_readSchemaKey isUtf8 map pos)
      rintro ⟨current, afterKey⟩ _
      apply Ensures.bind (ensures_priorSchemaKeys isUtf8 map current position first)
      intro _ _
      apply Ensures.bind (ensures_ok (ensures_skipValue map afterKey 0))
      intro e he
      apply ensures_ite
      · intro _
        apply Ensures.bind (ensures_slice (Nat.le_of_lt he.1) he.2)
        intro value _
        exact ih _ _ _
      · intro _
        exact ih _ _ _

theorem ensures_mapBytesValue (isUtf8 : Bytes → Bool) (map key : Bytes) :
    Ensures (mapBytesValue isUtf8 map key) (fun _ => True) := by
  apply ensures_rejectIf_bind
  intro _
  apply Ensures.bind (ensures_readMapHeader map)
  rintro ⟨first, count⟩ _
  apply ensures_rejectIf_bind
  intro _
  apply Ensures.bind (ensures_schemaEntries isUtf8 map key first count 0 first none)
  rintro ⟨found, pos⟩ _
  apply ensures_rejectIf_bind
  intro _
  exact ensures_orFail _ (fun _ _ => trivial)

/-- The text-keyed lookup is exact: an answer comes from the one pair with the
key, of a structured map that the bytes spell in full. -/
theorem mapBytesValue_exact (isUtf8 : Bytes → Bool) (map key : Bytes) :
    (∀ value, mapBytesValue isUtf8 map key = .ok value ↔
      isUtf8 key = true ∧ ∃ m : SchemaMap isUtf8, map = m.bytes ∧
        ∃ p ∈ m.pairs, p.id = .text key ∧ p.value = value) ∧
    ((∀ value, mapBytesValue isUtf8 map key ≠ .ok value) → mapBytesValue isUtf8 map key = fail ()) := by
  refine ⟨fun value => mapBytesValue_eq_ok, ?_⟩
  intro hno
  rcases okOr_of_ensures (ensures_mapBytesValue isUtf8 map key) with ⟨value, hv⟩ | hf
  · exact absurd hv (hno value)
  · exact hf

end LxmfLite.SchemaMaps
