import LxmfLite.FieldReading
import LxmfLite.KeyedMap

namespace LxmfLite.FieldMaps

open ByteString Execution SelfDelimiting MessagePack KeyedMap Message Reader Skipping FieldReading

variable {fields bs : Bytes} {entries : List (Int × Bytes)} {pos count e : Nat}

section Header

variable {m : UInt8} {tail : Bytes}

theorem mapHeader_fix (h : 0x80 ≤ m.toNat ∧ m.toNat ≤ 0x8f) :
    mapHeader (m :: tail) m.toNat = .ok (1, m.toNat - 0x80) := by
  have hcount : m.toNat % 16 = m.toNat - 0x80 := by omega
  rw [mapHeader, if_pos h, and_fifteen, hcount, pure_eq_ok]

theorem mapHeader_counted {k : Nat} (hk : k < 2) (hm : m.toNat = 0xde + k) :
    mapHeader (m :: tail) m.toNat = if 1 + 2 ^ (k + 1) ≤ (m :: tail).length then
      .ok (1 + 2 ^ (k + 1), ofBe ((m :: tail).extract 1 (1 + 2 ^ (k + 1)))) else fail () := by
  obtain rfl | rfl : k = 0 ∨ k = 1 := by omega
  · by_cases hlen : 1 + 2 ^ (0 + 1) ≤ (m :: tail).length
    · rw [if_pos hlen, mapHeader, if_neg (by omega), if_pos ⟨hm, hlen⟩, fromBeBytes_eq (by omega), ok_bind,
        pure_eq_ok]
      rfl
    · rw [if_neg hlen, mapHeader, if_neg (by omega), if_neg (fun h => hlen h.2), if_neg (by omega)]
  · by_cases hlen : 1 + 2 ^ (1 + 1) ≤ (m :: tail).length
    · rw [if_pos hlen, mapHeader, if_neg (by omega), if_neg (by omega), if_pos ⟨hm, hlen⟩,
        fromBeBytes_eq (by omega), ok_bind, pure_eq_ok]
      rfl
    · rw [if_neg hlen, mapHeader, if_neg (by omega), if_neg (by omega), if_neg (fun h => hlen h.2)]

theorem mapHeader_other (h : ¬MapMarker m) : mapHeader (m :: tail) m.toNat = fail () := by
  rw [MapMarker, not_or, not_or] at h
  rw [mapHeader, if_neg h.1, if_neg (fun hc => h.2.1 hc.1), if_neg (fun hc => h.2.2 hc.1)]

theorem mapHeader_eq_ok : mapHeader (m :: tail) m.toNat = .ok (pos, count) ↔
    ∃ header, header <+: m :: tail ∧ MapHeader header count ∧ pos = header.length := by
  by_cases hfix : 0x80 ≤ m.toNat ∧ m.toNat ≤ 0x8f
  · rw [mapHeader_fix hfix]
    constructor
    · intro h
      cases h
      exact ⟨[m], List.prefix_append [m] tail, .fix (by omega) (by omega), rfl⟩
    · rintro ⟨header, hp, hh, rfl⟩
      cases hh with
      | fix hn hm =>
          obtain rfl := (List.cons_prefix_cons.mp hp).1
          rw [hm, Nat.add_sub_cancel_left]
          rfl
      | counted hk hm hs =>
          obtain rfl := (List.cons_prefix_cons.mp hp).1
          omega
  by_cases hwide : m.toNat = 0xde ∨ m.toNat = 0xdf
  · obtain ⟨k, hk, hm⟩ : ∃ k, k < 2 ∧ m.toNat = 0xde + k := ⟨m.toNat - 0xde, by omega, by omega⟩
    rw [mapHeader_counted hk hm]
    constructor
    · intro h
      split at h
      next hlen =>
        cases h
        have hs : ((m :: tail).extract 1 (1 + 2 ^ (k + 1))).length = 2 ^ (k + 1) := by
          rw [extract_length hlen, Nat.add_sub_cancel_left]
        refine ⟨m :: (m :: tail).extract 1 (1 + 2 ^ (k + 1)), ?_, .counted hk hm hs, ?_⟩
        · exact List.cons_prefix_cons.mpr ⟨rfl, extract_prefix_drop⟩
        · rw [List.length_cons, hs, Nat.add_comm]
      next => cases h
    · rintro ⟨header, hp, hh, rfl⟩
      cases hh with
      | fix hn hm' =>
          obtain rfl := (List.cons_prefix_cons.mp hp).1
          omega
      | @counted m' k' size hk' hm' hs =>
          obtain ⟨rfl, ht⟩ := List.cons_prefix_cons.mp hp
          obtain rfl : k' = k := by omega
          have hlen := hp.length_le
          have hsize := prefix_extract (show size <+: (m' :: tail).drop 1 from ht)
          rw [List.length_cons, hs, Nat.add_comm] at hlen
          rw [hs] at hsize
          rw [if_pos hlen, hsize, List.length_cons, hs, Nat.add_comm 1]
  · rw [mapHeader_other (not_or.mpr ⟨hfix, hwide⟩)]
    constructor
    · intro h
      cases h
    · rintro ⟨header, hp, hh, -⟩
      obtain ⟨m', rest, rfl⟩ := List.exists_cons_of_ne_nil (MapHeader.ne_nil hh)
      obtain rfl := (List.cons_prefix_cons.mp hp).1
      exact absurd (MapHeader.marker hh) (not_or.mpr ⟨hfix, hwide⟩)

end Header

theorem readMapHeader_eq_ok : readMapHeader fields = .ok (pos, count) ↔
    ∃ header, header <+: fields ∧ MapHeader header count ∧ pos = header.length := by
  cases fields with
  | nil =>
      constructor
      · intro h
        exact absurd h (by simp [readMapHeader])
      · rintro ⟨header, hp, hh, -⟩
        exact absurd (List.prefix_nil.mp hp) (MapHeader.ne_nil hh)
  | cons m tail =>
      rw [readMapHeader, List.getElem?_cons_zero, orFail_some, ok_bind]
      exact mapHeader_eq_ok

theorem okOr_readMapHeader (fields : Bytes) : OkOr () (readMapHeader fields) := by
  refine OkOr.bind ?_ (fun m => ?_)
  · cases fields[0]? with
    | none => exact .inr rfl
    | some m => exact .inl ⟨m, rfl⟩
  · rw [mapHeader]
    split
    · exact .inl ⟨_, rfl⟩
    split
    next hc => rw [fromBeBytes_eq (by omega)]; exact .inl ⟨_, rfl⟩
    split
    next hc => rw [fromBeBytes_eq (by omega)]; exact .inl ⟨_, rfl⟩
    · exact .inr rfl

/-- What both validators do with the entries: read them one after the other,
with the keys seen so far. -/
def walk (fields : Bytes) : Nat → List Int → Nat → Result Nat
  | 0, _, pos => .ok pos
  | count + 1, seen, pos => do
      let (key, afterKey) ← okOr (readFieldId fields pos) .malformedPayload
      rejectIf (key.val ∈ seen) .duplicateField
      let pos ← skipValue fields afterKey 0
      walk fields count (seen ++ [key.val]) pos

theorem okOr_eq_ok {α : Type} {x : Maybe α} {error : LxmfError} {a : α} :
    okOr x error = .ok a ↔ x = .ok a := by
  rcases x with (_ | _) | a <;> simp [okOr]

theorem ok_eq_ok {α : Type} {x : Result α} {a : α} : ok x = .ok a ↔ x = .ok a := by
  rcases x with (_ | _) | a <;> simp [ok]

theorem walk_eq_ok {seen : List Int} : walk fields count seen pos = .ok e ↔
    ∃ bs entries, bs <+: fields.drop pos ∧ Entries 8 0 bs entries ∧ entries.length = count ∧
      (keys entries).Nodup ∧ (∀ k ∈ keys entries, k ∉ seen) ∧ e = pos + bs.length := by
  induction count generalizing seen pos with
  | zero =>
      constructor
      · intro h
        cases h
        exact ⟨[], [], List.nil_prefix, .nil, rfl, List.nodup_nil, nofun, rfl⟩
      · rintro ⟨bs, entries, -, he, hl, -, -, rfl⟩
        obtain rfl := List.length_eq_zero_iff.mp hl
        cases he
        rfl
  | succ count ih =>
      simp only [walk, bind_eq_ok, okOr_eq_ok, Prod.exists, rejectIf_bind]
      constructor
      · rintro ⟨id, afterKey, hk, h⟩
        split at h
        · exact absurd h (by simp)
        obtain ⟨_, hv, h⟩ := bind_eq_ok.mp h
        obtain ⟨key, hkp, hki, rfl⟩ := readFieldId_eq_ok.mp hk
        obtain ⟨value, hvp, hve, rfl⟩ := skipValue_eq_ok.mp hv
        obtain ⟨rest, entries, hrp, hre, rfl, hn, hs, rfl⟩ := ih.mp h
        simp only [List.mem_append, List.mem_singleton, not_or] at hs
        refine ⟨key ++ (value ++ rest), (id.val, value) :: entries,
          prefix_append_iff.mpr ⟨hkp, prefix_append_iff.mpr ⟨hvp, hrp⟩⟩, .cons hki hve hre, rfl,
          List.nodup_cons.mpr ⟨fun hm => (hs _ hm).2 rfl, hn⟩, ?_, ?_⟩
        · rw [keys_cons, List.forall_mem_cons]
          exact ⟨by assumption, fun k hm => (hs k hm).1⟩
        · simp only [List.length_append]
          omega
      · rintro ⟨bs, entries, hp, he, hl, hn, hs, rfl⟩
        cases he with
        | nil => exact absurd hl (by simp)
        | @cons key value rest n entries hk hv hr =>
            rw [prefix_append_iff, prefix_append_iff] at hp
            rw [keys_cons, List.nodup_cons] at hn
            rw [keys_cons, List.forall_mem_cons] at hs
            refine ⟨⟨n, hk.range.1, hk.range.2⟩, _, readFieldId_eq_ok.mpr ⟨key, hp.1, hk, rfl⟩, ?_⟩
            rw [if_neg hs.1, bind_eq_ok]
            refine ⟨_, skipValue_eq_ok.mpr ⟨value, hp.2.1, hv, rfl⟩, ih.mpr ⟨rest, entries, hp.2.2, hr,
              Nat.succ.inj hl, hn.2, ?_, ?_⟩⟩
            · intro k hm
              rw [List.mem_append, List.mem_singleton, not_or]
              exact ⟨hs.2 k hm, fun h => hn.1 ((show k = n from h) ▸ hm)⟩
            · simp only [List.length_append]
              omega

/-- The loop of validate_fields reads only the keys that it stored itself. -/
theorem run_validateEntries (fields : Bytes) (pos : Nat) {position : Nat} (h : position + count ≤ 64)
    (scratch : FieldScratch) :
    ((validateEntries fields count position pos).run scratch).1 =
      walk fields count (scratch.keys.take position) pos := by
  induction count generalizing position pos scratch with
  | zero => rfl
  | succ count ih =>
      rw [validateEntries, walk, Exec.run_lift_bind]
      cases okOr (readFieldId fields pos) .malformedPayload with
      | error f => rfl
      | ok key =>
          obtain ⟨key, afterKey⟩ := key
          have hb : scratch.before position = .ok (scratch.keys.take position) := if_pos (by omega)
          have hs := scratch.size
          have hst : scratch.store position key.val =
              .ok ⟨scratch.keys.set position key.val, by rw [List.length_set, hs]⟩ :=
            if_pos (by omega)
          simp only [Exec.run_get_bind, hb, hst, Exec.run_lift_bind, Exec.run_rejectIf_bind, ok_bind,
            rejectIf_bind, Exec.run_set_bind]
          split
          · rfl
          · cases skipValue fields afterKey 0 with
            | error f => rfl
            | ok next =>
                rw [ok_bind]
                simp only
                rw [ih _ (by omega)]
                congr 1
                simp only
                rw [List.take_succ_eq_append_getElem (by rw [List.length_set]; omega),
                  List.getElem_set_self, List.take_set_of_le (Nat.le_refl _)]

/-- A fields map within the limits of the parsers, its values at the depth
given. -/
def FieldMap (depth : Nat) (fields : Bytes) (entries : List (Int × Bytes)) : Prop :=
  Keyed 8 depth fields entries ∧ entries.length ≤ 64

theorem FieldMap.shallower {d depth : Nat} (h : FieldMap depth fields entries) (hd : d ≤ depth) :
    FieldMap d fields entries := ⟨h.1.shallower hd, h.2⟩

theorem keyed_header_count {depth : Nat} {header : Bytes} (h : Keyed 8 depth fields entries)
    (hp : header <+: fields) (hh : MapHeader header count) : entries.length = count := by
  obtain ⟨hh', -, -⟩ := h
  obtain ⟨rest, hr⟩ := hp
  exact (MapHeader.rest_unique hh' hh hr.symm).1

/-- The walk behind a header reaches the end of the bytes on a map and only
there. -/
theorem walk_end {header : Bytes} (hp : header <+: fields) (hh : MapHeader header count) :
    walk fields count [] header.length = .ok fields.length ↔
      ∃ entries, Keyed 8 0 fields entries ∧ entries.length = count := by
  obtain ⟨rest, rfl⟩ := hp
  rw [walk_eq_ok, List.drop_left]
  constructor
  · rintro ⟨bs, entries, hb, he, rfl, hn, -, hl⟩
    rw [List.length_append] at hl
    obtain rfl := hb.eq_of_length (by omega)
    exact ⟨entries, ⟨hh, he, hn⟩, rfl⟩
  · rintro ⟨entries, hk, rfl⟩
    generalize hf : header ++ rest = bs at hk
    obtain ⟨hh', he, hn⟩ := hk
    obtain ⟨-, rfl, rfl⟩ := MapHeader.rest_unique hh hh' hf
    exact ⟨rest, entries, List.prefix_rfl, he, rfl, hn, nofun, List.length_append⟩

/-- Both validators end in the walk and a test for bytes behind the map. -/
theorem walk_whole {header : Bytes} (hp : header <+: fields) (hh : MapHeader header count) :
    (walk fields count [] header.length >>= fun pos => rejectIf (pos ≠ fields.length) .malformedPayload) =
      .ok () ↔ ∃ entries, Keyed 8 0 fields entries ∧ entries.length = count := by
  rw [bind_eq_ok, ← walk_end hp hh]
  constructor
  · rintro ⟨e, hw, he⟩
    rw [rejectIf] at he
    split at he
    · exact absurd he (by simp)
    obtain rfl : e = fields.length := by omega
    exact hw
  · intro hw
    exact ⟨_, hw, by rw [rejectIf, if_neg (by simp)]⟩

/-- What validate_fields returns, whatever the scratch holds. -/
def checkFields (fields : Bytes) : Result Unit :=
  match readMapHeader fields with
  | .error (.error ()) => .ok ()
  | .error .panic => panic
  | .ok (pos, count) => do
      rejectIf (count > 64) .tooManyFields
      rejectIf (count > (fields.length - pos) / 2) .malformedPayload
      let pos ← walk fields count [] pos
      rejectIf (pos ≠ fields.length) .malformedPayload

theorem run_validateFields (scratch : FieldScratch) :
    ((validateFields fields).run scratch).1 = checkFields fields := by
  rw [validateFields, checkFields]
  rcases okOr_readMapHeader fields with ⟨⟨pos, count⟩, h⟩ | h
  · rw [h]
    simp only [Exec.run_rejectIf_bind, rejectIf_bind]
    by_cases hc : count > 64
    · rw [if_pos hc, if_pos hc]
    · rw [if_neg hc, if_neg hc]
      split
      · rfl
      · have hw := run_validateEntries fields pos
          (show 0 + count ≤ 64 by omega) scratch
        rw [List.take_zero] at hw
        rw [Exec.run_bind, ← hw]
        rcases (validateEntries fields count 0 pos).run scratch with ⟨f | e, s⟩
        · rfl
        · simp only [ok_bind, Exec.run_rejectIf]
          rw [rejectIf]
          split <;> rfl
  · rw [h]
    rfl

/-- validate_fields lets pass what is no map, and the field maps. -/
theorem checkFields_eq_ok : checkFields fields = .ok () ↔
    ∀ header count, header <+: fields → MapHeader header count →
      ∃ entries, FieldMap 0 fields entries := by
  rw [checkFields]
  rcases okOr_readMapHeader fields with ⟨⟨pos, count⟩, h⟩ | h
  · rw [h]
    obtain ⟨header, hp, hh, rfl⟩ := readMapHeader_eq_ok.mp h
    simp only [rejectIf_bind]
    constructor
    · intro hc header' count' hp' hh'
      split at hc
      · exact absurd hc (by simp)
      split at hc
      · exact absurd hc (by simp)
      obtain ⟨entries, hk, rfl⟩ := (walk_whole hp hh).mp hc
      exact ⟨entries, hk, by omega⟩
    · intro hf
      obtain ⟨entries, hk, hl⟩ := hf header count hp hh
      have hcount := keyed_header_count hk hp hh
      have hw := (walk_end hp hh).mpr ⟨entries, hk, hcount⟩
      -- two bytes an entry: the truncation guard never fires on a map
      obtain ⟨bs, entries', hb, he, hl', -⟩ := walk_eq_ok.mp hw
      have htwo := he.two_mul_length_le
      have hle := hb.length_le
      rw [List.length_drop] at hle
      rw [if_neg (by omega), if_neg (by omega)]
      exact (walk_whole hp hh).mpr ⟨entries, hk, hcount⟩
  · rw [h]
    constructor
    · intro _ header count hp hh
      have hok := readMapHeader_eq_ok.mpr ⟨header, hp, hh, rfl⟩
      rw [h] at hok
      exact absurd hok (by simp)
    · exact fun _ => rfl

theorem entry_read {enc value rest : Bytes} {n : Int} (hp : enc ++ (value ++ rest) <+: fields.drop pos)
    (hk : Integer enc n) (hv : Value 8 0 value) :
    readFieldId fields pos = .ok (⟨n, hk.range.1, hk.range.2⟩, pos + enc.length) ∧
      skipValue fields (pos + enc.length) 0 = .ok (pos + enc.length + value.length) ∧
      value <+: fields.drop (pos + enc.length) ∧
      rest <+: fields.drop (pos + enc.length + value.length) := by
  rw [prefix_append_iff, prefix_append_iff] at hp
  exact ⟨readFieldId_eq_ok.mpr ⟨enc, hp.1, hk, rfl⟩, skipValue_eq_ok.mpr ⟨value, hp.2.1, hv, rfl⟩, hp.2⟩

def priorEntries (fields : Bytes) (key : FieldId) (count prior : Nat) : Result Unit :=
  priorEntriesIn (skipValue fields · 0) (pure ()) fields key count prior

theorem priorEntries_succ (key : FieldId) (count prior : Nat) :
    priorEntries fields key (count + 1) prior = (do
      let (previous, last) ← okOr (readFieldId fields prior) .malformedPayload
      rejectIf (previous = key) .duplicateField
      let prior ← skipValue fields last 0
      priorEntries fields key count prior) := rfl

def entriesWithoutScratch (fields : Bytes) (first count position pos : Nat) : Result Nat :=
  entriesIn (skipValue fields · 0) (pure ()) fields first count position pos

theorem entriesWithoutScratch_succ (first count position pos : Nat) :
    entriesWithoutScratch fields first (count + 1) position pos = (do
      let (key, afterKey) ← okOr (readFieldId fields pos) .malformedPayload
      priorEntries fields key position first
      let pos ← skipValue fields afterKey 0
      entriesWithoutScratch fields first count (position + 1) pos) := rfl

theorem validateFieldsWithoutScratch_def (fields : Bytes) :
    validateFieldsWithoutScratch fields = (do
      let (first, count) ← okOr (readMapHeader fields) .malformedPayload
      rejectIf (count > 64) .tooManyFields
      let pos ← entriesWithoutScratch fields first count 0 first
      rejectIf (pos ≠ fields.length) .malformedPayload) := rfl

theorem priorEntries_eq {key : FieldId} (hp : bs <+: fields.drop pos)
    (he : Entries 8 0 bs entries) : priorEntries fields key entries.length pos =
      if key.val ∈ keys entries then fail .duplicateField else .ok () := by
  induction he generalizing pos with
  | nil => rfl
  | @cons enc value rest n entries hk hv _ ih =>
      obtain ⟨hid, hskip, -, hrest⟩ := entry_read hp hk hv
      rw [List.length_cons, priorEntries_succ, hid]
      simp only [okOr, ok_bind, rejectIf_bind, hskip, ih hrest, keys_cons, List.mem_cons]
      by_cases h : n = key.val
      · rw [if_pos (FieldId.ext h), if_pos (.inl h.symm)]
      · rw [if_neg (fun he => h (congrArg FieldId.val he))]
        simp only [Ne.symm h, false_or]

/-- Without the scratch the outer loop is the same walk. -/
theorem entriesWithoutScratch_eq {first : Nat} (hp : bs <+: fields.drop first)
    (he : Entries 8 0 bs entries) (hpos : pos = first + bs.length) :
    entriesWithoutScratch fields first count entries.length pos =
      walk fields count (keys entries) pos := by
  induction count generalizing bs entries pos with
  | zero => rfl
  | succ count ih =>
      rw [entriesWithoutScratch_succ, walk]
      rcases okOr_readFieldId fields pos with ⟨⟨id, afterKey⟩, hk⟩ | hk
      · rw [hk]
        simp only [okOr, ok_bind, priorEntries_eq hp he, rejectIf_bind]
        split
        · rfl
        rw [ok_bind]
        rcases malformed_skipValue fields afterKey 0 with ⟨next, hv⟩ | hv
        · rw [hv, ok_bind, ok_bind]
          obtain ⟨key, hkp, hki, rfl⟩ := readFieldId_eq_ok.mp hk
          obtain ⟨value, hvp, hve, rfl⟩ := skipValue_eq_ok.mp hv
          have hone : Entries 8 0 (key ++ (value ++ [])) [(id.val, value)] := .cons hki hve .nil
          rw [List.append_nil] at hone
          have hpre : bs ++ (key ++ value) <+: fields.drop first :=
            prefix_append_iff.mpr ⟨hp, by rw [← hpos]; exact prefix_append_iff.mpr ⟨hkp, hvp⟩⟩
          have hnext := ih hpre (he.append hone)
            (show pos + key.length + value.length = first + (bs ++ (key ++ value)).length by
              simp only [List.length_append]
              omega)
          rw [List.length_append, keys_append] at hnext
          exact hnext
        · rw [hv]
          rfl
      · rw [hk]
        rfl

theorem fieldMap_header {depth : Nat} (h : FieldMap depth fields entries) :
    ∃ header body, fields = header ++ body ∧ MapHeader header entries.length ∧
      Entries 8 depth body entries ∧ (keys entries).Nodup := by
  obtain ⟨⟨hh, he, hn⟩, -⟩ := h
  exact ⟨_, _, rfl, hh, he, hn⟩

/-- The standalone validator accepts the field maps and nothing else. -/
theorem validateFieldsWithoutScratch_eq_ok :
    validateFieldsWithoutScratch fields = .ok () ↔ ∃ entries, FieldMap 0 fields entries := by
  have hloop (first count : Nat) :
      entriesWithoutScratch fields first count 0 first = walk fields count [] first :=
    entriesWithoutScratch_eq List.nil_prefix (.nil : Entries 8 0 [] []) rfl
  simp only [validateFieldsWithoutScratch_def, bind_eq_ok, okOr_eq_ok, Prod.exists, rejectIf_bind, hloop]
  constructor
  · rintro ⟨first, count, hm, h⟩
    obtain ⟨header, hp, hh, rfl⟩ := readMapHeader_eq_ok.mp hm
    split at h
    · exact absurd h (by simp)
    obtain ⟨entries, hk, rfl⟩ := (walk_whole hp hh).mp h
    exact ⟨entries, hk, by omega⟩
  · rintro ⟨entries, hk, hl⟩
    obtain ⟨header, body, rfl, hh, -, -⟩ := fieldMap_header ⟨hk, hl⟩
    have hp : header <+: header ++ body := List.prefix_append header body
    refine ⟨_, _, readMapHeader_eq_ok.mpr ⟨header, hp, hh, rfl⟩, ?_⟩
    rw [if_neg (by omega)]
    exact (walk_whole hp hh).mpr ⟨entries, hk, rfl⟩

def lookupEntries (fields : Bytes) (key : FieldId) (count pos : Nat) : Maybe Bytes :=
  lookupEntriesIn (fun pos => ok (skipValue fields pos 0)) (pure ()) fields key count pos

theorem lookupEntries_succ (key : FieldId) (count pos : Nat) :
    lookupEntries fields key (count + 1) pos = (do
      let (id, afterKey) ← readFieldId fields pos
      let last ← ok (skipValue fields afterKey 0)
      if id = key then slice fields afterKey last
      else lookupEntries fields key count last) := rfl

theorem fieldValueId_def (fields : Bytes) (key : FieldId) : fieldValueId fields key = (do
    ok (validateFieldsWithoutScratch fields)
    let (pos, count) ← readMapHeader fields
    lookupEntries fields key count pos) := rfl

theorem lookupEntries_eq {key : FieldId} (hp : bs <+: fields.drop pos)
    (he : Entries 8 0 bs entries) :
    lookupEntries fields key entries.length pos = orFail (entries.lookup key.val) () := by
  induction he generalizing pos with
  | nil => rfl
  | @cons enc value rest n entries hk hv _ ih =>
      obtain ⟨hid, hskip, hvalue, hrest⟩ := entry_read hp hk hv
      have hend := prefix_end_of_ne_nil hvalue hv.ne_nil
      rw [List.length_cons, lookupEntries_succ, hid]
      simp only [ok_bind, hskip, ok, List.lookup_cons]
      by_cases h : key.val = n
      · rw [if_pos (FieldId.ext h.symm), slice_eq (Nat.le_add_right _ _) hend,
          prefix_extract hvalue, beq_iff_eq.mpr h]
        rfl
      · rw [if_neg (fun he => h (congrArg FieldId.val he).symm), ih hrest, beq_eq_false_iff_ne.mpr h]

/-- field_value_id is a lookup in the entries of the map. -/
theorem fieldValueId_eq (h : FieldMap 0 fields entries) (key : FieldId) :
    fieldValueId fields key = orFail (entries.lookup key.val) () := by
  have hv := validateFieldsWithoutScratch_eq_ok.mpr ⟨entries, h⟩
  obtain ⟨header, body, rfl, hh, he, -⟩ := fieldMap_header h
  have hm := readMapHeader_eq_ok.mpr ⟨header, List.prefix_append header body, hh, rfl⟩
  rw [fieldValueId_def, hv]
  simp only [ok, ok_bind, hm]
  exact lookupEntries_eq ⟨[], by rw [List.append_nil, List.drop_left]⟩ he

theorem fieldValue_eq (h : FieldMap 0 fields entries) (key : UInt8) :
    fieldValue fields key = orFail (entries.lookup (key.toNat : Int)) () := fieldValueId_eq h (.ofU8 key)

end LxmfLite.FieldMaps
