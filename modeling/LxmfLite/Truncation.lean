import LxmfLite.Arrays

namespace LxmfLite.Truncation

open ByteString Execution SelfDelimiting Message Reader Replies Arrays

variable {data : Bytes}

def IsArray (data : Bytes) : Prop := ∃ items, arrayItems data = .ok items

theorem prefixFree_isArray : PrefixFree IsArray := by
  rintro data other ⟨items, hd⟩ ⟨items', ho⟩ hp
  obtain ⟨a, rfl, -⟩ := arrayItems_eq_ok.mp hd
  obtain ⟨b, rfl, -⟩ := arrayItems_eq_ok.mp ho
  exact prefixFree_encoded _ _ a.value b.value hp

theorem arrayItems_of_not (h : ¬IsArray data) : arrayItems data = fail .malformedPayload := by
  rcases arrayItems_cases data with ⟨a, rfl⟩ | ⟨-, hf⟩
  · exact absurd ⟨_, arrayItems_bytes a⟩ h
  · exact hf

inductive Accepted (data : Bytes) : Prop
  | items {items} (h : arrayItems data = .ok items)
  | response {id v} (h : responseData data id = .ok v)
  | available {wanted found} (h : availableAt data wanted = .ok found)
  | fetched {message} (h : fetchedMessage data = .ok message)
  | announce {a} (h : parseNodeAnnounce data = .ok a)
  | cost {c} (h : deliveryStampCost data = .ok c)

/-- No decoder of whole arrays returns a value, whatever else it is called with. -/
structure Refused (data : Bytes) : Prop where
  items : arrayItems data = fail .malformedPayload
  response : ∀ id, responseData data id = fail .malformedPayload
  available : ∀ wanted, availableAt data wanted = fail .malformedPayload
  fetched : fetchedMessage data = fail .malformedPayload
  announce : parseNodeAnnounce data = fail ()
  cost : deliveryStampCost data = fail ()

theorem isArray_of_bind {α : Type} {f : ArrayItems → Result α} {x : α}
    (h : arrayItems data >>= f = .ok x) : IsArray data := by
  obtain ⟨items, hi, -⟩ := bind_eq_ok.mp h
  exact ⟨items, hi⟩

theorem isArray_of_ok_bind {α : Type} {f : ArrayItems → Maybe α} {x : α}
    (h : ok (arrayItems data) >>= f = .ok x) : IsArray data := by
  obtain ⟨items, hi, -⟩ := bind_eq_ok.mp h
  rcases arrayItems_cases data with ⟨a, rfl⟩ | ⟨-, hf⟩
  · exact ⟨_, arrayItems_bytes a⟩
  · rw [hf] at hi
    exact absurd hi (fail_ne_ok _ _)

theorem Accepted.isArray (h : Accepted data) : IsArray data := by
  cases h with
  | items h => exact ⟨_, h⟩
  | response h => exact isArray_of_bind h
  | available h => exact isArray_of_bind h
  | fetched h => exact isArray_of_bind h
  | announce h => exact isArray_of_ok_bind h
  | cost h => exact isArray_of_ok_bind h

theorem refused_of_not (h : ¬IsArray data) : Refused data := by
  have hf := arrayItems_of_not h
  constructor
  case items => exact hf
  case response =>
    intro id
    rw [responseData, hf, fail_bind]
  case available =>
    intro wanted
    rw [availableAt, hf, fail_bind]
  case fetched => rw [fetchedMessage, hf, fail_bind]
  case announce =>
    rw [parseNodeAnnounce, hf]
    exact fail_bind _ _
  case cost =>
    rw [deliveryStampCost, hf]
    exact fail_bind _ _

/-- What one of the decoders accepts, none of them accepts cut short or with
bytes behind it. -/
theorem decoders_prefix_free (h : Accepted data) :
    (∀ n < data.length, Refused (data.take n)) ∧ ∀ suffix ≠ [], Refused (data ++ suffix) := by
  constructor
  · intro n hn
    exact refused_of_not (prefixFree_isArray.not_take h.isArray hn)
  · intro suffix hs
    exact refused_of_not (prefixFree_isArray.not_append h.isArray hs)

def announcedCost : Bytes := [0x92, 0xc0, 8]

theorem announcedCost_prefix_free :
    (∀ n < announcedCost.length, Refused (announcedCost.take n)) ∧
      ∀ suffix ≠ [], Refused (announcedCost ++ suffix) :=
  decoders_prefix_free (.cost (c := some 8) (by decide))

end LxmfLite.Truncation
