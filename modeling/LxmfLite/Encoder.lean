import LxmfLite.Writer

namespace LxmfLite.Encoder

open ByteString Execution Message Reader Writer

variable {σ Field Field' : Type}

inductive Step (Field : Type)
  | write (bytes : Bytes)
  | field (f : Field)
  | reject (e : LxmfError)

def replay (writer : PayloadWriter σ Field) : List (Step Field) → Exec LxmfError σ Unit
  | [] => pure ()
  | .write bytes :: steps => writer.write bytes >>= fun _ => replay writer steps
  | .field f :: steps => writer.field f >>= fun _ => replay writer steps
  | .reject e :: _ => liftM (fail e : Result Unit)

theorem replay_append (writer : PayloadWriter σ Field) (a b : List (Step Field)) :
    replay writer (a ++ b) = replay writer a >>= fun _ => replay writer b := by
  induction a with
  | nil => rfl
  | cons step a ih =>
      cases step with
      | write bytes => simp only [List.cons_append, replay, ih, Exec.bind_assoc]
      | field f => simp only [List.cons_append, replay, ih, Exec.bind_assoc]
      | reject e => rfl

def binHeaderSteps (length : Nat) : List (Step Field) :=
  if length ≤ 0xff then [.write [0xc4, UInt8.ofNat length]]
  else if length ≤ 0xffff then [.write [0xc5], .write (toBe 2 length)]
  else if length > 0xffffffff then [.reject .tooLong]
  else [.write [0xc6], .write (toBe 4 length)]

def binSteps (fieldLen : Field → Nat) (field : Field) : List (Step Field) :=
  binHeaderSteps (fieldLen field) ++ [.field field]

def mapHeaderSteps (count : Nat) : List (Step Field) :=
  if count > maxFields then [.reject .tooManyFields]
  else if count < 16 then [.write [0x80 ||| UInt8.ofNat count]]
  else [.write [0xde, 0, UInt8.ofNat count]]

def uintBytes (n : UInt8) : Bytes := if n ≤ 0x7f then [n] else [0xcc, n]

def entrySteps (entries : List EncodedField) (present : IdSet) (id : UInt8) : List (Step Field) :=
  if present.contains id then
    .write (uintBytes id) :: (entries.filter (·.1 = id)).map (fun entry => .write entry.2)
  else []

def fieldsSteps (fieldLen : Field → Nat) : PayloadFields Field → List (Step Field)
  | .empty => mapHeaderSteps 0
  | .audio mode bytes =>
      mapHeaderSteps 1 ++ ([.write [fieldAudio, 0x92], .write (uintBytes mode)] ++
        binSteps fieldLen bytes)
  | .encoded entries present =>
      mapHeaderSteps entries.length ++ allIds.flatMap (entrySteps entries present)

def payloadSteps (fieldLen : Field → Nat) (timestamp : F64) (title content : Field)
    (fields : PayloadFields Field) : List (Step Field) :=
  [.write [0x94, 0xcb], .write timestamp.toBeBytes] ++
    (binSteps fieldLen title ++ (binSteps fieldLen content ++ fieldsSteps fieldLen fields))

section Replay

variable (writer : PayloadWriter σ Field)

theorem replay_write (bytes : Bytes) : replay writer [.write bytes] = writer.write bytes :=
  Exec.bind_pure_unit _

theorem writeBinHeader_eq (length : Nat) :
    writeBinHeader writer length = replay writer (binHeaderSteps length) := by
  rw [writeBinHeader, binHeaderSteps]
  split
  · rw [replay_write]
  split
  · simp only [replay, Exec.bind_pure_unit]
  · rw [Exec.rejectIf, rejectIf]
    split
    · rfl
    · simp only [replay, Exec.bind_pure_unit]
      rfl

theorem writeBin_eq (field : Field) :
    writeBin writer field = replay writer (binSteps writer.fieldLen field) := by
  rw [writeBin, binSteps, replay_append, writeBinHeader_eq]
  simp only [replay, Exec.bind_pure_unit]

theorem writeFieldsHeader_eq (count : Nat) :
    writeFieldsHeader writer count = replay writer (mapHeaderSteps count) := by
  rw [writeFieldsHeader, mapHeaderSteps]
  rw [Exec.rejectIf, rejectIf]
  split
  · rfl
  · split
    · rw [replay_write]
      rfl
    · rw [replay_write]
      rfl

theorem writeUint_eq (n : UInt8) : writeUint writer n = writer.write (uintBytes n) := by
  rw [writeUint, uintBytes]
  split <;> rfl

theorem writeEntries_eq (id : UInt8) (entries : List EncodedField) : writeEntries writer id entries =
    replay writer ((entries.filter (·.1 = id)).map (fun entry => .write entry.2)) := by
  induction entries with
  | nil => rfl
  | cons entry entries ih =>
      obtain ⟨entryId, value⟩ := entry
      rw [writeEntries, ih]
      by_cases h : entryId = id
      · rw [if_pos h, List.filter_cons_of_pos (by simpa using h)]
        rfl
      · rw [if_neg h, List.filter_cons_of_neg (by simpa using h)]
        rfl

theorem writeIds_eq (entries : List EncodedField) (present : IdSet) (ids : List UInt8) :
    writeIds writer entries present ids =
      replay writer (ids.flatMap (entrySteps entries present)) := by
  induction ids with
  | nil => rfl
  | cons id ids ih =>
      rw [writeIds, List.flatMap_cons, replay_append, ih, entrySteps]
      split
      · rw [writeUint_eq, writeEntries_eq]
        rfl
      · rfl

theorem writeFields_eq (fields : PayloadFields Field) :
    writeFields writer fields = replay writer (fieldsSteps writer.fieldLen fields) := by
  cases fields with
  | empty => exact writeFieldsHeader_eq writer 0
  | audio mode bytes =>
      rw [writeFields, fieldsSteps, replay_append, replay_append, writeFieldsHeader_eq, writeUint_eq,
        writeBin_eq]
      simp only [replay, Exec.bind_assoc, Exec.pure_bind]
  | encoded entries present =>
      rw [writeFields, fieldsSteps, replay_append, writeFieldsHeader_eq, writeIds_eq]

/-- The encoder is one sequence of calls, whatever the writer does with them. -/
theorem writePayload_eq (timestamp : F64) (title content : Field) (fields : PayloadFields Field) :
    writePayload writer timestamp title content fields =
      replay writer (payloadSteps writer.fieldLen timestamp title content fields) := by
  rw [writePayload, payloadSteps, replay_append, replay_append, replay_append, writeBin_eq,
    writeBin_eq, writeFields_eq]
  simp only [replay, Exec.bind_assoc, Exec.pure_bind]

end Replay

end LxmfLite.Encoder
