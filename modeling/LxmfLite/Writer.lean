import LxmfLite.Primitives
import LxmfLite.Reader

namespace LxmfLite.Writer

open ByteString Execution Message Primitives Reader

variable {σ Field : Type}

structure PayloadWriter (σ Field : Type) where
  write : Bytes → Exec LxmfError σ Unit
  fieldLen : Field → Nat
  field : Field → Exec LxmfError σ Unit

structure SliceWriter where
  output : Bytes
  position : Nat

def checkedAdd (usizeMax a b : Nat) : Option Nat := if a + b ≤ usizeMax then some (a + b) else none

def SliceWriter.write (usizeMax : Nat) (bytes : Bytes) : Exec LxmfError SliceWriter Unit := do
  let writer ← Exec.get
  let last ← (orFail (checkedAdd usizeMax writer.position bytes.length) .tooLong : Result Nat)
  Exec.rejectIf (last > writer.output.length) .outputTooSmall
  let output ← (copyFromSlice writer.output writer.position last bytes : Result Bytes)
  Exec.set ⟨output, last⟩

def sliceWriter (usizeMax : Nat) : PayloadWriter SliceWriter Bytes where
  write := SliceWriter.write usizeMax
  fieldLen := List.length
  field := SliceWriter.write usizeMax

def SizeWriter.field (usizeMax length : Nat) : Exec LxmfError Nat Unit := do
  let size ← Exec.get
  let size ← (orFail (checkedAdd usizeMax size length) .tooLong : Result Nat)
  Exec.set size

def sizeWriter (usizeMax : Nat) : PayloadWriter Nat Nat where
  write bytes := SizeWriter.field usizeMax bytes.length
  fieldLen := id
  field := SizeWriter.field usizeMax

def writeBinHeader (writer : PayloadWriter σ Field) (length : Nat) : Exec LxmfError σ Unit :=
  if length ≤ 0xff then writer.write [0xc4, UInt8.ofNat length]
  else if length ≤ 0xffff then do
    writer.write [0xc5]
    writer.write (toBe 2 length)
  else do
    Exec.rejectIf (length > 0xffffffff) .tooLong
    writer.write [0xc6]
    writer.write (toBe 4 length)

def writeBin (writer : PayloadWriter σ Field) (field : Field) : Exec LxmfError σ Unit := do
  writeBinHeader writer (writer.fieldLen field)
  writer.field field

def writeFieldsHeader (writer : PayloadWriter σ Field) (count : Nat) : Exec LxmfError σ Unit := do
  Exec.rejectIf (count > maxFields) .tooManyFields
  (if count < 16 then writer.write [0x80 ||| UInt8.ofNat count]
  else writer.write [0xde, 0, UInt8.ofNat count])

/-- The 32-byte bit set of field ids. -/
abbrev IdSet := Block 32

namespace IdSet

theorem empty_length : (List.replicate 32 (0 : UInt8)).length = 32 := List.length_replicate

def empty : IdSet := ⟨List.replicate 32 0, empty_length⟩

def byte (present : IdSet) (id : UInt8) : UInt8 :=
  present.val.get ⟨id.toNat / 8, by have := toNat_lt id; rw [present.2]; omega⟩

def bit (id : UInt8) : UInt8 := 1 <<< (id % 8)

def contains (present : IdSet) (id : UInt8) : Bool := present.byte id &&& bit id != 0

def insert (present : IdSet) (id : UInt8) : IdSet :=
  ⟨present.val.set (id.toNat / 8) (present.byte id ||| bit id), by rw [List.length_set, present.2]⟩

end IdSet

inductive PayloadFields (Field : Type)
  | empty
  | audio (mode : UInt8) (bytes : Field)
  | encoded (entries : List EncodedField) (present : IdSet)

def writeUint (writer : PayloadWriter σ Field) (n : UInt8) : Exec LxmfError σ Unit :=
  if n ≤ 0x7f then writer.write [n] else writer.write [0xcc, n]

/-- The values written behind an id: those of the entries that carry it. -/
def writeEntries (writer : PayloadWriter σ Field) (id : UInt8) :
    List EncodedField → Exec LxmfError σ Unit
  | [] => pure ()
  | (entryId, value) :: entries => do
      (if entryId = id then writer.write value else pure ())
      writeEntries writer id entries

def writeIds (writer : PayloadWriter σ Field) (entries : List EncodedField) (present : IdSet) :
    List UInt8 → Exec LxmfError σ Unit
  | [] => pure ()
  | id :: ids => do
      (if present.contains id then do
        writeUint writer id
        writeEntries writer id entries
      else pure ())
      writeIds writer entries present ids

def allIds : List UInt8 := (List.range 256).map UInt8.ofNat

def writeFields (writer : PayloadWriter σ Field) : PayloadFields Field → Exec LxmfError σ Unit
  | .empty => writeFieldsHeader writer 0
  | .audio mode bytes => do
      writeFieldsHeader writer 1
      writer.write [fieldAudio, 0x92]
      writeUint writer mode
      writeBin writer bytes
  | .encoded entries present => do
      writeFieldsHeader writer entries.length
      writeIds writer entries present allIds

def writePayload (writer : PayloadWriter σ Field) (timestamp : F64) (title content : Field)
    (fields : PayloadFields Field) : Exec LxmfError σ Unit := do
  writer.write [0x94, 0xcb]
  writer.write timestamp.toBeBytes
  writeBin writer title
  writeBin writer content
  writeFields writer fields

/-- The loop of encoded_field_set over the entries that are left. -/
def admitFields : List EncodedField → IdSet → Result IdSet
  | [], present => pure present
  | (id, value) :: fields, present => do
      rejectIf (present.contains id) .duplicateField
      let present := present.insert id
      let last ← skipValue value 0 1
      rejectIf (last ≠ value.length) .malformedPayload
      admitFields fields present

def encodedFieldSet (fields : List EncodedField) : Result IdSet := do
  rejectIf (fields.length > maxFields) .tooManyFields
  admitFields fields .empty

/-- The size that the payload brings a SizeWriter to, started behind the
packed prefix. -/
def countPayload (usizeMax : Nat) (titleLen contentLen : Nat) (fields : PayloadFields Nat) :
    Result Nat :=
  match (writePayload (sizeWriter usizeMax) ⟨0⟩ titleLen contentLen fields).run lxmfPackedPrefix with
  | (.ok (), size) => .ok size
  | (.error f, _) => .error f

def packedLen (usizeMax titleLen contentLen : Nat) : Result Nat :=
  countPayload usizeMax titleLen contentLen .empty

def packedLenWithAudio (usizeMax titleLen contentLen : Nat) (mode : UInt8) (audioLen : Nat) :
    Result Nat :=
  countPayload usizeMax titleLen contentLen (.audio mode audioLen)

def packedLenWithFields (usizeMax titleLen contentLen : Nat) (fields : List EncodedField) :
    Result Nat := do
  let present ← encodedFieldSet fields
  countPayload usizeMax titleLen contentLen (.encoded fields present)

/-- The call returns the position that the writer reached and leaves the
output it wrote to. -/
def packPayload (usizeMax : Nat) (timestamp : F64) (title content : Bytes)
    (fields : PayloadFields Bytes) : Exec LxmfError Bytes Nat := fun out =>
  match (writePayload (sliceWriter usizeMax) timestamp title content fields).run ⟨out, 0⟩ with
  | (.ok (), writer) => (.ok writer.position, writer.output)
  | (.error f, writer) => (.error f, writer.output)

end LxmfLite.Writer
