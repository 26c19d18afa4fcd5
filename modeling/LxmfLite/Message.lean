import LxmfLite.Execution
import LxmfLite.FloatingPoint

namespace LxmfLite.Message

open ByteString Execution FloatingPoint

def lxmfDestLength : Nat := 16
def lxmfSignatureLength : Nat := 64
def messageIdLength : Nat := 32
def fieldAudio : UInt8 := 0x07
def fieldTicket : UInt8 := 0x0c
def ticketLength : Nat := 16
def maxFields : Nat := 64
def plaintextPrefix : Nat := lxmfDestLength + lxmfSignatureLength
def lxmfPackedPrefix : Nat := lxmfDestLength + plaintextPrefix

theorem plaintextPrefix_eq : plaintextPrefix = 80 := rfl

theorem lxmfPackedPrefix_eq : lxmfPackedPrefix = 96 := rfl

inductive LxmfError
  | tooLong
  | outputTooSmall
  | crypto
  | malformedPayload
  | signatureInvalid
  | sourceHashMismatch
  | destinationMismatch
  | tooManyFields
  | duplicateField
  deriving DecidableEq

inductive CryptoError
  | plaintextTooLong
  | outputTooSmall
  | authenticationFailed
  deriving DecidableEq

def LxmfError.ofCrypto : CryptoError → LxmfError
  | .plaintextTooLong => .tooLong
  | .outputTooSmall => .outputTooSmall
  | .authenticationFailed => .crypto

abbrev Result (α : Type) := Outcome LxmfError α

/-- A call that returns an Option; None carries no error. -/
abbrev Maybe (α : Type) := Outcome Unit α

def okOr {α : Type} (x : Maybe α) (e : LxmfError) : Result α :=
  match x with
  | .ok a => .ok a
  | .error (.error ()) => fail e
  | .error .panic => panic

/-- An f64 is its bit pattern. -/
structure F64 where
  bits : UInt64
  deriving DecidableEq

def F64.toBeBytes (x : F64) : Bytes := toBe 8 x.bits.toNat

def F64.fromBeBytes (bs : Bytes) : F64 := ⟨UInt64.ofNat (ofBe bs)⟩

@[simp] theorem F64.toBeBytes_length (x : F64) : x.toBeBytes.length = 8 := toBe_length 8 _

@[simp] theorem F64.fromBeBytes_toBeBytes (x : F64) : fromBeBytes x.toBeBytes = x := by
  have h : ofBe x.toBeBytes = x.bits.toNat := ofBe_toBe_of_lt x.bits.toNat_lt
  rw [fromBeBytes, h, UInt64.ofNat_toNat]

section F64

def F64.fromBits (bits : Nat) : F64 := ⟨UInt64.ofNat bits⟩

def F64.datum (x : F64) : Datum := binary64.decode x.bits.toNat

def F64.isFinite (x : F64) : Bool := binary64.isFinite x.bits.toNat

def F64.le (x y : F64) : Bool := x.datum.le y.datum

def F64.lt (x y : F64) : Bool := x.datum.lt y.datum

/-- The number nearest to an integer, as by f64::from and the casts. -/
def F64.ofInt (n : Int) : F64 := fromBits (binary64.ofInt n)

def F64.ofF32Bits (bits : Nat) : F64 := fromBits (binary64.convert binary32 bits)

def F64.div (x y : F64) : F64 := fromBits (binary64.divide x.bits.toNat y.bits.toNat)

/-- as u64: truncated, and the nearest bound outside the range. -/
def F64.asU64 (x : F64) : Nat :=
  match x.datum with
  | .nan => 0
  | .infinite negative => if negative then 0 else 2 ^ 64 - 1
  | .finite value => min value.floor.toNat (2 ^ 64 - 1)

end F64

def tryInto (n : Nat) (bytes : Bytes) : Option (Block n) :=
  if h : bytes.length = n then some ⟨bytes, h⟩ else none

theorem tryInto_eq_some {n : Nat} {bytes : Bytes} {b : Block n} :
    tryInto n bytes = some b ↔ b.val = bytes := by
  rw [tryInto]
  constructor
  · intro h
    split at h
    · exact congrArg Subtype.val (Option.some.inj h).symm
    · exact nomatch h
  · rintro rfl
    exact dif_pos b.property

/-- One caller-encoded outer field: its id and exactly one complete value. -/
abbrev EncodedField := UInt8 × Bytes

structure AudioField where
  mode : UInt8
  bytes : Bytes
  deriving DecidableEq

structure TicketField where
  expires : F64
  ticket : Block ticketLength
  deriving DecidableEq

structure LxmfView where
  messageId : Block 32
  sourceHash : Block 16
  timestamp : F64
  title : Bytes
  content : Bytes
  fields : Bytes
  deriving DecidableEq

structure FieldId where
  val : Int
  lower : -2 ^ 63 ≤ val
  upper : val ≤ 2 ^ 64 - 1
  deriving DecidableEq

@[ext] theorem FieldId.ext {a b : FieldId} (h : a.val = b.val) : a = b := by
  cases a
  cases b
  cases h
  rfl

def FieldId.ofU8 (b : UInt8) : FieldId :=
  ⟨b.toNat, by omega, by have := toNat_lt b; omega⟩

def FieldId.ofI8 (b : UInt8) : FieldId :=
  ⟨if b.toNat < 0x80 then b.toNat else b.toNat - 256,
    by split <;> omega, by have := toNat_lt b; split <;> omega⟩

def FieldId.tryFrom (value : Int) : Result FieldId :=
  if h : value < -2 ^ 63 ∨ value > 2 ^ 64 - 1 then fail .malformedPayload
  else .ok ⟨value, by omega, by omega⟩

/-- LxmfFieldScratch: room for sixty-four keys, whatever an earlier call left there. -/
structure FieldScratch where
  keys : List Int
  size : keys.length = 64

def FieldScratch.before (scratch : FieldScratch) (position : Nat) : Result (List Int) :=
  if position ≤ 64 then .ok (scratch.keys.take position) else panic

def FieldScratch.store (scratch : FieldScratch) (position : Nat) (key : Int) : Result FieldScratch :=
  if position < 64 then
    .ok ⟨scratch.keys.set position key, by rw [List.length_set, scratch.size]⟩
  else panic

def FieldScratch.new : FieldScratch := ⟨List.replicate 64 0, List.length_replicate⟩

end LxmfLite.Message
