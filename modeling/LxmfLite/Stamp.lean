import LxmfLite.Message

namespace LxmfLite.Stamp

open ByteString Execution
open Message (ticketLength)

/-- The hash functions that proof of work rests on: SHA-256 of a whole input,
and the 256 bytes that HKDF-SHA256 expands for a salt and a key, with no info. -/
structure Hashing where
  sha256 : Bytes → Block 32
  hkdf : Block 32 → Block 32 → Block 256

def ticketStamp (H : Hashing) (ticket : Block ticketLength) (messageId : Block 32) : Block ticketLength :=
  ⟨(H.sha256 (ticket.val ++ messageId.val)).val.take ticketLength,
    List.length_take_of_le (by rw [(H.sha256 _).property]; decide)⟩

/-- A call that returns no Result; it can only panic. -/
abbrev Total (α : Type) := Outcome Empty α

def checkedSub (a b : Nat) : Total Nat := if b ≤ a then .ok (a - b) else panic

/-- counter += 1 of an unsigned integer with the given maximum -/
def checkedSucc (max counter : Nat) : Total Nat := if counter < max then .ok (counter + 1) else panic

def expect {α : Type} : Option α → Total α
  | some a => .ok a
  | none => panic

inductive StampKind
  | message
  | propagation
  | peering
  deriving DecidableEq

def StampKind.rounds : StampKind → Nat
  | .message => 3000
  | .propagation => 1000
  | .peering => 25

/-- The bytes of a round number: out[..n] of pack_round. -/
def packRound (round : Nat) : Bytes :=
  if round ≤ 0x7f then [UInt8.ofNat round]
  else if round ≤ 0xff then [0xcc, UInt8.ofNat round]
  else 0xcd :: toBe 2 round

/-- The unfinished SHA-256 state is the string it has absorbed. -/
structure Workblock where
  material : Block 32
  absorbed : Bytes
  completed : Nat
  rounds : Nat
  deriving DecidableEq

def leadingZeros (b : UInt8) : Nat := if b = 0 then 8 else 7 - b.toNat.log2

/-- The loop of Workblock::value over the digest. -/
def leadingZeroBits : Bytes → Nat
  | [] => 0
  | b :: bs => leadingZeros b + if b ≠ 0 then 0 else leadingZeroBits bs

namespace Workblock

def new (material : Block 32) (kind : StampKind) : Workblock := ⟨material, [], 0, kind.rounds⟩

def ready (workblock : Workblock) : Bool := workblock.completed == workblock.rounds

def chunk (H : Hashing) (material : Block 32) (round : Nat) : Block 256 :=
  H.hkdf (H.sha256 (material.val ++ packRound round)) material

/-- The body of the loop of advance. -/
def advanceRound (H : Hashing) (workblock : Workblock) : Total Workblock := do
  let absorbed := workblock.absorbed ++ (chunk H workblock.material workblock.completed).val
  let completed ← checkedSucc 0xffff workblock.completed
  pure { workblock with absorbed := absorbed, completed := completed }

def advanceRounds (H : Hashing) : Nat → Workblock → Total Workblock
  | 0, workblock => pure workblock
  | n + 1, workblock => do
      let workblock ← advanceRound H workblock
      advanceRounds H n workblock

def advance (H : Hashing) (workblock : Workblock) (budget : UInt16) : Total (Bool × Workblock) := do
  let left ← checkedSub workblock.rounds workblock.completed
  let workblock ← advanceRounds H (min budget.toNat left) workblock
  pure (workblock.ready, workblock)

def value (H : Hashing) (workblock : Workblock) (stamp : Block 32) : Option Nat :=
  if workblock.ready then
    some (leadingZeroBits (H.sha256 (workblock.absorbed ++ stamp.val)).val)
  else none

end Workblock

inductive Progress
  | preparing (completed total : Nat)
  | searching (attempts : Nat)
  | complete (stamp : Block 32) (value : Nat)
  | exhausted
  | cancelled
  deriving DecidableEq

/-- The loop that adds one to a nonce, last byte first. -/
def carry : Bytes → Bytes
  | [] => []
  | b :: bs => if b.toNat + 1 > 0xff then (b + 1) :: carry bs else (b + 1) :: bs

theorem carry_length (bs : Bytes) : (carry bs).length = bs.length := by
  induction bs with
  | nil => rfl
  | cons b bs ih =>
      rw [carry]
      split
      · rw [List.length_cons, List.length_cons, ih]
      · rfl

def increment (nonce : Block 32) : Block 32 :=
  ⟨(carry nonce.val.reverse).reverse, by
    rw [List.length_reverse, carry_length, List.length_reverse, nonce.2]⟩

structure StampSearch where
  workblock : Workblock
  nonce : Block 32
  cost : Nat
  attempts : Nat
  limit : Nat
  progress : Progress
  deriving DecidableEq

namespace StampSearch

def new (material : Block 32) (kind : StampKind) (cost : UInt8) (seed : Block 32)
    (attemptLimit : UInt64) : StampSearch where
  workblock := .new material kind
  nonce := seed
  cost := cost.toNat
  attempts := 0
  limit := attemptLimit.toNat
  progress :=
    if cost = 0 then .complete ⟨List.replicate 32 0, List.length_replicate⟩ 0
    else if attemptLimit = 0 then .exhausted
    else .preparing 0 kind.rounds

def cancel (search : StampSearch) : StampSearch :=
  match search.progress with
  | .preparing _ _ => { search with progress := .cancelled }
  | .searching _ => { search with progress := .cancelled }
  | _ => search

/-- The body of the loop of step: whether the search is over, and its state. -/
def attempt (H : Hashing) (search : StampSearch) : Total (Bool × StampSearch) := do
  let value ← expect (search.workblock.value H search.nonce)
  let attempts ← checkedSucc 0xffffffffffffffff search.attempts
  if value ≥ search.cost then
    pure (true, { search with attempts := attempts, progress := .complete search.nonce value })
  else pure (false, { search with attempts := attempts, nonce := increment search.nonce })

/-- The loop of step, and what follows it. -/
def tries (H : Hashing) : Nat → StampSearch → Total StampSearch
  | 0, search =>
      pure { search with progress :=
        if search.attempts = search.limit then .exhausted else .searching search.attempts }
  | n + 1, search => do
      let (done, search) ← attempt H search
      if done then pure search else tries H n search

/-- The call returns the progress of the state it leaves. -/
def step (H : Hashing) (search : StampSearch) (roundBudget : UInt16) (attemptBudget : UInt32) :
    Total StampSearch :=
  match search.progress with
  | .preparing _ total => do
      let (ready, workblock) ← search.workblock.advance H roundBudget
      let progress :=
        if ready then .searching search.attempts else .preparing workblock.completed total
      pure { search with workblock := workblock, progress := progress }
  | .searching _ => do
      let left ← checkedSub search.limit search.attempts
      tries H (min attemptBudget.toNat left) search
  | _ => pure search

end StampSearch

end LxmfLite.Stamp
