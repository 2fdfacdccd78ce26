import FlushDB.Types.Key

/-! Entry types, idempotency tokens and the entries the memtable and the tables hold. -/

namespace FlushDB

inductive EntryType where
  | put | delete | rangeDelete
  deriving DecidableEq, Repr

def EntryType.asU8 : EntryType → UInt8
  | .put => 0
  | .delete => 1
  | .rangeDelete => 2

def EntryType.fromU8 (value : UInt8) : FlushResult EntryType :=
  if value = 0 then .ok .put
  else if value = 1 then .ok .delete
  else if value = 2 then .ok .rangeDelete
  else .error (.corruptedData s!"unknown EntryType discriminant: {value}")

theorem EntryType.fromU8_asU8 (t : EntryType) : EntryType.fromU8 t.asU8 = .ok t := by
  cases t <;> rfl

/-- Twenty-four bytes: the generation time and the token proper. -/
structure IdempotencyToken where
  data : Vector UInt8 24
  deriving DecidableEq, Repr

namespace IdempotencyToken

def none : IdempotencyToken := ⟨Vector.replicate 24 0⟩

def isNone (token : IdempotencyToken) : Bool := token = none

end IdempotencyToken

/-- An entry of a memtable. `origin` is ghost: it names the write of the run that the entry
comes from, and no function reads it. -/
structure MemtableEntry where
  compositeKey : CompositeKey
  value : Bytes
  metadata : Bytes
  idempotencyKey : IdempotencyToken
  sequenceNumber : Nat
  entryType : EntryType
  origin : Nat
  deriving DecidableEq

namespace MemtableEntry

def recordId (e : MemtableEntry) : Bytes := e.compositeKey.recordId
def itemKey (e : MemtableEntry) : Bytes := e.compositeKey.itemKey

def isTombstone (e : MemtableEntry) : Bool :=
  match e.entryType with
  | .delete | .rangeDelete => true
  | .put => false

end MemtableEntry

end FlushDB
