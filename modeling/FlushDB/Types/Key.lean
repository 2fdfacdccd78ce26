import Mathlib.Data.List.Lex
import Mathlib.Order.Lattice
import Mathlib.Algebra.GroupWithZero.Nat

/-!
Byte strings, the error type and composite keys. A composite key is the bytes
`[record_id][0x00][item_key]`; its order is the order of these bytes.
-/

namespace FlushDB

/-- An immutable byte string, compared byte by byte. -/
structure Bytes where
  data : List UInt8
  deriving DecidableEq, Repr

namespace Bytes

instance uint8LinearOrder : LinearOrder UInt8 where
  le_refl := UInt8.le_refl
  le_trans _ _ _ := UInt8.le_trans
  le_antisymm _ _ := UInt8.le_antisymm
  le_total := UInt8.le_total
  lt_iff_le_not_ge a b := by
    simp only [UInt8.le_iff_toNat_le, UInt8.lt_iff_toNat_lt]
    omega
  toDecidableLE := inferInstance
  toDecidableLT := inferInstance
  toDecidableEq := inferInstance
  min_def _ _ := rfl
  max_def _ _ := rfl
  compare_eq_compareOfLessAndEq _ _ := rfl

theorem data_injective : Function.Injective Bytes.data := fun a b same => by
  cases a
  cases b
  exact congrArg Bytes.mk same

instance : LinearOrder Bytes := LinearOrder.lift' Bytes.data data_injective

def new : Bytes := ⟨[]⟩
def len (b : Bytes) : Nat := b.data.length
def isEmpty (b : Bytes) : Bool := b.data.isEmpty

end Bytes

inductive FlushError where
  | io (message : String)
  | keyTooLong (field : String) (actual max : Nat)
  | invalidKey (reason : String)
  | notFound (key : String)
  | preconditionFailed (message : String)
  | crcMismatch (expected actual : Nat)
  | corruptedData (message : String)
  | duplicateToken (token : String)
  | resourceExhausted (resource message : String)
  | epochFenced (expected actual : Nat)
  | invalidArgument (message : String)
  deriving DecidableEq, Repr

abbrev FlushResult (α : Type) := Except FlushError α

theorem FlushResult.ok_of_toOption {α : Type} {result : FlushResult α} {a : α}
    (h : result.toOption = some a) :
    result = .ok a := by
  cases result with
  | error e => cases h
  | ok b => exact congrArg Except.ok (Option.some.inj h)

def maxRecordIdLen : Nat := 256
def maxItemKeyLen : Nat := 4096
def separator : UInt8 := 0x00
def rangeTombstonePrefix : UInt8 := 0xFF

def validateRecordId (recordId : Bytes) : FlushResult Unit :=
  if recordId.isEmpty then .error (.invalidKey "record_id must not be empty")
  else if recordId.data.contains separator then
    .error (.invalidKey "record_id must not contain null bytes")
  else if recordId.len > maxRecordIdLen then
    .error (.keyTooLong "record_id" recordId.len maxRecordIdLen)
  else .ok ()

def validateItemKey (itemKey : Bytes) : FlushResult Unit :=
  if itemKey.len > maxItemKeyLen then .error (.keyTooLong "item_key" itemKey.len maxItemKeyLen)
  else .ok ()

/-- The encoded bytes, with the separator that makes them a composite key. -/
structure CompositeKey where
  bytes : Bytes
  separated : separator ∈ bytes.data
  deriving DecidableEq

namespace CompositeKey

theorem bytes_injective : Function.Injective CompositeKey.bytes := fun a b same => by
  cases a
  cases b
  cases same
  rfl

instance : LinearOrder CompositeKey := LinearOrder.lift' CompositeKey.bytes bytes_injective

theorem lt_iff_bytes {a b : CompositeKey} : a < b ↔ a.bytes < b.bytes := Iff.rfl
theorem le_iff_bytes {a b : CompositeKey} : a ≤ b ↔ a.bytes ≤ b.bytes := Iff.rfl

/-- `[record_id][0x00]` followed by the given item bytes. -/
def encode (recordId : Bytes) (item : List UInt8) : CompositeKey where
  bytes := ⟨recordId.data ++ separator :: item⟩
  separated := by simp

def new (recordId itemKey : Bytes) : FlushResult CompositeKey := do
  validateRecordId recordId
  validateItemKey itemKey
  return encode recordId itemKey.data

def fromRecordOnly (recordId : Bytes) : FlushResult CompositeKey := new recordId Bytes.new

/-- `[record_id][0x00][0xFF][start_key]`. -/
def rangeTombstoneKey (recordId startKey : Bytes) : FlushResult CompositeKey := do
  validateRecordId recordId
  let itemLen := 1 + startKey.len
  if itemLen > maxItemKeyLen then
    throw (.keyTooLong "item_key" itemLen maxItemKeyLen)
  return encode recordId (rangeTombstonePrefix :: startKey.data)

def minKeyForRecord (recordId : Bytes) : FlushResult CompositeKey := fromRecordOnly recordId

/-- `[record_id][0x00][0xFF]`: after every data key of the record that does not start with
`0xFF`, at or before its range tombstones. -/
def maxKeyForRecord (recordId : Bytes) : FlushResult CompositeKey := do
  validateRecordId recordId
  return encode recordId [rangeTombstonePrefix]

def fromBytes (bytes : Bytes) : FlushResult CompositeKey :=
  if separated : separator ∈ bytes.data then .ok ⟨bytes, separated⟩
  else .error (.invalidKey "composite key must contain at least one 0x00 separator")

/-- The bytes before the first separator. -/
def recordId (key : CompositeKey) : Bytes := ⟨key.bytes.data.takeWhile (· ≠ separator)⟩

/-- The bytes after the first separator. -/
def itemKey (key : CompositeKey) : Bytes := ⟨(key.bytes.data.dropWhile (· ≠ separator)).tail⟩

end CompositeKey

/-- A successful validation says the record id is not empty, holds no separator and fits. -/
theorem validateRecordId_ok {recordId : Bytes} {u : Unit} (h : validateRecordId recordId = .ok u) :
    recordId.data ≠ [] ∧ separator ∉ recordId.data ∧ recordId.len ≤ maxRecordIdLen := by
  unfold validateRecordId at h
  split at h
  · cases h
  split at h
  · cases h
  split at h
  · cases h
  · rename_i nonempty noSeparator fits
    refine ⟨?_, ?_, by omega⟩
    · intro empty
      simp [Bytes.isEmpty, empty] at nonempty
    · simpa using noSeparator

namespace CompositeKey

theorem encode_recordId {recordId : Bytes} {item : List UInt8} (clean : separator ∉ recordId.data) :
    (encode recordId item).recordId = recordId := by
  have prefix_ne : ∀ b ∈ recordId.data, b ≠ separator := fun b member same => clean (same ▸ member)
  apply Bytes.data_injective
  simp only [CompositeKey.recordId, encode]
  rw [List.takeWhile_append_of_pos (by simpa using prefix_ne)]
  simp

theorem encode_itemKey {recordId : Bytes} {item : List UInt8} (clean : separator ∉ recordId.data) :
    (encode recordId item).itemKey = ⟨item⟩ := by
  have prefix_ne : ∀ b ∈ recordId.data, b ≠ separator := fun b member same => clean (same ▸ member)
  apply Bytes.data_injective
  simp only [CompositeKey.itemKey, encode]
  rw [List.dropWhile_append_of_pos (by simpa using prefix_ne)]
  simp

theorem split_at_separator {bytes : List UInt8} (h : separator ∈ bytes) :
    bytes.takeWhile (· ≠ separator) ++ separator :: (bytes.dropWhile (· ≠ separator)).tail = bytes := by
  induction bytes with
  | nil => cases h
  | cons b rest ih =>
    by_cases here : b = separator
    · simp [here]
    · have later : separator ∈ rest := (List.mem_cons.mp h).resolve_left fun same => here same.symm
      simpa [here] using ih later

theorem encode_parts (key : CompositeKey) : encode key.recordId key.itemKey.data = key := by
  apply bytes_injective
  apply Bytes.data_injective
  exact split_at_separator key.separated

theorem recordId_clean (key : CompositeKey) : separator ∉ key.recordId.data := by
  intro inside
  have other := List.all_eq_true.mp List.all_takeWhile separator inside
  simp at other

theorem new_ok {recordId itemKey : Bytes} {key : CompositeKey}
    (h : new recordId itemKey = .ok key) :
    separator ∉ recordId.data ∧ key = encode recordId itemKey.data := by
  unfold new at h
  cases record : validateRecordId recordId with
  | error e => simp [record, bind, Except.bind] at h
  | ok u =>
    cases item : validateItemKey itemKey with
    | error e => simp [record, item, bind, Except.bind] at h
    | ok v =>
      simp only [record, item, bind, Except.bind, pure, Except.pure, Except.ok.injEq] at h
      exact ⟨(validateRecordId_ok record).2.1, h.symm⟩

theorem new_bounds {recordId itemKey : Bytes} {key : CompositeKey}
    (h : new recordId itemKey = .ok key) :
    recordId.data ≠ [] ∧ recordId.len ≤ maxRecordIdLen ∧ itemKey.len ≤ maxItemKeyLen := by
  unfold new at h
  cases record : validateRecordId recordId with
  | error e => simp [record, bind, Except.bind] at h
  | ok u =>
    by_cases long : itemKey.len > maxItemKeyLen
    · simp [record, validateItemKey, long, bind, Except.bind] at h
    · obtain ⟨nonempty, -, short⟩ := validateRecordId_ok record
      exact ⟨nonempty, short, by omega⟩

theorem rangeTombstoneKey_bounds {recordId startKey : Bytes} {key : CompositeKey}
    (h : rangeTombstoneKey recordId startKey = .ok key) :
    recordId.data ≠ [] ∧ recordId.len ≤ maxRecordIdLen ∧ startKey.len + 1 ≤ maxItemKeyLen := by
  unfold rangeTombstoneKey at h
  cases record : validateRecordId recordId with
  | error e => simp [record, bind, Except.bind] at h
  | ok u =>
    simp only [record, bind, Except.bind, pure, Except.pure] at h
    split at h
    · cases h
    · obtain ⟨nonempty, -, short⟩ := validateRecordId_ok record
      exact ⟨nonempty, short, by omega⟩

theorem rangeTombstoneKey_ok {recordId startKey : Bytes} {key : CompositeKey}
    (h : rangeTombstoneKey recordId startKey = .ok key) :
    separator ∉ recordId.data ∧ key = encode recordId (rangeTombstonePrefix :: startKey.data) := by
  unfold rangeTombstoneKey at h
  cases record : validateRecordId recordId with
  | error e => simp [record, bind, Except.bind] at h
  | ok u =>
    simp only [record, bind, Except.bind, pure, Except.pure] at h
    split at h
    · cases h
    · exact ⟨(validateRecordId_ok record).2.1, (Except.ok.inj h).symm⟩

theorem new_recordId {recordId itemKey : Bytes} {key : CompositeKey}
    (h : new recordId itemKey = .ok key) :
    validateRecordId key.recordId = .ok () := by
  obtain ⟨clean, same⟩ := new_ok h
  rw [same, encode_recordId clean]
  unfold new at h
  cases record : validateRecordId recordId with
  | error e => simp [record, bind, Except.bind] at h
  | ok u => rfl

theorem rangeTombstoneKey_recordId {recordId startKey : Bytes} {key : CompositeKey}
    (h : rangeTombstoneKey recordId startKey = .ok key) :
    validateRecordId key.recordId = .ok () := by
  obtain ⟨clean, same⟩ := rangeTombstoneKey_ok h
  rw [same, encode_recordId clean]
  unfold rangeTombstoneKey at h
  cases record : validateRecordId recordId with
  | error e => simp [record, bind, Except.bind] at h
  | ok u => rfl

theorem minKeyForRecord_ok {recordId : Bytes} (valid : validateRecordId recordId = .ok ()) :
    minKeyForRecord recordId = .ok (encode recordId []) := by
  simp [minKeyForRecord, fromRecordOnly, new, valid, validateItemKey, Bytes.new, Bytes.len, bind,
    Except.bind, pure, Except.pure]

theorem encode_lt_encode {recordId : Bytes} {a b : List UInt8} :
    encode recordId a < encode recordId b ↔ a < b := by
  show recordId.data ++ separator :: a < recordId.data ++ separator :: b ↔ a < b
  induction recordId.data with
  | nil =>
    rw [List.nil_append, List.nil_append, List.cons_lt_cons_iff]
    simp
  | cons x rest ih =>
    rw [List.cons_append, List.cons_append, List.cons_lt_cons_iff]
    simp [ih]

/-- Behind a range tombstone of a record there are only keys with its mark. -/
theorem marked_of_lt {a b : CompositeKey} (same : a.recordId = b.recordId) (less : a < b)
    (marked : a.itemKey.data.head? = some rangeTombstonePrefix) :
    b.itemKey.data.head? = some rangeTombstonePrefix := by
  rw [← encode_parts a, ← encode_parts b, same, encode_lt_encode] at less
  obtain ⟨rest, first⟩ := List.head?_eq_some_iff.mp marked
  rw [first] at less
  cases second : b.itemKey.data with
  | nil =>
    rw [second] at less
    exact absurd less (List.not_lt_nil _)
  | cons x more =>
    rw [second, List.cons_lt_cons_iff] at less
    rcases less with above | ⟨equal, -⟩
    · exact absurd above (by
        rw [UInt8.lt_iff_toNat_lt]
        have := x.toNat_lt
        simp [rangeTombstonePrefix]
        omega)
    · rw [← equal]
      rfl

theorem starts_of_between {first bytes last : List UInt8} (low : first ≤ bytes)
    (high : bytes ≤ first ++ last) :
    first <+: bytes := by
  induction first generalizing bytes with
  | nil => exact List.nil_prefix
  | cons x rest ih =>
    cases bytes with
    | nil => exact absurd low (not_le.mpr (List.nil_lt_cons x rest))
    | cons y more =>
      rw [List.cons_append] at high
      have above : ¬ (y :: more < x :: rest) := not_lt.mpr low
      have below : ¬ (x :: (rest ++ last) < y :: more) := not_lt.mpr high
      rw [List.cons_lt_cons_iff, not_or, not_and] at above below
      obtain rfl : x = y := le_antisymm (not_lt.mp above.1) (not_lt.mp below.1)
      obtain ⟨after, rfl⟩ := ih (not_lt.mp (above.2 rfl)) (not_lt.mp (below.2 rfl))
      exact ⟨after, rfl⟩

/-- The keys of a record begin with its first possible key. -/
theorem encode_nil_le (key : CompositeKey) : encode key.recordId [] ≤ key := by
  conv_rhs => rw [← encode_parts key]
  exact not_lt.mp fun less => List.not_lt_nil _ (encode_lt_encode.mp less)

/-- Between its first possible key and any key of a record there are only keys of the record. -/
theorem recordId_of_between {recordId : Bytes} (clean : separator ∉ recordId.data)
    {a b : CompositeKey} (low : encode recordId [] ≤ a) (high : a ≤ b)
    (same : b.recordId = recordId) : a.recordId = recordId := by
  have split : b.bytes.data = (recordId.data ++ [separator]) ++ b.itemKey.data := by
    conv_lhs => rw [← encode_parts b]
    simp [encode, same]
  obtain ⟨item, whole⟩ := @starts_of_between (recordId.data ++ [separator]) a.bytes.data
    b.itemKey.data low (split ▸ high)
  have key : a = encode recordId item := by
    apply bytes_injective
    apply Bytes.data_injective
    rw [← whole]
    simp [encode]
  rw [key, encode_recordId clean]

end CompositeKey

end FlushDB
