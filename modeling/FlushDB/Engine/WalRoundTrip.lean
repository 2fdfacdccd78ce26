import FlushDB.Engine.Steps
import FlushDB.Engine.Recovery
import FlushDB.Wal.SegmentBytes

/-!
What the engine submits to the log and what is read back. The keys are checked to fit their
length fields and the value has four bytes for its length; the length of the metadata is cut to
two bytes, and nothing checks it.
-/

namespace FlushDB
open Lib

namespace CompositeKey

/-- The parts of a key that was checked make the key again. -/
theorem new_parts {key : CompositeKey} (record : validateRecordId key.recordId = .ok ())
    (item : key.itemKey.len ≤ maxItemKeyLen) :
    new key.recordId key.itemKey = .ok key := by
  have short : ¬ key.itemKey.len > maxItemKeyLen := by omega
  simp only [new, record, validateItemKey, if_neg short, bind, Except.bind, pure, Except.pure,
    encode_parts]

end CompositeKey

namespace Engine

/-- The entry that one of the writes submits to the log. -/
inductive Submits (env : Env) : MemtableEntry → Prop where
  | put {origin : Nat} {recordId itemKey value metadata : Bytes} {token : Option IdempotencyToken}
      {pressured : Bool}
      {s : Engine} {e : MemtableEntry}
      (prepared : preparePut env origin recordId itemKey value metadata token pressured s = .ok e) :
        Submits env e
  | putBatch {origin : Nat} {recordId : Bytes} {items : List PutBatchItem} {pressured : Bool}
      {s : Engine}
      {entries : List MemtableEntry} {e : MemtableEntry}
      (prepared : prepareBatch env origin recordId items pressured s = .ok entries)
        (member : e ∈ entries) : Submits env e
  | delete {origin : Nat} {recordId itemKey : Bytes} {pressured : Bool} {s : Engine} {e : MemtableEntry}
      (prepared : prepareDelete env origin recordId itemKey pressured s = .ok e) : Submits env e
  | deleteRange {origin : Nat} {recordId startKey endKey : Bytes} {pressured : Bool} {s : Engine}
      {e : MemtableEntry}
      (prepared : prepareDeleteRange env origin recordId startKey endKey pressured s = .ok e) :
        Submits env e

/-- The key of an entry was checked. -/
structure KeyChecked (e : MemtableEntry) : Prop where
  record : validateRecordId e.compositeKey.recordId = .ok ()
  recordId : e.recordId.len ≤ maxRecordIdLen
  itemKey : e.itemKey.len ≤ maxItemKeyLen

theorem keyChecked_new {e : MemtableEntry} {recordId itemKey : Bytes}
    (made : CompositeKey.new recordId itemKey = .ok e.compositeKey) :
    KeyChecked e := by
  obtain ⟨clean, key⟩ := CompositeKey.new_ok made
  obtain ⟨-, short, item⟩ := CompositeKey.new_bounds made
  refine ⟨CompositeKey.new_recordId made, ?_, ?_⟩
  · rw [MemtableEntry.recordId, key, CompositeKey.encode_recordId clean]
    exact short
  · rw [MemtableEntry.itemKey, key, CompositeKey.encode_itemKey clean]
    exact item

/-- The marker of a range deletion counts toward the length of the item key. -/
theorem keyChecked_rangeTombstone {e : MemtableEntry} {recordId startKey : Bytes}
    (made : CompositeKey.rangeTombstoneKey recordId startKey = .ok e.compositeKey) :
    KeyChecked e := by
  obtain ⟨clean, key⟩ := CompositeKey.rangeTombstoneKey_ok made
  obtain ⟨-, short, start⟩ := CompositeKey.rangeTombstoneKey_bounds made
  refine ⟨CompositeKey.rangeTombstoneKey_recordId made, ?_, ?_⟩
  · rw [MemtableEntry.recordId, key, CompositeKey.encode_recordId clean]
    exact short
  · rw [MemtableEntry.itemKey, key, CompositeKey.encode_itemKey clean]
    exact start

theorem Submits.keyChecked {env : Env} {e : MemtableEntry} (h : Submits env e) : KeyChecked e := by
  cases h with
  | put prepared =>
    obtain ⟨key, made, -, rfl⟩ := World.preparePut_ok prepared
    exact keyChecked_new made
  | putBatch prepared member =>
    obtain ⟨-, itemKey, made⟩ := prepareBatch_put prepared _ member
    exact keyChecked_new made
  | delete prepared =>
    obtain ⟨key, made, rfl⟩ := World.prepareDelete_ok prepared
    exact keyChecked_new made
  | deleteRange prepared =>
    obtain ⟨key, made, rfl⟩ := World.prepareDeleteRange_ok prepared
    exact keyChecked_rangeTombstone made

/-- From the bytes that are written for it, whatever follows them, the log entry is read back
exactly, and it makes the memtable entry again. The ghost is not written. -/
def RoundTrips (crc32 : List UInt8 → UInt32) (ns : Bytes) (e : MemtableEntry) : Prop :=
  let logged := WalEntry.fromMemtableEntry e ns
  (∀ header rest, SegmentReader.nextEntry crc32 ⟨header, logged.encodeInto crc32 ++ rest⟩ =
    .ok (some (logged.stored, ⟨header, rest⟩))) ∧
  logged.stored.toMemtableEntry = .ok { e with origin := 0 }

section RoundTrip
variable {crc32 : List UInt8 → UInt32} {ns : Bytes} {e : MemtableEntry}

theorem toMemtableEntry_stored (checked : KeyChecked e) :
    (WalEntry.fromMemtableEntry e ns).stored.toMemtableEntry = .ok { e with origin := 0 } := by
  have key := CompositeKey.new_parts checked.record checked.itemKey
  simp only [WalEntry.toMemtableEntry, WalEntry.stored, WalEntry.fromMemtableEntry,
    MemtableEntry.recordId, MemtableEntry.itemKey, key]

/-- Everything but the metadata fits its length field. -/
theorem logged_fits (checked : KeyChecked e) (named : ns.len ≤ 255)
    (sized : e.value.len + e.metadata.len < 2 ^ 31) :
    (WalEntry.fromMemtableEntry e ns).recordId.len < 2 ^ 16 ∧
      (WalEntry.fromMemtableEntry e ns).itemKey.len < 2 ^ 16 ∧
      (WalEntry.fromMemtableEntry e ns).bodySize < 2 ^ 32 := by
  have record := checked.recordId
  have item := checked.itemKey
  simp only [maxRecordIdLen] at record
  simp only [maxItemKeyLen] at item
  simp only [WalEntry.fromMemtableEntry, WalEntry.bodySize, WalEntry.fixedBodyOverhead]
  omega

/-- Metadata that is longer than its length can say is not read back. -/
theorem not_roundTrips (checked : KeyChecked e) (numbered : e.sequenceNumber < 2 ^ 64)
    (named : ns.len ≤ 255) (sized : e.value.len + e.metadata.len < 2 ^ 31)
    (long : 2 ^ 16 ≤ e.metadata.len) : ¬ RoundTrips crc32 ns e := by
  intro trips
  obtain ⟨record, item, body⟩ := @logged_fits ns e checked named sized
  have decodes : (WalEntry.fromMemtableEntry e ns).Decodes :=
    WalEntry.decodes_of_lengths (show ns.len < 2 ^ 16 by omega) record item body
  have given := trips.1 (SegmentHeader.new 0 0 0) []
  rw [SegmentReader.nextEntry_reread decodes numbered] at given
  obtain ⟨same, -⟩ := Prod.mk.inj (Option.some.inj (Except.ok.inj given))
  have short : e.metadata.len < 2 ^ 16 := (WalEntry.fits_of_reread decodes same).2.2.2.1
  exact absurd short (Nat.not_lt.mpr long)

/-- An entry that a write submits comes back from the log exactly when its metadata is shorter
than two bytes can say. -/
theorem wal_round_trips_iff {env : Env} (submitted : Submits env e)
    (numbered : e.sequenceNumber < 2 ^ 64) (named : (Bytes.ofString env.config.ns).len ≤ 255)
    (sized : e.value.len + e.metadata.len < 2 ^ 31) :
    RoundTrips crc32 (Bytes.ofString env.config.ns) e ↔ e.metadata.len < 2 ^ 16 := by
  have checked := submitted.keyChecked
  constructor
  · intro trips
    by_contra long
    exact not_roundTrips checked numbered named sized (Nat.le_of_not_lt long) trips
  · intro short
    obtain ⟨record, item, body⟩ := logged_fits checked named sized
    have storable : (WalEntry.fromMemtableEntry e (Bytes.ofString env.config.ns)).Storable :=
      ⟨⟨show (Bytes.ofString env.config.ns).len <
        2 ^ 16 by omega, record, item, short, show e.value.len < 2 ^ 32 by omega, body⟩,
        numbered⟩
    exact ⟨fun header rest => SegmentReader.nextEntry_encoded storable rest,
      toMemtableEntry_stored checked⟩

end RoundTrip

section Example

/-- A new engine submits a `put` of any metadata. -/
theorem submits_metadata (metadata : Bytes) :
    ∃ e, Submits (World.sampleEnv 100) e ∧ e.sequenceNumber = 1 ∧ e.value = ⟨[118]⟩ ∧
      e.metadata = metadata := by
  have opens : ∃ s, (openStored (World.sampleEnv 100) 0 none {}).1 = .ok s ∧ s.nextSequence = 1 ∧
      s.memtableList.knows .none = false ∧ checkWriteStall (World.sampleEnv 100) false s = .ok () := by
    refine ⟨_, rfl, ?_⟩
    decide
  obtain ⟨s, -, first, unknown, going⟩ := opens
  have key : CompositeKey.new ⟨[114]⟩ ⟨[107]⟩ = .ok (CompositeKey.encode ⟨[114]⟩ [107]) := rfl
  have prepared : preparePut (World.sampleEnv 100) 0 ⟨[114]⟩ ⟨[107]⟩ ⟨[118]⟩ metadata none false s =
      .ok ⟨CompositeKey.encode ⟨[114]⟩ [107], ⟨[118]⟩, metadata, .none, s.nextSequence, .put, 0⟩ := by
    simp [preparePut, going, key, MemtableList.checkDedup, unknown, bind, Except.bind, pure,
      Except.pure]
  exact ⟨_, .put prepared, first, rfl, rfl⟩

theorem sampleEnv_named : (Bytes.ofString (World.sampleEnv 100).config.ns).len ≤ 255 := by
  decide +kernel

/-- Metadata of 65536 bytes is accepted, and does not come back. -/
theorem long_metadata_lost :
    ∃ e, Submits (World.sampleEnv 100) e ∧ e.metadata = ⟨List.replicate 65536 109⟩ ∧
    ¬ RoundTrips Lib.crc32 (Bytes.ofString (World.sampleEnv 100).config.ns) e := by
  obtain ⟨e, submitted, number, value, metadata⟩ := submits_metadata ⟨List.replicate 65536 109⟩
  have length : e.metadata.len = 65536 := by rw [metadata, Bytes.len, List.length_replicate]
  have short : e.value.len = 1 := by rw [value, Bytes.len, List.length_singleton]
  exact ⟨e, submitted, metadata, not_roundTrips
    submitted.keyChecked (by omega) sampleEnv_named (by omega) (by omega)⟩

/-- Metadata of three bytes. -/
theorem wal_round_trips_iff_short : ∃ e, Submits (World.sampleEnv 100) e ∧
    (RoundTrips Lib.crc32 (Bytes.ofString (World.sampleEnv 100).config.ns) e ↔
      e.metadata.len < 2 ^ 16) := by
  obtain ⟨e, submitted, number, value, metadata⟩ := submits_metadata ⟨[1, 2, 3]⟩
  have length : e.metadata.len = 3 := by rw [metadata, Bytes.len]; rfl
  have short : e.value.len = 1 := by rw [value, Bytes.len, List.length_singleton]
  exact ⟨e, submitted, wal_round_trips_iff submitted (by omega) sampleEnv_named (by omega)⟩

end Example

end Engine

end FlushDB
